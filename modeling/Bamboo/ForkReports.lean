import Bamboo.CommitRuns

/-!
# What commits report about pruned blocks

Every commit prunes the levels below its block and sorts the pruned blocks:
those it met on its way down have been committed, the others are forked. The
question is whether each block that was stored and is gone has been reported
exactly once, as committed if a committed block descends from it and as forked
otherwise. It has, from the second commit on; at the first one a stored ancestor
beyond a missing block is taken for a fork.
-/
namespace Bamboo

open Relation LevelledForest

/-- `x` is `b` or an ancestor of it, by the parent ids of the set. -/
def Ancestor (U : Set Block) (b x : Block) : Prop :=
  ReflTransGen (fun b p => p ∈ U ∧ p.id = b.prevID) b x

section Ancestor

variable {U : Set Block} {f : LevelledForest} {b x y : Block}

theorem Ancestor.mem_le (hU : Treelike U) (hb : b ∈ U) (h : Ancestor U b x) :
    x ∈ U ∧ x.level ≤ b.level := by
  induction h with
  | refl => exact ⟨hb, UInt64.le_refl _⟩
  | tail _ hstep ih =>
    have hlt := (hU.parent_level ih.1 hstep.1 hstep.2).2
    exact ⟨hstep.1, UInt64.le_trans (UInt64.le_of_lt hlt) ih.2⟩

/-- The ancestors of a block are on one line. -/
theorem Ancestor.linear (hU : Treelike U) (hx : Ancestor U b x) (hy : Ancestor U b y) :
    Ancestor U x y ∨ Ancestor U y x := by
  refine ReflTransGen.total_of_right_unique (fun a p q hp hq => ?_) hx hy
  exact hU.ids p hp.1 q hq.1 (hp.2.trans hq.2.symm)

theorem Ancestor.of_joined (hU : Treelike U) (hf : f.Fits U) (hb : f.Stored b)
    (h : f.Joined b x) : Ancestor U b x := by
  induction h with
  | refl => exact .refl
  | tail hj hstep ih =>
    have hmem := (hf.mem_of_getVertex (hf.joined hU hb hj).1).1
    have hp := hf.storedParent hU hmem hstep
    exact ih.tail ⟨hp.1, hp.2.1⟩

/-- An ancestor above a stored one that is joined to the block is joined to it, too. -/
theorem Ancestor.joined (hU : Treelike U) (hf : f.Fits U) (hb : f.Stored b)
    (hy : f.Joined b y) (hx : Ancestor U b x) (hlt : y.level < x.level) : f.Joined b x := by
  induction hy using ReflTransGen.head_induction_on with
  | refl =>
    have hle := (hx.mem_le hU (hf.mem_of_getVertex hb).1).2
    exact absurd hlt (UInt64.not_lt.mpr hle)
  | @head b p hp hj ih =>
    rcases hx.cases_head with rfl | ⟨q, hq, hqx⟩
    · exact .refl
    · have hpb := hf.storedParent hU (hf.mem_of_getVertex hb).1 hp
      obtain rfl : q = p := hU.ids q hq.1 p hpb.1 (hq.2.trans hpb.2.1.symm)
      exact .head hp (ih (hf.stored_of_getVertex hp) hqx)

end Ancestor

/-- A commit keeps the blocks from its own level on. -/
theorem LevelledForest.Commits.stored_iff {U : Set Block} (hU : OnePerView U)
    {f f' : LevelledForest} (hf : f.Fits U) {b x : Block} {committed forked : List Block}
    (h : Commits f b committed forked f') : f'.Stored x ↔ f.Stored x ∧ b.level ≤ x.level := by
  have hvertexAt : f'.vertexAt = f.vertexAt := by
    funext a
    rw [vertexAt, vertexAt, h.heap]
  -- the container of a stored block has the block's level
  have hlevel : f.Stored x → ∀ a c, f.vertices.lookup x.id = some a → f.heap[a]? = some c →
      c.level = x.level := by
    intro hx a c ha hc
    obtain ⟨a', hat, -, ha', -⟩ := hf.atLevel_of_stored hU hx
    rw [ha] at ha'
    cases ha'
    obtain ⟨id, hlabel, -⟩ := (hf.listed x.level a).mp (hat ▸ List.mem_singleton_self a)
    rw [label_of_heap hc] at hlabel
    exact (Prod.mk.inj (Option.some.inj hlabel)).2
  constructor
  · intro hx
    obtain ⟨a, ha, hv⟩ := getVertex_eq_some.mp hx
    obtain ⟨ha, c, hc, hle⟩ := (h.vertices _ _).mp ha
    rw [hvertexAt] at hv
    have hx' : f.Stored x := getVertex_eq_some.mpr ⟨a, ha, hv⟩
    exact ⟨hx', hlevel hx' a c ha hc ▸ hle⟩
  · rintro ⟨hx, hle⟩
    obtain ⟨a, ha, hv⟩ := getVertex_eq_some.mp hx
    obtain ⟨c, hc, -⟩ := hf.named x.id a ha
    refine getVertex_eq_some.mpr ⟨a, (h.vertices _ _).mpr ⟨ha, c, hc, ?_⟩, hvertexAt ▸ hv⟩
    rwa [hlevel hx a c ha hc]

/-! ## The runs in question -/

namespace Session

/-- The block was stored after some of the calls. -/
def EverStored (n : ℕ) (calls : List ChainCall) (x : Block) : Prop :=
  ∃ past recent s, calls = past ++ recent ∧ (new n).run past = .ok s ∧ s.chain.forrest.Stored x

/-- The run commits, after `past` and in state `s`, the stored block `head`. -/
def CommitsAt (n : ℕ) (calls past : List ChainCall) (s : Session) (head : Block) : Prop :=
  ∃ id view recent, calls = past ++ .commitBlock id view :: recent ∧ (new n).run past = .ok s ∧
    s.chain.forrest.getVertex id = some head

/-- Each committed block descends from the one committed before, through blocks
that are stored at that time. -/
def Descending (n : ℕ) (calls : List ChainCall) : Prop :=
  ∀ past s head, CommitsAt n calls past s head → ∀ c ∈ s.commits.head?,
    s.chain.forrest.Joined head c.head

/-- At the first commit, no stored ancestor is cut off by a missing block. -/
def FirstUnbroken (U : Set Block) (n : ℕ) (calls : List ChainCall) : Prop :=
  ∀ past s head, CommitsAt n calls past s head → s.commits = [] →
    ∀ x, s.chain.forrest.Stored x → 1 < x.view → Ancestor U head x →
      s.chain.forrest.Joined head x

/-- Reported once in all, as committed exactly if a committed block descends from it. -/
def ReportedOnce (U : Set Block) (s : Session) (x : Block) : Prop :=
  s.committed.count x + s.forked.count x = 1 ∧
    (x ∈ s.committed ↔ ∃ c ∈ s.commits, Ancestor U c.head x)

variable {U : Set Block} {n : ℕ}

theorem CommitsAt.concat {calls past : List ChainCall} {s : Session} {head : Block}
    (h : CommitsAt n calls past s head) (c : ChainCall) :
    CommitsAt n (calls ++ [c]) past s head := by
  obtain ⟨id, view, recent, rfl, hrun, hget⟩ := h
  exact ⟨id, view, recent ++ [c], by simp, hrun, hget⟩

theorem Descending.of_concat {calls : List ChainCall} {c : ChainCall}
    (h : Descending n (calls ++ [c])) : Descending n calls :=
  fun past s head hc => h past s head (hc.concat c)

theorem FirstUnbroken.of_concat {calls : List ChainCall} {c : ChainCall}
    (h : FirstUnbroken U n (calls ++ [c])) : FirstUnbroken U n calls :=
  fun past s head hc => h past s head (hc.concat c)

/-- Stored before, or stored by the last call. -/
theorem EverStored.concat {calls : List ChainCall} {c : ChainCall} {s' : Session} {x : Block}
    (h : EverStored n (calls ++ [c]) x) (hrun : (new n).run (calls ++ [c]) = .ok s') :
    EverStored n calls x ∨ s'.chain.forrest.Stored x := by
  obtain ⟨past, recent, s, heq, hpast, hx⟩ := h
  rcases List.eq_nil_or_concat recent with rfl | ⟨recent, c', rfl⟩
  · rw [List.append_nil] at heq
    rw [← heq, hrun] at hpast
    cases hpast
    exact Or.inr hx
  · rw [List.concat_eq_append, ← List.append_assoc] at heq
    obtain ⟨heq, -⟩ := List.append_inj' heq rfl
    exact Or.inl ⟨past, recent, s, heq, hpast, hx⟩

/-! ## What holds after every call -/

/-- The last committed block is the lowest one stored, it has been delivered
once, and it descends from all that were committed before. Reported blocks are
not above it, and what is gone has been reported properly. -/
structure Audit (U : Set Block) (n : ℕ) (past : List ChainCall) (s : Session) : Prop where
  start : s.commits = [] → s.chain.forrest.lowestLevel = 0
  lowest : ∀ c ∈ s.commits.head?, s.chain.forrest.lowestLevel = c.head.level
  head : ∀ c ∈ s.commits.head?, s.chain.forrest.Stored c.head ∧ s.committed.count c.head = 1
  heads : ∀ last ∈ s.commits.head?, ∀ c ∈ s.commits, Ancestor U last.head c.head
  committed_le : ∀ x ∈ s.committed, x.level ≤ s.chain.forrest.lowestLevel
  forked_lt : ∀ x ∈ s.forked, x.level < s.chain.forrest.lowestLevel
  gone : ∀ x, EverStored n past x → ¬ s.chain.forrest.Stored x → 1 < x.view →
    x.level < s.chain.forrest.lowestLevel ∧ ReportedOnce U s x

theorem audit_new (U : Set Block) (n : ℕ) : Audit U n [] (new n) where
  start _ := rfl
  lowest c hc := by simp [new] at hc
  head c hc := by simp [new] at hc
  heads c hc := by simp [new] at hc
  committed_le x hx := by simp [new, committed] at hx
  forked_lt x hx := by simp [new, forked] at hx
  gone x hx hnot _ := by
    obtain ⟨past, recent, s, heq, hrun, hs⟩ := hx
    obtain ⟨rfl, rfl⟩ := List.append_eq_nil_iff.mp heq.symm
    cases hrun
    exact absurd hs hnot

section Step

variable {past : List ChainCall} {s : Session} {x : Block}

theorem Audit.notMem_forked (h : Audit U n past s) (hU : OnePerView U)
    (hf : s.chain.forrest.Fits U) (hx : s.chain.forrest.Stored x) : x ∉ s.forked := by
  intro hmem
  obtain ⟨-, -, -, -, hle⟩ := hf.atLevel_of_stored hU hx
  exact UInt64.not_lt.mpr hle (h.forked_lt x hmem)

theorem Audit.notMem_committed (h : Audit U n past s)
    (hlt : s.chain.forrest.lowestLevel < x.level) : x ∉ s.committed :=
  fun hmem => UInt64.not_lt.mpr (h.committed_le x hmem) hlt

/-- The only block stored at the lowest level is the last one committed. -/
theorem Audit.eq_head (h : Audit U n past s) (hU : OnePerView U) (hf : s.chain.forrest.Fits U)
    (hx : s.chain.forrest.Stored x) (hle : ¬ s.chain.forrest.lowestLevel < x.level) :
    ∃ c ∈ s.commits.head?, x = c.head := by
  have hxU := (hf.mem_of_getVertex hx).1
  obtain ⟨-, -, -, -, hlow⟩ := hf.atLevel_of_stored hU hx
  have heq : x.level = s.chain.forrest.lowestLevel :=
    UInt64.le_antisymm (UInt64.not_lt.mp hle) hlow
  cases hc : s.commits with
  | nil =>
    rw [h.start hc] at heq
    exact absurd (hU.treelike.one_le_level hxU) (by rw [heq]; decide)
  | cons c commits =>
    have hmem : c ∈ s.commits.head? := by simp [hc]
    refine ⟨c, by simp, hU.eq_of_level hxU ?_ (heq.trans (h.lowest c hmem))⟩
    exact (hf.mem_of_getVertex (h.head c hmem).1).1

theorem Audit.ancestor_iff (h : Audit U n past s) {last : Commit}
    (hlast : last ∈ s.commits.head?) :
    (∃ c ∈ s.commits, Ancestor U c.head x) ↔ Ancestor U last.head x := by
  constructor
  · rintro ⟨c, hc, hx⟩
    exact (h.heads last hlast c hc).trans hx
  · exact fun hx => ⟨last, List.mem_of_mem_head? hlast, hx⟩

variable {b : Block} {committed forked : List Block} {bc : BlockChain}

/-- Every earlier committed block is an ancestor of the new one. -/
theorem Audit.heads_commit (h : Audit U n past s) (hU : OnePerView U)
    (hf : s.chain.forrest.Fits U) (hb : s.chain.forrest.Stored b)
    (hjoined : ∀ c ∈ s.commits.head?, s.chain.forrest.Joined b c.head) {c : Commit}
    (hc : c ∈ s.commits) : Ancestor U b c.head := by
  obtain ⟨last, hlast⟩ : ∃ last, last ∈ s.commits.head? := by
    cases hs : s.commits with
    | nil => simp [hs] at hc
    | cons last commits => exact ⟨last, by simp⟩
  exact (Ancestor.of_joined hU.treelike hf hb (hjoined last hlast)).trans (h.heads last hlast c hc)

/-- In the new session, the ancestors of committed blocks are those of the new head. -/
theorem Audit.ancestor_commit (h : Audit U n past s) (hU : OnePerView U)
    (hf : s.chain.forrest.Fits U) (hb : s.chain.forrest.Stored b)
    (hjoined : ∀ c ∈ s.commits.head?, s.chain.forrest.Joined b c.head) :
    (∃ c ∈ (⟨b, committed, forked⟩ :: s.commits : List Commit), Ancestor U c.head x) ↔
      Ancestor U b x := by
  constructor
  · rintro ⟨c, hc, hx⟩
    rcases List.mem_cons.mp hc with rfl | hc
    · exact hx
    · exact (h.heads_commit hU hf hb hjoined hc).trans hx
  · exact fun hx => ⟨_, List.mem_cons_self, hx⟩

theorem Audit.count_head (h : Audit U n past s) (hU : OnePerView U)
    (hf : s.chain.forrest.Fits U) (hb : s.chain.forrest.Stored b)
    (hc : Commits s.chain.forrest b committed forked bc.forrest) :
    (committed ++ s.committed).count b = 1 := by
  rw [List.count_append]
  by_cases hlt : s.chain.forrest.lowestLevel < b.level
  · rw [List.count_eq_zero_of_not_mem (h.notMem_committed hlt),
      List.count_eq_one_of_mem hc.committed_nodup ((hc.committed_iff b).mpr ⟨.refl, hlt⟩)]
  · obtain ⟨last, hlast, rfl⟩ := h.eq_head hU hf hb hlt
    rw [List.count_eq_zero_of_not_mem fun hm => hlt ((hc.committed_iff _).mp hm).2,
      (h.head last hlast).2]

theorem Audit.reportedOnce_commit (h : Audit U n past s) (hU : OnePerView U)
    (hf : s.chain.forrest.Fits U) (hb : s.chain.forrest.Stored b)
    (hjoined : ∀ c ∈ s.commits.head?, s.chain.forrest.Joined b c.head) :
    ReportedOnce U ⟨bc, ⟨b, committed, forked⟩ :: s.commits⟩ x ↔
      committed.count x + s.committed.count x + (forked.count x + s.forked.count x) = 1 ∧
        (x ∈ committed ∨ x ∈ s.committed ↔ Ancestor U b x) := by
  rw [ReportedOnce, h.ancestor_commit hU hf hb hjoined]
  show (committed ++ s.committed).count x + (forked ++ s.forked).count x = 1 ∧
    (x ∈ committed ++ s.committed ↔ Ancestor U b x) ↔ _
  rw [List.count_append, List.count_append, List.mem_append]

/-- An ancestor that is pruned now is reported as committed, now or, if it was
committed last, then. -/
theorem Audit.pruned_ancestor (h : Audit U n past s) (hU : OnePerView U)
    (hf : s.chain.forrest.Fits U) (hb : s.chain.forrest.Stored b)
    (hc : Commits s.chain.forrest b committed forked bc.forrest)
    (hjoined : ∀ c ∈ s.commits.head?, s.chain.forrest.Joined b c.head)
    (hx : s.chain.forrest.Stored x) (hj : s.chain.forrest.Joined b x) :
    ReportedOnce U ⟨bc, ⟨b, committed, forked⟩ :: s.commits⟩ x := by
  have hanc := Ancestor.of_joined hU.treelike hf hb hj
  have hfork : x ∉ forked := fun hm => ((hc.forked_iff x).mp hm).2.2.2 hj
  rw [h.reportedOnce_commit hU hf hb hjoined, List.count_eq_zero_of_not_mem hfork,
    List.count_eq_zero_of_not_mem (h.notMem_forked hU hf hx)]
  by_cases hlow : s.chain.forrest.lowestLevel < x.level
  · have hmem := (hc.committed_iff x).mpr ⟨hj, hlow⟩
    rw [List.count_eq_zero_of_not_mem (h.notMem_committed hlow),
      List.count_eq_one_of_mem hc.committed_nodup hmem]
    exact ⟨rfl, iff_of_true (Or.inl hmem) hanc⟩
  · obtain ⟨last, hlast, rfl⟩ := h.eq_head hU hf hx hlow
    have hcount := (h.head last hlast).2
    rw [List.count_eq_zero_of_not_mem fun hm => hlow ((hc.committed_iff _).mp hm).2, hcount]
    exact ⟨rfl, iff_of_true (Or.inr (List.count_pos_iff.mp (by omega))) hanc⟩

/-- Any other block that is pruned now is reported as forked. -/
theorem Audit.pruned_fork (h : Audit U n past s) (hU : OnePerView U)
    (hf : s.chain.forrest.Fits U) (hb : s.chain.forrest.Stored b)
    (hc : Commits s.chain.forrest b committed forked bc.forrest)
    (hjoined : ∀ c ∈ s.commits.head?, s.chain.forrest.Joined b c.head)
    (hfirst : s.commits = [] → Ancestor U b x → s.chain.forrest.Joined b x)
    (hx : s.chain.forrest.Stored x) (hlt : x.level < b.level) (hview : 1 < x.level)
    (hj : ¬ s.chain.forrest.Joined b x) :
    ReportedOnce U ⟨bc, ⟨b, committed, forked⟩ :: s.commits⟩ x := by
  have hlow : s.chain.forrest.lowestLevel < x.level := by
    by_contra hlow
    obtain ⟨last, hlast, rfl⟩ := h.eq_head hU hf hx hlow
    exact hj (hjoined last hlast)
  have hanc : ¬ Ancestor U b x := by
    intro hanc
    cases hs : s.commits with
    | nil => exact hj (hfirst hs hanc)
    | cons last commits =>
      have hlast : last ∈ s.commits.head? := by simp [hs]
      exact hj (hanc.joined hU.treelike hf hb (hjoined last hlast) (h.lowest last hlast ▸ hlow))
  have hmem := (hc.forked_iff x).mpr ⟨hx, hview, hlt, hj⟩
  have hnew : x ∉ committed := fun hm => hj ((hc.committed_iff x).mp hm).1
  have hold := h.notMem_committed hlow
  rw [h.reportedOnce_commit hU hf hb hjoined, List.count_eq_zero_of_not_mem hnew,
    List.count_eq_zero_of_not_mem hold, List.count_eq_one_of_mem hc.forked_nodup hmem,
    List.count_eq_zero_of_not_mem (h.notMem_forked hU hf hx)]
  exact ⟨rfl, iff_of_false (by simp [hnew, hold]) hanc⟩

/-- A block that was gone already is not reported again. -/
theorem Audit.pruned_before (h : Audit U n past s) (hU : OnePerView U)
    (hf : s.chain.forrest.Fits U) (hb : s.chain.forrest.Stored b)
    (hc : Commits s.chain.forrest b committed forked bc.forrest)
    (hjoined : ∀ c ∈ s.commits.head?, s.chain.forrest.Joined b c.head)
    (hx : ¬ s.chain.forrest.Stored x) (hlt : x.level < s.chain.forrest.lowestLevel)
    (hold : ReportedOnce U s x) : ReportedOnce U ⟨bc, ⟨b, committed, forked⟩ :: s.commits⟩ x := by
  have hcom : x ∉ committed := fun hm =>
    hx (hf.joined hU.treelike hb ((hc.committed_iff x).mp hm).1).1
  have hfork : x ∉ forked := fun hm => hx ((hc.forked_iff x).mp hm).1
  rw [h.reportedOnce_commit hU hf hb hjoined, List.count_eq_zero_of_not_mem hcom,
    List.count_eq_zero_of_not_mem hfork, Nat.zero_add, Nat.zero_add]
  refine ⟨hold.1, ?_⟩
  cases hs : s.commits with
  | nil =>
    rw [h.start hs] at hlt
    exact absurd hlt (by simp)
  | cons last commits =>
    have hlast : last ∈ s.commits.head? := by simp [hs]
    have hjl := Ancestor.of_joined hU.treelike hf hb (hjoined last hlast)
    rw [hold.2, h.ancestor_iff hlast]
    simp only [hcom, false_or]
    constructor
    · exact hjl.trans
    · intro hanc
      -- on the line of ancestors, what is below the last head is behind it
      rcases hjl.linear hU.treelike hanc with hd | hd
      · exact hd
      · have hxU := (hanc.mem_le hU.treelike (hf.mem_of_getVertex hb).1).1
        have hle := (hd.mem_le hU.treelike hxU).2
        rw [← h.lowest last hlast] at hle
        exact absurd hlt (UInt64.not_lt.mpr hle)

theorem one_lt_level {U : Set Block} (hU : OnePerView U) (hx : x ∈ U) (h : 1 < x.view) :
    1 < x.level := by
  have hlevel : (x.level.toNat : ℤ) = x.view.toInt := toNat_toUInt64 (hU.treelike.view_nonneg hx)
  have hview := Int64.lt_iff_toInt_lt.mp h
  have hone : (1 : View).toInt = 1 := rfl
  have hnat : (1 : UInt64).toNat = 1 := rfl
  rw [UInt64.lt_iff_toNat_lt]
  omega

theorem Audit.commit (h : Audit U n past s) (hU : OnePerView U) (hf : s.chain.forrest.Fits U)
    {c : ChainCall} (hrun : (new n).run (past ++ [c]) =
      .ok ⟨bc, ⟨b, committed, forked⟩ :: s.commits⟩)
    (hb : s.chain.forrest.Stored b)
    (hc : Commits s.chain.forrest b committed forked bc.forrest)
    (hjoined : ∀ c ∈ s.commits.head?, s.chain.forrest.Joined b c.head)
    (hfirst : s.commits = [] → ∀ x, s.chain.forrest.Stored x → 1 < x.view → Ancestor U b x →
      s.chain.forrest.Joined b x) :
    Audit U n (past ++ [c]) ⟨bc, ⟨b, committed, forked⟩ :: s.commits⟩ := by
  have hlow : s.chain.forrest.lowestLevel ≤ b.level := by
    obtain ⟨-, -, -, -, hle⟩ := hf.atLevel_of_stored hU hb
    exact hle
  refine ⟨fun hnil => by simp at hnil, fun c' hc' => ?_, fun c' hc' => ?_,
    fun last hlast c' hc' => ?_, fun x hx => ?_, fun x hx => ?_, fun x hx hnot hview => ?_⟩
  · obtain rfl : c' = ⟨b, committed, forked⟩ := by simpa using hc'.symm
    exact hc.lowestLevel
  · obtain rfl : c' = ⟨b, committed, forked⟩ := by simpa using hc'.symm
    exact ⟨(hc.stored_iff hU hf).mpr ⟨hb, UInt64.le_refl _⟩, h.count_head hU hf hb hc⟩
  · obtain rfl : last = ⟨b, committed, forked⟩ := by simpa using hlast.symm
    rcases List.mem_cons.mp hc' with rfl | hc'
    · exact .refl
    · exact h.heads_commit hU hf hb hjoined hc'
  · simp only [hc.lowestLevel]
    rcases List.mem_append.mp (show x ∈ committed ++ s.committed from hx) with hx | hx
    · rcases (hf.joined hU.treelike hb ((hc.committed_iff x).mp hx).1).2 with rfl | hlt
      · exact UInt64.le_refl _
      · exact UInt64.le_of_lt hlt
    · exact UInt64.le_trans (h.committed_le x hx) hlow
  · simp only [hc.lowestLevel]
    rcases List.mem_append.mp (show x ∈ forked ++ s.forked from hx) with hx | hx
    · exact ((hc.forked_iff x).mp hx).2.2.1
    · exact UInt64.lt_of_lt_of_le (h.forked_lt x hx) hlow
  · have hever := (hx.concat hrun).resolve_right hnot
    simp only [hc.lowestLevel]
    by_cases hs : s.chain.forrest.Stored x
    · have hlt : x.level < b.level := by
        by_contra hle
        exact hnot ((hc.stored_iff hU hf).mpr ⟨hs, UInt64.not_lt.mp hle⟩)
      have hone := one_lt_level hU (hf.mem_of_getVertex hs).1 hview
      refine ⟨hlt, ?_⟩
      by_cases hj : s.chain.forrest.Joined b x
      · exact h.pruned_ancestor hU hf hb hc hjoined hs hj
      · exact h.pruned_fork hU hf hb hc hjoined (fun hnil => hfirst hnil x hs hview) hs hlt hone hj
    · obtain ⟨hlt, hold⟩ := h.gone x hever hs hview
      exact ⟨UInt64.lt_of_lt_of_le hlt hlow, h.pruned_before hU hf hb hc hjoined hs hlt hold⟩

theorem Audit.step (h : Audit U n past s) (hU : OnePerView U) (hf : s.chain.forrest.Fits U)
    {c : ChainCall} {s' : Session} (hpast : (new n).run past = .ok s)
    (hrun : (new n).run (past ++ [c]) = .ok s') (hs : Step U s c s')
    (hdesc : Descending n (past ++ [c])) (hfirst : FirstUnbroken U n (past ++ [c])) :
    Audit U n (past ++ [c]) s' := by
  cases hs with
  | @addBlock b f' _ hlow hkept hnew =>
    refine ⟨fun hnil => hlow.trans (h.start hnil), fun c hc => hlow.trans (h.lowest c hc),
      fun c hc => ⟨hkept _ (h.head c hc).1, (h.head c hc).2⟩, h.heads,
      fun x hx => ?_, fun x hx => ?_, fun x hx hnot hview => ?_⟩
    · simp only [hlow]
      exact h.committed_le x hx
    · simp only [hlow]
      exact h.forked_lt x hx
    · simp only [hlow]
      exact h.gone x ((hx.concat hrun).resolve_right hnot) (fun hs => hnot (hkept x hs)) hview
  | missing =>
    refine ⟨h.start, h.lowest, h.head, h.heads, h.committed_le, h.forked_lt, fun x hx hnot => ?_⟩
    exact h.gone x ((hx.concat hrun).resolve_right hnot) hnot
  | @commit id view b committed forked bc hb _ hc =>
    have hat : CommitsAt n (past ++ [.commitBlock id view]) past s b :=
      ⟨id, view, [], rfl, hpast, hb⟩
    exact h.commit hU hf hrun (hf.stored_of_getVertex hb) hc (hdesc past s b hat)
      (hfirst past s b hat)

end Step

/-! ## Whole runs -/

theorem Step.mono {s s' : Session} {c : ChainCall} (hs : Step U s c s') (hU : OnePerView U)
    (hf : s.chain.forrest.Fits U) :
    s.commits <:+ s'.commits ∧ s.chain.forrest.lowestLevel ≤ s'.chain.forrest.lowestLevel := by
  cases hs with
  | addBlock _ hlow => exact ⟨List.suffix_rfl, UInt64.le_of_eq hlow.symm⟩
  | missing => exact ⟨List.suffix_rfl, UInt64.le_refl _⟩
  | commit hb _ hc =>
    obtain ⟨-, -, -, -, hle⟩ := hf.atLevel_of_stored hU (hf.stored_of_getVertex hb)
    exact ⟨List.suffix_cons _ _, by simpa only [hc.lowestLevel] using hle⟩

/-- Commits stay on record and the lowest level never falls. -/
theorem run_mono (hU : OnePerView U) {calls : List ChainCall}
    (hcalls : ∀ b, .addBlock b ∈ calls → b ∈ U) :
    ∃ s, (new n).run calls = .ok s ∧ s.chain.forrest.Fits U ∧
      ∀ past recent s₀, calls = past ++ recent → (new n).run past = .ok s₀ →
        s₀.commits <:+ s.commits ∧ s₀.chain.forrest.lowestLevel ≤ s.chain.forrest.lowestLevel := by
  refine run_invariant hU n (J := fun calls s => ∀ past recent s₀, calls = past ++ recent →
      (new n).run past = .ok s₀ → s₀.commits <:+ s.commits ∧
        s₀.chain.forrest.lowestLevel ≤ s.chain.forrest.lowestLevel)
    (fun past recent s₀ heq hrun => ?_)
    (fun calls s c s' hrun hrun' hf hs hJ past recent s₀ heq hpast => ?_) hcalls
  · obtain ⟨rfl, rfl⟩ := List.append_eq_nil_iff.mp heq.symm
    cases hrun
    exact ⟨List.suffix_rfl, UInt64.le_refl _⟩
  · rcases List.eq_nil_or_concat recent with rfl | ⟨recent, c', rfl⟩
    · rw [List.append_nil] at heq
      rw [← heq, hrun'] at hpast
      cases hpast
      exact ⟨List.suffix_rfl, UInt64.le_refl _⟩
    · rw [List.concat_eq_append, ← List.append_assoc] at heq
      obtain ⟨heq, -⟩ := List.append_inj' heq rfl
      have hold := hJ past recent s₀ heq hpast
      have hnew := hs.mono hU hf
      exact ⟨hold.1.trans hnew.1, UInt64.le_trans hold.2 hnew.2⟩

/-- What an unbroken first commit ensures. -/
theorem reported_of_firstUnbroken (hU : OnePerView U) {calls : List ChainCall}
    (hcalls : ∀ b, .addBlock b ∈ calls → b ∈ U) (hdesc : Descending n calls)
    (hfirst : FirstUnbroken U n calls) :
    ∃ s, (new n).run calls = .ok s ∧ Audit U n calls s := by
  obtain ⟨s, hrun, -, hJ⟩ := run_invariant hU n
    (J := fun calls s => Descending n calls → FirstUnbroken U n calls → Audit U n calls s)
    (fun _ _ => audit_new U n)
    (fun past s c s' hrun hrun' hf hs hJ hdesc hfirst =>
      (hJ hdesc.of_concat hfirst.of_concat).step hU hf hrun hrun' hs hdesc hfirst) hcalls
  exact ⟨s, hrun, hJ hdesc hfirst⟩

/-- What a commit in the middle of a run returned is still there at its end. -/
theorem CommitsAt.recorded {calls past : List ChainCall} {s s₀ : Session} {head : Block}
    (hat : CommitsAt n calls past s₀ head) (hU : OnePerView U)
    (hcalls : ∀ b, .addBlock b ∈ calls → b ∈ U) (hrun : (new n).run calls = .ok s) :
    s₀.chain.forrest.Fits U ∧ s.chain.forrest.Fits U ∧
      head.level ≤ s.chain.forrest.lowestLevel ∧
      ∃ committed forked f', Commits s₀.chain.forrest head committed forked f' ∧
        ⟨head, committed, forked⟩ ∈ s.commits := by
  obtain ⟨id, view, recent, heq, hpast, hget⟩ := hat
  have hpastU : ∀ b, .addBlock b ∈ past → b ∈ U := fun b hb =>
    hcalls b (heq ▸ List.mem_append_left _ hb)
  obtain ⟨s₁, hrun₁, hf, -⟩ := run_mono hU (n := n) hpastU
  rw [hpast] at hrun₁
  cases hrun₁
  obtain ⟨s', hcall, hs, -⟩ := call_step (c := .commitBlock id view) hU hf fun b hb => by cases hb
  have hrun' : (new n).run (past ++ [.commitBlock id view]) = .ok s' := by
    rw [run_concat, hpast]
    exact hcall
  obtain ⟨t, ht, hft, hmono⟩ := run_mono hU (n := n) hcalls
  rw [hrun] at ht
  cases ht
  obtain ⟨hsuffix, hlow⟩ := hmono (past ++ [.commitBlock id view]) recent s' (by simp [heq]) hrun'
  cases hs with
  | missing hnone =>
    rw [hget] at hnone
    cases hnone
  | @commit _ _ b committed forked bc hb _ hc =>
    rw [hget] at hb
    cases hb
    rw [hc.lowestLevel] at hlow
    exact ⟨hf, hft, hlow, committed, forked, _, hc, hsuffix.subset List.mem_cons_self⟩

/-- A stored ancestor beyond a missing block is reported as forked by the first
commit, for good. -/
theorem forked_of_broken (hU : OnePerView U) {calls past : List ChainCall}
    (hcalls : ∀ b, .addBlock b ∈ calls → b ∈ U) {s s₀ : Session} {head x : Block}
    (hrun : (new n).run calls = .ok s) (hat : CommitsAt n calls past s₀ head)
    (hx : s₀.chain.forrest.Stored x) (hview : 1 < x.view) (hanc : Ancestor U head x)
    (hj : ¬ s₀.chain.forrest.Joined head x) :
    x ∈ s.forked ∧ ¬ s.chain.forrest.Stored x ∧ ∃ c ∈ s.commits, c.head = head := by
  obtain ⟨hf, hft, hlow, committed, forked, f', hc, hmem⟩ := hat.recorded hU hcalls hrun
  obtain ⟨id, view, recent, heq, hpast, hget⟩ := hat
  have hheadU := (hf.mem_of_getVertex hget).1
  have hxU := (hf.mem_of_getVertex hx).1
  have hlt : x.level < head.level := by
    refine UInt64.lt_of_le_of_ne (hanc.mem_le hU.treelike hheadU).2 fun heq => hj ?_
    rw [hU.eq_of_level hxU hheadU heq]
  refine ⟨List.mem_flatMap.mpr ⟨_, hmem, ?_⟩, fun hs => ?_, _, hmem, rfl⟩
  · exact (hc.forked_iff x).mpr ⟨hx, one_lt_level hU hxU hview, hlt, hj⟩
  · obtain ⟨-, -, -, -, hle⟩ := hft.atLevel_of_stored hU hs
    exact UInt64.not_lt.mpr (UInt64.le_trans hlow hle) hlt

end Session

open Session in
/-- In a run whose commits descend from one another, the reports partition what
has been pruned if and only if the first commit was unbroken. -/
theorem reports_partition_iff {U : Set Block} (hU : OnePerView U) (n : ℕ)
    {calls : List ChainCall} (hcalls : ∀ b, .addBlock b ∈ calls → b ∈ U)
    (hdesc : Descending n calls) {s : Session} (hrun : (new n).run calls = .ok s) :
    (∀ x, EverStored n calls x → ¬ s.chain.forrest.Stored x → 1 < x.view → ReportedOnce U s x) ↔
      FirstUnbroken U n calls := by
  constructor
  · intro h past s₀ head hat _ x hx hview hanc
    by_contra hj
    obtain ⟨hfork, hgone, c, hc, rfl⟩ := forked_of_broken hU hcalls hrun hat hx hview hanc hj
    obtain ⟨id, view, recent, heq, hpast, -⟩ := hat
    obtain ⟨hsum, hiff⟩ := h x ⟨past, _, s₀, heq, hpast, hx⟩ hgone hview
    have hcom := List.count_pos_iff.mpr (hiff.mpr ⟨c, hc, hanc⟩)
    have hfork := List.count_pos_iff.mpr hfork
    omega
  · intro hfirst x hx hgone hview
    obtain ⟨s', hrun', haudit⟩ := reported_of_firstUnbroken hU hcalls hdesc hfirst
    rw [hrun] at hrun'
    cases hrun'
    exact (haudit.gone x hx hgone hview).2

namespace Session

theorem descending_nil (n : ℕ) : Descending n [] := by
  rintro past s head ⟨id, view, recent, heq, -⟩
  simp at heq

/-- A run is checked call by call. -/
theorem Descending.concat {n : ℕ} {calls : List ChainCall} {s : Session} {c : ChainCall}
    (h : Descending n calls) (hrun : (new n).run calls = .ok s)
    (hc : ∀ id view, c = .commitBlock id view → ∀ head, s.chain.forrest.getVertex id = some head →
      ∀ last ∈ s.commits.head?, s.chain.forrest.Joined head last.head) :
    Descending n (calls ++ [c]) := by
  rintro past s₀ head ⟨id, view, recent, heq, hpast, hget⟩
  rcases List.eq_nil_or_concat recent with rfl | ⟨recent, c', rfl⟩
  · obtain ⟨rfl, hlast⟩ := List.append_inj' heq rfl
    rw [hrun] at hpast
    cases hpast
    exact hc id view (List.cons.inj hlast).1 head hget
  · have heq' : calls ++ [c] = (past ++ .commitBlock id view :: recent) ++ [c'] := by simp [heq]
    obtain ⟨rfl, -⟩ := List.append_inj' heq' rfl
    exact h past s₀ head ⟨id, view, recent, rfl, hpast, hget⟩

/-- Storing a block does not commit anything. -/
theorem Descending.addBlock {n : ℕ} {calls : List ChainCall} (h : Descending n calls) (b : Block) :
    Descending n (calls ++ [.addBlock b]) := by
  rintro past s₀ head ⟨id, view, recent, heq, hpast, hget⟩
  rcases List.eq_nil_or_concat recent with rfl | ⟨recent, c', rfl⟩
  · obtain ⟨-, hlast⟩ := List.append_inj' heq rfl
    simp at hlast
  · have heq' : calls ++ [.addBlock b] = (past ++ .commitBlock id view :: recent) ++ [c'] := by
      simp [heq]
    obtain ⟨rfl, -⟩ := List.append_inj' heq' rfl
    exact h past s₀ head ⟨id, view, recent, rfl, hpast, hget⟩

end Session

/-- A commit with a fork next to its block. -/
def oneCommit : List ChainCall :=
  [.addBlock (.onView 2 0), .addBlock (.onView 3 2), .addBlock (.onView 4 2), .commitBlock 3 5]

/-- The second commit prunes the first one's block, and finds the fork above it. -/
def twoCommits : List ChainCall := oneCommit ++ [.addBlock (.onView 5 3)] ++ [.commitBlock 5 7]

open Session in
theorem descending_twoCommits : Descending 4 twoCommits := by
  have hstart : ((new 4).run [.addBlock (.onView 2 0), .addBlock (.onView 3 2),
      .addBlock (.onView 4 2)]).map Session.commits = .ok [] := by decide +kernel
  obtain ⟨s₀, hs₀, hnone⟩ := exists_of_map_eq_ok hstart
  have hone : Descending 4 oneCommit := by
    refine Descending.concat ((((descending_nil 4).addBlock _).addBlock _).addBlock _) hs₀ ?_
    intro _ _ _ _ _ last hlast
    rw [hnone] at hlast
    cases hlast
  have hmid : ((new 4).run (oneCommit ++ [.addBlock (.onView 5 3)])).map
      (fun s => (s.commits.head?.map Commit.head, s.chain.forrest.getVertex 5,
        s.chain.forrest.getVertex 3)) =
      .ok (some (.onView 3 2), some (.onView 5 3), some (.onView 3 2)) := by decide +kernel
  obtain ⟨s₁, hs₁, hvals⟩ := exists_of_map_eq_ok hmid
  simp only [Prod.mk.injEq] at hvals
  refine Descending.concat (hone.addBlock _) hs₁ ?_
  intro id view hcall head hhead last hlast
  cases hcall
  rw [hvals.2.1] at hhead
  cases hhead
  have hlasthead : last.head = .onView 3 2 := by
    simpa [Option.mem_def.mp hlast] using hvals.1
  rw [hlasthead]
  exact .single hvals.2.2

open Session in
theorem reports_partition_two_commits : ∃ s, (new 4).run twoCommits = .ok s ∧
    (s.committed = [.onView 5 3, .onView 3 2, .onView 2 0] ∧ s.forked = [.onView 4 2]) ∧
    ((∀ x, EverStored 4 twoCommits x → ¬ s.chain.forrest.Stored x → 1 < x.view →
        ReportedOnce (addedBlocks twoCommits) s x) ↔
      FirstUnbroken (addedBlocks twoCommits) 4 twoCommits) := by
  have hU : OnePerView (addedBlocks twoCommits) := onePerView_of_list (by decide)
  have hall : ((new 4).run twoCommits).map (fun s => (s.committed, s.forked)) =
      .ok ([.onView 5 3, .onView 3 2, .onView 2 0], [.onView 4 2]) := by decide +kernel
  obtain ⟨s, hs, hreports⟩ := exists_of_map_eq_ok hall
  exact ⟨s, hs, Prod.mk.inj hreports,
    reports_partition_iff hU 4 (fun _ => mem_addedBlocks) descending_twoCommits hs⟩

/-- The block of view 3 has not arrived when its child is committed. -/
def brokenCommit : List ChainCall :=
  [.addBlock (.onView 2 0), .addBlock (.onView 4 3), .commitBlock 4 4]

/-- The chain of the blocks of views 2, 3 and 4. -/
def brokenChain : Set Block := {b | b ∈ [Block.onView 2 0, .onView 3 2, .onView 4 3]}

open Session in
theorem descending_brokenCommit : Descending 4 brokenCommit := by
  have hmid : ((new 4).run [.addBlock (.onView 2 0), .addBlock (.onView 4 3)]).map
      Session.commits = .ok [] := by decide +kernel
  obtain ⟨s₀, hs₀, hnone⟩ := exists_of_map_eq_ok hmid
  refine Descending.concat (((descending_nil 4).addBlock _).addBlock _) hs₀ ?_
  intro _ _ _ _ _ last hlast
  rw [hnone] at hlast
  cases hlast

open Session in
/-- The first commit of the run reports the block of view 2 as forked, though the
committed block descends from it. -/
theorem ancestor_reported_forked :
    OnePerView brokenChain ∧ (∀ b, .addBlock b ∈ brokenCommit → b ∈ brokenChain) ∧
    Descending 4 brokenCommit ∧ EverStored 4 brokenCommit (.onView 2 0) ∧
    ∃ s, (new 4).run brokenCommit = .ok s ∧
      s.chain.forrest.getVertex 2 = none ∧ s.committed = [.onView 4 3] ∧
      s.forked = [.onView 2 0] ∧
      ∃ c ∈ s.commits, Ancestor brokenChain c.head (.onView 2 0) := by
  have hmem : ∀ b, .addBlock b ∈ brokenCommit → b ∈ brokenChain := by
    intro b hb
    simp only [brokenCommit, List.mem_cons, ChainCall.addBlock.injEq, reduceCtorEq,
      List.not_mem_nil, or_false] at hb
    rcases hb with rfl | rfl <;> simp [brokenChain]
  have hmid : ((new 4).run [.addBlock (.onView 2 0), .addBlock (.onView 4 3)]).map
      (fun s => s.chain.forrest.getVertex 2) = .ok (some (.onView 2 0)) := by decide +kernel
  obtain ⟨s₀, hs₀, hstored⟩ := exists_of_map_eq_ok hmid
  have hend : ((new 4).run brokenCommit).map (fun s => (s.chain.forrest.getVertex 2, s.commits)) =
      .ok (none, [⟨.onView 4 3, [.onView 4 3], [.onView 2 0]⟩]) := by decide +kernel
  obtain ⟨s, hs, hres⟩ := exists_of_map_eq_ok hend
  obtain ⟨hgone, hcommits⟩ := Prod.mk.inj hres
  refine ⟨onePerView_of_list (by decide), hmem, descending_brokenCommit,
    ⟨_, [.commitBlock 4 4], s₀, rfl, hs₀, hstored⟩, s, hs, hgone, ?_, ?_, ?_⟩
  · rw [Session.committed, hcommits]
    rfl
  · rw [Session.forked, hcommits]
    rfl
  · refine ⟨_, hcommits ▸ List.mem_singleton_self _, ?_⟩
    have hthree : Block.onView 3 2 ∈ brokenChain := by simp [brokenChain]
    have htwo : Block.onView 2 0 ∈ brokenChain := by simp [brokenChain]
    exact ReflTransGen.head (b := .onView 3 2) ⟨hthree, by decide⟩ (.single ⟨htwo, by decide⟩)

end Bamboo
