import Bamboo.CommitReturns
import Bamboo.ForkReports

/-!
# Commits among several blocks of one view

A commit tells committed from forked blocks by their levels: it marks the levels
that its walk through the first vertices comes to, and reports the blocks of all
other levels as forked. With several blocks in a view, the marks of the walk and
the ancestors of the committed block part as soon as an ancestor shares its view.
-/
namespace Bamboo

open Relation Walks LevelledForest

variable {U : Set Block} {f : LevelledForest} {b x y p q : Block}

theorem Ancestor.eq_or_lt (hU : Treelike U) (hb : b ∈ U) (h : Ancestor U b x) :
    x = b ∨ x.level < b.level := by
  rcases h.cases_head with rfl | ⟨q, hq, hqx⟩
  · exact Or.inl rfl
  · have hlt := (hU.parent_level hb hq.1 hq.2).2
    exact Or.inr (UInt64.lt_of_le_of_lt (Ancestor.mem_le hU hq.1 hqx).2 hlt)

/-- Ancestors of one level are the same. -/
theorem Ancestor.eq_of_level (hU : Treelike U) (hb : b ∈ U) (hx : Ancestor U b x)
    (hy : Ancestor U b y) (h : y.level = x.level) : y = x := by
  have hxU := (Ancestor.mem_le hU hb hx).1
  have hyU := (Ancestor.mem_le hU hb hy).1
  rcases Ancestor.linear hU hx hy with hxy | hyx
  · rcases Ancestor.eq_or_lt hU hxU hxy with heq | hlt
    · exact heq
    · exact absurd hlt (h ▸ UInt64.lt_irrefl _)
  · rcases Ancestor.eq_or_lt hU hyU hyx with heq | hlt
    · exact heq.symm
    · exact absurd hlt (h ▸ UInt64.lt_irrefl _)

/-- A finite set is checked by going through it. -/
theorem treelike_of_list {l : List Block}
    (h : (∀ a ∈ l, ∀ b ∈ l, a.id = b.id → a = b) ∧ (∀ b ∈ l, b.id ≠ genesisID) ∧
      ∀ b ∈ l, ∃ qc ∈ b.qc, qc.view < b.view ∧
        ((∃ p ∈ l, p.id = b.prevID ∧ p.view = qc.view) ∨ (b.prevID = genesisID ∧ qc.view = 0))) :
    Treelike {b | b ∈ l} :=
  ⟨h.1, h.2.1, h.2.2⟩

theorem one_lt_level_iff (hb : 0 ≤ b.view) : 1 < b.level ↔ 1 < b.view := by
  have hlevel : (b.level.toNat : ℤ) = b.view.toInt := toNat_toUInt64 hb
  have hnat : (1 : UInt64).toNat = 1 := rfl
  have hint : (1 : View).toInt = 1 := rfl
  rw [UInt64.lt_iff_toNat_lt, Int64.lt_iff_toInt_lt]
  omega

namespace LevelledForest

/-! ## The walk through first vertices -/

theorem Fits.certified (hU : Treelike U) (hf : f.Fits U) : f.Certified := by
  intro a b hb
  obtain ⟨qc, hqc, -⟩ := hU.parent b (hf.vertex_mem a b hb)
  simp [Option.mem_def.mp hqc]

theorem Fits.stored_of_firstAt (hU : Treelike U) (hf : f.Fits U) {l : UInt64}
    (h : f.firstAt l = some x) : f.Stored x ∧ x.level = l := by
  obtain ⟨a, as, hat, hv⟩ := firstAt_eq_some h
  exact hf.stored_of_listed hU (by simp [hat]) hv

/-- The parent that the walk takes at a level: the stored parent of the first vertex. -/
def FirstParent (f : LevelledForest) (l : UInt64) (q : Block) : Prop :=
  ∃ first, f.firstAt l = some first ∧ BlockChain.StoredParent f first q

theorem Fits.firstParent (hU : Treelike U) (hf : f.Fits U) {l : UInt64}
    (h : f.FirstParent l q) : f.Stored q ∧ 1 < l ∧ q.level < l := by
  obtain ⟨first, hfirst, hq⟩ := h
  obtain ⟨hs, rfl⟩ := hf.stored_of_firstAt hU hfirst
  have hlt := hf.storedParent hU (hf.mem_of_getVertex hs).1 hq
  exact ⟨hf.stored_of_getVertex hq, UInt64.lt_of_le_of_lt (hU.one_le_level hlt.1) hlt.2.2, hlt.2.2⟩

/-- From the level of a stored block, the walk goes to the parent of the first vertex. -/
theorem Fits.nextLevel_iff (hU : Treelike U) (hf : f.Fits U) (hx : f.Stored x) {m : UInt64} :
    f.nextLevel x.level = some m ↔ ∃ q, f.FirstParent x.level q ∧ q.level = m := by
  obtain ⟨-, -, -, -, hlow⟩ := hf.container_of_stored hU hx
  constructor
  · intro h
    unfold nextLevel at h
    split_ifs at h
    obtain ⟨q, hq, hm⟩ := Option.bind_eq_some_iff.mp h
    obtain ⟨first, hfirst, hget⟩ := Option.bind_eq_some_iff.mp hq
    split_ifs at hm
    exact ⟨q, ⟨first, hfirst, hget⟩, Option.some.inj hm⟩
  · rintro ⟨q, hq, rfl⟩
    obtain ⟨hqs, hone, -⟩ := hf.firstParent hU hq
    obtain ⟨-, -, -, -, hqlow⟩ := hf.container_of_stored hU hqs
    obtain ⟨first, hfirst, hget⟩ := hq
    have hget' : f.getVertex first.prevID = some q := hget
    simp [nextLevel, hlow, hone, hfirst, hget', UInt64.not_lt.mpr hqlow]

/-- The walk comes to a level through the parent that it takes first. -/
theorem Fits.marked_iff_firstParent (hU : Treelike U) (hf : f.Fits U) (hb : f.Stored b)
    {m : UInt64} : TransGen (Step f.nextLevel) b.level m ↔
      ∃ q, f.FirstParent b.level q ∧ ReflTransGen (Step f.nextLevel) q.level m := by
  rw [TransGen.head'_iff]
  constructor
  · rintro ⟨l, hl, hm⟩
    obtain ⟨q, hq, rfl⟩ := (hf.nextLevel_iff hU hb).mp hl
    exact ⟨q, hq, hm⟩
  · rintro ⟨q, hq, hm⟩
    exact ⟨q.level, (hf.nextLevel_iff hU hb).mpr ⟨q, hq, rfl⟩, hm⟩

/-- The walk goes down through levels of stored blocks. -/
theorem Fits.walk_le (hU : Treelike U) (hf : f.Fits U) (hb : f.Stored b) {m : UInt64}
    (h : ReflTransGen (Step f.nextLevel) b.level m) :
    m ≤ b.level ∧ ∃ y, f.Stored y ∧ y.level = m := by
  induction h with
  | refl => exact ⟨UInt64.le_refl _, b, hb, rfl⟩
  | tail _ hstep ih =>
    obtain ⟨hle, y, hy, rfl⟩ := ih
    obtain ⟨q, hq, rfl⟩ := (hf.nextLevel_iff hU hy).mp hstep
    obtain ⟨hqs, -, hlt⟩ := hf.firstParent hU hq
    exact ⟨UInt64.le_trans (UInt64.le_of_lt hlt) hle, q, hqs, rfl⟩

/-- A block that is alone at a level which can be read is its first. -/
theorem Fits.firstAt_of_alone (hU : Treelike U) (hf : f.Fits U) (hp : f.Stored p)
    (hread : f.Readable p.level) (halone : ∀ y, f.Stored y → y.level = p.level → y = p)
    (hone : 1 < p.level) : f.firstAt p.level = some p := by
  obtain ⟨-, -, -, -, hlow⟩ := hf.container_of_stored hU hp
  obtain ⟨y, hy⟩ := Option.isSome_iff_exists.mp (hread ⟨hlow, hone⟩)
  obtain ⟨hys, hyl⟩ := hf.stored_of_firstAt hU hy
  rw [hy, halone y hys hyl]

/-- From a block that is the first of its level, the walk goes to the parent. -/
theorem Fits.firstParent_iff (hU : Treelike U) (hf : f.Fits U) (hx : f.Stored x)
    (hfirst : 1 < x.level → f.firstAt x.level = some x) :
    f.FirstParent x.level p ↔ BlockChain.StoredParent f x p := by
  constructor
  · intro h
    obtain ⟨first, hfirst', hp⟩ := h
    rw [hfirst (hf.firstParent hU ⟨first, hfirst', hp⟩).2.1] at hfirst'
    cases hfirst'
    exact hp
  · intro hp
    have hpx := hf.storedParent hU (hf.mem_of_getVertex hx).1 hp
    exact ⟨x, hfirst (UInt64.lt_of_le_of_lt (hU.one_le_level hpx.1) hpx.2.2), hp⟩

/-- If each ancestor turns out to be alone at its level once the walk has come
there, then the walk comes to all of them, and finds them in the first place. -/
theorem Fits.walk_ancestors (hU : Treelike U) (hf : f.Fits U) (hq : f.Stored q)
    (hread : ∀ m, ReflTransGen (Step f.nextLevel) q.level m → f.Readable m)
    (halone : ∀ x, f.Joined q x → ReflTransGen (Step f.nextLevel) q.level x.level →
      1 < x.level → ∀ y, f.Stored y → y.level = x.level → y = x)
    (x : Block) (hx : f.Joined q x) :
    ReflTransGen (Step f.nextLevel) q.level x.level ∧
      (1 < x.level → f.firstAt x.level = some x) := by
  have hfirst : ∀ x, f.Joined q x → ReflTransGen (Step f.nextLevel) q.level x.level →
      1 < x.level → f.firstAt x.level = some x := by
    intro x hx hreach hone
    exact hf.firstAt_of_alone hU (hf.joined hU hq hx).1 (hread _ hreach)
      (halone x hx hreach hone) hone
  induction hx with
  | refl => exact ⟨.refl, hfirst q .refl .refl⟩
  | @tail x p hx hp ih =>
    have hxs := (hf.joined hU hq hx).1
    have hstep : f.nextLevel x.level = some p.level :=
      (hf.nextLevel_iff hU hxs).mpr ⟨p, (hf.firstParent_iff hU hxs ih.2).mpr hp, rfl⟩
    exact ⟨ih.1.tail hstep, hfirst p (hx.tail hp) (ih.1.tail hstep)⟩

/-- Along first vertices that are ancestors, the walk meets ancestors only. -/
theorem Fits.joined_of_walk (hU : Treelike U) (hf : f.Fits U) (hq : f.Stored q)
    (hfirst : ∀ x, f.Joined q x → 1 < x.level → f.firstAt x.level = some x) {m : UInt64}
    (h : ReflTransGen (Step f.nextLevel) q.level m) : ∃ x, f.Joined q x ∧ x.level = m := by
  induction h with
  | refl => exact ⟨q, .refl, rfl⟩
  | tail _ hstep ih =>
    obtain ⟨x, hx, rfl⟩ := ih
    have hxs := (hf.joined hU hq hx).1
    obtain ⟨p, hp, rfl⟩ := (hf.nextLevel_iff hU hxs).mp hstep
    exact ⟨p, hx.tail ((hf.firstParent_iff hU hxs (hfirst x hx)).mp hp), rfl⟩

/-- The block and its stored ancestors are alone at their levels. -/
def Lined (f : LevelledForest) (q : Block) : Prop :=
  ∀ x y, f.Joined q x → 1 < x.level → f.Stored y → y.level = x.level → y = x

/-- Below a parent that heads such a line, the walk marks the line. -/
theorem Fits.marked_iff_joined (hU : Treelike U) (hf : f.Fits U) (hb : f.Stored b)
    (hread : ∀ m, ReflTransGen (Step f.nextLevel) b.level m → f.Readable m)
    (hq : f.FirstParent b.level q) (hline : f.Lined q) {m : UInt64} :
    TransGen (Step f.nextLevel) b.level m ↔ ∃ x, f.Joined q x ∧ x.level = m := by
  obtain ⟨hqs, -, -⟩ := hf.firstParent hU hq
  have hfrom : ∀ m, ReflTransGen (Step f.nextLevel) q.level m → f.Readable m :=
    fun m hm => hread m (.head ((hf.nextLevel_iff hU hb).mpr ⟨q, hq, rfl⟩) hm)
  have hall := hf.walk_ancestors hU hqs hfrom fun x hx _ hone y => hline x y hx hone
  rw [hf.marked_iff_firstParent hU hb]
  constructor
  · rintro ⟨q', hq', hm⟩
    -- the first vertex and its parent are unique
    obtain rfl : q' = q := by
      obtain ⟨first, hfirst, hget⟩ := hq
      obtain ⟨first', hfirst', hget'⟩ := hq'
      rw [hfirst] at hfirst'
      cases hfirst'
      exact Option.some.inj (hget'.symm.trans hget)
    exact hf.joined_of_walk hU hqs (fun x hx => (hall x hx).2) hm
  · rintro ⟨x, hx, rfl⟩
    exact ⟨q, hq, (hall x hx).1⟩

/-- All forks below the head are reported exactly if the walk follows, from its
first parent on, a line of ancestors of the head. -/
theorem Fits.forks_reported_iff (hU : Treelike U) (hf : f.Fits U) (hb : f.Stored b)
    (hread : ∀ m, ReflTransGen (Step f.nextLevel) b.level m → f.Readable m) :
    (∀ y, f.Stored y → 1 < y.level → y.level < b.level → ¬ Ancestor U b y →
      ¬ TransGen (Step f.nextLevel) b.level y.level) ↔
    ∀ q, f.FirstParent b.level q → 1 < q.level → Ancestor U b q ∧ f.Lined q := by
  constructor
  · intro hfork q hq hone
    obtain ⟨hqs, -, hlt⟩ := hf.firstParent hU hq
    -- whatever is stored at a marked level is an ancestor of the head
    have hmarked : ∀ y, f.Stored y → ReflTransGen (Step f.nextLevel) q.level y.level →
        1 < y.level → Ancestor U b y := by
      intro y hy hreach hone
      by_contra hnot
      have hylt := UInt64.lt_of_le_of_lt (hf.walk_le hU hqs hreach).1 hlt
      exact hfork y hy hone hylt hnot ((hf.marked_iff_firstParent hU hb).mpr ⟨q, hq, hreach⟩)
    have halone : ∀ x, f.Joined q x → ReflTransGen (Step f.nextLevel) q.level x.level →
        1 < x.level → ∀ y, f.Stored y → y.level = x.level → y = x := by
      intro x hx hreach hone y hy hyx
      have hxb := hmarked x (hf.joined hU hqs hx).1 hreach hone
      have hyb := hmarked y hy (hyx ▸ hreach) (hyx ▸ hone)
      exact hxb.eq_of_level hU (hf.mem_of_getVertex hb).1 hyb hyx
    refine ⟨hmarked q hqs .refl hone, fun x y hx hone hy hyx => ?_⟩
    have hfrom : ∀ m, ReflTransGen (Step f.nextLevel) q.level m → f.Readable m :=
      fun m hm => hread m (.head ((hf.nextLevel_iff hU hb).mpr ⟨q, hq, rfl⟩) hm)
    exact halone x hx (hf.walk_ancestors hU hqs hfrom halone x hx).1 hone y hy hyx
  · intro hparent y hy hone hlt hnot hmarked
    obtain ⟨q, hq, hreach⟩ := (hf.marked_iff_firstParent hU hb).mp hmarked
    obtain ⟨hqs, -, -⟩ := hf.firstParent hU hq
    have hqone := UInt64.lt_of_lt_of_le hone (hf.walk_le hU hqs hreach).1
    obtain ⟨hanc, hline⟩ := hparent q hq hqone
    obtain ⟨x, hx, hxy⟩ := (hf.marked_iff_joined hU hb hread hq hline).mp hmarked
    rw [hline x y hx (hxy ▸ hone) hy hxy.symm] at hnot
    exact hnot (hanc.trans (Ancestor.of_joined hU hf hqs hx))

/-- An ancestor at the level of the parent or above is the parent. -/
theorem Fits.eq_parent_of_ancestor (hU : Treelike U) (hf : f.Fits U) (hb : f.Stored b)
    (hp : BlockChain.StoredParent f b p) (hq : Ancestor U b q) (hlt : q.level < b.level)
    (hle : p.level ≤ q.level) : q = p := by
  have hbU := (hf.mem_of_getVertex hb).1
  have hpb := hf.storedParent hU hbU hp
  rcases hq.cases_head with rfl | ⟨p', hp', hanc⟩
  · exact absurd hlt (UInt64.lt_irrefl _)
  · obtain rfl : p' = p := hU.ids p' hp'.1 p hpb.1 (hp'.2.trans hpb.2.1.symm)
    rcases Ancestor.eq_or_lt hU hpb.1 hanc with heq | hlt'
    · exact heq
    · exact absurd hlt' (UInt64.not_lt.mpr hle)

/-- If all forks are reported, the committed blocks are kept out of the report
exactly if the walk takes the parent of the head, unless that one is too low to be
committed or reported. -/
theorem Fits.committed_marked_iff (hU : Treelike U) (hf : f.Fits U) (hb : f.Stored b)
    (hread : ∀ m, ReflTransGen (Step f.nextLevel) b.level m → f.Readable m)
    (hparent : ∀ q, f.FirstParent b.level q → 1 < q.level → Ancestor U b q ∧ f.Lined q) :
    (∀ x, f.Joined b x → f.lowestLevel < x.level → 1 < x.level → x.level < b.level →
      TransGen (Step f.nextLevel) b.level x.level) ↔
    ∀ p, BlockChain.StoredParent f b p → 1 < p.level → f.lowestLevel < p.level →
      f.FirstParent b.level p := by
  constructor
  · intro hmarked p hp hone hlow
    have hpb := hf.storedParent hU (hf.mem_of_getVertex hb).1 hp
    have hpm := hmarked p (.single hp) hlow hone hpb.2.2
    obtain ⟨q, hq, hreach⟩ := (hf.marked_iff_firstParent hU hb).mp hpm
    obtain ⟨hqs, -, hlt⟩ := hf.firstParent hU hq
    have hle := (hf.walk_le hU hqs hreach).1
    have hanc := (hparent q hq (UInt64.lt_of_lt_of_le hone hle)).1
    rwa [← hf.eq_parent_of_ancestor hU hb hp hanc hlt hle]
  · intro hfirst x hx hlow hone hlt
    rcases hx.cases_head with rfl | ⟨p, hp, hpx⟩
    · exact absurd hlt (UInt64.lt_irrefl _)
    have hle : x.level ≤ p.level := by
      rcases (hf.joined hU (hf.stored_of_getVertex hp) hpx).2 with rfl | hlt'
      · exact UInt64.le_refl _
      · exact UInt64.le_of_lt hlt'
    have hpone := UInt64.lt_of_lt_of_le hone hle
    have hq := hfirst p hp hpone (UInt64.lt_of_lt_of_le hlow hle)
    exact (hf.marked_iff_joined hU hb hread hq (hparent p hq hpone).2).mpr ⟨x, hpx, rfl⟩

end LevelledForest

/-- What a commit that succeeds reports: the stored path, and the blocks of the
levels below that its second walk does not come to. -/
theorem BlockChain.commitBlock_reports {bc bc' : BlockChain} (hU : Treelike U)
    (hf : bc.forrest.Fits U) {id : Identifier} {view : View} {committed forked : List Block}
    (hc : bc.commitBlock id view = .ok (.ok (committed, forked), bc'))
    (hb : bc.forrest.getVertex id = some b) :
    (∀ x, x ∈ committed ↔ bc.forrest.Joined b x ∧ bc.forrest.lowestLevel < x.level) ∧
    (∀ y, y ∈ forked ↔ bc.forrest.Stored y ∧ 1 < y.level ∧ y.level < b.level ∧
      ¬ TransGen (Step bc.forrest.nextLevel) b.level y.level) ∧
    ∀ m, ReflTransGen (Step bc.forrest.nextLevel) b.level m → bc.forrest.Readable m := by
  have hcert := hf.certified hU
  rcases commitBlock_ok hc with ⟨-, hr, -⟩ | ⟨block, path, res, hb', hpath, hprune, -, hr⟩
  · cases hr
  rw [hb] at hb'
  cases hb'
  rcases hr with ⟨e, -, hr⟩ | ⟨forked', prunedNo, rfl, hr⟩
  · cases hr
  cases hr
  rcases pruneUpToLevel_ok hf.toCoherent hprune with
    ⟨-, hr, -⟩ | ⟨hlow, ls, p, hls, hp, hr, -⟩
  · cases hr
  cases hr
  refine ⟨fun x => ?_, fun y => ?_, fun m hm => ?_⟩
  · obtain ⟨⟨s, hcard, hs⟩, -⟩ := hf.stored_level_mem hU
    have hfuel : (s.filter (· < b.level)).card < bc.forrest.vertices.entries.length + 1 :=
      Nat.lt_succ_of_le ((Finset.card_filter_le _ _).trans hcard)
    obtain ⟨path, hpath', -, hmem⟩ := hf.committedPath hU hs (hf.stored_of_getVertex hb) hfuel
    rw [hpath] at hpath'
    cases hpath'
    exact hmem x
  · rw [hp.forked, List.mem_flatMap]
    simp only [hf.mem_forkedAt hU, mem_levelsBelow, mem_committedLevels_iff hcert hls]
    constructor
    · rintro ⟨l, ⟨-, hlt⟩, hy, rfl, hmark, hone⟩
      exact ⟨hy, hone, hlt, hmark⟩
    · rintro ⟨hy, hone, hlt, hmark⟩
      obtain ⟨-, -, -, -, hylow⟩ := hf.container_of_stored hU hy
      exact ⟨y.level, ⟨hylow, hlt⟩, hy, rfl, hmark, hone⟩
  · exact ((committedLevels_returns_iff hcert _ _).mp ⟨ls, hls⟩).ok_of_reaches hm

/-- Calls that bring blocks of the set leave a forest that fits it. -/
theorem BlockChain.run_fits {bc : BlockChain} (hU : Treelike U) (env : Env) {ops : List ChainOp}
    (hops : ∀ b, .addBlock b ∈ ops → b ∈ U)
    (hrun : (BlockChain.new env.n).run env ops = .ok bc) : bc.forrest.Fits U := by
  refine BlockChain.run_forrest (J := LevelledForest.Fits U) ?_ ?_ (fits_new U) hrun
  · intro b hb f f' hf hadd
    obtain ⟨f₁, hadd', hf₁⟩ := hf.addVertex hU (hops b hb)
    rw [hadd] at hadd'
    cases hadd'
    exact hf₁
  · intro f f' level r hf hprune
    exact hf.pruneUpToLevel hprune

/-- A commit tells committed and forked blocks apart exactly if, first, the parent
of the head is the parent of the first block of the head's view, unless it is too
low to be committed or reported; and, second, the parent of that first block is an
ancestor of the head and shares, as its own stored ancestors, its view with no
other stored block. -/
theorem commit_forks_iff (hU : Treelike U) (env : Env) {ops : List ChainOp}
    (hops : ∀ b, .addBlock b ∈ ops → b ∈ U) {bc bc' : BlockChain}
    (hrun : (BlockChain.new env.n).run env ops = .ok bc) {id : Identifier} {view : View}
    {committed forked : List Block} {head : Block}
    (hc : bc.commitBlock id view = .ok (.ok (committed, forked), bc'))
    (hhead : bc.forrest.getVertex id = some head) :
    ((∀ x ∈ committed, x ∉ forked) ∧
      ∀ y, bc.forrest.Stored y → 1 < y.view → y.view < head.view → ¬ Ancestor U head y →
        y ∈ forked) ↔
    (∀ p, BlockChain.StoredParent bc.forrest head p → 1 < p.view →
      bc.forrest.lowestLevel < p.level → bc.forrest.FirstParent head.level p) ∧
    ∀ q, bc.forrest.FirstParent head.level q → 1 < q.view → Ancestor U head q ∧
      ∀ x y, bc.forrest.Joined q x → 1 < x.view → bc.forrest.Stored y → y.view = x.view →
        y = x := by
  have hf := BlockChain.run_fits hU env hops hrun
  have hhs := hf.stored_of_getVertex hhead
  obtain ⟨hcommitted, hforked, hread⟩ := BlockChain.commitBlock_reports hU hf hc hhead
  have hmem : ∀ x, bc.forrest.Stored x → x ∈ U := fun x hx => (hf.mem_of_getVertex hx).1
  have hone : ∀ x, bc.forrest.Stored x → (1 < x.view ↔ 1 < x.level) :=
    fun x hx => (one_lt_level_iff (hU.view_nonneg (hmem x hx))).symm
  have hlt : ∀ x, bc.forrest.Stored x → (x.view < head.view ↔ x.level < head.level) :=
    fun x hx => (level_lt_iff (hU.view_nonneg (hmem x hx)) (hU.view_nonneg (hmem head hhs))).symm
  -- both sides by levels
  have hforks : (∀ y, bc.forrest.Stored y → 1 < y.view → y.view < head.view →
      ¬ Ancestor U head y → y ∈ forked) ↔ ∀ y, bc.forrest.Stored y → 1 < y.level →
        y.level < head.level → ¬ Ancestor U head y →
          ¬ TransGen (Step bc.forrest.nextLevel) head.level y.level := by
    refine forall₂_congr fun y hy => ?_
    rw [hone y hy, hlt y hy, hforked]
    tauto
  have hcom : (∀ x ∈ committed, x ∉ forked) ↔ ∀ x, bc.forrest.Joined head x →
      bc.forrest.lowestLevel < x.level → 1 < x.level → x.level < head.level →
        TransGen (Step bc.forrest.nextLevel) head.level x.level := by
    refine forall_congr' fun x => ?_
    rw [hcommitted, hforked, and_imp]
    refine forall₂_congr fun hx _ => ?_
    have hxs := (hf.joined hU hhs hx).1
    tauto
  have hlined : (∀ q, bc.forrest.FirstParent head.level q → 1 < q.view → Ancestor U head q ∧
      ∀ x y, bc.forrest.Joined q x → 1 < x.view → bc.forrest.Stored y → y.view = x.view → y = x) ↔
      ∀ q, bc.forrest.FirstParent head.level q → 1 < q.level →
        Ancestor U head q ∧ bc.forrest.Lined q := by
    refine forall₂_congr fun q hq => ?_
    have hqs := (hf.firstParent hU hq).1
    rw [hone q hqs]
    refine imp_congr_right fun _ => and_congr_right fun _ => ?_
    refine forall₃_congr fun x y hx => ?_
    rw [hone x (hf.joined hU hqs hx).1, level_eq_iff]
  have hparent : (∀ p, BlockChain.StoredParent bc.forrest head p → 1 < p.view →
      bc.forrest.lowestLevel < p.level → bc.forrest.FirstParent head.level p) ↔
      ∀ p, BlockChain.StoredParent bc.forrest head p → 1 < p.level →
        bc.forrest.lowestLevel < p.level → bc.forrest.FirstParent head.level p := by
    refine forall₂_congr fun p hp => ?_
    rw [hone p (hf.stored_of_getVertex hp)]
  rw [hcom, hforks, hlined, hparent, hf.forks_reported_iff hU hhs hread]
  exact and_congr_left fun h => hf.committed_marked_iff hU hhs hread h

/-- A chain of views 1, 3 and 4 and a fork at view 2. The head comes after another
block of its view on the same parent. -/
def forkBelowHead : List Block :=
  [.onView 1 0, .onView 3 1, .onView 2 1, { Block.onView 4 3 with id := 7 }, .onView 4 3]

theorem commit_forks_iff_below : ∃ bc bc',
    (BlockChain.new fourNodes.n).run fourNodes (forkBelowHead.map .addBlock) = .ok bc ∧
    bc.commitBlock 4 5 = .ok (.ok ([.onView 4 3, .onView 3 1, .onView 1 0], [.onView 2 1]), bc') ∧
    (((∀ x ∈ [Block.onView 4 3, .onView 3 1, .onView 1 0], x ∉ [Block.onView 2 1]) ∧
      ∀ y, bc.forrest.Stored y → 1 < y.view → y.view < 4 →
        ¬ Ancestor {b | b ∈ forkBelowHead} (.onView 4 3) y → y ∈ [Block.onView 2 1]) ↔
    (∀ p, BlockChain.StoredParent bc.forrest (.onView 4 3) p → 1 < p.view →
      bc.forrest.lowestLevel < p.level → bc.forrest.FirstParent 4 p) ∧
    ∀ q, bc.forrest.FirstParent 4 q → 1 < q.view →
      Ancestor {b | b ∈ forkBelowHead} (.onView 4 3) q ∧
      ∀ x y, bc.forrest.Joined q x → 1 < x.view → bc.forrest.Stored y → y.view = x.view →
        y = x) := by
  have hU : Treelike {b | b ∈ forkBelowHead} := treelike_of_list (by decide)
  have hrun : ((BlockChain.new fourNodes.n).run fourNodes (forkBelowHead.map .addBlock)).map
      (fun bc => ((bc.commitBlock 4 5).map Prod.fst, bc.forrest.getVertex 4)) =
      .ok (.ok (.ok ([.onView 4 3, .onView 3 1, .onView 1 0], [.onView 2 1])),
        some (.onView 4 3)) := by
    decide +kernel
  obtain ⟨bc, hbc, heval⟩ := exists_of_map_eq_ok hrun
  simp only [Prod.mk.injEq] at heval
  obtain ⟨⟨r, bc'⟩, hcommit, rfl⟩ := exists_of_map_eq_ok heval.1
  have hadded : ∀ b, .addBlock b ∈ forkBelowHead.map ChainOp.addBlock →
      b ∈ {b | b ∈ forkBelowHead} := by
    intro b hb
    simpa using hb
  exact ⟨bc, bc', hbc, hcommit, commit_forks_iff hU fourNodes hadded hbc hcommit heval.2⟩

/-- Two blocks of view 3, the one with the shorter history first: a commit of the
other one delivers its parent and reports it as forked. Two blocks of view 2: a
commit above the one does not report the other. -/
theorem commit_forks_mixed_up :
    Treelike {b | b ∈ [Block.onView 1 0, .onView 2 1, { Block.onView 3 1 with id := 7 },
      .onView 3 2]} ∧
    (((BlockChain.new fourNodes.n).run fourNodes [.addBlock (.onView 1 0), .addBlock (.onView 2 1),
      .addBlock { Block.onView 3 1 with id := 7 }, .addBlock (.onView 3 2)]).bind
        fun bc => (bc.commitBlock 3 4).map Prod.fst) =
      .ok (.ok ([.onView 3 2, .onView 2 1, .onView 1 0], [.onView 2 1])) ∧
    Treelike {b | b ∈ [Block.onView 1 0, .onView 2 1, { Block.onView 2 1 with id := 7 },
      .onView 3 2]} ∧
    (((BlockChain.new fourNodes.n).run fourNodes [.addBlock (.onView 1 0), .addBlock (.onView 2 1),
      .addBlock { Block.onView 2 1 with id := 7 }, .addBlock (.onView 3 2)]).bind
        fun bc => (bc.commitBlock 3 4).map Prod.fst) =
      .ok (.ok ([.onView 3 2, .onView 2 1, .onView 1 0], [])) :=
  ⟨treelike_of_list (by decide), by decide +kernel, treelike_of_list (by decide),
    by decide +kernel⟩

end Bamboo
