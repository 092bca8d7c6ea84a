import Bamboo.ForestOrder

/-!
# What the vertex check is good for

`AddVertex` asks for vertices that pass `VerifyVertex`. The check compares a
vertex with the full vertices of the forest, but a container gets its level from
whoever names its id first, and that may be a child of a vertex which has not
arrived. So the levels of the forest are right exactly as long as the vertices
agree with the placeholders they meet.
-/
namespace Bamboo

namespace LevelledForest

/-- The level of a container is that of its vertex; its children are above it
and name it with its level. -/
structure WellPlaced (f : LevelledForest) (c : VertexContainer) : Prop where
  own : ∀ b, c.vertex = some b → c.level = b.level
  child : ∀ a ∈ c.children, ∀ b, f.vertexAt a = some b →
    c.level < b.level ∧ b.parent = .ok (c.id, c.level)

/-- Every container, also a pruned one, has its right level. -/
def Levelled (f : LevelledForest) : Prop :=
  ∀ (i : ℕ) (c : VertexContainer), f.heap[i]? = some c → f.WellPlaced c

theorem levelled_new : new.Levelled := by
  intro i c h
  simp [new] at h

/-- The condition on a vertex that is about to be stored: the containers that
exist for its id and, if it is going to be registered there, for its parent's
id have the levels that the vertex states. -/
def Agrees (f : LevelledForest) (b : Block) : Prop :=
  f.lowestLevel ≤ b.level → f.getVertex b.id = none →
    (∀ l ∈ f.levelOf b.id, l = b.level) ∧
    (f.lowestLevel < b.level → f.lowestLevel ≤ b.parentLevel →
      b.prevID ≠ b.id ∧ ∀ l ∈ f.levelOf b.prevID, l = b.parentLevel)

/-! ## One change of the heap -/

variable {f f' : LevelledForest}

/-- What is asked of the containers after a change of one of them. -/
theorem forall_heap_modify {heap : List VertexContainer} {p : ℕ}
    {g : VertexContainer → VertexContainer} {P : VertexContainer → Prop} :
    (∀ (i : ℕ) (c : VertexContainer), (heap.modify p g)[i]? = some c → P c) ↔
      ∀ (i : ℕ) (c : VertexContainer), heap[i]? = some c → P (if p = i then g c else c) := by
  simp only [List.getElem?_modify, Option.map_eq_map, Option.map_eq_some_iff]
  constructor
  · intro h i c hc
    exact h i _ ⟨c, hc, rfl⟩
  · rintro h i c ⟨c', hc', rfl⟩
    exact h i c' hc'

/-- Only the heap matters, so pruning does not. -/
theorem levelled_iff_of_heap (h : f'.heap = f.heap) : f'.Levelled ↔ f.Levelled := by
  have hvertexAt : f'.vertexAt = f.vertexAt := by
    funext a
    rw [vertexAt, vertexAt, h]
  have hplaced : ∀ c, f'.WellPlaced c ↔ f.WellPlaced c := by
    intro c
    constructor
    · rintro ⟨hown, hchild⟩
      exact ⟨hown, hvertexAt ▸ hchild⟩
    · rintro ⟨hown, hchild⟩
      exact ⟨hown, hvertexAt ▸ hchild⟩
  simp only [Levelled, h, hplaced]

/-- A new placeholder has neither a vertex nor children. -/
theorem levelled_push (f : LevelledForest) (id : Identifier) (level : UInt64) :
    (f.push id level).Levelled ↔ f.Levelled := by
  have hplaced : ∀ c, (f.push id level).WellPlaced c ↔ f.WellPlaced c := by
    intro c
    constructor
    · rintro ⟨hown, hchild⟩
      simp only [vertexAt_push] at hchild
      exact ⟨hown, hchild⟩
    · rintro ⟨hown, hchild⟩
      refine ⟨hown, ?_⟩
      simpa only [vertexAt_push] using hchild
  simp only [Levelled, hplaced]
  constructor
  · intro h i c hc
    apply h i c
    rwa [push, List.getElem?_append_left (List.getElem?_eq_some_iff.mp hc).1]
  · intro h i c hc
    rw [push, List.getElem?_append] at hc
    split_ifs at hc with hlt
    · exact h i c hc
    · obtain rfl := List.mem_singleton.mp (List.mem_of_getElem? hc)
      exact ⟨by simp, by simp⟩

theorem levelled_getOrCreate (f : LevelledForest) (id : Identifier) (level : UInt64) :
    (f.getOrCreateVertexContainer id level).1.Levelled ↔ f.Levelled := by
  cases h : f.vertices.lookup id with
  | some a => rw [getOrCreate_some h]
  | none => rw [getOrCreate_none h, levelled_push]

/-- Only full containers are anybody's children. -/
theorem Coherent.ne_of_mem_children (hf : f.Coherent) {i a x : ℕ} {c d : VertexContainer}
    (hc : f.heap[a]? = some c) (hempty : c.vertex = none) (hd : f.heap[i]? = some d)
    (hx : x ∈ d.children) : x ≠ a := by
  rintro rfl
  have hfull := hf.full x (List.mem_flatMap.mpr ⟨d, List.mem_of_getElem? hd, hx⟩)
  simp [vertexAt, hc, hempty] at hfull

/-- The vertex that fills a placeholder must be of its level. -/
theorem levelled_fill (hf : f.Coherent) {a : ℕ} {c : VertexContainer}
    (hc : f.heap[a]? = some c) (hempty : c.vertex = none) (b : Block) :
    (f.fill a b).Levelled ↔ f.Levelled ∧ c.level = b.level := by
  have hchild : ∀ (i : ℕ) (d : VertexContainer), f.heap[i]? = some d → ∀ x ∈ d.children,
      (f.fill a b).vertexAt x = f.vertexAt x := by
    intro i d hd x hx
    rw [vertexAt_fill hc, if_neg (hf.ne_of_mem_children hc hempty hd hx)]
  rw [Levelled, fill, forall_heap_modify]
  constructor
  · intro h
    refine ⟨fun i d hd => ⟨fun v hv => ?_, fun x hx v hv => ?_⟩, ?_⟩
    · have hne : a ≠ i := by
        rintro rfl
        simp_all
      have hplaced := h i d hd
      rw [if_neg hne] at hplaced
      exact hplaced.own v hv
    · rw [← hchild i d hd x hx] at hv
      have hplaced := h i d hd
      split_ifs at hplaced
      · exact hplaced.child x hx v hv
      · exact hplaced.child x hx v hv
    · have hplaced := h a c hc
      rw [if_pos rfl] at hplaced
      exact hplaced.own b rfl
  · rintro ⟨h, hlevel⟩ i d hd
    have hold : ∀ x ∈ d.children, ∀ v, (f.fill a b).vertexAt x = some v →
        d.level < v.level ∧ v.parent = .ok (d.id, d.level) := by
      intro x hx v hv
      rw [hchild i d hd x hx] at hv
      exact (h i d hd).child x hx v hv
    split_ifs with hai
    · subst hai
      obtain rfl : c = d := Option.some.inj (hc.symm.trans hd)
      refine ⟨fun v hv => ?_, hold⟩
      obtain rfl : b = v := Option.some.inj hv
      exact hlevel
    · exact ⟨(h i d hd).own, hold⟩

/-- The child that is registered must be above the container and know its level. -/
theorem levelled_addChild {p a : ℕ} {d : VertexContainer} {b : Block}
    (hd : f.heap[p]? = some d) (hb : f.vertexAt a = some b) :
    (f.addChild p a).Levelled ↔
      f.Levelled ∧ d.level < b.level ∧ b.parent = .ok (d.id, d.level) := by
  have hat : ∀ x, (f.addChild p a).vertexAt x = f.vertexAt x := f.vertexAt_addChild p a
  rw [Levelled, addChild, forall_heap_modify]
  constructor
  · intro h
    refine ⟨fun i c hc => ?_, ?_⟩
    · have hplaced := h i c hc
      split_ifs at hplaced
      · exact ⟨hplaced.own, fun x hx v hv =>
          hplaced.child x (List.mem_append_left _ hx) v ((hat x).trans hv)⟩
      · exact ⟨hplaced.own, fun x hx v hv => hplaced.child x hx v ((hat x).trans hv)⟩
    · have hplaced := h p d hd
      rw [if_pos rfl] at hplaced
      exact hplaced.child a (by simp) b ((hat a).trans hb)
  · rintro ⟨h, hnew⟩ i c hc
    have hold : ∀ x ∈ c.children, ∀ v, (f.addChild p a).vertexAt x = some v →
        c.level < v.level ∧ v.parent = .ok (c.id, c.level) := by
      intro x hx v hv
      exact (h i c hc).child x hx v ((hat x).symm.trans hv)
    split_ifs with hpi
    · subst hpi
      obtain rfl : d = c := Option.some.inj (hd.symm.trans hc)
      refine ⟨(h p d hc).own, fun x hx v hv => ?_⟩
      rcases List.mem_append.mp hx with hx | hx
      · exact hold x hx v hv
      · obtain rfl := List.mem_singleton.mp hx
        obtain rfl : b = v := Option.some.inj (hb.symm.trans ((hat x).symm.trans hv))
        exact hnew
    · exact ⟨(h i c hc).own, hold⟩

/-! ## One verified insertion -/

/-- What the check has found out about a vertex that is new and above the lowest
level. -/
theorem parent_of_verifyVertex {b : Block} (h : f.verifyVertex b = .ok (.ok ()))
    (hnew : f.getVertex b.id = none) (habove : f.lowestLevel < b.level) :
    b.parent = .ok (b.prevID, b.parentLevel) ∧ b.parentLevel < b.level ∧
      ∀ p, f.getVertex b.prevID = some p → p.level = b.parentLevel := by
  have hlow : ¬ b.level < f.lowestLevel := UInt64.not_lt.mpr (UInt64.le_of_lt habove)
  have hne : b.level ≠ f.lowestLevel := (UInt64.ne_of_lt habove).symm
  simp only [verifyVertex, hlow, isEquivalentToStoredVertex, hnew, hne, bind, Except.bind,
    ↓reduceIte] at h
  cases hqc : b.qc with
  | none => simp [verifyParent, Block.parent, hqc, bind, Except.bind] at h
  | some qc =>
    have hparent := parent_eq hqc
    simp only [verifyParent, hparent, bind, Except.bind, pure, Except.pure] at h
    split_ifs at h with hlt
    · refine ⟨hparent, hlt, fun p hp => ?_⟩
      simp only [hp] at h
      split_ifs at h with hlevel
      · cases h
      · exact not_not.mp hlevel
    · cases h

/-- Registration, with the branch taken. -/
theorem registerWithParent_cases {a : ℕ} {level : UInt64} {b : Block}
    (h : f.registerWithParent a level b = .ok f') :
    (f' = f ∧ (f.lowestLevel < level → b.parentLevel < f.lowestLevel)) ∨
      (f.lowestLevel < level ∧ f.lowestLevel ≤ b.parentLevel ∧
        b.parent = .ok (b.prevID, b.parentLevel) ∧
        f' = (f.getOrCreateVertexContainer b.prevID b.parentLevel).1.addChild
          (f.getOrCreateVertexContainer b.prevID b.parentLevel).2 a) := by
  unfold registerWithParent at h
  split_ifs at h with hl
  · cases h
    exact Or.inl ⟨rfl, fun hlt => absurd hl (UInt64.not_le.mpr hlt)⟩
  · cases hqc : b.qc with
    | none => simp [Block.parent, hqc, bind, Except.bind] at h
    | some qc =>
      simp only [parent_eq hqc, bind, Except.bind] at h
      split_ifs at h with hv
      · cases h
        exact Or.inl ⟨rfl, fun _ => hv⟩
      · cases h
        exact Or.inr ⟨UInt64.not_le.mp hl, UInt64.not_lt.mp hv, parent_eq hqc, rfl⟩

/-- The level of the parent's container once the child's is there. -/
theorem level_parent_of_fill (hf : f.Coherent) {b : Block} {g : LevelledForest} {a p : ℕ}
    (hr : f.getOrCreateVertexContainer b.id b.level = (g, a)) (hg : g.Coherent)
    (ha : g.vertices.lookup b.id = some a) {d : VertexContainer}
    (hp : ((g.fill a b).getOrCreateVertexContainer b.prevID b.parentLevel).2 = p)
    (hd : ((g.fill a b).getOrCreateVertexContainer b.prevID b.parentLevel).1.heap[p]? = some d) :
    d.level = ((f.levelOf b.prevID).or
      (if b.prevID = b.id then some b.level else none)).getD b.parentLevel := by
  have hlookup := lookup_getOrCreate (g.fill a b) b.prevID b.parentLevel
  rw [hp] at hlookup
  rw [level_getOrCreate (hg.fill ha) b.prevID b.parentLevel d (by simp [container, hlookup, hd]),
    outline_fill hg.toSound ha]
  have hname := outline_getOrCreate hf b.id b.level
  rw [hr] at hname
  simp only [hname]
  rfl

/-- A block that names itself finds its own container, which is not of its parent's level. -/
theorem level_parent_iff {b : Block} {level : UInt64}
    (hlevel : level = ((f.levelOf b.prevID).or
      (if b.prevID = b.id then some b.level else none)).getD b.parentLevel)
    (hown : ∀ l ∈ f.levelOf b.id, l = b.level) (hlt : b.parentLevel < b.level) :
    level = b.parentLevel ↔
      b.prevID ≠ b.id ∧ ∀ l ∈ f.levelOf b.prevID, l = b.parentLevel := by
  by_cases hself : b.prevID = b.id
  · have hsame : level = b.level := by
      rw [hlevel, hself, if_pos rfl]
      cases hl : f.levelOf b.id with
      | none => rfl
      | some l => exact hown l hl
    simp [hself, hsame, (UInt64.ne_of_lt hlt).symm]
  · rw [hlevel, if_neg hself, Option.or_none]
    cases f.levelOf b.prevID <;> simp [hself]

/-- A verified vertex leaves the levels right exactly if it agrees with the
containers it meets. -/
theorem levelled_addVertex_iff (hf : f.Coherent) (h : f.Levelled) {b : Block}
    (hverify : f.verifyVertex b = .ok (.ok ())) (hadd : f.addVertex b = .ok f') :
    f'.Levelled ↔ f.Agrees b := by
  rcases addVertex_ok hf hadd with rfl | ⟨g, a, c, hr, hg, hlow, ha, hc, hempty, hreg⟩
  · -- nothing stored: the vertex is below the lowest level or known
    refine iff_of_true h fun hlow hnone => ?_
    have hstored := (addVertex_spec hf.toSound hadd).2.2 b.id
    rw [if_pos ⟨rfl, UInt64.not_lt.mpr hlow, hnone⟩, hnone] at hstored
    cases hstored
  have hcontent := getOrCreate_sameContent hf.toSound b.id b.level
  rw [hr] at hcontent
  have hnone : f.getVertex b.id = none := by
    rw [← hcontent.getVertex]
    simp [getVertex, vertexAt, ha, hc, hempty]
  have hglow : (g.fill a b).lowestLevel = f.lowestLevel := hcontent.lowestLevel
  have hclevel : c.level = (f.levelOf b.id).getD b.level :=
    level_getOrCreate hf b.id b.level c (by simp [hr, container, ha, hc])
  have hown : c.level = b.level ↔ ∀ l ∈ f.levelOf b.id, l = b.level := by
    rw [hclevel]
    cases f.levelOf b.id <;> simp
  have hgl : g.Levelled := by
    have hlev := (levelled_getOrCreate f b.id b.level).mpr h
    rwa [hr] at hlev
  have hfill : (g.fill a b).Levelled ↔ c.level = b.level := by
    rw [levelled_fill hg hc hempty, and_iff_right hgl]
  have hfb : (g.fill a b).vertexAt a = some b := by simp [vertexAt_fill hc]
  rcases registerWithParent_cases hreg with ⟨rfl, hskip⟩ | ⟨habove, hplow, hparent, rfl⟩
  · rw [hfill, hown]
    refine ⟨fun hl _ _ => ⟨hl, fun hlt hple => ?_⟩, fun hagree => (hagree hlow hnone).1⟩
    rw [hglow, hown.mpr hl] at hskip
    exact absurd (hskip hlt) (UInt64.not_lt.mpr hple)
  · rw [hglow] at habove hplow
    obtain ⟨d, hd, hdid⟩ := ((hg.fill ha).getOrCreate b.prevID (hglow ▸ hplow)).named b.prevID _
      (lookup_getOrCreate (g.fill a b) b.prevID b.parentLevel)
    have hdlevel := level_parent_of_fill hf hr hg ha rfl hd
    rw [levelled_addChild hd ((vertexAt_getOrCreate _ _ _ _).trans hfb), levelled_getOrCreate,
      hfill, hparent, hdid]
    constructor
    · rintro ⟨hcl, hlt, hdl⟩ - -
      simp only [Except.ok.injEq, Prod.mk.injEq, true_and] at hdl
      rw [← hdl] at hlt
      exact ⟨hown.mp hcl, fun _ _ => (level_parent_iff hdlevel (hown.mp hcl) hlt).mp hdl.symm⟩
    · intro hagree
      obtain ⟨hl, hrest⟩ := hagree hlow hnone
      have hcl := hown.mpr hl
      rw [hcl] at habove
      have hlt := (parent_of_verifyVertex hverify hnone habove).2.1
      have hdl := (level_parent_iff hdlevel hl hlt).mpr (hrest habove hplow)
      exact ⟨hcl, hdl ▸ hlt, by rw [hdl]⟩

/-! ## Runs of verified insertions -/

/-- A vertex is added only if the check before it has returned nil. -/
def verifiedCall (f : LevelledForest) : Call → Except Fault LevelledForest
  | .addVertex b => do
    match ← f.verifyVertex b with
    | .ok () => f.addVertex b
    | .error _ => return f
  | .pruneUpToLevel level => do return (← f.pruneUpToLevel level).2

def verifiedRun (f : LevelledForest) (calls : List Call) : Except Fault LevelledForest :=
  calls.foldlM verifiedCall f

theorem verifiedRun_append (f : LevelledForest) (calls calls' : List Call) :
    f.verifiedRun (calls ++ calls') = (f.verifiedRun calls).bind (verifiedRun · calls') :=
  List.foldlM_append

/-- A run that returns has come through the state before its last call. -/
theorem verifiedRun_concat {calls : List Call} {c : Call}
    (h : f.verifiedRun (calls ++ [c]) = .ok f') :
    ∃ g, f.verifiedRun calls = .ok g ∧ g.verifiedCall c = .ok f' := by
  rw [verifiedRun_append] at h
  cases hg : f.verifiedRun calls with
  | error e =>
    rw [hg] at h
    cases h
  | ok g =>
    rw [hg] at h
    refine ⟨g, rfl, ?_⟩
    simpa [verifiedRun, Except.bind] using h

/-- A call that returns has stored a verified vertex, refused one or pruned. -/
theorem verifiedCall_ok {c : Call} (h : f.verifiedCall c = .ok f') :
    (∃ b, c = .addVertex b ∧ f.verifyVertex b = .ok (.ok ()) ∧ f.addVertex b = .ok f') ∨
      (∃ b e, c = .addVertex b ∧ f.verifyVertex b = .ok (.error e) ∧ f' = f) ∨
      ∃ level r, c = .pruneUpToLevel level ∧ f.pruneUpToLevel level = .ok (r, f') := by
  cases c with
  | addVertex b =>
    cases hv : f.verifyVertex b with
    | error e => simp [verifiedCall, hv, bind, Except.bind] at h
    | ok r =>
      cases r with
      | error e =>
        simp only [verifiedCall, hv, bind, Except.bind] at h
        exact Or.inr (Or.inl ⟨b, e, rfl, hv, (Except.ok.inj h).symm⟩)
      | ok u =>
        simp only [verifiedCall, hv, bind, Except.bind] at h
        exact Or.inl ⟨b, rfl, hv, h⟩
  | pruneUpToLevel level =>
    cases hp : f.pruneUpToLevel level with
    | error e => simp [verifiedCall, hp, bind, Except.bind] at h
    | ok r =>
      simp only [verifiedCall, hp, bind, Except.bind] at h
      cases h
      exact Or.inr (Or.inr ⟨level, r.1, rfl, hp⟩)

theorem Coherent.verifiedCall (hf : f.Coherent) {c : Call} (h : f.verifiedCall c = .ok f') :
    f'.Coherent := by
  rcases verifiedCall_ok h with ⟨b, -, -, hadd⟩ | ⟨b, e, -, -, rfl⟩ | ⟨level, r, -, hprune⟩
  · exact hf.addVertex hadd
  · exact hf
  · exact hf.pruneUpToLevel hprune

theorem coherent_verifiedRun {calls : List Call} (h : new.verifiedRun calls = .ok f) :
    f.Coherent := by
  induction calls using List.reverseRecOn generalizing f with
  | nil =>
    cases h
    exact coherent_new
  | append_singleton calls c ih =>
    obtain ⟨g, hg, hc⟩ := verifiedRun_concat h
    exact (ih hg).verifiedCall hc

/-- If the call stores a vertex, it agrees with the containers it meets. -/
def Agreed (f : LevelledForest) (c : Call) : Prop :=
  ∀ b, c = .addVertex b → f.verifyVertex b = .ok (.ok ()) → f.Agrees b

theorem levelled_verifiedCall_iff (hf : f.Coherent) (h : f.Levelled) {c : Call}
    (hc : f.verifiedCall c = .ok f') : f'.Levelled ↔ f.Agreed c := by
  rcases verifiedCall_ok hc with
    ⟨b, rfl, hverify, hadd⟩ | ⟨b, e, rfl, hrefuse, rfl⟩ | ⟨level, r, rfl, hprune⟩
  · rw [levelled_addVertex_iff hf h hverify hadd]
    constructor
    · rintro hagree b' hb -
      cases hb
      exact hagree
    · intro hagreed
      exact hagreed b rfl hverify
  · refine iff_of_true h fun b' hb hverify => ?_
    cases hb
    rw [hrefuse] at hverify
    cases hverify
  · rw [levelled_iff_of_heap (pruneUpToLevel_forgets hprune).heap]
    refine iff_of_true h fun b hb => ?_
    cases hb

theorem levelled_verifiedRun {calls : List Call}
    (hagreed : ∀ past c recent g, calls = past ++ c :: recent → new.verifiedRun past = .ok g →
      g.Agreed c) (h : new.verifiedRun calls = .ok f) : f.Levelled := by
  induction calls using List.reverseRecOn generalizing f with
  | nil =>
    cases h
    exact levelled_new
  | append_singleton calls c ih =>
    obtain ⟨g, hg, hc⟩ := verifiedRun_concat h
    have hlevelled : g.Levelled := by
      apply ih _ hg
      rintro past c' recent g' rfl
      exact hagreed past c' (recent ++ [c]) g' (by simp)
    apply (levelled_verifiedCall_iff (coherent_verifiedRun hg) hlevelled hc).mpr
    exact hagreed calls c [] g rfl hg

/-- In a run of verified insertions and prunings, all levels are right at all
times exactly if every vertex that gets stored agrees with the containers which
its own id and its parent's id have at that time. -/
theorem verified_levels_iff {calls : List Call} (h : new.verifiedRun calls = .ok f) :
    (∀ past recent g, calls = past ++ recent → new.verifiedRun past = .ok g → g.Levelled) ↔
      ∀ past b recent g, calls = past ++ .addVertex b :: recent →
        new.verifiedRun past = .ok g → g.verifyVertex b = .ok (.ok ()) → g.Agrees b := by
  constructor
  · rintro hlevelled past b recent g rfl hg hverify
    rw [List.append_cons, verifiedRun_append] at h
    cases hg' : new.verifiedRun (past ++ [.addVertex b]) with
    | error e =>
      rw [hg'] at h
      cases h
    | ok g' =>
      obtain ⟨k, hk, hcall⟩ := verifiedRun_concat hg'
      obtain rfl : g = k := Except.ok.inj (hg.symm.trans hk)
      have hafter := hlevelled (past ++ [.addVertex b]) recent g' (by simp) hg'
      have hbefore := hlevelled past (.addVertex b :: recent) g rfl hg
      have hiff := levelled_verifiedCall_iff (coherent_verifiedRun hg) hbefore hcall
      exact hiff.mp hafter b rfl hverify
  · rintro hagrees past recent g rfl hg
    apply levelled_verifiedRun _ hg
    rintro past' c recent' g' rfl hg' b rfl hverify
    exact hagrees past' b (recent' ++ recent) g' (by simp) hg' hverify

/-- A parent after its child, a fork, a pruning. -/
theorem verified_levels_iff_fork : ∃ f,
    new.verifiedRun [.addVertex (.onView 3 2), .addVertex (.onView 2 1), .addVertex (.onView 4 2),
      .pruneUpToLevel 3] = .ok f ∧ f.heap.length = 4 ∧
    ((∀ past recent g, [Call.addVertex (.onView 3 2), .addVertex (.onView 2 1),
        .addVertex (.onView 4 2), .pruneUpToLevel 3] = past ++ recent →
        new.verifiedRun past = .ok g → g.Levelled) ↔
      ∀ past b recent g, [Call.addVertex (.onView 3 2), .addVertex (.onView 2 1),
        .addVertex (.onView 4 2), .pruneUpToLevel 3] = past ++ .addVertex b :: recent →
        new.verifiedRun past = .ok g → g.verifyVertex b = .ok (.ok ()) → g.Agrees b) := by
  have hrun : ((new.verifiedRun [.addVertex (.onView 3 2), .addVertex (.onView 2 1),
      .addVertex (.onView 4 2), .pruneUpToLevel 3]).map fun f => f.heap.length) = .ok 4 := by
    decide +kernel
  obtain ⟨f, hf, hlen⟩ := exists_of_map_eq_ok hrun
  exact ⟨f, hf, hlen, verified_levels_iff hf⟩

/-- A block that takes its parent to be of view 3, and then the parent, which is
of view 4. Both pass the check, and the parent's container keeps level 3. -/
theorem verified_off_level : ∃ g f,
    new.verifyVertex (.onView 5 3) = .ok (.ok ()) ∧ new.addVertex (.onView 5 3) = .ok g ∧
    g.verifyVertex { Block.onView 3 1 with view := 4 } = .ok (.ok ()) ∧
    g.addVertex { Block.onView 3 1 with view := 4 } = .ok f ∧ ¬ f.Levelled := by
  have hverify : new.verifyVertex (.onView 5 3) = .ok (.ok ()) := by decide +kernel
  have hafter : ((new.addVertex (.onView 5 3)).map fun g =>
      (g.verifyVertex { Block.onView 3 1 with view := 4 },
        (g.addVertex { Block.onView 3 1 with view := 4 }).map fun f => f.heap[1]?)) =
      .ok (.ok (.ok ()), .ok (some ⟨3, 3, [0], some { Block.onView 3 1 with view := 4 }⟩)) := by
    decide +kernel
  obtain ⟨g, hg, hnext⟩ := exists_of_map_eq_ok hafter
  obtain ⟨hcheck, hadd⟩ := Prod.mk.inj hnext
  obtain ⟨f, hf, hheap⟩ := exists_of_map_eq_ok hadd
  refine ⟨g, f, hverify, hg, hcheck, hf, fun hlevelled => ?_⟩
  have hlevel := (hlevelled 1 _ hheap).own _ rfl
  revert hlevel
  decide

end LevelledForest

end Bamboo
