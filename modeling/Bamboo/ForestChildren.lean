import Bamboo.ForestOrder
import Bamboo.VertexIterator

/-!
# The children of a vertex

The lists of children of a forest whose blocks agree about levels: each list
holds exactly the stored blocks that name its owner as their parent. The queries
read it through the container of the id, and there is none for an id that was
never named or has been pruned.
-/
namespace Bamboo

/-! ## The queries -/

namespace LevelledForest

/-- The container of an id is read whether or not the map has one. -/
def getChildren (f : LevelledForest) (id : Identifier) : Except Fault VertexIterator :=
  match f.container id with
  | none => .error .nilPointer
  | some c => .ok (.newVertexIterator (f.containers c.children))

def getNumberOfChildren (f : LevelledForest) (id : Identifier) : Except Fault ℕ :=
  match f.container id with
  | none => .error .nilPointer
  | some c => .ok (countFull (f.containers c.children))

end LevelledForest

def BlockChain.getChildrenBlocks (bc : BlockChain) (fuel : ℕ) (id : Identifier) :
    Except Fault (List Block) := do
  let iterator ← bc.forrest.getChildren id
  let (blocks, _) ← iterator.collect fuel
  return blocks

/-! ## Levels that agree -/

/-- The level of the block and the level it claims for its parent are those of the
ids, and the parent's is the smaller one. -/
structure Block.LevelsAgree (lev : Identifier → UInt64) (b : Block) : Prop where
  certified : b.qc.isSome
  own : b.level = lev b.id
  parent : b.parentLevel = lev b.prevID
  above : lev b.prevID < lev b.id

/-- An outline whose children lists are those of the stored blocks. -/
structure Outline.Genealogy (lev : Identifier → UInt64) (low : UInt64) (o : Outline) : Prop where
  level : ∀ i l, o.level i = some l → l = lev i ∧ low ≤ l
  stored : ∀ i b, o.vertex i = some b → o.level i = some (lev i) ∧ lev b.prevID < lev i
  parent : ∀ i b, o.vertex i = some b → low ≤ lev b.prevID →
    o.level b.prevID = some (lev b.prevID)
  once : ∀ i, (o.children i).Nodup
  mem : ∀ i x, x ∈ o.children i ↔ low ≤ lev i ∧ ∃ b, o.vertex x = some b ∧ b.prevID = i

namespace Outline

variable {lev : Identifier → UInt64} {low : UInt64} {o : Outline}

theorem registers_iff (ho : o.Genealogy lev low) {b : Block} (hb : b.LevelsAgree lev) :
    o.Registers low b ↔ low ≤ lev b.prevID := by
  have hown : (o.level b.id).getD b.level = lev b.id := by
    cases hl : o.level b.id with
    | none => exact hb.own
    | some l => exact (ho.level _ _ hl).1
  have habove := hb.above
  simp only [Registers, hown, hb.parent, UInt64.le_iff_toNat_le, UInt64.lt_iff_toNat_lt] at *
  omega

/-- A level that was known stays, and the block's own and its parent's are known now. -/
theorem Genealogy.level_store (ho : o.Genealogy lev low) {b : Block} (hb : b.LevelsAgree lev)
    (i : Identifier) :
    (o.store low b).level i =
      if i = b.id ∨ (low ≤ lev b.prevID ∧ i = b.prevID) then some (lev i) else o.level i := by
  simp only [store, claim, registers_iff ho hb, hb.own, hb.parent]
  cases hl : o.level i with
  | some l => simp [(ho.level i l hl).1]
  | none =>
    by_cases hi : i = b.id
    · simp [hi]
    · by_cases hp : low ≤ lev b.prevID ∧ i = b.prevID
      · obtain ⟨hle, rfl⟩ := hp
        simp [hi, hle]
      · simp [hi, hp]

theorem vertex_store_eq_some {b b' : Block} {i : Identifier} :
    (o.store low b).vertex i = some b' ↔
      (i = b.id ∧ b' = b) ∨ (i ≠ b.id ∧ o.vertex i = some b') := by
  by_cases hi : i = b.id <;> simp [Outline.store, hi, eq_comm]

theorem Genealogy.notMem_children (ho : o.Genealogy lev low) {x : Identifier}
    (hx : o.vertex x = none) (i : Identifier) : x ∉ o.children i := by
  intro hmem
  obtain ⟨-, b, hb, -⟩ := (ho.mem i x).mp hmem
  rw [hx] at hb
  cases hb

/-- The block is entered with its parent, if the parent is not below the lowest level. -/
theorem Genealogy.mem_children_store (ho : o.Genealogy lev low) {b : Block}
    (hb : b.LevelsAgree lev) (hnone : o.vertex b.id = none) (i x : Identifier) :
    x ∈ (o.store low b).children i ↔
      low ≤ lev i ∧ ∃ b', (o.store low b).vertex x = some b' ∧ b'.prevID = i := by
  have hnew := ho.notMem_children hnone i
  simp only [store_children, registers_iff ho hb, vertex_store_eq_some]
  by_cases hx : x = b.id
  · subst hx
    split_ifs with hparent
    · simp [hparent]
    · simp only [hnew, false_iff, not_and]
      rintro hle ⟨b', ⟨-, rfl⟩ | ⟨hne, -⟩, rfl⟩
      · exact hparent ⟨hle, rfl⟩
      · exact hne rfl
  · have hold := ho.mem i x
    split_ifs <;> simp [hx, hold]

theorem Genealogy.store (ho : o.Genealogy lev low) {b : Block} (hb : b.LevelsAgree lev)
    (hfresh : o.Fresh low b) : (o.store low b).Genealogy lev low := by
  have hlow : low ≤ lev b.id := hb.own ▸ hfresh.1
  refine ⟨fun i l hl => ?_, fun i b' hb' => ?_, fun i b' hb' hp => ?_, fun i => ?_,
    ho.mem_children_store hb hfresh.2⟩
  · rw [ho.level_store hb] at hl
    split_ifs at hl with hi
    · cases hl
      rcases hi with rfl | ⟨hp, rfl⟩
      · exact ⟨rfl, hlow⟩
      · exact ⟨rfl, hp⟩
    · exact ho.level i l hl
  · rw [ho.level_store hb]
    rcases vertex_store_eq_some.mp hb' with ⟨rfl, rfl⟩ | ⟨-, hold⟩
    · simp [hb.above]
    · simp [ho.stored i b' hold]
  · rw [ho.level_store hb]
    rcases vertex_store_eq_some.mp hb' with ⟨rfl, rfl⟩ | ⟨-, hold⟩
    · simp [hp]
    · simp [ho.parent i b' hold hp]
  · rw [store_children]
    split_ifs
    · exact Multiset.nodup_cons.mpr ⟨ho.notMem_children hfresh.2 i, ho.once i⟩
    · exact ho.once i

theorem Genealogy.add (ho : o.Genealogy lev low) {b : Block} (hb : b.LevelsAgree lev) :
    (o.add low b).Genealogy lev low := by
  unfold Outline.add
  split_ifs with hfresh
  · exact ho.store hb hfresh
  · exact ho

/-! ### Pruning -/

/-- What pruning to `level` leaves of an outline. -/
def retain (level : UInt64) (o : Outline) : Outline where
  level i := (o.level i).filter (level ≤ ·)
  vertex i := if (o.level i).any (level ≤ ·) then o.vertex i else none
  children i := if (o.level i).any (level ≤ ·) then o.children i else 0

theorem Genealogy.any_level (ho : o.Genealogy lev low) {i : Identifier} {level : UInt64} :
    (o.level i).any (level ≤ ·) = true ↔ o.level i = some (lev i) ∧ level ≤ lev i := by
  cases hl : o.level i with
  | none => simp
  | some l => simp [(ho.level i l hl).1]

theorem Genealogy.vertex_retain (ho : o.Genealogy lev low) {level : UInt64} {i : Identifier}
    {b : Block} :
    (o.retain level).vertex i = some b ↔ level ≤ lev i ∧ o.vertex i = some b := by
  simp only [Outline.retain, ho.any_level, Option.ite_none_right_eq_some]
  constructor
  · rintro ⟨⟨-, hle⟩, hb⟩
    exact ⟨hle, hb⟩
  · rintro ⟨hle, hb⟩
    exact ⟨⟨(ho.stored i b hb).1, hle⟩, hb⟩

/-- A child is above its parent, so it stays if the parent does. -/
theorem Genealogy.mem_children_retain (ho : o.Genealogy lev low) {level : UInt64}
    (hlow : low ≤ level) (i x : Identifier) :
    x ∈ (o.retain level).children i ↔
      level ≤ lev i ∧ ∃ b, (o.retain level).vertex x = some b ∧ b.prevID = i := by
  have hmem : x ∈ (o.retain level).children i ↔
      (o.level i = some (lev i) ∧ level ≤ lev i) ∧ x ∈ o.children i := by
    simp only [Outline.retain, ho.any_level]
    split_ifs with h <;> simp [h]
  rw [hmem, ho.mem]
  simp only [ho.vertex_retain]
  constructor
  · rintro ⟨⟨-, hle⟩, -, b, hb, rfl⟩
    have hlt := (ho.stored x b hb).2
    exact ⟨hle, b, ⟨UInt64.le_of_lt (UInt64.lt_of_le_of_lt hle hlt), hb⟩, rfl⟩
  · rintro ⟨hle, b, ⟨-, hb⟩, rfl⟩
    have hl := UInt64.le_trans hlow hle
    exact ⟨⟨ho.parent x b hb hl, hle⟩, hl, b, hb, rfl⟩

theorem Genealogy.retain (ho : o.Genealogy lev low) {level : UInt64} (hlow : low ≤ level) :
    (o.retain level).Genealogy lev level := by
  refine ⟨fun i l hl => ?_, fun i b hb => ?_, fun i b hb hp => ?_, fun i => ?_,
    ho.mem_children_retain hlow⟩
  · obtain ⟨hl, hle⟩ := Option.filter_eq_some_iff.mp hl
    exact ⟨(ho.level i l hl).1, by simpa using hle⟩
  · obtain ⟨hle, hb⟩ := ho.vertex_retain.mp hb
    obtain ⟨hl, hlt⟩ := ho.stored i b hb
    simp [Outline.retain, hl, hle, hlt]
  · obtain ⟨-, hb⟩ := ho.vertex_retain.mp hb
    have hl := ho.parent i b hb (UInt64.le_trans hlow hp)
    simp [Outline.retain, hl, hp]
  · simp only [Outline.retain]
    split_ifs
    · exact ho.once i
    · exact Multiset.nodup_zero

end Outline

namespace LevelledForest

variable {f f' : LevelledForest} {lev : Identifier → UInt64}

/-! ## Pruning on the outline -/

theorem getVertex_eq_bind (f : LevelledForest) (id : Identifier) :
    f.getVertex id = (f.container id).bind VertexContainer.vertex := by
  cases ha : f.vertices.lookup id <;> simp [getVertex, container, vertexAt, ha]

/-- Pruning leaves the containers at the new lowest level and above. -/
theorem Pruned.container (hf : f.Coherent) {committed : List UInt64} {p : Pruning}
    {level : UInt64} (hp : Pruned f committed (f.levelsBelow level) p) (id : Identifier) :
    p.forest.container id = (f.container id).filter (level ≤ ·.level) := by
  have hvertices := (hp.retained hf).1
  ext c
  simp only [LevelledForest.container, Option.filter_eq_some_iff, Option.bind_eq_some_iff, hp.heap,
    hvertices, decide_eq_true_eq]
  constructor
  · rintro ⟨a, ⟨ha, l, hl, hle⟩, hc⟩
    obtain ⟨_, hlabel, -⟩ := (hf.listed l a).mp hl
    rw [label_of_heap hc, Option.some.injEq, Prod.mk.injEq] at hlabel
    exact ⟨⟨a, ha, hc⟩, hlabel.2 ▸ hle⟩
  · rintro ⟨⟨a, ha, hc⟩, hle⟩
    obtain ⟨c', hc', -, hmem⟩ := hf.mem_atLevel ha
    obtain rfl : c = c' := Option.some.inj (hc.symm.trans hc')
    exact ⟨a, ⟨ha, c.level, hmem, hle⟩, hc⟩

theorem outline_filter {f g : LevelledForest} {level : UInt64} (hheap : g.heap = f.heap)
    (h : ∀ id, g.container id = (f.container id).filter (level ≤ ·.level)) :
    g.outline = f.outline.retain level := by
  have hidAt : g.idAt = f.idAt := by
    funext a
    simp [idAt, hheap]
  ext1
  · funext i
    cases hc : f.container i with
    | none => simp [outline, levelOf, Outline.retain, h, hc]
    | some c => by_cases hle : level ≤ c.level <;>
        simp [outline, levelOf, Outline.retain, h, hc, Option.filter, hle]
  · funext i
    cases hc : f.container i with
    | none => simp [outline, levelOf, Outline.retain, getVertex_eq_bind, h, hc]
    | some c => by_cases hle : level ≤ c.level <;>
        simp [outline, levelOf, Outline.retain, getVertex_eq_bind, h, hc, Option.filter, hle]
  · funext i
    cases hc : f.container i with
    | none => simp [outline, levelOf, Outline.retain, childIDs, h, hc]
    | some c => by_cases hle : level ≤ c.level <;>
        simp [outline, levelOf, Outline.retain, childIDs, hidAt, h, hc, Option.filter, hle]

/-! ## Containers that are not pruned are found -/

/-- Every container of the arena has the level of its id, and the map finds those that
are not below the lowest level. -/
def Placed (lev : Identifier → UInt64) (f : LevelledForest) : Prop :=
  ∀ a id l, f.label a = some (id, l) →
    l = lev id ∧ (f.lowestLevel ≤ l → f.vertices.lookup id = some a)

theorem placed_new (lev : Identifier → UInt64) : Placed lev new := by
  intro a id l h
  simp [new, label] at h

theorem Placed.push (hf : Placed lev f) {id : Identifier} (hnew : f.vertices.lookup id = none) :
    Placed lev (f.push id (lev id)) := by
  intro a i l h
  rw [label_push] at h
  split_ifs at h with ha
  · cases h
    exact ⟨rfl, fun _ => by simp [LevelledForest.push, ha]⟩
  · obtain ⟨hl, hfound⟩ := hf a i l h
    exact ⟨hl, fun hlow => (lookup_push_iff hnew ha i).mpr (hfound hlow)⟩

theorem Placed.getOrCreate (hf : Placed lev f) {id : Identifier} {level : UInt64}
    (hlevel : level = lev id) : Placed lev (f.getOrCreateVertexContainer id level).1 := by
  subst hlevel
  cases h : f.vertices.lookup id with
  | some a => rwa [getOrCreate_some h]
  | none =>
    rw [getOrCreate_none h]
    exact hf.push h

theorem Placed.fill (hf : Placed lev f) (a : ℕ) (b : Block) : Placed lev (f.fill a b) := by
  intro i id l h
  rw [label_fill] at h
  exact hf i id l h

theorem Placed.addChild (hf : Placed lev f) (p a : ℕ) : Placed lev (f.addChild p a) := by
  intro i id l h
  rw [label_addChild] at h
  exact hf i id l h

theorem Placed.addVertex (hcoh : f.Coherent) (hf : Placed lev f) {b : Block}
    (hb : b.LevelsAgree lev) (h : f.addVertex b = .ok f') : Placed lev f' := by
  rcases addVertex_ok hcoh h with rfl | ⟨g, a, c, hg, -, -, -, -, -, hreg⟩
  · exact hf
  · have hplaced : Placed lev g := by
      have hget := hf.getOrCreate hb.own
      rwa [hg] at hget
    rcases registerWithParent_ok hreg with rfl | ⟨id, view, hparent, -, rfl⟩
    · exact hplaced.fill a b
    · obtain ⟨qc, hqc⟩ := Option.isSome_iff_exists.mp hb.certified
      rw [parent_eq hqc, Except.ok.injEq, Prod.mk.injEq] at hparent
      obtain ⟨rfl, rfl⟩ := hparent
      exact ((hplaced.fill a b).getOrCreate hb.parent).addChild _ a

theorem Placed.pruned (hcoh : f.Coherent) (hf : Placed lev f) {committed : List UInt64}
    {p : Pruning} {level : UInt64} (hlow : f.lowestLevel ≤ level)
    (hp : Pruned f committed (f.levelsBelow level) p) :
    Placed lev { p.forest with lowestLevel := level } := by
  intro a id l h
  have hlabel : f.label a = some (id, l) := by rwa [label, ← hp.heap]
  obtain ⟨hl, hfound⟩ := hf a id l hlabel
  refine ⟨hl, fun hle => ((hp.retained hcoh).1 id a).mpr ?_⟩
  have ha := hfound (UInt64.le_trans hlow hle)
  exact ⟨ha, l, (hcoh.listed l a).mpr ⟨id, hlabel, ha⟩, hle⟩

/-! ## Runs -/

/-- What holds of a forest that blocks with agreeing levels have been added to. -/
structure Descends (lev : Identifier → UInt64) (f : LevelledForest) : Prop where
  coherent : f.Coherent
  placed : Placed lev f
  genealogy : f.outline.Genealogy lev f.lowestLevel

theorem descends_new (lev : Identifier → UInt64) : Descends lev new where
  coherent := coherent_new
  placed := placed_new lev
  genealogy := by
    constructor <;> simp [outline, new, levelOf, container, getVertex, childIDs]

def Call.LevelsAgree (lev : Identifier → UInt64) : Call → Prop
  | .addVertex b => b.LevelsAgree lev
  | .pruneUpToLevel _ => True

theorem Descends.call (hf : Descends lev f) {c : Call} (hc : c.LevelsAgree lev)
    (h : f.call c = .ok f') : Descends lev f' := by
  have hcoh := (hf.coherent.call h).1
  cases c with
  | addVertex b =>
    obtain ⟨qc, hqc⟩ := Option.isSome_iff_exists.mp hc.certified
    obtain ⟨g, hg, hlow, hout⟩ := addVertex_outline hf.coherent hqc
    obtain rfl : g = f' := Except.ok.inj (hg.symm.trans h)
    refine ⟨hcoh, hf.placed.addVertex hf.coherent hc h, ?_⟩
    rw [hlow, hout]
    exact hf.genealogy.add hc
  | pruneUpToLevel level =>
    simp only [LevelledForest.call, bind, Except.bind] at h
    cases hp : f.pruneUpToLevel level with
    | error e => rw [hp] at h; cases h
    | ok r =>
      rw [hp] at h
      cases h
      rcases pruneUpToLevel_ok hf.coherent hp with
        ⟨-, -, hsame⟩ | ⟨hlow, committed, p, -, hpr, -, hnew⟩
      · rwa [hsame]
      · refine ⟨hcoh, ?_, ?_⟩
        · rw [hnew]
          exact hf.placed.pruned hf.coherent hlow hpr
        · rw [hnew]
          have hout : ({ p.forest with lowestLevel := level } : LevelledForest).outline =
              f.outline.retain level := outline_filter hpr.heap (hpr.container hf.coherent)
          rw [hout]
          exact hf.genealogy.retain hlow

theorem Descends.run (hf : Descends lev f) {calls : List Call}
    (hcalls : ∀ c ∈ calls, c.LevelsAgree lev) (h : f.run calls = .ok f') : Descends lev f' := by
  induction calls generalizing f with
  | nil =>
    obtain rfl : f = f' := Except.ok.inj h
    exact hf
  | cons c calls ih =>
    obtain ⟨g, hc, hrest⟩ := run_cons h
    rw [List.forall_mem_cons] at hcalls
    exact ih (hf.call hcalls.1 hc) hcalls.2 hrest

/-! ## What the queries see -/

/-- The blocks in the children of a container. -/
def childBlocks (f : LevelledForest) (c : VertexContainer) : List Block :=
  (f.containers c.children).filterMap VertexContainer.vertex

theorem mem_childBlocks {c : VertexContainer} {b : Block} :
    b ∈ f.childBlocks c ↔ ∃ a ∈ c.children, f.vertexAt a = some b := by
  simp only [childBlocks, containers, List.filterMap_filterMap, List.mem_filterMap]
  rfl

theorem Coherent.map_id_childBlocks (hf : f.Coherent) {id : Identifier} {c : VertexContainer}
    (hc : f.container id = some c) : (f.childBlocks c).map Block.id = f.childIDs id := by
  simp only [childBlocks, containers, childIDs, hc, List.filterMap_filterMap, List.map_filterMap,
    Option.map_some, Option.getD_some]
  apply List.filterMap_congr
  intro a ha
  obtain ⟨b, hb⟩ := Option.isSome_iff_exists.mp (hf.full a (mem_allChildren_of_container hc ha))
  obtain ⟨ca, hca, hv⟩ := vertexAt_eq_some.mp hb
  simp [idAt, hca, hv, hf.stored ca (List.mem_of_getElem? hca) b hv]

theorem Descends.nodup_childBlocks (hf : Descends lev f) {id : Identifier} {c : VertexContainer}
    (hc : f.container id = some c) : (f.childBlocks c).Nodup := by
  have hids : (f.childIDs id).Nodup := Multiset.coe_nodup.mp (hf.genealogy.once id)
  rw [← hf.coherent.map_id_childBlocks hc] at hids
  exact hids.of_map _

theorem Descends.mem_childIDs (hf : Descends lev f) {id x : Identifier} :
    x ∈ f.childIDs id ↔
      f.lowestLevel ≤ lev id ∧ ∃ b, f.getVertex x = some b ∧ b.prevID = id :=
  hf.genealogy.mem id x

/-- A child of a container is above it, so it has not been pruned before it. -/
theorem Descends.getVertex_child (hf : Descends lev f) {id : Identifier} {c : VertexContainer}
    (hc : f.container id = some c) {b : Block} (hb : b ∈ f.childBlocks c) :
    f.lowestLevel ≤ lev id ∧ f.getVertex b.id = some b ∧ b.prevID = id := by
  have hmem : b.id ∈ f.childIDs id := by
    rw [← hf.coherent.map_id_childBlocks hc]
    exact List.mem_map_of_mem hb
  obtain ⟨hlow, b', hb', hparent⟩ := hf.mem_childIDs.mp hmem
  have habove := (hf.genealogy.stored b.id b' hb').2
  rw [hparent] at habove
  obtain ⟨a, -, hv⟩ := mem_childBlocks.mp hb
  obtain ⟨ca, hca, hcv⟩ := vertexAt_eq_some.mp hv
  have hid := hf.coherent.stored ca (List.mem_of_getElem? hca) b hcv
  obtain ⟨hlevel, hfound⟩ := hf.placed a ca.id ca.level (label_of_heap hca)
  have hlookup : f.vertices.lookup b.id = some a := by
    rw [hid]
    apply hfound
    rw [hlevel, ← hid]
    exact UInt64.le_of_lt (UInt64.lt_of_le_of_lt hlow habove)
  have hget : f.getVertex b.id = some b := by simp [getVertex, hlookup, hv]
  obtain rfl : b = b' := Option.some.inj (hget.symm.trans hb')
  exact ⟨hlow, hget, hparent⟩

theorem Descends.mem_childBlocks (hf : Descends lev f) {id : Identifier} {c : VertexContainer}
    (hc : f.container id = some c) (b : Block) :
    b ∈ f.childBlocks c ↔
      f.lowestLevel ≤ lev id ∧ f.getVertex b.id = some b ∧ b.prevID = id := by
  constructor
  · exact hf.getVertex_child hc
  · rintro ⟨hlow, hget, hparent⟩
    have hmem : b.id ∈ f.childIDs id := hf.mem_childIDs.mpr ⟨hlow, b, hget, hparent⟩
    rw [← hf.coherent.map_id_childBlocks hc] at hmem
    obtain ⟨b', hb', hid⟩ := List.mem_map.mp hmem
    have hget' := (hf.getVertex_child hc hb').2.1
    rw [hid, hget] at hget'
    cases hget'
    exact hb'

theorem getNumberOfChildren_eq {id : Identifier} {c : VertexContainer}
    (hc : f.container id = some c) : f.getNumberOfChildren id = .ok (f.childBlocks c).length := by
  simp [getNumberOfChildren, hc, countFull_eq, childBlocks]

theorem Coherent.container_isSome_iff (hf : f.Coherent) (id : Identifier) :
    (f.container id).isSome ↔ id ∈ f.vertices := by
  rw [← AList.lookup_isSome]
  cases ha : f.vertices.lookup id with
  | none => simp [container, ha]
  | some a =>
    obtain ⟨c, hc, -⟩ := hf.named id a ha
    simp [container, ha, hc]

end LevelledForest

/-- With fuel for its children the loop returns their blocks. -/
theorem getChildrenBlocks_eq {bc : BlockChain} {id : Identifier} {c : VertexContainer}
    (hc : bc.forrest.container id = some c) {fuel : ℕ}
    (hfuel : (bc.forrest.childBlocks c).length < fuel) :
    bc.getChildrenBlocks fuel id = .ok (bc.forrest.childBlocks c) := by
  have hloaded := VertexIterator.loaded_newVertexIterator (bc.forrest.containers c.children)
  obtain ⟨it, hrun, -⟩ := VertexIterator.collect_eq hloaded
    (by rwa [VertexIterator.pending_newVertexIterator])
  rw [VertexIterator.pending_newVertexIterator] at hrun
  simp [BlockChain.getChildrenBlocks, LevelledForest.getChildren, hc, bind, Except.bind, hrun,
    pure, Except.pure, LevelledForest.childBlocks]

/-- Without a container both queries read through a nil pointer. -/
theorem queries_of_container_none {bc : BlockChain} {id : Identifier}
    (hc : bc.forrest.container id = none) (fuel : ℕ) :
    bc.getChildrenBlocks fuel id = .error .nilPointer ∧
      bc.forrest.getNumberOfChildren id = .error .nilPointer := by
  simp [BlockChain.getChildrenBlocks, LevelledForest.getChildren,
    LevelledForest.getNumberOfChildren, hc, bind, Except.bind]

/-- After any calls with blocks that agree about levels the queries give, for an id,
exactly the stored blocks with that parent, each once, if and only if the forest has a
container for the id. -/
theorem children_queries_iff {calls : List LevelledForest.Call} {bc : BlockChain}
    {lev : Identifier → UInt64} (hrun : LevelledForest.new.run calls = .ok bc.forrest)
    (hlev : ∀ b, .addVertex b ∈ calls → b.LevelsAgree lev) (id : Identifier) :
    (∃ blocks, (∃ n, ∀ fuel, n ≤ fuel → bc.getChildrenBlocks fuel id = .ok blocks) ∧
      bc.forrest.getNumberOfChildren id = .ok blocks.length ∧ blocks.Nodup ∧
      ∀ b, b ∈ blocks ↔ bc.forrest.lowestLevel ≤ lev id ∧
        bc.forrest.getVertex b.id = some b ∧ b.prevID = id) ↔
    id ∈ bc.forrest.vertices := by
  have hcalls : ∀ c ∈ calls, c.LevelsAgree lev := by
    intro c hc
    cases c with
    | addVertex b => exact hlev b hc
    | pruneUpToLevel level => trivial
  have hf := (LevelledForest.descends_new lev).run hcalls hrun
  rw [← hf.coherent.container_isSome_iff]
  cases hc : bc.forrest.container id with
  | none => simp [queries_of_container_none hc 0]
  | some c =>
    simp only [Option.isSome_some, iff_true]
    refine ⟨bc.forrest.childBlocks c, ⟨_, fun fuel hfuel => getChildrenBlocks_eq hc hfuel⟩,
      LevelledForest.getNumberOfChildren_eq hc, hf.nodup_childBlocks hc, hf.mem_childBlocks hc⟩

/-- The levels of the ids that `Block.onView` gives. -/
def viewLevel (id : Identifier) : UInt64 := UInt64.ofNat id.toNat

theorem levelsAgree_onView {b : Block}
    (h : b ∈ [Block.onView 3 2, .onView 4 3, .onView 5 3]) : b.LevelsAgree viewLevel := by
  simp only [List.mem_cons, List.not_mem_nil, or_false] at h
  rcases h with rfl | rfl | rfl <;>
    exact ⟨by decide +kernel, by decide +kernel, by decide +kernel, by decide +kernel⟩

/-- A parent that arrives before its two children and is at the lowest level in the end. -/
theorem children_queries_siblings : ∃ f, LevelledForest.new.run
      [.addVertex (.onView 4 3), .addVertex (.onView 3 2), .addVertex (.onView 5 3),
        .pruneUpToLevel 3] = .ok f ∧
    ∃ blocks : List Block, f.getNumberOfChildren 3 = .ok blocks.length ∧ blocks.Nodup ∧
      ∀ b, b ∈ blocks ↔ f.lowestLevel ≤ 3 ∧ f.getVertex b.id = some b ∧ b.prevID = 3 := by
  have hrun : ((LevelledForest.new.run [.addVertex (.onView 4 3), .addVertex (.onView 3 2),
      .addVertex (.onView 5 3), .pruneUpToLevel 3]).map fun f =>
        (f.vertices.lookup 3).isSome) = .ok true := by decide +kernel
  obtain ⟨f, hf, hsome⟩ := exists_of_map_eq_ok hrun
  have hstart : LevelledForest.new.run [.addVertex (.onView 4 3), .addVertex (.onView 3 2),
      .addVertex (.onView 5 3), .pruneUpToLevel 3] =
      .ok ({ BlockChain.new 4 with forrest := f } : BlockChain).forrest := hf
  obtain ⟨blocks, -, hnumber, honce, hmem⟩ := (children_queries_iff hstart
    (fun b hb => levelsAgree_onView (by simp at hb ⊢; tauto)) 3).mpr (AList.lookup_isSome.mp hsome)
  exact ⟨f, hf, blocks, hnumber, honce, hmem⟩

/-- An id that was never named and one that has been pruned: the queries read the
children of a container that is not there. -/
theorem children_unknown_or_pruned :
    (∀ b ∈ [Block.onView 3 2, .onView 4 3], b.LevelsAgree viewLevel) ∧ ∃ f,
    LevelledForest.new.run [.addVertex (.onView 3 2), .addVertex (.onView 4 3),
      .pruneUpToLevel 4] = .ok f ∧
    ∀ bc : BlockChain, bc.forrest = f → ∀ fuel, ∀ id ∈ [(9 : Identifier), 3],
      bc.getChildrenBlocks fuel id = .error .nilPointer ∧
        bc.forrest.getNumberOfChildren id = .error .nilPointer := by
  constructor
  · intro b hb
    apply levelsAgree_onView
    simp at hb ⊢
    tauto
  · have hrun : ((LevelledForest.new.run [.addVertex (.onView 3 2), .addVertex (.onView 4 3),
        .pruneUpToLevel 4]).map fun f => (f.container 9).isSome || (f.container 3).isSome) =
        .ok false := by decide +kernel
    obtain ⟨f, hf, hnone⟩ := exists_of_map_eq_ok hrun
    simp only [Bool.or_eq_false_iff, Option.isSome_eq_false_iff, Option.isNone_iff_eq_none] at hnone
    refine ⟨f, hf, ?_⟩
    rintro bc rfl fuel id hid
    apply queries_of_container_none
    simp only [List.mem_cons, List.not_mem_nil, or_false] at hid
    rcases hid with rfl | rfl
    · exact hnone.1
    · exact hnone.2

end Bamboo
