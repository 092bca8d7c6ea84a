import Bamboo.BlockChain
import Bamboo.ForestRuns
import Bamboo.Library.Folds

/-!
# Arrival order does not matter to the forest

An outline is what can be seen of a forest without pointers: for each id the
level of its container, the block in it and the ids of its children. Storing a
block acts on the outline alone. The actions of blocks that agree about each
other commute and are idempotent, so the outline depends only on which blocks
have arrived.
-/
namespace Bamboo

/-- The level a block claims for its parent. -/
def Block.parentLevel (b : Block) : UInt64 :=
  match b.qc with
  | none => 0
  | some qc => qc.view.toUInt64

@[ext] structure Outline where
  level : Identifier → Option UInt64
  vertex : Identifier → Option Block
  children : Identifier → Multiset Identifier

namespace Outline

/-- The block is new and not below the lowest level. -/
def Fresh (low : UInt64) (o : Outline) (b : Block) : Prop :=
  low ≤ b.level ∧ o.vertex b.id = none

/-- The block's container gets registered with its parent's. -/
def Registers (low : UInt64) (o : Outline) (b : Block) : Prop :=
  low < (o.level b.id).getD b.level ∧ low ≤ b.parentLevel

instance (low : UInt64) (o : Outline) (b : Block) : Decidable (o.Fresh low b) :=
  inferInstanceAs (Decidable (_ ∧ _))

instance (low : UInt64) (o : Outline) (b : Block) : Decidable (o.Registers low b) :=
  inferInstanceAs (Decidable (_ ∧ _))

/-- The levels that storing the block claims: its own and that of its parent. -/
def claim (low : UInt64) (o : Outline) (b : Block) (i : Identifier) :
    Option UInt64 :=
  if i = b.id then some b.level
  else if o.Registers low b ∧ i = b.prevID then some b.parentLevel else none

/-- The first to name an id decides its level. -/
def store (low : UInt64) (o : Outline) (b : Block) : Outline where
  level i := (o.level i).or (o.claim low b i)
  vertex i := if i = b.id then some b else o.vertex i
  children i := if o.Registers low b ∧ i = b.prevID then b.id ::ₘ o.children i else o.children i

theorem store_children (low : UInt64) (o : Outline) (b : Block) (i : Identifier) :
    (o.store low b).children i =
      if o.Registers low b ∧ i = b.prevID then b.id ::ₘ o.children i else o.children i :=
  rfl

/-- What `AddVertex` does to the outline. -/
def add (low : UInt64) (o : Outline) (b : Block) : Outline :=
  if o.Fresh low b then o.store low b else o

/-- The id is given the level unless it has one. -/
def name (o : Outline) (id : Identifier) (l : UInt64) : Outline :=
  { o with level := fun i => (o.level i).or (if i = id then some l else none) }

/-- The block in its container. -/
def put (o : Outline) (b : Block) : Outline :=
  { o.name b.id b.level with vertex := fun i => if i = b.id then some b else o.vertex i }

/-- The block among its parent's children. -/
def register (o : Outline) (b : Block) : Outline :=
  { o.name b.prevID b.parentLevel with
    children := fun i => if i = b.prevID then b.id ::ₘ o.children i else o.children i }

/-- Storing a block as the code does it, one change after the other. -/
theorem store_eq (low : UInt64) (o : Outline) (b : Block) :
    o.store low b = if o.Registers low b then (o.put b).register b else o.put b := by
  by_cases h : o.Registers low b
  · rw [if_pos h]
    refine Outline.ext (funext fun i => ?_) rfl (funext fun i => ?_)
    · simp only [store, register, put, name, Option.or_assoc]
      congr 1
      by_cases hi : i = b.id
      · simp [claim, hi]
      · simp only [claim, h, true_and, if_neg hi, Option.none_or]
    · simp [store, register, put, name, h]
  · rw [if_neg h]
    refine Outline.ext (funext fun i => ?_) rfl (funext fun i => ?_)
    · simp [store, claim, put, name, h]
    · simp [store, put, name, h]

/-- Two blocks that agree about each other and about a common parent. -/
structure Compatible (a b : Block) : Prop where
  id : a.id ≠ b.id
  parent : a.prevID = b.id → a.parentLevel = b.level
  child : b.prevID = a.id → b.parentLevel = a.level
  sibling : a.prevID = b.prevID → a.parentLevel = b.parentLevel

theorem Compatible.symm {a b : Block} (h : Compatible a b) : Compatible b a :=
  ⟨h.id.symm, h.child, h.parent, fun heq => (h.sibling heq.symm).symm⟩

theorem fresh_store {low : UInt64} {o : Outline} {a b : Block} (h : a.id ≠ b.id) :
    (o.store low a).Fresh low b ↔ o.Fresh low b := by
  simp [Fresh, store, Ne.symm h]

/-- A placeholder made for a block by its child has the block's own level. -/
theorem registers_store {low : UInt64} {o : Outline} {a b : Block} (h : Compatible a b) :
    (o.store low a).Registers low b ↔ o.Registers low b := by
  have hlevel : ((o.store low a).level b.id).getD b.level = (o.level b.id).getD b.level := by
    cases hl : o.level b.id with
    | some l => simp [store, hl]
    | none =>
      simp only [store, claim, hl, if_neg h.id.symm, Option.none_or, Option.getD_none]
      split_ifs with hreg
      · exact h.parent hreg.2.symm
      · rfl
  simp only [Registers, hlevel]

theorem claim_store {low : UInt64} {o : Outline} {a b : Block} (h : Compatible a b) :
    (o.store low a).claim low b = o.claim low b := by
  funext i
  simp only [claim, registers_store h]

theorem claims_agree {low : UInt64} {o : Outline} {a b : Block} (h : Compatible a b)
    {i : Identifier} {l m : UInt64} (hl : o.claim low a i = some l)
    (hm : o.claim low b i = some m) : l = m := by
  have hid := h.id
  have hparent := h.parent
  have hchild := h.child
  have hsibling := h.sibling
  unfold claim at hl hm
  split_ifs at hl hm <;> simp_all

/-- Claims that agree may be made in either order. -/
theorem or_right_comm {α : Type} {x y z : Option α} (h : ∀ a b, y = some a → z = some b → a = b) :
    (x.or y).or z = (x.or z).or y := by
  cases x with
  | some a => rfl
  | none =>
    cases y with
    | none => simp
    | some a =>
      cases z with
      | none => simp
      | some b => simp [h a b rfl rfl]

theorem store_comm {low : UInt64} {o : Outline} {a b : Block} (h : Compatible a b) :
    (o.store low a).store low b = (o.store low b).store low a := by
  refine Outline.ext ?_ ?_ ?_ <;> funext i
  · show ((o.level i).or (o.claim low a i)).or ((o.store low a).claim low b i) =
      ((o.level i).or (o.claim low b i)).or ((o.store low b).claim low a i)
    rw [claim_store h, claim_store h.symm]
    exact or_right_comm fun _ _ => claims_agree h
  · by_cases ha : i = a.id
    · subst ha
      simp [store, h.id]
    · simp [store, ha]
  · simp only [store_children, registers_store h, registers_store h.symm]
    split_ifs
    · exact Multiset.cons_swap _ _ _
    all_goals rfl

theorem add_comm {low : UInt64} {o : Outline} {a b : Block} (h : Compatible a b) :
    (o.add low a).add low b = (o.add low b).add low a := by
  by_cases ha : o.Fresh low a <;> by_cases hb : o.Fresh low b <;>
    simp [add, ha, hb, fresh_store h.id, fresh_store h.id.symm, store_comm h]

theorem add_idem (low : UInt64) (o : Outline) (b : Block) :
    (o.add low b).add low b = o.add low b := by
  by_cases hb : o.Fresh low b
  · have hstored : ¬ (o.store low b).Fresh low b := by simp [Fresh, store]
    simp [add, hb, hstored]
  · simp [add, hb]

end Outline

/-! ## The outline of a forest -/

namespace LevelledForest

/-- The container an id names. -/
def container (f : LevelledForest) (id : Identifier) : Option VertexContainer :=
  (f.vertices.lookup id).bind fun a => f.heap[a]?

def levelOf (f : LevelledForest) (id : Identifier) : Option UInt64 :=
  (f.container id).map VertexContainer.level

def idAt (f : LevelledForest) (a : ℕ) : Option Identifier := f.heap[a]?.map VertexContainer.id

/-- The ids of the children of a container, in the order of its list. -/
def childIDs (f : LevelledForest) (id : Identifier) : List Identifier :=
  ((f.container id).map VertexContainer.children).getD [] |>.filterMap f.idAt

def outline (f : LevelledForest) : Outline where
  level := f.levelOf
  vertex := f.getVertex
  children id := f.childIDs id

variable {f : LevelledForest}

theorem container_push (hf : f.Sound) (id : Identifier) (level : UInt64) (i : Identifier) :
    (f.push id level).container i =
      if i = id then some ⟨id, level, [], none⟩ else f.container i := by
  by_cases hi : i = id
  · subst hi
    simp [container, push]
  · simp only [container, push, AList.lookup_insert_ne hi, hi, ↓reduceIte]
    cases ha : f.vertices.lookup i with
    | none => rfl
    | some a =>
      obtain ⟨c, hc, -⟩ := hf.named i a ha
      exact List.getElem?_append_left (List.getElem?_eq_some_iff.mp hc).1

/-- Children are full containers, so they have been there before. -/
theorem Coherent.idAt_push (hf : f.Coherent) (id : Identifier) (level : UInt64) {a : ℕ}
    (ha : a ∈ f.allChildren) : (f.push id level).idAt a = f.idAt a := by
  have hsome := hf.full a ha
  rw [Option.isSome_iff_exists] at hsome
  obtain ⟨b, hb⟩ := hsome
  obtain ⟨c, hc, -⟩ := vertexAt_eq_some.mp hb
  simp only [idAt, LevelledForest.push]
  rw [List.getElem?_append_left (List.getElem?_eq_some_iff.mp hc).1]

theorem mem_allChildren_of_container {id : Identifier} {c : VertexContainer} {a : ℕ}
    (hc : f.container id = some c) (ha : a ∈ c.children) : a ∈ f.allChildren := by
  obtain ⟨i, -, hi⟩ := Option.bind_eq_some_iff.mp hc
  exact List.mem_flatMap.mpr ⟨c, List.mem_of_getElem? hi, ha⟩

theorem childIDs_push (hf : f.Coherent) {id : Identifier} (hnew : f.vertices.lookup id = none)
    (level : UInt64) (i : Identifier) : (f.push id level).childIDs i = f.childIDs i := by
  simp only [childIDs, container_push hf.toSound]
  by_cases hi : i = id
  · subst hi
    simp [container, hnew]
  · simp only [hi, ↓reduceIte]
    cases hc : f.container i with
    | none => rfl
    | some c =>
      refine List.filterMap_congr fun a ha => hf.idAt_push id level ?_
      exact mem_allChildren_of_container hc ha

theorem outline_getOrCreate (hf : f.Coherent) (id : Identifier) (level : UInt64) :
    (f.getOrCreateVertexContainer id level).1.outline = f.outline.name id level := by
  have hvertex := (getOrCreate_sameContent hf.toSound id level).getVertex
  cases h : f.vertices.lookup id with
  | some a =>
    obtain ⟨c, hc, -⟩ := hf.named id a h
    rw [getOrCreate_some h]
    refine Outline.ext (funext fun i => ?_) rfl rfl
    by_cases hi : i = id
    · subst hi
      simp [outline, Outline.name, levelOf, container, h, hc]
    · simp [outline, Outline.name, hi]
  | none =>
    rw [getOrCreate_none h] at hvertex ⊢
    refine Outline.ext (funext fun i => ?_) (funext hvertex) (funext fun i => ?_)
    · simp only [outline, Outline.name, levelOf, container_push hf.toSound]
      by_cases hi : i = id
      · subst hi
        simp [container, h]
      · simp [hi]
    · exact congrArg _ (childIDs_push hf h level i)

theorem container_modify (hf : f.Sound) {p : ℕ} {id : Identifier}
    (hp : f.vertices.lookup id = some p) (g : VertexContainer → VertexContainer)
    (i : Identifier) :
    ({ f with heap := f.heap.modify p g } : LevelledForest).container i =
      if i = id then (f.container i).map g else f.container i := by
  simp only [container, List.getElem?_modify]
  by_cases hi : i = id
  · subst hi
    simp [hp]
  · cases ha : f.vertices.lookup i with
    | none => simp [hi]
    | some a =>
      have hne : p ≠ a := fun heq => hi (hf.address_inj ha (heq ▸ hp))
      simp [hi, hne]

theorem idAt_fill (a : ℕ) (b : Block) : (f.fill a b).idAt = f.idAt := by
  funext i
  simp only [idAt, fill, List.getElem?_modify]
  cases f.heap[i]? with
  | none => rfl
  | some c => by_cases h : a = i <;> simp [h]

theorem idAt_addChild (p a : ℕ) : (f.addChild p a).idAt = f.idAt := by
  funext i
  simp only [idAt, addChild, List.getElem?_modify]
  cases f.heap[i]? with
  | none => rfl
  | some c => by_cases h : p = i <;> simp [h]

theorem outline_fill (hf : f.Sound) {a : ℕ} {b : Block} (ha : f.vertices.lookup b.id = some a) :
    (f.fill a b).outline =
      { f.outline with vertex := fun i => if i = b.id then some b else f.outline.vertex i } := by
  refine Outline.ext (funext fun i => ?_) (funext (fill_spec hf ha).2) (funext fun i => ?_)
  · simp only [outline, levelOf, fill, container_modify hf ha]
    cases f.container i <;> split_ifs <;> rfl
  · simp only [outline, childIDs, idAt_fill]
    simp only [fill, container_modify hf ha]
    cases f.container i <;> split_ifs <;> rfl

theorem outline_addChild (hf : f.Sound) {p a : ℕ} {id child : Identifier} {level : UInt64}
    (hp : f.vertices.lookup id = some p) (ha : f.label a = some (child, level)) :
    (f.addChild p a).outline =
      { f.outline with
        children := fun i =>
          if i = id then child ::ₘ f.outline.children i else f.outline.children i } := by
  obtain ⟨c, hc, -⟩ := hf.named id p hp
  obtain ⟨ca, hca, rfl, -⟩ := label_eq_some.mp ha
  refine Outline.ext (funext fun i => ?_) (funext (addChild_sameContent hf p a).getVertex)
    (funext fun i => ?_)
  · simp only [outline, levelOf, addChild, container_modify hf hp]
    cases f.container i <;> split_ifs <;> rfl
  · simp only [outline, childIDs, idAt_addChild]
    simp only [addChild, container_modify hf hp]
    by_cases hi : i = id
    · subst hi
      have hid : f.idAt a = some ca.id := by simp [idAt, hca]
      simp only [container, hp, hc, Option.bind_some, Option.map_some, Option.getD_some,
        List.filterMap_append, List.filterMap_cons, hid, List.filterMap_nil, ↓reduceIte]
      exact Multiset.coe_eq_coe.mpr (List.perm_append_singleton _ _)
    · simp [hi]

theorem parent_eq {b : Block} {qc : QC} (hqc : b.qc = some qc) :
    b.parent = .ok (b.prevID, b.parentLevel) := by
  simp [Block.parent, Block.parentLevel, hqc]

/-- With a certificate to name the parent, registration returns. -/
theorem registerWithParent_outline (hf : f.Coherent) {a : ℕ} {level : UInt64} {b : Block}
    {qc : QC} (hqc : b.qc = some qc) (ha : f.label a = some (b.id, level)) :
    ∃ f', f.registerWithParent a level b = .ok f' ∧ f'.lowestLevel = f.lowestLevel ∧
      f'.outline = if f.lowestLevel < level ∧ f.lowestLevel ≤ b.parentLevel then
        f.outline.register b else f.outline := by
  by_cases hl : level ≤ f.lowestLevel
  · refine ⟨f, by simp [registerWithParent, hl], rfl, ?_⟩
    rw [if_neg fun h => UInt64.not_lt.mpr hl h.1]
  by_cases hv : b.parentLevel < f.lowestLevel
  · refine ⟨f, ?_, rfl, ?_⟩
    · simp [registerWithParent, hl, parent_eq hqc, bind, Except.bind, hv, pure, Except.pure]
    · rw [if_neg fun h => UInt64.not_lt.mpr h.2 hv]
  · have hg := hf.getOrCreate b.prevID (UInt64.not_lt.mp hv)
    have hp := lookup_getOrCreate f b.prevID b.parentLevel
    have hlabel := (f.getOrCreate_keeps b.prevID b.parentLevel).label a _ ha
    refine ⟨(f.getOrCreateVertexContainer b.prevID b.parentLevel).1.addChild
      (f.getOrCreateVertexContainer b.prevID b.parentLevel).2 a, ?_,
      (getOrCreate_sameContent hf.toSound b.prevID b.parentLevel).lowestLevel, ?_⟩
    · simp [registerWithParent, hl, parent_eq hqc, bind, Except.bind, hv, pure, Except.pure]
    · rw [if_pos ⟨UInt64.not_le.mp hl, UInt64.not_lt.mp hv⟩,
        outline_addChild hg.toSound hp hlabel, outline_getOrCreate hf]
      rfl

/-- A full container is found, not made. -/
theorem getOrCreate_of_full {id : Identifier} (h : (f.getVertex id).isSome) (level : UInt64) :
    (f.getOrCreateVertexContainer id level).1 = f := by
  cases hlookup : f.vertices.lookup id with
  | some a => rw [getOrCreate_some hlookup]
  | none => simp [getVertex, hlookup] at h

/-- A container that is found keeps its level, a new one gets the level asked for. -/
theorem level_getOrCreate (hf : f.Coherent) (id : Identifier) (level : UInt64)
    (c : VertexContainer) (hc : (f.getOrCreateVertexContainer id level).1.container id = some c) :
    c.level = (f.outline.level id).getD level := by
  have hname := congrFun (congrArg Outline.level (outline_getOrCreate hf id level)) id
  simp only [outline, levelOf, hc, Outline.name, Option.map_some, ↓reduceIte] at hname ⊢
  cases hlevel : (f.container id).map VertexContainer.level with
  | none => simpa [hlevel] using hname
  | some l => simpa [hlevel] using hname

/-- `AddVertex` acts on the outline, whatever the pointers are. -/
theorem addVertex_outline (hf : f.Coherent) {b : Block} {qc : QC} (hqc : b.qc = some qc) :
    ∃ f', f.addVertex b = .ok f' ∧ f'.lowestLevel = f.lowestLevel ∧
      f'.outline = f.outline.add f.lowestLevel b := by
  by_cases hl : b.level < f.lowestLevel
  · have hstale : ¬ f.outline.Fresh f.lowestLevel b := fun h => UInt64.not_lt.mpr h.1 hl
    exact ⟨f, by simp [addVertex, hl], rfl, by simp [Outline.add, hstale]⟩
  have hlevel : f.lowestLevel ≤ b.level := UInt64.not_lt.mp hl
  have hg := hf.getOrCreate b.id hlevel
  have ha := lookup_getOrCreate f b.id b.level
  have hout := outline_getOrCreate hf b.id b.level
  have hcontent := getOrCreate_sameContent hf.toSound b.id b.level
  cases hr : f.getOrCreateVertexContainer b.id b.level with
  | mk g a =>
    rw [hr] at hg ha hout hcontent
    obtain ⟨c, hc, hcid⟩ := hg.named b.id a ha
    have hvertex : f.getVertex b.id = c.vertex := by
      rw [← hcontent.getVertex]
      simp [getVertex, vertexAt, ha, hc]
    by_cases hfull : c.vertex.isSome
    · have hold : ¬ f.outline.Fresh f.lowestLevel b := by
        intro h
        rw [← hvertex, show f.getVertex b.id = none from h.2] at hfull
        cases hfull
      have hfg : g = f := by
        have hsame := getOrCreate_of_full (hvertex ▸ hfull) b.level
        rwa [hr] at hsame
      refine ⟨g, by simp [addVertex, hl, hr, hc, hfull], hcontent.lowestLevel, ?_⟩
      rw [hfg]
      simp [Outline.add, hold]
    · have hnone : c.vertex = none := by simpa using hfull
      have hfresh : f.outline.Fresh f.lowestLevel b := ⟨hlevel, hvertex.trans hnone⟩
      have hclevel := level_getOrCreate hf b.id b.level c (by simp [hr, container, ha, hc])
      have hlabel : (g.fill a b).label a = some (b.id, c.level) := by
        rw [label_fill, label_of_heap hc, hcid]
      obtain ⟨f', hf', hlow, hreg⟩ := registerWithParent_outline (hg.fill ha) hqc hlabel
      refine ⟨f', ?_, hlow.trans hcontent.lowestLevel, ?_⟩
      · simp [addVertex, hl, hr, hc, hnone, hf']
      · have hput : (g.fill a b).outline = f.outline.put b := by
          rw [outline_fill hg.toSound ha, hout]
          rfl
        have hglow : (g.fill a b).lowestLevel = f.lowestLevel := hcontent.lowestLevel
        rw [hreg, hput, hglow, hclevel, Outline.add, if_pos hfresh, Outline.store_eq]
        rfl

theorem mem_vertices_iff (hf : f.Coherent) (id : Identifier) :
    id ∈ f.vertices ↔ ∃ l, f.outline.level id = some l := by
  rw [← AList.lookup_isSome, Option.isSome_iff_exists]
  constructor
  · rintro ⟨a, ha⟩
    obtain ⟨c, hc, -⟩ := hf.named id a ha
    exact ⟨c.level, by simp [outline, levelOf, container, ha, hc]⟩
  · rintro ⟨l, hl⟩
    obtain ⟨c, hc, -⟩ := Option.map_eq_some_iff.mp hl
    obtain ⟨a, ha, -⟩ := Option.bind_eq_some_iff.mp hc
    exact ⟨a, ha⟩

end LevelledForest

/-! ## Blocks in any order -/

namespace BlockChain

def addBlocks (bc : BlockChain) : List Block → Except Fault BlockChain
  | [] => .ok bc
  | b :: bs => do (← bc.addBlock b).addBlocks bs

end BlockChain

/-- Distinct ids; whoever names a block of the set as its parent knows its view,
and those with a common parent agree about the parent's view. -/
structure Consistent (bs : List Block) : Prop where
  certified : ∀ b ∈ bs, b.qc.isSome
  ids : ∀ a ∈ bs, ∀ b ∈ bs, a.id = b.id → a = b
  parent : ∀ a ∈ bs, ∀ b ∈ bs, ∀ qc ∈ a.qc, a.prevID = b.id → qc.view = b.view
  sibling : ∀ a ∈ bs, ∀ b ∈ bs, ∀ qc ∈ a.qc, ∀ qc' ∈ b.qc, a.prevID = b.prevID →
    qc.view = qc'.view

theorem Consistent.compatible {bs : List Block} (h : Consistent bs) {a b : Block} (ha : a ∈ bs)
    (hb : b ∈ bs) (hne : a ≠ b) : Outline.Compatible a b := by
  obtain ⟨qa, hqa⟩ := Option.isSome_iff_exists.mp (h.certified a ha)
  obtain ⟨qb, hqb⟩ := Option.isSome_iff_exists.mp (h.certified b hb)
  refine ⟨fun hid => hne (h.ids a ha b hb hid), fun hp => ?_, fun hp => ?_, fun hp => ?_⟩
  · simp only [Block.parentLevel, hqa, h.parent a ha b hb qa hqa hp]
    rfl
  · simp only [Block.parentLevel, hqb, h.parent b hb a ha qb hqb hp]
    rfl
  · simp only [Block.parentLevel, hqa, hqb, h.sibling a ha b hb qa hqa qb hqb hp]

/-- Storing blocks one after the other folds their actions on the outline. -/
theorem addBlocks_outline {bc : BlockChain} (hf : bc.forrest.Coherent) {bs : List Block}
    (hbs : ∀ b ∈ bs, b.qc.isSome) :
    ∃ bc', bc.addBlocks bs = .ok bc' ∧ bc'.forrest.Coherent ∧
      bc'.forrest.outline =
        bs.foldl (Outline.add bc.forrest.lowestLevel) bc.forrest.outline := by
  induction bs generalizing bc with
  | nil => exact ⟨bc, rfl, hf, rfl⟩
  | cons b bs ih =>
    obtain ⟨qc, hqc⟩ := Option.isSome_iff_exists.mp (hbs b List.mem_cons_self)
    obtain ⟨f', hadd, hlow, hout⟩ := LevelledForest.addVertex_outline hf hqc
    have hrest : ∀ c ∈ bs, c.qc.isSome := fun c hc => hbs c (List.mem_cons_of_mem b hc)
    obtain ⟨bc', hbc', hcoh, hout'⟩ := @ih { bc with forrest := f' } (hf.addVertex hadd) hrest
    refine ⟨bc', ?_, hcoh, ?_⟩
    · simpa [BlockChain.addBlocks, BlockChain.addBlock, hadd, bind, Except.bind, pure,
        Except.pure] using hbc'
    · rw [hout', List.foldl_cons, ← hout, hlow]

/-- From any forest that calls have led to, the same consistent blocks in any
order and with any repetitions lead to the same containers, up to the order in
which children are listed. -/
theorem addBlocks_order {calls : List LevelledForest.Call} {bc : BlockChain}
    {xs ys : List Block} (hstart : LevelledForest.new.run calls = .ok bc.forrest)
    (hxs : Consistent xs) (hsame : ∀ b, b ∈ xs ↔ b ∈ ys) :
    ∃ bc₁ bc₂, bc.addBlocks xs = .ok bc₁ ∧ bc.addBlocks ys = .ok bc₂ ∧ ∀ id,
      (id ∈ bc₁.forrest.vertices ↔ id ∈ bc₂.forrest.vertices) ∧
      bc₁.forrest.levelOf id = bc₂.forrest.levelOf id ∧
      bc₁.forrest.getVertex id = bc₂.forrest.getVertex id ∧
      (bc₁.forrest.childIDs id).Perm (bc₂.forrest.childIDs id) := by
  have hf := (LevelledForest.coherent_new.run hstart).1
  obtain ⟨bc₁, h₁, hf₁, hout₁⟩ := addBlocks_outline hf hxs.certified
  obtain ⟨bc₂, h₂, hf₂, hout₂⟩ := addBlocks_outline hf
    (fun b hb => hxs.certified b ((hsame b).mpr hb))
  have hout : bc₁.forrest.outline = bc₂.forrest.outline := by
    rw [hout₁, hout₂]
    refine Folds.foldl_eq_of_mem_iff hsame (fun a ha b hb o => ?_) (fun b _ o => o.add_idem _ b) _
    by_cases heq : a = b
    · rw [heq]
    · exact Outline.add_comm (hxs.compatible ha hb heq)
  refine ⟨bc₁, bc₂, h₁, h₂, fun id => ⟨?_, ?_, ?_, ?_⟩⟩
  · rw [LevelledForest.mem_vertices_iff hf₁, LevelledForest.mem_vertices_iff hf₂, hout]
  · exact congrFun (congrArg Outline.level hout) id
  · exact congrFun (congrArg Outline.vertex hout) id
  · exact Multiset.coe_eq_coe.mp (congrFun (congrArg Outline.children hout) id)

/-- Two siblings and their parent, which is at the lowest level after a pruning. -/
theorem addBlocks_order_siblings : ∃ f, ∃ bc₁ bc₂ : BlockChain,
    LevelledForest.new.run [.addVertex (.onView 2 1), .pruneUpToLevel 2] = .ok f ∧
    f.lowestLevel = 2 ∧
    BlockChain.addBlocks { BlockChain.new 4 with forrest := f }
      [.onView 4 3, .onView 3 2, .onView 5 3] = .ok bc₁ ∧
    BlockChain.addBlocks { BlockChain.new 4 with forrest := f }
      [.onView 3 2, .onView 5 3, .onView 4 3, .onView 5 3] = .ok bc₂ ∧
    (bc₁.forrest.childIDs 3).Perm (bc₂.forrest.childIDs 3) := by
  have hrun : ((LevelledForest.new.run [.addVertex (.onView 2 1), .pruneUpToLevel 2]).map
      LevelledForest.lowestLevel) = .ok 2 := by decide +kernel
  obtain ⟨f, hf, hlow⟩ := exists_of_map_eq_ok hrun
  have hstart : LevelledForest.new.run [.addVertex (.onView 2 1), .pruneUpToLevel 2] =
      .ok ({ BlockChain.new 4 with forrest := f } : BlockChain).forrest := hf
  have hblocks : Consistent [.onView 4 3, .onView 3 2, .onView 5 3] :=
    ⟨by decide, by decide, by decide, by decide⟩
  have hsame : ∀ b, b ∈ [Block.onView 4 3, .onView 3 2, .onView 5 3] ↔
      b ∈ [Block.onView 3 2, .onView 5 3, .onView 4 3, .onView 5 3] := by
    simp only [List.mem_cons, List.not_mem_nil, or_false]
    tauto
  obtain ⟨bc₁, bc₂, h₁, h₂, hall⟩ := addBlocks_order hstart hblocks hsame
  exact ⟨f, bc₁, bc₂, hf, hlow, h₁, h₂, (hall 3).2.2.2⟩

end Bamboo
