import Bamboo.Forest

/-!
# The levelled forest over whole runs

Three structures of the forest speak of the same containers: the id map, the
level lists and the children lists. `Coherent` says how they fit together. It
holds of the empty forest and is kept by insertion and pruning, so it holds
after any sequence of calls that returns.
-/
namespace Bamboo

namespace LevelledForest

/-- The containers listed at a level; a level without an entry has none. -/
def atLevel (f : LevelledForest) (l : UInt64) : List ℕ := (f.verticesAtLevel.lookup l).getD []

/-- The id and the level behind a pointer, which never change. -/
def label (f : LevelledForest) (a : ℕ) : Option (Identifier × UInt64) :=
  f.heap[a]?.map fun c => (c.id, c.level)

/-- All children lists, one after the other. -/
def allChildren (f : LevelledForest) : List ℕ := f.heap.flatMap VertexContainer.children

/-- A container is listed at a level, once, exactly if the id map retains it and
it has that level. Only full containers are anybody's children, and each at
most once. -/
structure Coherent (f : LevelledForest) : Prop extends Sound f where
  listed : ∀ l a, a ∈ f.atLevel l ↔ ∃ id, f.label a = some (id, l) ∧ f.vertices.lookup id = some a
  once : ∀ l, (f.atLevel l).Nodup
  lowest : ∀ l a, a ∈ f.atLevel l → f.lowestLevel ≤ l
  full : ∀ a ∈ f.allChildren, (f.vertexAt a).isSome
  children : f.allChildren.Nodup

theorem coherent_new : new.Coherent where
  toSound := sound_new
  listed l a := by simp [new, atLevel, label]
  once l := by simp [new, atLevel]
  lowest l a h := by simp [new, atLevel] at h
  full a h := by simp [new, allChildren] at h
  children := by simp [new, allChildren]

theorem label_eq_some {f : LevelledForest} {a : ℕ} {id : Identifier} {l : UInt64} :
    f.label a = some (id, l) ↔ ∃ c, f.heap[a]? = some c ∧ c.id = id ∧ c.level = l := by
  simp [label]

theorem label_of_heap {f : LevelledForest} {a : ℕ} {c : VertexContainer}
    (h : f.heap[a]? = some c) : f.label a = some (c.id, c.level) := by
  simp [label, h]

/-- Beyond the end of the arena there is nothing. -/
theorem label_length (f : LevelledForest) : f.label f.heap.length = none := by simp [label]

/-- The container that an id retains is listed at its own level. -/
theorem Coherent.mem_atLevel {f : LevelledForest} (hf : f.Coherent) {id : Identifier} {a : ℕ}
    (h : f.vertices.lookup id = some a) :
    ∃ c, f.heap[a]? = some c ∧ c.id = id ∧ a ∈ f.atLevel c.level := by
  obtain ⟨c, hc, rfl⟩ := hf.named id a h
  exact ⟨c, hc, rfl, (hf.listed _ _).mpr ⟨c.id, label_of_heap hc, h⟩⟩

/-! ## Insertion -/

theorem atLevel_insert (f : LevelledForest) (l l' : UInt64) (as : List ℕ) :
    ((f.verticesAtLevel.insert l as).lookup l').getD [] = if l' = l then as else f.atLevel l' := by
  by_cases h : l' = l
  · subst h
    simp [AList.lookup_insert]
  · simp [AList.lookup_insert_ne h, h, atLevel]

/-- The forest after `getOrCreateVertexContainer` has found no container. -/
def push (f : LevelledForest) (id : Identifier) (level : UInt64) : LevelledForest :=
  { f with
    heap := f.heap ++ [⟨id, level, [], none⟩]
    vertices := f.vertices.insert id f.heap.length
    verticesAtLevel := f.verticesAtLevel.insert level (f.atLevel level ++ [f.heap.length]) }

theorem getOrCreate_some {f : LevelledForest} {id : Identifier} {level : UInt64} {a : ℕ}
    (h : f.vertices.lookup id = some a) : f.getOrCreateVertexContainer id level = (f, a) := by
  simp [getOrCreateVertexContainer, h]

theorem getOrCreate_none {f : LevelledForest} {id : Identifier} {level : UInt64}
    (h : f.vertices.lookup id = none) :
    f.getOrCreateVertexContainer id level = (f.push id level, f.heap.length) := by
  simp [getOrCreateVertexContainer, h, push, atLevel]

@[simp] theorem label_push (f : LevelledForest) (id : Identifier) (level : UInt64) (a : ℕ) :
    (f.push id level).label a = if a = f.heap.length then some (id, level) else f.label a := by
  simp only [label, push]
  rcases Nat.lt_trichotomy a f.heap.length with h | rfl | h
  · simp [List.getElem?_append_left h, Nat.ne_of_lt h]
  · simp
  · simp [List.getElem?_eq_none, Nat.le_of_lt h, Nat.ne_of_gt h, Nat.succ_le_of_lt h]

@[simp] theorem atLevel_push (f : LevelledForest) (id : Identifier) (level l : UInt64) :
    (f.push id level).atLevel l =
      if l = level then f.atLevel level ++ [f.heap.length] else f.atLevel l :=
  atLevel_insert f level l _

theorem vertexAt_push (f : LevelledForest) (id : Identifier) (level : UInt64) (a : ℕ) :
    (f.push id level).vertexAt a = f.vertexAt a := by
  simp only [vertexAt, push]
  rcases Nat.lt_trichotomy a f.heap.length with h | rfl | h
  · simp [List.getElem?_append_left h]
  · simp
  · simp [List.getElem?_eq_none, Nat.le_of_lt h, Nat.succ_le_of_lt h]

theorem allChildren_push (f : LevelledForest) (id : Identifier) (level : UInt64) :
    (f.push id level).allChildren = f.allChildren := by
  simp [allChildren, push]

/-- The new address is not listed anywhere yet. -/
theorem Coherent.length_notMem {f : LevelledForest} (hf : f.Coherent) (l : UInt64) :
    f.heap.length ∉ f.atLevel l := by
  intro hmem
  obtain ⟨id', hlabel, -⟩ := (hf.listed l _).mp hmem
  rw [label_length] at hlabel
  cases hlabel

theorem lookup_push_iff {f : LevelledForest} {id : Identifier} {level : UInt64}
    (hnew : f.vertices.lookup id = none) {a : ℕ} (ha : a ≠ f.heap.length) (id' : Identifier) :
    (f.push id level).vertices.lookup id' = some a ↔ f.vertices.lookup id' = some a := by
  by_cases hid : id' = id
  · subst hid
    simp [push, AList.lookup_insert, hnew, Ne.symm ha]
  · simp [push, AList.lookup_insert_ne hid]

theorem mem_atLevel_push_iff {f : LevelledForest} {id : Identifier} {level : UInt64} {a : ℕ}
    (ha : a ≠ f.heap.length) (l : UInt64) : a ∈ (f.push id level).atLevel l ↔ a ∈ f.atLevel l := by
  by_cases hl : l = level
  · subst hl
    simp [ha]
  · simp [hl]

theorem Coherent.push {f : LevelledForest} (hf : f.Coherent) {id : Identifier} {level : UInt64}
    (hnew : f.vertices.lookup id = none) (hlevel : f.lowestLevel ≤ level) :
    (f.push id level).Coherent := by
  have hsame := getOrCreate_sameContent hf.toSound id level
  rw [getOrCreate_none hnew] at hsame
  refine ⟨hsame.sound, fun l a => ?_, fun l => ?_, fun l a ha => ?_, fun a ha => ?_, ?_⟩
  · by_cases ha : a = f.heap.length
    · subst ha
      have hlookup : (f.push id level).vertices.lookup id = some f.heap.length :=
        AList.lookup_insert _
      by_cases hl : l = level
      · subst hl
        simp [hlookup]
      · have hl' : level ≠ l := fun h => hl h.symm
        simp [hl, hl', hf.length_notMem l]
    · simp only [mem_atLevel_push_iff ha, hf.listed, label_push, ha, ↓reduceIte,
        lookup_push_iff hnew ha]
  · by_cases hl : l = level
    · subst hl
      rw [atLevel_push, if_pos rfl, ← List.concat_eq_append]
      exact (hf.once l).concat (hf.length_notMem l)
    · simp [hl, hf.once l]
  · by_cases hl : l = level
    · subst hl
      exact hlevel
    · simp only [atLevel_push, hl, ↓reduceIte] at ha
      exact hf.lowest l a ha
  · rw [allChildren_push] at ha
    rw [vertexAt_push]
    exact hf.full a ha
  · rw [allChildren_push]
    exact hf.children

theorem Coherent.getOrCreate {f : LevelledForest} (hf : f.Coherent) (id : Identifier)
    {level : UInt64} (hlevel : f.lowestLevel ≤ level) :
    (f.getOrCreateVertexContainer id level).1.Coherent := by
  cases h : f.vertices.lookup id with
  | some a => rwa [getOrCreate_some h]
  | none =>
    rw [getOrCreate_none h]
    exact hf.push h hlevel

/-- What a change of one container's vertex or children leaves alone. -/
theorem label_modify (f : LevelledForest) (a : ℕ) {g : VertexContainer → VertexContainer}
    (hg : ∀ c, (g c).id = c.id ∧ (g c).level = c.level) (i : ℕ) :
    ({ f with heap := f.heap.modify a g } : LevelledForest).label i = f.label i := by
  simp only [label, List.getElem?_modify]
  cases f.heap[i]? with
  | none => rfl
  | some c => by_cases h : a = i <;> simp [h, hg]

@[simp] theorem label_fill (f : LevelledForest) (a : ℕ) (b : Block) (i : ℕ) :
    (f.fill a b).label i = f.label i := by
  apply f.label_modify
  simp

@[simp] theorem label_addChild (f : LevelledForest) (p a i : ℕ) :
    (f.addChild p a).label i = f.label i := by
  apply f.label_modify
  simp

theorem flatMap_children_modify (heap : List VertexContainer) (a : ℕ)
    {g : VertexContainer → VertexContainer} (hg : ∀ c, (g c).children = c.children) :
    (heap.modify a g).flatMap VertexContainer.children =
      heap.flatMap VertexContainer.children := by
  induction heap generalizing a with
  | nil => simp
  | cons c heap ih => cases a <;> simp [hg, ih]

theorem flatMap_children_append (heap : List VertexContainer) {p : ℕ} (a : ℕ)
    (hp : p < heap.length) :
    ((heap.modify p fun c => { c with children := c.children ++ [a] }).flatMap
      VertexContainer.children).Perm (a :: heap.flatMap VertexContainer.children) := by
  induction heap generalizing p with
  | nil => simp at hp
  | cons c heap ih =>
    cases p with
    | zero => simp
    | succ p =>
      simp only [List.modify_succ_cons, List.flatMap_cons]
      have hrest := ih (p := p) (by simpa using hp)
      exact (hrest.append_left c.children).trans List.perm_middle

theorem allChildren_fill (f : LevelledForest) (a : ℕ) (b : Block) :
    (f.fill a b).allChildren = f.allChildren :=
  flatMap_children_modify f.heap a fun _ => rfl

theorem vertexAt_fill {f : LevelledForest} {a : ℕ} {c : VertexContainer}
    (h : f.heap[a]? = some c) (b : Block) (i : ℕ) :
    (f.fill a b).vertexAt i = if i = a then some b else f.vertexAt i := by
  simp only [vertexAt, fill, List.getElem?_modify]
  by_cases hi : i = a
  · subst hi
    simp [h]
  · simp [hi, Ne.symm hi]

theorem vertexAt_addChild (f : LevelledForest) (p a i : ℕ) :
    (f.addChild p a).vertexAt i = f.vertexAt i := by
  simp only [vertexAt, addChild, List.getElem?_modify]
  cases f.heap[i]? with
  | none => rfl
  | some c => by_cases h : p = i <;> simp [h]

theorem Coherent.fill {f : LevelledForest} (hf : f.Coherent) {a : ℕ} {b : Block}
    (ha : f.vertices.lookup b.id = some a) : (f.fill a b).Coherent := by
  obtain ⟨c, hc, -⟩ := hf.named b.id a ha
  refine ⟨(fill_spec hf.toSound ha).1, fun l i => ?_, hf.once, hf.lowest, fun i hi => ?_, ?_⟩
  · simp only [label_fill]
    exact hf.listed l i
  · rw [allChildren_fill] at hi
    rw [vertexAt_fill hc]
    split_ifs
    · rfl
    · exact hf.full i hi
  · rw [allChildren_fill]
    exact hf.children

/-- A full container that is nobody's child may become one. -/
theorem Coherent.addChild {f : LevelledForest} (hf : f.Coherent) {p a : ℕ}
    (hp : p < f.heap.length) (hfull : (f.vertexAt a).isSome) (hnew : a ∉ f.allChildren) :
    (f.addChild p a).Coherent := by
  have hperm : (f.addChild p a).allChildren.Perm (a :: f.allChildren) :=
    flatMap_children_append f.heap a hp
  refine ⟨(addChild_sameContent hf.toSound p a).sound, fun l i => ?_, hf.once, hf.lowest,
    fun i hi => ?_, ?_⟩
  · simp only [label_addChild]
    exact hf.listed l i
  · rw [vertexAt_addChild]
    rcases List.mem_cons.mp (hperm.mem_iff.mp hi) with rfl | hi
    · exact hfull
    · exact hf.full i hi
  · exact hperm.nodup_iff.mpr (List.nodup_cons.mpr ⟨hnew, hf.children⟩)

/-- `registerWithParent` in a forest with the container already filled: either
nothing is registered, or the container becomes a child of its parent's. -/
theorem registerWithParent_ok {f f' : LevelledForest} {a : ℕ} {level : UInt64} {b : Block}
    (h : f.registerWithParent a level b = .ok f') :
    f' = f ∨ ∃ id view, b.parent = .ok (id, view) ∧ f.lowestLevel ≤ view ∧
      f' = (f.getOrCreateVertexContainer id view).1.addChild
        (f.getOrCreateVertexContainer id view).2 a := by
  unfold registerWithParent at h
  split_ifs at h with hl
  · cases h
    exact Or.inl rfl
  · cases hp : b.parent with
    | error e => rw [hp] at h; cases h
    | ok parent =>
      obtain ⟨id, view⟩ := parent
      simp only [hp, bind, Except.bind] at h
      split_ifs at h with hv
      · cases h
        exact Or.inl rfl
      · cases h
        exact Or.inr ⟨id, view, rfl, UInt64.not_lt.mp hv, rfl⟩

theorem vertexAt_getOrCreate (f : LevelledForest) (id : Identifier) (level : UInt64) (a : ℕ) :
    (f.getOrCreateVertexContainer id level).1.vertexAt a = f.vertexAt a := by
  cases h : f.vertices.lookup id with
  | some a' => rw [getOrCreate_some h]
  | none => rw [getOrCreate_none h, vertexAt_push]

theorem allChildren_getOrCreate (f : LevelledForest) (id : Identifier) (level : UInt64) :
    (f.getOrCreateVertexContainer id level).1.allChildren = f.allChildren := by
  cases h : f.vertices.lookup id with
  | some a' => rw [getOrCreate_some h]
  | none => rw [getOrCreate_none h, allChildren_push]

theorem Coherent.registerWithParent {f f' : LevelledForest} (hf : f.Coherent) {a : ℕ}
    {level : UInt64} {b : Block} (hfull : (f.vertexAt a).isSome) (hnew : a ∉ f.allChildren)
    (h : f.registerWithParent a level b = .ok f') : f'.Coherent := by
  rcases registerWithParent_ok h with rfl | ⟨id, view, -, hview, rfl⟩
  · exact hf
  · have hg := hf.getOrCreate id hview
    obtain ⟨c, hc, -⟩ := hg.named id _ (lookup_getOrCreate f id view)
    apply hg.addChild (List.getElem?_eq_some_iff.mp hc).1
    · rwa [vertexAt_getOrCreate]
    · rwa [allChildren_getOrCreate]

/-- The container of a block that is stored, if any, and whether it is filled by
this call. -/
theorem addVertex_ok {f f' : LevelledForest} (hf : f.Coherent) {b : Block}
    (h : f.addVertex b = .ok f') :
    f' = f ∨ ∃ g a c, f.getOrCreateVertexContainer b.id b.level = (g, a) ∧ g.Coherent ∧
      f.lowestLevel ≤ b.level ∧ g.vertices.lookup b.id = some a ∧ g.heap[a]? = some c ∧
      c.vertex = none ∧ (g.fill a b).registerWithParent a c.level b = .ok f' := by
  unfold addVertex at h
  split_ifs at h with hl
  · cases h
    exact Or.inl rfl
  · have hlevel : f.lowestLevel ≤ b.level := UInt64.not_lt.mp hl
    have hg := hf.getOrCreate b.id hlevel
    have ha := lookup_getOrCreate f b.id b.level
    cases hr : f.getOrCreateVertexContainer b.id b.level with
    | mk g a =>
      rw [hr] at h hg ha
      obtain ⟨c, hc, -⟩ := hg.named b.id a ha
      simp only [hc] at h
      split_ifs at h with hv
      · cases h
        -- a container that was full has been found, not made
        refine Or.inl ?_
        cases hold : f.vertices.lookup b.id with
        | some a' =>
          rw [getOrCreate_some hold] at hr
          cases hr
          rfl
        | none =>
          rw [getOrCreate_none hold] at hr
          cases hr
          simp only [push, List.getElem?_concat_length] at hc
          cases hc
          cases hv
      · exact Or.inr ⟨g, a, c, rfl, hg, hlevel, ha, hc, by simpa using hv, h⟩

theorem Coherent.addVertex {f f' : LevelledForest} (hf : f.Coherent) {b : Block}
    (h : f.addVertex b = .ok f') : f'.Coherent := by
  rcases addVertex_ok hf h with rfl | ⟨g, a, c, -, hg, -, ha, hc, hempty, hreg⟩
  · exact hf
  · have hnone : g.vertexAt a = none := by simp [vertexAt, hc, hempty]
    refine (hg.fill ha).registerWithParent ?_ ?_ hreg
    · simp [vertexAt_fill hc]
    · -- only full containers are children, and this one was empty
      rw [allChildren_fill]
      intro hchild
      have hsome := hg.full a hchild
      rw [hnone] at hsome
      cases hsome

/-! ## Pruning -/

/-- The blocks a pruned level contributes to the forked ones. -/
def forkedAt (f : LevelledForest) (committed : List UInt64) (l : UInt64) : List Block :=
  if l ∉ committed ∧ 1 < l then (f.atLevel l).filterMap f.vertexAt else []

/-- The containers `as` of a level have been dealt with, and nothing else. -/
structure Dropped (p : Pruning) (committed : List UInt64) (l : UInt64) (as : List ℕ)
    (p' : Pruning) : Prop where
  heap : p'.forest.heap = p.forest.heap
  lowestLevel : p'.forest.lowestLevel = p.forest.lowestLevel
  levels : p'.forest.verticesAtLevel = p.forest.verticesAtLevel
  vertices : ∀ id a, p'.forest.vertices.lookup id = some a ↔
    p.forest.vertices.lookup id = some a ∧
      ∀ x ∈ as, ∀ c, p.forest.heap[x]? = some c → c.id ≠ id
  forked : p'.forked = p.forked ++
    if l ∉ committed ∧ 1 < l then as.filterMap p.forest.vertexAt else []

theorem lookup_erase_eq_some {K V : Type} [DecidableEq K] {m : Map K V} {k k' : K} {v : V} :
    (m.erase k).lookup k' = some v ↔ m.lookup k' = some v ∧ k ≠ k' := by
  by_cases heq : k' = k
  · subst heq
    simp [AList.lookup_erase]
  · simp [AList.lookup_erase_ne heq, Ne.symm heq]

theorem pruneContainer_dropped (committed : List UInt64) (l : UInt64) (p : Pruning) (a : ℕ) :
    Dropped p committed l [a] (pruneContainer committed l p a) := by
  have hforked : (pruneContainer committed l p a).forked = p.forked ++
      if l ∉ committed ∧ 1 < l then [a].filterMap p.forest.vertexAt else [] := by
    simp only [pruneContainer]
    cases hv : p.forest.vertexAt a with
    | none => simp [hv]
    | some b => split_ifs <;> simp [hv]
  cases hc : p.forest.heap[a]? with
  | none =>
    refine ⟨?_, ?_, ?_, ?_, hforked⟩ <;> simp [pruneContainer, hc]
  | some c =>
    refine ⟨?_, ?_, ?_, ?_, hforked⟩ <;> simp [pruneContainer, hc, lookup_erase_eq_some]

theorem foldl_dropped (committed : List UInt64) (l : UInt64) (p : Pruning) (as : List ℕ) :
    Dropped p committed l as (as.foldl (pruneContainer committed l) p) := by
  induction as generalizing p with
  | nil => exact ⟨rfl, rfl, rfl, by simp, by simp⟩
  | cons a as ih =>
    have h₁ := pruneContainer_dropped committed l p a
    have h₂ := ih (pruneContainer committed l p a)
    have hvertexAt : (pruneContainer committed l p a).forest.vertexAt = p.forest.vertexAt := by
      funext i
      rw [vertexAt, vertexAt, h₁.heap]
    refine ⟨h₂.heap.trans h₁.heap, h₂.lowestLevel.trans h₁.lowestLevel,
      h₂.levels.trans h₁.levels, fun id i => ?_, ?_⟩
    · rw [List.foldl_cons, h₂.vertices, h₁.vertices, h₁.heap]
      simp [and_assoc]
    · rw [List.foldl_cons, h₂.forked, h₁.forked, hvertexAt, List.append_assoc]
      split_ifs
      · rw [← List.filterMap_append, List.singleton_append]
      · simp

/-- What the loop has done when the levels `ls` are behind it. -/
structure Pruned (f : LevelledForest) (committed ls : List UInt64) (p : Pruning) : Prop where
  heap : p.forest.heap = f.heap
  lowestLevel : p.forest.lowestLevel = f.lowestLevel
  vertices : ∀ id a, p.forest.vertices.lookup id = some a ↔
    f.vertices.lookup id = some a ∧ ∀ l ∈ ls, a ∉ f.atLevel l
  atLevel : ∀ l, p.forest.atLevel l = if l ∈ ls then [] else f.atLevel l
  forked : p.forked = ls.flatMap (f.forkedAt committed)

theorem Pruned.level {f : LevelledForest} (hf : f.Coherent) {committed ls : List UInt64}
    {p : Pruning} (h : Pruned f committed ls p) {l : UInt64} (hl : l ∉ ls) :
    Pruned f committed (ls ++ [l]) (pruneLevel committed p l) := by
  have hat : (p.forest.verticesAtLevel.lookup l).getD [] = f.atLevel l := by
    have hpl := h.atLevel l
    rwa [if_neg hl] at hpl
  have hvertexAt : p.forest.vertexAt = f.vertexAt := by
    funext i
    rw [vertexAt, vertexAt, h.heap]
  unfold pruneLevel
  rw [hat]
  have hd := foldl_dropped committed l p (f.atLevel l)
  generalize (f.atLevel l).foldl (pruneContainer committed l) p = q at hd
  refine ⟨hd.heap.trans h.heap, hd.lowestLevel.trans h.lowestLevel, fun id a => ?_,
    fun l' => ?_, ?_⟩
  · simp only [hd.vertices, h.vertices, h.heap, List.mem_append, List.mem_singleton, or_imp,
      forall_and, forall_eq, and_assoc]
    refine and_congr_right fun ha => and_congr_right fun _ => ⟨fun hx hmem => ?_, ?_⟩
    · obtain ⟨c, hc, hcid⟩ := hf.named id a ha
      exact hx a hmem c hc hcid
    · -- the container of an id is the only one of that id
      rintro hmem x hx c hc rfl
      obtain ⟨id', hlabel, hlookup⟩ := (hf.listed l x).mp hx
      rw [label_of_heap hc] at hlabel
      cases hlabel
      rw [ha] at hlookup
      cases hlookup
      exact hmem hx
  · have hpl := h.atLevel l'
    simp only [LevelledForest.atLevel, hd.levels] at hpl ⊢
    by_cases heq : l' = l
    · subst heq
      simp [AList.lookup_erase]
    · simp [AList.lookup_erase_ne heq, hpl, heq]
  · simp [hd.forked, h.forked, hvertexAt, forkedAt]

theorem foldl_pruned {f : LevelledForest} (hf : f.Coherent) (committed : List UInt64)
    {ls : List UInt64} (hls : ls.Nodup) :
    Pruned f committed ls (ls.foldl (pruneLevel committed) ⟨f, [], 0⟩) := by
  induction ls using List.reverseRecOn with
  | nil => exact ⟨rfl, rfl, by simp, by simp, by simp⟩
  | append_singleton ls l ih =>
    have hnodup : (l :: ls).Nodup := (List.perm_append_singleton l ls).nodup_iff.mp hls
    rw [List.foldl_append]
    exact (ih (List.nodup_cons.mp hnodup).2).level hf (List.nodup_cons.mp hnodup).1

/-- The levels that pruning up to `level` goes through. -/
def levelsBelow (f : LevelledForest) (level : UInt64) : List UInt64 :=
  (List.range' f.lowestLevel.toNat (level.toNat - f.lowestLevel.toNat)).map UInt64.ofNat

theorem mem_levelsBelow {f : LevelledForest} {level l : UInt64} :
    l ∈ f.levelsBelow level ↔ f.lowestLevel ≤ l ∧ l < level := by
  simp only [levelsBelow, List.mem_map, List.mem_range'_1, UInt64.le_iff_toNat_le,
    UInt64.lt_iff_toNat_lt]
  constructor
  · rintro ⟨i, hi, rfl⟩
    have hlt : i < 2 ^ 64 := by have := level.toNat_lt; omega
    rw [UInt64.toNat_ofNat_of_lt' hlt]
    omega
  · intro hl
    exact ⟨l.toNat, by omega, UInt64.ofNat_toNat⟩

theorem nodup_levelsBelow (f : LevelledForest) (level : UInt64) :
    (f.levelsBelow level).Nodup := by
  refine List.Nodup.map_on (fun i hi j hj heq => ?_) List.nodup_range'
  have hofNat : ∀ k < level.toNat, (UInt64.ofNat k).toNat = k :=
    fun k hk => UInt64.toNat_ofNat_of_lt' (hk.trans level.toNat_lt)
  rw [List.mem_range'_1] at hi hj
  have htoNat := congrArg UInt64.toNat heq
  rwa [hofNat i (by omega), hofNat j (by omega)] at htoNat

/-- A call that returns has refused to go back, or has dropped the levels below. -/
theorem pruneUpToLevel_ok {f f' : LevelledForest} (hf : f.Coherent) {level : UInt64}
    {r : Except Err (List Block × ℕ)} (h : f.pruneUpToLevel level = .ok (r, f')) :
    (level < f.lowestLevel ∧ r = .error (.lowerLevel level f.lowestLevel) ∧ f' = f) ∨
      (f.lowestLevel ≤ level ∧ ∃ committed p,
        f.committedLevels (f.verticesAtLevel.entries.length + 1) level = .ok committed ∧
        Pruned f committed (f.levelsBelow level) p ∧ r = .ok (p.forked, p.prunedNo) ∧
        f' = { p.forest with lowestLevel := level }) := by
  unfold pruneUpToLevel at h
  split_ifs at h with hl
  · cases h
    exact Or.inl ⟨hl, rfl, rfl⟩
  · cases hc : f.committedLevels (f.verticesAtLevel.entries.length + 1) level with
    | error e => rw [hc] at h; cases h
    | ok committed =>
      rw [hc] at h
      cases h
      exact Or.inr ⟨UInt64.not_lt.mp hl, committed, _, rfl,
        foldl_pruned hf committed (f.nodup_levelsBelow level), rfl, rfl⟩

/-- What is left after pruning is what was there from the new lowest level on. -/
theorem Pruned.retained {f : LevelledForest} (hf : f.Coherent) {committed : List UInt64}
    {p : Pruning} {level : UInt64} (h : Pruned f committed (f.levelsBelow level) p) :
    (∀ id a, p.forest.vertices.lookup id = some a ↔ f.vertices.lookup id = some a ∧
      ∃ l, a ∈ f.atLevel l ∧ level ≤ l) ∧
    ∀ l, p.forest.atLevel l = if level ≤ l then f.atLevel l else [] := by
  constructor
  · intro id a
    rw [h.vertices]
    refine and_congr_right fun ha => ?_
    obtain ⟨c, hc, -, hmem⟩ := hf.mem_atLevel ha
    constructor
    · intro hls
      refine ⟨c.level, hmem, UInt64.not_lt.mp fun hlt => ?_⟩
      exact hls _ (mem_levelsBelow.mpr ⟨hf.lowest _ _ hmem, hlt⟩) hmem
    · rintro ⟨l, hl, hle⟩ l' hl' hmem'
      have hlt := (mem_levelsBelow.mp hl').2
      obtain ⟨_, h₁, -⟩ := (hf.listed l a).mp hl
      obtain ⟨_, h₂, -⟩ := (hf.listed l' a).mp hmem'
      rw [h₁] at h₂
      cases h₂
      exact UInt64.not_lt.mpr hle hlt
  · intro l
    rw [h.atLevel]
    by_cases hle : level ≤ l
    · rw [if_pos hle, if_neg]
      exact fun hmem => UInt64.not_lt.mpr hle (mem_levelsBelow.mp hmem).2
    · rw [if_neg hle]
      split_ifs with hmem
      · rfl
      · refine List.eq_nil_iff_forall_not_mem.mpr fun a ha => hmem ?_
        exact mem_levelsBelow.mpr ⟨hf.lowest l a ha, UInt64.not_le.mp hle⟩

theorem Coherent.pruneUpToLevel {f f' : LevelledForest} (hf : f.Coherent) {level : UInt64}
    {r : Except Err (List Block × ℕ)} (h : f.pruneUpToLevel level = .ok (r, f')) :
    f'.Coherent := by
  have hsound := (pruneUpToLevel_forgets h).sound hf.toSound
  rcases pruneUpToLevel_ok hf h with ⟨-, -, rfl⟩ | ⟨-, committed, p, -, hp, -, rfl⟩
  · exact hf
  · obtain ⟨hvertices, hlevels⟩ := hp.retained hf
    have hlabel : p.forest.label = f.label := by
      funext a
      rw [label, label, hp.heap]
    have hat : ∀ l, ({ p.forest with lowestLevel := level } : LevelledForest).atLevel l =
        if level ≤ l then f.atLevel l else [] := hlevels
    refine ⟨hsound, fun l a => ?_, fun l => ?_, fun l a ha => ?_, fun a ha => ?_, ?_⟩
    · show a ∈ p.forest.atLevel l ↔
        ∃ id, p.forest.label a = some (id, l) ∧ p.forest.vertices.lookup id = some a
      rw [hlabel]
      simp only [hlevels, hvertices]
      constructor
      · intro ha
        split_ifs at ha with hle
        · obtain ⟨id, hid, hlookup⟩ := (hf.listed l a).mp ha
          exact ⟨id, hid, hlookup, l, ha, hle⟩
        · cases ha
      · rintro ⟨id, hid, hlookup, l', hl', hle⟩
        obtain ⟨_, h', -⟩ := (hf.listed l' a).mp hl'
        rw [hid] at h'
        cases h'
        rwa [if_pos hle]
    · rw [hat]
      split_ifs
      · exact hf.once l
      · exact List.nodup_nil
    · rw [hat] at ha
      split_ifs at ha with hle
      · exact hle
      · cases ha
    · have ha' : a ∈ f.allChildren := by rwa [allChildren, ← hp.heap]
      have hfull := hf.full a ha'
      rwa [vertexAt, ← hp.heap] at hfull
    · have hnodup := hf.children
      rwa [allChildren, ← hp.heap] at hnodup

/-! ## Runs -/

inductive Call
  | addVertex (b : Block)
  | pruneUpToLevel (level : UInt64)
  deriving DecidableEq, Repr

def call (f : LevelledForest) : Call → Except Fault LevelledForest
  | .addVertex b => f.addVertex b
  | .pruneUpToLevel level => do return (← f.pruneUpToLevel level).2

/-- The calls one after the other, as long as they return. -/
def run (f : LevelledForest) : List Call → Except Fault LevelledForest
  | [] => .ok f
  | c :: calls => do (← f.call c).run calls

/-- No container changes its id or level, or loses or changes its vertex. -/
structure Keeps (f f' : LevelledForest) : Prop where
  label : ∀ a x, f.label a = some x → f'.label a = some x
  vertex : ∀ a b, f.vertexAt a = some b → f'.vertexAt a = some b

theorem Keeps.refl (f : LevelledForest) : Keeps f f := ⟨fun _ _ h => h, fun _ _ h => h⟩

theorem Keeps.trans {f g h : LevelledForest} (hfg : Keeps f g) (hgh : Keeps g h) : Keeps f h :=
  ⟨fun a x hx => hgh.label a x (hfg.label a x hx),
    fun a b hb => hgh.vertex a b (hfg.vertex a b hb)⟩

theorem Forgets.keeps {f f' : LevelledForest} (h : Forgets f f') : Keeps f f' := by
  refine ⟨fun a x hx => ?_, fun a b hb => ?_⟩
  · rwa [LevelledForest.label, h.heap]
  · rwa [vertexAt, h.heap]

theorem getOrCreate_keeps (f : LevelledForest) (id : Identifier) (level : UInt64) :
    Keeps f (f.getOrCreateVertexContainer id level).1 := by
  refine ⟨fun a x hx => ?_, fun a b hb => by rwa [vertexAt_getOrCreate]⟩
  cases h : f.vertices.lookup id with
  | some a' => rwa [getOrCreate_some h]
  | none =>
    rw [getOrCreate_none h, label_push, if_neg]
    · exact hx
    · rintro rfl
      rw [label_length] at hx
      cases hx

theorem registerWithParent_keeps {f f' : LevelledForest} {a : ℕ} {level : UInt64} {b : Block}
    (h : f.registerWithParent a level b = .ok f') : Keeps f f' := by
  rcases registerWithParent_ok h with rfl | ⟨id, view, -, -, rfl⟩
  · exact Keeps.refl f'
  · refine (f.getOrCreate_keeps id view).trans ⟨fun i x hx => ?_, fun i v hv => ?_⟩
    · rwa [label_addChild]
    · rwa [vertexAt_addChild]

theorem addVertex_keeps {f f' : LevelledForest} (hf : f.Coherent) {b : Block}
    (h : f.addVertex b = .ok f') : Keeps f f' := by
  rcases addVertex_ok hf h with rfl | ⟨g, a, c, hr, -, -, -, hc, hempty, hreg⟩
  · exact Keeps.refl f'
  · have hg := f.getOrCreate_keeps b.id b.level
    rw [hr] at hg
    refine (hg.trans ⟨fun i x hx => ?_, fun i v hv => ?_⟩).trans (registerWithParent_keeps hreg)
    · rwa [label_fill]
    · rw [vertexAt_fill hc, if_neg]
      · exact hv
      · rintro rfl
        simp [vertexAt, hc, hempty] at hv

theorem Coherent.call {f f' : LevelledForest} (hf : f.Coherent) {c : Call}
    (h : f.call c = .ok f') : f'.Coherent ∧ Keeps f f' := by
  cases c with
  | addVertex b => exact ⟨hf.addVertex h, addVertex_keeps hf h⟩
  | pruneUpToLevel level =>
    simp only [LevelledForest.call, bind, Except.bind] at h
    cases hp : f.pruneUpToLevel level with
    | error e => rw [hp] at h; cases h
    | ok r =>
      rw [hp] at h
      cases h
      exact ⟨hf.pruneUpToLevel hp, (pruneUpToLevel_forgets hp).keeps⟩

theorem run_cons {f f' : LevelledForest} {c : Call} {calls : List Call}
    (h : f.run (c :: calls) = .ok f') : ∃ g, f.call c = .ok g ∧ g.run calls = .ok f' := by
  simp only [run, bind, Except.bind] at h
  cases hc : f.call c with
  | error e => rw [hc] at h; cases h
  | ok g =>
    rw [hc] at h
    exact ⟨g, rfl, h⟩

theorem Coherent.run {f f' : LevelledForest} (hf : f.Coherent) {calls : List Call}
    (h : f.run calls = .ok f') : f'.Coherent ∧ Keeps f f' := by
  induction calls generalizing f with
  | nil =>
    obtain rfl : f = f' := Except.ok.inj h
    exact ⟨hf, Keeps.refl f⟩
  | cons c calls ih =>
    obtain ⟨g, hc, hrest⟩ := run_cons h
    have hg := hf.call hc
    have hrun := ih hg.1 hrest
    exact ⟨hrun.1, hg.2.trans hrun.2⟩

theorem run_append {f f' : LevelledForest} {calls calls' : List Call}
    (h : f.run (calls ++ calls') = .ok f') :
    ∃ g, f.run calls = .ok g ∧ g.run calls' = .ok f' := by
  induction calls generalizing f with
  | nil => exact ⟨f, rfl, h⟩
  | cons c calls ih =>
    obtain ⟨g, hc, hrest⟩ := run_cons h
    obtain ⟨k, hk, hrest'⟩ := ih hrest
    refine ⟨k, ?_, hrest'⟩
    simpa only [run, hc, bind, Except.bind] using hk

/-- After any calls that return: the level lists and the id map agree, level
lists have no repetitions, what is retained is at the lowest level or above and
holds a block of its own id only, no container has lost or changed its vertex
since any earlier call, and no container is twice a child. -/
theorem forest_representation {calls : List Call} {f : LevelledForest}
    (h : new.run calls = .ok f) :
    (∀ l a c, f.heap[a]? = some c →
      (a ∈ f.atLevel l ↔ f.vertices.lookup c.id = some a ∧ c.level = l)) ∧
    (∀ l, (f.atLevel l).Nodup ∧ ∀ a ∈ f.atLevel l, a < f.heap.length) ∧
    (∀ id a, f.vertices.lookup id = some a → ∃ c, f.heap[a]? = some c ∧ c.id = id ∧
      f.lowestLevel ≤ c.level ∧ ∀ b, c.vertex = some b → b.id = id) ∧
    (∀ past recent, calls = past ++ recent → ∃ g, new.run past = .ok g ∧ Keeps g f) ∧
    f.allChildren.Nodup := by
  have hf := (coherent_new.run h).1
  refine ⟨fun l a c hc => ?_, fun l => ⟨hf.once l, fun a ha => ?_⟩, fun id a ha => ?_,
    fun past recent heq => ?_, hf.children⟩
  · rw [hf.listed, label_of_heap hc]
    constructor
    · rintro ⟨id, hid, hlookup⟩
      cases hid
      exact ⟨hlookup, rfl⟩
    · rintro ⟨hlookup, rfl⟩
      exact ⟨c.id, rfl, hlookup⟩
  · obtain ⟨id, hid, -⟩ := (hf.listed l a).mp ha
    obtain ⟨c, hc, -⟩ := label_eq_some.mp hid
    exact (List.getElem?_eq_some_iff.mp hc).1
  · obtain ⟨c, hc, rfl, hmem⟩ := hf.mem_atLevel ha
    exact ⟨c, hc, rfl, hf.lowest _ _ hmem, hf.stored c (List.mem_of_getElem? hc)⟩
  · subst heq
    obtain ⟨g, hg, hrest⟩ := run_append h
    exact ⟨g, hg, ((coherent_new.run hg).1.run hrest).2⟩

end LevelledForest

/-- What has been evaluated of a result is so of the value returned. -/
theorem exists_of_map_eq_ok {α β : Type} {e : Except Fault α} {g : α → β} {b : β}
    (h : e.map g = .ok b) : ∃ a, e = .ok a ∧ g a = b := by
  cases e with
  | error f => cases h
  | ok a => exact ⟨a, rfl, Except.ok.inj h⟩

/-- A block of view `view` on the block of view `parent`, named by their views. -/
def Block.onView (view parent : View) : Block :=
  ⟨view, some { QC.initial with view := parent, blockID := BitVec.ofInt 256 parent.toInt }, "1", [],
    BitVec.ofInt 256 parent.toInt, [], BitVec.ofInt 256 view.toInt, false, 0, 0⟩

/-- A child before its parent, a fork, a pruning and a late arrival. -/
theorem forest_representation_fork : ∃ f,
    LevelledForest.new.run [.addVertex (.onView 3 2), .addVertex (.onView 2 1),
      .addVertex (.onView 4 2), .pruneUpToLevel 3, .addVertex (.onView 2 1),
      .addVertex (.onView 5 3)] = .ok f ∧ f.heap.length = 5 ∧ f.allChildren.Nodup := by
  have hrun : ((LevelledForest.new.run [.addVertex (.onView 3 2), .addVertex (.onView 2 1),
      .addVertex (.onView 4 2), .pruneUpToLevel 3, .addVertex (.onView 2 1),
      .addVertex (.onView 5 3)]).map fun f => f.heap.length) = .ok 5 := by decide +kernel
  obtain ⟨f, hf, hlen⟩ := exists_of_map_eq_ok hrun
  exact ⟨f, hf, hlen, (LevelledForest.forest_representation hf).2.2.2.2⟩

end Bamboo
