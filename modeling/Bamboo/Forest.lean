import Bamboo.Types

/-!
# The levelled forest

Containers live in an arena: a container's address is its position in `heap`,
and the id map, the level lists and the children lists hold addresses, as the
Go structures hold pointers. A pruned container stays in the arena, unreachable
through the maps, just as it may stay reachable through another container's
children. A container without a vertex is a placeholder for a parent that has
been named but not received.
-/
namespace Bamboo

structure VertexContainer where
  id : Identifier
  level : UInt64
  children : List ℕ
  vertex : Option Block
  deriving DecidableEq, Repr

structure LevelledForest where
  heap : List VertexContainer
  vertices : Map Identifier ℕ
  verticesAtLevel : Map UInt64 (List ℕ)
  lowestLevel : UInt64

namespace LevelledForest

def new : LevelledForest := ⟨[], ∅, ∅, 0⟩

/-- The vertex behind a pointer, `none` for a placeholder. -/
def vertexAt (f : LevelledForest) (a : ℕ) : Option Block :=
  f.heap[a]?.bind VertexContainer.vertex

def getVertex (f : LevelledForest) (id : Identifier) : Option Block :=
  (f.vertices.lookup id).bind f.vertexAt

/-! ## Insertion -/

def getOrCreateVertexContainer (f : LevelledForest) (id : Identifier) (level : UInt64) :
    LevelledForest × ℕ :=
  match f.vertices.lookup id with
  | some a => (f, a)
  | none =>
    let a := f.heap.length
    ({ f with
        heap := f.heap ++ [⟨id, level, [], none⟩]
        vertices := f.vertices.insert id a
        verticesAtLevel := f.verticesAtLevel.insert level
          ((f.verticesAtLevel.lookup level).getD [] ++ [a]) }, a)

/-- `container.vertex = vertex`. -/
def fill (f : LevelledForest) (a : ℕ) (b : Block) : LevelledForest :=
  { f with heap := f.heap.modify a fun c => { c with vertex := some b } }

/-- `parentContainer.children = append(parentContainer.children, vertexContainer)`. -/
def addChild (f : LevelledForest) (parent child : ℕ) : LevelledForest :=
  { f with heap := f.heap.modify parent fun c => { c with children := c.children ++ [child] } }

/-- Reads the level of the container and the parent of the vertex it holds. -/
def registerWithParent (f : LevelledForest) (a : ℕ) (level : UInt64) (b : Block) :
    Except Fault LevelledForest :=
  if level ≤ f.lowestLevel then .ok f
  else do
    let (parentID, parentView) ← b.parent
    if parentView < f.lowestLevel then return f
    else
      let (f, p) := f.getOrCreateVertexContainer parentID parentView
      return f.addChild p a

def addVertex (f : LevelledForest) (b : Block) : Except Fault LevelledForest :=
  if b.level < f.lowestLevel then .ok f
  else
    let (f, a) := f.getOrCreateVertexContainer b.id b.level
    match f.heap[a]? with
    | none => .error .nilPointer
    | some c =>
      if c.vertex.isSome then .ok f
      else (f.fill a b).registerWithParent a c.level b

/-! ## Verification -/

/-- The result of the Go call is inside, a panic outside. -/
def isEquivalentToStoredVertex (f : LevelledForest) (b : Block) : Except Fault (Except Err Bool) :=
  match f.getVertex b.id with
  | none => .ok (.ok false)
  | some stored =>
    if b.level ≠ stored.level then .ok (.error (.conflicting b.id))
    else if b.level ≤ f.lowestLevel then .ok (.ok true)
    else do
      let (newParentID, newParentView) ← b.parent
      let (storedParentID, storedParentView) ← stored.parent
      if newParentID ≠ storedParentID then return .error (.conflicting b.id)
      else if newParentView ≠ storedParentView then return .error (.conflicting b.id)
      else return .ok true

/-- Placeholders are not looked at: `GetVertex` does not find them. -/
def verifyParent (f : LevelledForest) (b : Block) : Except Fault (Except Err Unit) := do
  let (parentID, parentLevel) ← b.parent
  if ¬ parentLevel < b.level then return .error (.parentNotLower parentLevel b.level)
  else
    match f.getVertex parentID with
    | none => return .ok ()
    | some p =>
      if p.level ≠ parentLevel then return .error (.parentLevelDiffers b.id parentLevel p.level)
      else return .ok ()

def verifyVertex (f : LevelledForest) (b : Block) : Except Fault (Except Err Unit) :=
  if b.level < f.lowestLevel then .ok (.ok ())
  else do
    match ← f.isEquivalentToStoredVertex b with
    | .error e => return .error (.invalidVertex e)
    | .ok true => return .ok ()
    | .ok false => if b.level = f.lowestLevel then return .ok () else f.verifyParent b

/-! ## Pruning -/

/-- The walk that marks committed levels, from `l` through the first vertex of
each level to the level of that vertex's parent. A level is visited twice only
in an endless loop, so one more step than there are levels is enough. -/
def committedLevels (f : LevelledForest) : ℕ → UInt64 → Except Fault (List UInt64)
  | 0, _ => .error .spin
  | fuel + 1, l =>
    if f.lowestLevel ≤ l ∧ 1 < l then
      match (f.verticesAtLevel.lookup l).getD [] with
      | [] => .error .index
      | a :: _ =>
        match f.vertexAt a with
        | none => .error .nilPointer
        | some v => do
          let (parentID, _) ← v.parent
          match f.getVertex parentID with
          | none => return []
          | some p =>
            if p.level < f.lowestLevel then return []
            else return p.level :: (← f.committedLevels fuel p.level)
    else .ok []

/-- What the pruning loop carries along: the forest, the forked blocks found
and the number of pruned containers. -/
structure Pruning where
  forest : LevelledForest
  forked : List Block
  prunedNo : ℕ

/-- One container of a pruned level. -/
def pruneContainer (committed : List UInt64) (l : UInt64) (p : Pruning) (a : ℕ) : Pruning :=
  let forked :=
    if l ∉ committed ∧ 1 < l then
      match p.forest.vertexAt a with
      | none => p.forked
      | some b => p.forked ++ [b]
    else p.forked
  { forest := match p.forest.heap[a]? with
      | none => p.forest
      | some c => { p.forest with vertices := p.forest.vertices.erase c.id }
    forked := forked
    prunedNo := p.prunedNo + 1 }

/-- One level of the pruning loop. -/
def pruneLevel (committed : List UInt64) (p : Pruning) (l : UInt64) : Pruning :=
  let p := ((p.forest.verticesAtLevel.lookup l).getD []).foldl (pruneContainer committed l) p
  { p with forest := { p.forest with verticesAtLevel := p.forest.verticesAtLevel.erase l } }

/-- `PruneUpToLevel`. The result of the Go call is inside, a panic outside. -/
def pruneUpToLevel (f : LevelledForest) (level : UInt64) :
    Except Fault (Except Err (List Block × ℕ) × LevelledForest) :=
  if level < f.lowestLevel then .ok (.error (.lowerLevel level f.lowestLevel), f)
  else do
    let committed ← f.committedLevels (f.verticesAtLevel.entries.length + 1) level
    let levels := (List.range' f.lowestLevel.toNat (level.toNat - f.lowestLevel.toNat)).map
      UInt64.ofNat
    let p := levels.foldl (pruneLevel committed) ⟨f, [], 0⟩
    return (.ok (p.forked, p.prunedNo), { p.forest with lowestLevel := level })

/-! ## What the forest holds -/

/-- Every pointer of the id map is to a container of that id, and a container
holds a block of its own id only. -/
structure Sound (f : LevelledForest) : Prop where
  named : ∀ (id : Identifier) (a : ℕ), f.vertices.lookup id = some a →
    ∃ c, f.heap[a]? = some c ∧ c.id = id
  stored : ∀ c ∈ f.heap, ∀ b, c.vertex = some b → b.id = c.id

theorem sound_new : new.Sound where
  named _ _ h := by simp [new] at h
  stored _ h := by simp [new] at h

theorem vertexAt_eq_some {f : LevelledForest} {a : ℕ} {b : Block} :
    f.vertexAt a = some b ↔ ∃ c, f.heap[a]? = some c ∧ c.vertex = some b :=
  Option.bind_eq_some_iff

theorem getVertex_eq_some {f : LevelledForest} {id : Identifier} {b : Block} :
    f.getVertex id = some b ↔ ∃ a, f.vertices.lookup id = some a ∧ f.vertexAt a = some b :=
  Option.bind_eq_some_iff

/-- The map finds a block under its own id. -/
theorem Sound.id_of_getVertex {f : LevelledForest} (hf : f.Sound) {id : Identifier} {b : Block}
    (h : f.getVertex id = some b) : b.id = id := by
  obtain ⟨a, ha, hv⟩ := getVertex_eq_some.mp h
  obtain ⟨c, hc, hb⟩ := vertexAt_eq_some.mp hv
  obtain ⟨c', hc', hid⟩ := hf.named id a ha
  obtain rfl : c = c' := Option.some.inj (hc.symm.trans hc')
  exact (hf.stored c (List.mem_of_getElem? hc) b hb).trans hid

/-- Different ids have different containers. -/
theorem Sound.address_inj {f : LevelledForest} (hf : f.Sound) {id id' : Identifier} {a : ℕ}
    (h : f.vertices.lookup id = some a) (h' : f.vertices.lookup id' = some a) : id = id' := by
  obtain ⟨c, hc, hid⟩ := hf.named id a h
  obtain ⟨c', hc', hid'⟩ := hf.named id' a h'
  obtain rfl : c = c' := Option.some.inj (hc.symm.trans hc')
  exact hid.symm.trans hid'

/-- Nothing is found in the new forest that was not found in the old one, and
nothing is lost. -/
structure SameContent (f f' : LevelledForest) : Prop where
  sound : f'.Sound
  lowestLevel : f'.lowestLevel = f.lowestLevel
  getVertex : ∀ id, f'.getVertex id = f.getVertex id

theorem SameContent.refl {f : LevelledForest} (hf : f.Sound) : SameContent f f :=
  ⟨hf, rfl, fun _ => rfl⟩

theorem SameContent.trans {f g h : LevelledForest} (hfg : SameContent f g)
    (hgh : SameContent g h) : SameContent f h :=
  ⟨hgh.sound, hgh.lowestLevel.trans hfg.lowestLevel,
    fun id => (hgh.getVertex id).trans (hfg.getVertex id)⟩

/-- A fresh placeholder holds nothing. -/
theorem getOrCreate_sameContent {f : LevelledForest} (hf : f.Sound) (id : Identifier)
    (level : UInt64) : SameContent f (f.getOrCreateVertexContainer id level).1 := by
  unfold getOrCreateVertexContainer
  cases h : f.vertices.lookup id with
  | some a => exact SameContent.refl hf
  | none =>
    refine ⟨⟨?_, ?_⟩, rfl, ?_⟩
    · intro id' a ha
      by_cases heq : id' = id
      · subst heq
        rw [AList.lookup_insert] at ha
        cases ha
        exact ⟨⟨id', level, [], none⟩, by simp, rfl⟩
      · rw [AList.lookup_insert_ne heq] at ha
        obtain ⟨c, hc, hid⟩ := hf.named id' a ha
        exact ⟨c, by rw [List.getElem?_append_left (List.getElem?_eq_some_iff.mp hc).1, hc], hid⟩
    · intro c hc b hb
      rcases List.mem_append.mp hc with hc | hc
      · exact hf.stored c hc b hb
      · obtain rfl := List.mem_singleton.mp hc
        cases hb
    · intro id'
      by_cases heq : id' = id
      · subst heq
        simp [getVertex, vertexAt, h]
      · simp only [getVertex, vertexAt, AList.lookup_insert_ne heq]
        cases ha : f.vertices.lookup id' with
        | none => rfl
        | some a =>
          obtain ⟨c, hc, -⟩ := hf.named id' a ha
          simp only [Option.bind_some, vertexAt]
          rw [List.getElem?_append_left (List.getElem?_eq_some_iff.mp hc).1]

theorem lookup_getOrCreate (f : LevelledForest) (id : Identifier) (level : UInt64) :
    (f.getOrCreateVertexContainer id level).1.vertices.lookup id =
      some (f.getOrCreateVertexContainer id level).2 := by
  unfold getOrCreateVertexContainer
  cases h : f.vertices.lookup id with
  | some a => exact h
  | none => exact AList.lookup_insert _

/-- The id map is left alone and every container keeps its id. -/
theorem Sound.modify {f : LevelledForest} (hf : f.Sound) (a : ℕ)
    {g : VertexContainer → VertexContainer} (hid : ∀ c, (g c).id = c.id)
    (hv : ∀ c, f.heap[a]? = some c → ∀ b, (g c).vertex = some b → b.id = c.id) :
    Sound { f with heap := f.heap.modify a g } := by
  refine ⟨fun id i hi => ?_, fun c hc b hb => ?_⟩
  · obtain ⟨c, hc, hcid⟩ := hf.named id i hi
    refine ⟨if a = i then g c else c, by simp [List.getElem?_modify, hc], ?_⟩
    split_ifs
    · rw [hid, hcid]
    · exact hcid
  · obtain ⟨i, hi⟩ := List.mem_iff_getElem?.mp hc
    rw [List.getElem?_modify] at hi
    obtain ⟨c', hc', rfl⟩ := Option.map_eq_some_iff.mp hi
    by_cases h : a = i
    · subst h
      rw [if_pos rfl] at hb ⊢
      rw [hid]
      exact hv c' hc' b hb
    · rw [if_neg h] at hb ⊢
      exact hf.stored c' (List.mem_of_getElem? hc') b hb

/-- The children of a container are not looked at by any lookup. -/
theorem getVertex_addChild (f : LevelledForest) (p a : ℕ) (id : Identifier) :
    (f.addChild p a).getVertex id = f.getVertex id := by
  simp only [getVertex, addChild]
  congr 1
  funext i
  simp only [vertexAt, List.getElem?_modify]
  cases f.heap[i]? with
  | none => rfl
  | some c => by_cases h : p = i <;> simp [h]

theorem addChild_sameContent {f : LevelledForest} (hf : f.Sound) (p a : ℕ) :
    SameContent f (f.addChild p a) := by
  refine ⟨hf.modify p (fun _ => rfl) fun c hc b hb => ?_, rfl, getVertex_addChild f p a⟩
  exact hf.stored c (List.mem_of_getElem? hc) b hb

theorem registerWithParent_sameContent {f f' : LevelledForest} (hf : f.Sound) {a : ℕ}
    {level : UInt64} {b : Block} (h : f.registerWithParent a level b = .ok f') :
    SameContent f f' := by
  unfold registerWithParent at h
  split_ifs at h with hl
  · cases h
    exact SameContent.refl hf
  · cases hp : b.parent with
    | error e => rw [hp] at h; cases h
    | ok p =>
      obtain ⟨parentID, parentView⟩ := p
      rw [hp] at h
      by_cases hv : parentView < f.lowestLevel
      · simp only [bind, Except.bind, hv, ↓reduceIte] at h
        cases h
        exact SameContent.refl hf
      · simp only [bind, Except.bind, hv, ↓reduceIte] at h
        cases h
        have hc := getOrCreate_sameContent hf parentID parentView
        exact hc.trans (addChild_sameContent hc.sound _ _)

/-- Filling the container of an id puts the block there and nowhere else. -/
theorem fill_spec {f : LevelledForest} (hf : f.Sound) {a : ℕ} {b : Block}
    (ha : f.vertices.lookup b.id = some a) :
    (f.fill a b).Sound ∧
      ∀ id, (f.fill a b).getVertex id = if id = b.id then some b else f.getVertex id := by
  obtain ⟨c, hc, hcid⟩ := hf.named b.id a ha
  refine ⟨hf.modify a (fun _ => rfl) ?_, fun id => ?_⟩
  · intro c' hc' b' hb'
    obtain rfl : c = c' := Option.some.inj (hc.symm.trans hc')
    cases hb'
    exact hcid.symm
  · split_ifs with h
    · subst h
      simp [getVertex, vertexAt, fill, ha, hc]
    · simp only [getVertex, fill]
      cases hi : f.vertices.lookup id with
      | none => rfl
      | some i =>
        have hne : a ≠ i := by
          rintro rfl
          exact h (hf.address_inj hi ha)
        simp [vertexAt, List.getElem?_modify, hne]

/-- What `AddVertex` does to the content: a block below the lowest level or of
an id that is already there changes nothing, any other block is found from now
on under its id. -/
theorem addVertex_spec {f f' : LevelledForest} (hf : f.Sound) {b : Block}
    (h : f.addVertex b = .ok f') :
    f'.Sound ∧ f'.lowestLevel = f.lowestLevel ∧
      ∀ id, f'.getVertex id =
        if id = b.id ∧ ¬ b.level < f.lowestLevel ∧ f.getVertex id = none then some b
        else f.getVertex id := by
  unfold addVertex at h
  split_ifs at h with hl
  · cases h
    exact ⟨hf, rfl, fun id => by simp [hl]⟩
  · have hg := getOrCreate_sameContent hf b.id b.level
    have ha := lookup_getOrCreate f b.id b.level
    generalize f.getOrCreateVertexContainer b.id b.level = r at h hg ha
    obtain ⟨g, a⟩ := r
    obtain ⟨c, hc, -⟩ := hg.sound.named b.id a ha
    simp only [hc] at h
    have hfound : f.getVertex b.id = c.vertex := by
      rw [← hg.getVertex]
      simp [getVertex, vertexAt, ha, hc]
    split_ifs at h with hv
    · cases h
      refine ⟨hg.sound, hg.lowestLevel, fun id => ?_⟩
      rw [hg.getVertex, if_neg]
      rintro ⟨rfl, -, hnone⟩
      simp [← hfound, hnone] at hv
    · obtain ⟨hs, hget⟩ := fill_spec hg.sound ha
      have hreg := registerWithParent_sameContent hs h
      refine ⟨hreg.sound, hreg.lowestLevel.trans hg.lowestLevel, fun id => ?_⟩
      rw [hreg.getVertex, hget, hg.getVertex]
      by_cases hid : id = b.id
      · subst hid
        have hnone : f.getVertex b.id = none := by
          rw [hfound]
          simpa using hv
        simp [hl, hnone]
      · simp [hid]

/-- A container that is made for another id does not hide a block. -/
theorem getVertex_getOrCreate {f : LevelledForest} {id : Identifier} {b : Block}
    (h : f.getVertex id = some b) (id' : Identifier) (level : UInt64) :
    (f.getOrCreateVertexContainer id' level).1.getVertex id = some b := by
  obtain ⟨a, ha, hv⟩ := getVertex_eq_some.mp h
  obtain ⟨c, hc, hb⟩ := vertexAt_eq_some.mp hv
  unfold getOrCreateVertexContainer
  cases hnew : f.vertices.lookup id' with
  | some a' => exact h
  | none =>
    have hne : id ≠ id' := by
      rintro rfl
      rw [ha] at hnew
      cases hnew
    refine getVertex_eq_some.mpr ⟨a, ?_, vertexAt_eq_some.mpr ⟨c, ?_, hb⟩⟩
    · rw [AList.lookup_insert_ne hne, ha]
    · rw [List.getElem?_append_left (List.getElem?_eq_some_iff.mp hc).1, hc]

theorem getVertex_registerWithParent {f f' : LevelledForest} {id : Identifier} {b v : Block}
    {a : ℕ} {level : UInt64} (h : f.registerWithParent a level v = .ok f')
    (hb : f.getVertex id = some b) : f'.getVertex id = some b := by
  unfold registerWithParent at h
  split_ifs at h with hl
  · cases h
    exact hb
  · cases hp : v.parent with
    | error e => rw [hp] at h; cases h
    | ok p =>
      obtain ⟨parentID, parentView⟩ := p
      rw [hp] at h
      by_cases hv : parentView < f.lowestLevel
      · simp only [bind, Except.bind, hv, ↓reduceIte] at h
        cases h
        exact hb
      · simp only [bind, Except.bind, hv, ↓reduceIte] at h
        cases h
        rw [getVertex_addChild]
        exact getVertex_getOrCreate hb parentID parentView

/-- A block leaves the forest as it is exactly if it is below the lowest level or a
block of its id is there. -/
theorem addVertex_same_iff {f f' : LevelledForest} {b : Block} (h : f.addVertex b = .ok f') :
    f' = f ↔ b.level < f.lowestLevel ∨ (f.getVertex b.id).isSome := by
  unfold addVertex at h
  split_ifs at h with hl
  · cases h
    exact iff_of_true rfl (Or.inl hl)
  · simp only [hl, false_or]
    have ha := lookup_getOrCreate f b.id b.level
    constructor
    · rintro rfl
      generalize f'.getOrCreateVertexContainer b.id b.level = r at h ha
      obtain ⟨g, a⟩ := r
      cases hc : g.heap[a]? with
      | none => simp [hc] at h
      | some c =>
        simp only [hc] at h
        split_ifs at h with hv
        · cases h
          simpa [getVertex, vertexAt, ha, hc] using hv
        · have hfilled : (g.fill a b).getVertex b.id = some b := by
            simp [getVertex, vertexAt, fill, ha, hc]
          rw [getVertex_registerWithParent h hfilled]
          rfl
    · intro hsome
      obtain ⟨v, hv⟩ := Option.isSome_iff_exists.mp hsome
      obtain ⟨a, hlookup, hat⟩ := getVertex_eq_some.mp hv
      obtain ⟨c, hc, hvertex⟩ := vertexAt_eq_some.mp hat
      have hfound : f.getOrCreateVertexContainer b.id b.level = (f, a) := by
        unfold getOrCreateVertexContainer
        rw [hlookup]
      simp only [hfound, hc, hvertex, Option.isSome_some, if_true] at h
      cases h
      rfl

/-! ## What pruning leaves -/

/-- Pruning only forgets. -/
structure Forgets (f f' : LevelledForest) : Prop where
  heap : f'.heap = f.heap
  vertices : ∀ id a, f'.vertices.lookup id = some a → f.vertices.lookup id = some a

theorem Forgets.refl (f : LevelledForest) : Forgets f f := ⟨rfl, fun _ _ h => h⟩

theorem Forgets.trans {f g h : LevelledForest} (hfg : Forgets f g) (hgh : Forgets g h) :
    Forgets f h :=
  ⟨hgh.heap.trans hfg.heap, fun id a ha => hfg.vertices id a (hgh.vertices id a ha)⟩

theorem Forgets.sound {f f' : LevelledForest} (h : Forgets f f') (hf : f.Sound) : f'.Sound where
  named id a ha := by rw [h.heap]; exact hf.named id a (h.vertices id a ha)
  stored := by rw [h.heap]; exact hf.stored

theorem Forgets.getVertex {f f' : LevelledForest} (h : Forgets f f') {id : Identifier} {b : Block}
    (hb : f'.getVertex id = some b) : f.getVertex id = some b := by
  obtain ⟨a, ha, hv⟩ := getVertex_eq_some.mp hb
  refine getVertex_eq_some.mpr ⟨a, h.vertices id a ha, ?_⟩
  rw [← hv, vertexAt, vertexAt, h.heap]

theorem pruneContainer_forgets (committed : List UInt64) (l : UInt64) (p : Pruning) (a : ℕ) :
    Forgets p.forest (pruneContainer committed l p a).forest := by
  unfold pruneContainer
  cases h : p.forest.heap[a]? with
  | none => exact Forgets.refl _
  | some c => exact ⟨rfl, fun _ _ => lookup_of_lookup_erase⟩

theorem foldl_forgets {α : Type} {step : Pruning → α → Pruning}
    (hstep : ∀ p x, Forgets p.forest (step p x).forest) (xs : List α) (p : Pruning) :
    Forgets p.forest (xs.foldl step p).forest := by
  induction xs generalizing p with
  | nil => exact Forgets.refl _
  | cons x xs ih => exact (hstep p x).trans (ih (step p x))

theorem pruneLevel_forgets (committed : List UInt64) (p : Pruning) (l : UInt64) :
    Forgets p.forest (pruneLevel committed p l).forest := by
  have h := foldl_forgets (pruneContainer_forgets committed l)
    ((p.forest.verticesAtLevel.lookup l).getD []) p
  exact ⟨h.heap, h.vertices⟩

theorem pruneUpToLevel_forgets {f f' : LevelledForest} {level : UInt64}
    {r : Except Err (List Block × ℕ)} (h : f.pruneUpToLevel level = .ok (r, f')) :
    Forgets f f' := by
  unfold pruneUpToLevel at h
  split_ifs at h with hl
  · cases h
    exact Forgets.refl f
  · cases hc : f.committedLevels (f.verticesAtLevel.entries.length + 1) level with
    | error e => rw [hc] at h; cases h
    | ok committed =>
      rw [hc] at h
      cases h
      have hp := foldl_forgets (pruneLevel_forgets committed)
        ((List.range' f.lowestLevel.toNat (level.toNat - f.lowestLevel.toNat)).map UInt64.ofNat)
        ⟨f, [], 0⟩
      exact ⟨hp.heap, hp.vertices⟩

/-- Pruning either fails and changes nothing, or raises the lowest level. -/
theorem pruneUpToLevel_lowestLevel {f f' : LevelledForest} {level : UInt64}
    {r : Except Err (List Block × ℕ)} (h : f.pruneUpToLevel level = .ok (r, f')) :
    ((∃ e, r = .error e) ∧ f' = f) ∨
      ((∃ pruned, r = .ok pruned) ∧ f.lowestLevel ≤ level ∧ f'.lowestLevel = level) := by
  unfold pruneUpToLevel at h
  split_ifs at h with hl
  · cases h
    exact Or.inl ⟨⟨_, rfl⟩, rfl⟩
  · cases hc : f.committedLevels (f.verticesAtLevel.entries.length + 1) level with
    | error e => rw [hc] at h; cases h
    | ok committed =>
      rw [hc] at h
      cases h
      exact Or.inr ⟨⟨_, rfl⟩, UInt64.not_lt.mp hl, rfl⟩

theorem pruneUpToLevel_lowest {f f' : LevelledForest}
    {r : Except Err (List Block × ℕ)} (h : f.pruneUpToLevel f.lowestLevel = .ok (r, f')) :
    r = .ok ([], 0) ∧ f' = f := by
  unfold pruneUpToLevel at h
  rw [if_neg (UInt64.lt_irrefl _)] at h
  cases hc : f.committedLevels (f.verticesAtLevel.entries.length + 1) f.lowestLevel with
  | error e => simp [hc, bind, Except.bind] at h
  | ok levels =>
    simp only [hc, bind, Except.bind, Nat.sub_self, List.range'_zero, List.map_nil,
      List.foldl_nil] at h
    cases h
    exact ⟨rfl, rfl⟩

end LevelledForest

end Bamboo
