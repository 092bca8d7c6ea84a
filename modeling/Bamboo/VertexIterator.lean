import Bamboo.Forest

/-!
# Iterating over vertices

The iterator loads one vertex ahead and skips empty containers on the way. What
is still to come from it is the loaded vertex and the full containers behind its
position; each call of `NextVertex` takes one off the front.
-/
namespace Bamboo

structure VertexIterator where
  data : List VertexContainer
  idx : ℕ
  next : Option Block

namespace VertexIterator

/-- The loop of `preLoad` over the containers from `idx` on. -/
def scan : List VertexContainer → ℕ → Option Block × ℕ
  | [], idx => (none, idx)
  | c :: rest, idx =>
    match c.vertex with
    | some v => (some v, idx + 1)
    | none => scan rest (idx + 1)

def preLoad (it : VertexIterator) : VertexIterator :=
  let (next, idx) := scan (it.data.drop it.idx) it.idx
  { it with idx := idx, next := next }

def nextVertex (it : VertexIterator) : Option Block × VertexIterator := (it.next, it.preLoad)

def hasNext (it : VertexIterator) : Bool := it.next.isSome

def newVertexIterator (vertexList : List VertexContainer) : VertexIterator :=
  preLoad ⟨vertexList, 0, none⟩

/-- `for it.HasNext() { append(blocks, it.NextVertex().GetBlock()) }`. -/
def collect : ℕ → VertexIterator → Except Fault (List Block × VertexIterator)
  | 0, _ => .error .spin
  | fuel + 1, it =>
    if it.hasNext then
      match it.nextVertex with
      | (none, _) => .error .nilPointer
      | (some v, it) => do
        let (vs, it) ← collect fuel it
        return (v :: vs, it)
    else .ok ([], it)

/-! ## What is still to come -/

def ahead (it : VertexIterator) : List Block :=
  (it.data.drop it.idx).filterMap VertexContainer.vertex

def pending (it : VertexIterator) : List Block := it.next.toList ++ it.ahead

/-- Nothing is loaded only if nothing is left. -/
def Loaded (it : VertexIterator) : Prop := it.next = none → it.ahead = []

/-- The scan stops behind the first full container. -/
theorem scan_spec (l : List VertexContainer) (idx : ℕ) :
    (scan l idx).1 = (l.filterMap VertexContainer.vertex).head? ∧
      idx ≤ (scan l idx).2 ∧
      (l.drop ((scan l idx).2 - idx)).filterMap VertexContainer.vertex =
        (l.filterMap VertexContainer.vertex).tail := by
  induction l generalizing idx with
  | nil => simp [scan]
  | cons c rest ih =>
    cases hv : c.vertex with
    | some v => simp [scan, hv]
    | none =>
      obtain ⟨hnext, hle, hrest⟩ := ih (idx + 1)
      have hpos : (scan rest (idx + 1)).2 - idx = (scan rest (idx + 1)).2 - (idx + 1) + 1 := by
        omega
      simp only [scan, hv, List.filterMap_cons, hpos, List.drop_succ_cons]
      exact ⟨hnext, by omega, hrest⟩

@[simp] theorem next_preLoad (it : VertexIterator) : it.preLoad.next = it.ahead.head? :=
  (scan_spec (it.data.drop it.idx) it.idx).1

@[simp] theorem ahead_preLoad (it : VertexIterator) : it.preLoad.ahead = it.ahead.tail := by
  obtain ⟨-, hle, hrest⟩ := scan_spec (it.data.drop it.idx) it.idx
  rw [List.drop_drop] at hrest
  simpa [preLoad, ahead, Nat.add_sub_cancel' hle] using hrest

theorem pending_preLoad (it : VertexIterator) : it.preLoad.pending = it.ahead := by
  cases h : it.ahead <;> simp [pending, h]

theorem loaded_preLoad (it : VertexIterator) : it.preLoad.Loaded := by
  cases h : it.ahead <;> simp [Loaded, h]

@[simp] theorem pending_newVertexIterator (l : List VertexContainer) :
    (newVertexIterator l).pending = l.filterMap VertexContainer.vertex := by
  simp [newVertexIterator, pending_preLoad, ahead]

theorem loaded_newVertexIterator (l : List VertexContainer) : (newVertexIterator l).Loaded :=
  loaded_preLoad _

/-- An iterator that has come to its end stays there. -/
theorem hasNext_iterate_preLoad {it : VertexIterator} (h : it.pending = []) (n : ℕ) :
    (preLoad^[n] it).hasNext = false := by
  induction n generalizing it with
  | zero =>
    cases hnext : it.next with
    | none => simp [hasNext, hnext]
    | some v => simp [pending, hnext] at h
  | succ n ih =>
    have hahead : it.ahead = [] := (List.append_eq_nil_iff.mp h).2
    rw [Function.iterate_succ_apply]
    apply ih
    rw [pending_preLoad, hahead]

/-- With fuel for every vertex the loop returns what was to come, and is at the end. -/
theorem collect_eq {it : VertexIterator} (hit : it.Loaded) {fuel : ℕ}
    (hfuel : it.pending.length < fuel) :
    ∃ it', it.collect fuel = .ok (it.pending, it') ∧ it'.pending = [] := by
  induction fuel generalizing it with
  | zero => omega
  | succ fuel ih =>
    cases hnext : it.next with
    | none =>
      have hempty : it.pending = [] := by simp [pending, hnext, hit hnext]
      exact ⟨it, by simp [collect, hasNext, hnext, hempty], hempty⟩
    | some v =>
      have hpending : it.pending = v :: it.preLoad.pending := by
        rw [pending_preLoad]
        simp [pending, hnext]
      rw [hpending, List.length_cons] at hfuel
      obtain ⟨it', hrun, hend⟩ := ih it.loaded_preLoad (by omega)
      refine ⟨it', ?_, hend⟩
      simp [collect, hasNext, nextVertex, hnext, hrun, hpending, bind, Except.bind, pure,
        Except.pure]

end VertexIterator

/-! ## The queries of the forest -/

namespace LevelledForest

/-- The containers behind a list of pointers. -/
def containers (f : LevelledForest) (as : List ℕ) : List VertexContainer :=
  as.filterMap (f.heap[·]?)

/-- `for _, c := range list { if c.vertex != nil { num++ } }`. -/
def countFull (l : List VertexContainer) : ℕ :=
  l.foldl (fun num c => if c.vertex.isSome then num + 1 else num) 0

def getVerticesAtLevel (f : LevelledForest) (level : UInt64) : VertexIterator :=
  .newVertexIterator (f.containers ((f.verticesAtLevel.lookup level).getD []))

def getNumberOfVerticesAtLevel (f : LevelledForest) (level : UInt64) : ℕ :=
  countFull (f.containers ((f.verticesAtLevel.lookup level).getD []))

theorem countFull_eq (l : List VertexContainer) :
    countFull l = (l.filterMap VertexContainer.vertex).length := by
  have hfold : ∀ (l : List VertexContainer) (num : ℕ),
      l.foldl (fun num c => if c.vertex.isSome then num + 1 else num) num =
        num + (l.filterMap VertexContainer.vertex).length := by
    intro l
    induction l with
    | nil => simp
    | cons c l ih =>
      intro num
      cases hv : c.vertex with
      | none => simp [ih, hv]
      | some v => simp [ih, hv]; omega
  simpa [countFull] using hfold l 0

end LevelledForest

/-- Whatever containers are empty, the iteration ends with the vertices of the full ones
in the order of the list, and `HasNext` stays false from there on. The number that the
forest gives for a level is the number of vertices that it iterates over. -/
theorem iterator_enumerates (vertexList : List VertexContainer) :
    (∀ fuel, vertexList.length < fuel →
      ∃ it, (VertexIterator.newVertexIterator vertexList).collect fuel =
          .ok (vertexList.filterMap VertexContainer.vertex, it) ∧
        ∀ n, (VertexIterator.preLoad^[n] it).hasNext = false) ∧
    ∀ (f : LevelledForest) (level : UInt64), ∃ n, ∀ fuel, n ≤ fuel → ∃ vs it,
      (f.getVerticesAtLevel level).collect fuel = .ok (vs, it) ∧
        f.getNumberOfVerticesAtLevel level = vs.length := by
  constructor
  · intro fuel hfuel
    have hle := List.length_filterMap_le VertexContainer.vertex vertexList
    have hloaded := VertexIterator.loaded_newVertexIterator vertexList
    rw [← VertexIterator.pending_newVertexIterator] at hle ⊢
    obtain ⟨it, hrun, hend⟩ := VertexIterator.collect_eq hloaded (hle.trans_lt hfuel)
    exact ⟨it, hrun, VertexIterator.hasNext_iterate_preLoad hend⟩
  · intro f level
    refine ⟨(f.getVerticesAtLevel level).pending.length + 1, fun fuel hfuel => ?_⟩
    obtain ⟨it, hrun, -⟩ := VertexIterator.collect_eq
      (VertexIterator.loaded_newVertexIterator _) (Nat.lt_of_succ_le hfuel)
    refine ⟨_, it, hrun, ?_⟩
    simp [LevelledForest.getNumberOfVerticesAtLevel, LevelledForest.countFull_eq]

end Bamboo
