import Bamboo.CommitRuns
import Bamboo.Library.Walks
import Bamboo.Network

/-!
# When a commit returns

A commit walks twice: by parent ids from the block down to the lowest level, and
by levels, from each level to the one of the stored parent of its first vertex.
Nothing is asked of the blocks here but a certificate, so either walk may go in
circles, and the second one may come to a level that has no vertex in its first
place. These are the only ways in which a commit fails to return.
-/
namespace Bamboo

open Relation Walks

namespace LevelledForest

/-- The first walk: the stored parent, as long as the block is above the lowest
level. -/
def nextAncestor (f : LevelledForest) (b : Block) : Option Block :=
  if f.lowestLevel < b.level then f.getVertex b.prevID else none

/-- The vertex in the first place of a level. -/
def firstAt (f : LevelledForest) (l : UInt64) : Option Block :=
  (f.atLevel l).head?.bind f.vertexAt

/-- The second walk: the level of the stored parent of the first vertex. -/
def nextLevel (f : LevelledForest) (l : UInt64) : Option UInt64 :=
  if f.lowestLevel ≤ l ∧ 1 < l then
    ((f.firstAt l).bind fun v => f.getVertex v.prevID).bind fun p =>
      if p.level < f.lowestLevel then none else some p.level
  else none

/-- A level that the second walk can be at. -/
def Readable (f : LevelledForest) (l : UInt64) : Prop :=
  f.lowestLevel ≤ l ∧ 1 < l → (f.firstAt l).isSome

/-- Neither walk goes in circles, and wherever a block is stored, its level has a
vertex in the first place. -/
structure Passable (f : LevelledForest) : Prop where
  ancestors : ∀ b, ¬ TransGen (Step f.nextAncestor) b b
  first : ∀ b, f.Stored b → f.Readable b.level
  levels : ∀ l, ¬ TransGen (Step f.nextLevel) l l

/-- Every block has a certificate. -/
def Certified (f : LevelledForest) : Prop :=
  ∀ a b, f.vertexAt a = some b → b.qc.isSome

variable {f f' : LevelledForest}

theorem certified_new : new.Certified := by
  intro a b h
  simp [new, vertexAt] at h

theorem Certified.addVertex (h : f.Certified) (hf : f.Coherent) {b : Block} (hb : b.qc.isSome)
    (hadd : f.addVertex b = .ok f') : f'.Certified := by
  intro a x hx
  rcases addVertex_vertexAt hf hadd hx with hx | rfl
  · exact h a x hx
  · exact hb

theorem Certified.forgets (h : f.Certified) (hforgets : Forgets f f') : f'.Certified := by
  intro a x hx
  rw [vertexAt, hforgets.heap] at hx
  exact h a x hx

/-! ## The walks and their fuel -/

theorem committedPath_returns_iff (f : LevelledForest) (n : ℕ) (b : Block) :
    (∃ path, BlockChain.committedPath f n b = .ok path) ↔
      Ends (fun _ => True) f.nextAncestor n b := by
  induction n generalizing b with
  | zero => simp [BlockChain.committedPath, Ends]
  | succ n ih =>
    unfold BlockChain.committedPath Ends
    by_cases hlow : f.lowestLevel < b.level
    · cases hp : f.getVertex b.prevID with
      | none => simp [hlow, nextAncestor, hp]
      | some p =>
        have hiff := ih p
        cases hrest : BlockChain.committedPath f n p with
        | error e =>
          rw [hrest] at hiff
          simpa [hlow, nextAncestor, hp, hrest, bind, Except.bind] using hiff
        | ok rest =>
          rw [hrest] at hiff
          simpa [hlow, nextAncestor, hp, hrest, bind, Except.bind, pure, Except.pure] using hiff
    · simp [hlow, nextAncestor]

theorem firstAt_eq_some {l : UInt64} {v : Block} (h : f.firstAt l = some v) :
    ∃ a as, f.atLevel l = a :: as ∧ f.vertexAt a = some v := by
  unfold firstAt at h
  cases hat : f.atLevel l with
  | nil => simp [hat] at h
  | cons a as => exact ⟨a, as, rfl, by simpa [hat] using h⟩

theorem committedLevels_unreadable {l : UInt64} (h : ¬ f.Readable l) (n : ℕ) :
    ∃ e, f.committedLevels (n + 1) l = .error e := by
  obtain ⟨hl, hfirst⟩ := Classical.not_imp.mp h
  unfold committedLevels
  rw [if_pos hl]
  cases hat : f.atLevel l with
  | nil => exact ⟨.index, by rw [show (f.verticesAtLevel.lookup l).getD [] = [] from hat]⟩
  | cons a as =>
    have hv : f.vertexAt a = none := by simpa [firstAt, hat] using hfirst
    rw [show (f.verticesAtLevel.lookup l).getD [] = a :: as from hat]
    exact ⟨.nilPointer, by simp [hv]⟩

/-- The walk ends at a level that can be read and leads nowhere. -/
theorem committedLevels_last (hf : f.Certified) {l : UInt64} (h : f.Readable l)
    (hnext : f.nextLevel l = none) (n : ℕ) : f.committedLevels (n + 1) l = .ok [] := by
  unfold committedLevels
  by_cases hl : f.lowestLevel ≤ l ∧ 1 < l
  · obtain ⟨v, hfirst⟩ := Option.isSome_iff_exists.mp (h hl)
    obtain ⟨a, as, hat, hv⟩ := firstAt_eq_some hfirst
    obtain ⟨qc, hqc⟩ := Option.isSome_iff_exists.mp (hf a v hv)
    rw [if_pos hl, show (f.verticesAtLevel.lookup l).getD [] = a :: as from hat]
    cases hp : f.getVertex v.prevID with
    | none => simp [hv, parent_eq hqc, bind, Except.bind, hp, pure, Except.pure]
    | some p =>
      have hlow : p.level < f.lowestLevel := by simpa [nextLevel, hl, hfirst, hp] using hnext
      simp [hv, parent_eq hqc, bind, Except.bind, hp, hlow, pure, Except.pure]
  · simp [hl]

theorem committedLevels_step (hf : f.Certified) {l m : UInt64} (hnext : f.nextLevel l = some m)
    (n : ℕ) : f.committedLevels (n + 1) l = (f.committedLevels n m).map (m :: ·) := by
  unfold nextLevel at hnext
  split_ifs at hnext with hl
  obtain ⟨p, hp, hm⟩ := Option.bind_eq_some_iff.mp hnext
  obtain ⟨v, hfirst, hget⟩ := Option.bind_eq_some_iff.mp hp
  obtain ⟨a, as, hat, hv⟩ := firstAt_eq_some hfirst
  obtain ⟨qc, hqc⟩ := Option.isSome_iff_exists.mp (hf a v hv)
  split_ifs at hm with hlow
  obtain rfl := Option.some.inj hm
  rw [committedLevels, if_pos hl, show (f.verticesAtLevel.lookup l).getD [] = a :: as from hat]
  cases hrest : f.committedLevels n p.level <;>
    simp [hv, parent_eq hqc, bind, Except.bind, hget, hlow, hrest, pure, Except.pure, Except.map]

theorem committedLevels_returns_iff (hf : f.Certified) (n : ℕ) (l : UInt64) :
    (∃ ls, f.committedLevels n l = .ok ls) ↔ Ends f.Readable f.nextLevel n l := by
  induction n generalizing l with
  | zero => simp [committedLevels, Ends]
  | succ n ih =>
    unfold Ends
    by_cases hread : f.Readable l
    · cases hnext : f.nextLevel l with
      | none => simp [committedLevels_last hf hread hnext, hread]
      | some m =>
        have hiff := ih m
        rw [committedLevels_step hf hnext]
        cases hrest : f.committedLevels n m with
        | error e =>
          rw [hrest] at hiff
          simpa [hread, Except.map] using hiff
        | ok rest =>
          rw [hrest] at hiff
          simpa [hread, Except.map] using hiff
    · obtain ⟨e, he⟩ := committedLevels_unreadable hread n
      simp [he, hread]

/-- The levels that get marked are those the walk comes to. -/
theorem mem_committedLevels_iff (hf : f.Certified) {n : ℕ} {l : UInt64} {ls : List UInt64}
    (h : f.committedLevels n l = .ok ls) (m : UInt64) :
    m ∈ ls ↔ TransGen (Step f.nextLevel) l m := by
  induction n generalizing l ls with
  | zero => cases h
  | succ n ih =>
    by_cases hread : f.Readable l
    · cases hnext : f.nextLevel l with
      | none =>
        rw [committedLevels_last hf hread hnext] at h
        cases h
        rw [TransGen.head'_iff]
        simp [Step, hnext]
      | some k =>
        rw [committedLevels_step hf hnext] at h
        obtain ⟨rest, hrest, rfl⟩ := exists_of_map_eq_ok h
        rw [List.mem_cons, ih hrest, TransGen.head'_iff (a := l)]
        simp [Step, hnext, reflTransGen_iff_eq_or_transGen]
    · obtain ⟨e, he⟩ := committedLevels_unreadable hread n
      rw [he] at h
      cases h

theorem stored_of_nextAncestor (hf : f.Sound) (b p : Block) (h : f.nextAncestor b = some p) :
    f.Stored p := by
  unfold nextAncestor at h
  split_ifs at h
  rw [Stored, hf.id_of_getVertex h, h]

/-- The walk goes from a level that lists a vertex to the level of a stored block. -/
theorem nextLevel_spec (hf : f.Sound) {l m : UInt64} (h : f.nextLevel l = some m) :
    l ∈ f.verticesAtLevel ∧ f.lowestLevel ≤ m ∧ ∃ p, f.Stored p ∧ p.level = m := by
  unfold nextLevel at h
  split_ifs at h
  obtain ⟨p, hp, hm⟩ := Option.bind_eq_some_iff.mp h
  obtain ⟨v, hv, hget⟩ := Option.bind_eq_some_iff.mp hp
  split_ifs at hm with hlow
  obtain rfl := Option.some.inj hm
  refine ⟨?_, UInt64.not_lt.mp hlow, p, ?_, rfl⟩
  · rw [← AList.lookup_isSome]
    cases hl : f.verticesAtLevel.lookup l with
    | none => simp [firstAt, atLevel, hl] at hv
    | some as => rfl
  · rw [Stored, hf.id_of_getVertex hget, hget]

theorem committedPath_ends_iff (hf : f.Sound) {b : Block} (hb : f.Stored b) :
    (∃ path, BlockChain.committedPath f (f.vertices.entries.length + 1) b = .ok path) ↔
      ∀ x, ReflTransGen (Step f.nextAncestor) b x → ¬ TransGen (Step f.nextAncestor) x x := by
  rw [committedPath_returns_iff, ends_iff (s := (f.vertices.keys.filterMap f.getVertex).toFinset)]
  · simp
  · intro x p hx _
    have hstored : f.Stored x := of_reaches (stored_of_nextAncestor hf) hb hx
    rw [List.mem_toFinset, List.mem_filterMap]
    refine ⟨x.id, ?_, hstored⟩
    obtain ⟨a, ha, -⟩ := getVertex_eq_some.mp hstored
    rw [← AList.mem_keys, ← AList.lookup_isSome, ha]
    rfl
  · have hlen : f.vertices.keys.length = f.vertices.entries.length := by
      simp [AList.keys, List.keys]
    have hfilter := List.length_filterMap_le f.getVertex f.vertices.keys
    have hcard := List.toFinset_card_le (f.vertices.keys.filterMap f.getVertex)
    omega

theorem committedLevels_ends_iff (hf : f.Sound) (hcert : f.Certified) (l : UInt64) :
    (∃ ls, f.committedLevels (f.verticesAtLevel.entries.length + 1) l = .ok ls) ↔
      ∀ m, ReflTransGen (Step f.nextLevel) l m →
        f.Readable m ∧ ¬ TransGen (Step f.nextLevel) m m := by
  rw [committedLevels_returns_iff hcert, ends_iff (s := f.verticesAtLevel.keys.toFinset)]
  · intro m k _ hk
    rw [List.mem_toFinset]
    exact AList.mem_keys.mp (nextLevel_spec hf hk).1
  · have hlen : f.verticesAtLevel.keys.length = f.verticesAtLevel.entries.length := by
      simp [AList.keys, List.keys]
    have hcard := List.toFinset_card_le f.verticesAtLevel.keys
    omega

theorem pruneUpToLevel_returns_iff (f : LevelledForest) (level : UInt64) :
    (∃ r, f.pruneUpToLevel level = .ok r) ↔ (f.lowestLevel ≤ level →
      ∃ ls, f.committedLevels (f.verticesAtLevel.entries.length + 1) level = .ok ls) := by
  unfold pruneUpToLevel
  by_cases hlow : level < f.lowestLevel
  · have hnot : ¬ f.lowestLevel ≤ level := UInt64.not_le.mpr hlow
    simp [hlow, hnot]
  · have hle : f.lowestLevel ≤ level := UInt64.not_lt.mp hlow
    cases hc : f.committedLevels (f.verticesAtLevel.entries.length + 1) level <;>
      simp [hlow, hle, bind, Except.bind, pure, Except.pure]

end LevelledForest

namespace BlockChain

theorem commitBlock_returns_iff (bc : BlockChain) (id : Identifier) (view : View) :
    (∃ r, bc.commitBlock id view = .ok r) ↔ ∀ b, bc.forrest.getVertex id = some b →
      (∃ path, committedPath bc.forrest (bc.forrest.vertices.entries.length + 1) b = .ok path) ∧
        ∃ r, bc.forrest.pruneUpToLevel b.level = .ok r := by
  unfold commitBlock
  cases hb : bc.forrest.getVertex id with
  | none => simp
  | some b =>
    cases hpath : committedPath bc.forrest (bc.forrest.vertices.entries.length + 1) b with
    | error e => simp [hpath, bind, Except.bind]
    | ok path =>
      cases hprune : bc.forrest.pruneUpToLevel b.level with
      | error e => simp [hpath, bind, Except.bind, countCommitted_forrest, hprune]
      | ok r =>
        obtain ⟨res, f⟩ := r
        cases res <;>
          simp [hpath, bind, Except.bind, countCommitted_forrest, hprune, pure, Except.pure]

/-- All commits return exactly if the walks have nowhere to get stuck. -/
theorem commits_return_iff {bc : BlockChain} (hf : bc.forrest.Sound)
    (hcert : bc.forrest.Certified) :
    (∀ id view, ∃ r, bc.commitBlock id view = .ok r) ↔ bc.forrest.Passable := by
  have hpath : ∀ b, bc.forrest.Stored b → _ := fun b hb =>
    LevelledForest.committedPath_ends_iff hf (b := b) hb
  have hstored : ∀ id b, bc.forrest.getVertex id = some b → bc.forrest.Stored b := by
    intro id b hb
    rw [LevelledForest.Stored, hf.id_of_getVertex hb, hb]
  simp only [commitBlock_returns_iff, LevelledForest.pruneUpToLevel_returns_iff,
    LevelledForest.committedLevels_ends_iff hf hcert]
  constructor
  · intro h
    refine ⟨fun b hcycle => ?_, fun b hb => ?_, fun l hcycle => ?_⟩
    · have hb : bc.forrest.Stored b :=
        of_cycle (LevelledForest.stored_of_nextAncestor hf) hcycle
      exact (hpath b hb).mp (h b.id 0 b hb).1 b .refl hcycle
    · intro hl
      exact ((h b.id 0 b hb).2 hl.1 b.level .refl).1 hl
    · obtain ⟨hlow, b, hb, rfl⟩ :=
        of_cycle (fun l m hlm => (LevelledForest.nextLevel_spec hf hlm).2) hcycle
      exact ((h b.id 0 b hb).2 hlow b.level .refl).2 hcycle
  · intro h id view b hb
    refine ⟨(hpath b (hstored id b hb)).mpr fun x _ => h.ancestors x, fun hlow l hl => ?_⟩
    refine ⟨?_, h.levels l⟩
    obtain ⟨p, hp, rfl⟩ : ∃ p, bc.forrest.Stored p ∧ p.level = l :=
      of_reaches (p := fun l => ∃ p, bc.forrest.Stored p ∧ p.level = l)
        (fun l m hlm => (LevelledForest.nextLevel_spec hf hlm).2.2) ⟨b, hstored id b hb, rfl⟩ hl
    exact h.first p hp

end BlockChain

/-! ## Runs of a block chain -/

inductive ChainOp
  | addBlock (b : Block)
  | addVote (vote : Vote)
  | commitBlock (id : Identifier) (view : View)
  deriving DecidableEq, Repr

namespace BlockChain

def apply (env : Env) (bc : BlockChain) : ChainOp → Except Fault BlockChain
  | .addBlock b => bc.addBlock b
  | .addVote vote => .ok (bc.addVote env vote).2
  | .commitBlock id view => do return (← bc.commitBlock id view).2

/-- The calls one after the other, as long as they return. -/
def run (env : Env) (bc : BlockChain) (ops : List ChainOp) : Except Fault BlockChain :=
  ops.foldlM (apply env) bc

/-- What insertion and pruning keep of the forest is so after any calls. -/
theorem run_forrest {env : Env} {J : LevelledForest → Prop} {ops : List ChainOp}
    (hadd : ∀ b, .addBlock b ∈ ops → ∀ f f', J f → f.addVertex b = .ok f' → J f')
    (hprune : ∀ f f' level r, J f → f.pruneUpToLevel level = .ok (r, f') → J f')
    {bc bc' : BlockChain} (hJ : J bc.forrest) (h : bc.run env ops = .ok bc') : J bc'.forrest := by
  induction ops generalizing bc with
  | nil =>
    cases h
    exact hJ
  | cons op ops ih =>
    rw [run, List.foldlM_cons] at h
    cases hop : bc.apply env op with
    | error e =>
      rw [hop] at h
      cases h
    | ok bc₁ =>
      rw [hop] at h
      apply ih (fun b hb => hadd b (List.mem_cons_of_mem op hb)) _ h
      cases op with
      | addBlock b =>
        obtain ⟨f, hf, rfl⟩ := addBlock_ok hop
        exact hadd b List.mem_cons_self _ _ hJ hf
      | addVote vote =>
        cases hop
        exact hJ
      | commitBlock id view =>
        cases hc : bc.commitBlock id view with
        | error e => simp [apply, hc, bind, Except.bind] at hop
        | ok r =>
          simp only [apply, hc, bind, Except.bind] at hop
          cases hop
          rcases commitBlock_ok hc with ⟨-, -, hbc⟩ | ⟨b, path, res, -, -, hp, -⟩
          · rwa [hbc]
          · exact hprune _ _ _ _ hJ hp

end BlockChain

/-- After any calls that return, on blocks with certificates but otherwise
arbitrary, a commit of any id returns exactly if neither walk of a commit can go
in circles and the level of every stored block has a vertex in the first place. -/
theorem commit_returns_iff (env : Env) {ops : List ChainOp}
    (hops : ∀ b, .addBlock b ∈ ops → b.qc.isSome) {bc : BlockChain}
    (h : (BlockChain.new env.n).run env ops = .ok bc) :
    (∀ id view, ∃ r, bc.commitBlock id view = .ok r) ↔ bc.forrest.Passable := by
  obtain ⟨hf, hcert⟩ : bc.forrest.Coherent ∧ bc.forrest.Certified := by
    refine BlockChain.run_forrest (J := fun f => f.Coherent ∧ f.Certified) ?_ ?_ ?_ h
    · rintro b hb f f' ⟨hf, hcert⟩ hadd
      exact ⟨hf.addVertex hadd, hcert.addVertex hf (hops b hb) hadd⟩
    · rintro f f' level r ⟨hf, hcert⟩ hprune
      exact ⟨hf.pruneUpToLevel hprune, hcert.forgets (LevelledForest.pruneUpToLevel_forgets hprune)⟩
    · exact ⟨LevelledForest.coherent_new, LevelledForest.certified_new⟩
  exact BlockChain.commits_return_iff hf.toSound hcert

/-- Two blocks of one view, a vote and a commit. -/
theorem commit_returns_iff_fork : ∃ bc,
    (BlockChain.new fourNodes.n).run fourNodes [.addBlock (.onView 1 0), .addBlock (.onView 2 1),
      .addBlock { Block.onView 2 1 with id := 7 }, .addVote ⟨2, "1", 2, []⟩, .commitBlock 2 3] =
      .ok bc ∧ bc.forrest.lowestLevel = 2 ∧
    ((∀ id view, ∃ r, bc.commitBlock id view = .ok r) ↔ bc.forrest.Passable) := by
  have hrun : ((BlockChain.new fourNodes.n).run fourNodes [.addBlock (.onView 1 0),
      .addBlock (.onView 2 1), .addBlock { Block.onView 2 1 with id := 7 },
      .addVote ⟨2, "1", 2, []⟩, .commitBlock 2 3]).map (fun bc => bc.forrest.lowestLevel) =
      .ok 2 := by
    decide +kernel
  obtain ⟨bc, hbc, hlow⟩ := exists_of_map_eq_ok hrun
  refine ⟨bc, hbc, hlow, commit_returns_iff fourNodes ?_ hbc⟩
  intro b hb
  simp only [List.mem_cons, ChainOp.addBlock.injEq, reduceCtorEq, List.not_mem_nil, or_false] at hb
  rcases hb with rfl | rfl | rfl <;> rfl

/-- Two blocks that name each other as parents keep a commit going for ever. A
block of view 4 in a container that was made for view 3 has no level list of its
own. A block of view 3 behind a placeholder for another one is not the first of
its level. -/
theorem commit_stuck :
    ((BlockChain.new fourNodes.n).run fourNodes [.addBlock (.onView 3 2),
      .addBlock (.onView 2 3)]).map (fun bc => (bc.commitBlock 3 5).map fun _ => ()) =
      .ok (.error .spin) ∧
    ((BlockChain.new fourNodes.n).run fourNodes [.addBlock (.onView 5 3),
      .addBlock { Block.onView 3 1 with view := 4 }]).map
        (fun bc => (bc.commitBlock 3 5).map fun _ => ()) = .ok (.error .index) ∧
    ((BlockChain.new fourNodes.n).run fourNodes [.addBlock (.onView 5 3),
      .addBlock { Block.onView 3 1 with id := 7 }]).map
        (fun bc => (bc.commitBlock 7 5).map fun _ => ()) = .ok (.error .nilPointer) := by
  decide +kernel

end Bamboo
