import Bamboo.CommitReturns
import Mathlib.Algebra.BigOperators.Group.Finset.Basic
import Mathlib.Algebra.Order.BigOperators.Group.Finset
import Mathlib.Algebra.Order.Field.Rat

/-!
# What commits count

`CommitBlock` writes `highestComitted` before the pruning that may still fail, and
it counts a block as committed at once but its container as pruned only when a
later commit passes it.
-/
namespace Bamboo

namespace BlockChain

/-- The quotient of the counters; the Go function returns it as a float. -/
def getChainGrowth (bc : BlockChain) : ℚ := bc.committedBlockNo / (bc.prunedBlockNo + 1)

theorem countCommitted_foldl (view : View) (path : List Block) (bc : BlockChain) :
    let bc' := path.foldl (countCommitted view) bc
    bc'.highestComitted = bc.highestComitted ∧ bc'.prunedBlockNo = bc.prunedBlockNo ∧
      bc'.committedBlockNo = bc.committedBlockNo + path.length := by
  induction path generalizing bc with
  | nil => exact ⟨rfl, rfl, rfl⟩
  | cons b path ih =>
    obtain ⟨hhigh, hpruned, hcommitted⟩ := ih (countCommitted view bc b)
    refine ⟨hhigh, hpruned, ?_⟩
    rw [List.foldl_cons, hcommitted]
    simp only [countCommitted, List.length_cons]
    omega

theorem pruneUpToLevel_error {f f' : LevelledForest} {level : UInt64} {e : Err}
    (h : f.pruneUpToLevel level = .ok (.error e, f')) : level < f.lowestLevel ∧ f' = f := by
  unfold LevelledForest.pruneUpToLevel at h
  split_ifs at h with hlow
  · cases h
    exact ⟨hlow, rfl⟩
  · cases hc : f.committedLevels (f.verticesAtLevel.entries.length + 1) level <;>
      simp [hc, bind, Except.bind, pure, Except.pure] at h

/-- The three outcomes of a commit that returns, with what each does to the counters.
A block below the lowest level cannot be pruned to; it is not walked from either. -/
theorem commitBlock_counters {bc bc' : BlockChain} {id : Identifier} {view : View}
    {r : Except Err (List Block × List Block)} (h : bc.commitBlock id view = .ok (r, bc')) :
    (bc.forrest.getVertex id = none ∧ (∃ e, r = .error e) ∧ bc' = bc) ∨
    ∃ b, bc.forrest.getVertex id = some b ∧
      ((b.level < bc.forrest.lowestLevel ∧ (∃ e, r = .error e) ∧
          bc' = { bc with highestComitted := b.view }) ∨
        ∃ path forked prunedNo, r = .ok (path, forked) ∧
          bc.forrest.pruneUpToLevel b.level = .ok (.ok (forked, prunedNo), bc'.forrest) ∧
          bc'.highestComitted = b.view ∧
          bc'.committedBlockNo = bc.committedBlockNo + path.length ∧
          bc'.prunedBlockNo = bc.prunedBlockNo + prunedNo) := by
  rcases commitBlock_done h with ⟨hnone, hr, hbc⟩ | ⟨b, path, res, hb, hpath, hprune, hr⟩
  · exact Or.inl ⟨hnone, ⟨_, hr⟩, hbc⟩
  refine Or.inr ⟨b, hb, ?_⟩
  rcases hr with ⟨e, rfl, rfl, hbc⟩ | ⟨forked, prunedNo, rfl, rfl, hbc⟩
  · obtain ⟨hlow, hsame⟩ := pruneUpToLevel_error hprune
    rcases committedPath_ok hpath with ⟨-, rfl⟩ | ⟨habove, -⟩
    · rw [hsame] at hbc
      exact Or.inl ⟨hlow, ⟨_, rfl⟩, hbc⟩
    · exact absurd habove (UInt64.lt_asymm hlow)
  · obtain ⟨hhigh, hpruned, hcommitted⟩ :=
      countCommitted_foldl view path { bc with highestComitted := b.view }
    refine Or.inr ⟨path, forked, prunedNo, rfl, hprune, ?_, ?_, ?_⟩
    · rw [hbc]
      exact hhigh
    · rw [hbc]
      exact hcommitted
    · rw [hbc]
      exact congrArg (· + prunedNo) hpruned

/-- A commit does nothing to the forest and delivers nothing exactly if its block is
not above the lowest level. -/
theorem commitBlock_idle_iff {bc bc' : BlockChain} {id : Identifier} {view : View}
    {r : Except Err (List Block × List Block)} (h : bc.commitBlock id view = .ok (r, bc')) :
    (bc'.forrest = bc.forrest ∧ ∀ blocks, r = .ok blocks → blocks = ([], [])) ↔
      ∀ b, bc.forrest.getVertex id = some b → b.level ≤ bc.forrest.lowestLevel := by
  rcases commitBlock_ok h with ⟨hnone, rfl, rfl⟩ | ⟨block, path, res, hb, hpath, hprune, -, hr⟩
  · simp [hnone]
  · simp only [hb, Option.some.injEq, forall_eq']
    rcases UInt64.lt_or_le bc.forrest.lowestLevel block.level with habove | hle
    · refine iff_of_false ?_ (UInt64.not_le.mpr habove)
      rintro ⟨hsame, -⟩
      rcases LevelledForest.pruneUpToLevel_lowestLevel hprune with ⟨⟨e, rfl⟩, -⟩ | ⟨-, -, hlow⟩
      · exact UInt64.lt_asymm habove (pruneUpToLevel_error hprune).1
      · rw [hsame] at hlow
        rw [hlow] at habove
        exact UInt64.lt_irrefl _ habove
    · refine iff_of_true ?_ hle
      have hempty : path = [] := by
        rcases committedPath_ok hpath with ⟨-, hempty⟩ | ⟨habove, -⟩
        · exact hempty
        · exact absurd hle (UInt64.not_le.mpr habove)
      subst hempty
      rcases hr with ⟨e, rfl, rfl⟩ | ⟨forked, prunedNo, rfl, rfl⟩
      · exact ⟨(pruneUpToLevel_error hprune).2, by simp⟩
      · have hlevel : block.level = bc.forrest.lowestLevel := by
          rcases LevelledForest.pruneUpToLevel_lowestLevel hprune with ⟨⟨e, he⟩, -⟩ | ⟨-, hge, -⟩
          · cases he
          · exact UInt64.le_antisymm hle hge
        rw [hlevel] at hprune
        obtain ⟨hres, hf⟩ := LevelledForest.pruneUpToLevel_lowest hprune
        cases hres
        exact ⟨hf, by simp⟩

/-! ## Failed commits -/

/-- Something holds of every call of a run that returns. -/
def Throughout (env : Env) (P : BlockChain → ChainOp → BlockChain → Prop) (bc : BlockChain) :
    List ChainOp → Prop
  | [] => True
  | op :: ops => ∀ bc', bc.apply env op = .ok bc' → P bc op bc' ∧ Throughout env P bc' ops

/-- A call that fails changes nothing, and `highestComitted` does not decrease. -/
def CleanCall (bc : BlockChain) (op : ChainOp) (bc' : BlockChain) : Prop :=
  (∀ id view e, op = .commitBlock id view →
    bc.commitBlock id view = .ok (.error e, bc') → bc' = bc) ∧
  bc.highestComitted ≤ bc'.highestComitted

/-- If the call commits a stored block, its view is not negative and its level not
below the lowest one. -/
def ForwardCall (bc : BlockChain) (op : ChainOp) (_ : BlockChain) : Prop :=
  ∀ id view b, op = .commitBlock id view → bc.forrest.getVertex id = some b →
    0 ≤ b.view ∧ bc.forrest.lowestLevel ≤ b.level

/-- The lowest level is that of the block committed last. -/
structure Levelled (bc : BlockChain) : Prop where
  sound : bc.forrest.Sound
  nonneg : 0 ≤ bc.highestComitted
  level : bc.forrest.lowestLevel = bc.highestComitted.toUInt64

theorem levelled_new (n : ℕ) : (new n).Levelled :=
  ⟨LevelledForest.sound_new, Int64.le_refl 0, rfl⟩

theorem clean_forward_of_ne {bc bc' : BlockChain} {op : ChainOp}
    (hop : ∀ id view, op ≠ .commitBlock id view)
    (hhigh : bc'.highestComitted = bc.highestComitted) :
    CleanCall bc op bc' ∧ ForwardCall bc op bc' := by
  refine ⟨⟨fun id view e h => absurd h (hop id view), ?_⟩,
    fun id view b h => absurd h (hop id view)⟩
  rw [hhigh]
  exact Int64.le_refl _

/-- Above the lowest level only a negative view is below the last committed one. -/
theorem Levelled.highestComitted_le_iff {bc : BlockChain} (hbc : bc.Levelled) {b : Block}
    (hlow : bc.forrest.lowestLevel ≤ b.level) : bc.highestComitted ≤ b.view ↔ 0 ≤ b.view := by
  have hzero : (0 : View).toInt = 0 := rfl
  have hnonneg := Int64.le_iff_toInt_le.mp hbc.nonneg
  have hlevel : (bc.forrest.lowestLevel.toNat : ℤ) = bc.highestComitted.toInt := by
    rw [hbc.level]
    exact toNat_toUInt64 hbc.nonneg
  have hle := UInt64.le_iff_toNat_le.mp hlow
  rw [Int64.le_iff_toInt_le, Int64.le_iff_toInt_le]
  constructor
  · intro hview
    omega
  · intro hview
    have hnat : (b.level.toNat : ℤ) = b.view.toInt :=
      toNat_toUInt64 (Int64.le_iff_toInt_le.mpr hview)
    omega

theorem cleanCall_commitBlock {bc bc' : BlockChain} {id : Identifier} {view : View}
    {r : Except Err (List Block × List Block)} (h : bc.commitBlock id view = .ok (r, bc')) :
    CleanCall bc (.commitBlock id view) bc' ↔
      (∀ e, r = .error e → bc' = bc) ∧ bc.highestComitted ≤ bc'.highestComitted := by
  refine and_congr_left fun _ => ⟨fun hclean e he => ?_, fun hclean id' view' e hop he => ?_⟩
  · exact hclean id view e rfl (he ▸ h)
  · cases hop
    rw [h] at he
    cases he
    exact hclean e rfl

theorem forwardCall_commitBlock {bc bc' : BlockChain} {id : Identifier} {view : View} :
    ForwardCall bc (.commitBlock id view) bc' ↔ ∀ b, bc.forrest.getVertex id = some b →
      0 ≤ b.view ∧ bc.forrest.lowestLevel ≤ b.level := by
  refine ⟨fun hforward b hb => hforward id view b rfl hb, fun hforward id' view' b hop hb => ?_⟩
  cases hop
  exact hforward b hb

/-- A commit that returns is clean exactly if it goes forward. -/
theorem Levelled.commitBlock {bc bc' : BlockChain} (hbc : bc.Levelled) {id : Identifier}
    {view : View} {r : Except Err (List Block × List Block)}
    (h : bc.commitBlock id view = .ok (r, bc')) :
    (CleanCall bc (.commitBlock id view) bc' ↔ ForwardCall bc (.commitBlock id view) bc') ∧
      (ForwardCall bc (.commitBlock id view) bc' → bc'.Levelled) := by
  have hsound := (commitBlock_forgets h).1.sound hbc.sound
  rw [cleanCall_commitBlock h, forwardCall_commitBlock]
  rcases commitBlock_counters h with
    ⟨hnone, -, rfl⟩ | ⟨b, hb, ⟨hlow, ⟨e, rfl⟩, rfl⟩ | ⟨path, forked, no, rfl, hprune, hhigh, -⟩⟩
  · simp [hnone, hbc]
  · -- here nothing but the view is written, and it is not the one that was there
    have hdirty : ({ bc with highestComitted := b.view } : BlockChain) ≠ bc := by
      intro hsame
      have hview : b.view = bc.highestComitted := congrArg highestComitted hsame
      rw [hbc.level, ← hview] at hlow
      exact UInt64.lt_irrefl _ hlow
    have hnotForward := fun hforward : ∀ b', bc.forrest.getVertex id = some b' →
        0 ≤ b'.view ∧ bc.forrest.lowestLevel ≤ b'.level =>
      UInt64.not_le.mpr hlow (hforward b hb).2
    exact ⟨iff_of_false (fun hclean => hdirty (hclean.1 e rfl)) hnotForward,
      fun hforward => absurd hforward hnotForward⟩
  · rcases LevelledForest.pruneUpToLevel_lowestLevel hprune with ⟨⟨e, he⟩, -⟩ | ⟨-, hlow, hlow'⟩
    · cases he
    · have hforward : (∀ b', bc.forrest.getVertex id = some b' →
          0 ≤ b'.view ∧ bc.forrest.lowestLevel ≤ b'.level) ↔ 0 ≤ b.view := by
        simp [hb, hlow]
      rw [hforward, hhigh, hbc.highestComitted_le_iff hlow]
      refine ⟨by simp, fun hview => ⟨hsound, hhigh ▸ hview, ?_⟩⟩
      rw [hlow', hhigh, Block.level]

theorem Levelled.apply {env : Env} {bc bc' : BlockChain} (hbc : bc.Levelled) {op : ChainOp}
    (h : bc.apply env op = .ok bc') :
    (CleanCall bc op bc' ↔ ForwardCall bc op bc') ∧ (ForwardCall bc op bc' → bc'.Levelled) := by
  cases op with
  | addBlock b =>
    obtain ⟨f, hf, rfl⟩ := addBlock_ok h
    obtain ⟨hsound, hlow, -⟩ := LevelledForest.addVertex_spec hbc.sound hf
    obtain ⟨hclean, hforward⟩ := @clean_forward_of_ne bc { bc with forrest := f } (.addBlock b)
      (by simp) rfl
    exact ⟨iff_of_true hclean hforward, fun _ => ⟨hsound, hbc.nonneg, hlow.trans hbc.level⟩⟩
  | addVote vote =>
    cases h
    obtain ⟨hclean, hforward⟩ := @clean_forward_of_ne bc (bc.addVote env vote).2 (.addVote vote)
      (by simp) rfl
    exact ⟨iff_of_true hclean hforward, fun _ => ⟨hbc.sound, hbc.nonneg, hbc.level⟩⟩
  | commitBlock id view =>
    obtain ⟨⟨r, bc₁⟩, hr, rfl⟩ := exists_of_map_eq_ok h
    exact hbc.commitBlock hr

theorem Levelled.throughout_iff {env : Env} {bc : BlockChain} (hbc : bc.Levelled)
    (ops : List ChainOp) : Throughout env CleanCall bc ops ↔ Throughout env ForwardCall bc ops := by
  induction ops generalizing bc with
  | nil => exact Iff.rfl
  | cons op ops ih =>
    refine forall_congr' fun bc' => imp_congr_right fun h => ?_
    obtain ⟨hiff, hnext⟩ := hbc.apply h
    rw [hiff]
    exact and_congr_right fun hforward => ih (hnext hforward)

end BlockChain

/-- Whatever blocks are added and whatever votes come in, all failed commits leave
the block chain as it was and `highestComitted` never decreases, exactly if no
stored block of a negative view or below the lowest level is committed. -/
theorem commits_clean_iff (env : Env) (ops : List ChainOp) :
    BlockChain.Throughout env BlockChain.CleanCall (BlockChain.new env.n) ops ↔
      BlockChain.Throughout env BlockChain.ForwardCall (BlockChain.new env.n) ops :=
  (BlockChain.levelled_new env.n).throughout_iff ops

/-- A block of view 4 fills the container that its child has made at level 9, and
stays there when the blocks below view 6 are pruned. Its commit fails and turns
`highestComitted` back from 6 to 4. -/
theorem commit_fails_dirty :
    ((BlockChain.new fourNodes.n).run fourNodes [.addBlock (.onView 10 9),
      .addBlock { Block.onView 4 1 with id := 9 }, .addBlock (.onView 6 0),
      .commitBlock 6 7]).map (fun bc => (bc.highestComitted, (bc.commitBlock 9 11).map
        fun r => (r.1.toBool, r.2.highestComitted))) = .ok (6, .ok (false, 4)) := by
  decide +kernel

/-! ## Pruned containers -/

namespace LevelledForest

theorem foldl_pruneContainer_prunedNo (committed : List UInt64) (l : UInt64) (p : Pruning)
    (as : List ℕ) :
    (as.foldl (pruneContainer committed l) p).prunedNo = p.prunedNo + as.length := by
  induction as generalizing p with
  | nil => rfl
  | cons a as ih =>
    rw [List.foldl_cons, ih, List.length_cons]
    simp only [pruneContainer]
    omega

theorem pruneLevel_prunedNo (committed : List UInt64) (p : Pruning) (l : UInt64) :
    (pruneLevel committed p l).prunedNo = p.prunedNo + (p.forest.atLevel l).length :=
  foldl_pruneContainer_prunedNo committed l p _

theorem foldl_pruneLevel_prunedNo {f : LevelledForest} (hf : f.Coherent) (committed : List UInt64)
    {ls : List UInt64} (hls : ls.Nodup) :
    (ls.foldl (pruneLevel committed) ⟨f, [], 0⟩).prunedNo =
      (ls.map fun l => (f.atLevel l).length).sum := by
  induction ls using List.reverseRecOn with
  | nil => rfl
  | append_singleton ls l ih =>
    have hnodup : (l :: ls).Nodup := (List.perm_append_singleton l ls).nodup_iff.mp hls
    obtain ⟨hl, hls⟩ := List.nodup_cons.mp hnodup
    have hat := (foldl_pruned hf committed hls).atLevel l
    rw [if_neg hl] at hat
    rw [List.foldl_append, List.foldl_cons, List.foldl_nil, pruneLevel_prunedNo, ih hls, hat]
    simp

theorem pruneUpToLevel_prunedNo {f f' : LevelledForest} (hf : f.Coherent) {level : UInt64}
    {forked : List Block} {prunedNo : ℕ}
    (h : f.pruneUpToLevel level = .ok (.ok (forked, prunedNo), f')) :
    prunedNo = ((f.levelsBelow level).map fun l => (f.atLevel l).length).sum := by
  unfold pruneUpToLevel at h
  split_ifs at h with hl
  · cases h
  · cases hc : f.committedLevels (f.verticesAtLevel.entries.length + 1) level with
    | error e => rw [hc] at h; cases h
    | ok committed =>
      rw [hc] at h
      cases h
      exact foldl_pruneLevel_prunedNo hf committed (f.nodup_levelsBelow level)

/-- Stored blocks below the level have containers of their own to be pruned. -/
theorem Fits.card_le_prunedNo {U : Set Block} (hU : OnePerView U) {f f' : LevelledForest}
    (hf : f.Fits U) {level : UInt64} {forked : List Block} {prunedNo : ℕ}
    (h : f.pruneUpToLevel level = .ok (.ok (forked, prunedNo), f')) {B : Finset Block}
    (hB : ∀ x ∈ B, f.Stored x ∧ x.level < level) : B.card ≤ prunedNo := by
  have hinj : Set.InjOn Block.level B := by
    intro x hx y hy heq
    exact hU.eq_of_level (hf.mem_of_getVertex (hB x hx).1).1 (hf.mem_of_getVertex (hB y hy).1).1 heq
  have hlevels : B.image Block.level ⊆ (f.levelsBelow level).toFinset := by
    intro l hl
    obtain ⟨x, hx, rfl⟩ := Finset.mem_image.mp hl
    obtain ⟨-, -, -, -, hlow⟩ := hf.container_of_stored hU.treelike (hB x hx).1
    exact List.mem_toFinset.mpr (mem_levelsBelow.mpr ⟨hlow, (hB x hx).2⟩)
  have hpos : ∀ l ∈ B.image Block.level, 1 ≤ (f.atLevel l).length := by
    intro l hl
    obtain ⟨x, hx, rfl⟩ := Finset.mem_image.mp hl
    obtain ⟨a, ha, -⟩ := hf.container_of_stored hU.treelike (hB x hx).1
    exact List.length_pos_of_mem ha
  calc B.card = (B.image Block.level).card := (Finset.card_image_of_injOn hinj).symm
    _ = ∑ l ∈ B.image Block.level, 1 := by simp
    _ ≤ ∑ l ∈ B.image Block.level, (f.atLevel l).length := Finset.sum_le_sum hpos
    _ ≤ ∑ l ∈ (f.levelsBelow level).toFinset, (f.atLevel l).length :=
      Finset.sum_le_sum_of_subset hlevels
    _ = prunedNo := by
      rw [pruneUpToLevel_prunedNo hf.toCoherent h,
        List.sum_toFinset _ (f.nodup_levelsBelow level)]

end LevelledForest

namespace BlockChain

/-- The committed blocks have been pruned, but for the head, as long as a block of
the lowest level is stored. -/
structure Accounted (bc : BlockChain) : Prop where
  withHead : bc.committedBlockNo ≤ bc.prunedBlockNo + 1
  without : (∀ x, bc.forrest.Stored x → x.level ≠ bc.forrest.lowestLevel) →
    bc.committedBlockNo ≤ bc.prunedBlockNo

theorem commitBlock_counts {bc bc' : BlockChain} {id : Identifier} {view : View} {b : Block}
    {committed forked : List Block} (hb : bc.forrest.getVertex id = some b)
    (h : bc.commitBlock id view = .ok (.ok (committed, forked), bc')) :
    ∃ prunedNo, bc.forrest.pruneUpToLevel b.level = .ok (.ok (forked, prunedNo), bc'.forrest) ∧
      bc'.committedBlockNo = bc.committedBlockNo + committed.length ∧
      bc'.prunedBlockNo = bc.prunedBlockNo + prunedNo := by
  rcases commitBlock_counters h with ⟨-, ⟨e, he⟩, -⟩ | ⟨b', hb', hr⟩
  · cases he
  · obtain rfl : b = b' := Option.some.inj (hb.symm.trans hb')
    rcases hr with ⟨-, ⟨e, he⟩, -⟩ | ⟨path, forked', prunedNo, hr, hprune, -, hcommitted, hpruned⟩
    · cases he
    · cases hr
      exact ⟨prunedNo, hprune, hcommitted, hpruned⟩

/-- The committed blocks are stored below the head, the head itself apart, and above the
lowest level. -/
theorem below_of_commits {U : Set Block} (hU : OnePerView U) {f f' : LevelledForest}
    (hf : f.Fits U) {b : Block} (hstored : f.Stored b) {committed forked : List Block}
    (hc : LevelledForest.Commits f b committed forked f') {x : Block} (hx : x ∈ committed) :
    f.Stored x ∧ (x = b ∨ x.level < b.level) ∧ f.lowestLevel < x.level := by
  obtain ⟨hjoined, habove⟩ := (hc.committed_iff x).mp hx
  obtain ⟨hx, hle⟩ := hf.joined hU.treelike hstored hjoined
  exact ⟨hx, hle, habove⟩

/-- A commit counts its path, and prunes the path without its head and the block of
the old lowest level. -/
theorem Accounted.commitBlock {U : Set Block} (hU : OnePerView U) {bc bc' : BlockChain}
    (hf : bc.forrest.Fits U) (h : bc.Accounted) {id : Identifier} {view : View} {b : Block}
    {committed forked : List Block} (hb : bc.forrest.getVertex id = some b)
    (hcommit : bc.commitBlock id view = .ok (.ok (committed, forked), bc'))
    (hc : LevelledForest.Commits bc.forrest b committed forked bc'.forrest) :
    bc'.committedBlockNo ≤ bc'.prunedBlockNo + 1 := by
  have hstored := hf.stored_of_getVertex hb
  have hhead := h.withHead
  obtain ⟨prunedNo, hprune, hcommitted, hpruned⟩ := commitBlock_counts hb hcommit
  by_cases hlow : bc.forrest.lowestLevel < b.level
  · have hmem : b ∈ committed := (hc.committed_iff b).mpr ⟨.refl, hlow⟩
    have hcard : (committed.toFinset.erase b).card + 1 = committed.length := by
      rw [Finset.card_erase_add_one (List.mem_toFinset.mpr hmem),
        List.toFinset_card_of_nodup hc.committed_nodup]
    have hrest : ∀ x ∈ committed.toFinset.erase b,
        bc.forrest.Stored x ∧ x.level < b.level ∧ bc.forrest.lowestLevel < x.level := by
      intro x hx
      obtain ⟨hne, hx⟩ := Finset.mem_erase.mp hx
      obtain ⟨hx, hle, habove⟩ := below_of_commits hU hf hstored hc (List.mem_toFinset.mp hx)
      exact ⟨hx, hle.resolve_left hne, habove⟩
    by_cases hold : ∃ x, bc.forrest.Stored x ∧ x.level = bc.forrest.lowestLevel
    · -- the old head is pruned together with the path
      obtain ⟨x, hx, hlevel⟩ := hold
      have hnew : x ∉ committed.toFinset.erase b := by
        intro hmem
        exact UInt64.lt_irrefl _ (hlevel ▸ (hrest x hmem).2.2)
      have hle := hf.card_le_prunedNo hU hprune (B := insert x (committed.toFinset.erase b))
        (by
          intro y hy
          rcases Finset.mem_insert.mp hy with rfl | hy
          · exact ⟨hx, by rwa [hlevel]⟩
          · exact ⟨(hrest y hy).1, (hrest y hy).2.1⟩)
      rw [Finset.card_insert_of_notMem hnew] at hle
      omega
    · have hnone := h.without fun x hx hlevel => hold ⟨x, hx, hlevel⟩
      have hle := hf.card_le_prunedNo hU hprune (B := committed.toFinset.erase b)
        fun y hy => ⟨(hrest y hy).1, (hrest y hy).2.1⟩
      omega
  · have hnil : committed = [] := by
      refine List.eq_nil_iff_forall_not_mem.mpr fun x hx => ?_
      obtain ⟨-, rfl | hlt, habove⟩ := below_of_commits hU hf hstored hc hx
      · exact hlow habove
      · exact hlow (UInt64.lt_trans habove hlt)
    rw [hnil, List.length_nil] at hcommitted
    omega

/-- The committed block is stored at the new lowest level. -/
theorem stored_of_commits {U : Set Block} (hU : OnePerView U) {f f' : LevelledForest}
    (hf : f.Fits U) {b : Block} (hb : f.Stored b) {committed forked : List Block}
    (hc : LevelledForest.Commits f b committed forked f') : f'.Stored b := by
  obtain ⟨a, hmem, hv, ha, -⟩ := hf.container_of_stored hU.treelike hb
  obtain ⟨c, hheap, hlevel⟩ := (hf.exists_atLevel_iff ha b.level).mp ⟨_, hmem, UInt64.le_refl _⟩
  refine LevelledForest.getVertex_eq_some.mpr ⟨a, ?_, ?_⟩
  · exact (hc.vertices b.id a).mpr ⟨ha, c, hheap, hlevel⟩
  · rw [LevelledForest.vertexAt, hc.heap]
    exact hv

theorem Accounted.step {U : Set Block} (hU : OnePerView U) {s s' : Session}
    (hf : s.chain.forrest.Fits U) (h : s.chain.Accounted) {c : ChainCall}
    (hs : Session.Step U s c s') : s'.chain.Accounted := by
  cases hs with
  | addBlock _ hlow hkept _ =>
    refine ⟨h.withHead, fun hnone => h.without fun x hx hlevel => ?_⟩
    exact hnone x (hkept x hx) (hlevel.trans hlow.symm)
  | missing => exact h
  | commit hb hcommit hc =>
    refine ⟨h.commitBlock hU hf hb hcommit hc, fun hnone => ?_⟩
    have hstored := stored_of_commits hU hf (hf.stored_of_getVertex hb) hc
    exact absurd hc.lowestLevel.symm (hnone _ hstored)

end BlockChain

/-- On blocks of a well-formed set, one for each view, the chain growth is at most one. -/
theorem chainGrowth_le_one {U : Set Block} (hU : OnePerView U) (n : ℕ) {calls : List ChainCall}
    (hcalls : ∀ b, .addBlock b ∈ calls → b ∈ U) :
    ∃ s, (Session.new n).run calls = .ok s ∧
      s.chain.committedBlockNo ≤ s.chain.prunedBlockNo + 1 ∧ s.chain.getChainGrowth ≤ 1 := by
  obtain ⟨s, hrun, -, hs⟩ := Session.run_invariant hU n (J := fun _ s => s.chain.Accounted)
    ⟨by simp [Session.new, BlockChain.new], fun _ => Nat.le_refl 0⟩
    (fun _ _ _ _ _ _ hf hstep h => h.step hU hf hstep) hcalls
  refine ⟨s, hrun, hs.withHead, ?_⟩
  rw [BlockChain.getChainGrowth, div_le_one (by positivity)]
  exact_mod_cast hs.withHead

theorem chainGrowth_le_one_fork : ∃ s, (Session.new 4).run orphanAndFork = .ok s ∧
    s.chain.committedBlockNo = 4 ∧ s.chain.prunedBlockNo = 5 ∧ s.chain.getChainGrowth ≤ 1 := by
  have hU : OnePerView (addedBlocks orphanAndFork) := onePerView_of_list (by decide)
  obtain ⟨s, hrun, -, hgrowth⟩ := chainGrowth_le_one hU 4 fun _ => mem_addedBlocks
  have heval : Except.map (fun s => (s.chain.committedBlockNo, s.chain.prunedBlockNo))
      (Except.ok s : Except Fault Session) = .ok (4, 5) := by
    rw [← hrun]
    decide +kernel
  have hcounts := Except.ok.inj heval
  exact ⟨s, hrun, congrArg Prod.fst hcounts, congrArg Prod.snd hcounts, hgrowth⟩

end Bamboo
