import Bamboo.Library.Yields
import Bamboo.Safety

/-!
# More fuel

The fuel of a handler bounds how deep its calls may be nested. A handler that
returns does the same with more fuel, so the bound is no part of what the handlers
compute. The argument is one for all three protocols: whatever calls back into
`ProcessBlock` goes at least as far when that does.
-/
namespace Bamboo

section Circle

variable {env : Env} {rules : Rules} {processBlock processBlock' : Block → Exec (Option Err)}
  (hb : ∀ b, Yields (processBlock b) (processBlock' b))
include hb

theorem takeUpBuffered_yields (view : View) :
    Yields (takeUpBuffered processBlock view) (takeUpBuffered processBlock' view) := by
  refine Yields.then_bind fun s => ?_
  cases s.bufferedBlocks.lookup (view - 1) with
  | none => exact .refl _
  | some block => exact Yields.then_bind fun _ => (hb block).bind fun _ => .refl _

theorem processVMOAndBlock_yields (view : View) :
    Yields (processVMOAndBlock env processBlock view)
      (processVMOAndBlock env processBlock' view) := by
  refine Yields.then_bind fun s => ?_
  cases s.recivedVMO.lookup (view - 1) with
  | none => exact .refl _
  | some vmo => exact (takeUpBuffered_yields hb view).bind fun _ => .refl _

/-- A kept message that comes up next is handled with one unit less. -/
theorem processRemoteVmo_yields {k k' : ℕ} (hk : k ≤ k') (vmo : VMO) :
    Yields (processRemoteVmo env rules processBlock k vmo)
      (processRemoteVmo env rules processBlock' k' vmo) := by
  induction k generalizing k' vmo with
  | zero => exact .throw
  | succ k ih =>
    obtain ⟨k', rfl⟩ := Nat.exists_eq_add_of_le' hk
    have hle : k ≤ k' + k := by omega
    refine Yields.then_bind fun s => Yields.ite (.refl _) ?_
    refine Yields.then_bind fun _ => Yields.then_bind fun cur => Yields.ite (.refl _) ?_
    refine (processVMOAndBlock_yields hb vmo.view).bind fun moved => Yields.ite ?_ (.refl _)
    refine Yields.then_bind fun t => ?_
    cases t.recivedVMO.lookup vmo.view with
    | none => exact .refl _
    | some next => exact ih hle next

theorem processLocalVmo_yields {k k' : ℕ} (hk : k ≤ k') (view : View) :
    Yields (processLocalVmo env rules processBlock k view)
      (processLocalVmo env rules processBlock' k' view) :=
  Yields.then_bind fun _ => Yields.then_bind fun _ => processRemoteVmo_yields hb hk _

theorem processVote_yields {k k' : ℕ} (hk : k ≤ k') (vote : Vote) :
    Yields (processVote env rules processBlock k vote)
      (processVote env rules processBlock' k' vote) := by
  refine Yields.then_bind fun r => ?_
  cases r with
  | none => exact .refl _
  | some qc =>
    refine Yields.then_bind fun s => ?_
    cases s.bc.getBlockByID qc.blockID with
    | error e => exact .refl _
    | ok b =>
      refine Yields.then_bind fun _ => Yields.then_bind fun view => ?_
      exact processLocalVmo_yields hb hk view

theorem processBufferedQC_yields {k k' : ℕ} (hk : k ≤ k') (block : Block) :
    Yields (processBufferedQC env rules processBlock k block)
      (processBufferedQC env rules processBlock' k' block) := by
  refine Yields.then_bind fun s => ?_
  cases s.bufferedQCs.lookup block.id with
  | none => exact .refl _
  | some qc =>
    refine Yields.then_bind fun _ => Yields.then_bind fun _ => Yields.then_bind fun t => ?_
    exact Yields.ite (processLocalVmo_yields hb hk block.view) (.refl _)

theorem castVote_yields {k k' : ℕ} (hk : k ≤ k') (block : Block) :
    Yields (castVote env rules processBlock k block)
      (castVote env rules processBlock' k' block) := by
  refine Yields.then_bind fun s => Yields.then_bind fun vote => Yields.then_bind fun _ => ?_
  exact Yields.ite (processVote_yields hb hk vote) (.refl _)

theorem takeUp_yields (block : Block) :
    Yields (takeUp env processBlock block) (takeUp env processBlock' block) := by
  refine Yields.then_bind fun early => Yields.ite (.refl _) ?_
  exact (processVMOAndBlock_yields hb block.view).bind fun _ => .refl _

theorem hotStuff_takeUpNext_yields (view : View) :
    Yields (HotStuff.takeUpNext processBlock view) (HotStuff.takeUpNext processBlock' view) := by
  refine Yields.then_bind fun s => ?_
  cases s.bufferedBlocks.lookup view with
  | none => exact .refl _
  | some b => exact (hb b).bind fun _ => .refl _

theorem twoChain_takeUpNext_yields (view : View) :
    Yields (TwoChain.takeUpNext processBlock view) (TwoChain.takeUpNext processBlock' view) := by
  refine Yields.then_bind fun s => ?_
  cases s.bufferedBlocks.lookup view with
  | none => exact .refl _
  | some b => exact hb b

end Circle

theorem hotStuff_processBlock_yields (env : Env) {k k' : ℕ} (hk : k ≤ k') (block : Block) :
    Yields (HotStuff.processBlock env k block) (HotStuff.processBlock env k' block) := by
  induction k generalizing k' block with
  | zero => exact .throw
  | succ k ih =>
    obtain ⟨k', rfl⟩ := Nat.exists_eq_add_of_le' hk
    have hle : k ≤ k' + k := by omega
    have hb : ∀ b, Yields (HotStuff.processBlock env k b) (HotStuff.processBlock env (k' + k) b) :=
      ih hle
    refine (takeUp_yields hb block).bind fun taken => Yields.ite ?_ (.refl _)
    cases block.qc with
    | none => exact .refl _
    | some qc =>
      refine Yields.then_bind fun _ => Yields.ite (.refl _) (Yields.then_bind fun _ => ?_)
      refine (processBufferedQC_yields hb hle block).bind fun _ => Yields.then_bind fun s => ?_
      refine Yields.then_bind fun r => ?_
      rcases r with e | _ | _
      · exact .refl _
      · exact .refl _
      · refine (castVote_yields hb hle block).bind fun _ => ?_
        exact hotStuff_takeUpNext_yields hb block.view

theorem tchs_processBlock_yields (env : Env) {k k' : ℕ} (hk : k ≤ k') (block : Block) :
    Yields (Tchs.processBlock env k block) (Tchs.processBlock env k' block) := by
  induction k generalizing k' block with
  | zero => exact .throw
  | succ k ih =>
    obtain ⟨k', rfl⟩ := Nat.exists_eq_add_of_le' hk
    have hle : k ≤ k' + k := by omega
    have hb : ∀ b, Yields (Tchs.processBlock env k b) (Tchs.processBlock env (k' + k) b) := ih hle
    refine (takeUp_yields hb block).bind fun taken => Yields.ite ?_ (.refl _)
    cases block.qc with
    | none => exact .refl _
    | some qc =>
      refine Yields.then_bind fun _ => Yields.ite (.refl _) (Yields.then_bind fun _ => ?_)
      refine Yields.then_bind fun failed => ?_
      cases failed with
      | some e => exact .refl _
      | none =>
        refine (processBufferedQC_yields hb hle block).bind fun _ => Yields.then_bind fun s => ?_
        refine Yields.then_bind fun r => ?_
        rcases r with e | _ | _
        · exact .refl _
        · exact .refl _
        · refine (castVote_yields hb hle block).bind fun _ => ?_
          exact twoChain_takeUpNext_yields hb block.view

theorem fhs_processBlock_yields (env : Env) {k k' : ℕ} (hk : k ≤ k') (block : Block) :
    Yields (Fhs.processBlock env k block) (Fhs.processBlock env k' block) := by
  induction k generalizing k' block with
  | zero => exact .throw
  | succ k ih =>
    obtain ⟨k', rfl⟩ := Nat.exists_eq_add_of_le' hk
    have hle : k ≤ k' + k := by omega
    have hb : ∀ b, Yields (Fhs.processBlock env k b) (Fhs.processBlock env (k' + k) b) := ih hle
    refine (takeUp_yields hb block).bind fun taken => Yields.ite ?_ (.refl _)
    refine Yields.then_bind fun _ => Yields.then_bind fun s => Yields.then_bind fun r => ?_
    rcases r with e | _ | _
    · exact .refl _
    · exact .refl _
    cases block.qc with
    | none => exact .refl _
    | some qc =>
      refine Yields.then_bind fun _ => Yields.ite (.refl _) (Yields.then_bind fun failed => ?_)
      cases failed with
      | some e => exact .refl _
      | none =>
        refine (processBufferedQC_yields hb hle block).bind fun _ => ?_
        refine (castVote_yields hb hle block).bind fun _ => ?_
        exact twoChain_takeUpNext_yields hb block.view

theorem handleInput_yields (env : Env) (alg : Algorithm) {k k' : ℕ} (hk : k ≤ k') (i : Input) :
    Yields (handleInput env alg k i) (handleInput env alg k' i) := by
  have hb : ∀ b, Yields (Safety.processBlock env alg k b) (Safety.processBlock env alg k' b) := by
    intro b
    cases alg with
    | hotStuff => exact hotStuff_processBlock_yields env hk b
    | tchs => exact tchs_processBlock_yields env hk b
    | fhs => exact fhs_processBlock_yields env hk b
  cases i with
  | deliver m =>
    cases m with
    | block b => exact (hb b).bind fun _ => .refl _
    | vote v => exact processVote_yields hb hk v
    | tmo t => exact .refl _
    | vmo v => exact processRemoteVmo_yields hb hk v
  | _ => exact .refl _

end Bamboo
