import Bamboo.Replica

/-!
# Two-chain HotStuff and Fast-HotStuff

Both commit the parent of a certified block as soon as a block of the next view
carries the certificate, and both test this in `ProcessBlock`. They differ in
the rest: two-chain HotStuff has its voting rule commented out and votes for
every block of a leader; Fast-HotStuff votes by the lock, but drops every
certificate older than the current view before the lock is raised.
-/
namespace Bamboo

namespace TwoChain

/-- `commitRule` of both packages: the parent of the certified block, when it
is one view below the view in the QC. -/
def commitRule (bc : BlockChain) (qc : QC) : Except Fault (Except Err (Option Block)) := do
  match ← bc.getParentBlock qc.blockID with
  | .error e => return .error (.cannotCommitAny e)
  | .ok parentBlock =>
    if parentBlock.view + 1 = qc.view then return .ok (some parentBlock) else return .ok none

/-- The section of `ProcessBlock` that checks the commit rule. -/
def checkCommit (block : Block) (qc : QC) : Exec (Option Err) := do
  if 2 ≤ qc.view ∧ qc.view + 1 = block.view then
    match ← call (commitRule (← get).bc qc) with
    | .ok (some b) =>
      match ← commit qc b with
      | .error _ => return some .cannotCommit
      | .ok _ => return none
    | _ => return none
  else return none

/-- The view is started before and again after the message is kept. -/
def keepVmo (vmo : VMO) : Exec Unit := do
  startView
  modify fun s => { s with recivedVMO := s.recivedVMO.insert (vmo.view - 1) vmo }
  startView

/-- The end of `ProcessBlock`: the buffered block of the next view is processed
and stays in the buffer; its result is returned. -/
def takeUpNext (processBlock : Block → Exec (Option Err)) (view : View) :
    Exec (Option Err) := do
  match (← get).bufferedBlocks.lookup view with
  | none => return none
  | some b => processBlock b

/-- Both propose on the highest certificate, with height and fork number zero. -/
def makeProposal (env : Env) (view : View) (payload : List Transaction) : Exec Block := do
  let s ← get
  call (makeBlock env view s.highQC s.highQC.blockID payload s.id s.isByz 0 0)

end TwoChain

namespace Tchs

/-- Raise the lock to the view of the certified block's parent. -/
def updatePreferredView (qc : QC) : Exec (Except Err Unit) := do
  if qc.view < 2 then return .ok ()
  else
    let s ← get
    match ← call (s.bc.getParentBlock qc.blockID) with
    | .error e => return .error (.cannotUpdate e)
    | .ok parentBlock =>
      modify fun s => s.raiseLock parentBlock.view
      return .ok ()

def processCertificate (env : Env) (qc : QC) : Exec Unit := do
  if ← call (quorumIsVerified env (← get).toCore qc) then
    match ← updatePreferredView qc with
    | .error _ => modify fun s => s.bufferQC qc
    | .ok _ => updateHighQC qc
  else pure ()

/-- The rule proper is commented out. -/
def votingRule (_ : Core) (_ : Block) : Except Fault (Except Err Bool) := .ok (.ok true)

def rules (env : Env) : Rules := ⟨TwoChain.keepVmo, processCertificate env, fun _ => getCurView⟩

def processBlock (env : Env) : ℕ → Block → Exec (Option Err)
  | 0, _ => throw .spin
  | fuel + 1, block => do
    if ← takeUp env (processBlock env fuel) block then
      match block.qc with
      | none => return some .missingQC
      | some qc =>
        processBlockQC (rules env) block qc
        if env.election.isLeader block.proposer block.view = false then
          return some (.invalidLeader block.view block.proposer)
        else
          addBlock block
          match ← TwoChain.checkCommit block qc with
          | some e => return some e
          | none =>
            processBufferedQC env (rules env) (processBlock env fuel) fuel block
            match ← call (votingRule (← get).toCore block) with
            | .error e => return some e
            | .ok false => return none
            | .ok true =>
              castVote env (rules env) (processBlock env fuel) fuel block
              TwoChain.takeUpNext (processBlock env fuel) block.view
    else return none

/-- A stale timeout is dropped; its certificate is never looked at. -/
def processRemoteTmo (tmo : TMO) : Exec Unit := do
  if tmo.view < (← getCurView) then pure () else countTmo tmo

end Tchs

namespace Fhs

/-- Raise the lock to the view of the certificate itself. -/
def updatePreferredView (qc : QC) : Exec (Except Err Unit) := do
  if qc.view < 2 then return .ok ()
  else
    let s ← get
    match s.bc.getBlockByID qc.blockID with
    | .error e => return .error (.cannotUpdate e)
    | .ok _ =>
      modify fun s => s.raiseLock qc.view
      return .ok ()

def processCertificate (env : Env) (qc : QC) : Exec Unit := do
  if qc.view < (← getCurView) then pure ()
  else if ← call (quorumIsVerified env (← get).toCore qc) then
    match ← updatePreferredView qc with
    | .error _ => modify fun s => s.bufferQC qc
    | .ok _ => updateHighQC qc
  else pure ()

/-- `lastVotedView` is compared with but never set. -/
def votingRule (s : Core) (block : Block) : Except Fault (Except Err Bool) :=
  if block.view ≤ 2 then .ok (.ok true)
  else do
    match ← s.bc.getParentBlock block.id with
    | .error e => return .error (.cannotVote e)
    | .ok parentBlock =>
      return .ok (decide (¬ (block.view ≤ s.lastVotedView ∨ parentBlock.view < s.preferredView)))

/-- The announced view is that of the certificate, not the current one. -/
def rules (env : Env) : Rules :=
  ⟨TwoChain.keepVmo, processCertificate env, fun qc => pure qc.view⟩

/-- The block is stored, and its vote decided, before its certificate is
looked at. The error text of an undecided vote reads the QC, which may be nil. -/
def processBlock (env : Env) : ℕ → Block → Exec (Option Err)
  | 0, _ => throw .spin
  | fuel + 1, block => do
    if ← takeUp env (processBlock env fuel) block then
      addBlock block
      match ← call (votingRule (← get).toCore block) with
      | .error e => if block.qc = none then throw .nilPointer else return some e
      | .ok false => return none
      | .ok true =>
        match block.qc with
        | none => return some .missingQC
        | some qc =>
          processBlockQC (rules env) block qc
          if env.election.isLeader block.proposer block.view = false then
            return some (.invalidLeader block.view block.proposer)
          else
            match ← TwoChain.checkCommit block qc with
            | some e => return some e
            | none =>
              processBufferedQC env (rules env) (processBlock env fuel) fuel block
              castVote env (rules env) (processBlock env fuel) fuel block
              TwoChain.takeUpNext (processBlock env fuel) block.view
    else return none

def processRemoteTmo (tmo : TMO) : Exec Unit := countTmo tmo

end Fhs

end Bamboo
