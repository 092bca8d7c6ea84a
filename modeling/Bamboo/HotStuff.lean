import Bamboo.Replica

/-!
# HotStuff

Three-chain HotStuff as it stands in the repository: a certificate raises the
lock to the view of its block's parent and commits the grandparent of a chain
of consecutive views. The voting rule looks at the lock only; nothing remembers
the views already voted in.
-/
namespace Bamboo.HotStuff

/-- Raise the lock to the view of the certified block's parent. -/
def updatePreferredView (qc : QC) : Exec (Except Err Unit) := do
  if qc.view ≤ 2 then return .ok ()
  else
    let s ← get
    match s.bc.getBlockByID qc.blockID with
    | .error e => return .error (.cannotUpdate e)
    | .ok _ =>
      match ← call (s.bc.getParentBlock qc.blockID) with
      | .error e => return .error (.cannotUpdate e)
      | .ok grandParentBlock =>
        modify fun s => s.raiseLock grandParentBlock.view
        return .ok ()

/-- The block to commit, when the certified block ends a chain of three
consecutive views. The last of the three is the view written in the QC. -/
def commitRule (bc : BlockChain) (qc : QC) : Except Fault (Except Err (Option Block)) := do
  match ← bc.getParentBlock qc.blockID with
  | .error e => return .error (.cannotCommitAny e)
  | .ok parentBlock =>
    match ← bc.getParentBlock parentBlock.id with
    | .error e => return .error (.cannotCommitAny e)
    | .ok grandParentBlock =>
      if grandParentBlock.view + 1 = parentBlock.view ∧ parentBlock.view + 1 = qc.view then
        return .ok (some grandParentBlock)
      else return .ok none

/-- The end of `processCertificate`: commit if the rule names a block. -/
def checkCommit (qc : QC) : Exec Unit := do
  if qc.view < 3 then pure ()
  else
    match ← call (commitRule (← get).bc qc) with
    | .ok (some block) => let _ ← commit qc block
    | _ => pure ()

def processCertificate (env : Env) (qc : QC) : Exec Unit := do
  if ← call (quorumIsVerified env (← get).toCore qc) then
    match ← updatePreferredView qc with
    | .error _ => modify fun s => s.bufferQC qc
    | .ok _ =>
      updateHighQC qc
      checkCommit qc
  else pure ()

def votingRule (s : Core) (block : Block) : Except Fault (Except Err Bool) :=
  if block.view ≤ 2 then .ok (.ok true)
  else do
    match ← s.bc.getParentBlock block.id with
    | .error e => return .error (.cannotVote e)
    | .ok parentBlock => return .ok (decide (¬ parentBlock.view < s.preferredView))

/-- The message is kept before the view is started. -/
def keepVmo (vmo : VMO) : Exec Unit := do
  modify fun s => { s with recivedVMO := s.recivedVMO.insert (vmo.view - 1) vmo }
  startView

def rules (env : Env) : Rules := ⟨keepVmo, processCertificate env, fun _ => getCurView⟩

/-- The end of `ProcessBlock`: the buffered block of the next view is processed
and dropped. -/
def takeUpNext (processBlock : Block → Exec (Option Err)) (view : View) :
    Exec (Option Err) := do
  match (← get).bufferedBlocks.lookup view with
  | none => return none
  | some b =>
    let _ ← processBlock b
    modify fun s => { s with bufferedBlocks := s.bufferedBlocks.erase view }
    return none

def processBlock (env : Env) : ℕ → Block → Exec (Option Err)
  | 0, _ => throw .spin
  | fuel + 1, block => do
    if ← takeUp env (processBlock env fuel) block then
      match block.qc with
      | none => return some .missingQC
      | some qc =>
        processBlockQC (rules env) block qc
        if env.election.isLeader block.proposer block.view = false then
          return some (.invalidLeader block.view block.proposer)
        else
          addBlock block
          processBufferedQC env (rules env) (processBlock env fuel) fuel block
          match ← call (votingRule (← get).toCore block) with
          | .error e => return some e
          | .ok false => return none
          | .ok true =>
            castVote env (rules env) (processBlock env fuel) fuel block
            takeUpNext (processBlock env fuel) block.view
    else return none

/-- The timeout's certificate is processed before it is counted. -/
def processRemoteTmo (env : Env) (tmo : TMO) : Exec Unit := do
  match tmo.highQC with
  | none => throw .nilPointer
  | some qc =>
    processCertificate env qc
    countTmo tmo

/-- The height is that of the certified block, if it is stored, plus one. -/
def makeProposal (env : Env) (view : View) (payload : List Transaction) : Exec Block := do
  let s ← get
  let height := match s.bc.getBlockByID s.highQC.blockID with
    | .ok parBlock => parBlock.height + 1
    | .error _ => s.height + 1
  call (makeBlock env view s.highQC s.highQC.blockID payload s.id s.isByz (-1) height)

end Bamboo.HotStuff
