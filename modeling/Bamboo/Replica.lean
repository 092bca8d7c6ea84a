import Bamboo.BlockChain
import Bamboo.Pacemaker

/-!
# What the protocols share

HotStuff, two-chain HotStuff and Fast-HotStuff keep the same record, up to a
field or two, and differ in how a certificate is processed, when a block is
voted for and when one is committed. The handlers below are the ones the three
packages repeat; they take the protocol's own part as `Rules`.

The handlers call one another in a circle: a block may bring up a buffered
block, a vote may complete a certificate, whose announcement may bring up
another block. The circle is cut at `ProcessBlock`, which is passed in, and at
the recursive call of `ProcessRemoteVmo`, by fuel. Running out of it stops the
handler where it is, so whatever is shown of every outcome, that one included,
holds at every point of a run.

`trace` is a ghost: it records, newest first and with the state at that point,
each block taken up for processing, each vote, each certificate built from
votes, each proposal and each commit.
-/
namespace Bamboo

structure Core where
  id : NodeID
  isByz : Bool
  pm : Pacemaker
  lastVotedView : View
  preferredView : View
  highQC : QC
  height : ℤ
  bc : BlockChain
  bufferedQCs : Map Identifier QC
  bufferedBlocks : Map View Block
  recivedVMO : Map View VMO
  recivedBlock : Map View Block

inductive Event
  | handle (core : Core) (b : Block)
  | vote (core : Core) (b : Block) (v : Vote)
  | propose (core : Core) (b : Block)
  | built (core : Core) (qc : QC)
  | commit (core : Core) (qc : QC) (head : Block) (committed : List Block)

/-- The channels to the application and to the network are histories of what
was sent on them; `entered` counts the new-view events already taken. -/
structure Replica extends Core where
  committedBlocks : List Block
  forkedBlocks : List Block
  outbox : List Envelope
  entered : ℕ
  crashed : Bool
  trace : List Event

def Replica.new (env : Env) (id : NodeID) (isByz : Bool) : Replica where
  id := id
  isByz := isByz
  pm := Pacemaker.new env.n
  lastVotedView := 0
  preferredView := 0
  highQC := QC.initial
  height := 0
  bc := BlockChain.new env.n
  bufferedQCs := ∅
  bufferedBlocks := ∅
  recivedVMO := ∅
  recivedBlock := ∅
  committedBlocks := []
  forkedBlocks := []
  outbox := []
  entered := 0
  crashed := false
  trace := []

abbrev Exec (α : Type) := EStateM Fault Replica α

/-! ## Primitive steps -/

/-- A call that may panic and leaves the replica as it is. -/
def call {α : Type} (e : Except Fault α) : Exec α :=
  match e with
  | .ok a => pure a
  | .error f => throw f

def Replica.record (s : Replica) (e : Event) : Replica := { s with trace := e :: s.trace }

def getCurView : Exec View := do return (← get).pm.curView

def advanceView (view : View) : Exec Unit :=
  modify fun s => { s with pm := s.pm.advanceView view }

def Replica.push (s : Replica) (dest : Option NodeID) (m : Msg) : Replica :=
  { s with outbox := s.outbox ++ [⟨dest, m⟩] }

def send (dest : NodeID) (m : Msg) : Exec Unit := modify fun s => s.push (some dest) m

def broadcast (m : Msg) : Exec Unit := modify fun s => s.push none m

/-- `if pm.GetCurView() < 1 { pm.AdvanceView(0) }`. -/
def startView : Exec Unit := do
  if (← getCurView) < 1 then advanceView 0

def Replica.raiseHighQC (s : Replica) (qc : QC) : Replica :=
  { s with highQC := if s.highQC.view < qc.view then qc else s.highQC }

def updateHighQC (qc : QC) : Exec Unit := modify fun s => s.raiseHighQC qc

/-- Raise `preferredView`, the lock of the voting rules. -/
def Replica.raiseLock (s : Replica) (view : View) : Replica :=
  { s with preferredView := if s.preferredView < view then view else s.preferredView }

def Replica.bufferQC (s : Replica) (qc : QC) : Replica :=
  { s with bufferedQCs := s.bufferedQCs.insert qc.blockID qc }

/-- The signature check at the head of `processCertificate`: a certificate that
names this replica as its leader is not checked. -/
def quorumIsVerified (env : Env) (s : Core) (qc : QC) : Except Fault Bool :=
  if qc.leader ≠ s.id then verifyQuorumSignature env qc.blockID qc.aggSig qc.signers else .ok true

/-- `CommitBlock` on the head and the delivery of its result. -/
def commit (qc : QC) (head : Block) : Exec (Except Err Unit) := do
  let s ← get
  match ← call (s.bc.commitBlock head.id s.pm.curView) with
  | (.error e, bc) => do
    set { s with bc := bc }
    return .error e
  | (.ok (committed, forked), bc) => do
    set ({ s with
      bc := bc
      committedBlocks := s.committedBlocks ++ committed
      forkedBlocks := s.forkedBlocks ++ forked }.record (.commit s.toCore qc head committed))
    return .ok ()

def addBlock (b : Block) : Exec Unit := do
  let s ← get
  let bc ← call (s.bc.addBlock b)
  set { s with bc := bc }

/-- The signature of a foreign block is verified, but a bad one is only logged. -/
def checkSignature (env : Env) (block : Block) : Exec Unit := do
  if block.proposer ≠ (← get).id then
    let _ ← call (pubVerify env block.sig block.id block.proposer)

/-- The head of `ProcessBlock`: a block above the current view is buffered. -/
def isBuffered (env : Env) (block : Block) : Exec Bool := do
  startView
  let curView ← getCurView
  checkSignature env block
  if curView < block.view then
    modify fun s => { s with bufferedBlocks := s.bufferedBlocks.insert (block.view - 1) block }
    return true
  else
    modify fun s => { s with recivedBlock := s.recivedBlock.insert (block.view - 1) block }
    return false

/-! ## View changes -/

/-- The parts of a protocol that the shared handlers call. -/
structure Rules where
  /-- Keep a view-change message until the block of its view is there. -/
  keepVmo : VMO → Exec Unit
  processCertificate : QC → Exec Unit
  /-- The view announced when `ProcessVote` completes a certificate. -/
  announced : QC → Exec View

/-- The buffered block of a view, if there is one, is taken out and processed. -/
def takeUpBuffered (processBlock : Block → Exec (Option Err)) (view : View) : Exec Unit := do
  match (← get).bufferedBlocks.lookup (view - 1) with
  | none => pure ()
  | some block =>
    modify fun s => { s with bufferedBlocks := s.bufferedBlocks.erase (view - 1) }
    let _ ← processBlock block

/-- The message is passed on to the leader of the next view, in this replica's name. -/
def postBack (env : Env) (view : View) (vmo : VMO) : Exec Unit := do
  let me := (← get).id
  let nextLeader := env.election.findLeaderFor (view + 1)
  if nextLeader ≠ me then send nextLeader (.vmo { vmo with nodeID := me })

def processVMOAndBlock (env : Env) (processBlock : Block → Exec (Option Err)) (view : View) :
    Exec Bool := do
  match (← get).recivedVMO.lookup (view - 1) with
  | none => return false
  | some vmo =>
    takeUpBuffered processBlock view
    match (← get).recivedBlock.lookup (view - 1) with
    | none => return false
    | some _ =>
      postBack env view vmo
      modify fun s => { s with
        recivedVMO := s.recivedVMO.erase (view - 1)
        recivedBlock := s.recivedBlock.erase (view - 1) }
      advanceView view
      return true

def processRemoteVmo (env : Env) (rules : Rules) (processBlock : Block → Exec (Option Err)) :
    ℕ → VMO → Exec Unit
  | 0, _ => throw .spin
  | fuel + 1, vmo => do
    let s ← get
    if env.election.findLeaderFor (vmo.view + 1) = s.id then
      let (vc, pm) := s.pm.processRemoteVmo vmo
      set { s with pm := pm }
      match vc with
      | none => pure ()
      | some view => advanceView view
    else
      rules.keepVmo vmo
      if (← getCurView) < vmo.view then pure ()
      else if ← processVMOAndBlock env processBlock vmo.view then
        match (← get).recivedVMO.lookup vmo.view with
        | none => pure ()
        | some next => processRemoteVmo env rules processBlock fuel next
      else pure ()

def processLocalVmo (env : Env) (rules : Rules) (processBlock : Block → Exec (Option Err))
    (fuel : ℕ) (view : View) : Exec Unit := do
  let s ← get
  let vmo : VMO := ⟨view, s.id, some s.highQC⟩
  broadcast (.vmo vmo)
  processRemoteVmo env rules processBlock fuel vmo

/-- The end of `ProcessRemoteTmo`, with `processTC`. -/
def countTmo (tmo : TMO) : Exec Unit := do
  let s ← get
  let (tc, pm) := s.pm.processRemoteTmo tmo
  set { s with pm := pm }
  match tc with
  | none => pure ()
  | some view => if view < pm.curView then pure () else advanceView view

/-! ## Votes -/

/-- `ProcessVote` up to the certificate, which is marked as this replica's own.
A vote in this replica's own name is not verified. -/
def countVote (env : Env) (vote : Vote) : Exec (Option QC) := do
  let s ← get
  if s.isByz then return none
  else
    let verified ← call (if vote.voter ≠ s.id then
      pubVerify env vote.signature vote.blockID vote.voter else .ok true)
    if verified then
      match s.bc.addVote env vote with
      | (none, bc) =>
        set { s with bc := bc }
        return none
      | (some qc, bc) =>
        let qc := { qc with leader := s.id }
        set ({ s with bc := bc }.record (.built s.toCore qc))
        return some qc
    else return none

def processVote (env : Env) (rules : Rules) (processBlock : Block → Exec (Option Err))
    (fuel : ℕ) (vote : Vote) : Exec Unit := do
  match ← countVote env vote with
  | none => pure ()
  | some qc =>
    match (← get).bc.getBlockByID qc.blockID with
    | .error _ => modify fun s => s.bufferQC qc
    | .ok _ =>
      rules.processCertificate qc
      processLocalVmo env rules processBlock fuel (← rules.announced qc)

/-- The certificate that was waiting for this block, if there is one. -/
def processBufferedQC (env : Env) (rules : Rules) (processBlock : Block → Exec (Option Err))
    (fuel : ℕ) (block : Block) : Exec Unit := do
  match (← get).bufferedQCs.lookup block.id with
  | none => pure ()
  | some qc =>
    rules.processCertificate qc
    modify fun s => { s with bufferedQCs := s.bufferedQCs.erase block.id }
    if env.election.findLeaderFor (block.view + 1) = (← get).id then
      processLocalVmo env rules processBlock fuel block.view
    else pure ()

/-- The vote goes to the leader of the next view, which may be this replica. -/
def castVote (env : Env) (rules : Rules) (processBlock : Block → Exec (Option Err))
    (fuel : ℕ) (block : Block) : Exec Unit := do
  let s ← get
  let vote ← call (makeVote env block.view s.id block.id)
  modify fun s => s.record (.vote s.toCore block vote)
  let voteAggregator := env.election.findLeaderFor (block.view + 1)
  if voteAggregator = s.id then
    processVote env rules processBlock fuel vote
  else
    send voteAggregator (.vote vote)

/-- A block's certificate. The proposer does not have to process its own. -/
def processBlockQC (rules : Rules) (block : Block) (qc : QC) : Exec Unit := do
  updateHighQC qc
  if block.proposer ≠ (← get).id then rules.processCertificate qc

/-- The block is taken up: from here on its certificate and its vote are dealt with. -/
def handle (block : Block) : Exec Unit := modify fun s => s.record (.handle s.toCore block)

/-- The head of the three `ProcessBlock`s: unless the block is buffered, the
view change it was missing for is made up, and it is taken up. -/
def takeUp (env : Env) (processBlock : Block → Exec (Option Err)) (block : Block) :
    Exec Bool := do
  if ← isBuffered env block then return false
  else
    let _ ← processVMOAndBlock env processBlock block.view
    handle block
    return true

/-! ## Proposals -/

/-- The block is made and broadcast; the proposer then processes it like any
other, which is a delivery of its own here. -/
def proposeBlock (makeProposal : View → List Transaction → Exec Block) (view : View)
    (payload : List Transaction) : Exec Unit := do
  let block ← makeProposal view payload
  modify fun s => s.record (.propose s.toCore block)
  broadcast (.block block)

/-- `processNewView` for the next view on the channel. The forking branch of
`MakeProposal` asks for a Byzantine replica, and such a replica never gets there. -/
def processNewView (env : Env) (makeProposal : View → List Transaction → Exec Block)
    (payload : List Transaction) : Exec Unit := do
  let s ← get
  match s.pm.newViewChan[s.entered]? with
  | none => pure ()
  | some view =>
    set { s with entered := s.entered + 1 }
    if env.election.isLeader s.id view = true ∧ s.isByz = false then
      proposeBlock makeProposal view payload
    else pure ()

end Bamboo
