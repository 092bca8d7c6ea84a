import Bamboo.BlockChain
import Bamboo.Pacemaker

/-!
# Streamlet and Lbft

The two packages are copies of each other. A block is voted for if it extends
the last level of the notarized chain, a certificate appends its block to that
chain, and three last levels of consecutive views commit the middle one. Lbft
drops a certificate older than the current view and uses the plain broadcast;
Streamlet sends to each node by itself, a Byzantine replica of it sends votes to
everybody but the next leader, and it may stay silent instead of proposing.

The handlers call one another in a circle, which fuel cuts at `ProcessBlock` and
`processCertificate`. A view change by timeouts is started as a goroutine; it
waits in `pending` until it runs.
-/
namespace Bamboo

inductive Notarizer
  | streamlet
  | lbft
  deriving DecidableEq, Repr

structure Streamlet where
  id : NodeID
  isByz : Bool
  pm : Pacemaker
  bc : BlockChain
  notarizedChain : List (List Block)
  bufferedBlocks : Map Identifier Block
  bufferedQCs : Map Identifier QC
  bufferedNotarizedBlock : Map Identifier QC
  echoedBlock : Map Identifier Unit
  committedBlocks : List Block
  forkedBlocks : List Block
  outbox : List Envelope
  pending : List View
  crashed : Bool

namespace Streamlet

def new (env : Env) (id : NodeID) (isByz : Bool) : Streamlet where
  id := id
  isByz := isByz
  pm := (Pacemaker.new env.n).advanceView 0
  bc := BlockChain.new env.n
  notarizedChain := []
  bufferedBlocks := ∅
  bufferedQCs := ∅
  bufferedNotarizedBlock := ∅
  echoedBlock := ∅
  committedBlocks := []
  forkedBlocks := []
  outbox := []
  pending := []
  crashed := false

abbrev Exec (α : Type) := EStateM Fault Streamlet α

def call {α : Type} (e : Except Fault α) : Exec α :=
  match e with
  | .ok a => pure a
  | .error f => throw f

/-! ## Sending -/

def push (s : Streamlet) (dest : Option NodeID) (m : Msg) : Streamlet :=
  { s with outbox := s.outbox ++ [⟨dest, m⟩] }

def pushAll (s : Streamlet) (nodes : List ℕ) (m : Msg) : Streamlet :=
  nodes.foldl (fun s i => s.push (some (newNodeID i)) m) s

/-- To every node by itself, the sender included. -/
def noMailBroadcast (env : Env) (m : Msg) : Exec Unit :=
  modify fun s => s.pushAll (List.range' 1 env.n) m

/-- The loop that skips the next leader: it runs to node `n - 1`, and to `n` if
the leader is that one. -/
def voteReceivers (n : ℕ) (leader : ℤ) : ℕ → ℕ → List ℕ
  | 0, _ => []
  | fuel + 1, node =>
    if node ≤ n - 1 then
      let node := if (node : ℤ) = leader then node + 1 else node
      node :: voteReceivers n leader fuel (node + 1)
    else []

/-- The number of the leader of the view after the current one. -/
def nextLeader (env : Env) (s : Streamlet) : ℤ :=
  (env.election.findLeaderFor (s.pm.curView + 1)).node

def maliBroadcast (env : Env) (m : Msg) (isVote : Bool) : Exec Unit := do
  let leader := (← get).nextLeader env
  if leader ≤ env.byzNo then noMailBroadcast env m
  else if isVote then modify fun s => s.pushAll (voteReceivers env.n leader env.n 1) m
  else modify fun s => s.pushAll (List.range' 1 env.n) m

def sendAll (env : Env) (alg : Notarizer) (m : Msg) : Exec Unit :=
  match alg with
  | .streamlet => noMailBroadcast env m
  | .lbft => modify fun s => s.push none m

/-- The broadcast of a block or of an own vote. -/
def spread (env : Env) (alg : Notarizer) (m : Msg) (isVote : Bool) : Exec Unit := do
  let s ← get
  if alg = .streamlet ∧ s.isByz = true ∧ env.byzNo < s.nextLeader env then
    maliBroadcast env m isVote
  else sendAll env alg m

/-- What is seen for the first time is passed on. -/
def echo (id : Identifier) (broadcast : Exec Unit) : Exec Unit := do
  if ((← get).echoedBlock.lookup id).isSome then pure ()
  else
    modify fun s => { s with echoedBlock := s.echoedBlock.insert id () }
    broadcast

/-! ## The notarized chain -/

/-- The search for the parent's level from level `i - 1` down. Its condition
`i >= 0 || i >= height-3` lets it read level -1 of a chain of at most two. -/
def findParent (chain : List (List Block)) (prevID : Identifier) : ℕ → Except Fault Bool
  | 0 => if chain.length ≤ 2 then .error .index else .ok false
  | i + 1 =>
    if (chain.getD i []).any (·.id = prevID) then .ok true else findParent chain prevID i

/-- The block is appended at the end, at whatever level its parent is. -/
def notarize (s : Streamlet) (block : Block) : Streamlet :=
  { s with notarizedChain := s.notarizedChain ++ [[block]] }

def updateNotarizedChain (qc : QC) : Exec (Except Err Unit) := do
  let s ← get
  match s.bc.getBlockByID qc.blockID with
  | .error _ => return .error .notStored
  | .ok block =>
    if s.notarizedChain.length = 0 then
      set (s.notarize block)
      return .ok ()
    else if ← call (findParent s.notarizedChain block.prevID s.notarizedChain.length) then
      set (s.notarize block)
      return .ok ()
    else
      set { s with bufferedNotarizedBlock := s.bufferedNotarizedBlock.insert block.prevID qc }
      return .error .notExtending

def votingRule (chain : List (List Block)) (block : Block) : Except Fault Bool :=
  if block.view ≤ 2 then .ok true
  else
    match chain.getLast? with
    | none => .error .index
    | some lastBlocks => .ok (lastBlocks.any (block.prevID = ·.id))

/-- The second of the last three levels, if each has one block and their views
are consecutive. -/
def commitRule (chain : List (List Block)) : Option Block :=
  match chain.reverse with
  | [lastBlock] :: [secondBlock] :: [firstBlock] :: _ =>
    if firstBlock.view + 1 = secondBlock.view ∧ secondBlock.view + 1 = lastBlock.view then
      some secondBlock
    else none
  | _ => none

/-! ## Handlers -/

def deliver (s : Streamlet) (bc : BlockChain) (committed forked : List Block) : Streamlet :=
  { s with
    bc := bc
    committedBlocks := s.committedBlocks ++ committed
    forkedBlocks := s.forkedBlocks ++ forked
    echoedBlock := committed.foldl (fun m b => m.erase b.id) s.echoedBlock }

/-- After a commit the certificate's block is looked up among the buffered ones. -/
def takeUpBlock (processBlock : Block → Exec (Option Err)) (id : Identifier) : Exec Unit := do
  match (← get).bufferedBlocks.lookup id with
  | none => pure ()
  | some b =>
    let _ ← processBlock b
    modify fun s => { s with bufferedBlocks := s.bufferedBlocks.erase id }

/-- The certificate found here takes the place of the old one, so that the entry
that is deleted is another one, of another map. -/
def takeUpNotarized (processCertificate : QC → Exec Unit) (id : Identifier) : Exec Unit := do
  match (← get).bufferedNotarizedBlock.lookup id with
  | none => pure ()
  | some qc =>
    processCertificate qc
    modify fun s => { s with bufferedQCs := s.bufferedQCs.erase qc.blockID }

/-- The end of `processCertificate`, from the commit rule on. -/
def checkCommit (processBlock : Block → Exec (Option Err)) (processCertificate : QC → Exec Unit)
    (qc : QC) : Exec Unit := do
  if qc.view < 3 then pure ()
  else
    let s ← get
    match commitRule s.notarizedChain with
    | none => pure ()
    | some block =>
      match ← call (s.bc.commitBlock block.id s.pm.curView) with
      | (.error _, bc) => set { s with bc := bc }
      | (.ok (committed, forked), bc) =>
        set (s.deliver bc committed forked)
        takeUpBlock processBlock qc.blockID
        takeUpNotarized processCertificate qc.blockID

def certify (env : Env) (alg : Notarizer) (processBlock : Block → Exec (Option Err))
    (processCertificate : QC → Exec Unit) (qc : QC) : Exec Unit := do
  let s ← get
  if alg = .lbft ∧ qc.view < s.pm.curView then pure ()
  else if (s.bc.forrest.getVertex qc.blockID).isNone = true ∧ 1 < qc.view then
    set { s with bufferedQCs := s.bufferedQCs.insert qc.blockID qc }
  else if ← call (if qc.leader ≠ s.id then
      verifyQuorumSignature env qc.blockID qc.aggSig qc.signers else .ok true) then
    match ← updateNotarizedChain qc with
    | .error _ => pure ()
    | .ok _ =>
      modify fun s => { s with pm := s.pm.advanceView qc.view }
      checkCommit processBlock processCertificate qc
  else pure ()

/-- `ProcessVote`. A vote in this replica's own name is not verified. -/
def processVote (env : Env) (alg : Notarizer) (processCertificate : QC → Exec Unit) (vote : Vote) :
    Exec Unit := do
  let s ← get
  if ← call (if vote.voter ≠ s.id then
      pubVerify env vote.signature vote.blockID vote.voter else .ok true) then
    echo vote.blockID (sendAll env alg (.vote vote))
    let s ← get
    match s.bc.addVote env vote with
    | (none, bc) => set { s with bc := bc }
    | (some qc, bc) =>
      set { s with bc := bc }
      processCertificate qc
  else pure ()

/-- The end of `ProcessBlock`: the certificate and the block that were waiting.
Both stay in their buffers. -/
def takeUpNextQC (processCertificate : QC → Exec Unit) (id : Identifier) : Exec Unit := do
  match (← get).bufferedQCs.lookup id with
  | none => pure ()
  | some qc => processCertificate qc

def takeUpNextBlock (processBlock : Block → Exec (Option Err)) (id : Identifier) : Exec Unit := do
  match (← get).bufferedBlocks.lookup id with
  | none => pure ()
  | some b => let _ ← processBlock b

/-- The signature of a foreign block is verified, but a bad one is only logged. -/
def checkSignature (env : Env) (block : Block) : Exec Unit := do
  if block.proposer ≠ (← get).id then
    let _ ← call (pubVerify env block.sig block.id block.proposer)

def castVote (env : Env) (alg : Notarizer) (processCertificate : QC → Exec Unit) (block : Block) :
    Exec Unit := do
  let vote ← call (makeVote env block.view (← get).id block.id)
  processVote env alg processCertificate vote
  spread env alg (.vote vote) true

/-- `ProcessBlock` from the point where the block is accepted. -/
def accept (env : Env) (alg : Notarizer) (processBlock : Block → Exec (Option Err))
    (processCertificate : QC → Exec Unit) (block : Block) : Exec Unit := do
  checkSignature env block
  echo block.id (spread env alg (.block block) false)
  let s ← get
  let bc ← call (s.bc.addBlock block)
  set { s with bc := bc }
  if ← call (votingRule s.notarizedChain block) then
    castVote env alg processCertificate block
    takeUpNextQC processCertificate block.id
    takeUpNextBlock processBlock block.id
  else modify fun s => { s with bufferedBlocks := s.bufferedBlocks.insert block.prevID block }

/-- `ProcessBlock` down to the check of the leader. -/
def screen (env : Env) (alg : Notarizer) (processBlock : Block → Exec (Option Err))
    (processCertificate : QC → Exec Unit) (block : Block) : Exec (Option Err) := do
  let s ← get
  if (s.bc.forrest.getVertex block.id).isSome then return none
  else if block.view < s.pm.curView then return some .staleBlock
  else if (s.bc.forrest.getVertex block.prevID).isNone = true ∧ 1 < block.view then
    set { s with bufferedBlocks := s.bufferedBlocks.insert block.prevID block }
    return none
  else if env.election.isLeader block.proposer block.view = false then
    return some (.invalidLeader block.view block.proposer)
  else
    accept env alg processBlock processCertificate block
    return none

/-- `ProcessBlock` and `processCertificate`, which call each other. -/
def handlers (env : Env) (alg : Notarizer) : ℕ → (Block → Exec (Option Err)) × (QC → Exec Unit)
  | 0 => (fun _ => throw .spin, fun _ => throw .spin)
  | fuel + 1 =>
    (screen env alg (handlers env alg fuel).1 (handlers env alg fuel).2,
      certify env alg (handlers env alg fuel).1 (handlers env alg fuel).2)

def processBlock (env : Env) (alg : Notarizer) (fuel : ℕ) : Block → Exec (Option Err) :=
  (handlers env alg fuel).1

def processCertificate (env : Env) (alg : Notarizer) (fuel : ℕ) : QC → Exec Unit :=
  (handlers env alg fuel).2

/-- With `processTC`, whose `AdvanceView` runs as a goroutine. -/
def processRemoteTmo (tmo : TMO) : Exec Unit := do
  let s ← get
  let (tc, pm) := s.pm.processRemoteTmo tmo
  match tc with
  | none => set { s with pm := pm }
  | some view =>
    if view < pm.curView then set { s with pm := pm }
    else set { s with pm := pm, pending := s.pending ++ [view] }

def processLocalTmo (view : View) : Exec Unit := do
  let s ← get
  let tmo : TMO := ⟨view, s.id, none⟩
  modify fun s => s.push none (.tmo tmo)
  processRemoteTmo tmo

/-- Two last levels of consecutive views just below the current one make a
Byzantine replica of Streamlet skip its turn. -/
def silent (s : Streamlet) : Bool :=
  match s.notarizedChain.reverse with
  | [lastBlock] :: [secondBlock] :: _ :: _ :: _ =>
    s.isByz && decide (lastBlock.view = secondBlock.view + 1 ∧ lastBlock.view + 1 = s.pm.curView)
  | _ => false

/-- The parent of a proposal: the first block of the last level, or the hash
`genesis` of the text "Genesis block". -/
def forkChoice (genesis : Identifier) (s : Streamlet) : Except Fault Identifier :=
  match s.notarizedChain.getLast? with
  | none => .ok genesis
  | some [] => .error .index
  | some (b :: _) => .ok b.id

def makeProposal (env : Env) (alg : Notarizer) (genesis : Identifier) (view : View)
    (payload : List Transaction) : Exec (Option Block) := do
  let s ← get
  if alg = .streamlet ∧ s.silent = true then return none
  else
    let prevID ← call (s.forkChoice genesis)
    let forkNum : ℤ :=
      if alg = .streamlet ∧ env.byzNo < s.nextLeader env ∧ s.isByz = true then 1 else 0
    return some (← call (makeBlock env view { QC.initial with blockID := prevID } prevID payload
      s.id (decide (alg = .streamlet) && s.isByz) forkNum 0))

/-! ## Runs -/

inductive Input
  | block (b : Block)
  | vote (v : Vote)
  | tmo (t : TMO)
  | timeout
  | propose (genesis : Identifier) (view : View) (payload : List Transaction)
  | background (k : ℕ)
  deriving DecidableEq, Repr

/-- The replica broadcasts a proposal itself unless the algorithm is Streamlet. -/
def proposeBlock (env : Env) (alg : Notarizer) (fuel : ℕ) (b : Block) : Exec Unit := do
  modify fun s => if alg = .lbft then s.push none (.block b) else s
  let _ ← processBlock env alg fuel b

/-- `background k` lets the `k`-th goroutine that is waiting run. -/
def handleInput (env : Env) (alg : Notarizer) (fuel : ℕ) : Input → Exec Unit
  | .block b => do
    let _ ← processBlock env alg fuel b
  | .vote v => processVote env alg (processCertificate env alg fuel) v
  | .tmo t => processRemoteTmo t
  | .timeout => do processLocalTmo (← get).pm.curView
  | .propose genesis view payload => do
    match ← makeProposal env alg genesis view payload with
    | none => pure ()
    | some b => proposeBlock env alg fuel b
  | .background k => do
    let s ← get
    match s.pending[k]? with
    | none => pure ()
    | some view => set { s with pm := s.pm.advanceView view, pending := s.pending.eraseIdx k }

/-- One input; the fuel bounds the depth of nested handlers. -/
def step (env : Env) (alg : Notarizer) (s : Streamlet) (i : Input × ℕ) : Streamlet :=
  if s.crashed then s
  else
    match handleInput env alg i.2 i.1 s with
    | .ok _ s => s
    | .error _ s => { s with crashed := true }

def run (env : Env) (alg : Notarizer) (s : Streamlet) (inputs : List (Input × ℕ)) : Streamlet :=
  inputs.foldl (step env alg) s

end Streamlet

end Bamboo
