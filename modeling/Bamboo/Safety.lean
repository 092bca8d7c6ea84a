import Bamboo.HotStuff
import Bamboo.TwoChain

/-!
# Runs of a replica

The `Safety` interface of a replica dispatches on the configured algorithm. A
replica takes one input after the other, each a delivered message, a client's
transaction, a timeout of its current view or the next new-view event; a fault
stops it for good.
-/
namespace Bamboo

inductive Algorithm
  | hotStuff
  | tchs
  | fhs
  deriving DecidableEq, Repr

namespace Safety

def rules (env : Env) : Algorithm → Rules
  | .hotStuff => HotStuff.rules env
  | .tchs => Tchs.rules env
  | .fhs => Fhs.rules env

def processBlock (env : Env) : Algorithm → ℕ → Block → Exec (Option Err)
  | .hotStuff => HotStuff.processBlock env
  | .tchs => Tchs.processBlock env
  | .fhs => Fhs.processBlock env

def processVote (env : Env) (alg : Algorithm) (fuel : ℕ) (vote : Vote) : Exec Unit :=
  Bamboo.processVote env (rules env alg) (processBlock env alg fuel) fuel vote

def processRemoteTmo (env : Env) : Algorithm → TMO → Exec Unit
  | .hotStuff => HotStuff.processRemoteTmo env
  | .tchs => Tchs.processRemoteTmo
  | .fhs => Fhs.processRemoteTmo

/-- The timeout is broadcast, then handled like one that was received. -/
def processLocalTmo (env : Env) (alg : Algorithm) (view : View) : Exec Unit := do
  let s ← get
  let tmo : TMO := ⟨view, s.id, some s.highQC⟩
  broadcast (.tmo tmo)
  processRemoteTmo env alg tmo

def processRemoteVmo (env : Env) (alg : Algorithm) (fuel : ℕ) (vmo : VMO) : Exec Unit :=
  Bamboo.processRemoteVmo env (rules env alg) (processBlock env alg fuel) fuel vmo

def makeProposal (env : Env) : Algorithm → View → List Transaction → Exec Block
  | .hotStuff => HotStuff.makeProposal env
  | .tchs => TwoChain.makeProposal env
  | .fhs => TwoChain.makeProposal env

end Safety

/-- What the event loop of a replica takes up next. -/
inductive Input
  | deliver (m : Msg)
  | txn
  | timeout
  | newView (payload : List Transaction)
  deriving DecidableEq, Repr

def Input.message : Input → Option Msg
  | .deliver m => some m
  | _ => none

/-- `handleTxn` without the memory pool: the first leader kicks off the protocol. -/
def handleTxn (env : Env) : Exec Unit := do
  let s ← get
  if s.pm.curView = 0 ∧ env.election.isLeader s.id 1 = true then advanceView 0

def handleInput (env : Env) (alg : Algorithm) (fuel : ℕ) : Input → Exec Unit
  | .deliver (.block b) => do
    let _ ← Safety.processBlock env alg fuel b
  | .deliver (.vote v) => Safety.processVote env alg fuel v
  | .deliver (.tmo t) => Safety.processRemoteTmo env alg t
  | .deliver (.vmo v) => Safety.processRemoteVmo env alg fuel v
  | .txn => handleTxn env
  | .timeout => do Safety.processLocalTmo env alg (← getCurView)
  | .newView payload => processNewView env (Safety.makeProposal env alg) payload

namespace Replica

/-- One turn of the event loop. The fuel bounds the depth of nested handlers. -/
def step (env : Env) (alg : Algorithm) (s : Replica) (i : Input × ℕ) : Replica :=
  if s.crashed then s
  else
    match handleInput env alg i.2 i.1 s with
    | .ok _ s => s
    | .error _ s => { s with crashed := true }

def run (env : Env) (alg : Algorithm) (s : Replica) (inputs : List (Input × ℕ)) : Replica :=
  inputs.foldl (step env alg) s

end Replica

end Bamboo
