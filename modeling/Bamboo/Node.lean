import Bamboo.Mempool
import Bamboo.Safety
import Bamboo.Statistics

/-!
# A node and its goroutines

A replica is driven by several goroutines: `recv` puts messages into a channel,
`handle` takes them out and offers them to the event loop, `txn` does the same for
requests and queries, `ListenLocalEvent` waits for new views and for the timer, the
event loop takes up what is offered, and `ListenCommittedBlocks` reads what the
protocol delivers. A scheduler picks which of them moves next. A goroutine that cannot
move does not, and a panic in any of them stops the process.

A goroutine moves from one channel operation to the next at once, so that each call of
a handler is a single move. This is an assumption. In the program `ListenLocalEvent`
calls `ProcessLocalTmo`, and `txn` calls `handleTxn`, while the event loop may be in
the middle of a handler, and no lock keeps them apart.

The event channel has no buffer, so at most one message and one view wait for the
event loop. The other channels are unbounded here. A full one keeps its sender waiting,
and the pacemaker's is emptied only when the event loop, which fills it, is free; so
the program has runs that stop where a run of the node goes on, but no others on that
account. The replies to clients and the times measured are left out.
-/
namespace Bamboo

/-- The part of the configuration that a node reads. -/
structure Settings where
  memSize : ℤ
  bSize : ℤ
  silence : Bool
  deriving DecidableEq, Repr

/-- What clients send. -/
inductive ClientRequest
  | txn (m : Transaction)
  | query
  deriving DecidableEq, Repr

structure Node where
  replica : Replica
  pd : Producer Transaction
  stats : Statistics
  isStarted : Bool
  messageChan : List Msg
  txChan : List ClientRequest
  /-- The message that `handle` holds while the event loop is busy. -/
  offered : Option Msg
  /-- `ListenLocalEvent` holds the next view while the event loop is busy. -/
  entering : Bool
  /-- The event loop has broadcast this block of its own and not yet processed it. -/
  proposed : Option Block
  committedRead : ℕ
  forkedRead : ℕ
  crashed : Bool

namespace Node

def new (env : Env) (cfg : Settings) (id : NodeID) (isByz : Bool) : Node where
  replica := Replica.new env id isByz
  pd := Producer.new cfg.memSize
  stats := Statistics.new
  isStarted := false
  messageChan := []
  txChan := []
  offered := none
  entering := false
  proposed := none
  committedRead := 0
  forkedRead := 0
  crashed := false

def curView (n : Node) : View := n.replica.pm.curView

/-- `r.eventChan <- m` -/
def offer (n : Node) (m : Msg) : Node := { n with offered := some m }

def startSignal (n : Node) : Node := { n with isStarted := true }

/-! ## Handlers -/

def handleBlock (n : Node) (block : Block) : Node := n.startSignal.offer (.block block)

def handleVote (n : Node) (vote : Vote) : Node :=
  if vote.view < n.curView then n else n.startSignal.offer (.vote vote)

/-- Unlike a vote, a timeout does not start the event loop. -/
def handleTmo (n : Node) (tmo : TMO) : Node :=
  if tmo.view < n.curView then n else n.offer (.tmo tmo)

def handleVmo (n : Node) (vmo : VMO) : Node :=
  if vmo.view < n.curView then n else n.offer (.vmo vmo)

def handleTxn (env : Env) (alg : Algorithm) (n : Node) (m : Transaction) : Node :=
  match n.pd.addTxn (some m) with
  | .error _ => { n with crashed := true }
  | .ok pd =>
    { { n with pd := pd }.startSignal with replica := n.replica.step env alg (.txn, 0) }

def handleQuery (n : Node) : Node := { n with stats := n.stats.handleQuery }

/-! ## The event loop -/

/-- The block among the messages sent last. -/
def broadcastBlock (s s' : Replica) : Option Block :=
  (s'.outbox.drop s.outbox.length).findSome? fun e =>
    match e.msg with
    | .block b => some b
    | _ => none

/-- `proposeBlock` up to `ProcessBlock`. A nil transaction has no id to be hashed. -/
def proposeBlock (env : Env) (alg : Algorithm) (cfg : Settings) (n : Node) : Node :=
  match n.pd.generatePayload cfg.bSize with
  | .error _ => { n with crashed := true }
  | .ok (payload, pd) =>
    match payload.mapM id with
    | none => { n with crashed := true }
    | some payload =>
      let replica := n.replica.step env alg (.newView payload, 0)
      { n with pd := pd, replica := replica, proposed := broadcastBlock n.replica replica }

def processNewView (env : Env) (alg : Algorithm) (cfg : Settings) (n : Node) (view : View) :
    Node :=
  if env.election.isLeader n.replica.id view = true ∧ n.replica.isByz = false then
    n.proposeBlock env alg cfg
  else { n with replica := n.replica.step env alg (.newView [], 0) }

/-! ## Moves -/

inductive Activity
  /-- `recv`: a message from the socket. -/
  | recv (m : Msg)
  /-- `handleRoot` and `handleQuery` of the server: a request from a client. -/
  | request (r : ClientRequest)
  | handle
  | txn
  /-- `ListenLocalEvent`: the next view, or the timer. -/
  | enter
  | timeout
  /-- The event loop: what `handle` offers, what `ListenLocalEvent` offers, and the end
  of `proposeBlock`. -/
  | takeMessage (fuel : ℕ)
  | takeView
  | processOwn (fuel : ℕ)
  /-- `ListenCommittedBlocks`. Whether it sees the mark of a block depends on whether
  the protocol has set it yet. -/
  | committed (commitFromThis : Bool)
  | forked
  deriving DecidableEq, Repr

def handleMessage (n : Node) : Msg → Node
  | .block block => n.handleBlock block
  | .vote vote => n.handleVote vote
  | .tmo tmo => n.handleTmo tmo
  | .vmo vmo => n.handleVmo vmo

def handleRequest (env : Env) (alg : Algorithm) (n : Node) : ClientRequest → Node
  | .txn m => n.handleTxn env alg m
  | .query => n.handleQuery

def listen (n : Node) (commitFromThis : Bool) : Node :=
  match n.replica.committedBlocks[n.committedRead]? with
  | none => n
  | some block =>
    { n with
      stats := n.stats.processCommittedBlock n.replica.id ⟨block, commitFromThis⟩
      committedRead := n.committedRead + 1 }

def listenForked (n : Node) : Node :=
  match n.replica.forkedBlocks[n.forkedRead]? with
  | none => n
  | some block =>
    { n with
      pd := processForkedBlock n.replica.id n.pd block
      forkedRead := n.forkedRead + 1 }

/-- The process has not panicked. -/
def Up (n : Node) : Prop := n.crashed = false ∧ n.replica.crashed = false

instance (n : Node) : Decidable n.Up := inferInstanceAs (Decidable (_ ∧ _))

/-- The event loop waits for the next event. -/
def Idling (n : Node) : Prop := n.isStarted = true ∧ n.proposed = none

instance (n : Node) : Decidable n.Idling := inferInstanceAs (Decidable (_ ∧ _))

def move (env : Env) (alg : Algorithm) (cfg : Settings) (n : Node) : Activity → Node
  | .recv m =>
    if n.replica.isByz = true ∧ cfg.silence = true then n
    else { n with messageChan := n.messageChan ++ [m] }
  | .request r => { n with txChan := n.txChan ++ [r] }
  | .handle =>
    match n.offered, n.messageChan with
    | none, m :: rest => { n with messageChan := rest }.handleMessage m
    | _, _ => n
  | .txn =>
    match n.txChan with
    | [] => n
    | r :: rest => { n with txChan := rest }.handleRequest env alg r
  | .enter =>
    if n.isStarted = true ∧ n.replica.entered < n.replica.pm.newViewChan.length then
      { n with entering := true }
    else n
  | .timeout =>
    if n.isStarted = true ∧ n.entering = false then
      { n with replica := n.replica.step env alg (.timeout, 0) }
    else n
  | .takeMessage fuel =>
    match n.offered with
    | none => n
    | some m =>
      if n.Idling then
        { n with offered := none, replica := n.replica.step env alg (.deliver m, fuel) }
      else n
  | .takeView =>
    if n.Idling ∧ n.entering = true then
      match n.replica.pm.newViewChan[n.replica.entered]? with
      | none => n
      | some view => { n with entering := false }.processNewView env alg cfg view
    else n
  | .processOwn fuel =>
    match n.proposed with
    | none => n
    | some b =>
      { n with proposed := none, replica := n.replica.step env alg (.deliver (.block b), fuel) }
  | .committed commitFromThis => if n.isStarted = true then n.listen commitFromThis else n
  | .forked => if n.isStarted = true then n.listenForked else n

def step (env : Env) (alg : Algorithm) (cfg : Settings) (n : Node) (a : Activity) : Node :=
  if n.Up then n.move env alg cfg a else n

def run (env : Env) (alg : Algorithm) (cfg : Settings) (n : Node) (acts : List Activity) : Node :=
  acts.foldl (step env alg cfg) n

/-- A node after some moves of its goroutines. -/
def after (env : Env) (alg : Algorithm) (cfg : Settings) (id : NodeID) (isByz : Bool)
    (acts : List Activity) : Node :=
  (new env cfg id isByz).run env alg cfg acts

end Node

/-- Messages that the handlers of a node drop in a view. -/
def Msg.stale (view : View) : Msg → Bool
  | .block _ => false
  | .vote v => v.view < view
  | .tmo t => t.view < view
  | .vmo v => v.view < view

namespace Node

section Moves

variable {env : Env} {alg : Algorithm} {cfg : Settings} {n : Node}

/-! ## What a move does -/

/-- What becomes of a node that is up. -/
inductive Moves (env : Env) (alg : Algorithm) (cfg : Settings) (n : Node) : Activity → Node → Prop
  | stay (a : Activity)
      (hrecv : ∀ m, a = .recv m → n.replica.isByz = true ∧ cfg.silence = true)
      (hrequest : ∀ r, a ≠ .request r) : Moves env alg cfg n a n
  | fail : Moves env alg cfg n .takeView { n with entering := false, crashed := true }
  | recv (m : Msg) (h : ¬ (n.replica.isByz = true ∧ cfg.silence = true)) :
      Moves env alg cfg n (.recv m) { n with messageChan := n.messageChan ++ [m] }
  | request (r : ClientRequest) :
      Moves env alg cfg n (.request r) { n with txChan := n.txChan ++ [r] }
  | drop (m : Msg) (rest : List Msg) (hchan : n.messageChan = m :: rest) (h : n.offered = none)
      (hstale : m.stale n.curView = true) :
      Moves env alg cfg n .handle { n with messageChan := rest }
  | offer (m : Msg) (rest : List Msg) (started : Bool) (hchan : n.messageChan = m :: rest)
      (h : n.offered = none) (hfresh : m.stale n.curView = false) :
      Moves env alg cfg n .handle
        { n with messageChan := rest, offered := some m, isStarted := started }
  | txn (txn : Transaction) (rest : List ClientRequest) (pd : Producer Transaction)
      (hchan : n.txChan = .txn txn :: rest) (hadd : n.pd.addTxn (some txn) = .ok pd) :
      Moves env alg cfg n .txn
        { n with
          txChan := rest, pd := pd, isStarted := true
          replica := n.replica.step env alg (.txn, 0) }
  | query (rest : List ClientRequest) (hchan : n.txChan = .query :: rest) :
      Moves env alg cfg n .txn { n with txChan := rest, stats := n.stats.handleQuery }
  | enter : Moves env alg cfg n .enter { n with entering := true }
  | timeout : Moves env alg cfg n .timeout
      { n with replica := n.replica.step env alg (.timeout, 0) }
  | takeMessage (m : Msg) (fuel : ℕ) (h : n.offered = some m) :
      Moves env alg cfg n (.takeMessage fuel)
        { n with offered := none, replica := n.replica.step env alg (.deliver m, fuel) }
  | follow (view : View) (hview : n.replica.pm.newViewChan[n.replica.entered]? = some view)
      (hnot : ¬ (env.election.isLeader n.replica.id view = true ∧ n.replica.isByz = false)) :
      Moves env alg cfg n .takeView
        { n with entering := false, replica := n.replica.step env alg (.newView [], 0) }
  | propose (view : View) (payload : List Transaction) (pd : Producer Transaction)
      (hview : n.replica.pm.newViewChan[n.replica.entered]? = some view)
      (hturn : env.election.isLeader n.replica.id view = true ∧ n.replica.isByz = false)
      (hnone : n.proposed = none)
      (hpayload : n.pd.generatePayload cfg.bSize = .ok (payload.map some, pd)) :
      Moves env alg cfg n .takeView
        { n with
          entering := false, pd := pd
          replica := n.replica.step env alg (.newView payload, 0)
          proposed := broadcastBlock n.replica (n.replica.step env alg (.newView payload, 0)) }
  | processOwn (b : Block) (fuel : ℕ) (h : n.proposed = some b) :
      Moves env alg cfg n (.processOwn fuel)
        { n with
          proposed := none
          replica := n.replica.step env alg (.deliver (.block b), fuel) }
  | committed (block : Block) (commitFromThis : Bool)
      (h : n.replica.committedBlocks[n.committedRead]? = some block) :
      Moves env alg cfg n (.committed commitFromThis)
        { n with
          stats := n.stats.processCommittedBlock n.replica.id ⟨block, commitFromThis⟩
          committedRead := n.committedRead + 1 }
  | forked (block : Block) (h : n.replica.forkedBlocks[n.forkedRead]? = some block) :
      Moves env alg cfg n .forked
        { n with
          pd := processForkedBlock n.replica.id n.pd block
          forkedRead := n.forkedRead + 1 }

theorem Moves.idle (a : Activity) (hrecv : ∀ m, a ≠ .recv m)
    (hrequest : ∀ r, a ≠ .request r) : Moves env alg cfg n a n :=
  .stay a (fun m h => absurd h (hrecv m)) hrequest

theorem mapM_id_some {α : Type} {l : List (Option α)} {l' : List α} (h : l.mapM id = some l') :
    l = l'.map some := by
  induction l generalizing l' with
  | nil =>
    cases h
    rfl
  | cons x l ih =>
    simp only [List.mapM_cons, id_eq, Option.bind_eq_bind, Option.bind_eq_some_iff,
      Option.pure_def, Option.some.injEq] at h
    obtain ⟨a, ha, rest, hrest, rfl⟩ := h
    rw [ha, ih hrest, List.map_cons]

theorem handle_moves (m : Msg) (rest : List Msg) (hchan : n.messageChan = m :: rest)
    (hoffered : n.offered = none) :
    Moves env alg cfg n .handle ({ n with messageChan := rest }.handleMessage m) := by
  by_cases hstale : m.stale n.curView = true
  · have hdrop : { n with messageChan := rest }.handleMessage m =
        { n with messageChan := rest } := by
      cases m with
      | block block => cases hstale
      | _ => exact if_pos (of_decide_eq_true hstale)
    rw [hdrop]
    exact .drop m rest hchan hoffered hstale
  · rw [Bool.not_eq_true] at hstale
    have hoffer : ∃ started, { n with messageChan := rest }.handleMessage m =
        { n with messageChan := rest, offered := some m, isStarted := started } := by
      cases m with
      | block block => exact ⟨true, rfl⟩
      | vote vote => exact ⟨true, if_neg (of_decide_eq_false hstale)⟩
      | tmo tmo => exact ⟨n.isStarted, if_neg (of_decide_eq_false hstale)⟩
      | vmo vmo => exact ⟨n.isStarted, if_neg (of_decide_eq_false hstale)⟩
    obtain ⟨started, hoffer⟩ := hoffer
    rw [hoffer]
    exact .offer m rest started hchan hoffered hstale

theorem processNewView_moves {view : View} (hnone : n.proposed = none)
    (hview : n.replica.pm.newViewChan[n.replica.entered]? = some view) :
    Moves env alg cfg n .takeView
      ({ n with entering := false }.processNewView env alg cfg view) := by
  by_cases hturn : env.election.isLeader n.replica.id view = true ∧ n.replica.isByz = false
  · have hpropose : { n with entering := false }.processNewView env alg cfg view =
        { n with entering := false }.proposeBlock env alg cfg := if_pos hturn
    rw [hpropose]
    cases hpayload : n.pd.generatePayload cfg.bSize with
    | error f =>
      simp only [proposeBlock, hpayload]
      exact .fail
    | ok taken =>
      obtain ⟨entries, pd⟩ := taken
      cases hentries : entries.mapM id with
      | none =>
        simp only [proposeBlock, hpayload, hentries]
        exact .fail
      | some payload =>
        rw [mapM_id_some hentries] at hpayload hentries
        have hproposed : { n with entering := false }.proposeBlock env alg cfg =
            { n with
              entering := false, pd := pd
              replica := n.replica.step env alg (.newView payload, 0)
              proposed := broadcastBlock n.replica
                (n.replica.step env alg (.newView payload, 0)) } := by
          simp [proposeBlock, hpayload, hentries]
        rw [hproposed]
        exact .propose view payload pd hview hturn hnone hpayload
  · have hfollow : { n with entering := false }.processNewView env alg cfg view =
        { n with entering := false, replica := n.replica.step env alg (.newView [], 0) } :=
      if_neg hturn
    rw [hfollow]
    exact .follow view hview hturn

theorem move_moves (a : Activity) : Moves env alg cfg n a (n.move env alg cfg a) := by
  cases a with
  | recv m =>
    by_cases hsilent : n.replica.isByz = true ∧ cfg.silence = true
    · rw [move, if_pos hsilent]
      exact .stay _ (fun _ _ => hsilent) (by simp)
    · rw [move, if_neg hsilent]
      exact .recv m hsilent
  | request r => exact .request r
  | handle =>
    cases hoffered : n.offered with
    | some m =>
      rw [move, hoffered]
      exact .idle _ (by simp) (by simp)
    | none =>
      cases hchan : n.messageChan with
      | nil =>
        rw [move, hoffered, hchan]
        exact .idle _ (by simp) (by simp)
      | cons m rest =>
        have hmoves : Moves env alg cfg n .handle
            ({ n with messageChan := rest }.handleMessage m) :=
          handle_moves m rest hchan hoffered
        simpa only [move, hoffered, hchan] using hmoves
  | txn =>
    cases hchan : n.txChan with
    | nil =>
      rw [move, hchan]
      exact .idle _ (by simp) (by simp)
    | cons r rest =>
      rw [move, hchan]
      cases r with
      | txn txn => exact .txn txn rest _ hchan rfl
      | query => exact .query rest hchan
  | enter =>
    rw [move]
    split
    · exact .enter
    · exact .idle _ (by simp) (by simp)
  | timeout =>
    rw [move]
    split
    · exact .timeout
    · exact .idle _ (by simp) (by simp)
  | takeMessage fuel =>
    cases hoffered : n.offered with
    | none =>
      rw [move, hoffered]
      exact .idle _ (by simp) (by simp)
    | some m =>
      simp only [move, hoffered]
      split
      · exact .takeMessage m fuel hoffered
      · exact .idle _ (by simp) (by simp)
  | takeView =>
    by_cases hready : n.Idling ∧ n.entering = true
    · cases hview : n.replica.pm.newViewChan[n.replica.entered]? with
      | none =>
        rw [move, if_pos hready, hview]
        exact .idle _ (by simp) (by simp)
      | some view =>
        rw [move, if_pos hready, hview]
        exact processNewView_moves hready.1.2 hview
    · rw [move, if_neg hready]
      exact .idle _ (by simp) (by simp)
  | processOwn fuel =>
    cases hproposed : n.proposed with
    | none =>
      rw [move, hproposed]
      exact .idle _ (by simp) (by simp)
    | some b =>
      rw [move, hproposed]
      exact .processOwn b fuel hproposed
  | committed commitFromThis =>
    cases hblock : n.replica.committedBlocks[n.committedRead]? with
    | none =>
      simp only [move, listen, hblock, ite_self]
      exact .idle _ (by simp) (by simp)
    | some block =>
      simp only [move, listen, hblock]
      split
      · exact .committed block commitFromThis hblock
      · exact .idle _ (by simp) (by simp)
  | forked =>
    cases hblock : n.replica.forkedBlocks[n.forkedRead]? with
    | none =>
      simp only [move, listenForked, hblock, ite_self]
      exact .idle _ (by simp) (by simp)
    | some block =>
      simp only [move, listenForked, hblock]
      split
      · exact .forked block hblock
      · exact .idle _ (by simp) (by simp)

theorem step_moves (hup : n.Up) (a : Activity) : Moves env alg cfg n a (n.step env alg cfg a) := by
  rw [step, if_pos hup]
  exact move_moves a

/-- A rule for runs: a node that is up moves, one that has panicked does nothing. -/
theorem after_induction (alg : Algorithm) {id : NodeID} {isByz : Bool}
    {J : List Activity → Node → Prop}
    (hnew : J [] (new env cfg id isByz))
    (hmoves : ∀ acts a n n', n.Up → Moves env alg cfg n a n' → J acts n → J (acts ++ [a]) n')
    (hdown : ∀ acts a n, ¬ n.Up → J acts n → J (acts ++ [a]) n) (acts : List Activity) :
    J acts (after env alg cfg id isByz acts) := by
  induction acts using List.reverseRecOn with
  | nil => exact hnew
  | append_singleton acts a ih =>
    have hafter : after env alg cfg id isByz (acts ++ [a]) =
        (after env alg cfg id isByz acts).step env alg cfg a := by
      simp [after, run]
    rw [hafter]
    by_cases hup : (after env alg cfg id isByz acts).Up
    · exact hmoves acts a _ _ hup (step_moves hup a) ih
    · rw [step, if_neg hup]
      exact hdown acts a _ hup ih

end Moves

end Node

end Bamboo
