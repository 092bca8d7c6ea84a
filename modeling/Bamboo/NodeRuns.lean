import Bamboo.MempoolRuns
import Bamboo.Node
import Bamboo.Proposals

/-!
# Runs of a node

However the moves of a node's goroutines are scheduled, its replica is given inputs that
come from the channels. The first part says which: the messages that have arrived, in
their order and each once, without those that were behind when `handle` took them out,
and the blocks that the replica itself has proposed, each once and in their order. The
second part follows the transactions through the memory pool.
-/
namespace Bamboo

open Relation

/-! ## What a replica delivers -/

section Delivers

variable {env : Env} {alg : Algorithm} {K : Known} {s s' : Replica}

/-- The channels to the application grow at their ends. -/
structure Delivers (s s' : Replica) : Prop where
  id : s'.id = s.id
  isByz : s'.isByz = s.isByz
  committedBlocks : s.committedBlocks <+: s'.committedBlocks
  forkedBlocks : s.forkedBlocks <+: s'.forkedBlocks

theorem Clerical.delivers (h : Clerical env alg K s s') : Delivers s s' := by
  have hlater := h.later
  cases h with
  | commit => exact ⟨hlater.id, hlater.isByz, List.prefix_append _ _, List.prefix_append _ _⟩
  | _ => exact ⟨hlater.id, hlater.isByz, List.prefix_rfl, List.prefix_rfl⟩

theorem Step.delivers (h : Step env alg K s s') : Delivers s s' := by
  have hlater := h.later
  rcases h with ((h | _) | _ | _) | _ | _ | _
  · exact h.delivers
  all_goals exact ⟨hlater.id, hlater.isByz, List.prefix_rfl, List.prefix_rfl⟩

theorem Steps.delivers (h : ReflTransGen (Step env alg K) s s') : Delivers s s' := by
  induction h with
  | refl => exact ⟨rfl, rfl, List.prefix_rfl, List.prefix_rfl⟩
  | tail _ hstep ih =>
    have hlast := hstep.delivers
    exact ⟨hlast.id.trans ih.id, hlast.isByz.trans ih.isByz,
      ih.committedBlocks.trans hlast.committedBlocks, ih.forkedBlocks.trans hlast.forkedBlocks⟩

end Delivers

/-! ## Entering a view -/

section Entering

variable {env : Env} {alg : Algorithm} {s : Replica} {view : View} {payload : List Transaction}
  {fuel : ℕ}

theorem makeBlock_payload {qc : QC} {prevID : Identifier} {proposer : NodeID} {mali : Bool}
    {forkNum height : ℤ} {b : Block}
    (h : makeBlock env view qc prevID payload proposer mali forkNum height = .ok b) :
    b.payload = payload := by
  unfold makeBlock at h
  simp only [bind, Except.bind] at h
  split at h
  · cases h
  · cases h
    rfl

theorem Replica.step_follows (hup : s.crashed = false)
    (hview : s.pm.newViewChan[s.entered]? = some view)
    (hnot : ¬ (env.election.isLeader s.id view = true ∧ s.isByz = false)) :
    s.step env alg (.newView payload, fuel) = { s with entered := s.entered + 1 } := by
  have hstep : TakesView env payload s (s.step env alg (.newView payload, fuel)) :=
    Replica.step_takesView hup payload fuel
  generalize s.step env alg (.newView payload, fuel) = t at hstep
  cases hstep with
  | none hnone => cases hnone.symm.trans hview
  | follow => rfl
  | fail v hv hleader honest =>
    cases hv.symm.trans hview
    exact absurd ⟨hleader, honest⟩ hnot
  | propose v b hv hleader honest =>
    cases hv.symm.trans hview
    exact absurd ⟨hleader, honest⟩ hnot

/-- Making the block may panic. -/
theorem Replica.step_proposes (alg : Algorithm) (payload : List Transaction) (fuel : ℕ)
    (hup : s.crashed = false)
    (hview : s.pm.newViewChan[s.entered]? = some view)
    (hturn : env.election.isLeader s.id view = true ∧ s.isByz = false) :
    s.step env alg (.newView payload, fuel) =
        { s with entered := s.entered + 1, crashed := true } ∨
      ∃ b, b.payload = payload ∧ s.step env alg (.newView payload, fuel) =
        ({ s with entered := s.entered + 1 }.record (.propose s.toCore b)).push none
          (.block b) := by
  have hstep : TakesView env payload s (s.step env alg (.newView payload, fuel)) :=
    Replica.step_takesView hup payload fuel
  generalize s.step env alg (.newView payload, fuel) = t at hstep
  cases hstep with
  | none hnone => cases hnone.symm.trans hview
  | follow v hv hnot =>
    cases hv.symm.trans hview
    exact absurd hturn hnot
  | fail => exact Or.inl rfl
  | propose v b hv _ _ forkNum height hmade =>
    exact Or.inr ⟨b, makeBlock_payload hmade, rfl⟩

end Entering

namespace Node

/-! ## What comes in -/

def Activity.message : Activity → Option Msg
  | .recv m => some m
  | _ => none

def Activity.client : Activity → Option ClientRequest
  | .request r => some r
  | _ => none

/-- The messages that `recv` has passed on. -/
def arrivals (cfg : Settings) (isByz : Bool) (acts : List Activity) : List Msg :=
  if isByz = true ∧ cfg.silence = true then [] else acts.filterMap Activity.message

def requests (acts : List Activity) : List ClientRequest := acts.filterMap Activity.client

def ClientRequest.transaction : ClientRequest → Option Transaction
  | .txn m => some m
  | .query => none

theorem arrivals_snoc (cfg : Settings) (isByz : Bool) (acts : List Activity) (a : Activity) :
    arrivals cfg isByz (acts ++ [a]) =
      arrivals cfg isByz acts ++ arrivals cfg isByz [a] := by
  unfold arrivals
  split_ifs
  · rfl
  · rw [List.filterMap_append]

theorem requests_snoc (acts : List Activity) (a : Activity) :
    requests (acts ++ [a]) = requests acts ++ a.client.toList := by
  rw [requests, List.filterMap_append, requests]
  cases a <;> rfl

/-! ## What a replica is made to do -/

/-- What a move of a goroutine means for the replica. -/
inductive LoopEvent
  | heard (m : Msg) (fuel : ℕ)
  | own (b : Block) (fuel : ℕ)
  | txn
  | timeout
  | newView (payload : List Transaction)
  deriving DecidableEq, Repr

namespace LoopEvent

def input : LoopEvent → Input × ℕ
  | .heard m fuel => (.deliver m, fuel)
  | .own b fuel => (.deliver (.block b), fuel)
  | .txn => (.txn, 0)
  | .timeout => (.timeout, 0)
  | .newView payload => (.newView payload, 0)

def message : LoopEvent → Option Msg
  | .heard m _ => some m
  | _ => none

def block : LoopEvent → Option Block
  | .own b _ => some b
  | _ => none

end LoopEvent

section ViewAfter

variable (env : Env) (alg : Algorithm) (id : NodeID) (isByz : Bool)

/-- The view that the replica is in after the first events. -/
def viewAfter (events : List LoopEvent) (k : ℕ) : View :=
  ((Replica.new env id isByz).run env alg ((events.take k).map LoopEvent.input)).pm.curView

theorem viewAfter_snoc {events : List LoopEvent} {k : ℕ} (hk : k ≤ events.length)
    (e : LoopEvent) :
    viewAfter env alg id isByz (events ++ [e]) k = viewAfter env alg id isByz events k := by
  rw [viewAfter, viewAfter, List.take_append_of_le_length hk]

end ViewAfter

/-- A node after some activities. `events` is what the replica has done, `seen` are the
messages that `handle` has taken out, each with the number of events before it, and `lost`
are the messages that came after a panic. -/
structure Driven (env : Env) (alg : Algorithm) (cfg : Settings) (id : NodeID) (isByz : Bool)
    (acts : List Activity) (n : Node) (seen : List (Msg × ℕ)) (events : List LoopEvent)
    (lost : List Msg) : Prop where
  replica : n.replica = (Replica.new env id isByz).run env alg (events.map LoopEvent.input)
  arrived : seen.map Prod.fst ++ n.messageChan ++ lost = arrivals cfg isByz acts
  up : n.Up → lost = []
  times : ∀ x ∈ seen, x.2 ≤ events.length
  ordered : (seen.map Prod.snd).Pairwise (· ≤ ·)
  heard : events.filterMap LoopEvent.message ++ n.offered.toList =
    (seen.filter fun x => !x.1.stale (viewAfter env alg id isByz events x.2)).map Prod.fst
  own : events.filterMap LoopEvent.block ++ n.proposed.toList = n.replica.proposals.reverse

namespace Driven

variable {env : Env} {alg : Algorithm} {cfg : Settings} {id : NodeID} {isByz : Bool}
  {acts : List Activity} {n n' : Node} {seen : List (Msg × ℕ)} {events : List LoopEvent}
  {lost : List Msg} {a : Activity}

theorem new : Driven env alg cfg id isByz [] (Node.new env cfg id isByz) [] [] [] where
  replica := rfl
  arrived := by simp [arrivals, Node.new]
  up := fun _ => rfl
  times := by simp
  ordered := List.Pairwise.nil
  heard := rfl
  own := rfl

theorem delivers (h : Driven env alg cfg id isByz acts n seen events lost) :
    Delivers (Replica.new env id isByz) n.replica := by
  have hsteps := Replica.new_steps env alg id isByz (events.map LoopEvent.input) []
  rw [Replica.after, ← h.replica] at hsteps
  exact Steps.delivers hsteps

theorem delivers_step (h : Driven env alg cfg id isByz acts n seen events lost) (e : LoopEvent) :
    Delivers n.replica (n.replica.step env alg e.input) := by
  have hsteps := Replica.after_steps env alg id isByz (events.map LoopEvent.input) [e.input]
  rw [Replica.after, Replica.after, Replica.run_append, ← h.replica] at hsteps
  exact Steps.delivers hsteps

theorem steady (h : Driven env alg cfg id isByz acts n seen events lost) :
    Steady env alg Known.anything n.replica := by
  rw [h.replica]
  exact Replica.run_steady ..

theorem run_snoc (h : Driven env alg cfg id isByz acts n seen events lost) (e : LoopEvent) :
    n.replica.step env alg e.input =
      (Replica.new env id isByz).run env alg ((events ++ [e]).map LoopEvent.input) := by
  rw [h.replica, List.map_append, Replica.run_append]
  rfl

/-- Something happens that is not the arrival of a message. -/
theorem snoc (h : Driven env alg cfg id isByz acts n seen events lost)
    (ha : arrivals cfg isByz [a] = []) :
    Driven env alg cfg id isByz (acts ++ [a]) n seen events lost :=
  { h with arrived := by rw [arrivals_snoc, ha, List.append_nil, h.arrived] }

/-- What comes in after a panic is lost. -/
theorem down (h : Driven env alg cfg id isByz acts n seen events lost) (hdown : ¬ n.Up) :
    Driven env alg cfg id isByz (acts ++ [a]) n seen events
      (lost ++ arrivals cfg isByz [a]) :=
  { h with
    arrived := by rw [arrivals_snoc, ← h.arrived, List.append_assoc _ lost]
    up := fun hup => absurd hup hdown }

/-- The replica takes an event up, and proposes some blocks. -/
theorem event (h : Driven env alg cfg id isByz acts n seen events []) (e : LoopEvent)
    (blocks : List Block) (hreplica : n'.replica = n.replica.step env alg e.input)
    (hchan : n'.messageChan = n.messageChan)
    (hoffered : e.message.toList ++ n'.offered.toList = n.offered.toList)
    (hproposals : n'.replica.proposals.reverse = n.replica.proposals.reverse ++ blocks)
    (hproposed : e.block.toList ++ n'.proposed.toList = n.proposed.toList ++ blocks) :
    Driven env alg cfg id isByz acts n' seen (events ++ [e]) [] where
  replica := hreplica.trans (h.run_snoc e)
  arrived := by
    rw [hchan]
    exact h.arrived
  up := fun _ => rfl
  times := fun x hx => by
    rw [List.length_append]
    exact Nat.le_add_right_of_le (h.times x hx)
  ordered := h.ordered
  heard := by
    have hsame : ∀ x ∈ seen, (!x.1.stale (viewAfter env alg id isByz (events ++ [e]) x.2)) =
        !x.1.stale (viewAfter env alg id isByz events x.2) := fun x hx => by
      rw [viewAfter_snoc env alg id isByz (h.times x hx)]
    rw [List.filter_congr hsame, ← h.heard, ← hoffered, List.filterMap_append, List.append_assoc]
    cases e <;> rfl
  own := by
    rw [hproposals, ← h.own, List.append_assoc, ← hproposed, List.filterMap_append,
      List.append_assoc]
    cases e <;> rfl

/-- The replica does something other than to enter a view. -/
theorem idle (h : Driven env alg cfg id isByz acts n seen events []) (e : LoopEvent)
    (he : ∀ payload, e.input.1 ≠ .newView payload)
    (hreplica : n'.replica = n.replica.step env alg e.input)
    (hchan : n'.messageChan = n.messageChan)
    (hoffered : e.message.toList ++ n'.offered.toList = n.offered.toList)
    (hproposed : e.block.toList ++ n'.proposed.toList = n.proposed.toList) :
    Driven env alg cfg id isByz acts n' seen (events ++ [e]) [] := by
  have hidle : Idle n.replica (n.replica.step env alg e.input) := Replica.step_idle h.steady he
  refine h.event e [] hreplica hchan hoffered ?_ ?_
  · rw [hreplica, Replica.proposals, hidle.proposed, List.append_nil]
    rfl
  · rw [hproposed, List.append_nil]

/-- `handle` takes a message out, and offers it unless it is behind. -/
theorem take (h : Driven env alg cfg id isByz acts n seen events []) {m : Msg}
    {rest : List Msg} (hchan : n.messageChan = m :: rest) (hnone : n.offered = none)
    (hreplica : n'.replica = n.replica) (hproposed : n'.proposed = n.proposed)
    (hrest : n'.messageChan = rest)
    (hoffered : n'.offered = if m.stale n.curView then none else some m) :
    Driven env alg cfg id isByz acts n' (seen ++ [(m, events.length)]) events [] where
  replica := hreplica.trans h.replica
  arrived := by
    rw [← h.arrived, hchan, hrest]
    simp
  up := fun _ => rfl
  times := fun x hx => by
    rcases List.mem_append.mp hx with hold | hnew
    · exact h.times x hold
    · rw [List.mem_singleton.mp hnew]
  ordered := by
    rw [List.map_append, List.pairwise_append]
    refine ⟨h.ordered, List.pairwise_singleton _ _, fun k hk k' hk' => ?_⟩
    obtain ⟨x, hx, rfl⟩ := List.mem_map.mp hk
    rw [List.mem_singleton.mp hk']
    exact h.times x hx
  heard := by
    have hview : viewAfter env alg id isByz events events.length = n.curView := by
      rw [viewAfter, List.take_length, ← h.replica]
      rfl
    have hheard := h.heard
    rw [hnone, Option.toList_none, List.append_nil] at hheard
    rw [hheard, hoffered, List.filter_append, List.map_append]
    cases hstale : m.stale n.curView <;> simp [hview, hstale]
  own := by
    rw [hreplica, hproposed]
    exact h.own

theorem arrivals_stay (h : Driven env alg cfg id isByz acts n seen events lost)
    (hrecv : ∀ m, a = .recv m → n.replica.isByz = true ∧ cfg.silence = true) :
    arrivals cfg isByz [a] = [] := by
  unfold arrivals
  split_ifs with hsilent
  · rfl
  · cases a with
    | recv m =>
      have hbyz := hrecv m rfl
      rw [h.delivers.isByz] at hbyz
      exact absurd hbyz hsilent
    | _ => rfl

theorem moves (h : Driven env alg cfg id isByz acts n seen events lost) (hup : n.Up)
    (hm : Moves env alg cfg n a n') :
    ∃ seen events lost, Driven env alg cfg id isByz (acts ++ [a]) n' seen events lost := by
  obtain rfl := h.up hup
  have hquiet : (∀ m, a ≠ .recv m) → Driven env alg cfg id isByz (acts ++ [a]) n seen events [] :=
    fun ha => h.snoc (h.arrivals_stay fun m hm => absurd hm (ha m))
  cases hm with
  | stay _ hrecv => exact ⟨_, _, _, h.snoc (h.arrivals_stay hrecv)⟩
  | fail => exact ⟨seen, events, [], { hquiet (by simp) with up := fun _ => rfl }⟩
  | recv m hloud =>
    refine ⟨seen, events, [], { h with arrived := ?_, up := fun _ => rfl }⟩
    rw [h.delivers.isByz] at hloud
    have hone : arrivals cfg isByz [.recv m] = [m] := if_neg hloud
    rw [arrivals_snoc, ← h.arrived, hone]
    simp
  | drop m rest hchan hnone hstale =>
    refine ⟨_, _, _, Driven.take (hquiet (by simp)) hchan hnone rfl rfl rfl ?_⟩
    simp [hstale, hnone]
  | offer m rest started hchan hnone hfresh =>
    refine ⟨_, _, _, Driven.take (hquiet (by simp)) hchan hnone rfl rfl rfl ?_⟩
    simp [hfresh]
  | txn =>
    exact ⟨_, _, _, Driven.idle (hquiet (by simp)) .txn (by simp [LoopEvent.input]) rfl rfl rfl rfl⟩
  | timeout =>
    exact ⟨_, _, _, Driven.idle (hquiet (by simp)) .timeout (by simp [LoopEvent.input])
      rfl rfl rfl rfl⟩
  | takeMessage m fuel hoffered =>
    refine ⟨_, _, _, Driven.idle (hquiet (by simp)) (.heard m fuel) (by simp [LoopEvent.input])
      rfl rfl ?_ rfl⟩
    rw [hoffered]
    rfl
  | follow view hview hnot =>
    refine ⟨_, _, _, Driven.event (hquiet (by simp)) (.newView []) [] rfl rfl rfl ?_ ?_⟩
    · change (n.replica.step env alg (.newView [], 0)).proposals.reverse = _
      rw [Replica.step_follows hup.2 hview hnot, List.append_nil]
      rfl
    · exact (List.append_nil _).symm
  | propose view payload pd hview hturn hnone hpayload =>
    have hblocks : ∃ blocks,
        (n.replica.step env alg (.newView payload, 0)).proposals.reverse =
          n.replica.proposals.reverse ++ blocks ∧
        (broadcastBlock n.replica (n.replica.step env alg (.newView payload, 0))).toList =
          n.proposed.toList ++ blocks := by
      rw [hnone]
      rcases Replica.step_proposes alg payload 0 hup.2 hview hturn with hstep | ⟨b, -, hstep⟩
      · refine ⟨[], ?_, ?_⟩
        · rw [hstep, List.append_nil]
          rfl
        · rw [hstep]
          simp [broadcastBlock]
      · refine ⟨[b], ?_, ?_⟩
        · rw [hstep]
          exact List.reverse_cons
        · rw [hstep]
          simp [broadcastBlock, Replica.push, Replica.record]
    obtain ⟨blocks, hproposals, hproposed⟩ := hblocks
    exact ⟨_, _, _, Driven.event (hquiet (by simp)) (.newView payload) blocks rfl rfl rfl
      hproposals hproposed⟩
  | processOwn b fuel hproposed =>
    refine ⟨_, _, _, Driven.idle (hquiet (by simp)) (.own b fuel) (by simp [LoopEvent.input])
      rfl rfl rfl ?_⟩
    rw [hproposed]
    rfl
  | _ => exact ⟨seen, events, [], { hquiet (by simp) with up := fun _ => rfl }⟩

end Driven

theorem after_driven (env : Env) (alg : Algorithm) (cfg : Settings) (id : NodeID) (isByz : Bool)
    (acts : List Activity) :
    ∃ seen events lost,
      Driven env alg cfg id isByz acts (after env alg cfg id isByz acts) seen events lost := by
  refine after_induction alg (J := fun acts n => ∃ seen events lost,
    Driven env alg cfg id isByz acts n seen events lost) ⟨[], [], [], Driven.new⟩ ?_ ?_ acts
  · rintro acts a n n' hup hm ⟨seen, events, lost, h⟩
    exact h.moves hup hm
  · rintro acts a n hdown ⟨seen, events, lost, h⟩
    exact ⟨_, _, _, h.down hdown⟩

/-! ## Transactions -/

/-- The forked blocks whose transactions have gone back to the memory pool. -/
def collected (n : Node) : List Block :=
  (n.replica.forkedBlocks.take n.forkedRead).filter fun b => b.proposer = n.replica.id

/-- The committed blocks that `ListenCommittedBlocks` has read. -/
def read (n : Node) : List Block := n.replica.committedBlocks.take n.committedRead

/-- What the accounts of a node are about. `taken` are the requests that `txn` has taken out,
`accepted` the transactions that the memory pool took, and `marks` what
`ListenCommittedBlocks` has seen of the blocks it has read; `asked` of these were read before
the last query. A panic loses the requests that come later, and `payload` if it was the
making of a block that panicked. -/
structure Account where
  taken : List ClientRequest
  accepted : List Transaction
  marks : List Bool
  asked : ℕ
  lost : List ClientRequest
  payload : List Transaction

section Counts

variable (me : NodeID) (blocks : List Block) (marks : List Bool) (asked : ℕ)

/-- The counts of the blocks that have been read. A query starts that of their transactions
anew. -/
def counts : Statistics :=
  { Statistics.after me (List.zipWith Committed.mk blocks marks) with
    totalCommittedTx := ((blocks.drop asked).map fun b => b.payload.length).sum }

theorem handleQuery_counts :
    (counts me blocks marks asked).handleQuery = counts me blocks marks blocks.length := by
  rw [counts, counts, List.drop_length]
  rfl

variable {blocks marks asked}

theorem processCommittedBlock_counts (hmarks : blocks.length = marks.length)
    (hasked : asked ≤ blocks.length) (block : Block) (mark : Bool) :
    (counts me blocks marks asked).processCommittedBlock me ⟨block, mark⟩ =
      counts me (blocks ++ [block]) (marks ++ [mark]) asked := by
  rw [counts, counts, Statistics.processCommittedBlock_recount, List.zipWith_append hmarks,
    Statistics.after, Statistics.after, List.foldl_append, List.drop_append_of_le_length hasked,
    List.map_append, List.sum_append]
  simp

end Counts

/-- The accounts of a node are in order. If the making of a block has panicked, what is
missing is what `GeneratePayload` takes from the pool. -/
structure Books (cfg : Settings) (acts : List Activity) (n : Node) (k : Account) : Prop where
  requested : k.taken ++ n.txChan ++ k.lost = requests acts
  sublist : k.accepted.Sublist (k.taken.filterMap ClientRequest.transaction)
  received : k.accepted.length = n.pd.totalReceived
  pool : (n.pd.txns ++ n.replica.proposals.flatMap Block.payload ++ k.payload).Perm
    (k.accepted ++ n.collected.flatMap Block.payload)
  up : n.Up → k.lost = []
  interrupted : k.payload = [] ∨
    n.replica.crashed = true ∧ (k.payload ++ n.pd.txns).take cfg.bSize.toNat = k.payload
  stats : n.stats = counts n.replica.id n.read k.marks k.asked
  marked : k.marks.length = n.committedRead
  asked_le : k.asked ≤ n.committedRead
  unasked : .query ∉ k.taken → k.asked = 0
  committedRead : n.committedRead ≤ n.replica.committedBlocks.length
  forkedRead : n.forkedRead ≤ n.replica.forkedBlocks.length

namespace Books

variable {env : Env} {alg : Algorithm} {cfg : Settings} {id : NodeID} {isByz : Bool}
  {acts : List Activity} {n n' : Node} {k : Account} {a : Activity}

theorem new : Books cfg [] (Node.new env cfg id isByz) ⟨[], [], [], 0, [], []⟩ where
  requested := rfl
  sublist := List.Sublist.refl []
  received := rfl
  pool := List.Perm.refl []
  up := fun _ => rfl
  interrupted := Or.inl rfl
  stats := rfl
  marked := rfl
  asked_le := le_refl 0
  unasked := fun _ => rfl
  committedRead := le_refl 0
  forkedRead := le_refl 0

theorem payload_eq (h : Books cfg acts n k) (hup : n.Up) : k.payload = [] :=
  h.interrupted.resolve_right fun hcrash => by simp [hup.2] at hcrash

theorem length_read (h : Books cfg acts n k) : n.read.length = n.committedRead :=
  List.length_take_of_le h.committedRead

/-- Something happens that is not a request. -/
theorem snoc (h : Books cfg acts n k) (ha : a.client = none) : Books cfg (acts ++ [a]) n k :=
  { h with
    requested := by rw [requests_snoc, ha, h.requested, Option.toList_none, List.append_nil] }

theorem down (h : Books cfg acts n k) (hdown : ¬ n.Up) :
    Books cfg (acts ++ [a]) n { k with lost := k.lost ++ a.client.toList } :=
  { h with
    requested := by rw [requests_snoc, ← h.requested, List.append_assoc _ k.lost]
    up := fun hup => absurd hup hdown }

theorem take_eq_of_prefix {α : Type} {l l' : List α} {k : ℕ} (h : l <+: l') (hk : k ≤ l.length) :
    l'.take k = l.take k := by
  obtain ⟨more, rfl⟩ := h
  exact List.take_append_of_le_length hk

/-- The replica goes on, and may take transactions from the pool for a proposal. -/
theorem turn (h : Books cfg acts n k) (hup : n.Up) (hd : Delivers n.replica n'.replica)
    (payload : List Transaction)
    (hpool : (n'.pd.txns ++ n'.replica.proposals.flatMap Block.payload ++ payload).Perm
      (n.pd.txns ++ n.replica.proposals.flatMap Block.payload))
    (hlost : payload = [] ∨
      n'.replica.crashed = true ∧ (payload ++ n'.pd.txns).take cfg.bSize.toNat = payload)
    (htotal : n'.pd.totalReceived = n.pd.totalReceived)
    (htxChan : n'.txChan = n.txChan) (hstats : n'.stats = n.stats)
    (hcommitted : n'.committedRead = n.committedRead) (hforked : n'.forkedRead = n.forkedRead) :
    Books cfg acts n' { k with payload := payload } := by
  have hcollected : n'.collected = n.collected := by
    rw [collected, collected, hforked, hd.id, take_eq_of_prefix hd.forkedBlocks h.forkedRead]
  have hread : n'.read = n.read := by
    rw [read, read, hcommitted, take_eq_of_prefix hd.committedBlocks h.committedRead]
  have hwhole := h.pool
  rw [h.payload_eq hup, List.append_nil] at hwhole
  constructor
  · rw [htxChan]
    exact h.requested
  · exact h.sublist
  · rw [htotal]
    exact h.received
  · rw [hcollected]
    exact hpool.trans hwhole
  · exact fun _ => h.up hup
  · exact hlost
  · rw [hstats, h.stats, hread, hd.id]
  · rw [hcommitted]
    exact h.marked
  · rw [hcommitted]
    exact h.asked_le
  · exact h.unasked
  · rw [hcommitted]
    exact h.committedRead.trans hd.committedBlocks.length_le
  · rw [hforked]
    exact h.forkedRead.trans hd.forkedBlocks.length_le

/-- The replica goes on and proposes nothing. -/
theorem idle (h : Books cfg acts n k) (hup : n.Up) (hd : Delivers n.replica n'.replica)
    (hproposals : n'.replica.proposals = n.replica.proposals) (hpd : n'.pd = n.pd)
    (htxChan : n'.txChan = n.txChan) (hstats : n'.stats = n.stats)
    (hcommitted : n'.committedRead = n.committedRead) (hforked : n'.forkedRead = n.forkedRead) :
    Books cfg acts n' { k with payload := [] } := by
  refine h.turn hup hd [] ?_ (Or.inl rfl) ?_ htxChan hstats hcommitted hforked
  · rw [hpd, hproposals, List.append_nil]
  · rw [hpd]

/-- `txn` takes a transaction out, and the memory pool accepts it unless it is full. -/
theorem add (h : Books cfg acts n k) (hpayload : k.payload = []) (hlost : k.lost = [])
    {txn : Transaction} {rest : List ClientRequest} {pd : Producer Transaction}
    (hchan : n.txChan = .txn txn :: rest) (hadd : n.pd.addTxn (some txn) = .ok pd) :
    ∃ k', Books cfg acts { n with txChan := rest, pd := pd } k' := by
  have hpd : pd = n.pd.insertBack (some txn) := by
    cases hadd
    rfl
  have hrequested : k.taken ++ [.txn txn] ++ rest ++ k.lost = requests acts := by
    rw [← h.requested, hchan, List.append_assoc k.taken]
    rfl
  have htaken : (k.taken ++ [ClientRequest.txn txn]).filterMap ClientRequest.transaction =
      k.taken.filterMap ClientRequest.transaction ++ [txn] := List.filterMap_append
  have hunasked : ClientRequest.query ∉ k.taken ++ [.txn txn] → k.asked = 0 := fun hq =>
    h.unasked fun hmem => hq (List.mem_append_left _ hmem)
  rcases Int.lt_or_le n.pd.limit n.pd.size with hfull | hroom
  · rw [Backend.insertBack_of_lt hfull] at hpd
    subst hpd
    refine ⟨{ k with taken := k.taken ++ [.txn txn] }, { h with
      requested := hrequested, sublist := ?_, unasked := hunasked, up := fun _ => hlost }⟩
    rw [htaken]
    exact h.sublist.trans (List.sublist_append_left _ _)
  · rw [Backend.insertBack_of_le hroom] at hpd
    subst hpd
    refine ⟨{ k with taken := k.taken ++ [.txn txn], accepted := k.accepted ++ [txn] }, { h with
      requested := hrequested, sublist := ?_, received := ?_, pool := ?_
      interrupted := Or.inl hpayload, unasked := hunasked, up := fun _ => hlost }⟩
    · rw [htaken]
      exact h.sublist.append_right [txn]
    · simp [h.received]
    · have hpool := h.pool
      simp only [List.append_assoc] at hpool ⊢
      exact (List.perm_middle.trans (hpool.cons txn)).trans List.perm_middle.symm

/-- `txn` takes a query out. -/
theorem ask (h : Books cfg acts n k) (hlost : k.lost = []) {rest : List ClientRequest}
    (hchan : n.txChan = .query :: rest) :
    Books cfg acts { n with txChan := rest, stats := n.stats.handleQuery }
      { k with taken := k.taken ++ [.query], asked := n.committedRead } := by
  refine { h with
    requested := ?_, sublist := ?_, stats := ?_, asked_le := le_refl _, unasked := fun hq => ?_
    up := fun _ => hlost }
  · rw [← h.requested, hchan, List.append_assoc k.taken]
    rfl
  · rw [List.filterMap_append]
    exact h.sublist.trans (List.sublist_append_left _ _)
  · have hstats := congrArg Statistics.handleQuery h.stats
    rw [handleQuery_counts, h.length_read] at hstats
    exact hstats
  · exact absurd (List.mem_append_right _ (List.mem_singleton_self _)) hq

/-- A payload leaves the memory pool for a block. -/
theorem propose (h : Books cfg acts n k) {view : View} {payload : List Transaction}
    {pd : Producer Transaction} (hup : n.Up)
    (hview : n.replica.pm.newViewChan[n.replica.entered]? = some view)
    (hturn : env.election.isLeader n.replica.id view = true ∧ n.replica.isByz = false)
    (hpayload : n.pd.generatePayload cfg.bSize = .ok (payload.map some, pd))
    (hd : Delivers n.replica n'.replica)
    (hreplica : n'.replica = n.replica.step env alg (.newView payload, 0)) (hpd : n'.pd = pd)
    (htxChan : n'.txChan = n.txChan) (hstats : n'.stats = n.stats)
    (hcommitted : n'.committedRead = n.committedRead) (hforked : n'.forkedRead = n.forkedRead) :
    ∃ k', Books cfg acts n' k' := by
  obtain ⟨-, hfront, hrest⟩ := generatePayload_eq hpayload
  have htaken : payload = n.pd.txns.take cfg.bSize.toNat :=
    List.map_injective_iff.mpr (Option.some_injective Transaction) hfront
  have hwhole : payload ++ n'.pd.txns = n.pd.txns := by
    rw [hpd, hrest, htaken, List.take_append_drop]
  have hsplit : (n'.pd.txns ++ payload).Perm n.pd.txns := by
    rw [← hwhole]
    exact List.perm_append_comm
  have htotal : n'.pd.totalReceived = n.pd.totalReceived := by rw [hpd, hrest]
  rcases Replica.step_proposes alg payload 0 hup.2 hview hturn with hstep | ⟨b, rfl, hstep⟩
  · refine ⟨_, h.turn hup hd payload ?_ (Or.inr ⟨?_, ?_⟩) htotal htxChan hstats hcommitted
      hforked⟩
    · have hproposals : n'.replica.proposals = n.replica.proposals := by
        rw [hreplica, hstep]
        rfl
      rw [hproposals, List.append_assoc]
      refine (List.perm_append_comm.append_left _).trans ?_
      rw [← List.append_assoc]
      exact hsplit.append_right _
    · rw [hreplica, hstep]
    · rw [hwhole, ← htaken]
  · refine ⟨_, h.turn hup hd [] ?_ (Or.inl rfl) htotal htxChan hstats hcommitted hforked⟩
    have hproposals : n'.replica.proposals = b :: n.replica.proposals := by
      rw [hreplica, hstep]
      rfl
    rw [hproposals, List.flatMap_cons, List.append_nil, ← List.append_assoc]
    exact hsplit.append_right _

/-- `ListenCommittedBlocks` takes a committed block. -/
theorem commit (h : Books cfg acts n k) (hlost : k.lost = []) {block : Block}
    (commitFromThis : Bool)
    (hblock : n.replica.committedBlocks[n.committedRead]? = some block) :
    Books cfg acts
      { n with
        stats := n.stats.processCommittedBlock n.replica.id ⟨block, commitFromThis⟩
        committedRead := n.committedRead + 1 }
      { k with marks := k.marks ++ [commitFromThis] } := by
  obtain ⟨hlt, -⟩ := List.getElem?_eq_some_iff.mp hblock
  refine { h with
    stats := ?_, marked := by simp [h.marked], committedRead := hlt
    asked_le := Nat.le_succ_of_le h.asked_le, up := fun _ => hlost }
  have hread : read { n with committedRead := n.committedRead + 1 } = n.read ++ [block] := by
    rw [read, List.take_add_one, hblock]
    rfl
  have hlength : n.read.length = k.marks.length := h.length_read.trans h.marked.symm
  have hasked : k.asked ≤ n.read.length := h.length_read.symm ▸ h.asked_le
  have hstats := processCommittedBlock_counts n.replica.id hlength hasked block commitFromThis
  rw [← h.stats, ← hread] at hstats
  exact hstats

/-- `ListenCommittedBlocks` takes a forked block, whose transactions go back to the pool
of its proposer. -/
theorem fork (h : Books cfg acts n k) (hpayload : k.payload = []) (hlost : k.lost = [])
    {block : Block} (hblock : n.replica.forkedBlocks[n.forkedRead]? = some block) :
    Books cfg acts
      { n with
        pd := processForkedBlock n.replica.id n.pd block
        forkedRead := n.forkedRead + 1 } k := by
  obtain ⟨hlt, -⟩ := List.getElem?_eq_some_iff.mp hblock
  by_cases hown : block.proposer = n.replica.id
  · have hpd : processForkedBlock n.replica.id n.pd block =
        { n.pd with txns := block.payload.reverse ++ n.pd.txns } := by
      rw [processForkedBlock, if_pos hown, collectTxn_foldl]
    have hcollected : collected { n with
        pd := processForkedBlock n.replica.id n.pd block
        forkedRead := n.forkedRead + 1 } = n.collected ++ [block] := by
      simp [collected, List.take_add_one, hblock, hown]
    refine { h with
      received := ?_, pool := ?_, interrupted := Or.inl hpayload, forkedRead := hlt
      up := fun _ => hlost }
    · rw [hpd]
      exact h.received
    · rw [hcollected, hpd, List.flatMap_append, List.flatMap_singleton]
      simp only [List.append_assoc]
      have hpool := ((List.reverse_perm block.payload).append h.pool).trans List.perm_append_comm
      simpa only [List.append_assoc] using hpool
  · have hpd : processForkedBlock n.replica.id n.pd block = n.pd := if_neg hown
    have hcollected : collected { n with
        pd := processForkedBlock n.replica.id n.pd block
        forkedRead := n.forkedRead + 1 } = n.collected := by
      simp [collected, List.take_add_one, hblock, hown]
    refine { h with
      received := ?_, pool := ?_, interrupted := Or.inl hpayload, forkedRead := hlt
      up := fun _ => hlost }
    · rw [hpd]
      exact h.received
    · rw [hcollected, hpd]
      exact h.pool

theorem moves {seen : List (Msg × ℕ)} {events : List LoopEvent} {lost : List Msg}
    (h : Books cfg acts n k) (hdriven : Driven env alg cfg id isByz acts n seen events lost)
    (hup : n.Up) (hm : Moves env alg cfg n a n') : ∃ k', Books cfg (acts ++ [a]) n' k' := by
  have hlost := h.up hup
  have hpayload := h.payload_eq hup
  -- a turn of the replica on which it does not enter a view
  have hidle : ∀ e : LoopEvent, (∀ payload, e.input.1 ≠ .newView payload) →
      Delivers n.replica (n.replica.step env alg e.input) ∧
        (n.replica.step env alg e.input).proposals = n.replica.proposals :=
    fun e he => ⟨hdriven.delivers_step e, (Replica.step_idle hdriven.steady he).proposed⟩
  cases hm with
  | stay _ _ hrequest =>
    refine ⟨k, h.snoc ?_⟩
    cases a with
    | request r => exact absurd rfl (hrequest r)
    | _ => rfl
  | request r =>
    refine ⟨k, { h with requested := ?_, up := fun _ => hlost }⟩
    rw [requests_snoc, ← h.requested, hlost]
    simp [Activity.client]
  | txn txn rest pd hchan hadd =>
    obtain ⟨hd, hproposals⟩ := hidle .txn (by simp [LoopEvent.input])
    have hturn : Books cfg acts
        { n with isStarted := true, replica := n.replica.step env alg LoopEvent.txn.input }
        { k with payload := [] } :=
      h.idle hup hd hproposals rfl rfl rfl rfl rfl
    obtain ⟨k', hadded⟩ := hturn.add rfl hlost hchan hadd
    exact ⟨k', hadded.snoc rfl⟩
  | query rest hchan => exact ⟨_, (h.ask hlost hchan).snoc rfl⟩
  | timeout =>
    obtain ⟨hd, hproposals⟩ := hidle .timeout (by simp [LoopEvent.input])
    exact ⟨_, Books.idle (h.snoc (by rfl)) hup hd hproposals rfl rfl rfl rfl rfl⟩
  | takeMessage m fuel =>
    obtain ⟨hd, hproposals⟩ := hidle (.heard m fuel) (by simp [LoopEvent.input])
    exact ⟨_, Books.idle (h.snoc (by rfl)) hup hd hproposals rfl rfl rfl rfl rfl⟩
  | processOwn b fuel =>
    obtain ⟨hd, hproposals⟩ := hidle (.own b fuel) (by simp [LoopEvent.input])
    exact ⟨_, Books.idle (h.snoc (by rfl)) hup hd hproposals rfl rfl rfl rfl rfl⟩
  | follow view hview hnot =>
    have hd := hdriven.delivers_step (.newView [])
    refine ⟨_, Books.idle (h.snoc (by rfl)) hup hd ?_ rfl rfl rfl rfl rfl⟩
    change (n.replica.step env alg (.newView [], 0)).proposals = _
    rw [Replica.step_follows hup.2 hview hnot]
    rfl
  | propose view payload pd hview hturn hnone hpayload =>
    have hd := hdriven.delivers_step (.newView payload)
    exact Books.propose (h.snoc (by rfl)) hup hview hturn hpayload hd rfl rfl rfl rfl rfl rfl
  | committed block commitFromThis hblock =>
    exact ⟨_, (h.commit hlost commitFromThis hblock).snoc rfl⟩
  | forked block hblock => exact ⟨_, (h.fork hpayload hlost hblock).snoc rfl⟩
  | _ =>
    have hd : Delivers n.replica n.replica := ⟨rfl, rfl, List.prefix_rfl, List.prefix_rfl⟩
    exact ⟨_, Books.idle (h.snoc (by rfl)) hup hd rfl rfl rfl rfl rfl rfl⟩

end Books

theorem after_books (env : Env) (alg : Algorithm) (cfg : Settings) (id : NodeID) (isByz : Bool)
    (acts : List Activity) : ∃ k, Books cfg acts (after env alg cfg id isByz acts) k := by
  refine (after_induction alg (J := fun acts n =>
    (∃ seen events lost, Driven env alg cfg id isByz acts n seen events lost) ∧
      ∃ k, Books cfg acts n k) ⟨⟨[], [], [], Driven.new⟩, _, Books.new⟩ ?_ ?_ acts).2
  · rintro acts a n n' hup hm ⟨⟨seen, events, lost, hdriven⟩, k, h⟩
    exact ⟨hdriven.moves hup hm, h.moves hdriven hup hm⟩
  · rintro acts a n hdown ⟨⟨seen, events, lost, hdriven⟩, k, h⟩
    exact ⟨⟨_, _, _, hdriven.down hdown⟩, _, h.down hdown⟩

end Node

/-! ## Results -/

open Node

/-- Node 4 proposes the first of two requests, drops a timeout of view 0, and proposes the
second once three timeouts have ended view 1. -/
example :
    let n := Node.after fourNodes .hotStuff ⟨10, 2, false⟩ (newNodeID 4) false
      [.request (.txn ⟨"first"⟩), .txn, .enter, .takeView, .recv (.tmo ⟨0, newNodeID 2, none⟩),
        .handle, .request (.txn ⟨"second"⟩), .txn, .processOwn 8,
        .recv (.tmo ⟨1, newNodeID 2, some QC.initial⟩),
        .recv (.tmo ⟨1, newNodeID 3, some QC.initial⟩), .handle, .takeMessage 8, .timeout, .handle,
        .takeMessage 8, .enter, .takeView]
    n.Up ∧ n.curView = 2 ∧ n.pd.txns = [] ∧
      n.replica.proposals.map Block.payload = [[⟨"second"⟩], [⟨"first"⟩]] := by
  decide +kernel

end Bamboo
