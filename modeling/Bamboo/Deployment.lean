import Bamboo.NodeRuns
import Bamboo.Reports

/-!
# Deployments

The nodes of an honest network with all their goroutines. A message reaches a node only
after it was sent to it; which messages arrive, when and how often is up to the schedule,
and so is which goroutine moves next. As in the model of a node, a call of a handler is a
single move.

Whatever a deployment does, its replicas do in a network of replicas, so what holds of
networks holds of deployments. It follows that what is committed was requested: each
transaction of a committed block comes from a client of the node that proposed the block.
-/
namespace Bamboo

open Node

/-- A goroutine of one node makes a move. -/
structure Happening where
  node : ℕ
  activity : Activity
  deriving DecidableEq, Repr

structure Deployment where
  nodes : ℕ → Node

namespace Deployment

def init (env : Env) (cfg : Settings) : Deployment :=
  ⟨fun i => Node.new env cfg (newNodeID i) false⟩

/-- The replicas of the nodes. -/
def world (d : Deployment) : World := ⟨fun i => (d.nodes i).replica⟩

end Deployment

/-- Another node has sent the message to this one. -/
def World.SentTo (env : Env) (w : World) (node : ℕ) (m : Msg) : Prop :=
  ∃ src ∈ List.range' 1 env.n, src ≠ node ∧ ∃ e ∈ (w.nodes src).outbox,
    (e.dest = none ∨ e.dest = some (newNodeID node)) ∧ e.msg.wire = m

instance (env : Env) (w : World) (node : ℕ) (m : Msg) : Decidable (w.SentTo env node m) :=
  inferInstanceAs (Decidable (∃ src ∈ List.range' 1 env.n, _))

namespace Deployment

/-- What the socket of a node receives was sent to the node. -/
def Allowed (env : Env) (d : Deployment) (h : Happening) : Prop :=
  (1 ≤ h.node ∧ h.node ≤ env.n) ∧ ∀ m ∈ h.activity.message, d.world.SentTo env h.node m

instance (env : Env) (d : Deployment) (h : Happening) : Decidable (d.Allowed env h) :=
  inferInstanceAs (Decidable (_ ∧ _))

def step (env : Env) (alg : Algorithm) (cfg : Settings) (d : Deployment) (h : Happening) :
    Deployment :=
  if d.Allowed env h then
    ⟨Function.update d.nodes h.node ((d.nodes h.node).step env alg cfg h.activity)⟩
  else d

def run (env : Env) (alg : Algorithm) (cfg : Settings) (d : Deployment)
    (happenings : List Happening) : Deployment :=
  happenings.foldl (step env alg cfg) d

def after (env : Env) (alg : Algorithm) (cfg : Settings) (happenings : List Happening) :
    Deployment :=
  (init env cfg).run env alg cfg happenings

theorem after_snoc (env : Env) (alg : Algorithm) (cfg : Settings) (happenings : List Happening)
    (h : Happening) :
    after env alg cfg (happenings ++ [h]) = (after env alg cfg happenings).step env alg cfg h := by
  simp [after, run]

/-- The requests that clients have sent to a node. -/
def requestsAt (happenings : List Happening) (i : ℕ) : List ClientRequest :=
  happenings.filterMap fun h => if h.node = i then h.activity.client else none

theorem mem_requestsAt_snoc {happenings : List Happening} {h : Happening} {i : ℕ}
    {r : ClientRequest} : r ∈ requestsAt (happenings ++ [h]) i ↔
      r ∈ requestsAt happenings i ∨ h.node = i ∧ h.activity.client = some r := by
  by_cases heq : h.node = i
  · simp [requestsAt, heq]
  · simp [requestsAt, heq]

end Deployment

/-! ## The network of the replicas -/

section Mirrors

variable {env : Env} {alg : Algorithm} {cfg : Settings} {w w' : World} {i : ℕ} {m : Msg}

theorem World.SentTo.mono (h : w.SentTo env i m)
    (hw : ∀ j, (w.nodes j).outbox <+: (w'.nodes j).outbox) : w'.SentTo env i m := by
  obtain ⟨src, hsrc, hne, e, he, hrest⟩ := h
  exact ⟨src, hsrc, hne, e, (hw src).subset he, hrest⟩

/-- What was sent to a node can be delivered to its replica. -/
theorem World.SentTo.input (h : w.SentTo env i m) (hid : (w.nodes i).id = newNodeID i) :
    ∃ a, w.input env i a = some (.deliver m) := by
  obtain ⟨src, hsrc, hne, e, he, hdest, rfl⟩ := h
  obtain ⟨k, hk⟩ := List.getElem?_of_mem he
  have hrange : 1 ≤ src ∧ src ≤ env.n := by
    rw [List.mem_range'_1] at hsrc
    omega
  refine ⟨.deliver src k, ?_⟩
  simp [World.input, hrange, hk, hne, hid, hdest]

/-- A node takes up its own block as a delivery from itself. -/
theorem World.input_own (hi : 1 ≤ i ∧ i ≤ env.n) {dest : Option NodeID} {b : Block}
    (h : ⟨dest, .block b⟩ ∈ (w.nodes i).outbox) :
    ∃ a, w.input env i a = some (.deliver (.block b)) := by
  obtain ⟨k, hk⟩ := List.getElem?_of_mem h
  exact ⟨.deliver i k, by simp [World.input, hi, hk]⟩

/-- The replica of the node is the one of the network, and what waits in the channels of the
node was sent. -/
structure Mirrors (env : Env) (w : World) (i : ℕ) (n : Node) : Prop where
  replica : n.replica = w.nodes i
  messageChan : ∀ m ∈ n.messageChan, w.SentTo env i m
  offered : ∀ m ∈ n.offered, w.SentTo env i m
  proposed : ∀ b ∈ n.proposed, ∃ dest, ⟨dest, .block b⟩ ∈ (w.nodes i).outbox

/-- At most one more turn, of this node. -/
def OneMore (i : ℕ) (turns turns' : List Turn) : Prop :=
  turns' = turns ∨ ∃ t : Turn, t.node = i ∧ turns' = turns ++ [t]

section OneMore

variable {turns turns' : List Turn} (h : OneMore i turns turns')
include h

theorem OneMore.outbox (j : ℕ) : ((World.after env alg turns).nodes j).outbox <+:
    ((World.after env alg turns').nodes j).outbox := by
  rcases h with rfl | ⟨t, -, rfl⟩
  · exact List.prefix_rfl
  · exact (World.after_later turns t j).outbox

theorem OneMore.nodes_ne {j : ℕ} (hne : j ≠ i) :
    (World.after env alg turns').nodes j = (World.after env alg turns).nodes j := by
  rcases h with rfl | ⟨t, rfl, rfl⟩
  · rfl
  · rw [World.after_append]
    unfold World.step
    split_ifs
    · cases (World.after env alg turns).input env t.node t.action with
      | none => rfl
      | some input => exact World.take_ne env alg _ _ hne
    · rfl

/-- The other nodes stay as they are. -/
theorem Mirrors.other {j : ℕ} {n : Node} (hn : Mirrors env (World.after env alg turns) j n)
    (hne : j ≠ i) : Mirrors env (World.after env alg turns') j n where
  replica := hn.replica.trans (h.nodes_ne hne).symm
  messageChan m hm := (hn.messageChan m hm).mono fun k => h.outbox k
  offered m hm := (hn.offered m hm).mono fun k => h.outbox k
  proposed b hb := (hn.proposed b hb).imp fun _ hmem => (h.outbox j).subset hmem

end OneMore

section Step

variable {turns : List Turn} {n n' : Node}

/-- The replica takes a turn. -/
theorem Mirrors.turn (h : Mirrors env (World.after env alg turns) i n) (hi : 1 ≤ i ∧ i ≤ env.n)
    {input : Input} (hin : ∃ a, (World.after env alg turns).input env i a = some input) {fuel : ℕ}
    (hreplica : n'.replica = n.replica.step env alg (input, fuel))
    (hchan : ∀ m ∈ n'.messageChan, m ∈ n.messageChan)
    (hoffered : ∀ m ∈ n'.offered, m ∈ n.offered)
    (hproposed : ∀ b ∈ n'.proposed, b ∈ n.proposed ∨
      ∃ dest, ⟨dest, .block b⟩ ∈ n'.replica.outbox) :
    ∃ turns', OneMore i turns turns' ∧ Mirrors env (World.after env alg turns') i n' := by
  obtain ⟨a, hin⟩ := hin
  have hmore : OneMore i turns (turns ++ [⟨i, a, fuel⟩]) := Or.inr ⟨_, rfl, rfl⟩
  have hnode : n'.replica = (World.after env alg (turns ++ [⟨i, a, fuel⟩])).nodes i := by
    rw [World.after_append, World.step, if_pos hi]
    simp only [hin]
    rw [World.take_self, hreplica, h.replica]
  refine ⟨_, hmore, hnode, fun m hm => ?_, fun m hm => ?_, fun b hb => ?_⟩
  · exact (h.messageChan m (hchan m hm)).mono fun j => hmore.outbox j
  · exact (h.offered m (hoffered m hm)).mono fun j => hmore.outbox j
  · rcases hproposed b hb with hold | hnew
    · exact (h.proposed b hold).imp fun _ hmem => (hmore.outbox i).subset hmem
    · rwa [← hnode]

theorem broadcastBlock_mem {s s' : Replica} {b : Block} (h : broadcastBlock s s' = some b) :
    ∃ dest, ⟨dest, .block b⟩ ∈ s'.outbox := by
  obtain ⟨⟨dest, m⟩, he, hm⟩ := List.exists_of_findSome?_eq_some h
  cases m with
  | block c =>
    cases hm
    exact ⟨dest, List.mem_of_mem_drop he⟩
  | _ => cases hm

theorem Mirrors.moves (h : Mirrors env (World.after env alg turns) i n) (hi : 1 ≤ i ∧ i ≤ env.n)
    {a : Activity} (ha : ∀ m ∈ a.message, (World.after env alg turns).SentTo env i m)
    (hm : Moves env alg cfg n a n') :
    ∃ turns', OneMore i turns turns' ∧ Mirrors env (World.after env alg turns') i n' := by
  have hid : ((World.after env alg turns).nodes i).id = newNodeID i :=
    (World.after_reachable env alg turns i).id_eq
  have hsame : OneMore i turns turns := Or.inl rfl
  cases hm with
  | recv m =>
    refine ⟨turns, hsame, { h with messageChan := fun m' hm' => ?_ }⟩
    rcases List.mem_append.mp hm' with hold | hnew
    · exact h.messageChan m' hold
    · exact ha m' (by rw [List.mem_singleton.mp hnew]; rfl)
  | drop m rest hchan =>
    refine ⟨turns, hsame, { h with messageChan := fun m' hm' => h.messageChan m' ?_ }⟩
    rw [hchan]
    exact List.mem_cons_of_mem m hm'
  | offer m rest started hchan =>
    have hmem : ∀ m' ∈ m :: rest, (World.after env alg turns).SentTo env i m' := by
      rw [← hchan]
      exact h.messageChan
    refine ⟨turns, hsame, { h with
      messageChan := fun m' hm' => hmem m' (List.mem_cons_of_mem m hm')
      offered := fun m' hm' => ?_ }⟩
    cases hm'
    exact hmem m List.mem_cons_self
  | txn => exact h.turn hi ⟨.txn, rfl⟩ rfl (fun _ => id) (fun _ => id) fun _ => Or.inl
  | timeout => exact h.turn hi ⟨.timeout, rfl⟩ rfl (fun _ => id) (fun _ => id) fun _ => Or.inl
  | takeMessage m fuel hoffered =>
    exact h.turn hi ((h.offered m hoffered).input hid) rfl (fun _ => id) (by simp) fun _ => Or.inl
  | follow =>
    exact h.turn hi ⟨.newView [], rfl⟩ rfl (fun _ => id) (fun _ => id) fun _ => Or.inl
  | propose view payload =>
    exact h.turn hi ⟨.newView payload, rfl⟩ rfl (fun _ => id) (fun _ => id)
      fun b hb => Or.inr (broadcastBlock_mem hb)
  | processOwn b fuel hproposed =>
    obtain ⟨dest, hmem⟩ := h.proposed b hproposed
    exact h.turn hi (World.input_own hi hmem) rfl (fun _ => id) (fun _ => id) (by simp)
  | _ => exact ⟨turns, hsame, { h with }⟩

end Step

end Mirrors

namespace Deployment

variable {env : Env} {alg : Algorithm} {cfg : Settings}

theorem world_eq {d : Deployment} {w : World} (h : ∀ i, Mirrors env w i (d.nodes i)) :
    d.world = w :=
  congrArg World.mk (funext fun i => (h i).replica)

theorem after_mirrors (env : Env) (alg : Algorithm) (cfg : Settings)
    (happenings : List Happening) :
    ∃ turns, ∀ i, Mirrors env (World.after env alg turns) i
      ((after env alg cfg happenings).nodes i) := by
  induction happenings using List.reverseRecOn with
  | nil => exact ⟨[], fun i => ⟨rfl, by simp [after, run, init, Node.new],
      by simp [after, run, init, Node.new], by simp [after, run, init, Node.new]⟩⟩
  | append_singleton happenings h ih =>
    obtain ⟨turns, hmirrors⟩ := ih
    rw [after_snoc]
    generalize after env alg cfg happenings = d at hmirrors
    unfold step
    split_ifs with hallowed
    · obtain ⟨hrange, hsent⟩ := hallowed
      rw [world_eq hmirrors] at hsent
      have hstep : ∃ turns', OneMore h.node turns turns' ∧ Mirrors env (World.after env alg turns')
          h.node ((d.nodes h.node).step env alg cfg h.activity) := by
        by_cases hup : (d.nodes h.node).Up
        · exact (hmirrors h.node).moves hrange hsent (step_moves hup h.activity)
        · rw [Node.step, if_neg hup]
          exact ⟨turns, Or.inl rfl, hmirrors h.node⟩
      obtain ⟨turns', hmore, hnode⟩ := hstep
      refine ⟨turns', fun i => ?_⟩
      by_cases heq : i = h.node
      · subst heq
        simpa using hnode
      · simpa [heq] using (hmirrors i).other hmore heq
    · exact ⟨turns, hmirrors⟩

end Deployment

/-- However the moves of the nodes' goroutines are scheduled, the replicas of a deployment go
through a run of an honest network of replicas. -/
theorem deployment_refines_network (env : Env) (alg : Algorithm) (cfg : Settings)
    (happenings : List Happening) :
    ∃ turns, (Deployment.after env alg cfg happenings).world = World.after env alg turns := by
  obtain ⟨turns, hmirrors⟩ := Deployment.after_mirrors env alg cfg happenings
  exact ⟨turns, Deployment.world_eq hmirrors⟩

/-! ## Where transactions come from -/

/-- All transactions of the node were requested. -/
structure Draws (R : ClientRequest → Prop) (n : Node) : Prop where
  txChan : ∀ r ∈ n.txChan, R r
  pool : ∀ txn ∈ n.pd.txns, R (.txn txn)
  proposals : ∀ b ∈ n.replica.proposals, ∀ txn ∈ b.payload, R (.txn txn)

namespace Draws

variable {env : Env} {alg : Algorithm} {cfg : Settings} {R R' : ClientRequest → Prop}
  {n n' : Node} {a : Activity}

theorem mono (h : Draws R n) (hR : ∀ r, R r → R' r) : Draws R' n where
  txChan r hr := hR r (h.txChan r hr)
  pool txn ht := hR _ (h.pool txn ht)
  proposals b hb txn ht := hR _ (h.proposals b hb txn ht)

/-- The replica does something other than to enter a view. -/
theorem idle (h : Draws R n) (hs : Steady env alg Known.anything n.replica) {i : Input × ℕ}
    (hi : ∀ payload, i.1 ≠ .newView payload) :
    ∀ b ∈ (n.replica.step env alg i).proposals, ∀ txn ∈ b.payload, R (.txn txn) := by
  have hsame : (n.replica.step env alg i).proposals = n.replica.proposals :=
    (Replica.step_idle hs hi).proposed
  rw [hsame]
  exact h.proposals

theorem mem_insertBack {pd : Producer Transaction} {txn x : Transaction}
    (h : x ∈ (pd.insertBack (some txn)).txns) : x ∈ pd.txns ∨ x = txn := by
  rcases Int.lt_or_le pd.limit pd.size with hfull | hroom
  · rw [Backend.insertBack_of_lt hfull] at h
    exact Or.inl h
  · rw [Backend.insertBack_of_le hroom] at h
    simpa using h

theorem moves (h : Draws R n) (hs : Steady env alg Known.anything n.replica) (hup : n.Up)
    (ha : ∀ r ∈ a.client, R r)
    (hforked : ∀ b ∈ n.replica.forkedBlocks, b.proposer = n.replica.id →
      ∀ txn ∈ b.payload, R (.txn txn))
    (hm : Moves env alg cfg n a n') : Draws R n' := by
  cases hm with
  | request r =>
    refine { h with txChan := fun x hx => ?_ }
    rcases List.mem_append.mp hx with hold | hnew
    · exact h.txChan x hold
    · exact ha x (by rw [List.mem_singleton.mp hnew]; rfl)
  | txn txn rest pd hchan hadd =>
    have htxChan : ∀ r ∈ .txn txn :: rest, R r := by
      rw [← hchan]
      exact h.txChan
    refine ⟨fun r hr => htxChan r (List.mem_cons_of_mem _ hr), fun x hx => ?_, h.idle hs (by simp)⟩
    cases hadd
    rcases mem_insertBack hx with hold | rfl
    · exact h.pool x hold
    · exact htxChan _ List.mem_cons_self
  | query rest hchan =>
    refine { h with txChan := fun r hr => h.txChan r ?_ }
    rw [hchan]
    exact List.mem_cons_of_mem _ hr
  | timeout => exact { h with proposals := h.idle hs (by simp) }
  | takeMessage m fuel => exact { h with proposals := h.idle hs (by simp) }
  | processOwn b fuel => exact { h with proposals := h.idle hs (by simp) }
  | follow view hview hnot =>
    refine { h with proposals := ?_ }
    change ∀ b ∈ (n.replica.step env alg (.newView [], 0)).proposals, _
    rw [Replica.step_follows hup.2 hview hnot]
    exact h.proposals
  | propose view payload pd hview hturn hnone hpayload =>
    obtain ⟨-, hfront, rfl⟩ := generatePayload_eq hpayload
    obtain rfl := List.map_injective_iff.mpr (Option.some_injective Transaction) hfront
    refine ⟨h.txChan, fun x hx => h.pool x (List.mem_of_mem_drop hx), ?_⟩
    change ∀ b ∈ (n.replica.step env alg (.newView _, 0)).proposals, _
    rcases Replica.step_proposes alg _ 0 hup.2 hview hturn with hstep | ⟨b, hb, hstep⟩
    · rw [hstep]
      exact h.proposals
    · rw [hstep]
      intro c hc txn ht
      rcases List.mem_cons.mp hc with rfl | hold
      · rw [hb] at ht
        exact h.pool txn (List.mem_of_mem_take ht)
      · exact h.proposals c hold txn ht
  | forked block hblock =>
    refine { h with pool := fun x hx => ?_ }
    by_cases hown : block.proposer = n.replica.id
    · rw [processForkedBlock, if_pos hown, collectTxn_foldl] at hx
      rcases List.mem_append.mp hx with hback | hold
      · exact hforked block (List.mem_of_getElem? hblock) hown x (List.mem_reverse.mp hback)
      · exact h.pool x hold
    · rw [processForkedBlock, if_neg hown] at hx
      exact h.pool x hx
  | _ => exact { h with }

end Draws

/-- The transactions of a node come from its clients, also those that have been through a
block that was forked off. -/
theorem Deployment.after_draws (env : Env) (alg : Algorithm) (cfg : Settings)
    (happenings : List Happening) (i : ℕ) :
    Draws (· ∈ requestsAt happenings i) ((after env alg cfg happenings).nodes i) := by
  induction happenings using List.reverseRecOn with
  | nil => exact ⟨by simp [after, run, init, Node.new], by
      simp [after, run, init, Node.new, Producer.new, Backend.new], by
      simp [after, run, init, Node.new, Replica.new, Replica.proposals]⟩
  | append_singleton happenings h ih =>
    have hold : Draws (· ∈ requestsAt (happenings ++ [h]) i)
        ((after env alg cfg happenings).nodes i) :=
      ih.mono fun r hr => mem_requestsAt_snoc.mpr (Or.inl hr)
    obtain ⟨turns, hmirrors⟩ := after_mirrors env alg cfg happenings
    rw [after_snoc]
    generalize after env alg cfg happenings = d at hold hmirrors
    unfold step
    split_ifs with hallowed
    · by_cases heq : i = h.node
      · subst heq
        simp only [Function.update_self, Node.step]
        split_ifs with hup
        · have hsteady : Steady env alg Known.anything (d.nodes h.node).replica := by
            obtain ⟨inputs, hnode⟩ := World.after_node env alg turns h.node
            rw [(hmirrors h.node).replica, hnode]
            exact Replica.run_steady ..
          refine hold.moves hsteady hup (fun r hr => ?_) (fun b hb hown txn ht => ?_) (move_moves _)
          · exact mem_requestsAt_snoc.mpr (Or.inr ⟨rfl, hr⟩)
          · have hreplica := (hmirrors h.node).replica
            rw [hreplica] at hb hown
            obtain ⟨j, b₀, -, hb₀, hproposer, hpayload⟩ := World.reported_proposed (Or.inr hb)
            rw [(World.after_reachable env alg turns h.node).id_eq, hproposer] at hown
            obtain rfl := newNodeID_injective hown
            rw [← hreplica] at hb₀
            exact hold.proposals b₀ hb₀ txn (hpayload ▸ ht)
        · exact hold
      · simpa only [Function.update_of_ne heq] using hold
    · exact hold

/-- What a node of a deployment commits was requested: each transaction of a committed block
comes from a client of the node that proposed the block. -/
theorem committed_requested (env : Env) (alg : Algorithm) (cfg : Settings)
    (happenings : List Happening) (i : ℕ) :
    ∀ b ∈ ((Deployment.after env alg cfg happenings).nodes i).replica.committedBlocks,
      ∃ j, (1 ≤ j ∧ j ≤ env.n) ∧ b.proposer = newNodeID j ∧
        ∀ txn ∈ b.payload, .txn txn ∈ Deployment.requestsAt happenings j := by
  intro b hb
  obtain ⟨turns, hmirrors⟩ := Deployment.after_mirrors env alg cfg happenings
  rw [(hmirrors i).replica] at hb
  obtain ⟨j, b₀, hj, hb₀, hproposer, hpayload⟩ := World.reported_proposed (Or.inl hb)
  rw [← (hmirrors j).replica] at hb₀
  refine ⟨j, hj, hproposer, fun txn ht => ?_⟩
  exact (Deployment.after_draws env alg cfg happenings j).proposals b₀ hb₀ txn (hpayload ▸ ht)

/-- What the goroutines of a node do for a turn of its replica. -/
def Turn.happenings (w : World) (t : Turn) : List Happening :=
  match t.action with
  | .txn => [⟨t.node, .request (.txn ⟨"first"⟩)⟩, ⟨t.node, .txn⟩]
  | .timeout => [⟨t.node, .timeout⟩]
  | .newView _ => [⟨t.node, .enter⟩, ⟨t.node, .takeView⟩]
  | .deliver src k =>
    if src = t.node then [⟨t.node, .processOwn t.fuel⟩]
    else
      ((w.nodes src).outbox[k]?.map fun e =>
        [⟨t.node, .recv e.msg.wire⟩, ⟨t.node, .handle⟩, ⟨t.node, .takeMessage t.fuel⟩]).getD []

def Deployment.replay (env : Env) (alg : Algorithm) (cfg : Settings) :
    Deployment → List Turn → List Happening
  | _, [] => []
  | d, t :: turns =>
    t.happenings d.world ++
      replay env alg cfg (d.run env alg cfg (t.happenings d.world)) turns

/-- The four views of the two-chain protocols, by nodes with all their goroutines. -/
def fourNodes.replayed : List Happening :=
  Deployment.replay fourNodes .tchs ⟨10, 2, false⟩ (.init fourNodes ⟨10, 2, false⟩) fourViews

theorem committed_requested_replayed :
    ∃ b ∈ ((Deployment.after fourNodes .tchs ⟨10, 2, false⟩ fourNodes.replayed).nodes
        3).replica.committedBlocks,
      b.payload = [⟨"first"⟩] ∧ ∃ j, b.proposer = newNodeID j ∧
        .txn ⟨"first"⟩ ∈ Deployment.requestsAt fourNodes.replayed j := by
  have hhead : (((Deployment.after fourNodes .tchs ⟨10, 2, false⟩ fourNodes.replayed).nodes
      3).replica.committedBlocks.head?.map Block.payload) = some [⟨"first"⟩] := by
    decide +kernel
  obtain ⟨b, hb, hpayload⟩ := Option.map_eq_some_iff.mp hhead
  have hmem := List.mem_of_head? hb
  obtain ⟨j, -, hproposer, hall⟩ := committed_requested fourNodes .tchs ⟨10, 2, false⟩
    fourNodes.replayed 3 b hmem
  refine ⟨b, hmem, hpayload, j, hproposer, hall _ ?_⟩
  rw [hpayload]
  exact List.mem_singleton_self _

end Bamboo
