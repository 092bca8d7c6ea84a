import Bamboo.GoodTurns
import Bamboo.Network
import Bamboo.Statistics

/-!
# Runs without faults

Some of the nodes are live and the others never do anything. The leaders are
live, and so many nodes that their votes make certificates and their
announcements end views. In each view the leader proposes, its block reaches the
live nodes, their votes reach the next leader, its announcement reaches them and
their answers reach it. These steps follow one another, and in each of them the
messages come in any order. Then the chain grows by a block in each view, and every
live node commits it.
-/
namespace Bamboo

/-! ## Live nodes and schedules -/

/-- The live nodes, and the leaders of the first views. Blocks of different views
have different hashes, and no block has that of genesis. -/
structure Cluster (env : Env) where
  live : List ℕ
  leader : ℕ → ℕ
  views : ℕ
  views_lt : views + 2 < 2 ^ 63
  nodup : live.Nodup
  node : ∀ i ∈ live, 1 ≤ i ∧ i ≤ env.n
  keys : env.n < 2 ^ 63
  several : 2 ≤ env.n
  voters : env.byzNo * 2 + 1 ≤ live.length
  announcers : env.n * 2 / 3 + 1 ≤ live.length
  leads : ∀ v, 1 ≤ v → v ≤ views + 1 → leader v ∈ live ∧
    env.election.findLeaderFor (viewOf v) = newNodeID (leader v) ∧
    ∀ i ∈ live, env.election.isLeader (newNodeID i) (viewOf v) = true ↔ i = leader v
  ids : ∀ r r', env.crypto.makeID r = env.crypto.makeID r' → r.view = r'.view
  genesis : ∀ r, env.crypto.makeID r = genesisID → r.view = 0

variable {env : Env}

/-- What the leader proposes in a view, and the orders in which the live nodes
get their messages. -/
structure Schedule (C : Cluster env) (v : ℕ) where
  payload : List Transaction
  fuel : ℕ
  blocks : List ℕ
  entries : List ℕ
  votes : List ℕ
  announcements : List ℕ
  answers : List ℕ
  fuel_le : 2 ≤ fuel
  blocks_perm : blocks.Perm C.live
  entries_perm : entries.Perm (C.live.erase (C.leader v))
  votes_perm : votes.Perm (C.live.erase (C.leader (v + 1)))
  announcements_perm : announcements.Perm (C.live.erase (C.leader (v + 1)))
  answers_perm : answers.Perm (C.live.erase (C.leader (v + 1)))

namespace World

/-- The last message of one node reaches others. -/
def spreadLast (w : World) (src fuel : ℕ) (nodes : List ℕ) : List Turn :=
  nodes.map fun i => ⟨i, .deliver src ((w.nodes src).outbox.length - 1), fuel⟩

/-- The last messages of some nodes reach one. -/
def collectLast (w : World) (node fuel : ℕ) (srcs : List ℕ) : List Turn :=
  srcs.map fun src => ⟨node, .deliver src ((w.nodes src).outbox.length - 1), fuel⟩

/-- One view: the proposal, the block, the other nodes' new-view events, the
votes, the announcement and the answers. -/
def playView (alg : Algorithm) (C : Cluster env) (w : World) (v : ℕ) (σ : Schedule C v) : World :=
  let w := w.step env alg ⟨C.leader v, .newView σ.payload, σ.fuel⟩
  let w := w.run env alg (w.spreadLast (C.leader v) σ.fuel σ.blocks)
  let w := w.run env alg (σ.entries.map fun i => ⟨i, .newView [], σ.fuel⟩)
  let w := w.run env alg (w.collectLast (C.leader (v + 1)) σ.fuel σ.votes)
  let w := w.run env alg (w.spreadLast (C.leader (v + 1)) σ.fuel σ.announcements)
  w.run env alg (w.collectLast (C.leader (v + 1)) σ.fuel σ.answers)

/-- The network after so many views. A transaction makes the first leader start. -/
def afterViews (alg : Algorithm) (C : Cluster env) (σ : ∀ v, Schedule C v) : ℕ → World
  | 0 => (init env).step env alg ⟨C.leader 1, .txn, 0⟩
  | v + 1 => (afterViews alg C σ v).playView alg C (v + 1) (σ (v + 1))

end World

/-! ## Turns of several nodes -/

namespace World

variable {alg : Algorithm} {w : World} {node : ℕ} {nodes : List ℕ}

theorem run_concat (env : Env) (alg : Algorithm) (w : World) (turns : List Turn) (t : Turn) :
    w.run env alg (turns ++ [t]) = (w.run env alg turns).step env alg t := by
  simp [run]

/-- A turn whose action the network allows. -/
theorem step_eq {t : Turn} (input : Input) (ht : 1 ≤ t.node ∧ t.node ≤ env.n)
    (hin : w.input env t.node t.action = some input) :
    w.step env alg t = w.take env alg t.node (input, t.fuel) := by
  simp only [step, ht, and_self, ↓reduceIte, hin]

/-- Different nodes take a turn each; as long as what a node gets does not depend
on whether others had theirs, each makes one step from where it was. -/
theorem run_each (alg : Algorithm) (w : World) (fuel : ℕ) (act : ℕ → Action)
    (input : ℕ → Input) (hnodup : nodes.Nodup) (hnodes : ∀ i ∈ nodes, 1 ≤ i ∧ i ≤ env.n)
    (hin : ∀ i ∈ nodes, ∀ w' : World, (∀ j, w'.nodes j = w.nodes j ∨
      (j ∈ nodes ∧ w'.nodes j = (w.nodes j).step env alg (input j, fuel))) →
      w'.input env i (act i) = some (input i)) (j : ℕ) :
    (w.run env alg (nodes.map fun i => ⟨i, act i, fuel⟩)).nodes j =
      if j ∈ nodes then (w.nodes j).step env alg (input j, fuel) else w.nodes j := by
  induction nodes using List.reverseRecOn generalizing j with
  | nil => simp [run]
  | append_singleton nodes i ih =>
    obtain ⟨hprev, -, hdisj⟩ := List.nodup_append.mp hnodup
    have hi : i ∉ nodes := fun hmem => hdisj i hmem i (List.mem_singleton_self i) rfl
    have hrun := ih hprev (fun k hk => hnodes k (List.mem_append_left _ hk))
      fun k hk w' hw' => hin k (List.mem_append_left _ hk) w' fun m =>
        (hw' m).imp_right fun h => ⟨List.mem_append_left _ h.1, h.2⟩
    have hinput := hin i (by simp) (w.run env alg (nodes.map fun i => ⟨i, act i, fuel⟩)) fun m => by
      rw [hrun m]
      split_ifs with hm
      · exact Or.inr ⟨List.mem_append_left _ hm, rfl⟩
      · exact Or.inl rfl
    rw [List.map_append, List.map_singleton, run_concat, step_eq _ (hnodes i (by simp)) hinput]
    by_cases hj : j = i
    · subst hj
      rw [take_self, hrun j, if_neg hi, if_pos (by simp)]
    · rw [take_ne env alg _ _ hj, hrun j]
      simp [hj]

/-- A broadcast reaches different nodes. -/
theorem run_spread (alg : Algorithm) (w : World) (fuel : ℕ) {src k : ℕ} {e : Envelope}
    (hnodup : nodes.Nodup) (hnodes : ∀ i ∈ nodes, 1 ≤ i ∧ i ≤ env.n) (hsrc : 1 ≤ src ∧ src ≤ env.n)
    (he : (w.nodes src).outbox[k]? = some e) (hdest : e.dest = none)
    (hown : src ∈ nodes → (∃ b, e.msg = .block b) ∧
      ((w.nodes src).step env alg (.deliver e.msg, fuel)).outbox[k]? = some e) (j : ℕ) :
    (w.run env alg (nodes.map fun i => ⟨i, .deliver src k, fuel⟩)).nodes j =
      if j ∈ nodes then (w.nodes j).step env alg
        (.deliver (if j = src then e.msg else e.msg.wire), fuel) else w.nodes j := by
  refine run_each alg w fuel _ (fun j => .deliver (if j = src then e.msg else e.msg.wire)) hnodup
    hnodes (fun i hi w' hw' => ?_) j
  have he' : (w'.nodes src).outbox[k]? = some e := by
    rcases hw' src with hsame | ⟨hmem, hstep⟩
    · rw [hsame, he]
    · rw [hstep, if_pos rfl]
      exact (hown hmem).2
  simp only [input, hsrc, and_self, ↓reduceIte, he', hdest, true_or]
  by_cases heq : src = i
  · subst heq
    obtain ⟨b, hb⟩ := (hown hi).1
    simp [hb]
  · simp [heq, Ne.symm heq]

/-- Messages of other nodes reach one node; what each of them keeps going is so
in the end. -/
theorem run_collect (alg : Algorithm) (w : World) (fuel : ℕ) {k : ℕ → ℕ} {m : ℕ → Msg}
    {P : List ℕ → Replica → Prop} (hnodup : nodes.Nodup) (hnode : 1 ≤ node ∧ node ≤ env.n)
    (hsrcs : ∀ src ∈ nodes, src ≠ node ∧ (1 ≤ src ∧ src ≤ env.n) ∧ (m src).wire = m src ∧
      (w.nodes src).outbox[k src]? = some ⟨some (newNodeID node), m src⟩)
    (hid : ∀ done s, P done s → s.id = newNodeID node)
    (hstep : ∀ done src s, src ∈ nodes → src ∉ done → done ⊆ nodes → P done s →
      P (src :: done) (s.step env alg (.deliver (m src), fuel)))
    (hstart : P [] (w.nodes node)) :
    P nodes.reverse ((w.run env alg
        (nodes.map fun src => ⟨node, .deliver src (k src), fuel⟩)).nodes node) ∧
      ∀ j, j ≠ node → (w.run env alg
        (nodes.map fun src => ⟨node, .deliver src (k src), fuel⟩)).nodes j = w.nodes j := by
  induction nodes using List.reverseRecOn with
  | nil => exact ⟨hstart, fun j _ => rfl⟩
  | append_singleton nodes src ih =>
    obtain ⟨hprev, -, hdisj⟩ := List.nodup_append.mp hnodup
    have hsrc : src ∉ nodes := fun hmem => hdisj src hmem src (List.mem_singleton_self src) rfl
    obtain ⟨hP, hsame⟩ := ih hprev (fun s hs => hsrcs s (List.mem_append_left _ hs))
      fun done s r hs hnew hsub => hstep done s r (List.mem_append_left _ hs) hnew
        fun x hx => List.mem_append_left _ (hsub hx)
    obtain ⟨hne, hrange, hwire, he⟩ := hsrcs src (by simp)
    have hinput : (w.run env alg
        (nodes.map fun src => ⟨node, .deliver src (k src), fuel⟩)).input env node
          (.deliver src (k src)) =
          some (.deliver (m src)) := by
      simp only [input, hrange, and_self, ↓reduceIte, hsame src hne, he, hne, hid _ _ hP, or_true,
        hwire]
    rw [List.map_append, List.map_singleton, run_concat, step_eq _ hnode hinput,
      List.reverse_append]
    refine ⟨?_, fun j hj => ?_⟩
    · rw [take_self]
      refine hstep _ src _ (by simp) (by simpa using hsrc) (fun x hx => ?_) hP
      exact List.mem_append_left _ (List.mem_reverse.mp hx)
    · rw [take_ne env alg _ _ hj, hsame j hj]

end World

/-! ## Copies of the chain -/

section Copies

variable {l l' : List Block} {b b' : Block}

theorem received_received (gob : Bool) (b : Block) :
    (b.received gob).received true = b.received true := by
  cases gob <;> rfl

theorem received_fields (h : b.received true = b'.received true) :
    b.view = b'.view ∧ b.qc = b'.qc ∧ b.prevID = b'.prevID ∧ b.id = b'.id := by
  simp only [Block.received, ↓reduceIte, Block.mk.injEq] at h
  exact ⟨h.1, h.2.1, h.2.2.2.2.1, h.2.2.2.2.2.2.1⟩

theorem tipID_received (l : List Block) : tipID (l.map (Block.received true)) = tipID l := by
  simp only [tipID, List.getLast?_map, Option.map_map]
  rfl

theorem Block.Extends.copy (h : b.Extends l)
    (hl : l.map (Block.received true) = l'.map (Block.received true))
    (hb : b.received true = b'.received true) : b'.Extends l' := by
  have htip : tipID l' = tipID l := by rw [← tipID_received, ← hl, tipID_received]
  have hlen : l'.length = l.length := by simpa using (congrArg List.length hl).symm
  obtain ⟨qc, hqc, hview, hid⟩ := h.qc
  have hfields := received_fields hb.symm
  refine ⟨?_, ⟨qc, ?_, ?_, ?_⟩, ?_, ?_, fun x hx => ?_⟩
  · rw [hfields.1, hlen, h.view]
  · rw [hfields.2.1, hqc]
  · rw [hlen, hview]
  · rw [htip, hid]
  · rw [hfields.2.2.1, htip, h.prevID]
  · rw [hfields.2.2.2]
    exact h.genesis
  · rw [hfields.2.2.2]
    have hmem : x.received true ∈ l.map (Block.received true) := by
      rw [hl]
      exact List.mem_map_of_mem hx
    obtain ⟨y, hy, hyx⟩ := List.mem_map.mp hmem
    rw [← (received_fields hyx).2.2.2]
    exact h.fresh y hy

theorem QC.Certifies.copy {qc : QC} (h : qc.Certifies env l)
    (hl : l.map (Block.received true) = l'.map (Block.received true)) : qc.Certifies env l' where
  view := by
    have hlen : l'.length = l.length := by simpa using (congrArg List.length hl).symm
    rw [h.view, hlen]
  blockID := by rw [h.blockID, ← tipID_received, hl, tipID_received]
  signed := h.signed

end Copies

/-- The copy of the leader's block that a node holds. -/
def Cluster.copy (C : Cluster env) (v : ℕ) (b : Block) (i : ℕ) : Block :=
  b.received (decide (i ≠ C.leader v))

/-- Each live node has its own copy of the chain. -/
structure Ledgers (C : Cluster env) (chain : List Block) (ledger : ℕ → List Block) : Prop where
  copies : ∀ i ∈ C.live, (ledger i).map (Block.received true) = chain
  straight : ∀ i ∈ C.live, Straight (ledger i)
  hashed : ∀ b ∈ chain, b.id = env.crypto.makeID b.raw

section Ledgers

variable {C : Cluster env} {chain : List Block} {ledger : ℕ → List Block} {qc : QC}
  {payload : List Transaction} {b : Block} {i : ℕ}

theorem Cluster.envNode (C : Cluster env) (hi : i ∈ C.live) : env.Node i :=
  ⟨C.node i hi, C.keys⟩

theorem Ledgers.length (h : Ledgers C chain ledger) (hi : i ∈ C.live) :
    (ledger i).length = chain.length := by
  rw [← h.copies i hi, List.length_map]

/-- A certificate for one copy of the chain is one for all. -/
theorem Ledgers.certifies (h : Ledgers C chain ledger) {j : ℕ} (hi : i ∈ C.live) (hj : j ∈ C.live)
    (hqc : qc.Certifies env (ledger i)) : qc.Certifies env (ledger j) :=
  hqc.copy (by rw [h.copies i hi, h.copies j hj])

/-- The block that the leader of the next view makes on the chain extends every
copy of it. -/
theorem Ledgers.extends (h : Ledgers C chain ledger) (hlen : chain.length + 2 < 2 ^ 63)
    {lead : ℕ} (hb : MadeBy env lead (chain.length + 1) qc payload b) (hi : i ∈ C.live)
    (hqc : qc.Certifies env (ledger i)) (v : ℕ) : (C.copy v b i).Extends (ledger i) := by
  have hview : ∀ k, k ≠ 0 → k < 2 ^ 63 → viewOf k ≠ 0 := by
    intro k hk hlt heq
    rw [show (0 : View) = viewOf 0 from rfl, viewOf_inj hlt (by norm_num)] at heq
    exact hk heq
  have hext : b.Extends (ledger i) := by
    refine ⟨?_, ⟨qc, hb.certificate, hqc.view, hqc.blockID⟩, ?_, fun hgen => ?_, fun x hx heq => ?_⟩
    · rw [hb.view, h.length hi]
    · rw [hb.prevID, hqc.blockID]
    · have hzero := C.genesis b.raw (hb.id ▸ hgen)
      exact hview _ (Nat.succ_ne_zero _) (by omega) (hb.view.symm.trans hzero)
    · have hmem : x.received true ∈ chain := by
        rw [← h.copies i hi]
        exact List.mem_map_of_mem hx
      have hid : x.id = env.crypto.makeID (x.received true).raw := h.hashed (x.received true) hmem
      have hsame : x.view = b.view :=
        C.ids (x.received true).raw b.raw (by rw [← hid, ← hb.id, heq])
      obtain ⟨k, hk⟩ := List.mem_iff_getElem?.mp hx
      have hlt := (List.getElem?_eq_some_iff.mp hk).1
      rw [h.length hi] at hlt
      rw [(h.straight i hi).view hk, hb.view, viewOf_inj (by omega) (by omega)] at hsame
      omega
  exact hext.copy rfl (received_received _ b).symm

theorem Ledgers.snoc (h : Ledgers C chain ledger) (hlen : chain.length + 2 < 2 ^ 63) {lead : ℕ}
    (hb : MadeBy env lead (chain.length + 1) qc payload b)
    (hqc : ∀ i ∈ C.live, qc.Certifies env (ledger i)) (v : ℕ) :
    Ledgers C (chain ++ [b.received true]) fun i => ledger i ++ [C.copy v b i] where
  copies i hi := by
    rw [List.map_append, h.copies i hi, List.map_singleton, Cluster.copy, received_received]
  straight i hi :=
    (h.straight i hi).snoc (h.extends hlen hb hi (hqc i hi) v) (by rw [h.length hi]; omega)
  hashed x hx := by
    rcases List.mem_append.mp hx with hx | hx
    · exact h.hashed x hx
    · rw [List.mem_singleton.mp hx]
      exact hb.id

theorem MadeBy.proposed {l : List Block} {v lead : ℕ} (hb : MadeBy env lead v qc payload b)
    (hleader : env.election.isLeader (newNodeID lead) (viewOf v) = true)
    (hqc : qc.Certifies env l) (i : ℕ) : Proposed env l (C.copy v b i) := by
  have hleads : env.election.isLeader b.proposer b.view = true := by
    rw [hb.proposer, hb.view]
    exact hleader
  unfold Cluster.copy
  cases decide (i ≠ C.leader v) with
  | false => exact ⟨hleads, hb.signature, qc, hb.certificate, hqc⟩
  | true => exact ⟨hleads, hb.signature, qc, hb.certificate, hqc⟩

end Ledgers

/-! ## The stages of a view -/

/-- The leader of the view that follows the chain. -/
abbrev Cluster.lead (C : Cluster env) (chain : List Block) : ℕ := C.leader (chain.length + 1)

/-- The leader of the view after that, who collects the votes. -/
abbrev Cluster.next (C : Cluster env) (chain : List Block) : ℕ := C.leader (chain.length + 2)

section Stages

variable (alg : Algorithm) (C : Cluster env) (chain : List Block) (ledger : ℕ → List Block)
  (qc : QC) (payload : List Transaction) (b : Block)

/-- Before the view that follows the chain. The first view starts with its block
where no transaction has started it. -/
structure AtStart (w : World) : Prop where
  ledgers : Ledgers C chain ledger
  calm : ∀ i ∈ C.live, Calm env i (ledger i)
    (chain.length - if i = C.lead chain then 2 else alg.lag) chain.length
    (chain.length + 1) (w.nodes i).wake
  quiet : ∀ i ∈ C.live, (w.nodes i).wake.vmosOf (chain.length + 1) = ∅
  entered : ∀ i ∈ C.live, (w.nodes i).entered = chain.length
  awake : ¬ (w.nodes (C.lead chain)).pm.curView < 1
  certified : (w.nodes (C.lead chain)).highQC.Certifies env
    (ledger (C.lead chain))

/-- The leader has sent its block. -/
structure BlockSent (w : World) : Prop where
  ledgers : Ledgers C chain ledger
  made : MadeBy env (C.lead chain) (chain.length + 1) qc payload b
  certified : ∀ i ∈ C.live, qc.Certifies env (ledger i)
  calm : ∀ i ∈ C.live, Calm env i (ledger i)
    (chain.length - if i = C.lead chain then 2 else alg.lag) chain.length
    (chain.length + 1) (w.nodes i).wake
  quiet : ∀ i ∈ C.live, (w.nodes i).wake.vmosOf (chain.length + 1) = ∅
  entered : ∀ i ∈ C.live, (w.nodes i).entered =
    chain.length + if i = C.lead chain then 1 else 0
  sent : (w.nodes (C.lead chain)).outbox.getLast? = some ⟨none, .block b⟩

/-- The live nodes have the block and have voted; `late` are the nodes that have
not taken up the view yet. -/
structure BlocksOut (late : ℕ → Prop) [DecidablePred late] (w : World) : Prop where
  ledgers : Ledgers C (chain ++ [b.received true])
    fun i => ledger i ++ [C.copy (chain.length + 1) b i]
  voted : ∀ i ∈ C.live, i ≠ C.next chain →
    Calm env i (ledger i ++ [C.copy (chain.length + 1) b i]) (chain.length + 1 - alg.lag)
      chain.length (chain.length + 1) (w.nodes i) ∧
    ((w.nodes i).recivedBlock.lookup (viewOf chain.length)).isSome ∧
    (w.nodes i).outbox.getLast? = some ⟨some (newNodeID (C.next chain)), .vote (ballot env b i)⟩
  collector : VoteStage env alg (C.next chain) (ledger (C.next chain))
    (C.copy (chain.length + 1) b (C.next chain)) [C.next chain] (w.nodes (C.next chain))
  entered : ∀ i ∈ C.live, (w.nodes i).entered = chain.length + if late i then 0 else 1

/-- The certificate has been made and announced. -/
structure AnnouncementSent (w : World) : Prop where
  ledgers : Ledgers C (chain ++ [b.received true])
    fun i => ledger i ++ [C.copy (chain.length + 1) b i]
  waiting : ∀ i ∈ C.live, i ≠ C.next chain →
    Calm env i (ledger i ++ [C.copy (chain.length + 1) b i]) (chain.length + 1 - alg.lag)
      chain.length (chain.length + 1) (w.nodes i) ∧
    ((w.nodes i).recivedBlock.lookup (viewOf chain.length)).isSome
  collector : Announcing env (C.next chain) (ledger (C.next chain))
    (C.copy (chain.length + 1) b (C.next chain)) qc [C.next chain] (w.nodes (C.next chain))
  sent : (w.nodes (C.next chain)).outbox.getLast? =
    some ⟨none, .vmo (announcement qc (chain.length + 1) (C.next chain))⟩
  entered : ∀ i ∈ C.live, (w.nodes i).entered = chain.length + 1

/-- The other nodes have moved on and answered. -/
structure AnswersSent (w : World) : Prop where
  ledgers : Ledgers C (chain ++ [b.received true])
    fun i => ledger i ++ [C.copy (chain.length + 1) b i]
  moved : ∀ i ∈ C.live, i ≠ C.next chain →
    Calm env i (ledger i ++ [C.copy (chain.length + 1) b i]) (chain.length + 1 - alg.lag)
      chain.length (chain.length + 2) (w.nodes i) ∧
    (w.nodes i).vmosOf (chain.length + 2) = ∅ ∧
    (w.nodes i).outbox.getLast? = some ⟨some (newNodeID (C.next chain)),
      .vmo (announcement qc (chain.length + 1) i)⟩
  collector : Announcing env (C.next chain) (ledger (C.next chain))
    (C.copy (chain.length + 1) b (C.next chain)) qc [C.next chain] (w.nodes (C.next chain))
  entered : ∀ i ∈ C.live, (w.nodes i).entered = chain.length + 1

end Stages

section Phases

variable {alg : Algorithm} {C : Cluster env} {chain : List Block} {ledger : ℕ → List Block}
  {qc : QC} {payload : List Transaction} {b : Block} {w : World}

/-- A calm replica in a view that has started has no view to start. -/
theorem Calm.wake_eq {i c h k : ℕ} {l : List Block} {s : Replica} (hk : k + 1 < 2 ^ 63)
    (hs : Calm env i l c h (k + 1) s) : s.wake = s := by
  refine if_neg ?_
  rw [hs.curView, show (1 : View) = viewOf 1 from rfl, viewOf_lt hk (by norm_num)]
  omega

theorem AtStart.propose (h : AtStart alg C chain ledger w) (hlen : chain.length + 1 ≤ C.views)
    (payload : List Transaction) (fuel : ℕ) :
    ∃ qc b, BlockSent alg C chain ledger qc payload b
      (w.step env alg ⟨C.lead chain, .newView payload, fuel⟩) := by
  obtain ⟨hlive, hfind, hleads⟩ := C.leads (chain.length + 1) (by omega) (by omega)
  have hviews := C.views_lt
  have hnode := C.envNode hlive
  have hawake : (w.nodes (C.lead chain)).wake =
      w.nodes (C.lead chain) := if_neg h.awake
  have hcalm := h.calm _ hlive
  rw [hawake] at hcalm
  obtain ⟨b, hmade, hcalm', hpm, hentered, houtbox⟩ := hcalm.propose alg hnode rfl
    (h.entered _ hlive) ((hleads _ hlive).mpr rfl) payload fuel
  refine ⟨(w.nodes (C.lead chain)).highQC, b, ?_⟩
  rw [World.step_eq (.newView payload) hnode.1 rfl]
  exact
    { ledgers := h.ledgers
      made := hmade
      certified := fun i hi => h.ledgers.certifies hlive hi h.certified
      calm := fun i hi => by
        by_cases heq : i = C.lead chain
        · subst heq
          rw [World.take_self, hcalm'.wake_eq (by omega)]
          exact hcalm'
        · rw [World.take_ne env alg _ _ heq]
          exact h.calm i hi
      quiet := fun i hi => by
        by_cases heq : i = C.lead chain
        · subst heq
          rw [World.take_self, hcalm'.wake_eq (by omega), Replica.vmosOf, hpm]
          have hquiet := h.quiet _ hlive
          rwa [hawake] at hquiet
        · rw [World.take_ne env alg _ _ heq]
          exact h.quiet i hi
      entered := fun i hi => by
        by_cases heq : i = C.lead chain
        · subst heq
          rw [World.take_self, hentered, if_pos rfl]
        · rw [World.take_ne env alg _ _ heq, h.entered i hi, if_neg heq]
          rfl
      sent := by
        rw [World.take_self, houtbox]
        simp }

theorem ballot_copy (env : Env) (C : Cluster env) (v : ℕ) (b : Block) (i j : ℕ) :
    ballot env (C.copy v b i) j = ballot env b j := by
  unfold Cluster.copy
  cases decide (i ≠ C.leader v) <;> rfl

theorem copy_proposer (C : Cluster env) (v : ℕ) (b : Block) (i : ℕ) :
    (C.copy v b i).proposer = b.proposer := by
  unfold Cluster.copy
  cases decide (i ≠ C.leader v) <;> rfl

section BlockSent

variable (h : BlockSent alg C chain ledger qc payload b w) (hlen : chain.length + 1 ≤ C.views)
include h hlen

/-- The block at one node, whichever it is. -/
theorem BlockSent.step {i fuel : ℕ} (hi : i ∈ C.live) (hfuel : 2 ≤ fuel) {s : Replica}
    (hs : s = (w.nodes i).step env alg (.deliver (.block (C.copy (chain.length + 1) b i)), fuel)) :
    (w.nodes i).outbox <+: s.outbox ∧ s.entered = (w.nodes i).entered ∧
      (i ≠ C.next chain →
        Calm env i (ledger i ++ [C.copy (chain.length + 1) b i]) (chain.length + 1 - alg.lag)
          chain.length (chain.length + 1) s ∧
        (s.recivedBlock.lookup (viewOf chain.length)).isSome ∧
        s.outbox.getLast? =
          some ⟨some (newNodeID (C.next chain)), .vote (ballot env b i)⟩) ∧
      (i = C.next chain →
        VoteStage env alg i (ledger i) (C.copy (chain.length + 1) b i) [i] s) := by
  have hviews := C.views_lt
  have hfind : env.election.findLeaderFor (viewOf (chain.length + 2)) = newNodeID (C.next chain) :=
    (C.leads (chain.length + 2) (by omega) (by omega)).2.1
  obtain ⟨hlive, -, hleads⟩ := C.leads (chain.length + 1) (by omega) (by omega)
  have hlength := h.ledgers.length hi
  have hstraight := (h.ledgers.snoc (by omega) h.made h.certified (chain.length + 1)).straight i hi
  have hproposed := h.made.proposed (C := C) ((hleads _ hlive).mpr rfl) (h.certified i hi) i
  have hown : ∀ v, (C.copy v b i).proposer = newNodeID i ↔ i = C.lead chain := by
    intro v
    rw [copy_proposer, h.made.proposer, newNodeID_injective.eq_iff, eq_comm]
  have hcalm := h.calm i hi
  have hquiet := h.quiet i hi
  -- the lemmas for one replica speak of the length of its own copy
  generalize hc : (chain.length - if i = C.lead chain then 2 else alg.lag) = c at hcalm
  rw [← hlength] at hcalm hquiet hfind hstraight hproposed hs ⊢
  have hown' : (C.copy ((ledger i).length + 1) b i).proposer = newNodeID i →
      c = (ledger i).length - 2 := fun heq => by rw [← hc, if_pos ((hown _).mp heq), hlength]
  have hother : (C.copy ((ledger i).length + 1) b i).proposer ≠ newNodeID i →
      c = (ledger i).length - alg.lag :=
    fun hne => by rw [← hc, if_neg fun heq => hne ((hown _).mpr heq), hlength]
  by_cases hnext : i = C.next chain
  · obtain ⟨hstage, hentered, houtbox⟩ := Calm.block_collector hstraight hcalm hproposed hown'
      hother (C.envNode hi) hfuel (by omega) C.several hquiet (hnext ▸ hfind)
    rw [← hs] at hstage hentered houtbox
    exact ⟨houtbox, hentered, fun hne => absurd hnext hne, fun _ => hstage⟩
  · obtain ⟨hcalm', hentered, hblock, houtbox⟩ := Calm.block hstraight hcalm hproposed hown' hother
      (C.envNode hi) hfuel hfind hnext
    rw [← hs] at hcalm' hentered hblock houtbox
    refine ⟨houtbox ▸ List.prefix_append _ _, hentered, fun _ => ⟨hcalm', hblock, ?_⟩,
      fun heq => absurd heq hnext⟩
    rw [houtbox, ballot_copy]
    simp

theorem BlockSent.blocks {fuel : ℕ} (hfuel : 2 ≤ fuel) {nodes : List ℕ}
    (hperm : nodes.Perm C.live) :
    BlocksOut alg C chain ledger b (· ≠ C.lead chain)
      (w.run env alg (w.spreadLast (C.lead chain) fuel nodes)) := by
  have hviews := C.views_lt
  obtain ⟨hlive, -, -⟩ := C.leads (chain.length + 1) (by omega) (by omega)
  obtain ⟨hnext, -, -⟩ := C.leads (chain.length + 2) (by omega) (by omega)
  have hsent := h.sent
  rw [List.getLast?_eq_getElem?] at hsent
  have hcopy : C.copy (chain.length + 1) b (C.lead chain) = b := by
    simp [Cluster.copy, Block.received]
  have hrun : ∀ i ∈ C.live, (w.run env alg (w.spreadLast (C.lead chain) fuel nodes)).nodes i =
      (w.nodes i).step env alg (.deliver (.block (C.copy (chain.length + 1) b i)), fuel) := by
    intro i hi
    rw [World.spreadLast, World.run_spread alg w fuel (hperm.nodup_iff.mpr C.nodup)
      (fun j hj => C.node j (hperm.mem_iff.mp hj)) (C.node _ hlive) hsent rfl, if_pos
      (hperm.mem_iff.mpr hi)]
    · by_cases heq : i = C.lead chain
      · rw [if_pos heq, heq, hcopy]
      · rw [if_neg heq, wire_block]
        simp [Cluster.copy, heq]
    · refine fun _ => ⟨⟨b, rfl⟩, ?_⟩
      have hgrow := (h.step hlen hlive hfuel rfl).1
      rw [hcopy] at hgrow
      obtain ⟨more, hmore⟩ := hgrow
      rw [← hmore, List.getElem?_append_left (List.getElem?_eq_some_iff.mp hsent).1, hsent]
  refine ⟨h.ledgers.snoc (by omega) h.made h.certified _, fun i hi hne => ?_, ?_, fun i hi => ?_⟩
  · exact (h.step hlen hi hfuel (hrun i hi)).2.2.1 hne
  · exact (h.step hlen hnext hfuel (hrun _ hnext)).2.2.2 rfl
  · rw [(h.step hlen hi hfuel (hrun i hi)).2.1, h.entered i hi]
    by_cases heq : i = C.lead chain <;> simp [heq]

end BlockSent

theorem BlocksOut.length {late : ℕ → Prop} [DecidablePred late]
    (h : BlocksOut alg C chain ledger b late w) {i : ℕ} (hi : i ∈ C.live) :
    (ledger i).length = chain.length := by
  simpa using h.ledgers.length hi

section BlocksOut

variable (hlen : chain.length + 1 ≤ C.views)
include hlen

/-- The nodes that do not lead take up the view. -/
theorem BlocksOut.entries (h : BlocksOut alg C chain ledger b (· ≠ C.lead chain) w) (fuel : ℕ)
    {nodes : List ℕ} (hperm : nodes.Perm (C.live.erase (C.lead chain))) :
    BlocksOut alg C chain ledger b (fun _ => False)
      (w.run env alg (nodes.map fun i => ⟨i, .newView [], fuel⟩)) := by
  have hviews := C.views_lt
  obtain ⟨-, -, hleads⟩ := C.leads (chain.length + 1) (by omega) (by omega)
  obtain ⟨hnext, -, -⟩ := C.leads (chain.length + 2) (by omega) (by omega)
  have hmem : ∀ i, i ∈ nodes ↔ i ∈ C.live ∧ i ≠ C.lead chain := by
    intro i
    rw [hperm.mem_iff, C.nodup.mem_erase_iff, and_comm]
  have hcalm : ∀ i ∈ C.live, ∃ l c h, Calm env i l c h (chain.length + 1) (w.nodes i) := by
    intro i hi
    by_cases heq : i = C.next chain
    · obtain ⟨c, k, hcalm⟩ := h.collector.calm
      rw [h.length hnext, ← heq] at hcalm
      exact ⟨_, _, _, hcalm⟩
    · exact ⟨_, _, _, (h.voted i hi heq).1⟩
  have hrun : ∀ i ∈ C.live,
      (w.run env alg (nodes.map fun i => ⟨i, .newView [], fuel⟩)).nodes i =
        { w.nodes i with entered := chain.length + 1 } := by
    intro i hi
    have heach := World.run_each alg w fuel (fun _ => .newView []) (fun _ => .newView [])
      (hperm.nodup_iff.mpr (C.nodup.erase _)) (fun j hj => C.node j ((hmem j).mp hj).1)
      (fun _ _ _ _ => rfl) i
    rw [heach]
    obtain ⟨l, c, k, hcalm⟩ := hcalm i hi
    have hentered := h.entered i hi
    by_cases heq : i = C.lead chain
    · rw [if_neg fun hin => ((hmem i).mp hin).2 heq]
      simp only [heq, ne_eq, not_true_eq_false, ↓reduceIte] at hentered ⊢
      rw [← hentered]
    · rw [if_pos ((hmem i).mpr ⟨hi, heq⟩)]
      simp only [heq, ne_eq, not_false_eq_true, ↓reduceIte, Nat.add_zero] at hentered
      rw [Replica.step_newView (viewOf (chain.length + 1)) hcalm.running, hentered]
      · rw [hcalm.newViewChan, hentered]
        simp
      · rw [hcalm.id]
        exact fun hleader => heq ((hleads i hi).mp hleader)
  refine ⟨h.ledgers, fun i hi hne => ?_, ?_, fun i hi => ?_⟩
  · obtain ⟨hcalm, hblock, houtbox⟩ := h.voted i hi hne
    rw [hrun i hi]
    exact ⟨{ hcalm with }, hblock, houtbox⟩
  · rw [hrun _ hnext]
    exact h.collector.enter _
  · rw [hrun i hi]
    simp

/-- Nodes that are all live nodes but the next leader. -/
theorem Cluster.others {nodes : List ℕ} (hperm : nodes.Perm (C.live.erase (C.next chain))) :
    nodes.Nodup ∧ nodes.length + 1 = C.live.length ∧
      ∀ i, i ∈ nodes ↔ i ∈ C.live ∧ i ≠ C.next chain := by
  have hviews := C.views_lt
  obtain ⟨hnext, -, -⟩ := C.leads (chain.length + 2) (by omega) (by omega)
  refine ⟨hperm.nodup_iff.mpr (C.nodup.erase _), ?_, fun i => ?_⟩
  · rw [hperm.length_eq, List.length_erase_of_mem hnext]
    exact Nat.sub_add_cancel (List.length_pos_of_mem hnext)
  · rw [hperm.mem_iff, C.nodup.mem_erase_iff, and_comm]

/-- The votes of all others are enough, in whichever order they come. -/
theorem BlocksOut.votes (h : BlocksOut alg C chain ledger b (fun _ => False) w) {fuel : ℕ}
    (hfuel : 2 ≤ fuel) {nodes : List ℕ} (hperm : nodes.Perm (C.live.erase (C.next chain))) :
    ∃ qc, AnnouncementSent alg C chain ledger qc b
      (w.run env alg (w.collectLast (C.next chain) fuel nodes)) := by
  have hviews := C.views_lt
  obtain ⟨hnext, hfind, -⟩ := C.leads (chain.length + 2) (by omega) (by omega)
  obtain ⟨hnodup, hlength, hmem⟩ := C.others hlen hperm
  have hown := h.length hnext
  have hturn : env.election.findLeaderFor (viewOf ((ledger (C.next chain)).length + 2)) =
      newNodeID (C.next chain) := by
    rw [hown]
    exact hfind
  have hcollect := World.run_collect alg w fuel
    (k := fun src => (w.nodes src).outbox.length - 1) (m := fun i => .vote (ballot env b i))
    (P := fun done s => VoteStage env alg (C.next chain) (ledger (C.next chain))
      (C.copy (chain.length + 1) b (C.next chain)) (done ++ [C.next chain]) s ∧
      s.entered = chain.length + 1) hnodup (C.node _ hnext)
    (fun src hsrc => ?_) (fun done s hs => ?_) (fun done src s hsrc hnew hsub hs => ?_)
    ⟨h.collector, by simpa using h.entered _ hnext⟩
  · obtain ⟨⟨hstage, hentered⟩, hsame⟩ := hcollect
    rw [VoteStage, if_neg] at hstage
    · obtain ⟨qc, hstage, hsent⟩ := hstage
      unfold World.collectLast
      refine ⟨qc, h.ledgers, fun i hi hne => ?_, hstage, ?_, fun i hi => ?_⟩
      · rw [hsame i hne]
        exact ⟨(h.voted i hi hne).1, (h.voted i hi hne).2.1⟩
      · rw [hsent, hown]
      · by_cases heq : i = C.next chain
        · rw [heq]
          exact hentered
        · rw [hsame i heq]
          simpa using h.entered i hi
    · have hvoters := C.voters
      simp only [List.length_append, List.length_reverse, List.length_singleton]
      omega
  · obtain ⟨hlive, hne⟩ := (hmem src).mp hsrc
    have hvote := (h.voted src hlive hne).2.2
    rw [List.getLast?_eq_getElem?] at hvote
    exact ⟨hne, C.node src hlive, rfl, hvote⟩
  · obtain ⟨_, _, hcalm⟩ := hs.1.calm
    exact hcalm.id
  · obtain ⟨hlive, hne⟩ := (hmem src).mp hsrc
    have hstep := hs.1.vote (h.ledgers.straight _ hnext) (by omega) C.several hturn
      (C.envNode hlive) (j := src) (by simp [hnew, hne]) fuel (by omega)
    rw [ballot_copy] at hstep
    exact ⟨hstep.1, hstep.2.trans hs.2⟩

/-- The announcement reaches the others, and they answer it. -/
theorem AnnouncementSent.announcements (h : AnnouncementSent alg C chain ledger qc b w) {fuel : ℕ}
    (hfuel : 2 ≤ fuel) {nodes : List ℕ} (hperm : nodes.Perm (C.live.erase (C.next chain))) :
    AnswersSent alg C chain ledger qc b
      (w.run env alg (w.spreadLast (C.next chain) fuel nodes)) := by
  have hviews := C.views_lt
  obtain ⟨hnext, hfind, -⟩ := C.leads (chain.length + 2) (by omega) (by omega)
  obtain ⟨hnodup, -, hmem⟩ := C.others hlen hperm
  have hsent := h.sent
  rw [List.getLast?_eq_getElem?] at hsent
  have hrun := World.run_spread alg w fuel hnodup
    (fun i hi => C.node i ((hmem i).mp hi).1) (C.node _ hnext) hsent rfl
    fun hin => absurd rfl ((hmem _).mp hin).2
  have hstep : ∀ i, i ∈ C.live → i ≠ C.next chain →
      (w.run env alg (w.spreadLast (C.next chain) fuel nodes)).nodes i = (w.nodes i).step env alg
        (.deliver (.vmo (announcement qc (chain.length + 1) (C.next chain))), fuel) := by
    intro i hi hne
    rw [World.spreadLast, hrun i, if_pos ((hmem i).mpr ⟨hi, hne⟩), if_neg hne]
    rfl
  have hsame : (w.run env alg (w.spreadLast (C.next chain) fuel nodes)).nodes (C.next chain) =
      w.nodes (C.next chain) := by
    rw [World.spreadLast, hrun, if_neg fun hin => ((hmem _).mp hin).2 rfl]
  have hturn : ∀ i, i ∈ C.live → i ≠ C.next chain → _ := fun i hi hne =>
    (h.waiting i hi hne).1.announced alg qc fuel (by omega) hfind hne
      (h.waiting i hi hne).2 (by omega)
  refine ⟨h.ledgers, fun i hi hne => ?_, hsame ▸ h.collector, fun i hi => ?_⟩
  · obtain ⟨hcalm, hquiet, -, houtbox⟩ := hturn i hi hne
    rw [hstep i hi hne]
    exact ⟨hcalm, hquiet, by rw [houtbox]; simp⟩
  · by_cases heq : i = C.next chain
    · rw [heq, hsame]
      exact h.entered _ hnext
    · rw [hstep i hi heq, (hturn i hi heq).2.2.1, h.entered i hi]

/-- The answers bring the next leader into its view. -/
theorem AnswersSent.answers (h : AnswersSent alg C chain ledger qc b w) {fuel : ℕ}
    (hfuel : 2 ≤ fuel) {nodes : List ℕ} (hperm : nodes.Perm (C.live.erase (C.next chain))) :
    AtStart alg C (chain ++ [b.received true])
      (fun i => ledger i ++ [C.copy (chain.length + 1) b i])
      (w.run env alg (w.collectLast (C.next chain) fuel nodes)) := by
  have hviews := C.views_lt
  obtain ⟨hnext, hfind, -⟩ := C.leads (chain.length + 2) (by omega) (by omega)
  obtain ⟨hnodup, hlength, hmem⟩ := C.others hlen hperm
  have hown : (ledger (C.next chain)).length = chain.length := by
    simpa using h.ledgers.length hnext
  have hturn : env.election.findLeaderFor (viewOf ((ledger (C.next chain)).length + 2)) =
      newNodeID (C.next chain) := by
    rw [hown]
    exact hfind
  have hstart : AnswerStage env (C.next chain) (ledger (C.next chain))
      (C.copy (chain.length + 1) b (C.next chain)) qc [C.next chain]
      (w.nodes (C.next chain)) := by
    have hn := C.several
    rw [AnswerStage, if_pos (by simp only [List.length_singleton]; omega)]
    exact h.collector
  have hcollect := World.run_collect alg w fuel
    (k := fun src => (w.nodes src).outbox.length - 1)
    (m := fun i => .vmo (announcement qc (chain.length + 1) i))
    (P := fun done s => AnswerStage env (C.next chain) (ledger (C.next chain))
      (C.copy (chain.length + 1) b (C.next chain)) qc (done ++ [C.next chain]) s ∧
      s.entered = chain.length + 1) hnodup (C.node _ hnext)
    (fun src hsrc => ?_) (fun done s hs => ?_) (fun done src s hsrc hnew hsub hs => ?_)
    ⟨hstart, h.entered _ hnext⟩
  · obtain ⟨⟨hstage, hentered⟩, hsame⟩ := hcollect
    rw [AnswerStage, if_neg] at hstage
    · unfold World.collectLast
      have hchain : (chain ++ [b.received true]).length = chain.length + 1 := by simp
      have hlead : C.lead (chain ++ [b.received true]) = C.next chain := by
        rw [Cluster.lead, hchain]
      have hcalm := hstage.calm
      have hquiet := hstage.quiet
      rw [hown] at hcalm hquiet
      refine ⟨h.ledgers, fun i hi => ?_, fun i hi => ?_, fun i hi => ?_, ?_, ?_⟩
      · simp only [hchain, hlead]
        by_cases heq : i = C.next chain
        · subst heq
          rw [if_pos rfl, hcalm.wake_eq (by omega)]
          exact hcalm
        · have hmoved := (h.moved i hi heq).1.mono (Nat.le_succ _) (by omega)
          rw [if_neg heq, hsame i heq, hmoved.wake_eq (by omega)]
          exact hmoved
      · rw [hchain]
        by_cases heq : i = C.next chain
        · subst heq
          rw [hcalm.wake_eq (by omega)]
          exact hquiet
        · rw [hsame i heq, (h.moved i hi heq).1.wake_eq (by omega)]
          exact (h.moved i hi heq).2.1
      · rw [hchain]
        by_cases heq : i = C.next chain
        · rw [heq]
          exact hentered
        · rw [hsame i heq]
          exact h.entered i hi
      · rw [hlead, hcalm.curView, show (1 : View) = viewOf 1 from rfl,
          viewOf_lt (by omega) (by norm_num)]
        omega
      · rw [hlead, hstage.highQC]
        exact hstage.certifies
    · have hannouncers := C.announcers
      simp only [List.length_append, List.length_reverse, List.length_singleton]
      omega
  · obtain ⟨hlive, hne⟩ := (hmem src).mp hsrc
    have hanswer := (h.moved src hlive hne).2.2
    rw [List.getLast?_eq_getElem?] at hanswer
    exact ⟨hne, C.node src hlive, rfl, hanswer⟩
  · obtain ⟨_, hcalm⟩ := hs.1.calm
    exact hcalm.id
  · obtain ⟨hlive, hne⟩ := (hmem src).mp hsrc
    have hstep := hs.1.answer alg (j := src) (by omega) hturn
      (by simp [hnew, hne]) fuel (by omega)
    rw [hown] at hstep
    exact ⟨hstep.1, hstep.2.trans hs.2⟩

end BlocksOut

/-- One view adds one block to the chain. -/
theorem AtStart.playView (h : AtStart alg C chain ledger w) (hlen : chain.length + 1 ≤ C.views)
    (σ : Schedule C (chain.length + 1)) :
    ∃ b ledger', b.proposer = newNodeID (C.lead chain) ∧ b.payload = σ.payload ∧
      AtStart alg C (chain ++ [b]) ledger' (w.playView alg C (chain.length + 1) σ) := by
  obtain ⟨qc, b, hsent⟩ := h.propose hlen σ.payload σ.fuel
  have hblocks := hsent.blocks hlen σ.fuel_le σ.blocks_perm
  have hentries := hblocks.entries hlen σ.fuel σ.entries_perm
  obtain ⟨qc', hannounced⟩ := hentries.votes hlen σ.fuel_le σ.votes_perm
  have hanswers := hannounced.announcements hlen σ.fuel_le σ.announcements_perm
  exact ⟨b.received true, _, hsent.made.proposer, hsent.made.payload,
    hanswers.answers hlen σ.fuel_le σ.answers_perm⟩

end Phases

/-! ## Whole runs -/

theorem Straight.copy {l l' : List Block} (h : Straight l)
    (hl : l.map (Block.received true) = l'.map (Block.received true)) : Straight l' := by
  induction h generalizing l' with
  | nil =>
    obtain rfl : l' = [] := by simpa using hl.symm
    exact .nil
  | @snoc l b _ hb hlen ih =>
    obtain ⟨front, last, rfl⟩ : ∃ front last, l' = front ++ [last] := by
      cases l' using List.reverseRecOn with
      | nil => simp at hl
      | append_singleton front last => exact ⟨front, last, rfl⟩
    rw [List.map_append, List.map_append] at hl
    obtain ⟨hfront, hlast⟩ := List.append_inj' hl rfl
    have hcount : front.length = l.length := by simpa using (congrArg List.length hfront).symm
    exact (ih hfront).snoc (hb.copy hfront (by simpa using hlast)) (hcount ▸ hlen)

section Runs

variable (alg : Algorithm) (C : Cluster env) (σ : ∀ v, Schedule C v)

/-- A replica that has only started its first view. -/
theorem calm_started (env : Env) (i : ℕ) : Calm env i [] 0 0 1
    { Replica.new env (newNodeID i) false with pm := (Pacemaker.new env.n).advanceView 0 } where
  id := rfl
  running := rfl
  honest := rfl
  curView := rfl
  newViewChan := rfl
  forest := LevelledForest.retains_new
  committed := rfl
  forked := rfl
  lock := Int64.le_refl _
  highQC := Int64.le_refl _
  lastVoted := rfl
  blocks := rfl
  qcs := rfl
  vmos _ := AList.lookup_empty _
  filed := Quorum.filed_new _
  votes _ _ := by simp [Threshold.sheet, Replica.new, BlockChain.new, Quorum.new]
  total := rfl
  ahead w _ _ := by
    change Threshold.sheet (∅ : Threshold.Book View NodeID VMO) (viewOf w) = ∅
    simp [Threshold.sheet]

theorem atStart_init : AtStart alg C [] (fun _ => []) (World.afterViews alg C σ 0) := by
  obtain ⟨hlive, -, hleads⟩ := C.leads 1 (by omega) (by omega)
  have hleader : env.election.isLeader (newNodeID (C.leader 1)) 1 = true :=
    (hleads _ hlive).mpr rfl
  have hfirst : (World.afterViews alg C σ 0).nodes (C.leader 1) =
      { Replica.new env (newNodeID (C.leader 1)) false with
        pm := (Pacemaker.new env.n).advanceView 0 } := by
    rw [World.afterViews, World.step_eq .txn (C.node _ hlive) rfl, World.take_self]
    refine Replica.step_of_settles (Q := fun t => t = _) rfl ?_
    change Settles (fun _ => handleTxn env) _ _
    unfold handleTxn
    refine Settles.get_bind (Settles.ite (fun _ => Settles.modify rfl) fun hnot => ?_)
    exact absurd ⟨rfl, hleader⟩ hnot
  have hrest : ∀ i, i ≠ C.leader 1 →
      (World.afterViews alg C σ 0).nodes i = Replica.new env (newNodeID i) false := by
    intro i hi
    rw [World.afterViews, World.step_eq .txn (C.node _ hlive) rfl,
      World.take_ne env alg _ _ hi]
    rfl
  have hwake : ∀ i, ((World.afterViews alg C σ 0).nodes i).wake =
      { Replica.new env (newNodeID i) false with pm := (Pacemaker.new env.n).advanceView 0 } := by
    intro i
    by_cases heq : i = C.leader 1
    · rw [heq, hfirst]
      rfl
    · rw [hrest i heq]
      rfl
  refine ⟨⟨fun _ _ => rfl, fun _ _ => .nil, by simp⟩, fun i _ => ?_, fun i _ => ?_, fun i _ => ?_,
    ?_, ?_⟩
  · rw [hwake, List.length_nil, Nat.zero_sub]
    exact calm_started env i
  · rw [hwake]
    change Threshold.sheet (∅ : Threshold.Book View NodeID VMO) _ = ∅
    simp [Threshold.sheet]
  · by_cases heq : i = C.leader 1
    · rw [heq, hfirst]
      rfl
    · rw [hrest i heq]
      rfl
  · change ¬ ((World.afterViews alg C σ 0).nodes (C.leader 1)).pm.curView < 1
    rw [hfirst]
    exact Int64.lt_irrefl
  · change ((World.afterViews alg C σ 0).nodes (C.leader 1)).highQC.Certifies env []
    rw [hfirst]
    exact certifies_initial env

/-- After so many views the chain has as many blocks. -/
theorem atStart_afterViews {V : ℕ} (hV : V ≤ C.views) :
    ∃ chain ledger, chain.map Block.payload = (List.range V).map (fun k => (σ (k + 1)).payload) ∧
      chain.map Block.proposer = (List.range V).map (fun k => newNodeID (C.leader (k + 1))) ∧
      chain.length = V ∧ AtStart alg C chain ledger (World.afterViews alg C σ V) := by
  induction V with
  | zero => exact ⟨[], _, rfl, rfl, rfl, atStart_init alg C σ⟩
  | succ V ih =>
    obtain ⟨chain, ledger, hpayloads, hproposers, rfl, hstart⟩ := ih (by omega)
    obtain ⟨b, ledger', hproposer, hpayload, hnext⟩ := hstart.playView hV (σ (chain.length + 1))
    refine ⟨chain ++ [b], ledger', ?_, ?_, by simp, hnext⟩
    · rw [List.map_append, hpayloads, List.range_succ, List.map_append, List.map_singleton,
        hpayload, List.map_singleton]
    · rw [List.map_append, hproposers, List.range_succ, List.map_append, List.map_singleton,
        hproposer, List.map_singleton]

/-- The views are turns of an honest network. -/
theorem afterViews_turns (V : ℕ) :
    ∃ turns, World.afterViews alg C σ V = World.after env alg turns := by
  have hmore : ∀ (w : World) (more : List Turn), (∃ turns, w = World.after env alg turns) →
      ∃ turns, w.run env alg more = World.after env alg turns := by
    rintro w more ⟨turns, rfl⟩
    exact ⟨turns ++ more, by simp [World.after, World.run]⟩
  induction V with
  | zero => exact ⟨[⟨C.leader 1, .txn, 0⟩], rfl⟩
  | succ V ih =>
    exact hmore _ _ (hmore _ _ (hmore _ _ (hmore _ _ (hmore _ _ (hmore _ [_] ih)))))

/-- A replica beyond the first view is awake. -/
theorem wake_of_later {s : Replica} {k : ℕ} (hk : k + 2 < 2 ^ 63)
    (h : s.wake.pm.curView = viewOf (k + 2)) : s.wake = s := by
  by_cases hasleep : s.pm.curView < 1
  · have hpos : ¬ (0 : View) < s.pm.curView := fun hpos => view_pos_iff.mp hpos hasleep
    rw [Replica.wake, if_pos hasleep] at h
    change (s.pm.advanceView 0).curView = _ at h
    rw [Pacemaker.advanceView, if_neg hpos] at h
    rw [show (0 : View) + 1 = viewOf 1 from rfl, viewOf_inj (by norm_num) hk] at h
    omega
  · exact if_neg hasleep

/-- After views played in lock step every live node is in the next view and has committed
the chain of the proposals, but for the last views. Within a step the nodes take their
messages in any order; the next step begins when all of them have. -/
theorem views_commit {V : ℕ} (hpos : 1 ≤ V) (hV : V ≤ C.views) :
    (∃ turns, World.afterViews alg C σ V = World.after env alg turns) ∧
    ∃ chain : List Block, Straight chain ∧
      chain.map Block.payload = (List.range V).map (fun k => (σ (k + 1)).payload) ∧
      chain.map Block.proposer = (List.range V).map (fun k => newNodeID (C.leader (k + 1))) ∧
      ∀ i ∈ C.live,
        ((World.afterViews alg C σ V).nodes i).crashed = false ∧
        ((World.afterViews alg C σ V).nodes i).pm.curView = viewOf (V + 1) ∧
        ((World.afterViews alg C σ V).nodes i).committedBlocks.map (Block.received true) =
          chain.take (V - if i = C.leader (V + 1) then 2 else alg.lag) ∧
        ((World.afterViews alg C σ V).nodes i).forkedBlocks = [] := by
  refine ⟨afterViews_turns alg C σ V, ?_⟩
  obtain ⟨chain, ledger, hpayloads, hproposers, hlength, hstart⟩ := atStart_afterViews alg C σ hV
  have hviews := C.views_lt
  obtain ⟨hlive, -, -⟩ := C.leads 1 (by omega) (by omega)
  have hstraight : Straight chain := by
    refine (hstart.ledgers.straight _ hlive).copy ?_
    rw [hstart.ledgers.copies _ hlive, ← hstart.ledgers.copies _ hlive, List.map_map]
    exact List.map_congr_left fun b _ => (received_received true b).symm
  refine ⟨chain, hstraight, hpayloads, hproposers, fun i hi => ?_⟩
  obtain ⟨k, rfl⟩ : ∃ k, V = k + 1 := ⟨V - 1, by omega⟩
  have hcalm := hstart.calm i hi
  have hcopies := hstart.ledgers.copies i hi
  have hlead : C.lead chain = C.leader (k + 1 + 1) := by rw [Cluster.lead, hlength]
  simp only [hlead, hlength] at hcalm
  rw [wake_of_later (by omega) hcalm.curView] at hcalm
  refine ⟨hcalm.running, hcalm.curView, ?_, hcalm.forked⟩
  rw [hcalm.committed, List.map_take, hcopies]

end Runs

/-! ## Three nodes out of four -/

theorem idealCrypto_view (r : RawBlock) :
    (idealCrypto.makeID r).toNat % 2 ^ 64 = r.view.toUInt64.toNat := by
  have hlt : r.view.toUInt64.toNat < 2 ^ 64 := r.view.toUInt64.toNat_lt
  change (BitVec.ofNat 256 (r.view.toUInt64.toNat + 2 ^ 64 * r.payload.length)).toNat % 2 ^ 64 = _
  rw [BitVec.toNat_ofNat, Nat.mod_mod_of_dvd _ (by norm_num), Nat.add_mul_mod_self_left,
    Nat.mod_eq_of_lt hlt]

/-- Node 1 of the four is down; the first six views are led by the others. -/
def fourNodes.withoutFirst : Cluster fourNodes where
  live := [2, 3, 4]
  leader v := rotationTurn sha1Table 4 (viewOf v)
  views := 5
  views_lt := by norm_num
  nodup := by decide
  node := by decide
  keys := by decide
  several := by decide
  voters := by decide
  announcers := by decide
  leads v hlo hhi := by
    refine ⟨?_, findLeaderFor_rotation _, fun i hi => isLeader_rotation_iff (by norm_num) ?_ _⟩
    · interval_cases v <;> decide +kernel
    · simp only [List.mem_cons, List.not_mem_nil, or_false] at hi
      omega
  ids r r' h := by
    have hview : r.view.toUInt64.toNat = r'.view.toUInt64.toNat := by
      rw [← idealCrypto_view, ← idealCrypto_view]
      exact congrArg (fun id : Identifier => id.toNat % 2 ^ 64) h
    exact congrArg Int64.ofUInt64 (UInt64.toNat_inj.mp hview)
  genesis r h := by
    have hview : r.view.toUInt64.toNat = 0 := by
      rw [← idealCrypto_view]
      exact congrArg (fun id : Identifier => id.toNat % 2 ^ 64) h
    exact congrArg Int64.ofUInt64 (UInt64.toNat_inj.mp hview)

/-- The votes and the answers come in the reverse order. -/
def fourNodes.schedule (v : ℕ) : Schedule fourNodes.withoutFirst v where
  payload := [⟨Nat.repr v⟩]
  fuel := 2
  blocks := fourNodes.withoutFirst.live
  entries := fourNodes.withoutFirst.live.erase (fourNodes.withoutFirst.leader v)
  votes := (fourNodes.withoutFirst.live.erase (fourNodes.withoutFirst.leader (v + 1))).reverse
  announcements := fourNodes.withoutFirst.live.erase (fourNodes.withoutFirst.leader (v + 1))
  answers := (fourNodes.withoutFirst.live.erase (fourNodes.withoutFirst.leader (v + 1))).reverse
  fuel_le := Nat.le_refl 2
  blocks_perm := .refl _
  entries_perm := .refl _
  votes_perm := List.reverse_perm _
  announcements_perm := .refl _
  answers_perm := List.reverse_perm _

/-- Node 3 of the four commits the first two of five blocks under HotStuff. -/
theorem views_commit_withoutFirst : ∃ chain : List Block,
    chain.map Block.payload = [[⟨"1"⟩], [⟨"2"⟩], [⟨"3"⟩], [⟨"4"⟩], [⟨"5"⟩]] ∧
    ((World.afterViews .hotStuff fourNodes.withoutFirst fourNodes.schedule 5).nodes
      3).committedBlocks.map (Block.received true) = chain.take 2 := by
  obtain ⟨-, chain, -, hpayloads, -, hnodes⟩ := views_commit .hotStuff fourNodes.withoutFirst
    fourNodes.schedule (V := 5) (by norm_num) (Nat.le_refl 5)
  obtain ⟨-, -, hcommitted, -⟩ := hnodes 3 (by decide)
  refine ⟨chain, hpayloads.trans (by decide +kernel), hcommitted.trans ?_⟩
  rw [if_neg (by decide +kernel)]
  rfl

end Bamboo
