import Bamboo.GoodBlocks

/-!
# The turns of a view in which everything arrives

A turn of the event loop is one input and whatever its handlers do. The leader
takes up the view and proposes; each node takes the block and votes; the
collector goes through its stages vote by vote and answer by answer.
-/
namespace Bamboo

section Turns

variable {env : Env} {alg : Algorithm} {i j c h v : ℕ} {l : List Block} {b : Block} {qc : QC}
  {s : Replica}

/-- A handler that returns is the whole turn of a running replica. -/
theorem Replica.step_of_settles {input : Input × ℕ} {Q : Replica → Prop}
    (hrunning : s.crashed = false)
    (hm : Settles (fun _ => handleInput env alg input.2 input.1) s fun _ t => Q t) :
    Q (s.step env alg input) := by
  obtain ⟨_, t, ⟨N, hN⟩, ht⟩ := hm
  simp only [Replica.step, hrunning, Bool.false_eq_true, ↓reduceIte, hN N (Nat.le_refl N)]
  exact ht

/-- All three propose on the highest certificate. -/
theorem makeProposal_eq (env : Env) (alg : Algorithm) (view : View) (payload : List Transaction)
    (s : Replica) : ∃ forkNum height, Safety.makeProposal env alg view payload s =
      call (makeBlock env view s.highQC s.highQC.blockID payload s.id s.isByz forkNum height)
        s := by
  cases alg with
  | hotStuff => exact ⟨_, _, rfl⟩
  | tchs => exact ⟨_, _, rfl⟩
  | fhs => exact ⟨_, _, rfl⟩

/-- The block that a leader makes of a certificate and a payload. -/
structure MadeBy (env : Env) (i v : ℕ) (qc : QC) (payload : List Transaction) (b : Block) :
    Prop where
  view : b.view = viewOf v
  certificate : b.qc = some qc
  prevID : b.prevID = qc.blockID
  proposer : b.proposer = newNodeID i
  payload : b.payload = payload
  honest : b.mali = false
  id : b.id = env.crypto.makeID b.raw
  signature : Verifies env b.sig b.id b.proposer

theorem Env.Node.makeBlock (hi : env.Node i) (v : ℕ) (qc : QC) (payload : List Transaction)
    (forkNum height : ℤ) :
    ∃ b, Bamboo.makeBlock env (viewOf v) qc qc.blockID payload (newNodeID i) false forkNum height =
      .ok b ∧ MadeBy env i v qc payload b := by
  let id := env.crypto.makeID
    ⟨viewOf v, some qc, newNodeID i, payload.map Transaction.id, qc.blockID⟩
  refine ⟨⟨viewOf v, some qc, newNodeID i, payload, qc.blockID,
    [(env.crypto.sign i id).1, (env.crypto.sign i id).2], id, false, forkNum, height⟩, ?_, ?_⟩
  · simp only [Bamboo.makeBlock, hi.privSign, bind, Except.bind, pure, Except.pure]
    rfl
  · exact ⟨rfl, rfl, rfl, rfl, rfl, rfl, rfl, verifies_privSign (hi.privSign _)⟩

/-- The leader takes up its new view and proposes. -/
theorem Calm.propose (alg : Algorithm) (hs : Calm env i l c h v s) (hi : env.Node i) {k : ℕ}
    (hv : v = k + 1) (hentered : s.entered = k)
    (hleader : env.election.isLeader (newNodeID i) (viewOf v) = true)
    (payload : List Transaction) (fuel : ℕ) :
    ∃ b, MadeBy env i v s.highQC payload b ∧
      Calm env i l c h v (s.step env alg (.newView payload, fuel)) ∧
      (s.step env alg (.newView payload, fuel)).pm = s.pm ∧
      (s.step env alg (.newView payload, fuel)).entered = v ∧
      (s.step env alg (.newView payload, fuel)).outbox = s.outbox ++ [⟨none, .block b⟩] := by
  subst hv
  have hview : s.pm.newViewChan[s.entered]? = some (viewOf (k + 1)) := by
    rw [hs.newViewChan, hentered]
    simp
  obtain ⟨forkNum, height, hprop⟩ := makeProposal_eq env alg (viewOf (k + 1)) payload
    { s with entered := s.entered + 1 }
  obtain ⟨b, hb, hmade⟩ := hi.makeBlock (k + 1) s.highQC payload forkNum height
  refine ⟨b, hmade, Replica.step_of_settles (Q := fun t => Calm env i l c h (k + 1) t ∧
    t.pm = s.pm ∧ t.entered = k + 1 ∧ t.outbox = s.outbox ++ [⟨none, .block b⟩]) hs.running ?_⟩
  change Settles (fun _ => processNewView env (Safety.makeProposal env alg) payload) s _
  unfold processNewView
  refine Settles.get_bind ?_
  simp only [hview]
  refine Settles.bind (Settles.set (Q := fun _ t => t = { s with entered := s.entered + 1 }) rfl)
    fun _ t ht => ?_
  subst ht
  rw [hs.id, hs.honest]
  simp only [hleader, and_self, ↓reduceIte]
  unfold proposeBlock
  rw [hs.id, hs.honest, hb] at hprop
  refine Settles.bind (Settles.of_eq (m := Safety.makeProposal env alg (viewOf (k + 1)) payload)
    hprop (Q := fun a t => a = b ∧ t = { s with entered := s.entered + 1 }) ⟨rfl, rfl⟩)
    fun a t ht => ?_
  obtain ⟨rfl, rfl⟩ := ht
  exact Settles.of_eq rfl ⟨{ hs with }, rfl, by rw [← hentered]; rfl, rfl⟩

/-- Any other node has nothing to do in the new view. -/
theorem Replica.step_newView (view : View) (hrunning : s.crashed = false)
    (hview : s.pm.newViewChan[s.entered]? = some view)
    (hleader : env.election.isLeader s.id view ≠ true) (payload : List Transaction) (fuel : ℕ) :
    s.step env alg (.newView payload, fuel) = { s with entered := s.entered + 1 } := by
  refine Replica.step_of_settles (Q := fun t => t = { s with entered := s.entered + 1 }) hrunning ?_
  change Settles (fun _ => processNewView env (Safety.makeProposal env alg) payload) s _
  unfold processNewView
  refine Settles.get_bind ?_
  simp only [hview]
  refine Settles.bind (Settles.set (Q := fun _ t => t = { s with entered := s.entered + 1 }) rfl)
    fun _ t ht => ?_
  subst ht
  exact Settles.ite (fun h => absurd h.1 hleader) fun _ => Settles.pure rfl

/-- The stage of the collector of a block's votes. When it has made the
certificate, the announcement is what it has sent last. -/
def VoteStage (env : Env) (alg : Algorithm) (i : ℕ) (l : List Block) (b : Block) (voters : List ℕ)
    (s : Replica) : Prop :=
  if voters.length < env.byzNo * 2 + 1 then Collecting env alg i l b voters s
  else ∃ qc, Announcing env i l b qc [i] s ∧
    s.outbox.getLast? = some ⟨none, .vmo (announcement qc (l.length + 1) i)⟩

theorem Collected.voteStage {voters : List ℕ} {t : Replica}
    (h : Collected env alg i l b voters s t) :
    VoteStage env alg i l b voters t := by
  unfold VoteStage
  have hstage := h.2
  split_ifs at hstage ⊢ with hfew
  · exact hstage.1
  · obtain ⟨qc, hqc, houtbox⟩ := hstage
    exact ⟨qc, hqc, by simp [houtbox]⟩

theorem Collected.outbox {voters : List ℕ} {t : Replica} (h : Collected env alg i l b voters s t) :
    s.outbox <+: t.outbox := by
  have hstage := h.2
  split_ifs at hstage with hfew
  · rw [hstage.2]
  · obtain ⟨qc, -, houtbox⟩ := hstage
    rw [houtbox]
    exact List.prefix_append _ _

/-- A new-view event does not change the stage. -/
theorem VoteStage.enter {voters : List ℕ} (h : VoteStage env alg i l b voters s) (k : ℕ) :
    VoteStage env alg i l b voters { s with entered := k } := by
  unfold VoteStage at h ⊢
  split_ifs at h ⊢ with hfew
  · exact { h with calm := { h.calm with } }
  · obtain ⟨qc, hqc, houtbox⟩ := h
    exact ⟨qc, { hqc with calm := { hqc.calm with } }, houtbox⟩

/-- In either stage the collector is calm. -/
theorem VoteStage.calm {voters : List ℕ} (h : VoteStage env alg i l b voters s) :
    ∃ c h, Calm env i (l ++ [b]) c h (l.length + 1) s := by
  unfold VoteStage at h
  split_ifs at h with hfew
  · exact ⟨_, _, h.calm⟩
  · obtain ⟨qc, hqc, -⟩ := h
    exact ⟨_, _, hqc.calm⟩


theorem wake_frame (s : Replica) : s.wake.crashed = s.crashed ∧ s.wake.outbox = s.outbox := by
  unfold Replica.wake
  split_ifs <;> exact ⟨rfl, rfl⟩

/-- The vote of another node. -/
theorem VoteStage.vote {voters : List ℕ} (hl : Straight (l ++ [b]))
    (hlen : l.length + 2 < 2 ^ 63) (hn : 2 ≤ env.n)
    (hleader : env.election.findLeaderFor (viewOf (l.length + 2)) = newNodeID i)
    (h : VoteStage env alg i l b voters s) (hj : env.Node j) (hnew : j ∉ voters) (fuel : ℕ)
    (hfuel : 1 ≤ fuel) :
    VoteStage env alg i l b (j :: voters)
        (s.step env alg (.deliver (.vote (ballot env b j)), fuel)) ∧
      (s.step env alg (.deliver (.vote (ballot env b j)), fuel)).entered = s.entered := by
  obtain ⟨fuel, rfl⟩ : ∃ k, fuel = k + 1 := ⟨fuel - 1, by omega⟩
  obtain ⟨_, _, hcalm⟩ := h.calm
  refine Replica.step_of_settles (Q := fun t => VoteStage env alg i l b (j :: voters) t ∧
    t.entered = s.entered) hcalm.running ?_
  by_cases hfew : voters.length < env.byzNo * 2 + 1
  · rw [VoteStage, if_pos hfew] at h
    exact (h.processVote (punctual env alg) hl hlen hj hnew hn hleader fuel).post
      fun _ t ht => ⟨ht.voteStage, ht.1⟩
  · rw [VoteStage, if_neg hfew] at h
    obtain ⟨qc, hqc, houtbox⟩ := h
    refine (hqc.processVote hj (fuel + 1)).post fun _ t ht => ?_
    subst ht
    refine ⟨?_, rfl⟩
    rw [VoteStage, if_neg (by simp only [List.length_cons]; omega)]
    exact ⟨qc, hqc, houtbox⟩

section Block

variable (hl : Straight (l ++ [b])) (hs : Calm env i l c l.length (l.length + 1) s.wake)
  (hb : Proposed env l b) (hown : b.proposer = newNodeID i → c = l.length - 2)
  (hother : b.proposer ≠ newNodeID i → c = l.length - alg.lag) (hi : env.Node i)
include hl hs hb hown hother hi

/-- The block at a node that does not lead the next view. -/
theorem Calm.block {fuel : ℕ} (hfuel : 2 ≤ fuel)
    (hleader : env.election.findLeaderFor (viewOf (l.length + 2)) = newNodeID j) (hij : i ≠ j) :
    Calm env i (l ++ [b]) (l.length + 1 - alg.lag) l.length (l.length + 1)
        (s.step env alg (.deliver (.block b), fuel)) ∧
      (s.step env alg (.deliver (.block b), fuel)).entered = s.entered ∧
      ((s.step env alg (.deliver (.block b), fuel)).recivedBlock.lookup (viewOf l.length)).isSome ∧
      (s.step env alg (.deliver (.block b), fuel)).outbox =
        s.outbox ++ [⟨some (newNodeID j), .vote (ballot env b i)⟩] := by
  obtain ⟨fuel, rfl⟩ : ∃ k, fuel = k + 1 := ⟨fuel - 1, by omega⟩
  have hview : b.view + 1 = viewOf (l.length + 2) := by
    rw [(Straight.snoc_iff.mp hl).2.1.view, viewOf_add_one]
  refine Replica.step_of_settles (Q := fun t =>
    Calm env i (l ++ [b]) (l.length + 1 - alg.lag) l.length (l.length + 1) t ∧
      t.entered = s.entered ∧ (t.recivedBlock.lookup (viewOf l.length)).isSome ∧
      t.outbox = s.outbox ++ [⟨some (newNodeID j), .vote (ballot env b i)⟩])
    ((wake_frame s).1 ▸ hs.running) ?_
  refine Settles.bind (Calm.safety_processBlock hl hs hb hown hother fun t ht harrived _ => ?_)
    fun _ t ht => Settles.pure ht
  refine (ht.castVote hi (hview ▸ hleader) hij fuel).post fun _ u hu => ⟨hu.1.blocks, hu.1, ?_⟩
  refine ⟨hu.2.2.1.trans harrived.entered, ?_, by rw [hu.2.2.2.2, harrived.outbox]⟩
  rw [hu.2.2.2.1]
  exact harrived.block

/-- The block at the leader of the next view. -/
theorem Calm.block_collector {fuel : ℕ} (hfuel : 2 ≤ fuel) (hlen : l.length + 2 < 2 ^ 63)
    (hn : 2 ≤ env.n)
    (hquiet : s.wake.vmosOf (l.length + 1) = ∅)
    (hleader : env.election.findLeaderFor (viewOf (l.length + 2)) = newNodeID i) :
    VoteStage env alg i l b [i] (s.step env alg (.deliver (.block b), fuel)) ∧
      (s.step env alg (.deliver (.block b), fuel)).entered = s.entered ∧
      s.outbox <+: (s.step env alg (.deliver (.block b), fuel)).outbox := by
  obtain ⟨fuel, rfl⟩ : ∃ k, fuel = k + 2 := ⟨fuel - 2, by omega⟩
  refine Replica.step_of_settles (Q := fun t => VoteStage env alg i l b [i] t ∧
    t.entered = s.entered ∧ s.outbox <+: t.outbox) ((wake_frame s).1 ▸ hs.running) ?_
  refine Settles.bind (Calm.safety_processBlock hl hs hb hown hother
    fun t ht harrived hsheet => ?_) fun _ t ht => Settles.pure ht
  have hstage : Collecting env alg i l b [] t :=
    { calm := ht
      nodup := List.nodup_nil
      few := Nat.succ_pos _
      counts := by
        rw [hsheet]
        exact Threshold.counts_empty (Nat.succ_pos _)
      quiet := by
        rw [Replica.vmosOf, harrived.pm]
        exact hquiet }
  refine (hstage.castVote (punctual env alg) hl hlen hi hn hleader fuel).post fun _ u hu => ?_
  have hsent : s.outbox <+: u.outbox := by
    rw [← harrived.outbox]
    exact hu.outbox
  obtain ⟨_, _, hcalm⟩ := hu.voteStage.calm
  exact ⟨hcalm.blocks, hu.voteStage, hu.1.trans harrived.entered, hsent⟩

end Block

/-- The announcement at another node. -/
theorem Calm.announced (alg : Algorithm) (qc : QC) {k : ℕ} (fuel : ℕ)
    (hs : Calm env i l c h (k + 1) s) (hlen : k + 2 < 2 ^ 63)
    (hleader : env.election.findLeaderFor (viewOf (k + 2)) = newNodeID j) (hij : i ≠ j)
    (hblock : (s.recivedBlock.lookup (viewOf k)).isSome) (hfuel : 1 ≤ fuel) :
    Calm env i l c h (k + 2)
        (s.step env alg (.deliver (.vmo (announcement qc (k + 1) j)), fuel)) ∧
      (s.step env alg (.deliver (.vmo (announcement qc (k + 1) j)), fuel)).vmosOf (k + 2) =
        ∅ ∧
      (s.step env alg (.deliver (.vmo (announcement qc (k + 1) j)), fuel)).entered = s.entered ∧
      (s.step env alg (.deliver (.vmo (announcement qc (k + 1) j)), fuel)).outbox =
        s.outbox ++ [⟨some (newNodeID j), .vmo (announcement qc (k + 1) i)⟩] := by
  obtain ⟨fuel, rfl⟩ : ∃ k, fuel = k + 1 := ⟨fuel - 1, by omega⟩
  refine Replica.step_of_settles (Q := fun t => Calm env i l c h (k + 2) t ∧
    t.vmosOf (k + 2) = ∅ ∧ t.entered = s.entered ∧ t.outbox =
      s.outbox ++ [⟨some (newNodeID j), .vmo (announcement qc (k + 1) i)⟩]) hs.running ?_
  exact hs.processRemoteVmo (punctual env alg).keeps hlen hleader hij hblock fuel

/-- The stage of the collector of the answers. -/
def AnswerStage (env : Env) (i : ℕ) (l : List Block) (b : Block) (qc : QC) (nodes : List ℕ)
    (s : Replica) : Prop :=
  if nodes.length < env.n * 2 / 3 + 1 then Announcing env i l b qc nodes s
  else Leading env i l b qc s

/-- In either stage the collector is calm. -/
theorem AnswerStage.calm {nodes : List ℕ} (h : AnswerStage env i l b qc nodes s) :
    ∃ v, Calm env i (l ++ [b]) (l.length - 1) (l.length + 1) v s := by
  unfold AnswerStage at h
  split_ifs at h with hfew
  · exact ⟨_, h.calm⟩
  · exact ⟨_, h.calm⟩

/-- The answer of another node. -/
theorem AnswerStage.answer (alg : Algorithm) {nodes : List ℕ} (hlen : l.length + 2 < 2 ^ 63)
    (hleader : env.election.findLeaderFor (viewOf (l.length + 2)) = newNodeID i)
    (h : AnswerStage env i l b qc nodes s) (hnew : j ∉ nodes) (fuel : ℕ) (hfuel : 1 ≤ fuel) :
    AnswerStage env i l b qc (j :: nodes)
        (s.step env alg (.deliver (.vmo (announcement qc (l.length + 1) j)), fuel)) ∧
      (s.step env alg (.deliver (.vmo (announcement qc (l.length + 1) j)), fuel)).entered =
        s.entered := by
  obtain ⟨fuel, rfl⟩ : ∃ k, fuel = k + 1 := ⟨fuel - 1, by omega⟩
  obtain ⟨_, hcalm⟩ := h.calm
  refine Replica.step_of_settles (Q := fun t => AnswerStage env i l b qc (j :: nodes) t ∧
    t.entered = s.entered) hcalm.running ?_
  by_cases hfew : nodes.length < env.n * 2 / 3 + 1
  · rw [AnswerStage, if_pos hfew] at h
    exact (h.processRemoteVmo hnew hlen hleader fuel).post fun _ t ht => ⟨ht.1, ht.2.2⟩
  · rw [AnswerStage, if_neg hfew] at h
    refine (h.processRemoteVmo hlen hleader fuel).post fun _ t ht => ?_
    subst ht
    refine ⟨?_, rfl⟩
    rw [AnswerStage, if_neg (by simp only [List.length_cons]; omega)]
    exact h

end Turns

end Bamboo
