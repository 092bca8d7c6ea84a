import Bamboo.Certificates
import Bamboo.PacemakerRuns
import Bamboo.QuorumRuns
import Bamboo.Readable
import Bamboo.StraightChain

/-!
# Replicas that nothing disturbs

A replica is calm in a view if it has seen the whole chain so far and has
nothing else left over: no buffered block or certificate, no announcement kept
for later, no vote and no announcement counted ahead of time. The lemmas of this
module are about the parts that the protocols share; each says that a handler
returns, and in which state.
-/
namespace Bamboo

/-! ## Certificates for the last block -/

/-- A certificate for the last block of a chain, or the one all start with. -/
structure QC.Certifies (env : Env) (l : List Block) (qc : QC) : Prop where
  view : qc.view = viewOf l.length
  blockID : qc.blockID = tipID l
  signed : Signed env qc

theorem certifies_initial (env : Env) : QC.initial.Certifies env [] :=
  ⟨rfl, rfl, by simp [Signed, QC.initial]⟩

theorem QC.Certifies.verified {env : Env} {l : List Block} {qc : QC} (h : qc.Certifies env l)
    (s : Core) : quorumIsVerified env s qc = .ok true := by
  by_cases hown : qc.leader = s.id
  · simp [quorumIsVerified, hown]
  · exact (quorumIsVerified_iff hown).mpr h.signed

/-! ## Calm replicas -/

/-- Node `i` in view `v`: it knows the chain `l` and has committed `c` blocks of
it, and neither its lock nor its certificate is above view `h`. -/
structure Calm (env : Env) (i : ℕ) (l : List Block) (c h v : ℕ) (s : Replica) : Prop where
  id : s.id = newNodeID i
  running : s.crashed = false
  honest : s.isByz = false
  curView : s.pm.curView = viewOf v
  newViewChan : s.pm.newViewChan = (List.range v).map fun k => viewOf (k + 1)
  forest : s.bc.forrest.Retains l c
  committed : s.committedBlocks = l.take c
  forked : s.forkedBlocks = []
  lock : s.preferredView ≤ viewOf h
  highQC : s.highQC.view ≤ viewOf h
  lastVoted : s.lastVotedView = 0
  blocks : s.bufferedBlocks = ∅
  qcs : s.bufferedQCs = ∅
  vmos : ∀ w, s.recivedVMO.lookup w = none
  filed : s.bc.quorum.Filed fun vote => Verifies env vote.signature vote.blockID vote.voter
  votes : ∀ id, (∀ x ∈ l, x.id ≠ id) → Threshold.sheet s.bc.quorum.votes id = ∅
  total : s.pm.viewChangeController.n = env.n
  ahead : ∀ w, v < w → w < 2 ^ 63 →
    Threshold.sheet s.pm.viewChangeController.timeouts (viewOf w) = ∅

/-- Nothing was sent, no view was left and no block was received. -/
structure Inward (s t : Replica) : Prop where
  pm : t.pm = s.pm
  outbox : t.outbox = s.outbox
  entered : t.entered = s.entered
  recivedBlock : t.recivedBlock = s.recivedBlock

theorem Inward.refl (s : Replica) : Inward s s := ⟨rfl, rfl, rfl, rfl⟩

theorem Inward.trans {s t u : Replica} (h : Inward s t) (h' : Inward t u) : Inward s u :=
  ⟨h'.pm.trans h.pm, h'.outbox.trans h.outbox, h'.entered.trans h.entered,
    h'.recivedBlock.trans h.recivedBlock⟩

/-- The votes that have been counted for a block. -/
abbrev Replica.sheet (s : Replica) (id : Identifier) : Threshold.Sheet NodeID Vote :=
  Threshold.sheet s.bc.quorum.votes id

/-- The announcements that have been counted for a view. -/
abbrev Replica.vmosOf (s : Replica) (v : ℕ) : Threshold.Sheet NodeID VMO :=
  Threshold.sheet s.pm.viewChangeController.timeouts (viewOf v)

namespace Calm

variable {env : Env} {i : ℕ} {l : List Block} {c h v : ℕ} {s : Replica}

theorem mono {h' : ℕ} (hs : Calm env i l c h v s) (hle : h ≤ h') (hlt : h' < 2 ^ 63) :
    Calm env i l c h' v s :=
  have hview : viewOf h ≤ viewOf h' := (viewOf_le (by omega) hlt).mpr hle
  { hs with
    lock := Int64.le_trans hs.lock hview
    highQC := Int64.le_trans hs.highQC hview }

theorem raiseLock {view : View} (hs : Calm env i l c h v s) (hview : view ≤ viewOf h) :
    Calm env i l c h v (s.raiseLock view) where
  __ := hs
  lock := by
    change (if s.preferredView < view then view else s.preferredView) ≤ viewOf h
    split_ifs
    · exact hview
    · exact hs.lock

theorem raiseHighQC {qc : QC} (hs : Calm env i l c h v s) (hview : qc.view ≤ viewOf h) :
    Calm env i l c h v (s.raiseHighQC qc) where
  __ := hs
  highQC := by
    change (if s.highQC.view < qc.view then qc else s.highQC).view ≤ viewOf h
    split_ifs
    · exact hview
    · exact hs.highQC

/-- A certificate of a view above all those known becomes the highest one. -/
theorem raiseHighQC_eq {qc : QC} (hs : Calm env i l c h v s) (hview : viewOf h < qc.view) :
    (s.raiseHighQC qc).highQC = qc :=
  if_pos (Int64.lt_of_le_of_lt hs.highQC hview)

/-! ## Storing and committing -/

theorem addBlock {b : Block} (hl : Straight (l ++ [b])) (hs : Calm env i l c h v s) :
    Settles (fun _ => Bamboo.addBlock b) s fun _ t => Calm env i (l ++ [b]) c h v t ∧
      Inward s t ∧ t.highQC = s.highQC ∧ t.sheet b.id = ∅ := by
  obtain ⟨f, hadd, hf⟩ := hs.forest.snoc hl
  have hbc : s.bc.addBlock b = .ok { s.bc with forrest := f } := by
    simp [BlockChain.addBlock, hadd, bind, Except.bind, pure, Except.pure]
  have hfresh := (Straight.snoc_iff.mp hl).2.1.fresh
  refine Settles.get_bind (Settles.call_bind hbc (Settles.set ?_))
  refine ⟨{ hs with forest := hf, committed := ?_, votes := ?_ }, ⟨rfl, rfl, rfl, rfl⟩, rfl,
    hs.votes b.id hfresh⟩
  · rw [List.take_append_of_le_length hs.forest.le]
    exact hs.committed
  · intro id hid
    exact hs.votes id fun x hx => hid x (List.mem_append_left _ hx)

/-- The next block of the chain is committed and delivered. -/
theorem commit {b : Block} (hl : Straight l) (hs : Calm env i l c h v s) (hb : l[c]? = some b)
    (hc : c + 1 < l.length) (qc : QC) :
    Settles (fun _ => Bamboo.commit qc b) s fun r t => r = .ok () ∧
      Calm env i l (c + 1) h v t ∧ Inward s t ∧ t.highQC = s.highQC ∧
      t.sheet (tipID l) = s.sheet (tipID l) := by
  obtain ⟨bc, hcommit, hretains, hvotes⟩ :=
    BlockChain.commitBlock_next hl hs.forest hb s.pm.curView
  have hfiled := (BlockChain.commitBlock_forgets hcommit).2 _ hs.filed
  have hsheet : ∀ id, id ≠ b.id →
      Threshold.sheet bc.quorum.votes id = s.sheet id := by
    intro id hid
    rw [hvotes, Threshold.sheet_erase, if_neg hid]
  unfold Bamboo.commit
  refine Settles.get_bind (Settles.call_bind hcommit (Settles.of_eq rfl
    ⟨rfl, ?_, ⟨rfl, rfl, rfl, rfl⟩, rfl, hsheet _ (hl.tipID_ne hb hc)⟩))
  refine { hs with forest := hretains, committed := ?_, forked := ?_, filed := hfiled, votes := ?_ }
  · change s.committedBlocks ++ [b] = l.take (c + 1)
    rw [hs.committed, List.take_add_one, hb]
    rfl
  · change s.forkedBlocks ++ [] = []
    rw [hs.forked]
    rfl
  · intro id hid
    refine (hsheet id ?_).trans (hs.votes id hid)
    exact fun heq => hid b (List.mem_of_getElem? hb) heq.symm

end Calm

/-! ## Votes -/

/-- The vote of node `i` for a block. -/
def ballot (env : Env) (b : Block) (i : ℕ) : Vote :=
  ⟨b.view, newNodeID i, b.id, [(env.crypto.sign i b.id).1, (env.crypto.sign i b.id).2]⟩

/-- The votes of some nodes, under their names. -/
def ballots (env : Env) (b : Block) (nodes : List ℕ) : List (NodeID × Vote) :=
  nodes.map fun i => (newNodeID i, ballot env b i)

/-- The number of a node of the network, which has a key. -/
def Env.Node (env : Env) (i : ℕ) : Prop := (1 ≤ i ∧ i ≤ env.n) ∧ env.n < 2 ^ 63

section Ballots

variable {env : Env} {i : ℕ}

theorem Env.Node.keyed (hi : env.Node i) : Keyed env (newNodeID i) := by
  have hlt := hi.2
  have hrange := hi.1
  unfold Keyed
  rw [node_newNodeID i (by omega)]
  omega

theorem Env.Node.privSign (hi : env.Node i) (data : Identifier) :
    Bamboo.privSign env data (newNodeID i) =
      .ok [(env.crypto.sign i data).1, (env.crypto.sign i data).2] := by
  have hlt := hi.2
  have hrange := hi.1
  have hnode : NodeID.node (newNodeID i) = i := node_newNodeID i (by omega)
  simp [Bamboo.privSign, hi.keyed.keyIndex, hnode, bind, Except.bind, pure, Except.pure]

theorem Env.Node.makeVote (hi : env.Node i) (b : Block) :
    Bamboo.makeVote env b.view (newNodeID i) b.id = .ok (ballot env b i) := by
  simp [Bamboo.makeVote, hi.privSign, ballot, bind, Except.bind, pure, Except.pure]

theorem Env.Node.verifies (hi : env.Node i) (b : Block) :
    Verifies env (ballot env b i).signature (ballot env b i).blockID (ballot env b i).voter :=
  verifies_privSign (hi.privSign b.id)

/-- The test at the head of `ProcessVote`. -/
theorem ballot_verified (hi : env.Node i) {b : Block} {me : NodeID} :
    (if (ballot env b i).voter ≠ me then pubVerify env (ballot env b i).signature
      (ballot env b i).blockID (ballot env b i).voter else .ok true) = .ok true := by
  by_cases hown : (ballot env b i).voter ≠ me
  · rw [if_pos hown]
    exact hi.verifies b
  · rw [if_neg hown]

theorem card_heard {M : Type} {nodes : List ℕ} (h : nodes.Nodup) (m : ℕ → M) :
    (Threshold.heard (nodes.map fun i => (newNodeID i, m i))).card = nodes.length := by
  have hnames : (nodes.map fun i => (newNodeID i, m i)).map Prod.fst = nodes.map newNodeID := by
    simp [Function.comp_def]
  rw [Threshold.heard, hnames,
    List.toFinset_card_of_nodup (h.map newNodeID_injective), List.length_map]

/-- A certificate made of verified votes is signed. -/
theorem signed_of_certificate {qc : QC} {votes : List Vote}
    (h : Quorum.Certificate env
      (fun vote => Verifies env vote.signature vote.blockID vote.voter) qc votes) :
    Signed env qc := by
  rw [Signed, h.signers, h.aggSig, List.length_map, List.length_map]
  refine ⟨Nat.le_refl _, fun p hp => ?_⟩
  rw [List.zip_map', List.mem_map] at hp
  obtain ⟨vote, hvote, rfl⟩ := hp
  obtain ⟨hid, hgood⟩ := h.vote vote hvote
  rw [← hid]
  exact hgood

end Ballots

/-- The vote completes a certificate exactly if it brings the number of voters
to the threshold. -/
theorem Quorum.add_ballot {env : Env} {j : ℕ} {b : Block} {q q' : Quorum} {r : Option QC}
    {voters : List ℕ} (hj : env.Node j) (hnodup : (j :: voters).Nodup)
    (hq : q.Filed fun vote => Verifies env vote.signature vote.blockID vote.voter)
    (hvotes : Threshold.Counts (env.byzNo * 2 + 1) (ballots env b voters)
      (Threshold.sheet q.votes b.id))
    (hadd : q.add env (ballot env b j) = (r, q')) :
    (q'.Filed fun vote => Verifies env vote.signature vote.blockID vote.voter) ∧
      Threshold.Counts (env.byzNo * 2 + 1) (ballots env b (j :: voters))
        (Threshold.sheet q'.votes b.id) ∧
      (∀ id, id ≠ b.id → Threshold.sheet q'.votes id = Threshold.sheet q.votes id) ∧
      (r.isSome ↔ voters.length < env.byzNo * 2 + 1 ∧ env.byzNo * 2 + 1 ≤ voters.length + 1) ∧
      ∀ qc, r = some qc → qc.view = b.view ∧ qc.blockID = b.id ∧ Signed env qc := by
  have hfiled : (q.add env (ballot env b j)).2.Filed _ := hq.add (hj.verifies b)
  obtain ⟨hcounts, hdone⟩ := hvotes.add (newNodeID j) (ballot env b j)
  have hcard := card_heard hnodup (ballot env b)
  rw [List.map_cons] at hcard
  rw [ballots, card_heard hnodup.of_cons, hcard] at hdone
  have heq := Quorum.add_eq_threshold env q (ballot env b j)
  rw [hadd] at heq hfiled
  obtain ⟨hr, hq'⟩ := Prod.mk.inj heq
  refine ⟨hfiled, ?_, fun id hid => ?_, ?_, fun qc hqc => ?_⟩
  · rw [hq']
    exact hcounts
  · rw [hq']
    exact Threshold.sheet_add_ne hid _ _
  · rw [hr, Option.isSome_ite]
    exact hdone
  · obtain ⟨hview, hid, votes, hcert⟩ := hq.certificate (hj.verifies b) (hqc ▸ hadd)
    exact ⟨hview, hid, signed_of_certificate hcert⟩

namespace Calm

variable {env : Env} {i j c h v : ℕ} {l : List Block} {b : Block} {s : Replica}
  {voters : List ℕ}

theorem countVote (hs : Calm env i (l ++ [b]) c h v s) (hj : env.Node j)
    (hnodup : (j :: voters).Nodup)
    (hvotes : Threshold.Counts (env.byzNo * 2 + 1) (ballots env b voters) (s.sheet b.id)) :
    Settles (fun _ => Bamboo.countVote env (ballot env b j)) s fun r t =>
      Calm env i (l ++ [b]) c h v t ∧ Inward s t ∧
      Threshold.Counts (env.byzNo * 2 + 1) (ballots env b (j :: voters)) (t.sheet b.id) ∧
      (r.isSome ↔ voters.length < env.byzNo * 2 + 1 ∧ env.byzNo * 2 + 1 ≤ voters.length + 1) ∧
      ∀ qc, r = some qc → qc.view = b.view ∧ qc.blockID = b.id ∧ Signed env qc := by
  cases hadd : s.bc.quorum.add env (ballot env b j) with
  | mk r q =>
    obtain ⟨hfiled, hcounts, hother, hsome, hqc⟩ := Quorum.add_ballot hj hnodup hs.filed hvotes hadd
    have hcalm : Calm env i (l ++ [b]) c h v { s with bc := { s.bc with quorum := q } } :=
      { hs with
        filed := hfiled
        votes := fun id hid => (hother id (hid b (by simp)).symm).trans (hs.votes id hid) }
    have hvote : s.bc.addVote env (ballot env b j) = (r, { s.bc with quorum := q }) := by
      simp only [BlockChain.addVote, hadd]
    unfold Bamboo.countVote
    refine Settles.get_bind (Settles.ite (fun hbyz => ?_) fun _ =>
      Settles.call_bind (ballot_verified hj) ?_)
    · rw [hs.honest] at hbyz
      cases hbyz
    · simp only [↓reduceIte, hvote]
      cases r with
      | none => exact Settles.of_eq rfl ⟨hcalm, ⟨rfl, rfl, rfl, rfl⟩, hcounts, hsome, hqc⟩
      | some qc =>
        refine Settles.of_eq rfl ⟨{ hcalm with }, ⟨rfl, rfl, rfl, rfl⟩, hcounts,
          by simpa using hsome, fun qc' heq => ?_⟩
        cases heq
        exact hqc qc rfl

end Calm

end Bamboo
