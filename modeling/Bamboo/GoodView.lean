import Bamboo.Calm
import Bamboo.Safety

/-!
# One view in which everything arrives

The collector of a block's votes is the leader of the next view. It counts the
votes up to the threshold, makes the certificate and announces it; the others
answer the announcement and move on, and the answers move the collector on. The
lemmas follow one replica through these stages. Of a protocol they only use
what it does with a certificate it has just made.
-/
namespace Bamboo

/-- How many views the committed blocks are behind the block just taken up. -/
def Algorithm.lag : Algorithm → ℕ
  | .hotStuff => 3
  | .tchs => 2
  | .fhs => 2

/-- What the leader of the next view announces, in the name of node `i`. -/
def announcement (qc : QC) (v i : ℕ) : VMO := ⟨viewOf v, newNodeID i, some qc⟩

def answers (qc : QC) (v : ℕ) (nodes : List ℕ) : List (NodeID × VMO) :=
  nodes.map fun i => (newNodeID i, announcement qc v i)

/-! ## The stages of the collector -/

section Stages

variable (env : Env) (alg : Algorithm) (i : ℕ) (l : List Block) (b : Block) (qc : QC)

/-- The votes of some nodes have been counted, and they are too few. -/
structure Collecting (voters : List ℕ) (s : Replica) : Prop where
  calm : Calm env i (l ++ [b]) (l.length + 1 - alg.lag) l.length (l.length + 1) s
  nodup : voters.Nodup
  few : voters.length < env.byzNo * 2 + 1
  counts : Threshold.Counts (env.byzNo * 2 + 1) (ballots env b voters) (s.sheet b.id)
  quiet : s.vmosOf (l.length + 1) = ∅

/-- The certificate has been made, and the announcements of some nodes have been
counted, which are too few. -/
structure Announcing (nodes : List ℕ) (s : Replica) : Prop where
  calm : Calm env i (l ++ [b]) (l.length - 1) (l.length + 1) (l.length + 1) s
  highQC : s.highQC = qc
  certifies : qc.Certifies env (l ++ [b])
  full : env.byzNo * 2 + 1 ≤ (s.sheet b.id).entries.length
  nodup : nodes.Nodup
  few : nodes.length < env.n * 2 / 3 + 1
  counts : Threshold.Counts (env.n * 2 / 3 + 1) (answers qc (l.length + 1) nodes)
    (s.vmosOf (l.length + 1))

/-- The collector leads the next view, with the certificate to propose on. -/
structure Leading (s : Replica) : Prop where
  calm : Calm env i (l ++ [b]) (l.length - 1) (l.length + 1) (l.length + 2) s
  highQC : s.highQC = qc
  certifies : qc.Certifies env (l ++ [b])
  quiet : s.vmosOf (l.length + 2) = ∅

end Stages

/-! ## Announcements -/

/-- The answer completes the count exactly if it brings the number of nodes to
the threshold. -/
theorem Pacemaker.processRemoteVmo_answer {p p' : Pacemaker} {n v j : ℕ} {vc : Option View}
    {qc : QC} {nodes : List ℕ} (hn : p.viewChangeController.n = n) (hcur : p.curView = viewOf v)
    (hnodup : (j :: nodes).Nodup)
    (hcounts : Threshold.Counts (n * 2 / 3 + 1) (answers qc v nodes)
      (Threshold.sheet p.viewChangeController.timeouts (viewOf v)))
    (h : p.processRemoteVmo (announcement qc v j) = (vc, p')) :
    p'.curView = p.curView ∧ p'.newViewChan = p.newViewChan ∧ p'.viewChangeController.n = n ∧
      Threshold.Counts (n * 2 / 3 + 1) (answers qc v (j :: nodes))
        (Threshold.sheet p'.viewChangeController.timeouts (viewOf v)) ∧
      (∀ w, w ≠ viewOf v → Threshold.sheet p'.viewChangeController.timeouts w =
        Threshold.sheet p.viewChangeController.timeouts w) ∧
      vc = if nodes.length < n * 2 / 3 + 1 ∧ n * 2 / 3 + 1 ≤ nodes.length + 1 then some (viewOf v)
        else none := by
  subst hn
  obtain ⟨hnew, hdone⟩ := hcounts.add (newNodeID j) (announcement qc v j)
  have hcard := card_heard hnodup (announcement qc v)
  rw [List.map_cons] at hcard
  rw [answers, card_heard hnodup.of_cons, hcard] at hdone
  have hnot : ¬ (announcement qc v j).view < p.curView := by
    rw [hcur]
    exact Int64.lt_irrefl
  rw [Pacemaker.processRemoteVmo, if_neg hnot, addVmo, Controller.add_eq_threshold] at h
  obtain ⟨rfl, rfl⟩ := Prod.mk.inj h
  refine ⟨rfl, rfl, rfl, hnew, fun w hw => Threshold.sheet_add_ne hw _ _, ?_⟩
  exact if_congr hdone rfl rfl

section Announcements

variable {env : Env} {i j : ℕ} {l : List Block} {b : Block} {qc : QC} {nodes : List ℕ}
  {s : Replica} {rules : Rules} {processBlock : Block → Exec (Option Err)}

/-- A calm replica that moves to the next view is calm there, and nothing has been
announced in it. -/
theorem Calm.advanceView {c h v : ℕ} (hs : Calm env i l c h v s) (hv : v + 1 < 2 ^ 63) :
    Calm env i l c h (v + 1) { s with pm := s.pm.advanceView (viewOf v) } ∧
      Replica.vmosOf { s with pm := s.pm.advanceView (viewOf v) } (v + 1) = ∅ := by
  have hpm : s.pm.advanceView (viewOf v) = { s.pm with
      curView := viewOf (v + 1), newViewChan := s.pm.newViewChan ++ [viewOf (v + 1)] } := by
    rw [Pacemaker.advanceView, hs.curView, if_neg Int64.lt_irrefl, viewOf_add_one]
  rw [hpm]
  refine ⟨{ hs with curView := rfl, newViewChan := ?_, ahead := fun w hw => hs.ahead w (by omega) },
    hs.ahead (v + 1) (Nat.lt_succ_self v) hv⟩
  change s.pm.newViewChan ++ [viewOf (v + 1)] = _
  rw [hs.newViewChan, List.range_succ, List.map_append]
  rfl

/-- An announcement in the name of another node is counted; the one that
completes the count moves the collector to the next view. -/
theorem Announcing.processRemoteVmo (hs : Announcing env i l b qc nodes s) (hj : j ∉ nodes)
    (hlen : l.length + 2 < 2 ^ 63)
    (hleader : env.election.findLeaderFor (viewOf (l.length + 2)) = newNodeID i) (fuel : ℕ) :
    Settles (fun _ => Bamboo.processRemoteVmo env rules processBlock (fuel + 1)
        (announcement qc (l.length + 1) j)) s fun _ t =>
      (if nodes.length + 1 < env.n * 2 / 3 + 1 then Announcing env i l b qc (j :: nodes) t
        else Leading env i l b qc t) ∧ t.outbox = s.outbox ∧ t.entered = s.entered := by
  have hcalm := hs.calm
  have hturn : env.election.findLeaderFor ((announcement qc (l.length + 1) j).view + 1) = s.id := by
    rw [hcalm.id, ← hleader, announcement, viewOf_add_one]
  have hnodup : (j :: nodes).Nodup := List.nodup_cons.mpr ⟨hj, hs.nodup⟩
  cases hpm : s.pm.processRemoteVmo (announcement qc (l.length + 1) j) with
  | mk vc pm =>
    obtain ⟨hcur, hchan, htotal, hcounts, hother, hvc⟩ :=
      Pacemaker.processRemoteVmo_answer hcalm.total hcalm.curView hnodup hs.counts hpm
    have hahead : ∀ w, l.length + 1 < w → w < 2 ^ 63 →
        Threshold.sheet pm.viewChangeController.timeouts (viewOf w) = ∅ := by
      intro w hw hlt
      rw [hother _ fun heq => ?_]
      · exact hcalm.ahead w hw hlt
      · rw [viewOf_inj hlt (by omega)] at heq
        omega
    have hnext : Calm env i (l ++ [b]) (l.length - 1) (l.length + 1) (l.length + 1)
        { s with pm := pm } :=
      { hcalm with
        curView := hcur.trans hcalm.curView
        newViewChan := hchan.trans hcalm.newViewChan
        total := htotal
        ahead := hahead }
    unfold Bamboo.processRemoteVmo
    refine Settles.get_bind (Settles.ite (fun _ => ?_) fun hne => absurd hturn hne)
    rw [hpm]
    by_cases hfew : nodes.length + 1 < env.n * 2 / 3 + 1
    · have hnone : vc = none := by
        rw [hvc, if_neg (by omega)]
      subst hnone
      refine Settles.of_eq rfl ⟨?_, rfl, rfl⟩
      rw [if_pos hfew]
      exact ⟨hnext, hs.highQC, hs.certifies, hs.full, hnodup, hfew, hcounts⟩
    · have hsome : vc = some (viewOf (l.length + 1)) := by
        rw [hvc, if_pos ⟨hs.few, by omega⟩]
      subst hsome
      refine Settles.of_eq rfl ⟨?_, rfl, rfl⟩
      rw [if_neg hfew]
      obtain ⟨hcalm', hquiet⟩ := hnext.advanceView hlen
      exact ⟨hcalm', hs.highQC, hs.certifies, hquiet⟩

/-- A late answer is stale. -/
theorem Leading.processRemoteVmo (hs : Leading env i l b qc s) (hlen : l.length + 2 < 2 ^ 63)
    (hleader : env.election.findLeaderFor (viewOf (l.length + 2)) = newNodeID i) (fuel : ℕ) :
    Settles (fun _ => Bamboo.processRemoteVmo env rules processBlock (fuel + 1)
      (announcement qc (l.length + 1) j)) s fun _ t => t = s := by
  have hcalm := hs.calm
  have hturn : env.election.findLeaderFor ((announcement qc (l.length + 1) j).view + 1) = s.id := by
    rw [hcalm.id, ← hleader, announcement, viewOf_add_one]
  have hstale : (announcement qc (l.length + 1) j).view < s.pm.curView := by
    rw [hcalm.curView]
    exact (viewOf_lt (by omega) hlen).mpr (by omega)
  have hpm : s.pm.processRemoteVmo (announcement qc (l.length + 1) j) = (none, s.pm) :=
    if_pos hstale
  unfold Bamboo.processRemoteVmo
  refine Settles.get_bind (Settles.ite (fun _ => ?_) fun hne => absurd hturn hne)
  rw [hpm]
  exact Settles.of_eq rfl rfl

/-- The announcement is sent to all and counted like any other. -/
theorem Announcing.processLocalVmo (hs : Announcing env i l b qc [] s) (hn : 2 ≤ env.n)
    (hlen : l.length + 2 < 2 ^ 63)
    (hleader : env.election.findLeaderFor (viewOf (l.length + 2)) = newNodeID i) (fuel : ℕ) :
    Settles (fun _ => Bamboo.processLocalVmo env rules processBlock (fuel + 1)
        (viewOf (l.length + 1))) s fun _ t =>
      Announcing env i l b qc [i] t ∧ t.entered = s.entered ∧
      t.outbox = s.outbox ++ [⟨none, .vmo (announcement qc (l.length + 1) i)⟩] := by
  have hvmo : (⟨viewOf (l.length + 1), s.id, some s.highQC⟩ : VMO) =
      announcement qc (l.length + 1) i := by
    rw [hs.calm.id, hs.highQC, announcement]
  have hsent : Announcing env i l b qc []
      (s.push none (.vmo (announcement qc (l.length + 1) i))) :=
    { hs with calm := { hs.calm with } }
  unfold Bamboo.processLocalVmo
  refine Settles.get_bind ?_
  simp only [hvmo]
  refine Settles.bind (Settles.modify (Q := fun _ t => t = _) rfl) fun _ t ht => ?_
  subst ht
  refine (hsent.processRemoteVmo List.not_mem_nil hlen hleader fuel).post fun _ t ht => ?_
  obtain ⟨hstage, houtbox, hentered⟩ := ht
  rw [if_pos (by simp; omega)] at hstage
  exact ⟨hstage, hentered, houtbox⟩

/-- Keeping a message for later does nothing else in a view that has started. -/
def Rules.Keeps (rules : Rules) : Prop :=
  ∀ (s : Replica) (vmo : VMO), ¬ s.pm.curView < 1 → Settles (fun _ => rules.keepVmo vmo) s
    fun _ t => t = { s with recivedVMO := s.recivedVMO.insert (vmo.view - 1) vmo }

/-- With the announcement and the block there, the announcement is passed on and
the view is left. -/
theorem processVMOAndBlock_both {view : View} (vmo : VMO) (hblocks : s.bufferedBlocks = ∅)
    (hvmo : s.recivedVMO.lookup (view - 1) = some vmo)
    (hblock : (s.recivedBlock.lookup (view - 1)).isSome)
    (hleader : env.election.findLeaderFor (view + 1) ≠ s.id) :
    Settles (fun _ => processVMOAndBlock env processBlock view) s fun r t => r = true ∧
      t = { s with
        outbox := s.outbox ++
          [⟨some (env.election.findLeaderFor (view + 1)), .vmo { vmo with nodeID := s.id }⟩]
        recivedVMO := s.recivedVMO.erase (view - 1)
        recivedBlock := s.recivedBlock.erase (view - 1)
        pm := s.pm.advanceView view } := by
  obtain ⟨received, hreceived⟩ := Option.isSome_iff_exists.mp hblock
  have hnone : s.bufferedBlocks.lookup (view - 1) = none := by
    rw [hblocks]
    exact AList.lookup_empty _
  unfold processVMOAndBlock
  refine Settles.get_bind ?_
  simp only [hvmo]
  refine Settles.bind (m := fun _ => takeUpBuffered processBlock view) (Q := fun _ t => t = s) ?_
    fun _ t ht => ?_
  · unfold takeUpBuffered
    refine Settles.get_bind ?_
    rw [hnone]
    exact Settles.pure rfl
  subst ht
  refine Settles.get_bind ?_
  simp only [hreceived]
  refine Settles.bind (m := fun _ => postBack env view vmo) (Q := fun _ u => u = t.push
      (some (env.election.findLeaderFor (view + 1))) (.vmo { vmo with nodeID := t.id })) ?_
    fun _ u hu => ?_
  · unfold postBack
    exact Settles.get_bind (Settles.ite (fun _ => Settles.modify rfl)
      fun heq => absurd hleader heq)
  subst hu
  exact Settles.of_eq rfl ⟨rfl, rfl⟩

/-- Any other replica that has the block of the view answers the announcement and
moves on. -/
theorem Calm.processRemoteVmo {c h k : ℕ} (hrules : rules.Keeps) (hs : Calm env i l c h (k + 1) s)
    (hlen : k + 2 < 2 ^ 63) (hleader : env.election.findLeaderFor (viewOf (k + 2)) = newNodeID j)
    (hij : i ≠ j) (hblock : (s.recivedBlock.lookup (viewOf k)).isSome) (fuel : ℕ) :
    Settles (fun _ => Bamboo.processRemoteVmo env rules processBlock (fuel + 1)
        (announcement qc (k + 1) j)) s fun _ t =>
      Calm env i l c h (k + 2) t ∧ t.vmosOf (k + 2) = ∅ ∧ t.entered = s.entered ∧
      t.outbox = s.outbox ++ [⟨some (newNodeID j), .vmo (announcement qc (k + 1) i)⟩] := by
  have hnext : (announcement qc (k + 1) j).view + 1 = viewOf (k + 2) := viewOf_add_one (k + 1)
  have hprev : (announcement qc (k + 1) j).view - 1 = viewOf k := viewOf_succ_sub_one k
  have hturn : ¬ env.election.findLeaderFor ((announcement qc (k + 1) j).view + 1) = s.id := by
    rw [hnext, hleader, hs.id]
    exact fun heq => hij (newNodeID_injective heq).symm
  have hstarted : ¬ s.pm.curView < 1 := by
    rw [hs.curView, show (1 : View) = viewOf 1 from rfl, viewOf_lt (by omega) (by norm_num)]
    omega
  have hcur : ¬ s.pm.curView < (announcement qc (k + 1) j).view := by
    rw [hs.curView]
    exact Int64.lt_irrefl
  unfold Bamboo.processRemoteVmo
  refine Settles.get_bind (Settles.ite (fun heq => absurd heq hturn) fun _ => ?_)
  refine Settles.bind (hrules s _ hstarted) fun _ t ht => ?_
  subst ht
  refine Settles.get_bind (Settles.ite (fun heq => absurd heq hcur) fun _ => ?_)
  refine Settles.bind (processVMOAndBlock_both (announcement qc (k + 1) j) hs.blocks
    (AList.lookup_insert _) (hprev ▸ hblock) hturn) fun r t ht => ?_
  obtain ⟨rfl, rfl⟩ := ht
  have hkept : ∀ w, ((s.recivedVMO.insert (viewOf k) (announcement qc (k + 1) j)).erase
      (viewOf k)).lookup w = none := by
    intro w
    by_cases hw : w = viewOf k
    · rw [hw, AList.lookup_erase]
    · rw [AList.lookup_erase_ne hw, AList.lookup_insert_ne hw, hs.vmos]
  simp only [↓reduceIte]
  refine Settles.get_bind ?_
  simp only [hprev, hkept]
  obtain ⟨hcalm, hquiet⟩ := hs.advanceView hlen
  refine Settles.pure ⟨{ hcalm with vmos := hkept }, hquiet, rfl, ?_⟩
  · rw [hnext, hleader, hs.id]
    rfl

end Announcements

/-! ## Votes -/

/-- What a protocol does with the certificate that a replica has just made of the
votes: it becomes the highest one, and the chain is committed up to two blocks
before its block. -/
structure Punctual (env : Env) (alg : Algorithm) : Prop where
  keeps : (Safety.rules env alg).Keeps
  announced : ∀ (s : Replica) (qc : QC), s.pm.curView = qc.view →
    Settles (fun _ => (Safety.rules env alg).announced qc) s fun a t => a = qc.view ∧ t = s
  certificate : ∀ {i : ℕ} {l : List Block} {b : Block} {s : Replica} {qc : QC},
    Straight (l ++ [b]) →
    Calm env i (l ++ [b]) (l.length + 1 - alg.lag) l.length (l.length + 1) s →
    qc.Certifies env (l ++ [b]) →
    Settles (fun _ => (Safety.rules env alg).processCertificate qc) s fun _ t =>
      Calm env i (l ++ [b]) (l.length - 1) (l.length + 1) (l.length + 1) t ∧ Inward s t ∧
      t.highQC = qc ∧ t.sheet b.id = s.sheet b.id

section Votes

variable {env : Env} {alg : Algorithm} {i j : ℕ} {l : List Block} {b : Block}
  {voters : List ℕ} {s : Replica} {processBlock : Block → Exec (Option Err)}

/-- The stage of the collector and what it has sent since `s`. -/
def Collected (env : Env) (alg : Algorithm) (i : ℕ) (l : List Block) (b : Block)
    (voters : List ℕ) (s t : Replica) : Prop :=
  t.entered = s.entered ∧
    if voters.length < env.byzNo * 2 + 1 then
      Collecting env alg i l b voters t ∧ t.outbox = s.outbox
    else ∃ qc, Announcing env i l b qc [i] t ∧
      t.outbox = s.outbox ++ [⟨none, .vmo (announcement qc (l.length + 1) i)⟩]

theorem Collecting.processVote (hpunctual : Punctual env alg) (hl : Straight (l ++ [b]))
    (hs : Collecting env alg i l b voters s) (hlen : l.length + 2 < 2 ^ 63) (hj : env.Node j)
    (hnew : j ∉ voters) (hn : 2 ≤ env.n)
    (hleader : env.election.findLeaderFor (viewOf (l.length + 2)) = newNodeID i) (fuel : ℕ) :
    Settles (fun _ => Bamboo.processVote env (Safety.rules env alg) processBlock (fuel + 1)
      (ballot env b j)) s fun _ t => Collected env alg i l b (j :: voters) s t := by
  have hnodup : (j :: voters).Nodup := List.nodup_cons.mpr ⟨hnew, hs.nodup⟩
  unfold Bamboo.processVote
  refine Settles.bind (hs.calm.countVote hj hnodup hs.counts) fun r t ht => ?_
  obtain ⟨hcalm, hinward, hcounts, hsome, hqc⟩ := ht
  have hquiet : t.vmosOf (l.length + 1) = ∅ := by
    rw [Replica.vmosOf, hinward.pm]
    exact hs.quiet
  cases r with
  | none =>
    have hfew : (j :: voters).length < env.byzNo * 2 + 1 := by
      have hlt := hs.few
      simp only [Option.isSome_none, Bool.false_eq_true, false_iff] at hsome
      simp only [List.length_cons]
      omega
    refine Settles.pure ⟨hinward.entered, ?_⟩
    rw [if_pos hfew]
    exact ⟨⟨hcalm, hnodup, hfew, hcounts, hquiet⟩, hinward.outbox⟩
  | some qc =>
    obtain ⟨hview, hid, hsigned⟩ := hqc qc rfl
    have hfull : env.byzNo * 2 + 1 ≤ voters.length + 1 := (hsome.mp rfl).2
    have hcert : qc.Certifies env (l ++ [b]) := by
      refine ⟨?_, by rw [hid, tipID_snoc], hsigned⟩
      rw [hview, hl.view (k := l.length) (by simp), List.length_append]
      rfl
    have hblock : t.bc.getBlockByID qc.blockID = .ok b := by
      rw [BlockChain.getBlockByID_ok, hid]
      refine hcalm.forest.getVertex (k := l.length) (by simp) ?_
      omega
    have hvotes : env.byzNo * 2 + 1 ≤ (t.sheet b.id).entries.length := by
      apply hcounts.full
      rw [ballots, card_heard hnodup]
      simpa using hfull
    refine Settles.get_bind ?_
    simp only [hblock]
    refine Settles.bind (hpunctual.certificate hl hcalm hcert) fun _ u hu => ?_
    obtain ⟨hcalm', hinward', hhigh, hsheet⟩ := hu
    have hcur : u.pm.curView = qc.view := by
      rw [hcalm'.curView, hcert.view, List.length_append]
      rfl
    refine Settles.bind (hpunctual.announced u qc hcur) fun a w hw => ?_
    obtain ⟨rfl, rfl⟩ := hw
    have hstage : Announcing env i l b qc [] w :=
      { calm := hcalm'
        highQC := hhigh
        certifies := hcert
        full := by rw [hsheet]; exact hvotes
        nodup := List.nodup_nil
        few := Nat.succ_pos _
        counts := by
          have hempty : w.vmosOf (l.length + 1) = ∅ := by
            rw [Replica.vmosOf, hinward'.pm]
            exact hquiet
          rw [hempty]
          exact Threshold.counts_empty (Nat.succ_pos _) }
    rw [← hcur, hcalm'.curView]
    refine (hstage.processLocalVmo hn hlen hleader fuel).post fun _ x hx => ?_
    obtain ⟨hdone, hentered, houtbox⟩ := hx
    refine ⟨by rw [hentered, hinward'.entered, hinward.entered], ?_⟩
    rw [if_neg (by simp only [List.length_cons]; omega)]
    exact ⟨qc, hdone, by rw [houtbox, hinward'.outbox, hinward.outbox]⟩

/-- A vote that comes after the certificate is not counted. -/
theorem Announcing.processVote {qc : QC} {nodes : List ℕ} {rules : Rules}
    (hs : Announcing env i l b qc nodes s) (hj : env.Node j) (fuel : ℕ) :
    Settles (fun _ => Bamboo.processVote env rules processBlock fuel (ballot env b j)) s
      fun _ t => t = s := by
  have hclosed : s.bc.addVote env (ballot env b j) = (none, s.bc) := by
    have hmajority : s.bc.quorum.superMajority env (ballot env b j).blockID = true := by
      rw [Quorum.superMajority, Quorum.size_eq, decide_eq_true_iff]
      exact hs.full
    simp only [BlockChain.addVote, Quorum.add, hmajority, ↓reduceIte]
  unfold Bamboo.processVote
  refine Settles.bind (m := fun _ => Bamboo.countVote env (ballot env b j))
    (Q := fun r t => r = none ∧ t = s) ?_ fun r t ht => ?_
  · unfold Bamboo.countVote
    refine Settles.get_bind (Settles.ite (fun _ => Settles.pure ⟨rfl, rfl⟩) fun _ => ?_)
    refine Settles.call_bind (ballot_verified hj) ?_
    simp only [↓reduceIte, hclosed]
    exact Settles.of_eq rfl ⟨rfl, rfl⟩
  · obtain ⟨rfl, rfl⟩ := ht
    exact Settles.pure rfl

/-- A replica that does not lead the next view sends its vote to the one that does. -/
theorem Calm.castVote {c h v : ℕ} {chain : List Block} {rules : Rules}
    (hs : Calm env i chain c h v s) (hi : env.Node i)
    (hleader : env.election.findLeaderFor (b.view + 1) = newNodeID j) (hij : i ≠ j) (fuel : ℕ) :
    Settles (fun _ => Bamboo.castVote env rules processBlock fuel b) s fun _ t =>
      Calm env i chain c h v t ∧ t.pm = s.pm ∧ t.entered = s.entered ∧
      t.recivedBlock = s.recivedBlock ∧
      t.outbox = s.outbox ++ [⟨some (newNodeID j), .vote (ballot env b i)⟩] := by
  have hvote := hi.makeVote b
  rw [← hs.id] at hvote
  unfold Bamboo.castVote
  refine Settles.get_bind (Settles.call_bind hvote ?_)
  refine Settles.bind (Settles.modify (Q := fun _ t => t = _) rfl) fun _ t ht => ?_
  subst ht
  rw [hleader]
  refine Settles.ite (fun heq => ?_) fun _ => Settles.modify ⟨{ hs with }, rfl, rfl, rfl, rfl⟩
  rw [hs.id] at heq
  exact absurd (newNodeID_injective heq).symm hij

/-- The collector counts its own vote first. -/
theorem Collecting.castVote (hpunctual : Punctual env alg) (hl : Straight (l ++ [b]))
    (hs : Collecting env alg i l b [] s) (hlen : l.length + 2 < 2 ^ 63) (hi : env.Node i)
    (hn : 2 ≤ env.n)
    (hleader : env.election.findLeaderFor (viewOf (l.length + 2)) = newNodeID i) (fuel : ℕ) :
    Settles (fun _ => Bamboo.castVote env (Safety.rules env alg) processBlock (fuel + 1) b) s
      fun _ t => Collected env alg i l b [i] s t := by
  have hvote := hi.makeVote b
  rw [← hs.calm.id] at hvote
  have hview : b.view + 1 = viewOf (l.length + 2) := by
    rw [hl.view (k := l.length) (by simp), viewOf_add_one]
  unfold Bamboo.castVote
  refine Settles.get_bind (Settles.call_bind hvote ?_)
  refine Settles.bind (Settles.modify (Q := fun _ t => t = _) rfl) fun _ t ht => ?_
  subst ht
  rw [hview, hleader, hs.calm.id]
  simp only [↓reduceIte]
  have hsame : Collecting env alg i l b []
      (s.record (.vote s.toCore b (ballot env b i))) :=
    { hs with calm := { hs.calm with } }
  exact hsame.processVote hpunctual hl hlen hi List.not_mem_nil hn hleader fuel

end Votes

end Bamboo
