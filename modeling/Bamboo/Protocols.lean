import Bamboo.Handlers

/-!
# The protocols make transitions only

The three protocols' own parts, and with them every input of a replica: a turn
of the event loop, and so a whole run, is a chain of transitions. Whatever the
transitions preserve holds in every state a replica reaches.
-/
namespace Bamboo

open Relation Stepwise

section Protocols

variable {env : Env} {alg : Algorithm} {K : Known}

/-! ## Certificates -/

/-- The lock has reached the parent of the block that `qc` certifies, as far as
`bc` knows that parent. -/
def LockedBy (bc : BlockChain) (qc : QC) (s : Replica) : Prop :=
  2 < qc.view → ∀ p, bc.getParentBlock qc.blockID = .ok (.ok p) → p.view ≤ s.preferredView

theorem LockedBy.mono {bc : BlockChain} {qc : QC} {s s' : Replica} (hs : LockedBy bc qc s)
    (h : Later s s') : LockedBy bc qc s' :=
  fun hv p hp => Int64.le_trans (hs hv p hp) h.lock

theorem raiseLock_leads {P : Replica → Prop} (qc : QC) (view : View)
    (h : ∀ s, P s → Accepted env K s qc ∧ LockTarget s.bc qc view alg) :
    Leads (Clerical env alg K) P (modify fun s => s.raiseLock view : Exec Unit) fun _ s =>
      view ≤ s.preferredView := by
  refine Leads.of_modify fun s hs => ⟨.lock s qc view (h s hs).1 (h s hs).2, ?_⟩
  simp only [Replica.raiseLock]
  split_ifs with hlt
  · exact Int64.le_refl _
  · exact Int64.not_lt.mp hlt

theorem hotStuff_updatePreferredView_leads {s₀ : Replica} {qc : QC}
    (h : Accepted env K s₀ qc) :
    Leads (Clerical env .hotStuff K) (fun s => s = s₀) (HotStuff.updatePreferredView qc)
      fun _ s => LockedBy s₀.bc qc s := by
  unfold HotStuff.updatePreferredView
  refine Leads.ite (fun hv => Leads.pure fun s _ hlt => ?_) fun _ => ?_
  · exact absurd hv (Int64.not_le.mpr hlt)
  refine Leads.get_bind fun s hs => ?_
  subst hs
  cases hb : s.bc.getBlockByID qc.blockID with
  | error e =>
    refine Leads.pure fun t _ _ p hp => ?_
    obtain ⟨b, hstored, -⟩ := BlockChain.getParentBlock_ok hp
    rw [BlockChain.getBlockByID_ok.mpr hstored] at hb
    cases hb
  | ok b =>
    refine Leads.bind (leads_call _) fun r => Leads.assume fun hr => ?_
    cases r with
    | error e =>
      refine Leads.pure fun t _ _ p hp => ?_
      rw [hr] at hp
      cases hp
    | ok p =>
      refine Leads.bind (raiseLock_leads qc p.view fun t ht => ?_) fun _ => ?_
      · subst ht
        exact ⟨h, p, hr, rfl⟩
      · refine Leads.pure fun t ht _ p' hp' => ?_
        rw [hr] at hp'
        cases hp'
        exact ht

theorem tchs_updatePreferredView_leads {s₀ : Replica} {qc : QC} (h : Accepted env K s₀ qc) :
    Leads (Clerical env .tchs K) (fun s => s = s₀) (Tchs.updatePreferredView qc)
      fun _ _ => True := by
  unfold Tchs.updatePreferredView
  refine Leads.ite (fun _ => Leads.done) fun _ => ?_
  refine Leads.get_bind fun s hs => ?_
  subst hs
  refine Leads.bind (leads_call _) fun r => Leads.assume fun hr => ?_
  cases r with
  | error e => exact Leads.done
  | ok p =>
    refine Leads.bind (raiseLock_leads qc p.view fun t ht => ?_) fun _ => Leads.done
    subst ht
    exact ⟨h, p, hr, rfl⟩

theorem fhs_updatePreferredView_leads {s₀ : Replica} {qc : QC} (h : Accepted env K s₀ qc) :
    Leads (Clerical env .fhs K) (fun s => s = s₀) (Fhs.updatePreferredView qc)
      fun _ _ => True := by
  unfold Fhs.updatePreferredView
  refine Leads.ite (fun _ => Leads.done) fun _ => ?_
  refine Leads.get_bind fun s hs => ?_
  subst hs
  cases hb : s.bc.getBlockByID qc.blockID with
  | error e => exact Leads.done
  | ok b =>
    refine Leads.bind (raiseLock_leads qc qc.view fun t ht => ?_) fun _ => Leads.done
    subst ht
    exact ⟨h, b, hb, rfl⟩

theorem commit_clerical {qc : QC} {head : Block} {P : Replica → Prop}
    (h : ∀ s, P s → CommitGuard env K s qc head alg) :
    Leads (Clerical env alg K) P (commit qc head) fun _ _ => True :=
  Leads.start fun s hs => commit_leads
    (fun committed forked bc hc => .commit s qc head committed forked bc (h s hs) hc)
    fun e bc hc => .commitFailed s head.id e bc hc

theorem hotStuff_checkCommit_leads (qc : QC) :
    Leads (Clerical env .hotStuff K) (fun s => Accepted env K s qc) (HotStuff.checkCommit qc)
      fun _ _ => True := by
  unfold HotStuff.checkCommit
  refine Leads.ite (fun _ => Leads.done) fun hview => ?_
  refine Leads.get_bind fun s hs => ?_
  refine Leads.bind (leads_call _) fun r => Leads.assume fun hr => ?_
  rcases r with e | _ | head
  · exact Leads.done
  · exact Leads.done
  · refine Leads.bind (commit_clerical fun t ht => ?_) fun _ => Leads.done
    subst ht
    exact ⟨hs, hview, hr⟩

/-- HotStuff's lock follows every accepted certificate whose block and its
parent are stored. -/
theorem hotStuff_processCertificate_leads {s₀ : Replica} {qc : QC} (h : Held K s₀ qc) :
    Leads (Clerical env .hotStuff K) (fun s => s = s₀) (HotStuff.processCertificate env qc)
      fun _ s => quorumIsVerified env s₀.toCore qc = .ok true → LockedBy s₀.bc qc s := by
  unfold HotStuff.processCertificate
  refine Leads.get_bind fun s hs => ?_
  subst hs
  refine Leads.bind (leads_call _) fun verified => Leads.assume fun hver => ?_
  refine Leads.ite (fun hok => ?_) fun hno => ?_
  · have hacc : Accepted env K s qc := ⟨h, by rw [hver, hok]⟩
    refine Leads.bind ((hotStuff_updatePreferredView_leads hacc).carry
      (fun _ _ hc ht => Accepted.mono ht hc.later) fun t ht => ⟨ht, ht ▸ hacc⟩) fun r => ?_
    -- whatever is left to do keeps the lock
    have hkeep : ∀ m : Exec Unit,
        Leads (Clerical env .hotStuff K) (fun t => Accepted env K t qc) m (fun _ _ => True) →
        Leads (Clerical env .hotStuff K) (fun t => LockedBy s.bc qc t ∧ Accepted env K t qc) m
          fun _ t => quorumIsVerified env s.toCore qc = .ok true → LockedBy s.bc qc t := by
      intro m hm
      exact (hm.carry (fun _ _ hc ht => LockedBy.mono ht hc.later) fun t ht => ⟨ht.2, ht.1⟩).post
        fun _ _ ht _ => ht.2
    cases r with
    | error e => exact hkeep _ (bufferQC_leads fun t ht => ht.1)
    | ok u =>
      apply hkeep
      exact Leads.bind ((updateHighQC_leads qc fun t ht => Or.inl ht).keep
        fun _ _ hc ht => ht.mono hc.later) fun _ => hotStuff_checkCommit_leads qc
  · refine Leads.pure fun t _ htrue => ?_
    rw [hver] at htrue
    cases htrue
    exact absurd rfl hno

/-- The two-chain protocols follow an accepted certificate, or buffer it if the lock
cannot be raised. -/
theorem followQC_leads {s₀ : Replica} {qc : QC} {update : Exec (Except Err Unit)}
    {rest : Except Err Unit → Exec Unit} (hacc : Accepted env K s₀ qc)
    (hupdate : Leads (Clerical env alg K) (fun s => s = s₀) update fun _ _ => True)
    (herror : ∀ e, rest (.error e) = modify fun s => s.bufferQC qc)
    (hok : rest (.ok ()) = updateHighQC qc) :
    Leads (Clerical env alg K) (fun s => s = s₀) (update >>= rest) fun _ _ => True := by
  refine Leads.bind (hupdate.carry (fun _ _ hc ht => Accepted.mono ht hc.later)
    fun t ht => ⟨ht, ht ▸ hacc⟩) fun r => ?_
  cases r with
  | error e =>
    rw [herror]
    exact bufferQC_leads fun t ht => ht.2.1
  | ok u =>
    rw [hok]
    exact (updateHighQC_leads qc fun t ht => Or.inl ht.2).post fun _ _ _ => trivial

theorem tchs_processCertificate_leads (qc : QC) :
    Leads (Clerical env .tchs K) (fun s => Held K s qc) (Tchs.processCertificate env qc)
      fun _ _ => True := by
  unfold Tchs.processCertificate
  refine Leads.get_bind fun s hs => ?_
  refine Leads.bind (leads_call _) fun verified => Leads.assume fun hver => ?_
  refine Leads.ite (fun hok => ?_) fun _ => Leads.done
  have hacc : Accepted env K s qc := ⟨hs, by rw [hver, hok]⟩
  exact followQC_leads hacc (tchs_updatePreferredView_leads hacc) (fun _ => rfl) rfl

theorem fhs_processCertificate_leads (qc : QC) :
    Leads (Clerical env .fhs K) (fun s => Held K s qc) (Fhs.processCertificate env qc)
      fun _ _ => True := by
  unfold Fhs.processCertificate
  refine Leads.bind leads_getCurView fun curView => ?_
  refine Leads.ite (fun _ => Leads.done) fun _ => ?_
  refine Leads.get_bind fun s hs => ?_
  refine Leads.bind (leads_call _) fun verified => Leads.assume fun hver => ?_
  refine Leads.ite (fun hok => ?_) fun _ => Leads.done
  have hacc : Accepted env K s qc := ⟨hs.1, by rw [hver, hok]⟩
  exact followQC_leads hacc (fhs_updatePreferredView_leads hacc) (fun _ => rfl) rfl

/-! ## The rules of the three protocols -/

/-- The message is kept, and the view is started if none has been. -/
theorem keepVmo_leads {R : Replica → Replica → Prop} (vmo : VMO) {s₀ : Replica}
    (hstart : ∀ s, R s { s with pm := s.pm.advanceView 0 })
    (hkeep : ∀ p, R { s₀ with pm := p } { s₀ with
      pm := p, recivedVMO := s₀.recivedVMO.insert (vmo.view - 1) vmo }) :
    Leads R (fun s => s = s₀) ((Safety.rules env alg).keepVmo vmo) fun _ s => s = { s₀ with
      pm := s₀.pm.start, recivedVMO := s₀.recivedVMO.insert (vmo.view - 1) vmo } := by
  have hafter : ∀ p, Leads R (fun s => s = { s₀ with pm := p }) (HotStuff.keepVmo vmo)
      fun _ s => s = { s₀ with
        pm := p.start, recivedVMO := s₀.recivedVMO.insert (vmo.view - 1) vmo } :=
    fun p => Leads.bind (Leads.of_modify_at (hkeep p)) fun _ => startView_leads (hstart _)
  have htwice : Leads R (fun s => s = s₀) (TwoChain.keepVmo vmo) fun _ s => s = { s₀ with
      pm := s₀.pm.start, recivedVMO := s₀.recivedVMO.insert (vmo.view - 1) vmo } := by
    refine Leads.bind (startView_leads (hstart s₀)) fun _ => (hafter s₀.pm.start).post ?_
    intro _ s hs
    rwa [Pacemaker.start_start] at hs
  cases alg with
  | hotStuff => exact hafter s₀.pm
  | tchs => exact htwice
  | fhs => exact htwice

theorem rules_lead (env : Env) (alg : Algorithm) (K : Known) :
    RulesLead env alg K (Safety.rules env alg) where
  keepVmo vmo s₀ hr := keepVmo_leads vmo .start fun p => .keepVmo { s₀ with pm := p } vmo hr
  processCertificate qc := by
    cases alg with
    | hotStuff =>
      exact Leads.start fun s hs => (hotStuff_processCertificate_leads hs).post fun _ _ _ => trivial
    | tchs => exact tchs_processCertificate_leads qc
    | fhs => exact fhs_processCertificate_leads qc
  announced qc R s₀ := by
    cases alg with
    | hotStuff => exact leads_getCurView.post fun _ s hs => ⟨hs.1, hs.1 ▸ hs.2⟩
    | tchs => exact leads_getCurView.post fun _ s hs => ⟨hs.1, hs.1 ▸ hs.2⟩
    | fhs => exact Leads.pure fun s hs => ⟨hs, rfl⟩

/-! ## HotStuff -/

/-- HotStuff processes the certificate of a foreign block, and locks on it, in
the state in which the block was taken up. -/
theorem hotStuff_processBlockQC_locks {s₀ : Replica} {block : Block} {qc : QC}
    (hk : K.block block) (hqc : block.qc = some qc) :
    Leads (Clerical env .hotStuff K) (TakenUp env .hotStuff K block s₀)
      (processBlockQC (HotStuff.rules env) block qc) fun _ s =>
        block.proposer ≠ s₀.id → quorumIsVerified env s₀.toCore qc = .ok true →
          LockedBy s₀.bc qc s := by
  unfold processBlockQC
  have hraise : Leads (Clerical env .hotStuff K) (TakenUp env .hotStuff K block s₀)
      (updateHighQC qc) fun _ s => s = (s₀.record (.handle s₀.toCore block)).raiseHighQC qc := by
    refine Leads.of_modify fun s hs => ⟨?_, by rw [hs.state]⟩
    exact .raise s qc (Or.inr ⟨s₀.toCore, block, hs.pending.hand, hk, hqc⟩)
  refine Leads.bind hraise fun _ => Leads.get_bind fun s hs => ?_
  subst hs
  refine Leads.ite (fun _ => ?_) fun hown => Leads.pure fun _ _ hne => absurd hne hown
  exact (hotStuff_processCertificate_leads (Or.inl (K.qc_of_block _ _ hk hqc))).post
    fun _ _ ht _ hver => ht hver

/-- An examined block that HotStuff has processed the certificate of, unless it
is this replica's own. -/
structure HotStuff.Examined (env : Env) (K : Known) (core : Core) (block : Block) (qc : QC)
    (s : Replica) : Prop extends Bamboo.Examined env .hotStuff K core block qc s where
  locked : block.proposer ≠ core.id → quorumIsVerified env core qc = .ok true →
    LockedBy core.bc qc s

section HotStuff

variable {core : Core} {block : Block} {qc : QC} {s s' : Replica}

theorem Quiet.hotStuff_examined {view : View} (h : Quiet env .hotStuff K view s s')
    (hs : HotStuff.Examined env K core block qc s) : HotStuff.Examined env K core block qc s' :=
  ⟨h.examined hs.toExamined, fun hne hver => (hs.locked hne hver).mono h.act.later⟩

theorem HotStuff.Examined.voteGuard (h : HotStuff.Examined env K core block qc s)
    (hqc : block.qc = some qc)
    (hleader : env.election.isLeader block.proposer block.view = true)
    (hrule : HotStuff.votingRule s.toCore block = .ok (.ok true)) :
    VoteGuard env .hotStuff core s block qc where
  hand := h.hand
  certificate := hqc
  highQC := h.highQC
  lock := h.lock
  stored := h.stored
  leader := hleader
  rule := ⟨hrule, fun hne hver => h.locked (by rw [h.id]; exact hne) hver⟩

end HotStuff

/-! ## Two-chain HotStuff and Fast-HotStuff -/

theorem twoChain_checkCommit_leads {core : Core} {block : Block} {qc : QC} {P : Replica → Prop}
    (hP : ∀ s, P s → inHand s.trace = some (core, block)) (hqc : block.qc = some qc)
    (halg : alg ≠ .hotStuff) :
    Leads (Clerical env alg K) P (TwoChain.checkCommit block qc) fun _ _ => True := by
  unfold TwoChain.checkCommit
  refine Leads.ite (fun hview => ?_) fun _ => Leads.done
  refine Leads.get_bind fun s hs => ?_
  refine Leads.bind (leads_call _) fun r => Leads.assume fun hr => ?_
  rcases r with e | _ | head
  · exact Leads.done
  · exact Leads.done
  · refine Leads.bind (commit_clerical fun t ht => ?_) fun r => ?_
    · subst ht
      cases alg with
      | hotStuff => exact absurd rfl halg
      | tchs => exact ⟨core, block, hP t hs, hqc, hview.1, hview.2, hr⟩
      | fhs => exact ⟨core, block, hP t hs, hqc, hview.1, hview.2, hr⟩
    · cases r with
      | error e => exact Leads.done
      | ok u => exact Leads.done

/-- Fast-HotStuff stores the block right after taking it up. -/
theorem addBlock_takenUp {s₀ : Replica} {block : Block} :
    Leads (Clerical env .fhs K) (TakenUp env .fhs K block s₀) (addBlock block) fun _ s =>
      Pending env .fhs K s₀.toCore block s ∧
        ∃ bc, s₀.bc.addBlock block = .ok bc ∧ s.toCore = { s₀.toCore with bc := bc } := by
  refine Leads.start fun s hs => ?_
  have hstore : ∀ bc, s.bc.addBlock block = .ok bc →
      Clerical env .fhs K s { s with bc := bc } := fun bc hbc =>
    .store s s₀.toCore block bc hs.pending.hand hs.pending.passed (fun h => absurd rfl h) hbc
  refine (addBlock_leads hstore).post fun _ t ht => ?_
  obtain ⟨bc, hbc, rfl⟩ := ht
  refine ⟨((hstore bc hbc).quiet block.view).pending hs.pending, bc, ?_⟩
  rw [hs.state] at hbc ⊢
  exact ⟨hbc, rfl⟩

/-! ## Blocks -/

section Blocks

variable {fuel : ℕ} {block : Block} {I J P : Replica → Prop} (hk : K.block block)
include hk

/-- `ProcessBlock` of HotStuff, given how it takes up the block and how it ends. In
between `I` holds. -/
theorem hotStuff_processBlock_minds (hS : ∀ s, I s → Steady env .hotStuff K s)
    (hI : ∀ s s', Quiet env .hotStuff K block.view s s' → I s → I s') (hdrop : ∀ s, I s → J s)
    (htake : Leads (Change env .hotStuff K) P (takeUp env (HotStuff.processBlock env fuel) block)
      fun ok s => if ok then I s ∧ ∃ s₀, TakenUp env .hotStuff K block s₀ s else J s)
    (hend : Leads (Change env .hotStuff K)
      (fun s => I s ∧ ∃ core qc, VoteGuard env .hotStuff core s block qc)
      (castVote env (HotStuff.rules env) (HotStuff.processBlock env fuel) fuel block >>= fun _ =>
        HotStuff.takeUpNext (HotStuff.processBlock env fuel) block.view) fun _ => J) :
    Leads (Change env .hotStuff K) P (HotStuff.processBlock env (fuel + 1) block) fun _ => J := by
  have hr := rules_lead env .hotStuff K
  have hC : ∀ t t', Clerical env .hotStuff K t t' → I t → I t' :=
    fun t t' hc => hI t t' (hc.quiet _)
  unfold HotStuff.processBlock
  refine Leads.bind htake fun ok => Leads.ite (fun hok => ?_) fun hno => ?_
  · simp only [if_pos hok]
    refine Leads.start fun s₁ hs₁ => ?_
    obtain ⟨hkept, s, hs⟩ := hs₁
    cases hqc : block.qc with
    | none => exact Leads.pure fun _ ht => ht ▸ hdrop _ hkept
    | some qc =>
      have hkeep : ∀ t t', Quiet env .hotStuff K block.view t t' →
          I t ∧ HotStuff.Examined env K s.toCore block qc t →
          I t' ∧ HotStuff.Examined env K s.toCore block qc t' :=
        fun t t' hq ht => ⟨hI t t' hq ht.1, hq.hotStuff_examined ht.2⟩
      have hexam : Leads (Clerical env .hotStuff K) (TakenUp env .hotStuff K block s)
          (processBlockQC (HotStuff.rules env) block qc)
          fun _ => HotStuff.Examined env K s.toCore block qc :=
        (((processBlockQC_clerical hr hk hqc).pre fun _ ht => ht.pending).and
          (hotStuff_processBlockQC_locks hk hqc)).post fun _ _ ht => ⟨ht.1, ht.2⟩
      refine Leads.bind ((Minds.clerical hC hexam).at_start ⟨hkept, hs⟩) fun _ => ?_
      refine Leads.ite (fun _ => Leads.pure fun _ ht => hdrop _ ht.1) fun hleader => ?_
      rw [Bool.not_eq_false] at hleader
      refine Leads.bind (Minds.keep (fun _ _ hc => hkeep _ _ (hc.quiet _))
        (addBlock_clerical (fun t ht => ht.2.toPending) fun _ => hleader)) fun _ => ?_
      refine Leads.bind (processBufferedQC_minds (fun t ht => hS t ht.1) hr fuel hkeep
        fun t ht => ht.2.taken) fun _ => ?_
      refine Leads.get_bind fun t ht => Leads.bind (leads_call _) fun r => ?_
      refine Leads.assume fun hrule => ?_
      rcases r with e | _ | _
      · exact Leads.pure fun u hu => hu ▸ hdrop _ ht.1
      · exact Leads.pure fun u hu => hu ▸ hdrop _ ht.1
      · exact hend.at_start ⟨ht.1, _, _, ht.2.voteGuard hqc hleader hrule⟩
  · simp only [if_neg hno]
    exact Leads.pure fun _ hs => hs

theorem tchs_processBlock_minds (hS : ∀ s, I s → Steady env .tchs K s)
    (hI : ∀ s s', Quiet env .tchs K block.view s s' → I s → I s') (hdrop : ∀ s, I s → J s)
    (htake : Leads (Change env .tchs K) P (takeUp env (Tchs.processBlock env fuel) block)
      fun ok s => if ok then I s ∧ ∃ s₀, TakenUp env .tchs K block s₀ s else J s)
    (hend : Leads (Change env .tchs K)
      (fun s => I s ∧ ∃ core qc, VoteGuard env .tchs core s block qc)
      (castVote env (Tchs.rules env) (Tchs.processBlock env fuel) fuel block >>= fun _ =>
        TwoChain.takeUpNext (Tchs.processBlock env fuel) block.view) fun _ => J) :
    Leads (Change env .tchs K) P (Tchs.processBlock env (fuel + 1) block) fun _ => J := by
  have hr := rules_lead env .tchs K
  have hC : ∀ t t', Clerical env .tchs K t t' → I t → I t' := fun t t' hc => hI t t' (hc.quiet _)
  unfold Tchs.processBlock
  refine Leads.bind htake fun ok => Leads.ite (fun hok => ?_) fun hno => ?_
  · simp only [if_pos hok]
    refine Leads.start fun s₁ hs₁ => ?_
    obtain ⟨hkept, s, hs⟩ := hs₁
    cases hqc : block.qc with
    | none => exact Leads.pure fun _ ht => ht ▸ hdrop _ hkept
    | some qc =>
      have hkeep : ∀ t t', Quiet env .tchs K block.view t t' →
          I t ∧ Examined env .tchs K s.toCore block qc t →
          I t' ∧ Examined env .tchs K s.toCore block qc t' :=
        fun t t' hq ht => ⟨hI t t' hq ht.1, hq.examined ht.2⟩
      refine Leads.bind ((Minds.clerical hC (processBlockQC_clerical hr hk hqc)).at_start
        ⟨hkept, hs.pending⟩) fun _ => ?_
      refine Leads.ite (fun _ => Leads.pure fun _ ht => hdrop _ ht.1) fun hleader => ?_
      rw [Bool.not_eq_false] at hleader
      refine Leads.bind (Minds.keep (fun _ _ hc => hkeep _ _ (hc.quiet _))
        (addBlock_clerical (fun t ht => ht.2.toPending) fun _ => hleader)) fun _ => ?_
      refine Leads.bind (Minds.keep (fun _ _ hc => hkeep _ _ (hc.quiet _))
        (twoChain_checkCommit_leads (fun t ht => ht.2.hand) hqc (by decide))) fun failed => ?_
      cases failed with
      | some e => exact Leads.pure fun _ ht => hdrop _ ht.1
      | none =>
        refine Leads.bind (processBufferedQC_minds (fun t ht => hS t ht.1) hr fuel hkeep
          fun t ht => ht.2.taken) fun _ => ?_
        refine Leads.get_bind fun t ht => Leads.bind (leads_call _) fun r => ?_
        refine Leads.assume fun _ => ?_
        rcases r with e | _ | _
        · exact Leads.pure fun u hu => hu ▸ hdrop _ ht.1
        · exact Leads.pure fun u hu => hu ▸ hdrop _ ht.1
        · exact hend.at_start ⟨ht.1, _, _, ht.2.hand, hqc, ht.2.highQC, ht.2.lock, ht.2.stored,
            hleader, trivial⟩
  · simp only [if_neg hno]
    exact Leads.pure fun _ hs => hs

theorem fhs_processBlock_minds (hS : ∀ s, I s → Steady env .fhs K s)
    (hI : ∀ s s', Quiet env .fhs K block.view s s' → I s → I s') (hdrop : ∀ s, I s → J s)
    (htake : Leads (Change env .fhs K) P (takeUp env (Fhs.processBlock env fuel) block)
      fun ok s => if ok then I s ∧ ∃ s₀, TakenUp env .fhs K block s₀ s else J s)
    (hend : Leads (Change env .fhs K)
      (fun s => I s ∧ ∃ core qc, VoteGuard env .fhs core s block qc)
      (castVote env (Fhs.rules env) (Fhs.processBlock env fuel) fuel block >>= fun _ =>
        TwoChain.takeUpNext (Fhs.processBlock env fuel) block.view) fun _ => J) :
    Leads (Change env .fhs K) P (Fhs.processBlock env (fuel + 1) block) fun _ => J := by
  have hr := rules_lead env .fhs K
  have hC : ∀ t t', Clerical env .fhs K t t' → I t → I t' := fun t t' hc => hI t t' (hc.quiet _)
  unfold Fhs.processBlock
  refine Leads.bind htake fun ok => Leads.ite (fun hok => ?_) fun hno => ?_
  · simp only [if_pos hok]
    refine Leads.start fun s₁ hs₁ => ?_
    obtain ⟨hkept, s, hs⟩ := hs₁
    refine Leads.bind ((Minds.clerical hC addBlock_takenUp).at_start ⟨hkept, hs⟩) fun _ => ?_
    refine Leads.get_bind fun t ht => Leads.bind (leads_call _) fun r => ?_
    refine Leads.assume fun hrule => ?_
    obtain ⟨hkept, hpending, bc, hbc, hcore⟩ := ht
    rcases r with e | _ | _
    · exact Leads.ite (fun _ => Leads.throw) fun _ => Leads.pure fun _ hu => hu ▸ hdrop _ hkept
    · exact Leads.pure fun _ hu => hu ▸ hdrop _ hkept
    cases hqc : block.qc with
    | none => exact Leads.pure fun _ hu => hu ▸ hdrop _ hkept
    | some qc =>
      have hkeep : ∀ t t', Quiet env .fhs K block.view t t' →
          I t ∧ Examined env .fhs K s.toCore block qc t →
          I t' ∧ Examined env .fhs K s.toCore block qc t' :=
        fun t t' hq ht => ⟨hI t t' hq ht.1, hq.examined ht.2⟩
      refine Leads.bind ((Minds.clerical hC (processBlockQC_clerical hr hk hqc)).at_start
        ⟨hkept, hpending⟩) fun _ => ?_
      refine Leads.ite (fun _ => Leads.pure fun _ hu => hdrop _ hu.1) fun hleader => ?_
      rw [Bool.not_eq_false] at hleader
      refine Leads.bind (Minds.keep (fun _ _ hc => hkeep _ _ (hc.quiet _))
        (twoChain_checkCommit_leads (fun u hu => hu.2.hand) hqc (by decide))) fun failed => ?_
      cases failed with
      | some e => exact Leads.pure fun _ hu => hdrop _ hu.1
      | none =>
        refine Leads.bind (processBufferedQC_minds (fun u hu => hS u hu.1) hr fuel hkeep
          fun u hu => hu.2.taken) fun _ => hend.pre fun u hu => ?_
        refine ⟨hu.1, _, _, hu.2.hand, hqc, hu.2.highQC, hu.2.lock, hu.2.stored, hleader, bc, hbc,
          ?_⟩
        rw [← hcore]
        exact hrule
  · simp only [if_neg hno]
    exact Leads.pure fun _ hs => hs

end Blocks

def Safety.takeUpNext : Algorithm → (Block → Exec (Option Err)) → View → Exec (Option Err)
  | .hotStuff => HotStuff.takeUpNext
  | .tchs => TwoChain.takeUpNext
  | .fhs => TwoChain.takeUpNext

/-- `ProcessBlock` of any of the three. -/
theorem safety_processBlock_minds {fuel : ℕ} {block : Block} {I J P : Replica → Prop}
    (hk : K.block block) (hS : ∀ s, I s → Steady env alg K s)
    (hI : ∀ s s', Quiet env alg K block.view s s' → I s → I s') (hdrop : ∀ s, I s → J s)
    (htake : Leads (Change env alg K) P (takeUp env (Safety.processBlock env alg fuel) block)
      fun ok s => if ok then I s ∧ ∃ s₀, TakenUp env alg K block s₀ s else J s)
    (hend : Leads (Change env alg K) (fun s => I s ∧ ∃ core qc, VoteGuard env alg core s block qc)
      (castVote env (Safety.rules env alg) (Safety.processBlock env alg fuel) fuel block >>=
        fun _ => Safety.takeUpNext alg (Safety.processBlock env alg fuel) block.view) fun _ => J) :
    Leads (Change env alg K) P (Safety.processBlock env alg (fuel + 1) block) fun _ => J := by
  cases alg with
  | hotStuff => exact hotStuff_processBlock_minds hk hS hI hdrop htake hend
  | tchs => exact tchs_processBlock_minds hk hS hI hdrop htake hend
  | fhs => exact fhs_processBlock_minds hk hS hI hdrop htake hend

/-- A block above the current view is only buffered. -/
theorem processBlock_early {R : Replica → Replica → Prop} {s₀ : Replica} {b : Block} {fuel : ℕ}
    (h : s₀.pm.start.curView < b.view) (hstart : R s₀ { s₀ with pm := s₀.pm.advanceView 0 })
    (hbuffer : R { s₀ with pm := s₀.pm.start } { s₀ with
      pm := s₀.pm.start, bufferedBlocks := s₀.bufferedBlocks.insert (b.view - 1) b }) :
    Leads R (fun s => s = s₀) (Safety.processBlock env alg fuel b) fun _ s => s = { s₀ with
      pm := s₀.pm.start, bufferedBlocks := s₀.bufferedBlocks.insert (b.view - 1) b } := by
  have htake : ∀ pb : Block → Exec (Option Err), Leads R (fun s => s = s₀) (takeUp env pb b)
      fun ok s => ok = false ∧ s = { s₀ with
        pm := s₀.pm.start, bufferedBlocks := s₀.bufferedBlocks.insert (b.view - 1) b } := by
    intro pb
    refine Leads.bind (isBuffered_leads hstart (fun _ => hbuffer)
      fun hle => absurd h (Int64.not_lt.mpr hle)) fun buffered => ?_
    simp only [if_pos h]
    refine Leads.ite (fun _ => Leads.pure fun s hs => ⟨rfl, hs.2⟩) fun hno => ?_
    exact Leads.start fun s hs => absurd hs.1 hno
  have hskip : ∀ (pb : Block → Exec (Option Err)) (rest : Exec (Option Err)),
      Leads R (fun s => s = s₀) (takeUp env pb b >>= fun ok => if ok then rest else pure none)
        fun _ s => s = { s₀ with
          pm := s₀.pm.start, bufferedBlocks := s₀.bufferedBlocks.insert (b.view - 1) b } := by
    intro pb rest
    refine Leads.bind (htake pb) fun ok => Leads.ite (fun hok => ?_) fun _ => ?_
    · exact Leads.start fun s hs => absurd (hok.symm.trans hs.1) (by decide)
    · exact Leads.pure fun s hs => hs.2
  cases fuel with
  | zero => cases alg <;> exact Leads.throw
  | succ fuel => cases alg <;> exact hskip _ _

/-! ## What survives an unbuffered block too -/

section Closed

variable {J : Replica → Prop} (hS : ∀ s, J s → Steady env alg K s)
  (hJ : ∀ s s', Act env alg K s s' → J s → J s')
  (hU : ∀ s view, J s → J { s with bufferedBlocks := s.bufferedBlocks.erase view })

include hU in
theorem unbuffer_minds (view : View) :
    Minds env alg K J (modify fun s => { s with
      bufferedBlocks := s.bufferedBlocks.erase view } : Exec Unit) :=
  Leads.of_modify fun s hs => ⟨.unbuffer s view, hU s view hs⟩

section Nested

variable {processBlock : Block → Exec (Option Err)}
  (hb : ∀ b, K.block b → K.early b → Minds env alg K J (processBlock b))
include hS hb

include hU in
theorem takeUpBuffered_minds (view : View) :
    Minds env alg K J (takeUpBuffered processBlock view) := by
  unfold takeUpBuffered
  refine Leads.get_bind fun s hs => Leads.at_start (P := J) ?_ hs
  cases hl : s.bufferedBlocks.lookup (view - 1) with
  | none => exact Minds.done
  | some b =>
    obtain ⟨-, hblock, hearly⟩ := (hS s hs).blocks _ _ hl
    refine Leads.bind (unbuffer_minds hU _) fun _ => ?_
    exact Leads.bind (hb b hblock hearly) fun _ => Minds.done

include hU in
/-- HotStuff deletes the block that it has found. -/
theorem hotStuff_takeUpNext_minds (view : View) :
    Minds env alg K J (HotStuff.takeUpNext processBlock view) := by
  unfold HotStuff.takeUpNext
  refine Leads.get_bind fun s hs => Leads.at_start (P := J) ?_ hs
  cases hl : s.bufferedBlocks.lookup view with
  | none => exact Minds.done
  | some b =>
    obtain ⟨-, hblock, hearly⟩ := (hS s hs).blocks _ _ hl
    refine Leads.bind (hb b hblock hearly) fun _ => ?_
    exact Leads.bind (unbuffer_minds hU view) fun _ => Minds.done

theorem twoChain_takeUpNext_minds (view : View) :
    Minds env alg K J (TwoChain.takeUpNext processBlock view) := by
  unfold TwoChain.takeUpNext
  refine Leads.get_bind fun s hs => Leads.at_start (P := J) ?_ hs
  cases hl : s.bufferedBlocks.lookup view with
  | none => exact Minds.done
  | some b =>
    obtain ⟨-, hblock, hearly⟩ := (hS s hs).blocks _ _ hl
    exact hb b hblock hearly

include hU in
theorem takeUpNext_minds (view : View) :
    Minds env alg K J (Safety.takeUpNext alg processBlock view) := by
  cases alg with
  | hotStuff => exact hotStuff_takeUpNext_minds hS hU hb view
  | tchs => exact twoChain_takeUpNext_minds hS hb view
  | fhs => exact twoChain_takeUpNext_minds hS hb view

end Nested

include hS hJ hU

theorem castVote_guarded_minds {processBlock : Block → Exec (Option Err)}
    (hb : ∀ b, K.block b → K.early b → Minds env alg K J (processBlock b)) (fuel : ℕ)
    (block : Block) :
    Leads (Change env alg K) (fun s => J s ∧ ∃ core qc, VoteGuard env alg core s block qc)
      (castVote env (Safety.rules env alg) processBlock fuel block) fun _ => J := by
  refine castVote_minds hS hJ (fun view => (takeUpBuffered_minds hS hU hb view).pre
    fun s hs => hs.1) (rules_lead env alg K) fuel (fun s hs => hs.2) ?_
  rintro s v hmade ⟨hs, core, qc, hguard⟩
  exact hJ _ _ (.vote s core block qc v hguard hmade) hs

theorem processBlock_minds (fuel : ℕ) {block : Block} (hk : K.block block) :
    Leads (Change env alg K) (fun s => J s ∧ Acceptable K block s)
      (Safety.processBlock env alg fuel block) fun _ => J := by
  induction fuel generalizing block with
  | zero => cases alg <;> exact Leads.throw
  | succ fuel ih =>
    have hb : ∀ b, K.block b → K.early b → Minds env alg K J (Safety.processBlock env alg fuel b) :=
      fun b hblock hearly => (ih hblock).pre fun s hs => ⟨hs, Or.inl hearly⟩
    have hbuf : ∀ view, Leads (Change env alg K) (fun s => J s ∧ view ≤ s.pm.curView)
        (takeUpBuffered (Safety.processBlock env alg fuel) view) fun _ => J :=
      fun view => (takeUpBuffered_minds hS hU hb view).pre fun s hs => hs.1
    refine safety_processBlock_minds hk hS (fun s s' hq => hJ s s' hq.act) (fun _ hs => hs)
      (Leads.start fun s hs => ?_) (Leads.bind (castVote_guarded_minds hS hJ hU hb fuel block)
        fun _ => takeUpNext_minds hS hU hb block.view)
    exact (takeUp_minds hS hJ hbuf hk hs.1 hs.2).post fun ok _ ht => ht.1

theorem takeUpBuffered_processBlock_minds (fuel : ℕ) (view : View) :
    Leads (Change env alg K) (fun s => J s ∧ view ≤ s.pm.curView)
      (takeUpBuffered (Safety.processBlock env alg fuel) view) fun _ => J := by
  refine (takeUpBuffered_minds hS hU (fun b hk hearly => ?_) view).pre fun s hs => hs.1
  exact (processBlock_minds hS hJ hU fuel hk).pre fun s hs => ⟨hs, Or.inl hearly⟩

end Closed

/-! ## Timeouts -/

/-- Whatever the protocol does with its certificate, a timeout is counted. -/
theorem processRemoteTmo_leads {s₀ : Replica} {tmo : TMO} (hr : Received K.msg s₀ (.tmo tmo))
    (hq : ∀ q, tmo.highQC = some q → Held K s₀ q) :
    Leads (Act env alg K) (fun s => s = s₀) (Safety.processRemoteTmo env alg tmo) fun _ s =>
      Apart { s₀ with pm := s₀.pm.countTmo tmo } s := by
  have hcount : ∀ t, Apart s₀ t → Leads (Act env alg K) (fun s => s = t) (countTmo tmo) fun _ s =>
      Apart { s₀ with pm := s₀.pm.countTmo tmo } s := by
    intro t ht
    refine Leads.of_run (fun s _ => countTmo_run tmo s) fun s hs => ?_
    subst hs
    exact ⟨.countTmo s tmo (hr.imp_right fun hm => ht.outbox ▸ hm), ht.id, by simp [ht.pm],
      ht.recivedVMO, ht.recivedBlock, ht.bufferedBlocks, ht.outbox, ht.entered, ht.trace⟩
  cases alg with
  | hotStuff =>
    change Leads _ _ (HotStuff.processRemoteTmo env tmo) _
    unfold HotStuff.processRemoteTmo
    cases hqc : tmo.highQC with
    | none => exact Leads.throw
    | some qc =>
      have hcert : Leads (Clerical env .hotStuff K) (fun s => s = s₀)
          (HotStuff.processCertificate env qc) fun _ => Apart s₀ :=
        ((hotStuff_processCertificate_leads (hq qc hqc)).carry (fun _ _ hc hs => hs.trans hc.apart)
          fun s hs => ⟨hs, hs ▸ Apart.refl s⟩).post fun _ _ hs => hs.2
      exact Leads.bind (hcert.rel fun _ _ => .clerical) fun _ => Leads.start hcount
  | tchs =>
    refine Leads.bind leads_getCurView fun cur => Leads.ite (fun hlt => ?_) fun _ => ?_
    · refine Leads.pure fun s hs => ?_
      obtain ⟨rfl, rfl⟩ := hs
      have hsame : s.pm.countTmo tmo = s.pm := by
        simp [Pacemaker.countTmo, Pacemaker.processRemoteTmo, hlt]
      rw [hsame]
      exact .refl s
    · exact (hcount s₀ (.refl s₀)).pre fun s hs => hs.1
  | fhs => exact hcount s₀ (.refl s₀)

theorem processLocalTmo_leads {s₀ : Replica} (hs₀ : Held K s₀ s₀.highQC) (view : View) :
    Leads (Change env alg K) (fun s => s = s₀) (Safety.processLocalTmo env alg view) fun _ s =>
      Apart { s₀.push none (.tmo ⟨view, s₀.id, some s₀.highQC⟩) with
        pm := s₀.pm.countTmo ⟨view, s₀.id, some s₀.highQC⟩ } s := by
  unfold Safety.processLocalTmo
  refine Leads.get_bind fun s hs => ?_
  subst hs
  refine Leads.bind (Leads.of_modify_at (.broadcast s _ ⟨rfl, s.highQC, rfl, hs₀⟩)) fun _ => ?_
  refine (processRemoteTmo_leads (Or.inr (by simp [Replica.push])) fun q hq => ?_).rel
    fun _ _ => .act
  cases hq
  exact hs₀

/-! ## Proposals -/

theorem makeProposal_made {R : Replica → Replica → Prop} (view : View)
    (payload : List Transaction) {s₀ : Replica} :
    Leads R (fun s => s = s₀) (Safety.makeProposal env alg view payload)
      fun b s => s = s₀ ∧ b.view = view ∧ Made env s₀ b := by
  have hread : Leads R (fun s => s = s₀) (Safety.makeProposal env alg view payload)
      fun b s => s = s₀ ∧ ∃ mali forkNum height, makeBlock env view s₀.highQC s₀.highQC.blockID
        payload s₀.id mali forkNum height = .ok b := by
    cases alg <;>
      exact Leads.get_bind fun s hs => (leads_call _).post fun b t ht =>
        ⟨ht.1.trans hs, _, _, _, hs ▸ ht.2⟩
  refine hread.post fun b s hb => ⟨hb.1, ?_⟩
  obtain ⟨_, _, _, hmade⟩ := hb.2
  obtain ⟨hview, hqc, hprev, hprop, hid, hsig⟩ := makeBlock_ok hmade
  exact ⟨hview, hqc, hprev, hprop, hid, hsig⟩

section Proposals

variable {J : Replica → Prop}
  (hJ : ∀ s b, Act env alg K s (s.push none (.block b)) → J s → J (s.push none (.block b)))
  (hN : ∀ s s', Step env alg K s s' → s'.pm = s.pm → s'.outbox = s.outbox →
    s'.bufferedBlocks = s.bufferedBlocks → J s → J s')
include hJ hN

theorem proposeBlock_leads (view : View) (payload : List Transaction) {s₀ : Replica} (hs : J s₀)
    (hleader : env.election.isLeader s₀.id view = true) (hhonest : s₀.isByz = false) :
    Leads (Step env alg K) (fun s => s = s₀)
      (proposeBlock (Safety.makeProposal env alg) view payload) fun _ => J := by
  unfold proposeBlock
  refine Leads.bind (makeProposal_made view payload) fun b => Leads.start fun s hs' => ?_
  obtain ⟨rfl, rfl, hmade⟩ := hs'
  have hstep : Step env alg K s (s.record (.propose s.toCore b)) :=
    .propose s b ⟨hmade, hleader, hhonest⟩
  have hnext := hN _ _ hstep rfl rfl rfl hs
  have hsend : Act env alg K (s.record (.propose s.toCore b)) _ :=
    .send _ none (.block b) ⟨s.toCore, List.mem_cons_self⟩ fun _ => trivial
  refine Leads.bind (Leads.of_modify_at hstep) fun _ => ?_
  exact (Leads.of_modify_at (.change (.act hsend))).post fun _ _ ht => ht ▸ hJ _ _ hsend hnext

theorem processNewView_leads (payload : List Transaction) :
    Leads (Step env alg K) J (processNewView env (Safety.makeProposal env alg) payload)
      fun _ => J := by
  unfold processNewView
  refine Leads.get_bind fun s hs => ?_
  cases hview : s.pm.newViewChan[s.entered]? with
  | none => exact Leads.pure fun t ht => ht ▸ hs
  | some view =>
    have henter : Step env alg K s { s with entered := s.entered + 1 } := .enter s view hview
    have hs' := hN _ _ henter rfl rfl rfl hs
    refine Leads.bind (Leads.of_set henter) fun _ => ?_
    refine Leads.ite (fun hl => ?_) fun _ => Leads.pure fun t ht => ht ▸ hs'
    exact proposeBlock_leads hJ hN view payload hs' hl.1 hl.2

end Proposals

/-! ## Inputs -/

theorem handleTxn_minds {J : Replica → Prop} (hJ : ∀ s s', Act env alg K s s' → J s → J s') :
    Minds env alg K J (handleTxn env) := by
  refine Leads.get_bind fun s hs => Leads.ite (fun _ => ?_) fun _ => Leads.pure fun t ht => ht ▸ hs
  exact (Leads.of_modify_at (.act (.start s))).post fun _ _ ht => ht ▸ hJ _ _ (.start s) hs

/-- Of the inputs other than new-view events, a delivered block and a timeout are
asked about. -/
theorem handleInput_minds {J P : Replica → Prop} (hS : ∀ s, J s → Steady env alg K s)
    (hJ : ∀ s s', Act env alg K s s' → J s → J s') {fuel : ℕ} {i : Input} (h : Supplied K i)
    (hi : ∀ payload, i ≠ .newView payload)
    (hbuf : ∀ view, Leads (Change env alg K) (fun s => J s ∧ view ≤ s.pm.curView)
      (takeUpBuffered (Safety.processBlock env alg fuel) view) fun _ => J)
    (hP : ∀ s, P s → J s)
    (hblock : ∀ b, i = .deliver (.block b) →
      Leads (Change env alg K) P (Safety.processBlock env alg fuel b) fun _ => J)
    (htimeout : ∀ view, Minds env alg K J (Safety.processLocalTmo env alg view)) :
    Leads (Change env alg K) P (handleInput env alg fuel i) fun _ => J := by
  have hr := rules_lead env alg K
  cases i with
  | deliver m =>
    cases m with
    | block b => exact Leads.bind (hblock b rfl) fun _ => Minds.done
    | vote v =>
      exact (processVote_minds hS hJ hbuf hr fuel v).pre fun s hs => ⟨hP s hs, Or.inl h⟩
    | tmo t =>
      refine Leads.start fun s hs => ?_
      have htmo : Leads (Act env alg K) (fun t => t = s) (Safety.processRemoteTmo env alg t) _ :=
        processRemoteTmo_leads (Or.inl h) fun q hq => Or.inl (K.qc_of_tmo t q h hq)
      exact (Minds.act_at hJ (hP s hs) htmo).post fun _ _ ht => ht.1
    | vmo v =>
      exact (processRemoteVmo_minds hS hJ hbuf hr fuel v).pre fun s hs => ⟨hP s hs, Or.inl h⟩
  | txn => exact (handleTxn_minds hJ).pre hP
  | timeout =>
    refine Leads.bind (leads_getCurView.pre hP) fun view => ?_
    exact (htimeout view).pre fun s hs => hs.1
  | newView payload => exact absurd rfl (hi payload)

theorem handleInput_changes {fuel : ℕ} {i : Input} (h : Supplied K i)
    (hi : ∀ payload, i ≠ .newView payload) :
    Leads (Change env alg K)
      (fun s => Steady env alg K s ∧ ∀ b, i = .deliver (.block b) → Acceptable K b s)
      (handleInput env alg fuel i) fun _ => Steady env alg K := by
  refine handleInput_minds (fun _ hs => hs) Steady.act h hi
    (takeUpBuffered_processBlock_minds (fun _ hs => hs) Steady.act Steady.unbuffer fuel)
    (fun _ hs => hs.1) (fun b hb => ?_) fun view => Leads.start fun s hs => ?_
  · subst hb
    exact (processBlock_minds (fun _ hs => hs) Steady.act Steady.unbuffer fuel h).pre
      fun s hs => ⟨hs.1, hs.2 b rfl⟩
  · exact ((processLocalTmo_leads hs.highQC view).carry (fun _ _ hm => hm.steady)
      fun t ht => ⟨ht, ht ▸ hs⟩).post fun _ _ ht => ht.2

theorem handleInput_steps {fuel : ℕ} {i : Input} (h : Supplied K i) :
    Leads (Step env alg K)
      (fun s => Steady env alg K s ∧ ∀ b, i = .deliver (.block b) → Acceptable K b s)
      (handleInput env alg fuel i) fun _ => Steady env alg K := by
  cases i with
  | newView payload =>
    exact (processNewView_leads (fun _ _ ha hs => ha.steady hs) (fun _ _ hs _ _ _ => hs.steady)
      payload).pre fun _ hs => hs.1
  | _ => exact (handleInput_changes h (by simp)).rel fun _ _ => .change

/-! ## Runs -/

/-- The event loop adds only the crash to what the handlers do. -/
theorem Replica.step_chain {R : Replica → Replica → Prop} {P : Replica → Prop} {s : Replica}
    {i : Input × ℕ} {Q : Unit → Replica → Prop}
    (hcrash : ∀ s : Replica, R s { s with crashed := true })
    (h : Leads R P (handleInput env alg i.2 i.1) Q) (hs : P s) :
    ReflTransGen R s (s.step env alg i) := by
  have hm := h.reaches hs
  unfold final at hm
  unfold Replica.step
  split_ifs
  · exact .refl
  · cases hres : handleInput env alg i.2 i.1 s with
    | ok a t => rw [hres] at hm; exact hm
    | error f t => rw [hres] at hm; exact hm.tail (hcrash t)

/-- One turn of the event loop is a chain of transitions. -/
theorem Replica.step_steps {s : Replica} (hs : Steady env alg K s) {i : Input × ℕ}
    (h : Supplied K i.1) (hblock : ∀ b, i.1 = .deliver (.block b) → Acceptable K b s) :
    ReflTransGen (Step env alg K) s (s.step env alg i) :=
  Replica.step_chain .crash (handleInput_steps h) ⟨hs, hblock⟩

/-- The turn is over, and nothing has been proposed. -/
theorem Replica.step_idle {s : Replica} (hs : Steady env alg Known.anything s) {i : Input × ℕ}
    (h : ∀ payload, i.1 ≠ .newView payload) : Idle s (s.step env alg i) := by
  have hchain : ReflTransGen Idle s (s.step env alg i) :=
    Replica.step_chain (fun _ => ⟨rfl, rfl⟩) ((handleInput_changes (.anything i.1) h).rel
      fun _ _ => Change.idle) ⟨hs, fun _ _ => Or.inl trivial⟩
  exact invariant (J := Idle s) (fun _ _ hstep ih => ih.trans hstep) hchain (.refl s)

section Open

variable {s : Replica} (hopen : ∀ b, K.early b) (hs : Steady env alg K s)
include hopen hs

theorem Replica.step_reaches {i : Input × ℕ} (h : Supplied K i.1) :
    ReflTransGen (Step env alg K) s (s.step env alg i) :=
  Replica.step_steps hs h fun b _ => Or.inl (hopen b)

/-- A whole run is a chain of transitions. -/
theorem Replica.run_reaches {inputs : List (Input × ℕ)} (h : ∀ i ∈ inputs, Supplied K i.1) :
    ReflTransGen (Step env alg K) s (s.run env alg inputs) := by
  induction inputs generalizing s with
  | nil => exact .refl
  | cons i inputs ih =>
    have hstep := Replica.step_reaches hopen hs (h i List.mem_cons_self)
    exact hstep.trans (ih (Steps.steady hstep hs) fun j hj => h j (List.mem_cons_of_mem i hj))

end Open

end Protocols

end Bamboo
