import Bamboo.Steady

/-!
# The shared handlers make transitions only

Each handler that the protocols share is taken apart here, once, into the transitions
of `Transition`. What a handler does that does not call `ProcessBlock` is said in full,
for any relation that has the steps it makes. The others call one another in a circle,
and are shown to keep any `J` that the acts keep. That `J` survives taking a block out
of the buffer is asked of `takeUpBuffered` and of the end of `ProcessBlock`, the two
places where the code does so.
-/
namespace Bamboo

open Relation Stepwise

/-! ## Handlers that do not call back -/

section Leaves

variable {α : Type} {R : Replica → Replica → Prop} {P : Replica → Prop} {env : Env}
  {s₀ : Replica}

theorem leads_call (e : Except Fault α) : Leads R P (call e) fun a s => P s ∧ e = .ok a := by
  cases e with
  | ok a => exact Leads.pure fun s hs => ⟨hs, rfl⟩
  | error f => exact Leads.throw

theorem leads_getCurView : Leads R P getCurView fun v s => P s ∧ v = s.pm.curView :=
  Leads.get_bind fun s₀ h₀ => Leads.pure fun s hs => by subst hs; exact ⟨h₀, rfl⟩

/-- The signature check changes nothing. -/
theorem checkSignature_same {block : Block} : Leads R P (checkSignature env block) fun _ => P :=
  Leads.get_bind fun _ hs => Leads.at_start (Leads.ite
    (fun _ => Leads.bind ((leads_call _).post fun _ _ ht => ht.1) fun _ =>
      Leads.pure fun _ ht => ht)
    fun _ => Leads.pure fun _ ht => ht) hs

theorem startView_leads (h : R s₀ { s₀ with pm := s₀.pm.advanceView 0 }) :
    Leads R (fun s => s = s₀) startView fun _ s => s = { s₀ with pm := s₀.pm.start } := by
  refine Leads.bind leads_getCurView fun view => Leads.ite (fun hlt => ?_) fun hge => ?_
  · refine Leads.of_modify fun s hs => ?_
    obtain ⟨rfl, rfl⟩ := hs
    exact ⟨h, by rw [Pacemaker.start, if_pos hlt]⟩
  · refine Leads.pure fun s hs => ?_
    obtain ⟨rfl, rfl⟩ := hs
    rw [Pacemaker.start, if_neg hge]

theorem run_get_bind (f : Replica → Exec α) (s : Replica) :
    ((get : Exec Replica) >>= f) s = f s s :=
  rfl

theorem countTmo_run (tmo : TMO) (s : Replica) :
    countTmo tmo s = .ok () { s with pm := s.pm.countTmo tmo } := by
  unfold countTmo Pacemaker.countTmo
  rw [run_get_bind]
  obtain ⟨tc, pm⟩ := s.pm.processRemoteTmo tmo
  cases tc with
  | none => rfl
  | some view =>
    change (if view < pm.curView then pure () else advanceView view : Exec Unit)
      { s with pm := pm } = .ok () { s with pm := pm.advanceView view }
    by_cases hlt : view < pm.curView
    · rw [if_pos hlt, Pacemaker.advanceView, if_pos hlt]
      rfl
    · rw [if_neg hlt]
      rfl

theorem postBack_leads {view : View} {vmo : VMO}
    (h : R s₀ (s₀.push (some (env.election.findLeaderFor (view + 1)))
      (.vmo { vmo with nodeID := s₀.id }))) :
    Leads R (fun s => s = s₀) (postBack env view vmo) fun _ s =>
      ∃ outbox, s = { s₀ with outbox := outbox } := by
  refine Leads.get_bind fun s hs => Leads.ite (fun _ => ?_) fun _ => ?_
  · subst hs
    exact (Leads.of_modify_at h).post fun _ t ht => ⟨_, ht⟩
  · exact Leads.pure fun t ht => ⟨s₀.outbox, ht.trans hs⟩

/-- Above the current view a block is buffered, else it is kept. -/
theorem isBuffered_leads {b : Block} (hstart : R s₀ { s₀ with pm := s₀.pm.advanceView 0 })
    (hbuffer : s₀.pm.start.curView < b.view → R { s₀ with pm := s₀.pm.start } { s₀ with
      pm := s₀.pm.start, bufferedBlocks := s₀.bufferedBlocks.insert (b.view - 1) b })
    (hkeep : b.view ≤ s₀.pm.start.curView → R { s₀ with pm := s₀.pm.start } { s₀ with
      pm := s₀.pm.start, recivedBlock := s₀.recivedBlock.insert (b.view - 1) b }) :
    Leads R (fun s => s = s₀) (isBuffered env b) fun buffered s =>
      if s₀.pm.start.curView < b.view then buffered = true ∧ s = { s₀ with
        pm := s₀.pm.start, bufferedBlocks := s₀.bufferedBlocks.insert (b.view - 1) b }
      else buffered = false ∧ s = { s₀ with
        pm := s₀.pm.start, recivedBlock := s₀.recivedBlock.insert (b.view - 1) b } := by
  unfold isBuffered
  refine Leads.bind (startView_leads hstart) fun _ => Leads.bind leads_getCurView fun curView => ?_
  refine Leads.bind checkSignature_same fun _ => Leads.start fun s hs => ?_
  obtain ⟨rfl, rfl⟩ := hs
  refine Leads.ite (fun hlt => ?_) fun hge => ?_
  · refine Leads.bind (Leads.of_modify_at (hbuffer hlt)) fun _ => Leads.pure fun s hs => ?_
    rw [if_pos hlt]
    exact ⟨rfl, hs⟩
  · refine Leads.bind (Leads.of_modify_at (hkeep (Int64.not_lt.mp hge))) fun _ =>
      Leads.pure fun s hs => ?_
    rw [if_neg hge]
    exact ⟨rfl, hs⟩

theorem addBlock_leads {b : Block}
    (h : ∀ bc, s₀.bc.addBlock b = .ok bc → R s₀ { s₀ with bc := bc }) :
    Leads R (fun s => s = s₀) (addBlock b) fun _ s =>
      ∃ bc, s₀.bc.addBlock b = .ok bc ∧ s = { s₀ with bc := bc } := by
  unfold addBlock
  refine Leads.get_bind fun s hs => ?_
  subst hs
  refine Leads.bind (leads_call _) fun bc => Leads.assume fun hbc => ?_
  exact (Leads.of_set (h bc hbc)).post fun _ t ht => ⟨bc, hbc, ht⟩

theorem commit_leads {qc : QC} {head : Block}
    (hdone : ∀ committed forked bc,
      s₀.bc.commitBlock head.id s₀.pm.curView = .ok (.ok (committed, forked), bc) →
      R s₀ ({ s₀ with
        bc := bc
        committedBlocks := s₀.committedBlocks ++ committed
        forkedBlocks := s₀.forkedBlocks ++ forked }.record (.commit s₀.toCore qc head committed)))
    (hfailed : ∀ e bc, s₀.bc.commitBlock head.id s₀.pm.curView = .ok (.error e, bc) →
      R s₀ { s₀ with bc := bc }) :
    Leads R (fun s => s = s₀) (commit qc head) fun _ _ => True := by
  unfold commit
  refine Leads.get_bind fun s hs => ?_
  subst hs
  refine Leads.bind (leads_call _) fun r => Leads.assume fun hc => ?_
  obtain ⟨res, bc⟩ := r
  cases res with
  | error e => exact Leads.bind (Leads.of_set (hfailed e bc hc)) fun _ => Leads.done
  | ok res =>
    obtain ⟨committed, forked⟩ := res
    exact Leads.bind (Leads.of_set (hdone committed forked bc hc)) fun _ => Leads.done

/-! ## Announcements counted by the next leader -/

section Leader

variable {rules : Rules} {processBlock : Block → Exec (Option Err)}

theorem processRemoteVmo_run {vmo : VMO} {s : Replica}
    (hleader : env.election.findLeaderFor (vmo.view + 1) = s.id) (fuel : ℕ) :
    processRemoteVmo env rules processBlock (fuel + 1) vmo s =
      .ok () { s with pm := s.pm.countVmo vmo } := by
  unfold processRemoteVmo Pacemaker.countVmo
  rw [run_get_bind, if_pos hleader]
  obtain ⟨vc, pm⟩ := s.pm.processRemoteVmo vmo
  cases vc <;> rfl

/-- Out of fuel, the message has been broadcast but not counted. -/
theorem processLocalVmo_leads {view : View} {fuel : ℕ}
    (hleader : env.election.findLeaderFor (view + 1) = s₀.id)
    (hbroadcast : R s₀ (s₀.push none (.vmo ⟨view, s₀.id, some s₀.highQC⟩)))
    (hannounce : R s₀ { s₀.push none (.vmo ⟨view, s₀.id, some s₀.highQC⟩) with
      pm := s₀.pm.countVmo ⟨view, s₀.id, some s₀.highQC⟩ }) :
    Leads R (fun s => s = s₀) (processLocalVmo env rules processBlock fuel view) fun _ s =>
      s = { s₀.push none (.vmo ⟨view, s₀.id, some s₀.highQC⟩) with
        pm := s₀.pm.countVmo ⟨view, s₀.id, some s₀.highQC⟩ } := by
  cases fuel with
  | zero =>
    refine Leads.get_bind fun s hs => ?_
    subst hs
    exact Leads.bind (Leads.of_modify_at hbroadcast) fun _ => Leads.throw
  | succ fuel =>
    refine Leads.of_run (f := fun s => { s.push none (.vmo ⟨view, s.id, some s.highQC⟩) with
      pm := s.pm.countVmo ⟨view, s.id, some s.highQC⟩ }) (fun s hs => ?_) fun s hs => ?_
    · subst hs
      exact processRemoteVmo_run (s := s.push none (.vmo ⟨view, s.id, some s.highQC⟩)) hleader fuel
    · subst hs
      exact ⟨hannounce, rfl⟩

end Leader

/-! ## Votes -/

/-- The certificate that a vote completes. -/
def Core.completed (env : Env) (s : Core) (v : Vote) : Option QC :=
  if s.isByz = false ∧
      (v.voter ≠ s.id → pubVerify env v.signature v.blockID v.voter = .ok true) then
    (s.bc.addVote env v).1.map fun q => { q with leader := s.id }
  else none

/-- A vote in this replica's own name is not verified; the stored blocks do not matter. -/
theorem countVote_leads {v : Vote}
    (htally : (v.voter ≠ s₀.id → Verifies env v.signature v.blockID v.voter) →
      ∀ bc, s₀.bc.addVote env v = (none, bc) → R s₀ { s₀ with bc := bc })
    (hbuild : (v.voter ≠ s₀.id → Verifies env v.signature v.blockID v.voter) →
      ∀ qc bc, s₀.bc.addVote env v = (some qc, bc) →
      R s₀ ({ s₀ with bc := bc }.record (.built s₀.toCore { qc with leader := s₀.id }))) :
    Leads R (fun s => s = s₀) (countVote env v) fun r s => r = s₀.toCore.completed env v ∧
      ∃ bc, bc.forrest = s₀.bc.forrest ∧ s = r.elim { s₀ with bc := bc } fun q =>
        { s₀ with bc := bc }.record (.built s₀.toCore q) := by
  have hnone : ∀ s : Replica, s = s₀ → s₀.toCore.completed env v = none →
      none = s₀.toCore.completed env v ∧ ∃ bc, bc.forrest = s₀.bc.forrest ∧
        s = (none : Option QC).elim { s₀ with bc := bc } fun q =>
          { s₀ with bc := bc }.record (.built s₀.toCore q) := by
    rintro s rfl h
    exact ⟨h.symm, s.bc, rfl, rfl⟩
  unfold countVote
  refine Leads.get_bind fun t ht => ?_
  subst ht
  refine Leads.ite (fun hbyz => Leads.pure fun u hu => ?_) fun hhonest => ?_
  · exact hnone u hu (if_neg fun h => by simp [hbyz] at h)
  refine Leads.bind (leads_call _) fun ok => Leads.assume fun hok => ?_
  have hverified : (v.voter ≠ t.id → pubVerify env v.signature v.blockID v.voter = .ok true) ↔
      ok = true := by
    by_cases hown : v.voter = t.id
    · rw [if_neg (not_not.mpr hown)] at hok
      cases hok
      simp [hown]
    · rw [if_pos hown] at hok
      simp [hown, hok]
  refine Leads.ite (fun hyes => ?_) fun hno => Leads.pure fun u hu => ?_
  · have hcompleted : t.toCore.completed env v =
        (t.bc.addVote env v).1.map fun q => { q with leader := t.id } :=
      if_pos ⟨by simpa using hhonest, hverified.mpr hyes⟩
    rw [hcompleted]
    have hforest : (t.bc.addVote env v).2.forrest = t.bc.forrest := rfl
    cases hadd : t.bc.addVote env v with
    | mk r bc =>
      rw [hadd] at hforest
      cases r with
      | none =>
        refine Leads.bind (Leads.of_set (htally (hverified.mpr hyes) bc hadd)) fun _ => ?_
        exact Leads.pure fun u hu => ⟨rfl, bc, hforest, hu⟩
      | some q =>
        refine Leads.bind (Leads.of_set (hbuild (hverified.mpr hyes) q bc hadd)) fun _ => ?_
        exact Leads.pure fun u hu => ⟨rfl, bc, hforest, hu⟩
  · exact hnone u hu (if_neg fun h => hno (hverified.mp h.2))

end Leaves

/-! ## Certificates -/

section Certificates

variable {env : Env} {alg : Algorithm} {K : Known}

theorem updateHighQC_leads {P : Replica → Prop} (qc : QC)
    (h : ∀ s, P s → Accepted env K s qc ∨ ∃ core b, inHand s.trace = some (core, b) ∧
      K.block b ∧ b.qc = some qc) :
    Leads (Clerical env alg K) P (updateHighQC qc) fun _ s => qc.view ≤ s.highQC.view := by
  refine Leads.of_modify fun s hs => ⟨.raise s qc (h s hs), ?_⟩
  simp only [Replica.raiseHighQC]
  split_ifs with hlt
  · exact Int64.le_refl _
  · exact Int64.not_lt.mp hlt

theorem bufferQC_leads {P : Replica → Prop} {qc : QC} (h : ∀ s, P s → Held K s qc) :
    Leads (Clerical env alg K) P (modify fun s => s.bufferQC qc : Exec Unit) fun _ _ => True :=
  Leads.of_modify_step fun s hs => .bufferQC s qc (h s hs)

/-- What the shared handlers rely on. -/
structure RulesLead (env : Env) (alg : Algorithm) (K : Known) (rules : Rules) : Prop where
  keepVmo : ∀ vmo s₀, Received K.msg s₀ (.vmo vmo) →
    Leads (Act env alg K) (fun s => s = s₀) (rules.keepVmo vmo) fun _ s => s = { s₀ with
      pm := s₀.pm.start, recivedVMO := s₀.recivedVMO.insert (vmo.view - 1) vmo }
  processCertificate : ∀ qc, Leads (Clerical env alg K) (fun s => Held K s qc)
    (rules.processCertificate qc) fun _ _ => True
  announced : ∀ qc (R : Replica → Replica → Prop) s₀,
    Leads R (fun s => s = s₀) (rules.announced qc) fun view s =>
      s = s₀ ∧ view = announcedView alg s₀.toCore qc

end Certificates

/-! ## An invariant of the acts -/

section Circle

variable {α : Type} {env : Env} {alg : Algorithm} {K : Known}

/-- A handler that keeps `J` through all it does. -/
abbrev Minds (env : Env) (alg : Algorithm) (K : Known) (J : Replica → Prop) (m : Exec α) : Prop :=
  Leads (Change env alg K) J m fun _ => J

/-- The block in hand stays in hand. Besides the clerical acts this may be an act of
the leader of the next view. -/
structure Quiet (env : Env) (alg : Algorithm) (K : Known) (view : View) (s s' : Replica) :
    Prop where
  act : Act env alg K s s'
  hand : inHand s'.trace = inHand s.trace
  kind : Clerical env alg K s s' ∨ env.election.findLeaderFor (view + 1) = s.id

theorem Clerical.quiet {s s' : Replica} (h : Clerical env alg K s s') (view : View) :
    Quiet env alg K view s s' :=
  ⟨.clerical h, h.inHand_eq, Or.inl h⟩

/-- The block is past the test that would have buffered it. -/
def Taken (b : Block) (s : Replica) : Prop := ∃ core, Event.handle core b ∈ s.trace

theorem Taken.mono {b : Block} {s s' : Replica} (h : Taken b s) (hs : Later s s') : Taken b s' :=
  h.imp fun _ he => hs.trace.subset he

namespace Minds

variable {J P : Replica → Prop} {m : Exec α} {Q : α → Replica → Prop}

theorem done {a : α} : Minds env alg K J (pure a) := Leads.pure fun _ hs => hs

/-- A fact that nothing takes back may be kept beside `J`. -/
theorem beside {F : Replica → Prop} (hF : ∀ s s', Later s s' → F s → F s')
    (h : Leads (Change env alg K) P m Q) :
    Leads (Change env alg K) (fun s => P s ∧ F s) m fun a s => Q a s ∧ F s :=
  h.carry (fun _ _ hm => hF _ _ hm.later) fun _ hs => hs

/-- What only makes acts of a kind keeps what these keep. -/
theorem of_leads {R : Replica → Replica → Prop} (hR : ∀ s s', R s s' → Act env alg K s s')
    (hJ : ∀ s s', R s s' → J s → J s') (h : Leads R P m Q) :
    Leads (Change env alg K) (fun s => J s ∧ P s) m fun a s => J s ∧ Q a s :=
  ((h.carry hJ fun _ hs => hs.symm).post fun _ _ hs => hs.symm).rel fun _ _ hr => .act (hR _ _ hr)

theorem clerical (hJ : ∀ s s', Clerical env alg K s s' → J s → J s')
    (h : Leads (Clerical env alg K) P m Q) :
    Leads (Change env alg K) (fun s => J s ∧ P s) m fun a s => J s ∧ Q a s :=
  of_leads (fun _ _ => .clerical) hJ h

theorem keep (hJ : ∀ s s', Clerical env alg K s s' → J s → J s')
    (h : Leads (Clerical env alg K) J m Q) : Minds env alg K J m :=
  (h.keep hJ).rel fun _ _ hc => .act (.clerical hc)

variable (hJ : ∀ s s', Act env alg K s s' → J s → J s')
include hJ

theorem act (h : Leads (Act env alg K) P m Q) :
    Leads (Change env alg K) (fun s => J s ∧ P s) m fun a s => J s ∧ Q a s :=
  of_leads (fun _ _ ha => ha) hJ h

theorem act_at {s₀ : Replica} (hs : J s₀) (h : Leads (Act env alg K) (fun s => s = s₀) m Q) :
    Leads (Change env alg K) (fun s => s = s₀) m fun a s => J s ∧ Q a s :=
  (act hJ h).pre fun _ heq => ⟨heq ▸ hs, heq⟩

theorem of_modify {f : Replica → Replica} (h : ∀ s, P s → Act env alg K s (f s)) :
    Leads (Change env alg K) (fun s => J s ∧ P s) (modify f : Exec Unit) fun _ => J :=
  (act hJ (Leads.of_modify_step h)).post fun _ _ hs => hs.1

theorem leave (view : View) :
    Leads (Change env alg K) (fun s => J s ∧ Justified env K.msg s view) (advanceView view)
      fun _ => J :=
  of_modify hJ fun s hs => .leave s view hs

end Minds

section Nested

variable {J : Replica → Prop} (hS : ∀ s, J s → Steady env alg K s) {rules : Rules}
  {processBlock : Block → Exec (Option Err)}

/-! ## View changes -/

/-- The leader of the next view announces and counts. -/
theorem processLocalVmo_leader_minds (fuel : ℕ) {view : View}
    (hQ : ∀ s s', Quiet env alg K view s s' → J s → J s') {s₀ : Replica} (hs : J s₀)
    (hannounced : Announced env alg K s₀ view)
    (hleader : env.election.findLeaderFor (view + 1) = s₀.id) :
    Leads (Change env alg K) (fun s => s = s₀) (processLocalVmo env rules processBlock fuel view)
      fun _ => J := by
  have hsent : Sent env alg K s₀ none (.vmo ⟨view, s₀.id, some s₀.highQC⟩) :=
    ⟨rfl, fun _ => hannounced⟩
  have hact : Act env alg K s₀ _ := .announce s₀ ⟨view, s₀.id, some s₀.highQC⟩ hsent hleader
  exact (processLocalVmo_leads hleader (.broadcast s₀ _ hsent) (.act hact)).post fun _ s hs' =>
    hs' ▸ hQ _ _ ⟨hact, rfl, Or.inr hleader⟩ hs

include hS in
/-- The block in hand stays in hand while a certificate that was waiting for it is
processed: the announcement is made only by the next leader, which just counts it. -/
theorem processBufferedQC_minds (hr : RulesLead env alg K rules) (fuel : ℕ) {block : Block}
    (hQ : ∀ s s', Quiet env alg K block.view s s' → J s → J s')
    (htaken : ∀ s, J s → Taken block s) :
    Minds env alg K J (processBufferedQC env rules processBlock fuel block) := by
  unfold processBufferedQC
  refine Leads.get_bind fun s hs => ?_
  cases hl : s.bufferedQCs.lookup block.id with
  | none => exact Leads.pure fun t ht => ht ▸ hs
  | some q =>
    obtain ⟨hid, hq⟩ := (hS s hs).qcs _ _ hl
    have hheld : ∀ t t', Later t t' → Held K t q → Held K t' q := fun _ _ h ht => ht.mono h.trace
    have hC : ∀ t t', Clerical env alg K t t' → J t → J t' := fun _ _ hc => hQ _ _ (hc.quiet _)
    have hcert := Minds.beside hheld (Minds.clerical hC (hr.processCertificate q))
    refine Leads.bind (hcert.at_start ⟨⟨hs, hq⟩, hq⟩) fun _ => ?_
    have hdrop : Leads (Clerical env alg K) (fun _ => True)
        (modify fun t => { t with bufferedQCs := t.bufferedQCs.erase block.id } : Exec Unit)
        fun _ _ => True :=
      Leads.of_modify_step fun t _ => .dropQC t block.id
    refine Leads.bind (Minds.beside hheld ((Minds.clerical hC hdrop).pre fun t ht => ht))
      fun _ => ?_
    refine Leads.get_bind fun t ht => Leads.ite (fun hleader => ?_) fun _ =>
      Leads.pure fun u hu => hu ▸ ht.1.1
    obtain ⟨core, he⟩ := htaken t ht.1.1
    exact processLocalVmo_leader_minds fuel hQ ht.1.1
      (Or.inr ⟨core, block, q, he, rfl, hid, ht.2, hleader⟩) hleader

variable (hJ : ∀ s s', Act env alg K s s' → J s → J s')
  (hbuf : ∀ view, Leads (Change env alg K) (fun s => J s ∧ view ≤ s.pm.curView)
    (takeUpBuffered processBlock view) fun _ => J)
include hS hJ hbuf

theorem processVMOAndBlock_minds (view : View) :
    Leads (Change env alg K) (fun s => J s ∧ view ≤ s.pm.curView)
      (processVMOAndBlock env processBlock view) fun _ => J := by
  unfold processVMOAndBlock
  refine Leads.get_bind fun s hs => ?_
  cases hv : s.recivedVMO.lookup (view - 1) with
  | none => exact Leads.pure fun t ht => ht ▸ hs.1
  | some vmo =>
    obtain ⟨hkey, hvmo⟩ := (hS s hs.1).vmos _ _ hv
    have hview : vmo.view = view := (Int64.sub_left_inj 1).mp hkey
    have hkeep : ∀ t t', Later t t' → Received K.msg t (.vmo vmo) → Received K.msg t' (.vmo vmo) :=
      fun _ _ hl hr => hr.mono hl.toGrows
    refine Leads.bind ((Minds.beside hkeep (hbuf view)).at_start ⟨hs, hvmo⟩) fun _ => ?_
    refine Leads.get_bind fun t ht => ?_
    cases hb : t.recivedBlock.lookup (view - 1) with
    | none => exact Leads.pure fun u hu => hu ▸ ht.1
    | some block =>
      obtain ⟨hbkey, hblock⟩ := (hS t ht.1).takenUp _ _ hb
      have hjust : ∀ u, Received K.msg u (.vmo vmo) → Justified env K.msg u view := fun u hu =>
        Or.inr (Or.inr ⟨⟨vmo, hu, hview⟩, block, hblock, (Int64.sub_left_inj 1).mp hbkey⟩)
      have hback : Leads (Act env alg K) (fun u => u = t) (postBack env view vmo) fun _ _ => True :=
        (postBack_leads (.send t _ _ ⟨rfl, fun hd => by cases hd⟩ fun hd => by cases hd)).post
          fun _ _ _ => trivial
      refine Leads.bind ((Minds.beside hkeep (Minds.act_at hJ ht.1 hback)).pre
        fun u hu => ⟨hu, hu ▸ ht.2⟩) fun _ => ?_
      refine Leads.bind ((Minds.beside hkeep (Minds.of_modify (P := fun _ => True) hJ fun u _ =>
        .release u (view - 1))).pre fun u hu => ⟨⟨hu.1.1, trivial⟩, hu.2⟩) fun _ => ?_
      exact Leads.bind ((Minds.leave hJ view).pre fun u hu => ⟨hu.1, hjust u hu.2⟩)
        fun _ => Minds.done

variable (hr : RulesLead env alg K rules)
include hr

/-- The leader of the next view counts the message, any other replica keeps it. -/
theorem processRemoteVmo_minds (fuel : ℕ) (vmo : VMO) :
    Leads (Change env alg K) (fun s => J s ∧ Received K.msg s (.vmo vmo))
      (processRemoteVmo env rules processBlock fuel vmo) fun _ => J := by
  induction fuel generalizing vmo with
  | zero => exact Leads.throw
  | succ fuel ih =>
    refine Leads.start fun s hs => ?_
    by_cases hleader : env.election.findLeaderFor (vmo.view + 1) = s.id
    · have hact : Act env alg K s _ := .countVmo s vmo hs.2 hleader
      refine Leads.of_run (f := fun t => { t with pm := t.pm.countVmo vmo }) (fun t ht => ?_)
        fun t ht => ?_
      · subst ht
        exact processRemoteVmo_run hleader fuel
      · subst ht
        exact ⟨.act hact, hJ _ _ hact hs.1⟩
    unfold processRemoteVmo
    refine Leads.get_bind fun t ht => ?_
    subst ht
    refine Leads.ite (fun h => absurd h hleader) fun _ => ?_
    refine Leads.bind (Minds.act_at hJ hs.1 (hr.keepVmo vmo t hs.2)) fun _ => ?_
    refine Leads.bind leads_getCurView fun curView => ?_
    refine Leads.ite (fun _ => Leads.pure fun _ ht => ht.1.1) fun hge => ?_
    refine Leads.bind ((processVMOAndBlock_minds hS hJ hbuf vmo.view).pre fun u hu => ?_)
      fun ok => Leads.ite (fun _ => ?_) fun _ => Minds.done
    · exact ⟨hu.1.1, hu.2 ▸ Int64.not_lt.mp hge⟩
    · refine Leads.get_bind fun u hu => ?_
      cases hl : u.recivedVMO.lookup vmo.view with
      | none => exact Leads.pure fun w hw => hw ▸ hu
      | some next => exact (ih next).at_start ⟨hu, ((hS u hu).vmos _ _ hl).2⟩

theorem processLocalVmo_minds (fuel : ℕ) (view : View) :
    Leads (Change env alg K) (fun s => J s ∧ Announced env alg K s view)
      (processLocalVmo env rules processBlock fuel view) fun _ => J := by
  refine Leads.start fun s hs => ?_
  by_cases hleader : env.election.findLeaderFor (view + 1) = s.id
  · exact processLocalVmo_leader_minds fuel (fun _ _ hq => hJ _ _ hq.act) hs.1 hs.2 hleader
  · refine Leads.get_bind fun t ht => ?_
    subst ht
    have hact : Act env alg K t (t.push none (.vmo ⟨view, t.id, some t.highQC⟩)) :=
      .send t none _ ⟨rfl, fun _ => hs.2⟩ fun _ => hleader
    refine Leads.bind (Leads.of_modify_at (.act hact)) fun _ => ?_
    exact (processRemoteVmo_minds hS hJ hbuf hr fuel _).at_start
      ⟨hJ _ _ hact hs.1, Or.inr (by simp [Replica.push])⟩

/-! ## Votes -/

theorem processVote_minds (fuel : ℕ) (v : Vote) :
    Leads (Change env alg K) (fun s => J s ∧ ForMe env K s v)
      (processVote env rules processBlock fuel v) fun _ => J := by
  unfold processVote
  refine Leads.start fun s₀ hs₀ => Leads.bind (Minds.act_at hJ hs₀.1 (countVote_leads
    (fun hver bc hadd => .clerical (.tally s₀ v bc ⟨hs₀.2, hver⟩ hadd))
    fun hver q bc hadd => .clerical (.build s₀ v q bc ⟨hs₀.2, hver⟩ hadd))) fun r => ?_
  cases r with
  | none => exact Leads.pure fun s hs => hs.1
  | some q =>
    refine Leads.get_bind fun s hs => ?_
    obtain ⟨hkept, -, bc, hforest, hstate⟩ := hs
    have he : Event.built s₀.toCore q ∈ s.trace := hstate ▸ List.mem_cons_self
    have hpm : s.pm = s₀.pm := hstate ▸ rfl
    have hheld : Held K s q := Or.inr ⟨s₀.toCore, he⟩
    cases hb : s.bc.getBlockByID q.blockID with
    | error e =>
      have hbuffer : Act env alg K s (s.bufferQC q) := .clerical (.bufferQC s q hheld)
      exact (Leads.of_modify_at (.act hbuffer)).post fun _ _ ht => ht ▸ hJ _ _ hbuffer hkept
    | ok b =>
      have hstored : s₀.bc.forrest.getVertex q.blockID = some b := by
        rw [← hforest, ← BlockChain.getBlockByID_ok.mp hb, hstate]
        rfl
      -- the view that is announced is still the one in which the certificate was built
      have hcert := (hr.processCertificate q).carry
        (J := fun t => Event.built s₀.toCore q ∈ t.trace ∧ t.pm = s₀.pm)
        (fun _ _ hc ht => ⟨hc.later.trace.subset ht.1, hc.apart.pm.trans ht.2⟩)
        fun t (ht : t = s) => ⟨ht ▸ hheld, ht ▸ ⟨he, hpm⟩⟩
      refine Leads.bind (Minds.act_at hJ hkept (hcert.rel fun _ _ => .clerical)) fun _ => ?_
      refine Leads.start fun t ht => Leads.bind (hr.announced q _ t) fun view => ?_
      refine (processLocalVmo_minds hS hJ hbuf hr fuel view).pre fun u hu => ?_
      obtain ⟨rfl, hview⟩ := hu
      refine ⟨ht.1, Or.inl ⟨s₀.toCore, q, b, ht.2.2.1, hstored, ?_⟩⟩
      rw [hview]
      cases alg <;> simp [announcedView, ht.2.2.2]

/-- The invariant may depend on the vote that is made. -/
theorem castVote_minds (fuel : ℕ) {block : Block} {P : Replica → Prop}
    (hguard : ∀ s, P s → ∃ core qc, VoteGuard env alg core s block qc)
    (hvote : ∀ s v, makeVote env block.view s.id block.id = .ok v → P s →
      J (s.record (.vote s.toCore block v))) :
    Leads (Change env alg K) P (castVote env rules processBlock fuel block) fun _ => J := by
  unfold castVote
  refine Leads.get_bind fun s hs => Leads.bind (leads_call _) fun vote => ?_
  refine Leads.assume fun hmade => ?_
  obtain ⟨core, qc, hg⟩ := hguard s hs
  have hact : Act env alg K s _ := .vote s core block qc vote hg hmade
  refine Leads.bind (Leads.of_modify_at (.act hact)) fun _ => ?_
  have hnext : J (s.record (.vote s.toCore block vote)) := hvote s vote hmade hs
  have hevent : Event.vote s.toCore block vote ∈ (s.record (.vote s.toCore block vote)).trace :=
    List.mem_cons_self
  refine Leads.ite (fun hself => ?_) fun _ => ?_
  · exact (processVote_minds hS hJ hbuf hr fuel vote).at_start
      ⟨hnext, Or.inr ⟨s.toCore, block, hevent, hself⟩⟩
  · have hsend : Act env alg K (s.record (.vote s.toCore block vote)) _ :=
      .send _ (some (env.election.findLeaderFor (block.view + 1))) (.vote vote)
        ⟨s.toCore, block, hevent, rfl⟩ fun hd => by cases hd
    exact (Leads.of_modify_at (.act hsend)).post fun _ _ ht => ht ▸ hJ _ _ hsend hnext

end Nested

/-! ## Blocks -/

/-- Between taking up a block and voting for it. -/
structure Pending (env : Env) (alg : Algorithm) (K : Known) (core : Core) (block : Block)
    (s : Replica) : Prop where
  steady : Steady env alg K s
  hand : inHand s.trace = some (core, block)
  id : core.id = s.id
  lock : core.preferredView ≤ s.preferredView
  stored : ∀ id p, s.bc.forrest.getVertex id = some p →
    core.bc.forrest.getVertex id = some p ∨ p = block
  passed : Passed s.pm block.view

/-- The block has just been taken up in state `s₀`. -/
structure TakenUp (env : Env) (alg : Algorithm) (K : Known) (block : Block) (s₀ s : Replica) :
    Prop where
  state : s = s₀.record (.handle s₀.toCore block)
  pending : Pending env alg K s₀.toCore block s

/-- A pending block whose certificate has been looked at. -/
structure Examined (env : Env) (alg : Algorithm) (K : Known) (core : Core) (block : Block)
    (qc : QC) (s : Replica) : Prop extends Pending env alg K core block s where
  highQC : qc.view ≤ s.highQC.view

/-- A block that may come early, or does not. -/
def Acceptable (K : Known) (b : Block) (s : Replica) : Prop :=
  K.early b ∨ b.view ≤ s.pm.start.curView

section Blocks

variable {core : Core} {block : Block} {qc : QC} {s s' : Replica}

theorem inHand_mem {trace : List Event} (h : inHand trace = some (core, block)) :
    Event.handle core block ∈ trace := by
  induction trace with
  | nil => cases h
  | cons e trace ih =>
    cases e with
    | handle core' b' => cases h; exact List.mem_cons_self
    | vote _ _ _ => cases h
    | propose _ _ => cases h
    | built _ _ => exact List.mem_cons_of_mem _ (ih h)
    | commit _ _ _ _ => exact List.mem_cons_of_mem _ (ih h)

theorem Pending.taken (h : Pending env alg K core block s) : Taken block s :=
  ⟨core, inHand_mem h.hand⟩

theorem Quiet.pending {view : View} (h : Quiet env alg K view s s')
    (hs : Pending env alg K core block s) : Pending env alg K core block s' where
  steady := h.act.steady hs.steady
  hand := h.hand.trans hs.hand
  id := hs.id.trans h.act.later.id.symm
  lock := Int64.le_trans hs.lock h.act.later.lock
  stored id p hp := by
    rcases (h.act.forest hs.steady.sound).2 id p hp with hp | ⟨core', hand⟩
    · exact hs.stored id p hp
    · rw [hs.hand] at hand
      cases hand
      exact Or.inr rfl
  passed := hs.passed.mono h.act.later.toGrows

theorem Quiet.examined {view : View} (h : Quiet env alg K view s s')
    (hs : Examined env alg K core block qc s) : Examined env alg K core block qc s' :=
  ⟨h.pending hs.toPending, Int64.le_trans hs.highQC h.act.later.highQC⟩

/-- The block in hand is stored. -/
theorem addBlock_clerical {P : Replica → Prop} (hP : ∀ s, P s → Pending env alg K core block s)
    (hleader : alg ≠ .fhs → env.election.isLeader block.proposer block.view = true) :
    Leads (Clerical env alg K) P (addBlock block) fun _ _ => True :=
  Leads.start fun s hs => (addBlock_leads fun bc hbc =>
    .store s core block bc (hP s hs).hand (hP s hs).passed hleader hbc).post fun _ _ _ => trivial

theorem processBlockQC_clerical {rules : Rules} (hr : RulesLead env alg K rules)
    (hk : K.block block) (hqc : block.qc = some qc) :
    Leads (Clerical env alg K) (Pending env alg K core block) (processBlockQC rules block qc)
      fun _ => Examined env alg K core block qc := by
  unfold processBlockQC
  refine Leads.bind ((updateHighQC_leads qc ?_).carry (fun _ _ hc => (hc.quiet block.view).pending)
    fun s hs => ⟨hs, hs⟩) fun _ => ?_
  · exact fun s hs => Or.inr ⟨core, block, hs.hand, hk, hqc⟩
  · refine Leads.get_bind fun s hs => Leads.at_start ?_
      (⟨hs.2, hs.1⟩ : Examined env alg K core block qc s)
    refine Leads.ite (fun _ => ?_) fun _ => Leads.pure fun _ ht => ht
    exact ((hr.processCertificate qc).pre fun t _ => Or.inl (K.qc_of_block _ _ hk hqc)).keep
      fun _ _ hc => (hc.quiet block.view).examined

variable {J : Replica → Prop} (hS : ∀ s, J s → Steady env alg K s)
  (hJ : ∀ s s', Act env alg K s s' → J s → J s') {processBlock : Block → Exec (Option Err)}
  (hbuf : ∀ view, Leads (Change env alg K) (fun s => J s ∧ view ≤ s.pm.curView)
    (takeUpBuffered processBlock view) fun _ => J)
include hS hJ hbuf

/-- A block of a view that has come is taken up, one of a later view may not be. -/
theorem takeUp_minds (hk : K.block block) {s₀ : Replica} (hs₀ : J s₀)
    (haccept : Acceptable K block s₀) :
    Leads (Change env alg K) (fun s => s = s₀) (takeUp env processBlock block) fun ok s =>
      (if ok then J s ∧ ∃ s₁, TakenUp env alg K block s₁ s else J s) ∧
        (block.view ≤ s₀.pm.start.curView → ok = true) := by
  unfold takeUp
  refine Leads.bind (Minds.act_at hJ hs₀ (isBuffered_leads (.start s₀) (fun hlt => ?_) fun _ => ?_))
    fun buffered => ?_
  · have hearly := haccept.resolve_right (Int64.not_le.mpr hlt)
    exact .buffer { s₀ with pm := s₀.pm.start } block hk hearly
  · exact .keepBlock { s₀ with pm := s₀.pm.start } block hk
  refine Leads.ite (fun hyes => ?_) fun hno => ?_
  · refine Leads.pure fun s hs => ⟨hs.1, fun hle => ?_⟩
    have hbad := hs.2
    rw [if_neg (Int64.not_lt.mpr hle), hyes] at hbad
    cases hbad.1
  · have hcome : ∀ s, (J s ∧ if s₀.pm.start.curView < block.view then
        buffered = true ∧ s = { s₀ with
          pm := s₀.pm.start, bufferedBlocks := s₀.bufferedBlocks.insert (block.view - 1) block }
        else buffered = false ∧ s = { s₀ with
          pm := s₀.pm.start
          recivedBlock := s₀.recivedBlock.insert (block.view - 1) block }) →
        (J s ∧ block.view ≤ s.pm.curView) ∧ Passed s.pm block.view := by
      rintro s ⟨hs, hstate⟩
      split_ifs at hstate with hlt
      · exact absurd hstate.1 hno
      · have hle : block.view ≤ s.pm.curView := hstate.2 ▸ Int64.not_lt.mp hlt
        obtain ⟨v, hv, hcur⟩ := (hS s hs).counting.passed
        exact ⟨⟨hs, hle⟩, v, hv, Int64.le_trans hle hcur⟩
    refine Leads.bind ((Minds.beside (fun _ _ hl hp => hp.mono hl.toGrows)
      (processVMOAndBlock_minds hS hJ hbuf block.view)).pre hcome) fun _ => ?_
    refine Leads.bind (Q := fun _ s => J s ∧ ∃ s₁, TakenUp env alg K block s₁ s) ?_ fun _ =>
      Leads.pure fun s hs => ⟨hs, fun _ => rfl⟩
    refine Leads.of_modify fun s hs => ?_
    have hact : Act env alg K s (s.record (.handle s.toCore block)) := .handle s block hk
    have hnext := hJ _ _ hact hs.1
    exact ⟨.act hact, hnext, s, rfl, hS _ hnext, rfl, rfl, Int64.le_refl _,
      fun _ _ hp => Or.inl hp, hs.2⟩

end Blocks

end Circle

end Bamboo
