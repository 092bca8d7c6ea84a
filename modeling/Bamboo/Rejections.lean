import Bamboo.Buffers
import Bamboo.CommitCounters

/-!
# Rejected blocks

`ProcessBlock` of HotStuff and Fast-HotStuff looks for a missing certificate and
for the wrong leader after it has made up a view change, raised the highest
certificate and the lock, and perhaps committed or stored a block. This is what
a block does to a replica that rejects it for one of the two reasons.
-/
namespace Bamboo

open Stepwise

/-- The programs below are looked at for their results only. -/
abbrev AnyStep (_ _ : Replica) : Prop := True

theorem leads_any {α : Type} {P : Replica → Prop} (m : Exec α) :
    Leads AnyStep P m fun _ _ => True := by
  intro s _
  cases m s with
  | ok a t => exact ⟨.single trivial, trivial⟩
  | error e t => exact .single trivial

theorem leads_result {α : Type} {P : Replica → Prop} {m : Exec α} {Q : α → Replica → Prop}
    (h : Leads AnyStep P m Q) {s t : Replica} {a : α} (hs : P s) (hm : m s = .ok a t) : Q a t := by
  have hr := h s hs
  rw [hm] at hr
  exact hr.2

namespace Replica

/-- What a rejected block should leave as it is. -/
structure Unchanged (s t : Replica) : Prop where
  highQC : t.highQC = s.highQC
  preferredView : t.preferredView = s.preferredView
  curView : t.pm.curView = s.pm.curView
  forrest : t.bc.forrest = s.bc.forrest
  committedBlocks : t.committedBlocks = s.committedBlocks
  forkedBlocks : t.forkedBlocks = s.forkedBlocks

/-- The same but for the view, and all of the block chain. -/
structure SameStore (s u : Replica) : Prop where
  id : u.id = s.id
  highQC : u.highQC = s.highQC
  preferredView : u.preferredView = s.preferredView
  bc : u.bc = s.bc
  committedBlocks : u.committedBlocks = s.committedBlocks
  forkedBlocks : u.forkedBlocks = s.forkedBlocks

theorem SameStore.trans {s u t : Replica} (h : SameStore s u) (h' : SameStore u t) :
    SameStore s t where
  id := h'.id.trans h.id
  highQC := h'.highQC.trans h.highQC
  preferredView := h'.preferredView.trans h.preferredView
  bc := h'.bc.trans h.bc
  committedBlocks := h'.committedBlocks.trans h.committedBlocks
  forkedBlocks := h'.forkedBlocks.trans h.forkedBlocks

theorem Unchanged.refl (s : Replica) : Unchanged s s := ⟨rfl, rfl, rfl, rfl, rfl, rfl⟩

/-- After a change of the view only, what follows must leave the rest alone. -/
theorem SameStore.unchanged_iff {s u t : Replica} (h : SameStore s u)
    (hview : t.pm.curView = u.pm.curView) :
    Unchanged s t ↔ u.pm.curView = s.pm.curView ∧ Unchanged u t := by
  constructor
  · intro hst
    refine ⟨hview.symm.trans hst.curView, ?_, ?_, hview, ?_, ?_, ?_⟩
    · rw [hst.highQC, h.highQC]
    · rw [hst.preferredView, h.preferredView]
    · rw [hst.forrest, h.bc]
    · rw [hst.committedBlocks, h.committedBlocks]
    · rw [hst.forkedBlocks, h.forkedBlocks]
  · rintro ⟨hcur, hut⟩
    refine ⟨?_, ?_, hut.curView.trans hcur, ?_, ?_, ?_⟩
    · rw [hut.highQC, h.highQC]
    · rw [hut.preferredView, h.preferredView]
    · rw [hut.forrest, h.bc]
    · rw [hut.committedBlocks, h.committedBlocks]
    · rw [hut.forkedBlocks, h.forkedBlocks]

/-! ## Taking a block up -/

/-- The view once a replica has started. -/
def startedView (s : Replica) : View := if s.pm.curView < 1 then 1 else s.pm.curView

/-- The view after a block has been taken up: the view of the block ends if its
view-change message is there. -/
def takenView (s : Replica) (block : Block) : View :=
  if s.recivedVMO.lookup (block.view - 1) = none ∨ block.view < s.startedView then s.startedView
  else block.view + 1

/-- No other block is processed when this one is taken up. -/
def Alone (s : Replica) (block : Block) : Prop :=
  s.recivedVMO.lookup (block.view - 1) = none ∨ s.bufferedBlocks.lookup (block.view - 1) = none

/-- The view stays as it is when the block is taken up. -/
def KeepsView (s : Replica) (block : Block) : Prop :=
  1 ≤ s.pm.curView ∧
    (s.recivedVMO.lookup (block.view - 1) = none ∨ block.view < s.pm.curView)

theorem le_startedView (s : Replica) : s.pm.curView ≤ s.startedView := by
  unfold startedView
  split_ifs with hlow
  · exact Int64.le_of_lt hlow
  · exact Int64.le_refl _

theorem takenView_eq_iff {s : Replica} {block : Block} (hview : block.view ≤ s.pm.curView) :
    s.takenView block = s.pm.curView ↔ s.KeepsView block := by
  unfold takenView KeepsView startedView
  have hone : (1 : View).toInt = 1 := rfl
  by_cases hlow : s.pm.curView < 1
  · -- the view is started, and that alone changes it
    have hlt := Int64.lt_iff_toInt_lt.mp hlow
    have hle := Int64.le_iff_toInt_le.mp hview
    have hbelow : block.view < 1 := by
      rw [Int64.lt_iff_toInt_lt]
      omega
    simp only [if_pos hlow, hbelow, or_true, if_true]
    constructor
    · intro heq
      rw [← heq] at hlow
      exact (Int64.lt_irrefl hlow).elim
    · rintro ⟨hge, -⟩
      exact absurd hlow (Int64.not_lt.mpr hge)
  · simp only [if_neg hlow, Int64.not_lt.mp hlow, true_and]
    by_cases hkept : s.recivedVMO.lookup (block.view - 1) = none ∨ block.view < s.pm.curView
    · rw [if_pos hkept]
      exact iff_of_true rfl hkept
    · have hsame : block.view = s.pm.curView :=
        Int64.le_antisymm hview (Int64.not_lt.mp (not_or.mp hkept).2)
      rw [if_neg hkept, hsame]
      rw [hsame] at hkept
      exact iff_of_false (by simp) hkept

end Replica

section TakeUp

variable {env : Env} {processBlock : Block → Exec (Option Err)} {block : Block} {s : Replica}

theorem advanceView_curView (p : Pacemaker) (view : View) :
    (p.advanceView view).curView = if view < p.curView then p.curView else view + 1 := by
  unfold Pacemaker.advanceView
  split_ifs <;> rfl

theorem startView_brings :
    Leads AnyStep (fun u => u = s) startView fun _ u =>
      u = { s with pm := u.pm } ∧ u.pm.curView = s.startedView := by
  unfold startView
  refine Leads.bind leads_getCurView fun curView => ?_
  refine Leads.ite (fun hlow => ?_) fun hlow => ?_
  · refine Leads.of_modify fun u hu => ⟨trivial, ?_⟩
    obtain ⟨rfl, rfl⟩ := hu
    refine ⟨rfl, ?_⟩
    have hnot : ¬ (0 : View) < u.pm.curView := by
      rw [Int64.lt_iff_toInt_lt] at hlow ⊢
      have hone : (1 : View).toInt = 1 := rfl
      have hzero : (0 : View).toInt = 0 := rfl
      omega
    rw [advanceView_curView, if_neg hnot, Replica.startedView, if_pos hlow]
    rfl
  · refine Leads.pure fun u hu => ?_
    obtain ⟨rfl, rfl⟩ := hu
    exact ⟨rfl, (if_neg hlow).symm⟩

/-- A block that is not above the view is kept as received. -/
theorem isBuffered_brings (hview : block.view ≤ s.pm.curView) :
    Leads AnyStep (fun u => u = s) (isBuffered env block) fun r u => r = false ∧
      (u = { s with pm := u.pm, recivedBlock := s.recivedBlock.insert (block.view - 1) block } ∧
        u.pm.curView = s.startedView) := by
  unfold isBuffered
  refine Leads.bind startView_brings fun _ => ?_
  refine Leads.bind leads_getCurView fun curView => ?_
  refine Leads.bind checkSignature_same fun _ => ?_
  refine Leads.start fun u hu => ?_
  obtain ⟨⟨hu, hcur⟩, rfl⟩ := hu
  have hnot : ¬ u.pm.curView < block.view := by
    rw [hcur, Int64.not_lt]
    exact Int64.le_trans hview s.le_startedView
  rw [if_neg hnot]
  refine Leads.bind (Leads.of_modify fun t ht => ⟨trivial, ?_⟩) fun _ => Leads.pure fun t ht =>
    ⟨rfl, ht⟩
  subst ht
  refine ⟨?_, hcur⟩
  rw [hu]

/-- The message is passed on, and nothing else happens. -/
theorem postBack_brings {view : View} {vmo : VMO} :
    Leads AnyStep (fun u => u = s) (postBack env view vmo) fun _ u =>
      u = { s with outbox := u.outbox } := by
  unfold postBack
  refine Leads.get_bind fun u hu => ?_
  subst hu
  refine Leads.ite (fun _ => Leads.of_modify fun t ht => ⟨trivial, ?_⟩) fun _ =>
    Leads.pure fun t ht => ?_
  · subst ht
    rfl
  · subst ht
    rfl

theorem processVMOAndBlock_brings (halone : s.Alone block)
    (hblock : s.recivedBlock.lookup (block.view - 1) = some block) :
    Leads AnyStep (fun u => u = s) (processVMOAndBlock env processBlock block.view) fun _ u =>
      Replica.SameStore s u ∧ u.pm.curView =
        if s.recivedVMO.lookup (block.view - 1) = none ∨ block.view < s.pm.curView then
          s.pm.curView else block.view + 1 := by
  unfold processVMOAndBlock
  refine Leads.get_bind fun u hu => ?_
  subst hu
  cases hkept : u.recivedVMO.lookup (block.view - 1) with
  | none =>
    refine Leads.pure fun t ht => ?_
    subst ht
    exact ⟨⟨rfl, rfl, rfl, rfl, rfl, rfl⟩, by simp⟩
  | some vmo =>
    have hbuffered : u.bufferedBlocks.lookup (block.view - 1) = none :=
      halone.resolve_left (by simp [hkept])
    have htake : Leads AnyStep (fun t => t = u) (takeUpBuffered processBlock block.view)
        fun _ t => t = u := by
      refine Leads.get_bind fun t ht => ?_
      subst ht
      rw [hbuffered]
      exact Leads.pure fun t' ht' => ht'
    refine Leads.bind htake fun _ => Leads.get_bind fun t ht => ?_
    subst ht
    rw [hblock]
    refine Leads.bind postBack_brings fun _ => ?_
    refine @Leads.bind _ _ _ _ _ _ (fun _ t₁ => Replica.SameStore t t₁ ∧ t₁.pm = t.pm) _ _ _
      (Leads.of_modify fun t' ht' => ⟨trivial, ?_⟩) fun _ => ?_
    · rw [ht']
      exact ⟨⟨rfl, rfl, rfl, rfl, rfl, rfl⟩, rfl⟩
    · refine Leads.bind (Leads.of_modify fun t' ht' => ⟨trivial, ?_⟩) fun _ =>
        Leads.pure fun t' ht' => ht'
      obtain ⟨hsame, hpm⟩ := ht'
      refine ⟨⟨hsame.id, hsame.highQC, hsame.preferredView, hsame.bc, hsame.committedBlocks,
        hsame.forkedBlocks⟩, ?_⟩
      simp only [advanceView_curView, hpm, reduceCtorEq, false_or]

theorem takeUp_brings (hview : block.view ≤ s.pm.curView) (halone : s.Alone block) :
    Leads AnyStep (fun u => u = s) (takeUp env processBlock block) fun r u =>
      r = true ∧ Replica.SameStore s u ∧ u.pm.curView = s.takenView block := by
  unfold takeUp
  refine Leads.bind (isBuffered_brings hview) fun r => ?_
  refine Leads.start fun u hu => ?_
  obtain ⟨rfl, hu, hcur⟩ := hu
  have halone' : u.Alone block := by
    rw [hu]
    exact halone
  have hblock : u.recivedBlock.lookup (block.view - 1) = some block := by
    rw [hu]
    exact AList.lookup_insert _
  have hkept : u.recivedVMO = s.recivedVMO := by rw [hu]
  have hsame : Replica.SameStore s u := by
    rw [hu]
    exact ⟨rfl, rfl, rfl, rfl, rfl, rfl⟩
  simp only [Bool.false_eq_true, if_false]
  refine Leads.bind (processVMOAndBlock_brings halone' hblock) fun _ => ?_
  refine Leads.bind (Leads.of_modify fun t ht => ⟨trivial, ?_⟩) fun _ =>
    Leads.pure fun t ht => ⟨rfl, ht⟩
  obtain ⟨hut, hview'⟩ := ht
  rw [hcur, hkept] at hview'
  exact ⟨hsame.trans ⟨hut.id, hut.highQC, hut.preferredView, hut.bc, hut.committedBlocks,
    hut.forkedBlocks⟩, hview'⟩

end TakeUp

/-! ## Commits -/

namespace Replica

/-- What a commit can change of what a rejected block should leave. -/
structure SameChain (s t : Replica) : Prop where
  forrest : t.bc.forrest = s.bc.forrest
  committedBlocks : t.committedBlocks = s.committedBlocks
  forkedBlocks : t.forkedBlocks = s.forkedBlocks

/-- What a commit leaves alone. -/
structure SameLock (s t : Replica) : Prop where
  highQC : t.highQC = s.highQC
  preferredView : t.preferredView = s.preferredView
  pm : t.pm = s.pm

theorem SameLock.unchanged_iff {s t : Replica} (h : SameLock s t) :
    Unchanged s t ↔ SameChain s t := by
  constructor
  · intro hst
    exact ⟨hst.forrest, hst.committedBlocks, hst.forkedBlocks⟩
  · intro hst
    exact ⟨h.highQC, h.preferredView, by rw [h.pm], hst.forrest, hst.committedBlocks,
      hst.forkedBlocks⟩

end Replica

theorem commit_brings {qc : QC} {head : Block} {s : Replica} :
    Leads AnyStep (fun u => u = s) (commit qc head) fun _ t =>
      Replica.SameLock s t ∧ (Replica.SameChain s t ↔
        ∀ b, s.bc.forrest.getVertex head.id = some b → b.level ≤ s.bc.forrest.lowestLevel) := by
  unfold commit
  refine Leads.get_bind fun u hu => ?_
  subst hu
  refine Leads.bind (leads_call _) fun r => ?_
  refine Leads.start fun u' hu' => ?_
  obtain ⟨rfl, hdone⟩ := hu'
  obtain ⟨res, bc⟩ := r
  have hidle := BlockChain.commitBlock_idle_iff hdone
  cases res with
  | error e =>
    refine Leads.bind (Leads.of_set trivial) fun _ => Leads.pure fun t ht => ?_
    subst ht
    refine ⟨⟨rfl, rfl, rfl⟩, Iff.trans ?_ hidle⟩
    constructor
    · intro h
      exact ⟨h.forrest, by simp⟩
    · intro h
      exact ⟨h.1, rfl, rfl⟩
  | ok blocks =>
    obtain ⟨committed, forked⟩ := blocks
    refine Leads.bind (Leads.of_set trivial) fun _ => Leads.pure fun t ht => ?_
    subst ht
    refine ⟨⟨rfl, rfl, rfl⟩, Iff.trans ?_ hidle⟩
    constructor
    · intro h
      have hcommitted : committed = [] := List.append_right_eq_self.mp h.committedBlocks
      have hforked : forked = [] := List.append_right_eq_self.mp h.forkedBlocks
      exact ⟨h.forrest, by simp [hcommitted, hforked]⟩
    · rintro ⟨hf, hnone⟩
      cases hnone _ rfl
      exact ⟨hf, List.append_nil _, List.append_nil _⟩

/-! ## Certificates -/

namespace Replica

theorem raiseHighQC_of_le {s : Replica} {qc : QC} (h : qc.view ≤ s.highQC.view) :
    s.raiseHighQC qc = s := by
  unfold raiseHighQC
  rw [if_neg (Int64.not_lt.mpr h)]

theorem le_raiseHighQC (s : Replica) (qc : QC) : qc.view ≤ (s.raiseHighQC qc).highQC.view := by
  simp only [raiseHighQC]
  split_ifs with hlt
  · exact Int64.le_refl _
  · exact Int64.not_lt.mp hlt

theorem raiseLock_of_le {s : Replica} {view : View} (h : view ≤ s.preferredView) :
    s.raiseLock view = s := by
  unfold raiseLock
  rw [if_neg (Int64.not_lt.mpr h)]

/-- A raised lock shows. -/
theorem SameLock.unchanged_raiseLock_iff {s t : Replica} {view : View}
    (h : SameLock (s.raiseLock view) t) :
    Unchanged s t ↔ view ≤ s.preferredView ∧ SameChain (s.raiseLock view) t := by
  by_cases hle : view ≤ s.preferredView
  · rw [raiseLock_of_le hle] at h ⊢
    simp only [hle, true_and]
    exact h.unchanged_iff
  · refine iff_of_false (fun hst => hle ?_) fun hst => hle hst.1
    have hlock := h.preferredView
    simp only [raiseLock, if_pos (Int64.not_le.mp hle)] at hlock
    rw [← hst.preferredView, hlock]
    exact Int64.le_refl _

/-- What a protocol's `processCertificate` does with a certificate that is not above
the highest one, where `Idle` are the states that it leaves alone. -/
def LeavesIdle (processCertificate : QC → Exec Unit) (qc : QC) (Idle : Replica → Prop) : Prop :=
  ∀ u : Replica, qc.view ≤ u.highQC.view →
    Leads AnyStep (fun t => t = u) (processCertificate qc) fun _ t =>
      t.highQC = u.highQC ∧ t.pm = u.pm ∧ (Unchanged u t ↔ Idle u)

end Replica

theorem processBlockQC_brings {rules : Rules} {block : Block} {qc : QC} {Idle : Replica → Prop}
    (hcert : Replica.LeavesIdle rules.processCertificate qc Idle) {s : Replica} :
    Leads AnyStep (fun u => u = s) (processBlockQC rules block qc) fun _ t =>
      t.pm = s.pm ∧ (Replica.Unchanged s t ↔
        qc.view ≤ s.highQC.view ∧ (block.proposer ≠ s.id → Idle s)) := by
  have hrest : ∀ u, u = s.raiseHighQC qc →
      Leads AnyStep (fun t => t = u)
        (if block.proposer ≠ u.id then rules.processCertificate qc else pure ()) fun _ t =>
          t.highQC = u.highQC ∧ t.pm = u.pm ∧
            (Replica.Unchanged u t ↔ (block.proposer ≠ u.id → Idle u)) := by
    intro u hu
    refine Leads.ite (fun hne => ?_) fun heq => ?_
    · have hle : qc.view ≤ u.highQC.view := by
        rw [hu]
        exact s.le_raiseHighQC qc
      refine (hcert u hle).post fun _ t ht => ⟨ht.1, ht.2.1, ?_⟩
      simp only [hne, ne_eq, not_false_eq_true, true_implies]
      exact ht.2.2
    · refine Leads.pure fun t ht => ?_
      subst ht
      exact ⟨rfl, rfl, iff_of_true ⟨rfl, rfl, rfl, rfl, rfl, rfl⟩ fun hne => absurd hne heq⟩
  unfold processBlockQC
  refine @Leads.bind _ _ _ _ _ _ (fun _ u => u = s.raiseHighQC qc) _ _ _
    (Leads.of_modify fun u hu => ⟨trivial, by rw [hu]⟩) fun _ => ?_
  refine Leads.get_bind fun u hu => ?_
  refine (hrest u hu).post fun _ t ht => ?_
  obtain ⟨hhigh, hpm, hiff⟩ := ht
  rw [hu] at hhigh hpm hiff
  refine ⟨hpm, ?_⟩
  by_cases hle : qc.view ≤ s.highQC.view
  · rw [Replica.raiseHighQC_of_le hle] at hiff
    simp only [hle, true_and]
    exact hiff
  · -- the certificate of the block has become the highest one
    refine iff_of_false (fun hst => hle ?_) fun hst => hle hst.1
    have hle' := s.le_raiseHighQC qc
    rwa [← hhigh, hst.highQC] at hle'

theorem quorumIsVerified_congr {env : Env} {s u : Replica} (h : Replica.SameStore s u) (qc : QC) :
    quorumIsVerified env u.toCore qc = quorumIsVerified env s.toCore qc := by
  unfold quorumIsVerified
  rw [h.id]

/-- The block is rejected with this error. -/
def Rejects (env : Env) (block : Block) (e : Err) : Prop :=
  (block.qc = none ∧ e = .missingQC) ∨
    (env.election.isLeader block.proposer block.view = false ∧
      e = .invalidLeader block.view block.proposer)

/-- A block with a certificate is rejected for its leader only. -/
theorem Rejects.not_leader {env : Env} {block : Block} {e : Err} {qc : QC}
    (h : Rejects env block e) (hqc : block.qc = some qc) :
    env.election.isLeader block.proposer block.view = false := by
  rcases h with ⟨hnone, -⟩ | ⟨hnot, -⟩
  · rw [hqc] at hnone
    cases hnone
  · exact hnot

/-! ## HotStuff -/

namespace HotStuff

/-- The certificate neither raises the lock nor commits anything. -/
def IdleCertificate (env : Env) (qc : QC) (s : Replica) : Prop :=
  quorumIsVerified env s.toCore qc = .ok true → 2 < qc.view →
    ∀ p, s.bc.getParentBlock qc.blockID = .ok (.ok p) →
      p.view ≤ s.preferredView ∧
        ∀ head, commitRule s.bc qc = .ok (.ok (some head)) →
          ∀ b, s.bc.forrest.getVertex head.id = some b → b.level ≤ s.bc.forrest.lowestLevel

theorem idleCertificate_congr {env : Env} {qc : QC} {s u : Replica} (h : Replica.SameStore s u) :
    IdleCertificate env qc u ↔ IdleCertificate env qc s := by
  unfold IdleCertificate
  rw [quorumIsVerified_congr h, h.bc, h.preferredView]

theorem updatePreferredView_brings {qc : QC} {s : Replica} :
    Leads AnyStep (fun u => u = s) (updatePreferredView qc) fun r t =>
      (¬ 2 < qc.view ∧ r = .ok () ∧ t = s) ∨
        (2 < qc.view ∧ (∃ p, s.bc.getParentBlock qc.blockID = .ok (.ok p) ∧ r = .ok () ∧
          t = s.raiseLock p.view)) ∨
        (2 < qc.view ∧ (∀ p, s.bc.getParentBlock qc.blockID ≠ .ok (.ok p)) ∧
          (∃ e, r = .error e) ∧ t = s) := by
  unfold updatePreferredView
  refine Leads.ite (fun hle => Leads.pure fun t ht => ?_) fun hlt => ?_
  · exact Or.inl ⟨Int64.not_lt.mpr hle, rfl, ht⟩
  · have hlt' := Int64.not_le.mp hlt
    refine Leads.get_bind fun u hu => ?_
    subst hu
    cases hb : u.bc.getBlockByID qc.blockID with
    | error e =>
      refine Leads.pure fun t ht => Or.inr (Or.inr ⟨hlt', fun p hp => ?_, ⟨_, rfl⟩, ht⟩)
      obtain ⟨v, hv, -⟩ := BlockChain.getParentBlock_ok hp
      rw [BlockChain.getBlockByID_ok.mpr hv] at hb
      cases hb
    | ok v =>
      refine Leads.bind (leads_call _) fun r => ?_
      refine Leads.start fun u' hu' => ?_
      obtain ⟨rfl, hparent⟩ := hu'
      cases r with
      | error e =>
        refine Leads.pure fun t ht => Or.inr (Or.inr ⟨hlt', fun p hp => ?_, ⟨_, rfl⟩, ht⟩)
        rw [hparent] at hp
        cases hp
      | ok p =>
        refine Leads.bind (Leads.of_modify fun t ht => ⟨trivial, ?_⟩) fun _ =>
          Leads.pure fun t ht => ht
        rw [ht]
        exact Or.inr (Or.inl ⟨hlt', p, hparent, rfl, rfl⟩)

theorem checkCommit_brings {qc : QC} {s : Replica} :
    Leads AnyStep (fun u => u = s) (checkCommit qc) fun _ t =>
      Replica.SameLock s t ∧ (Replica.SameChain s t ↔ (2 < qc.view →
        ∀ head, commitRule s.bc qc = .ok (.ok (some head)) →
          ∀ b, s.bc.forrest.getVertex head.id = some b → b.level ≤ s.bc.forrest.lowestLevel)) := by
  have hthree : qc.view < 3 ↔ ¬ 2 < qc.view := by
    rw [Int64.lt_iff_toInt_lt, Int64.lt_iff_toInt_lt]
    have h3 : (3 : View).toInt = 3 := rfl
    have h2 : (2 : View).toInt = 2 := rfl
    omega
  unfold checkCommit
  refine Leads.ite (fun hlow => Leads.pure fun t ht => ?_) fun hlow => ?_
  · subst ht
    exact ⟨⟨rfl, rfl, rfl⟩, iff_of_true ⟨rfl, rfl, rfl⟩ fun h => absurd h (hthree.mp hlow)⟩
  · have htwo : 2 < qc.view := not_not.mp fun h => hlow (hthree.mpr h)
    refine Leads.get_bind fun u hu => ?_
    subst hu
    refine Leads.bind (leads_call _) fun r => ?_
    refine Leads.start fun u' hu' => ?_
    obtain ⟨rfl, hrule⟩ := hu'
    simp only [htwo, true_implies, hrule]
    -- without a block to commit there is nothing left to do
    have hidle : (∀ head, r ≠ .ok (some head)) → Replica.SameLock u' u' ∧
        (Replica.SameChain u' u' ↔ ∀ head, r = .ok (some head) →
          ∀ b, u'.bc.forrest.getVertex head.id = some b → b.level ≤ u'.bc.forrest.lowestLevel) :=
      fun hno => ⟨⟨rfl, rfl, rfl⟩, iff_of_true ⟨rfl, rfl, rfl⟩ fun head h => absurd h (hno head)⟩
    cases r with
    | error e =>
      refine Leads.pure fun t ht => ?_
      subst ht
      simpa using hidle
    | ok named =>
      cases named with
      | none =>
        refine Leads.pure fun t ht => ?_
        subst ht
        simpa using hidle
      | some head =>
        refine Leads.bind commit_brings fun _ => Leads.pure fun t ht => ⟨ht.1, ht.2.trans ?_⟩
        simp

theorem processCertificate_leavesIdle (env : Env) (qc : QC) :
    Replica.LeavesIdle (processCertificate env) qc (IdleCertificate env qc) := by
  intro s hhigh
  unfold processCertificate
  refine Leads.get_bind fun u hu => ?_
  subst hu
  refine Leads.bind (leads_call _) fun verified => ?_
  refine Leads.start fun u' hu' => ?_
  obtain ⟨rfl, hverified⟩ := hu'
  refine Leads.ite (fun htrue => ?_) fun hfalse => Leads.pure fun t ht => ?_
  · subst htrue
    refine Leads.bind updatePreferredView_brings fun r => ?_
    refine Leads.start fun w hw => ?_
    rcases hw with ⟨hlow, rfl, rfl⟩ | ⟨hlt, p, hp, rfl, rfl⟩ | ⟨hlt, hno, ⟨e, rfl⟩, rfl⟩
    · refine @Leads.bind _ _ _ _ _ _ (fun _ t => t = w) _ _ _ (Leads.of_modify fun t ht => ?_)
        fun _ => checkCommit_brings.post fun _ t ht => ?_
      · rw [ht, Replica.raiseHighQC_of_le hhigh]
        exact ⟨trivial, rfl⟩
      · refine ⟨ht.1.highQC, ht.1.pm, ht.1.unchanged_iff.trans (ht.2.trans ?_)⟩
        exact iff_of_true (fun h => absurd h hlow) fun _ h => absurd h hlow
    · refine @Leads.bind _ _ _ _ _ _ (fun _ t => t = u'.raiseLock p.view) _ _ _
        (Leads.of_modify fun t ht => ?_) fun _ => checkCommit_brings.post fun _ t ht => ?_
      · subst ht
        exact ⟨trivial, @Replica.raiseHighQC_of_le (u'.raiseLock p.view) qc hhigh⟩
      · refine ⟨ht.1.highQC, ht.1.pm, ht.1.unchanged_raiseLock_iff.trans ?_⟩
        rw [ht.2]
        simp [IdleCertificate, hverified, hlt, hp, Replica.raiseLock]
    · refine Leads.of_modify fun t ht => ⟨trivial, ?_⟩
      subst ht
      exact ⟨rfl, rfl, iff_of_true ⟨rfl, rfl, rfl, rfl, rfl, rfl⟩ fun _ _ p hp => absurd hp (hno p)⟩
  · subst ht
    refine ⟨rfl, rfl, iff_of_true ⟨rfl, rfl, rfl, rfl, rfl, rfl⟩ fun h => ?_⟩
    rw [hverified] at h
    cases h
    exact absurd rfl hfalse

/-- The rejected block leaves no trace: the view stays, and its certificate is not
above the highest one and has no effect. -/
def Harmless (env : Env) (s : Replica) (block : Block) : Prop :=
  s.KeepsView block ∧ ∀ qc ∈ block.qc, qc.view ≤ s.highQC.view ∧
    (block.proposer ≠ s.id → IdleCertificate env qc s)

theorem processBlock_rejects {env : Env} {fuel : ℕ} {block : Block} {s : Replica}
    (hview : block.view ≤ s.pm.curView) (halone : s.Alone block) :
    Leads AnyStep (fun u => u = s) (processBlock env fuel block) fun r t =>
      ∀ e, r = some e → Rejects env block e → (Replica.Unchanged s t ↔ Harmless env s block) := by
  cases fuel with
  | zero => exact Leads.throw
  | succ fuel =>
    unfold processBlock
    refine Leads.bind (takeUp_brings hview halone) fun r => ?_
    refine Leads.start fun u hu => ?_
    obtain ⟨rfl, hsame, hcur⟩ := hu
    rw [if_pos rfl]
    unfold Harmless
    rw [← Replica.takenView_eq_iff hview, ← hcur]
    cases hqc : block.qc with
    | none =>
      refine Leads.pure fun t ht e _ _ => ?_
      subst ht
      rw [hsame.unchanged_iff rfl]
      simp [Replica.Unchanged.refl]
    | some qc =>
      refine Leads.bind (processBlockQC_brings (processCertificate_leavesIdle env qc)) fun _ => ?_
      refine Leads.ite (fun _ => Leads.pure fun t ht e _ _ => ?_) fun hleader =>
        (leads_any _).post fun r t _ e _ hrejects => ?_
      · rw [hsame.unchanged_iff (by rw [ht.1]), ht.2, hsame.highQC, hsame.id,
          idleCertificate_congr hsame]
        simp
      · exact absurd (hrejects.not_leader hqc) hleader

end HotStuff

/-! ## Fast-HotStuff -/

namespace Fhs

/-- The certificate is dropped, or does not raise the lock. -/
def IdleCertificate (env : Env) (qc : QC) (s : Replica) : Prop :=
  ¬ qc.view < s.pm.curView → quorumIsVerified env s.toCore qc = .ok true → 2 ≤ qc.view →
    (s.bc.forrest.getVertex qc.blockID).isSome → qc.view ≤ s.preferredView

theorem idleCertificate_congr {env : Env} {qc : QC} {s u : Replica} (h : Replica.SameStore s u)
    (hview : u.pm.curView = s.pm.curView) :
    IdleCertificate env qc u ↔ IdleCertificate env qc s := by
  unfold IdleCertificate
  rw [hview, quorumIsVerified_congr h, h.bc, h.preferredView]

theorem updatePreferredView_brings {qc : QC} {s : Replica} :
    Leads AnyStep (fun u => u = s) (updatePreferredView qc) fun r t =>
      (2 ≤ qc.view ∧ (s.bc.forrest.getVertex qc.blockID).isSome ∧ r = .ok () ∧
        t = s.raiseLock qc.view) ∨
      (¬ (2 ≤ qc.view ∧ (s.bc.forrest.getVertex qc.blockID).isSome) ∧ t = s) := by
  unfold updatePreferredView
  refine Leads.ite (fun hlow => Leads.pure fun t ht => ?_) fun hlow => ?_
  · exact Or.inr ⟨fun h => absurd h.1 (Int64.not_le.mpr hlow), ht⟩
  · refine Leads.get_bind fun u hu => ?_
    subst hu
    cases hb : u.bc.getBlockByID qc.blockID with
    | error e =>
      refine Leads.pure fun t ht => Or.inr ⟨fun h => ?_, ht⟩
      obtain ⟨v, hv⟩ := Option.isSome_iff_exists.mp h.2
      rw [BlockChain.getBlockByID_ok.mpr hv] at hb
      cases hb
    | ok v =>
      refine Leads.bind (Leads.of_modify fun t ht => ⟨trivial, ?_⟩) fun _ =>
        Leads.pure fun t ht => ht
      rw [ht]
      exact Or.inl ⟨Int64.not_lt.mp hlow, by rw [BlockChain.getBlockByID_ok.mp hb]; rfl, rfl, rfl⟩

/-- The certificate raises the lock, unless it is too old, not verified, of view 1 or of a
block that is not stored; then it is dropped or kept. -/
theorem processCertificate_brings (env : Env) (qc : QC) {s : Replica} :
    Leads AnyStep (fun u => u = s) (processCertificate env qc) fun _ t =>
      ((¬ qc.view < s.pm.curView ∧ quorumIsVerified env s.toCore qc = .ok true ∧ 2 ≤ qc.view ∧
          (s.bc.forrest.getVertex qc.blockID).isSome) ∧
        t = (s.raiseLock qc.view).raiseHighQC qc) ∨
      (IdleCertificate env qc s ∧ (t = s ∨ t = s.raiseHighQC qc ∨ t = s.bufferQC qc)) := by
  unfold processCertificate
  refine Leads.bind leads_getCurView fun curView => ?_
  refine Leads.start fun u hu => ?_
  obtain ⟨rfl, rfl⟩ := hu
  refine Leads.ite (fun hold => Leads.pure fun t ht => ?_) fun hnew => ?_
  · exact Or.inr ⟨fun h => absurd hold h, Or.inl ht⟩
  refine Leads.get_bind fun u' hu' => ?_
  subst hu'
  refine Leads.bind (leads_call _) fun verified => ?_
  refine Leads.start fun w hw => ?_
  obtain ⟨rfl, hverified⟩ := hw
  refine Leads.ite (fun htrue => ?_) fun hfalse => Leads.pure fun t ht => ?_
  · subst htrue
    refine Leads.bind updatePreferredView_brings fun r => ?_
    refine Leads.start fun v hv => ?_
    rcases hv with ⟨htwo, hstored, rfl, rfl⟩ | ⟨hnot, rfl⟩
    · refine Leads.of_modify fun t ht => ⟨trivial, Or.inl ⟨⟨hnew, hverified, htwo, hstored⟩, ?_⟩⟩
      rw [ht]
    · have hidle : IdleCertificate env qc v := fun _ _ htwo hstored =>
        absurd ⟨htwo, hstored⟩ hnot
      cases r with
      | error e =>
        refine Leads.of_modify fun t ht => ⟨trivial, Or.inr ⟨hidle, Or.inr (Or.inr ?_)⟩⟩
        rw [ht]
      | ok _ =>
        refine Leads.of_modify fun t ht => ⟨trivial, Or.inr ⟨hidle, Or.inr (Or.inl ?_)⟩⟩
        rw [ht]
  · refine Or.inr ⟨fun _ h => ?_, Or.inl ht⟩
    rw [hverified] at h
    cases h
    exact absurd rfl hfalse

theorem processCertificate_leavesIdle (env : Env) (qc : QC) :
    Replica.LeavesIdle (processCertificate env) qc (IdleCertificate env qc) := by
  intro s hhigh
  refine (processCertificate_brings env qc).post fun _ t ht => ?_
  rcases ht with ⟨⟨hnew, hverified, htwo, hstored⟩, rfl⟩ | ⟨hidle, rfl | rfl | rfl⟩
  · rw [@Replica.raiseHighQC_of_le (s.raiseLock qc.view) qc hhigh]
    have hlock : Replica.SameLock (s.raiseLock qc.view) (s.raiseLock qc.view) := ⟨rfl, rfl, rfl⟩
    have hchain : Replica.SameChain (s.raiseLock qc.view) (s.raiseLock qc.view) :=
      ⟨rfl, rfl, rfl⟩
    refine ⟨rfl, rfl, hlock.unchanged_raiseLock_iff.trans ?_⟩
    simp [IdleCertificate, hnew, hverified, htwo, hstored, hchain]
  · exact ⟨rfl, rfl, iff_of_true (.refl t) hidle⟩
  · rw [Replica.raiseHighQC_of_le hhigh]
    exact ⟨rfl, rfl, iff_of_true (.refl s) hidle⟩
  · exact ⟨rfl, rfl, iff_of_true ⟨rfl, rfl, rfl, rfl, rfl, rfl⟩ hidle⟩

/-- A certificate moves no block. -/
theorem processBlockQC_bc (env : Env) {block : Block} {qc : QC} {s : Replica} :
    Leads AnyStep (fun u => u = s) (processBlockQC (rules env) block qc) fun _ t =>
      t.bc = s.bc := by
  unfold processBlockQC
  refine @Leads.bind _ _ _ _ _ _ (fun _ u => u.bc = s.bc) _ _ _
    (Leads.of_modify fun u hu => ⟨trivial, by subst hu; rfl⟩) fun _ => ?_
  refine Leads.get_bind fun u hu => ?_
  refine Leads.ite (fun _ => ?_) fun _ => Leads.pure fun t ht => by rw [ht, hu]
  refine (processCertificate_brings env qc).post fun _ t ht => ?_
  rcases ht with ⟨-, rfl⟩ | ⟨-, rfl | rfl | rfl⟩ <;> exact hu

/-- The rejected block leaves no trace: the view stays, the forest does not take the
block, and its certificate is not above the highest one and has no effect. -/
def Harmless (env : Env) (s : Replica) (block : Block) : Prop :=
  s.KeepsView block ∧
    (block.level < s.bc.forrest.lowestLevel ∨ (s.bc.forrest.getVertex block.id).isSome) ∧
    ∀ qc ∈ block.qc, qc.view ≤ s.highQC.view ∧
      (block.proposer ≠ s.id → IdleCertificate env qc s)

theorem addBlock_brings {block : Block} {s : Replica} :
    Leads AnyStep (fun u => u = s) (addBlock block) fun _ t => ∃ f,
      s.bc.forrest.addVertex block = .ok f ∧ t = { s with bc := { s.bc with forrest := f } } := by
  unfold addBlock
  refine Leads.get_bind fun u hu => ?_
  subst hu
  refine Leads.bind (leads_call _) fun bc => ?_
  refine Leads.start fun u' hu' => ?_
  obtain ⟨rfl, hadd⟩ := hu'
  unfold BlockChain.addBlock at hadd
  cases hf : u'.bc.forrest.addVertex block with
  | error e => rw [hf] at hadd; cases hadd
  | ok f =>
    rw [hf] at hadd
    cases hadd
    exact (Leads.of_set trivial).post fun _ t ht => ⟨f, rfl, ht⟩

theorem votingRule_error {s : Core} {block : Block} {e : Err}
    (h : votingRule s block = .ok (.error e)) : ∃ cause, e = .cannotVote cause := by
  unfold votingRule at h
  split_ifs at h
  · cases h
  · cases hp : s.bc.getParentBlock block.id with
    | error f => rw [hp] at h; cases h
    | ok r =>
      rw [hp] at h
      cases r with
      | error cause =>
        cases h
        exact ⟨cause, rfl⟩
      | ok p => cases h

/-- Whether the rejected block has an effect, by whether the forest has taken it. -/
theorem unchanged_iff_harmless {env : Env} {block : Block} {s u t : Replica} {f : LevelledForest}
    {Q : Replica → Prop} (hview : block.view ≤ s.pm.curView)
    (hsame : Replica.SameStore s u) (hcur : u.pm.curView = s.takenView block)
    (hadd : u.bc.forrest.addVertex block = .ok f) (hbc : t.bc.forrest = f)
    (hpm : t.pm = u.pm) (hkept : f = u.bc.forrest → (Replica.Unchanged u t ↔ Q u))
    (hQ : u.pm.curView = s.pm.curView → (Q u ↔ ∀ qc ∈ block.qc, qc.view ≤ s.highQC.view ∧
      (block.proposer ≠ s.id → IdleCertificate env qc s))) :
    Replica.Unchanged s t ↔ Harmless env s block := by
  unfold Harmless
  rw [← Replica.takenView_eq_iff hview, ← hcur, ← hsame.bc,
    ← LevelledForest.addVertex_same_iff hadd, hsame.unchanged_iff (by rw [hpm])]
  refine and_congr_right fun hsteady => ?_
  rw [← hQ hsteady]
  constructor
  · intro hut
    have hf : f = u.bc.forrest := hbc.symm.trans hut.forrest
    exact ⟨hf, (hkept hf).mp hut⟩
  · rintro ⟨hf, hq⟩
    exact (hkept hf).mpr hq

section Voted

variable {env : Env} {block : Block} {s u : Replica} {f : LevelledForest}
  (hview : block.view ≤ s.pm.curView) (hsame : Replica.SameStore s u)
  (hcur : u.pm.curView = s.takenView block) (hadd : u.bc.forrest.addVertex block = .ok f)
include hview hsame hcur hadd

theorem unchanged_iff_of_missing (hqc : block.qc = none) :
    Replica.Unchanged s { u with bc := { u.bc with forrest := f } } ↔ Harmless env s block := by
  refine @unchanged_iff_harmless env block s u _ f (fun _ => True) hview hsame hcur hadd rfl rfl
    (fun hf => ?_) fun _ => ?_
  · subst hf
    exact iff_of_true (.refl u) trivial
  · simp [hqc]

theorem unchanged_iff_of_certificate {t : Replica} {qc : QC} (hqc : block.qc = some qc)
    (hpm : t.pm = u.pm) (hbc : t.bc = { u.bc with forrest := f })
    (hiff : Replica.Unchanged { u with bc := { u.bc with forrest := f } } t ↔
      qc.view ≤ u.highQC.view ∧ (block.proposer ≠ u.id →
        IdleCertificate env qc { u with bc := { u.bc with forrest := f } })) :
    Replica.Unchanged s t ↔ Harmless env s block := by
  refine @unchanged_iff_harmless env block s u t f (fun v => qc.view ≤ v.highQC.view ∧
    (block.proposer ≠ v.id → IdleCertificate env qc v)) hview hsame hcur hadd (by rw [hbc]) hpm
    (fun hf => ?_) fun hsteady => ?_
  · subst hf
    exact hiff
  · rw [hsame.highQC, hsame.id, idleCertificate_congr hsame hsteady, hqc]
    simp

end Voted

theorem processBlock_rejects {env : Env} {fuel : ℕ} {block : Block} {s : Replica}
    (hview : block.view ≤ s.pm.curView) (halone : s.Alone block) :
    Leads AnyStep (fun u => u = s) (processBlock env fuel block) fun r t =>
      ∀ e, r = some e → Rejects env block e → (Replica.Unchanged s t ↔ Harmless env s block) := by
  cases fuel with
  | zero => exact Leads.throw
  | succ fuel =>
    unfold processBlock
    refine Leads.bind (takeUp_brings hview halone) fun r => ?_
    refine Leads.start fun u hu => ?_
    obtain ⟨rfl, hsame, hcur⟩ := hu
    rw [if_pos rfl]
    refine Leads.bind addBlock_brings fun _ => ?_
    refine Leads.get_bind fun w hw => ?_
    obtain ⟨f, hadd, rfl⟩ := hw
    refine Leads.bind (leads_call _) fun r => ?_
    refine Leads.start fun w hw => ?_
    obtain ⟨rfl, hrule⟩ := hw
    cases r with
    | error e =>
      obtain ⟨cause, rfl⟩ := votingRule_error hrule
      refine Leads.ite (fun _ => Leads.throw) fun _ => Leads.pure fun t _ e he hrejects => ?_
      cases he
      rcases hrejects with ⟨-, h⟩ | ⟨-, h⟩ <;> cases h
    | ok shouldVote =>
      cases shouldVote with
      | false => exact Leads.pure fun t _ e he => by cases he
      | true =>
        cases hqc : block.qc with
        | none =>
          refine Leads.pure fun t ht e _ _ => ?_
          subst ht
          exact unchanged_iff_of_missing hview hsame hcur hadd hqc
        | some qc =>
          refine Leads.bind ((processBlockQC_brings (processCertificate_leavesIdle env qc)).and
            (processBlockQC_bc env)) fun _ => ?_
          refine Leads.ite (fun _ => Leads.pure fun t ht e _ _ => ?_) fun hleader =>
            (leads_any _).post fun r t _ e _ hrejects => ?_
          · exact unchanged_iff_of_certificate hview hsame hcur hadd hqc ht.1.1 ht.2 ht.1.2
          · exact absurd (hrejects.not_leader hqc) hleader

end Fhs

/-! ## Rejections without effect -/

/-- When no buffered block comes up with it, a block of no later view that HotStuff or
Fast-HotStuff rejects for a missing certificate or for its leader has no effect exactly
if it is harmless to the state it comes to. -/
theorem rejected_unchanged_iff (env : Env) (fuel : ℕ) (block : Block) (s : Replica)
    (hview : block.view ≤ s.pm.curView) (halone : s.Alone block) :
    (∀ e t, HotStuff.processBlock env fuel block s = .ok (some e) t → Rejects env block e →
      (s.Unchanged t ↔ HotStuff.Harmless env s block)) ∧
    (∀ e t, Fhs.processBlock env fuel block s = .ok (some e) t → Rejects env block e →
      (s.Unchanged t ↔ Fhs.Harmless env s block)) := by
  constructor
  · intro e t hrun
    exact leads_result (HotStuff.processBlock_rejects hview halone) rfl hrun e rfl
  · intro e t hrun
    exact leads_result (Fhs.processBlock_rejects hview halone) rfl hrun e rfl

/-- The result of a program that returns. -/
def returned {α : Type} (m : Exec α) (s : Replica) : Option α :=
  match m s with
  | .ok a _ => some a
  | .error _ _ => none

theorem eq_ok_of_returned {α : Type} {m : Exec α} {s : Replica} {a : α}
    (h : returned m s = some a) : m s = .ok a (final m s) := by
  unfold returned at h
  unfold final
  cases hm : m s with
  | ok a' t =>
    rw [hm] at h
    cases h
    rfl
  | error e t => rw [hm] at h; cases h

/-- Node 2 does not lead view 2, and its block carries the initial certificate only. -/
def fourNodes.stale : Block := fourNodes.block 2 QC.initial 2 []

/-- HotStuff rejects it without effect, and so does Fast-HotStuff the second time,
when it has stored it already. -/
theorem rejected_unchanged_iff_stale :
    (let s := Replica.new fourNodes "1" false |>.run fourNodes .hotStuff (fourNodes.timeouts 1)
    ∃ t, HotStuff.processBlock fourNodes 8 fourNodes.stale s =
      .ok (some (.invalidLeader 2 "2")) t ∧ s.Unchanged t) ∧
    (let s := Replica.new fourNodes "1" false |>.run fourNodes .fhs
      (fourNodes.timeouts 1 ++ deliverAll [fourNodes.stale])
    ∃ t, Fhs.processBlock fourNodes 8 fourNodes.stale s =
      .ok (some (.invalidLeader 2 "2")) t ∧ s.Unchanged t) := by
  have hrejects : Rejects fourNodes fourNodes.stale (.invalidLeader 2 "2") :=
    Or.inr (by decide +kernel)
  refine ⟨⟨_, eq_ok_of_returned (by decide +kernel), ?_⟩,
    ⟨_, eq_ok_of_returned (by decide +kernel), ?_⟩⟩
  · refine ((rejected_unchanged_iff fourNodes 8 fourNodes.stale _ (by decide +kernel)
      (Or.inl (by decide +kernel))).1 _ _ (eq_ok_of_returned (by decide +kernel)) hrejects).mpr
      ⟨⟨by decide +kernel, Or.inl (by decide +kernel)⟩, ?_⟩
    rintro qc ⟨⟩
    exact ⟨by decide +kernel, fun _ _ hlt => absurd hlt (by decide)⟩
  · refine ((rejected_unchanged_iff fourNodes 8 fourNodes.stale _ (by decide +kernel)
      (Or.inl (by decide +kernel))).2 _ _ (eq_ok_of_returned (by decide +kernel)) hrejects).mpr
      ⟨⟨by decide +kernel, Or.inl (by decide +kernel)⟩, Or.inr (by decide +kernel), ?_⟩
    rintro qc ⟨⟩
    exact ⟨by decide +kernel, fun _ hnot => absurd (by decide +kernel) hnot⟩

/-- A block of view 4 on the certified chain, made by node 2, which does not lead it. -/
def fourNodes.rogue : Block :=
  fourNodes.block 4 (fourNodes.certificate 3 (fourNodes.chain 2).id [2, 3, 4]) 2 []

/-- The leader's block of view 1, without its certificate. -/
def fourNodes.bare : Block := { fourNodes.chain 0 with qc := none }

/-- HotStuff rejects the block of the wrong leader after it has raised the highest
certificate and the lock, committed and pruned; Fast-HotStuff after it has stored it.
A block without certificate has ended the view before it is rejected. -/
theorem rejected_block_acts :
    (let s := Replica.new fourNodes "1" false |>.run fourNodes .hotStuff
      (fourNodes.timeouts 3 ++ deliverAll ((List.range 3).map fourNodes.chain))
    fourNodes.rogue.view ≤ s.pm.curView ∧
      fourNodes.election.isLeader fourNodes.rogue.proposer fourNodes.rogue.view = false ∧
      ∃ t, HotStuff.processBlock fourNodes 8 fourNodes.rogue s =
          .ok (some (.invalidLeader 4 "2")) t ∧
        s.highQC.view = 2 ∧ t.highQC.view = 3 ∧ s.preferredView = 0 ∧ t.preferredView = 2 ∧
        s.committedBlocks = [] ∧ t.committedBlocks = [fourNodes.chain 0] ∧
        s.bc.forrest.lowestLevel = 0 ∧ t.bc.forrest.lowestLevel = 1) ∧
    (let s := Replica.new fourNodes "1" false |>.run fourNodes .fhs (fourNodes.timeouts 1)
    fourNodes.stale.view ≤ s.pm.curView ∧
      fourNodes.election.isLeader fourNodes.stale.proposer fourNodes.stale.view = false ∧
      ∃ t, Fhs.processBlock fourNodes 8 fourNodes.stale s = .ok (some (.invalidLeader 2 "2")) t ∧
        s.bc.forrest.getVertex fourNodes.stale.id = none ∧
        t.bc.forrest.getVertex fourNodes.stale.id = some fourNodes.stale) ∧
    (let s := Replica.new fourNodes "1" false |>.run fourNodes .hotStuff
      [fourNodes.announcement 1 4]
    fourNodes.bare.view ≤ s.pm.curView ∧
      ∃ t, HotStuff.processBlock fourNodes 8 fourNodes.bare s = .ok (some .missingQC) t ∧
        s.pm.curView = 1 ∧ t.pm.curView = 2) := by
  refine ⟨⟨by decide +kernel, by decide +kernel, _, eq_ok_of_returned (by decide +kernel), ?_⟩,
    ⟨by decide +kernel, by decide +kernel, _, eq_ok_of_returned (by decide +kernel), ?_⟩,
    by decide +kernel, _, eq_ok_of_returned (by decide +kernel), ?_⟩
  · decide +kernel
  · decide +kernel
  · decide +kernel

end Bamboo
