import Bamboo.GoodView

/-!
# Blocks that arrive in time

What the three protocols do with the block of the current view when it comes to a
calm replica: its certificate is processed, the chain behind it is committed as
far as the rule of the protocol reaches, the block is stored and voted for.
-/
namespace Bamboo

/-- The replica after `if pm.GetCurView() < 1 { pm.AdvanceView(0) }`. -/
def Replica.wake (s : Replica) : Replica :=
  if s.pm.curView < 1 then { s with pm := s.pm.advanceView 0 } else s

theorem startView_eq (s : Replica) : startView s = .ok () s.wake := by
  unfold Replica.wake
  change (if s.pm.curView < 1 then (_ : Exec Unit) else _) s = _
  split_ifs <;> rfl

/-- A block that its leader has proposed on the chain. -/
structure Proposed (env : Env) (l : List Block) (b : Block) : Prop where
  leader : env.election.isLeader b.proposer b.view = true
  signature : Verifies env b.sig b.id b.proposer
  qc : ∃ qc, b.qc = some qc ∧ qc.Certifies env l

/-- The block has been received and stored since `s`, and nothing was sent. -/
structure Arrived (l : List Block) (b : Block) (s t : Replica) : Prop where
  pm : t.pm = s.wake.pm
  outbox : t.outbox = s.outbox
  entered : t.entered = s.entered
  block : (t.recivedBlock.lookup (viewOf l.length)).isSome

section TakeUp

variable {env : Env} {i c h : ℕ} {l : List Block} {b : Block} {s : Replica}
  {processBlock : Block → Exec (Option Err)}

/-- A block of the current view is taken up. -/
theorem Calm.takeUp (hs : Calm env i l c h (l.length + 1) s.wake)
    (hview : b.view = viewOf (l.length + 1)) (hsig : Verifies env b.sig b.id b.proposer) :
    Settles (fun _ => Bamboo.takeUp env processBlock b) s fun r t => r = true ∧
      Calm env i l c h (l.length + 1) t ∧ Arrived l b s t := by
  have hcur : ¬ s.wake.pm.curView < b.view := by
    rw [hs.curView, hview]
    exact Int64.lt_irrefl
  have hwake : s.wake.outbox = s.outbox ∧ s.wake.entered = s.entered := by
    unfold Replica.wake
    split_ifs <;> exact ⟨rfl, rfl⟩
  have hplace : b.view - 1 = viewOf l.length := by rw [hview, viewOf_succ_sub_one]
  unfold Bamboo.takeUp
  refine Settles.bind (m := fun _ => isBuffered env b) (Q := fun r t => r = false ∧
    t = { s.wake with recivedBlock := s.wake.recivedBlock.insert (b.view - 1) b }) ?_
    fun r t ht => ?_
  · unfold isBuffered
    refine Settles.bind (Settles.of_eq (startView_eq s) (Q := fun _ t => t = s.wake) rfl)
      fun _ t ht => ?_
    subst ht
    refine Settles.get_bind (Settles.bind (m := fun _ => checkSignature env b)
      (Q := fun _ t => t = s.wake) ?_ fun _ t ht => ?_)
    · unfold checkSignature
      exact Settles.get_bind (Settles.ite (fun _ => Settles.call_bind hsig (Settles.pure rfl))
        fun _ => Settles.pure rfl)
    · subst ht
      exact Settles.ite (fun hlt => absurd hlt hcur) fun _ => Settles.of_eq rfl ⟨rfl, rfl⟩
  · obtain ⟨rfl, rfl⟩ := ht
    simp only [Bool.false_eq_true, ↓reduceIte]
    refine Settles.bind (m := fun _ => processVMOAndBlock env processBlock b.view)
      (Q := fun _ t => t = { s.wake with
        recivedBlock := s.wake.recivedBlock.insert (b.view - 1) b }) ?_ fun _ t ht => ?_
    · unfold processVMOAndBlock
      refine Settles.get_bind ?_
      simp only [hs.vmos]
      exact Settles.pure rfl
    · subst ht
      refine Settles.of_eq rfl ⟨rfl, { hs with }, rfl, hwake.1, hwake.2, ?_⟩
      change ((s.wake.recivedBlock.insert (b.view - 1) b).lookup (viewOf l.length)).isSome
      rw [hplace, AList.lookup_insert]
      rfl

end TakeUp

/-! ## Certificates -/

section Certificates

variable {env : Env} {i c h v : ℕ} {l : List Block} {b : Block} {s : Replica} {qc : QC}

/-- Between two calm states of a replica only the lock, the certificate and the
committed blocks may change; the votes for the last block stay. -/
def StaysCalm (env : Env) (i : ℕ) (l : List Block) (c h v : ℕ) (s t : Replica) : Prop :=
  Calm env i l c h v t ∧ Inward s t ∧ t.sheet (tipID l) = s.sheet (tipID l)

/-- The last three blocks of a chain that is long enough. -/
theorem Straight.last_three {m : ℕ} (hm : l.length = m + 3) :
    ∃ g p b, l[m]? = some g ∧ l[m + 1]? = some p ∧ l[m + 2]? = some b :=
  ⟨l[m], l[m + 1], l[m + 2], by simp, by simp, by simp⟩

theorem Calm.hotStuff_lock (hl : Straight l) (hs : Calm env i l (l.length - 3) h v s)
    (hqc : qc.Certifies env l) (hle : l.length ≤ h) (hlt : h < 2 ^ 63) :
    Settles (fun _ => HotStuff.updatePreferredView qc) s fun r t => r = .ok () ∧
      StaysCalm env i l (l.length - 3) h v s t ∧ t.highQC = s.highQC := by
  have hcond : qc.view ≤ 2 ↔ l.length ≤ 2 := by
    rw [hqc.view, show (2 : View) = viewOf 2 from rfl, viewOf_le (by omega) (by norm_num)]
  unfold HotStuff.updatePreferredView
  refine Settles.ite (fun _ => Settles.pure ⟨rfl, ⟨hs, Inward.refl s, rfl⟩, rfl⟩) fun hlong => ?_
  rw [hcond] at hlong
  obtain ⟨m, hm⟩ : ∃ m, l.length = m + 3 := ⟨l.length - 3, by omega⟩
  obtain ⟨g, p, b, -, hp, hb⟩ := Straight.last_three hm
  have hforest := hs.forest
  have hblock : s.bc.getBlockByID qc.blockID = .ok b := by
    rw [hqc.blockID, Straight.tipID_eq hb hm, BlockChain.getBlockByID_ok]
    exact hforest.getVertex hb (by omega)
  have hparent : s.bc.getParentBlock qc.blockID = .ok (.ok p) := by
    rw [hqc.blockID, Straight.tipID_eq hb hm]
    exact BlockChain.getParentBlock_retained hl hforest hp hb (by omega)
  refine Settles.get_bind ?_
  simp only [hblock]
  refine Settles.call_bind hparent (Settles.of_eq rfl ⟨rfl, ⟨hs.raiseLock ?_, ?_, rfl⟩, rfl⟩)
  · rw [hl.view hp, viewOf_le (by omega) hlt]
    omega
  · exact ⟨rfl, rfl, rfl, rfl⟩

theorem Calm.hotStuff_commit (hl : Straight l) (hs : Calm env i l (l.length - 3) h v s)
    (hqc : qc.Certifies env l) :
    Settles (fun _ => HotStuff.checkCommit qc) s fun _ t =>
      StaysCalm env i l (l.length - 2) h v s t ∧ t.highQC = s.highQC := by
  have hlen := hl.length_lt
  have hcond : qc.view < 3 ↔ l.length < 3 := by
    rw [hqc.view, show (3 : View) = viewOf 3 from rfl, viewOf_lt hlen (by norm_num)]
  unfold HotStuff.checkCommit
  refine Settles.ite (fun hshort => Settles.pure ?_) fun hlong => ?_
  · rw [hcond] at hshort
    have hsame : l.length - 2 = l.length - 3 := by omega
    rw [hsame]
    exact ⟨⟨hs, Inward.refl s, rfl⟩, rfl⟩
  · rw [hcond] at hlong
    obtain ⟨m, hm⟩ : ∃ m, l.length = m + 3 := ⟨l.length - 3, by omega⟩
    obtain ⟨g, p, b, hg, hp, hb⟩ := Straight.last_three hm
    rw [hm, Nat.add_sub_cancel] at hs
    have hparent : s.bc.getParentBlock qc.blockID = .ok (.ok p) := by
      rw [hqc.blockID, Straight.tipID_eq hb hm]
      exact BlockChain.getParentBlock_retained hl hs.forest hp hb (by omega)
    have hgrand : s.bc.getParentBlock p.id = .ok (.ok g) :=
      BlockChain.getParentBlock_retained hl hs.forest hg hp (by omega)
    have hrule : HotStuff.commitRule s.bc qc = .ok (.ok (some g)) := by
      have hviews : g.view + 1 = p.view ∧ p.view + 1 = qc.view := by
        rw [hl.view hg, hl.view hp, hqc.view, hm, viewOf_add_one, viewOf_add_one]
        exact ⟨rfl, rfl⟩
      simp only [HotStuff.commitRule, hparent, hgrand, bind, Except.bind, hviews, and_self,
        ↓reduceIte]
      rfl
    refine Settles.get_bind (Settles.call_bind hrule ?_)
    refine Settles.bind (hs.commit hl hg (by omega) qc) fun r t ht => Settles.pure ?_
    rw [show l.length - 2 = m + 1 by omega]
    exact ⟨⟨ht.2.1, ht.2.2.1, ht.2.2.2.2⟩, ht.2.2.2.1⟩

/-- HotStuff commits the grandparent of the certified block. -/
theorem Calm.hotStuff_certificate (hl : Straight l) (hs : Calm env i l (l.length - 3) h v s)
    (hqc : qc.Certifies env l) (hle : l.length ≤ h) (hlt : h < 2 ^ 63) :
    Settles (fun _ => HotStuff.processCertificate env qc) s fun _ t =>
      StaysCalm env i l (l.length - 2) h v s t ∧ t.highQC = (s.raiseHighQC qc).highQC := by
  have hview : qc.view ≤ viewOf h := by
    rw [hqc.view, viewOf_le (by omega) hlt]
    exact hle
  unfold HotStuff.processCertificate
  refine Settles.get_bind (Settles.call_bind (hqc.verified s.toCore) ?_)
  simp only [↓reduceIte]
  refine Settles.bind (hs.hotStuff_lock hl hqc hle hlt) fun r t ht => ?_
  obtain ⟨rfl, ⟨ht, hinward, hsheet⟩, hhigh⟩ := ht
  refine Settles.bind (Settles.modify (Q := fun _ u => u = t.raiseHighQC qc) rfl) fun _ u hu => ?_
  subst hu
  refine ((ht.raiseHighQC hview).hotStuff_commit hl hqc).post fun _ u hu => ?_
  obtain ⟨⟨hu, hinward', hsheet'⟩, hhigh'⟩ := hu
  refine ⟨⟨hu, hinward.trans ⟨hinward'.pm, hinward'.outbox, hinward'.entered,
    hinward'.recivedBlock⟩, hsheet'.trans hsheet⟩, ?_⟩
  rw [hhigh']
  simp only [Replica.raiseHighQC, hhigh]

/-- Two-chain HotStuff only raises the lock to the parent of the certified block. -/
theorem Calm.tchs_certificate (hl : Straight l) (hs : Calm env i l c h v s)
    (hqc : qc.Certifies env l) (hc : c ≤ l.length - 1) (hle : l.length ≤ h) (hlt : h < 2 ^ 63) :
    Settles (fun _ => Tchs.processCertificate env qc) s fun _ t =>
      StaysCalm env i l c h v s t ∧ t.highQC = (s.raiseHighQC qc).highQC := by
  have hview : qc.view ≤ viewOf h := by
    rw [hqc.view, viewOf_le (by omega) hlt]
    exact hle
  have hcond : qc.view < 2 ↔ l.length < 2 := by
    rw [hqc.view, show (2 : View) = viewOf 2 from rfl, viewOf_lt (by omega) (by norm_num)]
  unfold Tchs.processCertificate
  refine Settles.get_bind (Settles.call_bind (hqc.verified s.toCore) ?_)
  simp only [↓reduceIte]
  refine Settles.bind (m := fun _ => Tchs.updatePreferredView qc) (Q := fun r t => r = .ok () ∧
    StaysCalm env i l c h v s t ∧ t.highQC = s.highQC) ?_ fun r t ht => ?_
  · unfold Tchs.updatePreferredView
    refine Settles.ite (fun _ => Settles.pure ⟨rfl, ⟨hs, Inward.refl s, rfl⟩, rfl⟩) fun hlong => ?_
    rw [hcond] at hlong
    obtain ⟨m, hm⟩ : ∃ m, l.length = m + 2 := ⟨l.length - 2, by omega⟩
    have hp : l[m]? = some l[m] := by simp
    have hb : l[m + 1]? = some l[m + 1] := by simp
    have hparent : s.bc.getParentBlock qc.blockID = .ok (.ok l[m]) := by
      rw [hqc.blockID, Straight.tipID_eq hb hm]
      exact BlockChain.getParentBlock_retained hl hs.forest hp hb (by omega)
    refine Settles.get_bind (Settles.call_bind hparent
      (Settles.of_eq rfl ⟨rfl, ⟨hs.raiseLock ?_, ⟨rfl, rfl, rfl, rfl⟩, rfl⟩, rfl⟩))
    rw [hl.view hp, viewOf_le (by omega) hlt]
    omega
  · obtain ⟨rfl, ⟨ht, hinward, hsheet⟩, hhigh⟩ := ht
    refine Settles.modify ⟨⟨ht.raiseHighQC hview, ?_, hsheet⟩, ?_⟩
    · exact ⟨hinward.pm, hinward.outbox, hinward.entered, hinward.recivedBlock⟩
    · simp only [Replica.raiseHighQC, hhigh]

/-- Fast-HotStuff does not look at the certificate of an earlier view. -/
theorem Calm.fhs_stale (hs : Calm env i l c h v s) (hqc : qc.view < viewOf v) :
    Settles (fun _ => Fhs.processCertificate env qc) s fun _ t => t = s := by
  unfold Fhs.processCertificate
  refine Settles.get_bind ?_
  rw [hs.curView]
  exact Settles.ite (fun _ => Settles.pure rfl) fun hnot => absurd hqc hnot

/-- Of a certificate of the current view it takes the view as its lock. -/
theorem Calm.fhs_certificate (hs : Calm env i l c h v s) (hqc : qc.Certifies env l)
    (hv : v = l.length) (hc : c ≤ l.length) (hle : l.length ≤ h) (hlt : h < 2 ^ 63) :
    Settles (fun _ => Fhs.processCertificate env qc) s fun _ t =>
      StaysCalm env i l c h v s t ∧ t.highQC = (s.raiseHighQC qc).highQC := by
  have hview : qc.view ≤ viewOf h := by
    rw [hqc.view, viewOf_le (by omega) hlt]
    exact hle
  have hcond : qc.view < 2 ↔ l.length < 2 := by
    rw [hqc.view, show (2 : View) = viewOf 2 from rfl, viewOf_lt (by omega) (by norm_num)]
  have hcur : ¬ qc.view < s.pm.curView := by
    rw [hs.curView, hqc.view, hv]
    exact Int64.lt_irrefl
  unfold Fhs.processCertificate
  refine Settles.get_bind (Settles.ite (fun heq => absurd heq hcur) fun _ => ?_)
  refine Settles.get_bind (Settles.call_bind (hqc.verified s.toCore) ?_)
  simp only [↓reduceIte]
  refine Settles.bind (m := fun _ => Fhs.updatePreferredView qc) (Q := fun r t => r = .ok () ∧
    StaysCalm env i l c h v s t ∧ t.highQC = s.highQC) ?_ fun r t ht => ?_
  · unfold Fhs.updatePreferredView
    refine Settles.ite (fun _ => Settles.pure ⟨rfl, ⟨hs, Inward.refl s, rfl⟩, rfl⟩) fun hlong => ?_
    rw [hcond] at hlong
    obtain ⟨m, hm⟩ : ∃ m, l.length = m + 1 := ⟨l.length - 1, by omega⟩
    have hb : l[m]? = some l[m] := by simp
    have hblock : s.bc.getBlockByID qc.blockID = .ok l[m] := by
      rw [hqc.blockID, Straight.tipID_eq hb hm, BlockChain.getBlockByID_ok]
      exact hs.forest.getVertex hb (by omega)
    refine Settles.get_bind ?_
    simp only [hblock]
    exact Settles.of_eq rfl ⟨rfl, ⟨hs.raiseLock hview, ⟨rfl, rfl, rfl, rfl⟩, rfl⟩, rfl⟩
  · obtain ⟨rfl, ⟨ht, hinward, hsheet⟩, hhigh⟩ := ht
    refine Settles.modify ⟨⟨ht.raiseHighQC hview, ?_, hsheet⟩, ?_⟩
    · exact ⟨hinward.pm, hinward.outbox, hinward.entered, hinward.recivedBlock⟩
    · simp only [Replica.raiseHighQC, hhigh]

/-- Both commit the parent of the certified block when its certificate comes in a
block of the next view. -/
theorem Calm.twoChain_commit (hl : Straight (l ++ [b]))
    (hs : Calm env i (l ++ [b]) (l.length - 2) h v s) (hqc : qc.Certifies env l) :
    Settles (fun _ => TwoChain.checkCommit b qc) s fun r t => r = none ∧
      StaysCalm env i (l ++ [b]) (l.length - 1) h v s t ∧ t.highQC = s.highQC := by
  obtain ⟨-, hb, hlen⟩ := Straight.snoc_iff.mp hl
  have hcond : 2 ≤ qc.view ∧ qc.view + 1 = b.view ↔ 2 ≤ l.length := by
    rw [hqc.view, hb.view, viewOf_add_one, show (2 : View) = viewOf 2 from rfl,
      viewOf_le (by norm_num) (by omega)]
    simp
  unfold TwoChain.checkCommit
  refine Settles.ite (fun hlong => ?_) fun hshort => Settles.pure ?_
  · rw [hcond] at hlong
    obtain ⟨m, hm⟩ : ∃ m, l.length = m + 2 := ⟨l.length - 2, by omega⟩
    have hp : (l ++ [b])[m]? = some l[m] := by
      rw [List.getElem?_append_left (by omega)]
      simp
    have htip : l[m + 1]? = some l[m + 1] := by simp
    have hc : (l ++ [b])[m + 1]? = some l[m + 1] := by
      rw [List.getElem?_append_left (by omega)]
      exact htip
    rw [hm, Nat.add_sub_cancel] at hs
    have hparent : s.bc.getParentBlock qc.blockID = .ok (.ok l[m]) := by
      rw [hqc.blockID, Straight.tipID_eq htip hm]
      exact BlockChain.getParentBlock_retained hl hs.forest hp hc (by omega)
    have hrule : TwoChain.commitRule s.bc qc = .ok (.ok (some l[m])) := by
      have hview : l[m].view + 1 = qc.view := by
        rw [hl.view hp, hqc.view, hm, viewOf_add_one]
      simp only [TwoChain.commitRule, hparent, bind, Except.bind, hview, ↓reduceIte]
      rfl
    refine Settles.get_bind (Settles.call_bind hrule ?_)
    have hlast : m + 1 < (l ++ [b]).length := by
      simp only [List.length_append, List.length_singleton]
      omega
    refine Settles.bind (hs.commit hl hp hlast qc) fun r t ht => ?_
    obtain ⟨rfl, hcalm, hinward, hhigh, hsheet⟩ := ht
    rw [show l.length - 1 = m + 1 by omega]
    exact Settles.pure ⟨rfl, ⟨hcalm, hinward, hsheet⟩, hhigh⟩
  · rw [hcond] at hshort
    have hsame : l.length - 1 = l.length - 2 := by omega
    rw [hsame]
    exact ⟨rfl, ⟨hs, Inward.refl s, rfl⟩, rfl⟩

end Certificates

/-- The three protocols deal with the certificate they have made. -/
theorem punctual (env : Env) (alg : Algorithm) : Punctual env alg where
  keeps s vmo hs := by
    have hkeep : Settles (fun _ => (do
        modify fun s => { s with recivedVMO := s.recivedVMO.insert (vmo.view - 1) vmo }
        startView : Exec Unit)) s
          fun _ t => t = { s with recivedVMO := s.recivedVMO.insert (vmo.view - 1) vmo } := by
      refine Settles.bind (Settles.modify (Q := fun _ t => t = _) rfl) fun _ t ht => ?_
      subst ht
      exact Settles.of_eq (startView_eq _) (if_neg hs)
    have hstart : Settles (fun _ => startView) s fun _ t => t = s :=
      Settles.of_eq (startView_eq s) (if_neg hs)
    cases alg with
    | hotStuff => exact hkeep
    | tchs => exact Settles.bind hstart fun _ t ht => by subst ht; exact hkeep
    | fhs => exact Settles.bind hstart fun _ t ht => by subst ht; exact hkeep
  announced s qc hcur := by
    cases alg with
    | hotStuff => exact Settles.get_bind (Settles.pure ⟨hcur, rfl⟩)
    | tchs => exact Settles.get_bind (Settles.pure ⟨hcur, rfl⟩)
    | fhs => exact Settles.pure ⟨rfl, rfl⟩
  certificate {i l b s qc} hl hs hqc := by
    have hlen := (Straight.snoc_iff.mp hl).2.2
    have hchain : (l ++ [b]).length = l.length + 1 := by simp
    have hhigh : (s.raiseHighQC qc).highQC = qc := by
      apply hs.raiseHighQC_eq
      rw [hqc.view, hchain, viewOf_lt (by omega) hlen]
      omega
    have hs' := hs.mono (Nat.le_succ l.length) hlen
    have hdone : Settles (fun _ => (Safety.rules env alg).processCertificate qc) s fun _ t =>
        StaysCalm env i (l ++ [b]) (l.length - 1) (l.length + 1) (l.length + 1) s t ∧
          t.highQC = (s.raiseHighQC qc).highQC := by
      cases alg with
      | hotStuff =>
        have hbefore : l.length + 1 - Algorithm.lag .hotStuff = (l ++ [b]).length - 3 := by
          rw [hchain]
          rfl
        have hafter : l.length - 1 = (l ++ [b]).length - 2 := by omega
        rw [hbefore] at hs'
        rw [hafter]
        exact hs'.hotStuff_certificate hl hqc (by omega) hlen
      | tchs => exact hs'.tchs_certificate hl hqc (by omega) (by omega) hlen
      | fhs => exact hs'.fhs_certificate hqc hchain.symm (by omega) (by omega) hlen
    refine hdone.post fun _ t ht => ?_
    rw [hhigh] at ht
    exact ⟨ht.1.1, ht.1.2.1, ht.2, by simpa using ht.1.2.2⟩

/-! ## Blocks -/

section Blocks

variable {env : Env} {alg : Algorithm} {i c v : ℕ} {l : List Block} {b : Block} {s : Replica}
  {processBlock : Block → Exec (Option Err)}

theorem Arrived.inward {t u : Replica} (h : Arrived l b s t) (h' : Inward t u) :
    Arrived l b s u where
  pm := h'.pm.trans h.pm
  outbox := h'.outbox.trans h.outbox
  entered := h'.entered.trans h.entered
  block := by
    rw [h'.recivedBlock]
    exact h.block

/-- The proposer skips its own certificate, any other replica processes it. -/
theorem Calm.processBlockQC (c' : ℕ) {h : ℕ} {rules : Rules} {qc : QC} (hs : Calm env i l c h v s)
    (hview : qc.view ≤ viewOf h) (hown : b.proposer = newNodeID i → c = c')
    (hcert : b.proposer ≠ newNodeID i → ∀ t, Calm env i l c h v t →
      Settles (fun _ => rules.processCertificate qc) t fun _ u => StaysCalm env i l c' h v t u) :
    Settles (fun _ => Bamboo.processBlockQC rules b qc) s fun _ t =>
      StaysCalm env i l c' h v s t := by
  have hraised := hs.raiseHighQC hview
  unfold Bamboo.processBlockQC
  refine Settles.bind (Settles.modify (Q := fun _ t => t = s.raiseHighQC qc) rfl) fun _ t ht => ?_
  subst ht
  refine Settles.get_bind (Settles.ite (fun hne => ?_) fun heq => Settles.pure ?_)
  · rw [hraised.id] at hne
    refine (hcert hne _ hraised).post fun _ u hu => ⟨hu.1, ?_, hu.2.2⟩
    exact ⟨hu.2.1.pm, hu.2.1.outbox, hu.2.1.entered, hu.2.1.recivedBlock⟩
  · rw [hraised.id, not_not] at heq
    rw [← hown heq]
    exact ⟨hraised, ⟨rfl, rfl, rfl, rfl⟩, rfl⟩

theorem Calm.processBufferedQC {h : ℕ} {rules : Rules} (hs : Calm env i l c h v s) (fuel : ℕ) :
    Settles (fun _ => Bamboo.processBufferedQC env rules processBlock fuel b) s
      fun _ t => t = s := by
  unfold Bamboo.processBufferedQC
  refine Settles.get_bind ?_
  rw [hs.qcs, AList.lookup_empty]
  exact Settles.pure rfl

/-- The parent's view is not below the lock. -/
theorem Calm.parent_view (hl : Straight (l ++ [b])) (hs : Calm env i (l ++ [b]) c l.length v s)
    (hc : c ≤ l.length) (hpos : 0 < l.length) :
    ∃ p, s.bc.getParentBlock b.id = .ok (.ok p) ∧ ¬ p.view < s.preferredView := by
  obtain ⟨m, hm⟩ : ∃ m, l.length = m + 1 := ⟨l.length - 1, by omega⟩
  have hp : (l ++ [b])[m]? = some l[m] := by
    rw [List.getElem?_append_left (by omega)]
    simp
  have hb : (l ++ [b])[m + 1]? = some b := by
    rw [← hm]
    simp
  refine ⟨l[m], BlockChain.getParentBlock_retained hl hs.forest hp hb (by omega), ?_⟩
  rw [hl.view hp, Int64.not_lt, ← hm]
  exact hs.lock

theorem Calm.hotStuff_votes (hl : Straight (l ++ [b]))
    (hs : Calm env i (l ++ [b]) c l.length v s) (hc : c ≤ l.length) :
    HotStuff.votingRule s.toCore b = .ok (.ok true) := by
  obtain ⟨-, hb, hlen⟩ := Straight.snoc_iff.mp hl
  unfold HotStuff.votingRule
  by_cases hshort : b.view ≤ 2
  · rw [if_pos hshort]
  · rw [if_neg hshort]
    rw [hb.view, show (2 : View) = viewOf 2 from rfl, viewOf_le hlen (by norm_num)] at hshort
    obtain ⟨p, hparent, hlock⟩ := hs.parent_view hl hc (by omega)
    simp only [hparent, bind, Except.bind, pure, Except.pure, hlock, not_false_eq_true, decide_true]

theorem Calm.fhs_votes (hl : Straight (l ++ [b]))
    (hs : Calm env i (l ++ [b]) c l.length v s) (hc : c ≤ l.length) :
    Fhs.votingRule s.toCore b = .ok (.ok true) := by
  obtain ⟨-, hb, hlen⟩ := Straight.snoc_iff.mp hl
  unfold Fhs.votingRule
  by_cases hshort : b.view ≤ 2
  · rw [if_pos hshort]
  · rw [if_neg hshort]
    rw [hb.view, show (2 : View) = viewOf 2 from rfl, viewOf_le hlen (by norm_num)] at hshort
    obtain ⟨p, hparent, hlock⟩ := hs.parent_view hl hc (by omega)
    have hlast : ¬ b.view ≤ s.lastVotedView := by
      rw [hs.lastVoted, hb.view, show (0 : View) = viewOf 0 from rfl, viewOf_le hlen (by norm_num)]
      omega
    simp only [hparent, bind, Except.bind, pure, Except.pure, hlast, hlock, or_self,
      not_false_eq_true, decide_true]

/-- What `ProcessBlock` still has to do when a replica that knows the chain has
stored the block, is casting the vote; nothing is left after it. -/
def VotesFor (env : Env) (alg : Algorithm) (i : ℕ) (l : List Block) (b : Block) (fuel : ℕ)
    (s : Replica) (Q : Replica → Prop) : Prop :=
  ∀ t, Calm env i (l ++ [b]) (l.length + 1 - alg.lag) l.length (l.length + 1) t →
    Arrived l b s t → t.sheet b.id = ∅ →
    Settles
      (fun _ => castVote env (Safety.rules env alg) (Safety.processBlock env alg fuel) fuel b) t
      fun _ u => u.bufferedBlocks = ∅ ∧ Q u

theorem TwoChain.takeUpNext_nothing {Q : Replica → Prop} (hs : s.bufferedBlocks = ∅ ∧ Q s) :
    Settles (fun _ => TwoChain.takeUpNext processBlock b.view) s fun _ t => Q t := by
  unfold TwoChain.takeUpNext
  refine Settles.get_bind ?_
  rw [hs.1, AList.lookup_empty]
  exact Settles.pure hs.2

section ProcessBlock

variable {Q : Replica → Prop} {fuel : ℕ} (hl : Straight (l ++ [b]))
  (hs : Calm env i l c l.length (l.length + 1) s.wake) (hb : Proposed env l b)
  (hown : b.proposer = newNodeID i → c = l.length - 2)
include hl hs hb hown

theorem Calm.hotStuff_processBlock (hother : b.proposer ≠ newNodeID i → c = l.length - 3)
    (hvote : VotesFor env .hotStuff i l b fuel s Q) :
    Settles (fun _ => HotStuff.processBlock env (fuel + 1) b) s fun _ u => Q u := by
  obtain ⟨hl', hext, hlen⟩ := Straight.snoc_iff.mp hl
  obtain ⟨qc, hqc, hcert⟩ := hb.qc
  have hview : qc.view ≤ viewOf l.length := by
    rw [hcert.view]
    exact Int64.le_refl _
  unfold HotStuff.processBlock
  refine Settles.bind (hs.takeUp hext.view hb.signature) fun r t ht => ?_
  obtain ⟨rfl, hcalm, harrived⟩ := ht
  simp only [↓reduceIte, hqc]
  refine Settles.bind (hcalm.processBlockQC (l.length - 2) hview hown fun hne t ht => ?_)
    fun _ t ht => ?_
  · rw [hother hne] at ht
    exact (ht.hotStuff_certificate hl' hcert (Nat.le_refl _) (by omega)).post fun _ u hu => hu.1
  obtain ⟨hcalm', hinward, -⟩ := ht
  simp only [hb.leader, Bool.true_eq_false, ↓reduceIte]
  refine Settles.bind (hcalm'.addBlock hl) fun _ u hu => ?_
  obtain ⟨hstored, hinward', -, hsheet⟩ := hu
  refine Settles.bind (hstored.processBufferedQC fuel) fun _ w hw => ?_
  subst hw
  refine Settles.get_bind (Settles.call_bind (hstored.hotStuff_votes hl (by omega)) ?_)
  refine Settles.bind (hvote w ?_ ((harrived.inward hinward).inward hinward') hsheet)
    fun _ x hx => ?_
  · have hcount : l.length + 1 - Algorithm.lag .hotStuff = l.length - 2 := rfl
    rw [hcount]
    exact hstored
  · unfold HotStuff.takeUpNext
    refine Settles.get_bind ?_
    rw [hx.1, AList.lookup_empty]
    exact Settles.pure hx.2

theorem Calm.tchs_processBlock (hother : b.proposer ≠ newNodeID i → c = l.length - 2)
    (hvote : VotesFor env .tchs i l b fuel s Q) :
    Settles (fun _ => Tchs.processBlock env (fuel + 1) b) s fun _ u => Q u := by
  obtain ⟨hl', hext, hlen⟩ := Straight.snoc_iff.mp hl
  obtain ⟨qc, hqc, hcert⟩ := hb.qc
  have hview : qc.view ≤ viewOf l.length := by
    rw [hcert.view]
    exact Int64.le_refl _
  unfold Tchs.processBlock
  refine Settles.bind (hs.takeUp hext.view hb.signature) fun r t ht => ?_
  obtain ⟨rfl, hcalm, harrived⟩ := ht
  simp only [↓reduceIte, hqc]
  refine Settles.bind (hcalm.processBlockQC (l.length - 2) hview hown fun hne t ht => ?_)
    fun _ t ht => ?_
  · rw [hother hne] at ht
    exact (ht.tchs_certificate hl' hcert (by omega) (Nat.le_refl _) (by omega)).post
      fun _ u hu => hu.1
  obtain ⟨hcalm', hinward, -⟩ := ht
  simp only [hb.leader, Bool.true_eq_false, ↓reduceIte]
  refine Settles.bind (hcalm'.addBlock hl) fun _ u hu => ?_
  obtain ⟨hstored, hinward', -, hsheet⟩ := hu
  refine Settles.bind (hstored.twoChain_commit hl hcert) fun r w hw => ?_
  obtain ⟨rfl, ⟨hdone, hinward'', hsheet'⟩, -⟩ := hw
  refine Settles.bind (hdone.processBufferedQC fuel) fun _ x hx => ?_
  subst hx
  refine Settles.get_bind (Settles.call_bind (rfl : Tchs.votingRule x.toCore b = _) ?_)
  rw [tipID_snoc, hsheet] at hsheet'
  refine Settles.bind (hvote x ?_ (((harrived.inward hinward).inward hinward').inward hinward'')
    hsheet') fun _ y hy => ?_
  · have hcount : l.length + 1 - Algorithm.lag .tchs = l.length - 1 := rfl
    rw [hcount]
    exact hdone
  · exact TwoChain.takeUpNext_nothing hy

theorem Calm.fhs_processBlock (hother : b.proposer ≠ newNodeID i → c = l.length - 2)
    (hvote : VotesFor env .fhs i l b fuel s Q) :
    Settles (fun _ => Fhs.processBlock env (fuel + 1) b) s fun _ u => Q u := by
  obtain ⟨hl', hext, hlen⟩ := Straight.snoc_iff.mp hl
  obtain ⟨qc, hqc, hcert⟩ := hb.qc
  have hview : qc.view ≤ viewOf l.length := by
    rw [hcert.view]
    exact Int64.le_refl _
  have hc : c = l.length - 2 := by
    by_cases heq : b.proposer = newNodeID i
    · exact hown heq
    · exact hother heq
  unfold Fhs.processBlock
  refine Settles.bind (hs.takeUp hext.view hb.signature) fun r t ht => ?_
  obtain ⟨rfl, hcalm, harrived⟩ := ht
  simp only [↓reduceIte]
  refine Settles.bind (hcalm.addBlock hl) fun _ u hu => ?_
  obtain ⟨hstored, hinward, -, hsheet⟩ := hu
  refine Settles.get_bind (Settles.call_bind (hstored.fhs_votes hl (by omega)) ?_)
  simp only [hqc]
  refine Settles.bind (hstored.processBlockQC (l.length - 2) hview (fun _ => hc)
    fun hne t ht => ?_) fun _ w hw => ?_
  · have hstale : qc.view < viewOf (l.length + 1) := by
      rw [hcert.view, viewOf_lt (by omega) hlen]
      omega
    refine (ht.fhs_stale hstale).post fun _ u hu => ?_
    rw [hu, ← hc]
    exact ⟨ht, Inward.refl t, rfl⟩
  obtain ⟨hcalm', hinward', hsheet'⟩ := hw
  simp only [hb.leader, Bool.true_eq_false, ↓reduceIte]
  refine Settles.bind (hcalm'.twoChain_commit hl hcert) fun r x hx => ?_
  obtain ⟨rfl, ⟨hdone, hinward'', hsheet''⟩, -⟩ := hx
  refine Settles.bind (hdone.processBufferedQC fuel) fun _ y hy => ?_
  subst hy
  rw [tipID_snoc, hsheet] at hsheet'
  rw [tipID_snoc, hsheet'] at hsheet''
  refine Settles.bind (hvote y ?_ (((harrived.inward hinward).inward hinward').inward hinward'')
    hsheet'') fun _ z hz => ?_
  · have hcount : l.length + 1 - Algorithm.lag .fhs = l.length - 1 := rfl
    rw [hcount]
    exact hdone
  · exact TwoChain.takeUpNext_nothing hz

theorem Calm.safety_processBlock (hother : b.proposer ≠ newNodeID i → c = l.length - alg.lag)
    (hvote : VotesFor env alg i l b fuel s Q) :
    Settles (fun _ => Safety.processBlock env alg (fuel + 1) b) s fun _ u => Q u := by
  cases alg with
  | hotStuff => exact Calm.hotStuff_processBlock hl hs hb hown hother hvote
  | tchs => exact Calm.tchs_processBlock hl hs hb hown hother hvote
  | fhs => exact Calm.fhs_processBlock hl hs hb hown hother hvote

end ProcessBlock

end Blocks

end Bamboo
