import Bamboo.Byzantine

/-!
# Agreement of HotStuff

Of the blocks that a correct node signs, a later one is of a larger view, and its
certificate is not below what the node was locked on when it signed the earlier
one. With that, a block that is committed by three blocks in consecutive views is
an ancestor of every block that is backed from its view on.
-/
namespace Bamboo

open Relation Stepwise

/-- The parent that HotStuff's voting rule has found. -/
theorem votingRule_parent {core : Core} {b : Block}
    (h : HotStuff.votingRule core b = .ok (.ok true)) (hview : 2 < b.view) :
    ∃ p, core.bc.getParentBlock b.id = .ok (.ok p) ∧ core.preferredView ≤ p.view := by
  have hhigh : ¬ b.view ≤ 2 := by
    rw [Int64.not_le]
    exact hview
  unfold HotStuff.votingRule at h
  rw [if_neg hhigh] at h
  cases hp : core.bc.getParentBlock b.id with
  | error f => rw [hp] at h; cases h
  | ok r =>
    cases r with
    | error e => rw [hp] at h; cases h
    | ok p =>
      refine ⟨p, rfl, ?_⟩
      simpa [hp, bind, Except.bind, pure, Except.pure] using h

/-- Up to a view of at least 3 nothing wraps around. -/
theorem consecutive_views {g p v : View} (hg : g + 1 = p) (hp : p + 1 = v) (hv : ¬ v < 3) :
    p.toInt + 1 = v.toInt ∧ p.toInt = g.toInt + 1 ∧ 2 < v := by
  have hthree : (3 : View).toInt ≤ v.toInt := Int64.le_iff_toInt_le.mp (Int64.not_lt.mp hv)
  have hlit : (3 : View).toInt = 3 ∧ (2 : View).toInt = 2 := ⟨rfl, rfl⟩
  have hpv : v.toInt = p.toInt + 1 := by
    rw [← hp]
    apply toInt_add_one
    rw [hp, Int64.le_iff_toInt_le]
    omega
  have hgp : p.toInt = g.toInt + 1 := by
    rw [← hg]
    apply toInt_add_one
    rw [hg, Int64.le_iff_toInt_le]
    omega
  refine ⟨hpv.symm, hgp, ?_⟩
  rw [Int64.lt_iff_toInt_lt]
  omega

section

variable {env : Env} {byz : Finset ℕ} {M : Meaning} {moves : List Move}

/-- A certificate for a block that fits bears its view, and the block is backed. -/
theorem Certifies.of_block {w : World} {q : QC} {b : Block} (h : Certifies env byz M w q)
    (hb : b.Fits M) (hid : b.id = q.blockID) : Backed env byz w b.id ∧ q.view = b.view := by
  rcases h with rfl | ⟨hbacked, hview⟩
  · exact absurd hid hb.named
  · rw [hb.view, hid]
    exact ⟨hbacked, hview⟩

/-- How two events of a node are related, of which `e'` is the earlier one. -/
structure SignedBefore (e' e : Event) : Prop where
  above : ∀ b ∈ e.signed, ∀ b' ∈ e'.signed, b'.view < b.view ∨ b'.id = b.id
  lock : e'.core.preferredView ≤ e.core.preferredView
  highQC : e'.core.highQC.view ≤ e.core.highQC.view

variable (hfeas : Feasible env byz moves) (hcare : Careful env byz M moves)
include hfeas hcare

theorem signed_in_order {i : ℕ} (hi : i ∈ correctNodes env byz) :
    ((World.attacked env moves).nodes i).trace.Pairwise fun e e' => SignedBefore e' e := by
  have hreach := attacked_deliverable hfeas hcare i
  have hsteps := atEach_iff.mp (hcare.steps i hi)
  have hvoted : AtEach (fun e past => ∀ b ∈ e.voted, ∀ e' ∈ past, ∀ b' ∈ e'.signed,
      b'.view < b.view ∨ b'.id = b.id) ((World.attacked env moves).nodes i).trace := by
    apply hreach.atEach_voted
    · intro b e hvote hprop b' hb'
      cases e with
      | vote core c v => cases hvote
      | propose core c => cases hprop
      | _ => cases hb'
    · refine atEach_iff.mpr fun recent e past hsplit b hb => ?_
      exact ((hsteps recent e past hsplit).1 b hb).2
  refine AtEach.pairwise (atEach_iff.mpr fun recent e past hsplit e' he' => ?_)
  obtain ⟨s, hs, rfl, hcore, -⟩ := hreach.event hsplit
  obtain ⟨hlock, hhigh⟩ := hs.rising e' he'
  refine ⟨?_, hcore ▸ hlock, hcore ▸ hhigh⟩
  intro b hb
  cases e with
  | vote core c v => exact atEach_iff.mp hvoted recent _ _ hsplit b hb e' he'
  | propose core c => exact ((hsteps recent _ _ hsplit).2 b hb).2.2 e' he'
  | _ => cases hb

theorem signed_comparable {i : ℕ} (hi : i ∈ correctNodes env byz) {e e' : Event}
    (he : e ∈ ((World.attacked env moves).nodes i).trace)
    (he' : e' ∈ ((World.attacked env moves).nodes i).trace) (hne : e ≠ e') :
    SignedBefore e' e ∨ SignedBefore e e' :=
  pairwise_comparable (signed_in_order hfeas hcare hi) he he' hne

variable (hn : env.n < 2 ^ 63)
include hn

/-- What a correct node signs fits, and its certificate is for a backed block. -/
theorem signed_fits {i : ℕ} (hi : i ∈ correctNodes env byz) {e : Event}
    (he : e ∈ ((World.attacked env moves).nodes i).trace) {b : Block} (hb : b ∈ e.signed) :
    b.Fits M ∧ (World.attacked env moves).Seen env b ∧
      ∀ q ∈ b.qc, Certifies env byz M (World.attacked env moves) q := by
  have hreach := attacked_deliverable hfeas hcare i
  have hrange := (mem_correctNodes.mp hi).1
  cases e with
  | vote core c v =>
    cases hb
    obtain ⟨s, recent, hs, hsplit, -, ⟨core₀, qc, hguard⟩, -⟩ := hreach.mem he
    have hhand := inHand_mem hguard.hand
    obtain ⟨s₀, -, -, -, -, hfit, hcert⟩ := hs.mem hhand
    have hin := (suffix_of_split hsplit).subset hhand
    exact ⟨hfit, ⟨_, World.mem_events.mpr ⟨i, hrange, hin⟩, Or.inl rfl⟩,
      fun q hq => (hcert q hq).2⟩
  | propose core c =>
    cases hb
    obtain ⟨recent, past, hsplit⟩ := List.mem_iff_append.mp he
    have hfit := ((atEach_iff.mp (hcare.steps i hi) recent _ past hsplit).2 b rfl).1
    obtain ⟨q, hq, -, -, hheld⟩ := hreach.proposed he
    refine ⟨hfit, ⟨_, World.mem_events.mpr ⟨i, hrange, he⟩, Or.inr rfl⟩, fun q' hq' => ?_⟩
    obtain rfl : q' = q := Option.some.inj (hq'.symm.trans hq)
    exact held_certifies hfeas hcare hi hn hheld
  | _ => cases hb

/-- When a correct node votes above view 2, the parent is stored, of the view of
the certificate and not below the lock. -/
theorem voted_parent {i : ℕ} (hi : i ∈ correctNodes env byz) {core : Core} {b : Block} {v : Vote}
    (he : .vote core b v ∈ ((World.attacked env moves).nodes i).trace) {q : QC} (hq : q ∈ b.qc)
    (hview : 2 < b.view) :
    ∃ p, core.bc.forrest.getVertex q.blockID = some p ∧
      (deliverable env byz M moves i).block p ∧ p.id = q.blockID ∧ p.view = q.view ∧
      core.preferredView ≤ p.view := by
  have hreach := attacked_deliverable hfeas hcare i
  obtain ⟨hfit, -, hcert⟩ := signed_fits hfeas hcare hn hi he rfl
  obtain ⟨s, recent, hs, -, hcore, ⟨core₀, qc, hguard⟩, -⟩ := hreach.mem he
  cases hcore
  obtain ⟨p, hparent, hlock⟩ := votingRule_parent hguard.rule.1 hview
  obtain ⟨b', hb', hp⟩ := BlockChain.getParentBlock_ok hparent
  obtain ⟨hbid, hbk⟩ := hs.stored hb'
  obtain ⟨hpid, hpk⟩ := hs.stored hp
  obtain ⟨q', hq', hprev, -⟩ := hfit.certificate
  obtain rfl : q' = q := Option.some.inj (hq'.symm.trans hq)
  have hsame : b'.prevID = q'.blockID := (hbk.1.same hfit hbid).2.trans hprev
  rw [hsame] at hp hpid
  exact ⟨p, hp, hpk, hpid, ((hcert q' hq).of_block hpk.1 hpid).2.symm, hlock⟩

/-- What a correct node has locked on when it signs a block. -/
theorem signer_locked {i : ℕ} (hi : i ∈ correctNodes env byz) {e : Event}
    (he : e ∈ ((World.attacked env moves).nodes i).trace) {b : Block} (hb : b ∈ e.signed) {q : QC}
    (hq : q ∈ b.qc) :
    q.view ≤ e.core.highQC.view ∧ (2 < q.view → ∃ p, (deliverable env byz M moves i).block p ∧
      p.id = q.blockID ∧ ∃ qp ∈ p.qc, qp.view ≤ e.core.preferredView) := by
  have hreach := attacked_deliverable hfeas hcare i
  obtain ⟨recent, past, hsplit⟩ := List.mem_iff_append.mp he
  obtain ⟨s, hs, rfl, hcore, hrec⟩ := hreach.event hsplit
  have hsteps := atEach_iff.mp (hcare.steps i hi)
  cases e with
  | vote core c v =>
    cases hb
    cases hcore
    obtain ⟨⟨core₀, qc, hguard⟩, -⟩ := hrec
    obtain rfl : q = qc := Option.some.inj (hq.symm.trans hguard.certificate)
    refine ⟨hguard.highQC, fun hlt => ?_⟩
    obtain ⟨hfit, -, -⟩ := signed_fits hfeas hcare hn hi he rfl
    obtain ⟨q', hq', -, hlow⟩ := hfit.certificate
    obtain rfl : q' = q := Option.some.inj (hq'.symm.trans hq)
    obtain ⟨p, hp, hpk, hpid, -, -⟩ :=
      voted_parent hfeas hcare hn hi he hq (Int64.lt_trans hlt hlow)
    have hlocked : Locked s.toCore b := by
      refine hreach.locked (deliverable_wellFormed i) hsplit fun core' hhandle => ?_
      obtain ⟨recent', past', hsplit'⟩ := List.mem_iff_append.mp hhandle
      rw [hsplit', ← List.cons_append, ← List.append_assoc] at hsplit
      exact ((hsteps _ _ _ hsplit).1 b rfl).1
    exact ⟨p, hpk, hpid, hlocked q' hq hlt p hp⟩
  | propose core c =>
    cases hb
    cases hcore
    obtain rfl : s.highQC = q := Option.some.inj (hrec.certificate.symm.trans hq)
    refine ⟨Int64.le_refl _, fun hlt => ?_⟩
    obtain ⟨p, hp, hlock⟩ := ((hsteps recent _ _ hsplit).2 b rfl).2.1 _ hq hlt
    obtain ⟨hpid, hpk⟩ := hs.stored hp
    exact ⟨p, hpk, hpid, hlock⟩
  | _ => cases hb

/-- What a correct node signs above view 2 is not below its lock, or extends the
highest certificate it has. -/
theorem signer_above_lock {i : ℕ} (hi : i ∈ correctNodes env byz) {e : Event}
    (he : e ∈ ((World.attacked env moves).nodes i).trace) {b : Block} (hb : b ∈ e.signed)
    (hview : 2 < b.view) {q : QC} (hq : q ∈ b.qc) :
    (e.core.preferredView ≤ q.view ∧ 1 ≤ q.view) ∨ e.core.highQC.view ≤ q.view := by
  cases e with
  | vote core c v =>
    cases hb
    obtain ⟨p, -, hpk, -, hpview, hlock⟩ := voted_parent hfeas hcare hn hi he hq hview
    rw [← hpview]
    exact Or.inl ⟨hlock, hpk.1.positive⟩
  | propose core c =>
    cases hb
    obtain ⟨s, -, -, -, hcore, hprop⟩ := (attacked_deliverable hfeas hcare i).mem he
    cases hcore
    obtain rfl : s.highQC = q := Option.some.inj (hprop.certificate.symm.trans hq)
    exact Or.inr (Int64.le_refl _)
  | _ => cases hb

/-- A correct node signs at most one block of a view. -/
theorem signed_one_per_view :
    Chains.OnePerView (Finset.Icc 1 env.n) byz
      (fun i d => ((World.attacked env moves).nodes i).Signed d) fun d => (M.view d).toInt := by
  rintro i hi hbyz d d' ⟨e, he, b, hb, rfl⟩ ⟨e', he', b', hb', rfl⟩ hview
  have hcorrect : i ∈ correctNodes env byz := Finset.mem_sdiff.mpr ⟨hi, hbyz⟩
  obtain ⟨hfit, -, -⟩ := signed_fits hfeas hcare hn hcorrect he hb
  obtain ⟨hfit', -, -⟩ := signed_fits hfeas hcare hn hcorrect he' hb'
  have hsame : b.view = b'.view := by
    rw [hfit.view, hfit'.view]
    exact Int64.toInt_inj.mp hview
  by_cases heq : e = e'
  · subst heq
    rw [Option.some.inj (hb.symm.trans hb')]
  · rcases signed_comparable hfeas hcare hcorrect he he' heq with h | h
    · rcases h.above b hb b' hb' with hlt | hid
      · rw [hsame] at hlt
        exact (Int64.lt_irrefl hlt).elim
      · exact hid.symm
    · rcases h.above b' hb' b hb with hlt | hid
      · rw [hsame] at hlt
        exact (Int64.lt_irrefl hlt).elim
      · exact hid

/-- The smaller of two views was signed first. -/
theorem signed_before_of_lt {i : ℕ} (hi : i ∈ correctNodes env byz) {e e' : Event}
    (he : e ∈ ((World.attacked env moves).nodes i).trace)
    (he' : e' ∈ ((World.attacked env moves).nodes i).trace) {b y : Block} (hb : b ∈ e.signed)
    (hy : y ∈ e'.signed) (hlt : b.view < y.view) : SignedBefore e e' := by
  obtain ⟨hfit, -, -⟩ := signed_fits hfeas hcare hn hi he hb
  obtain ⟨hfit', -, -⟩ := signed_fits hfeas hcare hn hi he' hy
  have hne : e ≠ e' := by
    rintro rfl
    rw [Option.some.inj (hb.symm.trans hy)] at hlt
    exact Int64.lt_irrefl hlt
  rcases signed_comparable hfeas hcare hi he he' hne with h | h
  · rcases h.above b hb y hy with hgt | hid
    · exact (Int64.lt_irrefl (Int64.lt_trans hlt hgt)).elim
    · rw [(hfit'.same hfit hid).1] at hlt
      exact (Int64.lt_irrefl hlt).elim
  · exact h

/-- The certificate of what a signer of `b` signs above `b` is not below the
grandparent of `b`. -/
theorem signed_above_grandparent {i : ℕ} (hi : i ∈ correctNodes env byz) {e e' : Event}
    (he : e ∈ ((World.attacked env moves).nodes i).trace)
    (he' : e' ∈ ((World.attacked env moves).nodes i).trace) {b y p g : Block} (hb : b ∈ e.signed)
    (hy : y ∈ e'.signed) (hlt : b.view < y.view) (hp : p.Fits M) (hg : g.Fits M)
    (hbp : b.prevID = p.id) (hpg : p.prevID = g.id) (hviews : p.view.toInt = g.view.toInt + 1)
    (htwo : 2 < b.view) {q : QC} (hq : q ∈ y.qc) : g.view ≤ q.view := by
  obtain ⟨hfit, -, hcert⟩ := signed_fits hfeas hcare hn hi he hb
  obtain ⟨qb, hqb, hprev, -⟩ := hfit.certificate
  have hpid : p.id = qb.blockID := hbp.symm.trans hprev
  have hpview : qb.view = p.view := ((hcert qb hqb).of_block hp hpid).2
  obtain ⟨hhigh, hlocked⟩ := signer_locked hfeas hcare hn hi he hb hqb
  have hbefore := signed_before_of_lt hfeas hcare hn hi he he' hb hy hlt
  have hgp : g.view ≤ p.view := by
    rw [Int64.le_iff_toInt_le]
    omega
  rcases signer_above_lock hfeas hcare hn hi he' hy (Int64.lt_trans htwo hlt) hq with
    ⟨hlock, hone⟩ | htop
  · by_cases hlow : 2 < qb.view
    · -- the signer of `b` is locked on `g`
      obtain ⟨p', hpk, hpid', qp, hqp, hle⟩ := hlocked hlow
      obtain ⟨qp', hqp', hprev', -⟩ := hpk.1.certificate
      obtain rfl : qp' = qp := Option.some.inj (hqp'.symm.trans hqp)
      have hgid : g.id = qp'.blockID := by
        rw [← hpg, ← hprev']
        exact (hp.same hpk.1 (hpid.trans hpid'.symm)).2
      rw [← ((hpk.2 qp' hqp).2.of_block hg hgid).2]
      exact Int64.le_trans hle (Int64.le_trans hbefore.lock hlock)
    · -- no lock is needed, as `g` is of view 1
      have hgone : g.view ≤ 1 := by
        rw [hpview, Int64.lt_iff_toInt_lt] at hlow
        rw [Int64.le_iff_toInt_le]
        have hone' : (1 : View).toInt = 1 := rfl
        have htwo' : (2 : View).toInt = 2 := rfl
        omega
      exact Int64.le_trans hgone hone
  · rw [← hpview] at hgp
    exact Int64.le_trans hgp (Int64.le_trans hhigh (Int64.le_trans hbefore.highQC htop))

/-- The signers of a block are locked on its grandparent. -/
theorem signers_lock {b p g : Block} (hb : b.Fits M) (hp : p.Fits M) (hg : g.Fits M)
    (hbp : b.prevID = p.id) (hpg : p.prevID = g.id) (hviews : p.view.toInt = g.view.toInt + 1)
    (htwo : 2 < b.view) :
    Chains.Locks (Finset.Icc 1 env.n) byz env.byzNo
      (fun i d => ((World.attacked env moves).nodes i).Signed d)
      ((World.attacked env moves).Linked env) (fun d => (M.view d).toInt) g.id b.id := by
  rintro i hi hbyz ⟨e, he, b', hb', hid⟩ d ⟨e', he', y, hy, rfl⟩ hlt
  have hcorrect : i ∈ correctNodes env byz := Finset.mem_sdiff.mpr ⟨hi, hbyz⟩
  obtain ⟨hfit', -, -⟩ := signed_fits hfeas hcare hn hcorrect he hb'
  obtain ⟨hfit, hseen, hcert⟩ := signed_fits hfeas hcare hn hcorrect he' hy
  obtain ⟨hsame, hprev⟩ := hfit'.same hb hid
  dsimp only at hlt ⊢
  rw [← hb.view, ← hfit.view, ← Int64.lt_iff_toInt_lt, ← hsame] at hlt
  obtain ⟨q, hq, hyprev, hlow⟩ := hfit.certificate
  have hgq : g.view ≤ q.view :=
    signed_above_grandparent hfeas hcare hn hcorrect he he' hb' hy hlt hp hg (hprev.trans hbp) hpg
      hviews (hsame ▸ htwo) hq
  have hbacked : Backed env byz (World.attacked env moves) q.blockID ∧
      q.view = M.view q.blockID := by
    apply (hcert q hq).resolve_left
    rintro rfl
    exact absurd (Int64.le_trans hg.positive hgq) (by decide)
  refine ⟨q.blockID, ⟨y, hseen, rfl, hyprev⟩, hbacked.1, ?_, ?_⟩
  · rw [← hg.view, ← hbacked.2]
    exact Int64.le_iff_toInt_le.mp hgq
  · rw [← hfit.view, ← hbacked.2]
    exact Int64.lt_iff_toInt_lt.mp hlow

/-- A head that a correct node commits is decided. -/
theorem hotStuff_commit_decided (hsize : env.n = 3 * env.byzNo + 1) (hfew : byz.card ≤ env.byzNo)
    {i : ℕ} (hi : i ∈ correctNodes env byz) {core : Core} {qc : QC} {head : Block}
    {committed : List Block}
    (he : .commit core qc head committed ∈ ((World.attacked env moves).nodes i).trace) :
    Chains.Decided (Finset.Icc 1 env.n) byz env.byzNo
      (fun i d => ((World.attacked env moves).nodes i).Signed d)
      ((World.attacked env moves).Linked env) (fun d => (M.view d).toInt) head.id := by
  obtain ⟨s, recent, hs, hsplit, -, ⟨⟨hheld, -⟩, hthree, hrule⟩, -⟩ :=
    (attacked_deliverable hfeas hcare i).mem he
  obtain ⟨p, b, hp, hb, hg, hpg, hbp, hid, hgp, hpq⟩ := commitRule_some hs.steady.sound hrule
  have hsuffix := suffix_of_split hsplit
  have hseen : ∀ d c, s.bc.forrest.getVertex d = some c →
      (World.attacked env moves).Seen env c :=
    fun d c => World.seen_of_stored (mem_correctNodes.mp hi).1 hs hsuffix
  obtain ⟨-, hgfit, -⟩ := hs.stored hg
  obtain ⟨-, hpfit, hpcert⟩ := hs.stored hp
  obtain ⟨-, hbfit, hbcert⟩ := hs.stored hb
  -- all three blocks are backed, each by the certificate of the next
  obtain ⟨hbacked, hbview⟩ :=
    (held_certifies hfeas hcare hi hn (hheld.mono hsuffix)).of_block hbfit hid
  obtain ⟨qb, hqb, hbprev, -⟩ := hbfit.certificate
  obtain ⟨hpbacked, -⟩ := (hbcert qb hqb).2.of_block hpfit (hbp.symm.trans hbprev)
  obtain ⟨qp, hqp, hpprev, -⟩ := hpfit.certificate
  obtain ⟨hgbacked, -⟩ := (hpcert qp hqp).2.of_block hgfit (hpg.symm.trans hpprev)
  obtain ⟨hptwo, hgtwo, htwo⟩ := consecutive_views hgp hpq hthree
  have hlock := signers_lock hfeas hcare hn hbfit hpfit hgfit hbp hpg hgtwo (hbview ▸ htwo)
  have hcard : (Finset.Icc 1 env.n).card = 3 * env.byzNo + 1 := by simp [hsize]
  have hchain : [b.id, p.id, head.id].IsChain fun x y =>
      (World.attacked env moves).Linked env x y ∧ (M.view x).toInt = (M.view y).toInt + 1 := by
    have hlink : (World.attacked env moves).Linked env b.id p.id := ⟨b, hseen _ b hb, rfl, hbp⟩
    have hlink' : (World.attacked env moves).Linked env p.id head.id := ⟨p, hseen _ p hp, rfl, hpg⟩
    have hview : (M.view b.id).toInt = (M.view p.id).toInt + 1 := by
      rw [← hbfit.view, ← hpfit.view, ← hbview]
      exact hptwo.symm
    have hview' : (M.view p.id).toInt = (M.view head.id).toInt + 1 := by
      rw [← hpfit.view, ← hgfit.view]
      exact hgtwo
    simp [hlink, hlink', hview, hview']
  apply Chains.decided_of_chain hcard hfew (signed_one_per_view hfeas hcare hn) hchain rfl _ hlock
  simp only [List.forall_mem_cons, List.not_mem_nil, false_imp_iff, implies_true, and_true]
  exact ⟨hbacked, hpbacked, hgbacked⟩

/-- Whatever block was taken up or proposed fits: only correct nodes do anything. -/
theorem seen_fits {b : Block} (h : (World.attacked env moves).Seen env b) : b.Fits M := by
  obtain ⟨e, he, hb⟩ := h
  obtain ⟨i, hi, hin⟩ := World.mem_events.mp he
  have hcorrect : i ∈ correctNodes env byz := by
    by_contra hnot
    have hidle : ((World.attacked env moves).nodes i).trace = [] := by
      apply World.attacked_idle
      rintro m hm rfl
      obtain ⟨recent, earlier, hsplit⟩ := List.mem_iff_append.mp hm
      exact hnot (atEach_iff.mp hfeas recent m earlier hsplit).1
    rw [hidle] at hin
    cases hin
  cases e with
  | handle core c =>
    obtain rfl : c = b := by simpa [Event.handled, Event.proposed] using hb
    obtain ⟨s, -, -, -, -, hfit, -⟩ := (attacked_deliverable hfeas hcare i).mem hin
    exact hfit
  | propose core c =>
    obtain rfl : c = b := by simpa [Event.handled, Event.proposed] using hb
    exact (signed_fits hfeas hcare hn hcorrect hin rfl).1
  | _ => simp [Event.handled, Event.proposed] at hb

end

/-- Among `N = 3 f + 1` nodes of which at most `f` are Byzantine: in a run in
which the delivered messages fit and the correct nodes sign carefully, what any
two correct nodes deliver is on one chain. -/
theorem hotStuff_agreement (env : Env) (byz : Finset ℕ) (moves : List Move) (M : Meaning)
    (hsize : env.n = 3 * env.byzNo + 1) (hn : env.n < 2 ^ 63) (hfew : byz.card ≤ env.byzNo)
    (hfeas : Feasible env byz moves) (hcare : Careful env byz M moves) :
    ∀ i ∈ correctNodes env byz, ∀ j ∈ correctNodes env byz,
      ∀ a ∈ ((World.attacked env moves).nodes i).committedBlocks,
        ∀ b ∈ ((World.attacked env moves).nodes j).committedBlocks,
          (World.attacked env moves).OneChain env a b := by
  intro i hi j hj a ha b hb
  have hunique : Relator.RightUnique ((World.attacked env moves).Linked env) := by
    rintro d p p' ⟨c, hc, hid, rfl⟩ ⟨c', hc', hid', rfl⟩
    have hfit := seen_fits hfeas hcare hn hc
    exact (hfit.same (seen_fits hfeas hcare hn hc') (hid.trans hid'.symm)).2
  obtain ⟨_, _, head, _, hcommit, hanc⟩ := World.delivered_ancestor (mem_correctNodes.mp hi).1
    (attacked_deliverable hfeas hcare i) ha
  obtain ⟨_, _, head', _, hcommit', hanc'⟩ := World.delivered_ancestor (mem_correctNodes.mp hj).1
    (attacked_deliverable hfeas hcare j) hb
  have hdecided := hotStuff_commit_decided hfeas hcare hn hsize hfew hi hcommit.2
  have hdecided' := hotStuff_commit_decided hfeas hcare hn hsize hfew hj hcommit'.2
  exact (hdecided.oneChain hdecided').ancestors hunique hanc hanc'

/-- What one node is given, as moves. -/
def movesOf (node : ℕ) (inputs : List (Input × ℕ)) : List Move :=
  inputs.reverse.map fun i => ⟨node, i.1, i.2⟩

/-- The deployment with node 4 as the leader of all views. -/
def oneMaster : Env := { fourNodes with election := static "4" }

/-- A chain of its blocks, each with a certificate of nodes 2, 3 and 4. -/
def masterChain : ℕ → Block
  | 0 => fourNodes.block 1 QC.initial 4 []
  | k + 1 =>
    let b := masterChain k
    fourNodes.block (b.view + 1) (fourNodes.certificate b.view b.id [2, 3, 4]) 4 []

/-- The ids of the deployment are those of views, as long as payloads are empty. -/
def viewIds : Meaning := ⟨fun d => Int64.ofNat d.toNat, fun d => d - 1⟩

/-- Nodes 1, 2 and 3 are in view 5 and take the chain block by block; the last
block reaches node 1 only. -/
def fiveBlocks : List Move :=
  movesOf 1 (deliverAll [masterChain 4]) ++
  ((List.range 4).reverse.flatMap fun k =>
    [1, 2, 3].flatMap fun i => movesOf i (deliverAll [masterChain k])) ++
  [1, 2, 3].flatMap fun i => movesOf i (fourNodes.timeouts 4)

theorem hotStuff_agreement_over_five_blocks :
    ((World.attacked oneMaster fiveBlocks).nodes 1).committedBlocks.map Block.view = [1, 2] ∧
    ((World.attacked oneMaster fiveBlocks).nodes 2).committedBlocks.map Block.view = [1] ∧
    ∀ i ∈ correctNodes oneMaster {4}, ∀ j ∈ correctNodes oneMaster {4},
      ∀ a ∈ ((World.attacked oneMaster fiveBlocks).nodes i).committedBlocks,
        ∀ b ∈ ((World.attacked oneMaster fiveBlocks).nodes j).committedBlocks,
          (World.attacked oneMaster fiveBlocks).OneChain oneMaster a b := by
  have hcare : Careful oneMaster {4} viewIds fiveBlocks := by
    refine ⟨by decide +kernel, fun i hi => ?_, by decide +kernel⟩
    have hnone : ∀ i ∈ correctNodes oneMaster {4}, votesTo i fiveBlocks = [] := by
      decide +kernel
    rw [hnone i hi]
    exact ⟨by simp, by simp, by simp⟩
  exact ⟨by decide +kernel, by decide +kernel,
    hotStuff_agreement oneMaster {4} fiveBlocks viewIds rfl (by decide) (by decide)
      (by decide +kernel) hcare⟩

/-- Three blocks of node 4 in views 1 to 3, with certificates that nobody signed. -/
def unsignedChain (payload : List Transaction) : ℕ → Block
  | 0 => fourNodes.block 1 QC.initial 4 payload
  | k + 1 =>
    let b := unsignedChain payload k
    fourNodes.block (b.view + 1) (fourNodes.certificate b.view b.id []) 4 payload

/-- Node 4 gets a node into view 3 by timeouts under three names, and lets it
commit the first of these blocks. -/
def persuade (payload : List Transaction) : List (Input × ℕ) :=
  (["4", "04", "004"].map fun name => (.deliver (.tmo ⟨2, name, some QC.initial⟩), 8)) ++
  deliverAll ((List.range 3).map (unsignedChain payload)) ++
  [(.deliver (.tmo ⟨3, "4", some (fourNodes.certificate 3 (unsignedChain payload 2).id [])⟩), 8)]

/-- Nodes 2 and 3 are told different things. -/
def twoStories : List Move :=
  movesOf 3 (persuade [⟨"a"⟩]) ++ movesOf 2 (persuade [])

/-- One Byzantine node of four makes two correct nodes deliver different blocks
of view 1, both on top of the genesis block. -/
theorem hotStuff_forks :
    fourNodes.n = 3 * fourNodes.byzNo + 1 ∧ ({4} : Finset ℕ).card ≤ fourNodes.byzNo ∧
    Feasible fourNodes {4} twoStories ∧
    ∃ a ∈ ((World.attacked fourNodes twoStories).nodes 2).committedBlocks,
      ∃ b ∈ ((World.attacked fourNodes twoStories).nodes 3).committedBlocks,
        ¬ (World.attacked fourNodes twoStories).OneChain fourNodes a b := by
  have hclosed : (World.attacked fourNodes twoStories).ParentClosed fourNodes [1, 0] ∧
      (World.attacked fourNodes twoStories).ParentClosed fourNodes [2 ^ 64 + 1, 0] := by
    decide +kernel
  have hdelivered :
      ∃ a ∈ ((World.attacked fourNodes twoStories).nodes 2).committedBlocks,
        ∃ b ∈ ((World.attacked fourNodes twoStories).nodes 3).committedBlocks,
          a.id = 1 ∧ b.id = 2 ^ 64 + 1 := by
    decide +kernel
  obtain ⟨a, ha, b, hb, haid, hbid⟩ := hdelivered
  refine ⟨rfl, le_refl 1, by decide +kernel, a, ha, b, hb,
    World.not_oneChain hclosed.1 hclosed.2 ?_ ?_⟩
  · rw [haid]
    decide +kernel
  · rw [hbid]
    decide +kernel

end Bamboo
