import Bamboo.Certificates

/-!
# Locking before voting

HotStuff's `preferredView` is raised by the certificate of the block that is
being taken up, to the view of the certified block's parent. That fails when the
parent is not stored, in which case the certificate is only buffered, and it is
not tried at all for a block of one's own. The voting rule asks for less: the
certified block has to be there, but not its parent.
-/
namespace Bamboo

open Stepwise

/-- The certificate of the genesis block, or one of a real quorum. -/
def Genuine (env : Env) (qc : QC) : Prop := qc = QC.initial ∨ RealQuorum env qc

instance (env : Env) (qc : QC) : Decidable (Genuine env qc) :=
  inferInstanceAs (Decidable (_ ∨ _))

theorem Genuine.verified {env : Env} {qc : QC} (h : Genuine env qc) (core : Core) :
    quorumIsVerified env core qc = .ok true := by
  have hsigned : Signed env qc := by
    rcases h with rfl | h
    · exact ⟨by simp [QC.initial], by simp [QC.initial]⟩
    · exact h.2
  by_cases hleader : qc.leader = core.id
  · rw [quorumIsVerified, if_neg (by simp [hleader])]
  · exact (quorumIsVerified_iff hleader).mpr hsigned

/-- A block extends the block its certificate is for, in a larger view; the
certificate is genuine and of the view of the block it is for. -/
structure WellFormed (env : Env) (known : Block → Prop) : Prop where
  certificate : ∀ b, known b → ∃ q ∈ b.qc, b.prevID = q.blockID ∧ q.view < b.view ∧ Genuine env q
  view : ∀ b, known b → ∀ q ∈ b.qc, ∀ p, known p → p.id = q.blockID → p.view = q.view

/-- If the block's parent is stored when the block is taken up, then either the
lock is high enough already, or the block is another replica's and its
grandparent is stored as well. -/
def LockReady (core : Core) (b : Block) : Prop :=
  ∀ q ∈ b.qc, 2 < q.view → ∀ p ∈ core.bc.forrest.getVertex q.blockID, ∃ qp ∈ p.qc,
    qp.view ≤ core.preferredView ∨
      (b.proposer ≠ core.id ∧ (core.bc.forrest.getVertex p.prevID).isSome = true)

/-- The lock is at the view of the block's grandparent, if its parent is stored. -/
def Locked (core : Core) (b : Block) : Prop :=
  ∀ q ∈ b.qc, 2 < q.view → ∀ p ∈ core.bc.forrest.getVertex q.blockID, ∃ qp ∈ p.qc,
    qp.view ≤ core.preferredView

instance (core : Core) (b : Block) : Decidable (LockReady core b) := by
  unfold LockReady
  infer_instance

instance (core : Core) (b : Block) : Decidable (Locked core b) := by
  unfold Locked
  infer_instance

section

variable {env : Env} {K : Known} {id : NodeID} {s : Replica}

/-- The parent that is stored when a block is voted for was stored when it was
taken up: all that is stored in between is the block itself. -/
theorem VoteGuard.parent_stored {alg : Algorithm} {core : Core} {b p : Block} {q : QC}
    (h : VoteGuard env alg core s b q) (hwf : WellFormed env K.block) (hb : K.block b)
    (hp : s.bc.forrest.getVertex q.blockID = some p) (hid : p.id = q.blockID) :
    core.bc.forrest.getVertex q.blockID = some p := by
  rcases h.stored _ p hp with hold | rfl
  · exact hold
  · obtain ⟨q', hq', -, hlt, -⟩ := hwf.certificate p hb
    have heq : q' = q := Option.some.inj (hq'.symm.trans h.certificate)
    subst heq
    have hview := hwf.view p hb q' hq' p hb hid
    rw [hview] at hlt
    exact (Int64.lt_irrefl hlt).elim

theorem Reachable.locked {core : Core} {b : Block} {v : Vote} {recent past : List Event}
    (h : Reachable env .hotStuff K id s) (hwf : WellFormed env K.block)
    (hsplit : s.trace = recent ++ .vote core b v :: past)
    (hready : ∀ core₀, Event.handle core₀ b ∈ past → LockReady core₀ b) : Locked core b := by
  obtain ⟨s₁, hreach₁, rfl, hcore, ⟨core₀, qc, hguard⟩, -⟩ := h.event hsplit
  have hhand := inHand_mem hguard.hand
  obtain ⟨s₀, -, hreach₀, -, hcore₀, hblock⟩ := hreach₁.mem hhand
  cases hcore
  cases hcore₀
  intro q hq hlt p hp
  obtain rfl : q = qc := Option.some.inj (hq.symm.trans hguard.certificate)
  obtain ⟨hpid, hpk⟩ := hreach₁.stored hp
  have hp₀ := hguard.parent_stored hwf hblock hp hpid
  obtain ⟨qp, hqp, hlock | ⟨hother, hsome⟩⟩ := hready _ hhand q hq hlt p hp₀
  · exact ⟨qp, hqp, Int64.le_trans hlock hguard.lock⟩
  · -- the certificate is processed with both ancestors in place, and raises the lock
    obtain ⟨g, hg⟩ := Option.isSome_iff_exists.mp hsome
    obtain ⟨hgid, hgk⟩ := hreach₀.stored hg
    obtain ⟨q', hq', hprev, -, -⟩ := hwf.certificate p hpk
    obtain rfl : q' = qp := Option.some.inj (hq'.symm.trans hqp)
    obtain ⟨q'', hq'', -, -, hgenuine⟩ := hwf.certificate b hblock
    obtain rfl : q'' = q := Option.some.inj (hq''.symm.trans hq)
    have hne : b.proposer ≠ s₁.id := by
      rw [hreach₁.id_eq, ← hreach₀.id_eq]
      exact hother
    have hraised := hguard.rule.2 hne (hgenuine.verified _) hlt g
      (BlockChain.getParentBlock_of_stored hp₀ hqp hg)
    rw [hwf.view p hpk q' hq' g hgk (hgid.trans hprev)] at hraised
    exact ⟨q', hqp, hraised⟩

end

/-- In a run on well-formed blocks that are taken up with the lock ready, the
lock is at the grandparent's view whenever a vote is made. -/
theorem locked_at_every_vote (env : Env) (id : NodeID) (inputs : List (Input × ℕ))
    (hwf : WellFormed env (· ∈ deliveredBlocks inputs))
    (hready : ∀ e ∈ ((Replica.new env id false).run env .hotStuff inputs).trace,
      ∀ b ∈ e.handled, LockReady e.core b) :
    ∀ e ∈ ((Replica.new env id false).run env .hotStuff inputs).trace,
      ∀ b ∈ e.voted, Locked e.core b := by
  simp only [mem_deliveredBlocks] at hwf
  intro e he b hb
  obtain ⟨recent, past, hsplit⟩ := List.mem_iff_append.mp he
  cases e with
  | vote core b' v =>
    cases hb
    refine (Replica.run_reachable env .hotStuff id inputs).locked hwf hsplit fun core₀ h₀ => ?_
    exact hready _ (hsplit ▸ List.mem_append_right _ (List.mem_cons_of_mem _ h₀)) b rfl
  | _ => cases hb

theorem locked_on_four_blocks :
    (votesOf ((Replica.new fourNodes "1" false).run fourNodes .hotStuff
      fourNodes.fourBlocks).trace).map Vote.view = [4, 3, 2, 1] ∧
    ∀ e ∈ ((Replica.new fourNodes "1" false).run fourNodes .hotStuff fourNodes.fourBlocks).trace,
      ∀ b ∈ e.voted, Locked e.core b :=
  ⟨by decide +kernel, locked_at_every_vote fourNodes "1" fourNodes.fourBlocks
    ⟨by decide +kernel, by decide +kernel⟩ (by decide +kernel)⟩

/-- The same replica, which the blocks of views 1 and 2 never reach. -/
def lastTwo : List (Input × ℕ) :=
  fourNodes.timeouts 3 ++ deliverAll [fourNodes.chain 2, fourNodes.chain 3]

/-- It votes for the block of view 4 with its parent, of view 3, stored and the
lock at 0, below the grandparent's view 2. -/
theorem votes_unlocked_on_last_two :
    WellFormed fourNodes (· ∈ deliveredBlocks lastTwo) ∧
    ∃ e ∈ ((Replica.new fourNodes "1" false).run fourNodes .hotStuff lastTwo).trace,
      e.voted = some (fourNodes.chain 3) ∧ e.core.preferredView = 0 ∧
        e.core.bc.forrest.getVertex (fourNodes.chain 3).prevID = some (fourNodes.chain 2) ∧
        ¬ Locked e.core (fourNodes.chain 3) :=
  ⟨⟨by decide +kernel, by decide +kernel⟩, by decide +kernel⟩

end Bamboo
