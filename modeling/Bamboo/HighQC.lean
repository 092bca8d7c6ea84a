import Bamboo.Certificates

/-!
# Where the highest certificate comes from

`ProcessBlock` raises `highQC` with the certificate of the block it has taken up
before anything has looked at its signatures, and `processCertificate` looks at
none if the certificate names this replica as its leader.
-/
namespace Bamboo

open Relation Stepwise

/-- The initial certificate, one that this replica built, or one whose
signatures verify. -/
def Vouched (env : Env) (trace : List Event) (qc : QC) : Prop :=
  qc = QC.initial ∨ qc ∈ certificatesOf trace ∨
    verifyQuorumSignature env qc.blockID qc.aggSig qc.signers = .ok true

instance (env : Env) (trace : List Event) (qc : QC) : Decidable (Vouched env trace qc) :=
  decidable_of_iff (qc = QC.initial ∨ qc ∈ certificatesOf trace ∨ Signed env qc) (by
    rw [Vouched, verifyQuorumSignature_iff, Signed])

theorem Vouched.mono {env : Env} {trace trace' : List Event} {qc : QC}
    (h : Vouched env trace qc) (htrace : trace <:+ trace') : Vouched env trace' qc := by
  rcases h with hinit | hbuilt | hver
  · exact Or.inl hinit
  · obtain ⟨core, hmem⟩ := mem_certificatesOf.mp hbuilt
    exact Or.inr (Or.inl (mem_certificatesOf.mpr ⟨core, htrace.subset hmem⟩))
  · exact Or.inr (Or.inr hver)

/-- The certificate that an input brings. -/
def Input.qc : Input → Option QC
  | .deliver (.block b) => b.qc
  | .deliver (.tmo t) => t.highQC
  | _ => none

/-- A block is taken up with a vouched certificate, if that is above the highest one. -/
def TakesVouched (env : Env) (e : Event) (past : List Event) : Prop :=
  ∀ b ∈ e.handled, ∀ q ∈ b.qc, e.core.highQC.view < q.view → Vouched env past q

section

variable {env : Env} {alg : Algorithm} {K : Known} {id : NodeID} {s s' t : Replica}

/-- A certificate that passes the check either names this replica or verifies. -/
theorem Accepted.vouched {q : QC} (h : Accepted env K s q) (hst : s.trace <:+ t.trace)
    (hnamed : ∀ q, K.qc q → q.leader = s.id → Vouched env t.trace q) :
    Vouched env t.trace q := by
  rcases h.1 with hk | ⟨core, hbuilt⟩
  · by_cases hleader : q.leader = s.id
    · exact hnamed q hk hleader
    · have hver := h.2
      rw [quorumIsVerified, if_pos hleader] at hver
      exact Or.inr (Or.inr hver)
  · exact Or.inr (Or.inl (mem_certificatesOf.mpr ⟨core, hst.subset hbuilt⟩))

/-- The certificate of the block in hand was looked at when the block was taken up. -/
theorem TakesVouched.inHand {core : Core} {b : Block} {q : QC}
    (htakes : AtEach (TakesVouched env) t.trace) (hst : s.trace <:+ t.trace)
    (hand : inHand s.trace = some (core, b)) (hq : b.qc = some q)
    (hlt : core.highQC.view < q.view) : Vouched env t.trace q := by
  have hmem := hst.subset (inHand_mem hand)
  obtain ⟨recent, past, hsplit⟩ := List.mem_iff_append.mp hmem
  have hnow := atEach_iff.mp htakes recent _ past hsplit b rfl q hq hlt
  exact hnow.mono (suffix_of_split hsplit)

/-- One transition, seen from the end `t` of the run. -/
theorem Step.vouched (h : Step env alg K s s') (hrising : Rising s) (hst : s.trace <:+ t.trace)
    (hnamed : ∀ q, K.qc q → q.leader = s.id → Vouched env t.trace q)
    (htakes : AtEach (TakesVouched env) t.trace) (hs : Vouched env t.trace s.highQC) :
    Vouched env t.trace s'.highQC := by
  rcases h with ((h | _) | _ | _) | _ | _ | _
  · cases h with
    | raise qc hq =>
      simp only [Replica.raiseHighQC]
      split_ifs with hlt
      · rcases hq with hacc | ⟨core, b, hand, -, hqc⟩
        · exact hacc.vouched hst hnamed
        · have hle := (hrising _ (inHand_mem hand)).2
          have hcore : core.highQC.view ≤ s.highQC.view := hle
          exact TakesVouched.inHand htakes hst hand hqc (Int64.lt_of_le_of_lt hcore hlt)
      · exact hs
    | _ => exact hs
  all_goals exact hs

theorem Reachable.vouched (h : Reachable env alg K id t)
    (hnamed : ∀ q, K.qc q → q.leader = id → Vouched env t.trace q)
    (htakes : AtEach (TakesVouched env) t.trace) : Vouched env t.trace t.highQC := by
  -- the invariant speaks of the states on the way to `t`
  have hway : ∀ s, Reachable env alg K id s → ReflTransGen (Step env alg K) s t →
      Vouched env t.trace s.highQC := by
    intro s hs
    induction hs with
    | refl => exact fun _ => Or.inl rfl
    | @tail s s' hs hstep ih =>
      intro hrest
      have hall := hrest.head hstep
      have hst := (Steps.later hall).trace
      have hreach : Reachable env alg K id s := hs
      refine hstep.vouched hreach.rising hst (fun q hq hleader => ?_) htakes (ih hall)
      exact hnamed q hq (hleader.trans hreach.id_eq)
  exact hway t h .refl

end

/-! ## Runs -/

/-- If every certificate that names the replica as its leader is vouched for when
it is delivered, and every other one above `highQC` when its block is taken up,
then `highQC` is vouched for. -/
theorem highQC_vouched (env : Env) (alg : Algorithm) (id : NodeID) (inputs : List (Input × ℕ))
    (hnamed : ∀ before i after, inputs = before ++ i :: after → ∀ q ∈ i.1.qc, q.leader = id →
      Vouched env ((Replica.new env id false).run env alg before).trace q)
    (htakes : AtEach (TakesVouched env) ((Replica.new env id false).run env alg inputs).trace) :
    Vouched env ((Replica.new env id false).run env alg inputs).trace
      ((Replica.new env id false).run env alg inputs).highQC := by
  refine (Replica.run_reachable env alg id inputs).vouched (fun q hq hleader => ?_) htakes
  have hcarried : ∀ i ∈ inputs, i.1.qc = some q →
      Vouched env ((Replica.new env id false).run env alg inputs).trace q := by
    intro i hi hq
    obtain ⟨before, after, hsplit⟩ := List.mem_iff_append.mp hi
    have hthen := hnamed before i after hsplit q hq hleader
    rw [hsplit]
    exact hthen.mono (Steps.later (Replica.after_steps env alg id false before (i :: after))).trace
  rcases hq with rfl | ⟨b, ⟨fuel, hb⟩, hq⟩ | ⟨t, ⟨fuel, ht⟩, hq⟩
  · exact Or.inl rfl
  · exact hcarried _ hb hq
  · exact hcarried _ ht hq

/-- Node 1 after the four blocks of the chain. -/
def afterFourBlocks : Replica :=
  (Replica.new fourNodes "1" false).run fourNodes .hotStuff fourNodes.fourBlocks

theorem highQC_vouched_on_four_blocks :
    afterFourBlocks.highQC.view = 3 ∧
      Vouched fourNodes afterFourBlocks.trace afterFourBlocks.highQC := by
  refine ⟨by decide +kernel, highQC_vouched fourNodes .hotStuff "1" fourNodes.fourBlocks ?_ ?_⟩
  · intro before i after hsplit q hq hleader
    have hnone : ∀ i ∈ fourNodes.fourBlocks, ∀ q ∈ i.1.qc, q.leader ≠ "1" := by decide +kernel
    exact absurd hleader (hnone i (by simp [hsplit]) q hq)
  · unfold TakesVouched
    decide +kernel

/-- A certificate of view 7 for no block, with a signature that nobody made. -/
def forgedQC : QC := ⟨"", 7, 0, ["2"], [[[0], [0]]], []⟩

/-- Node 1 after a block of view 1 with the forged certificate. -/
def afterForgedQC (alg : Algorithm) : Replica :=
  (Replica.new fourNodes "1" false).run fourNodes alg
    (deliverAll [fourNodes.block 1 forgedQC 4 []])

theorem forged_highQC :
    ((afterForgedQC .hotStuff).highQC = forgedQC ∧
      ¬ Vouched fourNodes (afterForgedQC .hotStuff).trace forgedQC) ∧
    ((afterForgedQC .tchs).highQC = forgedQC ∧
      ¬ Vouched fourNodes (afterForgedQC .tchs).trace forgedQC) ∧
    ((afterForgedQC .fhs).highQC = forgedQC ∧
      ¬ Vouched fourNodes (afterForgedQC .fhs).trace forgedQC) := by
  decide +kernel

end Bamboo
