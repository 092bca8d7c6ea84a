import Bamboo.Voting

/-!
# Certificates

Which certificates does a replica build? Votes are told apart by the voter's
name and verified under the key of the number the name parses to, so it depends
on whether a node goes by one name. And which certificates of others does it act
on? The signature check goes over the signers that are listed, however many
they are.
-/
namespace Bamboo

open Quorum Stepwise

/-! ## What a replica's vote store holds -/

/-- The votes in a replica's store were counted, its own votes are what
`MakeVote` makes, and the certificates it built are made of counted votes. -/
structure Tally (env : Env) (K : Known) (s : Replica) : Prop where
  own : ∀ core b v, Event.vote core b v ∈ s.trace → makeVote env b.view s.id b.id = .ok v
  filed : s.bc.quorum.Filed (Counted env K s)
  built : ∀ core qc, Event.built core qc ∈ s.trace →
    (∃ v, Counted env K s v ∧ v.blockID = qc.blockID ∧ v.view = qc.view) ∧
      ∃ votes, Certificate env (Counted env K s) qc votes

variable {env : Env} {alg : Algorithm} {K : Known} {s s' : Replica}

theorem tally_new (env : Env) (K : Known) (id : NodeID) (isByz : Bool) :
    Tally env K (Replica.new env id isByz) where
  own _ _ _ h := by cases h
  filed := filed_new env.n
  built _ _ h := by cases h

theorem Quorum.Certificate.mono {good good' : Vote → Prop} {qc : QC} {votes : List Vote}
    (h : Certificate env good qc votes) (hg : ∀ v, good v → good' v) :
    Certificate env good' qc votes :=
  ⟨h.signers, h.aggSig, h.nodup, h.size, fun v hv => ⟨(h.vote v hv).1, hg v (h.vote v hv).2⟩⟩

theorem addVote_eq {bc bc' : BlockChain} {v : Vote} {r : Option QC}
    (h : bc.addVote env v = (r, bc')) :
    bc.quorum.add env v = (r, (bc.quorum.add env v).2) ∧
      bc' = { bc with quorum := (bc.quorum.add env v).2 } := by
  unfold BlockChain.addVote at h
  cases h
  exact ⟨rfl, rfl⟩

/-- What a certificate was built from is still counted later. -/
theorem Tally.built_later (hs : Tally env K s) (h : Later s s') {core : Core} {qc : QC}
    (hb : Event.built core qc ∈ s.trace) :
    (∃ v, Counted env K s' v ∧ v.blockID = qc.blockID ∧ v.view = qc.view) ∧
      ∃ votes, Certificate env (Counted env K s') qc votes := by
  obtain ⟨⟨v, hv, hid, hview⟩, votes, hc⟩ := hs.built core qc hb
  exact ⟨⟨v, hv.mono h, hid, hview⟩, votes, hc.mono fun _ hv => hv.mono h⟩

/-- The part of a replica that counting votes looks at is not touched. -/
theorem Tally.frame (h : Later s s') (hs : Tally env K s)
    (hq : s'.bc.quorum.Filed (Counted env K s'))
    (htrace : s'.trace = s.trace ∨ ∃ e, s'.trace = e :: s.trace ∧
      (∀ core b v, e ≠ .vote core b v) ∧ ∀ core qc, e ≠ .built core qc) : Tally env K s' := by
  have hold : ∀ e ∈ s'.trace, e ∈ s.trace ∨
      (∀ core b v, e ≠ .vote core b v) ∧ ∀ core qc, e ≠ .built core qc := by
    intro e he
    rcases htrace with heq | ⟨e', heq, hne⟩
    · exact Or.inl (heq ▸ he)
    · rw [heq] at he
      rcases List.mem_cons.mp he with rfl | he
      · exact Or.inr hne
      · exact Or.inl he
  refine ⟨fun core b v hv => ?_, hq, fun core qc hb => ?_⟩
  · rw [h.id]
    rcases hold _ hv with hv | hne
    · exact hs.own core b v hv
    · exact absurd rfl (hne.1 core b v)
  · rcases hold _ hb with hb | hne
    · exact hs.built_later h hb
    · exact absurd rfl (hne.2 core qc)

theorem Clerical.tallied (h : Clerical env alg K s s') (hs : Tally env K s) : Tally env K s' := by
  have hlater := h.later
  have hfiled := hs.filed.mono fun v hv => hv.mono hlater
  cases h with
  | store core b bc _ _ _ hadd =>
    obtain ⟨f, -, rfl⟩ := BlockChain.addBlock_ok hadd
    exact hs.frame hlater hfiled (Or.inl rfl)
  | tally v bc hv hadd =>
    obtain ⟨-, rfl⟩ := addVote_eq hadd
    exact hs.frame hlater ((hs.filed.add hv).mono fun _ hv => hv.mono hlater) (Or.inl rfl)
  | build v qc bc hv hadd =>
    obtain ⟨hqc, rfl⟩ := addVote_eq hadd
    obtain ⟨hview, hid, votes, hcert⟩ := hs.filed.certificate hv hqc
    refine ⟨fun core b w hw => ?_, (hs.filed.add hv).mono fun _ hv => hv.mono hlater,
      fun core q hb => ?_⟩
    · rcases List.mem_cons.mp hw with heq | hw
      · cases heq
      · exact hs.own core b w hw
    · rcases List.mem_cons.mp hb with heq | hb
      · cases heq
        refine ⟨⟨v, hv.mono hlater, hid.symm, hview.symm⟩, votes, ?_⟩
        have hc := hcert.mono fun _ hv => hv.mono hlater
        exact ⟨hc.signers, hc.aggSig, hc.nodup, hc.size, hc.vote⟩
      · exact hs.built_later hlater hb
  | commit qc head committed forked bc _ hc =>
    exact hs.frame hlater ((BlockChain.commitBlock_forgets hc).2 _ hfiled)
      (Or.inr ⟨_, rfl, by simp, by simp⟩)
  | commitFailed id e bc hc =>
    exact hs.frame hlater ((BlockChain.commitBlock_forgets hc).2 _ hfiled) (Or.inl rfl)
  | _ => exact hs.frame hlater hfiled (Or.inl rfl)

theorem Act.tallied (h : Act env alg K s s') (hs : Tally env K s) : Tally env K s' := by
  have hlater := h.later
  have hfiled := hs.filed.mono fun v hv => hv.mono hlater
  cases h with
  | clerical h => exact h.tallied hs
  | handle b _ => exact hs.frame hlater hfiled (Or.inr ⟨_, rfl, by simp, by simp⟩)
  | vote core b qc v _ hmade =>
    refine ⟨fun core' b' v' hv => ?_, hfiled, fun core' qc' hb => ?_⟩
    · rcases List.mem_cons.mp hv with heq | hv
      · cases heq
        exact hmade
      · exact hs.own core' b' v' hv
    · rcases List.mem_cons.mp hb with heq | hb
      · cases heq
      · exact hs.built_later hlater hb
  | _ => exact hs.frame hlater hfiled (Or.inl rfl)

theorem Step.tallied (h : Step env alg K s s') (hs : Tally env K s) : Tally env K s' := by
  have hlater := h.later
  have hfiled := hs.filed.mono fun v hv => hv.mono hlater
  cases h with
  | change h =>
    cases h with
    | act h => exact h.tallied hs
    | _ => exact hs.frame hlater hfiled (Or.inl rfl)
  | propose b _ => exact hs.frame hlater hfiled (Or.inr ⟨_, rfl, by simp, by simp⟩)
  | _ => exact hs.frame hlater hfiled (Or.inl rfl)

theorem Reachable.tally {id : NodeID} (h : Reachable env alg K id s) : Tally env K s :=
  h.invariant (fun _ _ hstep => hstep.tallied) (tally_new env K id false)

/-! ## Certificates built from votes -/

/-- Votes in which a node goes by one name: what bears the name of the counting
replica is its own, and among the votes for one block that verify, no node is
named in two ways. -/
structure OneName (env : Env) (id : NodeID) (votes : Vote → Prop) : Prop where
  own : ∀ v, votes v → v.voter = id → Verifies env v.signature v.blockID v.voter
  self : ∀ v, votes v → Verifies env v.signature v.blockID v.voter →
    v.voter.node = id.node → v.voter = id
  others : ∀ v, votes v → ∀ w, votes w → Verifies env v.signature v.blockID v.voter →
    Verifies env w.signature w.blockID w.voter → v.blockID = w.blockID →
      v.voter.node = w.voter.node → v.voter = w.voter

/-- The different nodes that a certificate names. -/
def signingNodes (qc : QC) : Finset ℤ := (qc.signers.map NodeID.node).toFinset

/-- The signers are at least `2 f + 1` different nodes of the network, and each
one's signature verifies. -/
structure DifferentNodes (env : Env) (qc : QC) : Prop where
  size : env.byzNo * 2 + 1 ≤ qc.signers.length
  nodup : (qc.signers.map NodeID.node).Nodup
  range : ∀ id ∈ qc.signers, 1 ≤ id.node ∧ id.node ≤ env.n
  aligned : qc.aggSig.length = qc.signers.length
  verified : ∀ p ∈ qc.signers.zip qc.aggSig, Verifies env p.2 qc.blockID p.1

theorem counted_verifies (h : OneName env s.id K.vote)
    (hs : Tally env K s) {v : Vote} (hv : Counted env K s v) :
    (K.vote v ∨ v.voter = s.id) ∧ Verifies env v.signature v.blockID v.voter := by
  rcases hv.1 with hmem | ⟨core, b, hown, -⟩
  · refine ⟨Or.inl hmem, ?_⟩
    by_cases hid : v.voter = s.id
    · exact h.own v hmem hid
    · exact hv.2 hid
  · obtain ⟨-, hvoter, -, hver⟩ := makeVote_ok (hs.own core b v hown)
    exact ⟨Or.inr hvoter, hver⟩

/-- Two counted votes for one block by one node bear one name. -/
theorem counted_name_eq (h : OneName env s.id K.vote)
    (hs : Tally env K s) {v w : Vote}
    (hv : Counted env K s v) (hw : Counted env K s w)
    (hid : v.blockID = w.blockID) (hnode : v.voter.node = w.voter.node) : v.voter = w.voter := by
  obtain ⟨hfrom, hver⟩ := counted_verifies h hs hv
  obtain ⟨hfrom', hver'⟩ := counted_verifies h hs hw
  rcases hfrom with hv | hv <;> rcases hfrom' with hw | hw
  · exact h.others v hv w hw hver hver' hid hnode
  · rw [hw]
    exact h.self v hv hver (hw ▸ hnode)
  · rw [hv]
    exact (h.self w hw hver' (hv ▸ hnode.symm)).symm
  · rw [hv, hw]

theorem certificate_differentNodes (h : OneName env s.id K.vote)
    (hs : Tally env K s) {qc : QC} {cast : List Vote}
    (hc : Certificate env (Counted env K s) qc cast) : DifferentNodes env qc := by
  have hver : ∀ v ∈ cast, Verifies env v.signature qc.blockID v.voter := by
    intro v hv
    obtain ⟨hid, hcount⟩ := hc.vote v hv
    rw [← hid]
    exact (counted_verifies h hs hcount).2
  refine ⟨?_, ?_, ?_, ?_, ?_⟩
  · rw [hc.signers, List.length_map]
    exact hc.size
  · rw [hc.signers, List.nodup_map_iff_inj_on hc.nodup]
    intro a ha b hb hab
    obtain ⟨v, hv, rfl⟩ := List.mem_map.mp ha
    obtain ⟨w, hw, rfl⟩ := List.mem_map.mp hb
    have hid : v.blockID = w.blockID := (hc.vote v hv).1.trans (hc.vote w hw).1.symm
    exact counted_name_eq h hs (hc.vote v hv).2 (hc.vote w hw).2 hid hab
  · intro id hid
    rw [hc.signers] at hid
    obtain ⟨v, hv, rfl⟩ := List.mem_map.mp hid
    exact (hver v hv).range
  · rw [hc.signers, hc.aggSig, List.length_map, List.length_map]
  · intro p hp
    rw [hc.signers, hc.aggSig, List.zip_map'] at hp
    obtain ⟨v, hv, rfl⟩ := List.mem_map.mp hp
    exact hver v hv

/-- If every node goes by one name in the votes delivered to a replica, then
each certificate it builds stands for `2 f + 1` different nodes. -/
theorem built_certificates_different_nodes (env : Env) (id : NodeID) (inputs : List (Input × ℕ))
    (h : OneName env id (· ∈ deliveredVotes inputs)) :
    ∀ qc ∈ certificatesOf ((Replica.new env id false).run env .hotStuff inputs).trace,
      DifferentNodes env qc := by
  intro qc hqc
  obtain ⟨core, hb⟩ := mem_certificatesOf.mp hqc
  have hreach := Replica.run_reachable env .hotStuff id inputs
  obtain ⟨-, votes, hc⟩ := hreach.tally.built core qc hb
  simp only [mem_deliveredVotes] at h
  exact certificate_differentNodes (hreach.id_eq.symm ▸ h) hreach.tally hc

/-- Votes of node `i` for block 7 of view 1, each in a name of its own. -/
def votesNamed (names : List (ℕ × NodeID)) : List (Input × ℕ) :=
  names.map fun (i, name) =>
    (.deliver (.vote ⟨1, name, 7, [(idealCrypto.sign i 7).1, (idealCrypto.sign i 7).2]⟩), 8)

theorem three_voters_different_nodes :
    (certificatesOf ((Replica.new fourNodes "4" false).run fourNodes .hotStuff
      (votesNamed [(1, "1"), (2, "2"), (3, "3")])).trace).length = 1 ∧
    ∀ qc ∈ certificatesOf ((Replica.new fourNodes "4" false).run fourNodes .hotStuff
      (votesNamed [(1, "1"), (2, "2"), (3, "3")])).trace, DifferentNodes fourNodes qc :=
  ⟨by decide +kernel, built_certificates_different_nodes fourNodes "4" _
    ⟨by decide +kernel, by decide +kernel, by decide +kernel⟩⟩

/-- Three names of one node make a certificate. -/
theorem one_voter_three_names :
    ∃ qc ∈ certificatesOf ((Replica.new fourNodes "4" false).run fourNodes .hotStuff
      (votesNamed [(1, "1"), (1, "01"), (1, "001")])).trace,
        (signingNodes qc) = {1} ∧ ¬ DifferentNodes fourNodes qc := by
  have hsome : ∃ qc ∈ certificatesOf ((Replica.new fourNodes "4" false).run fourNodes .hotStuff
      (votesNamed [(1, "1"), (1, "01"), (1, "001")])).trace,
        signingNodes qc = {1} ∧ ¬ (qc.signers.map NodeID.node).Nodup := by
    decide +kernel
  obtain ⟨qc, hmem, hnodes, hdup⟩ := hsome
  exact ⟨qc, hmem, hnodes, fun h => hdup h.nodup⟩

/-! ## Certificates received from others -/

/-- Each signer has a valid signature at its own position. -/
def Signed (env : Env) (qc : QC) : Prop :=
  qc.signers.length ≤ qc.aggSig.length ∧
    ∀ p ∈ qc.signers.zip qc.aggSig, Verifies env p.2 qc.blockID p.1

/-- A certificate signed by `2 f + 1` different nodes of the network. -/
def RealQuorum (env : Env) (qc : QC) : Prop :=
  env.byzNo * 2 + 1 ≤ ((signingNodes qc).filter fun i : ℤ => 1 ≤ i ∧ i ≤ env.n).card ∧ Signed env qc

instance (env : Env) (qc : QC) : Decidable (Signed env qc) :=
  inferInstanceAs (Decidable (_ ∧ _))

instance (env : Env) (qc : QC) : Decidable (RealQuorum env qc) :=
  inferInstanceAs (Decidable (_ ∧ _))

theorem quorumIsVerified_iff {env : Env} {core : Core} {qc : QC} (h : qc.leader ≠ core.id) :
    quorumIsVerified env core qc = .ok true ↔ Signed env qc := by
  rw [quorumIsVerified, if_pos h, verifyQuorumSignature_iff, Signed]

/-- Each signer stands next to a signature. -/
theorem Signed.beside {env : Env} {qc : QC} (h : Signed env qc) {id : NodeID}
    (hid : id ∈ qc.signers) : ∃ sig, (id, sig) ∈ qc.signers.zip qc.aggSig := by
  obtain ⟨k, hk, rfl⟩ := List.mem_iff_getElem.mp hid
  have hk' : k < (qc.signers.zip qc.aggSig).length := by
    rw [List.length_zip]
    have hlen := h.1
    omega
  have hmem := List.getElem_mem hk'
  rw [List.getElem_zip] at hmem
  exact ⟨_, hmem⟩

theorem Signed.range {env : Env} {qc : QC} (h : Signed env qc) :
    ∀ i ∈ signingNodes qc, 1 ≤ i ∧ i ≤ env.n := by
  intro i hi
  obtain ⟨id, hid, rfl⟩ := List.mem_map.mp (List.mem_toFinset.mp hi)
  obtain ⟨sig, hmem⟩ := h.beside hid
  exact (h.2 _ hmem).range

/-- A certificate that fails the check changes nothing. -/
theorem processCertificate_unverified {env : Env} {s : Replica} {qc : QC}
    (h : quorumIsVerified env s.toCore qc ≠ .ok true) :
    final (HotStuff.processCertificate env qc) s = s := by
  obtain ⟨rest, hcheck⟩ : ∃ rest : Exec Unit, HotStuff.processCertificate env qc s =
      (call (quorumIsVerified env s.toCore qc) >>= fun ok => if ok then rest else pure ()) s :=
    ⟨_, rfl⟩
  unfold final
  rw [hcheck]
  cases hv : quorumIsVerified env s.toCore qc with
  | error f => rfl
  | ok ok =>
    cases ok with
    | true => exact absurd hv h
    | false => rfl

/-- Whatever a foreign certificate changes, its signature check has passed.
The check finds a real quorum exactly when the signers are enough different
nodes, or when one of them has no valid signature and it fails. -/
theorem processCertificate_real_quorum_iff (env : Env) (s : Replica) (qc : QC)
    (hleader : qc.leader ≠ s.id) :
    (final (HotStuff.processCertificate env qc) s ≠ s →
      quorumIsVerified env s.toCore qc = .ok true) ∧
    ((quorumIsVerified env s.toCore qc = .ok true → RealQuorum env qc) ↔
      env.byzNo * 2 + 1 ≤ (signingNodes qc).card ∨ ¬ Signed env qc) := by
  constructor
  · intro hchanged
    by_contra hv
    exact hchanged (processCertificate_unverified hv)
  · rw [quorumIsVerified_iff hleader]
    constructor
    · intro hreal
      by_cases hs : Signed env qc
      · exact Or.inl ((hreal hs).1.trans (Finset.card_filter_le _ _))
      · exact Or.inr hs
    · rintro (hsize | hnot) hs
      · refine ⟨?_, hs⟩
        rwa [Finset.filter_true_of_mem hs.range]
      · exact absurd hs hnot

theorem three_signers_real_quorum :
    RealQuorum fourNodes (fourNodes.certificate 1 7 [1, 2, 3]) :=
  (processCertificate_real_quorum_iff fourNodes (Replica.new fourNodes "4" false)
    (fourNodes.certificate 1 7 [1, 2, 3]) (by decide)).2.mpr (Or.inl (by decide +kernel))
    (by decide +kernel)

/-- A certificate that lists no signers is taken for the highest one. -/
theorem no_signers_accepted :
    ∃ qc : QC, 0 < qc.view ∧ qc.leader ≠ "1" ∧ qc.signers = [] ∧
      final (HotStuff.processCertificate fourNodes qc) (Replica.new fourNodes "1" false) ≠
        Replica.new fourNodes "1" false ∧
      ¬ RealQuorum fourNodes qc := by
  refine ⟨fourNodes.certificate 1 7 [], by decide, by decide, rfl, fun h => ?_, fun h => ?_⟩
  · have hview := congrArg (fun s : Replica => s.highQC.view) h
    revert hview
    decide +kernel
  · exact absurd h.1 (by decide)

end Bamboo
