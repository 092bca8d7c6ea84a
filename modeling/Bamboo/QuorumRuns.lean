import Bamboo.BlockChain
import Bamboo.Library.Threshold

/-!
# Every sequence of votes

The quorum is a book of votes by block and voter. Histories list the votes
newest first.
-/
namespace Bamboo

namespace Quorum

/-- The distinct voters a history has for a block. -/
def votersFor (past : List Vote) (blockID : Identifier) : Finset NodeID :=
  ((past.filter (·.blockID = blockID)).map Vote.voter).toFinset

def latestVote (past : List Vote) (blockID : Identifier) (voter : NodeID) : Option Vote :=
  (past.filter (·.blockID = blockID)).find? (·.voter = voter)

/-- The quorum after a sequence of votes. -/
def after (env : Env) (total : ℕ) : List Vote → Quorum
  | [] => new total
  | vote :: past => ((after env total past).add env vote).2

/-- Everything `Add` has returned along a sequence of votes. -/
def certificates (env : Env) (total : ℕ) : List Vote → List QC
  | [] => []
  | vote :: past => ((after env total past).add env vote).1.toList ++ certificates env total past

/-! ## The quorum as a book -/

def filing (vote : Vote) : Identifier × NodeID × Vote := (vote.blockID, vote.voter, vote)

theorem onKey_filing (past : List Vote) (blockID : Identifier) :
    Threshold.onKey blockID (past.map filing) =
      (past.filter (·.blockID = blockID)).map fun vote => (vote.voter, vote) := by
  induction past with
  | nil => rfl
  | cons vote past ih =>
    rw [List.map_cons, filing, Threshold.onKey_cons, ih]
    by_cases heq : vote.blockID = blockID <;> simp [heq]

theorem heard_filing (past : List Vote) (blockID : Identifier) :
    Threshold.heard (Threshold.onKey blockID (past.map filing)) = votersFor past blockID := by
  rw [onKey_filing, Threshold.heard, List.map_map]
  rfl

theorem latest_filing (past : List Vote) (blockID : Identifier) (voter : NodeID) :
    Threshold.latest (Threshold.onKey blockID (past.map filing)) voter =
      latestVote past blockID voter := by
  rw [onKey_filing, Threshold.latest, latestVote, List.find?_map]
  simp [Function.comp_def]

theorem size_eq (q : Quorum) (blockID : Identifier) :
    q.size blockID = (Threshold.sheet q.votes blockID).entries.length := by
  simp [size, votesFor, Threshold.sheet]

theorem add_eq_threshold (env : Env) (q : Quorum) (vote : Vote) :
    q.add env vote =
      let r := Threshold.add (env.byzNo * 2 + 1) q.votes vote.blockID vote.voter vote
      (if r.1 then some (makeQC env { q with votes := r.2 } vote) else none,
        { q with votes := r.2 }) := by
  by_cases hfull : env.byzNo * 2 + 1 ≤ (Threshold.sheet q.votes vote.blockID).entries.length
  · rw [Threshold.add_closed hfull]
    simp [add_eq, superMajority, size_eq, hfull]
  · have hrec : (q.record vote).votes = q.votes.insert vote.blockID
        ((Threshold.sheet q.votes vote.blockID).insert vote.voter vote) := rfl
    rw [Threshold.add_open (Nat.not_le.mp hfull), add_eq, ← hrec]
    simp only [superMajority, size_eq, hfull, decide_false, Bool.false_eq_true, if_false]
    simp only [hrec, Threshold.sheet_insert, ↓reduceIte]
    split_ifs <;> rfl

/-! ## Runs -/

variable (env : Env) (total : ℕ) (past : List Vote) (vote : Vote)

theorem kept_after :
    Threshold.Kept (env.byzNo * 2 + 1) (past.map filing) (after env total past).votes := by
  induction past with
  | nil => exact Threshold.kept_empty (Nat.succ_pos _)
  | cons vote past ih =>
    rw [after, add_eq_threshold]
    exact (ih.add vote.blockID vote.voter vote).1

variable {env past} in
/-- Whatever the history a quorum agrees with, it decides when a certificate is due. -/
theorem add_isSome_iff {q : Quorum}
    (hq : Threshold.Kept (env.byzNo * 2 + 1) (past.map filing) q.votes) :
    (q.add env vote).1.isSome ↔
      (votersFor past vote.blockID).card < env.byzNo * 2 + 1 ∧
        env.byzNo * 2 + 1 ≤ (votersFor (vote :: past) vote.blockID).card := by
  have h := (hq.add vote.blockID vote.voter vote).2.1
  rw [heard_filing, ← filing, ← List.map_cons, heard_filing] at h
  rw [← h, add_eq_threshold]
  simp

theorem add_after_isSome :
    ((after env total past).add env vote).1.isSome ↔
      (votersFor past vote.blockID).card < env.byzNo * 2 + 1 ∧
        env.byzNo * 2 + 1 ≤ (votersFor (vote :: past) vote.blockID).card :=
  add_isSome_iff vote (kept_after env total past)

variable {env total past vote}

/-- A returned certificate is made of the latest votes. -/
theorem add_after_eq_some {qc : QC} (h : ((after env total past).add env vote).1 = some qc) :
    ∃ q : Quorum, qc = q.makeQC env vote ∧
      Threshold.Current (Threshold.onKey vote.blockID ((vote :: past).map filing))
        (Threshold.sheet q.votes vote.blockID) := by
  have hcur := ((kept_after env total past).add vote.blockID vote.voter vote).2.2
  rw [add_eq_threshold] at h
  simp only [Option.ite_none_right_eq_some, Option.some.injEq] at h
  exact ⟨_, h.2.symm, hcur h.1⟩

section Current

variable {q : Quorum} {blockID : Identifier}
  (hq : Threshold.Current (Threshold.onKey blockID (past.map filing))
    (Threshold.sheet q.votes blockID))
include hq

theorem latestVote_of_mem_entries {e : Sigma fun _ : NodeID => Vote}
    (he : e ∈ (Threshold.sheet q.votes blockID).entries) :
    latestVote past blockID e.1 = some e.2 ∧ e.2.voter = e.1 := by
  have hlatest : latestVote past blockID e.1 = some e.2 := by
    rw [← latest_filing, ← hq e.1]
    exact AList.mem_lookup_iff.mpr he
  exact ⟨hlatest, by simpa using List.find?_some hlatest⟩

theorem voters_eq_keys :
    (q.votesFor blockID).map Vote.voter = (Threshold.sheet q.votes blockID).keys := by
  rw [votesFor, List.map_map, AList.keys, List.keys]
  exact List.map_congr_left fun e he => (latestVote_of_mem_entries hq he).2

theorem latestVote_of_mem {v : Vote} (hv : v ∈ q.votesFor blockID) :
    latestVote past blockID v.voter = some v := by
  obtain ⟨e, he, rfl⟩ := List.mem_map.mp hv
  obtain ⟨hlatest, hvoter⟩ := latestVote_of_mem_entries hq he
  rwa [hvoter]

end Current

/-- The votes a certificate is made of, with the map's own order left aside. -/
theorem makeQC_pairs (env : Env) (q : Quorum) (vote : Vote) :
    ((q.makeQC env vote).signers.zip (q.makeQC env vote).aggSig).Perm
      ((q.votesFor vote.blockID).map fun v => (v.voter, v.signature)) := by
  rw [makeQC, List.zip_map']
  exact (env.order_perm _).map _

/-- Two certificates that differ in the order of their signatures only. -/
def SameCertificate (qc qc' : QC) : Prop :=
  qc.view = qc'.view ∧ qc.blockID = qc'.blockID ∧
    (qc.signers.zip qc.aggSig).Perm (qc'.signers.zip qc'.aggSig)

/-- What a certificate returned for `vote` consists of. -/
structure Completes (env : Env) (past : List Vote) (vote : Vote) (qc : QC) : Prop where
  view : qc.view = vote.view
  blockID : qc.blockID = vote.blockID
  nodup : qc.signers.Nodup
  signers : qc.signers.toFinset = votersFor (vote :: past) vote.blockID
  size : qc.signers.length = env.byzNo * 2 + 1
  aligned : qc.aggSig.length = qc.signers.length
  latest : ∀ (i : ℕ) signer, qc.signers[i]? = some signer →
    ∃ v, latestVote (vote :: past) vote.blockID signer = some v ∧ qc.aggSig[i]? = some v.signature

theorem votersFor_cons (past : List Vote) (vote : Vote) :
    votersFor (vote :: past) vote.blockID =
      insert vote.voter (votersFor past vote.blockID) := by
  simp [votersFor]

theorem add_after_completes {qc : QC} (h : ((after env total past).add env vote).1 = some qc) :
    Completes env past vote qc := by
  obtain ⟨hbefore, hnow⟩ := (add_after_isSome env total past vote).mp (by simp [h])
  obtain ⟨q, rfl, hcur⟩ := add_after_eq_some h
  have hperm := env.order_perm (q.votesFor vote.blockID)
  have hnodup : ((env.order (q.votesFor vote.blockID)).map Vote.voter).Nodup := by
    rw [(hperm.map Vote.voter).nodup_iff, voters_eq_keys hcur]
    exact (Threshold.sheet q.votes vote.blockID).keys_nodup
  have hsigners : ((env.order (q.votesFor vote.blockID)).map Vote.voter).toFinset =
      votersFor (vote :: past) vote.blockID := by
    rw [List.toFinset_eq_of_perm _ _ (hperm.map Vote.voter), voters_eq_keys hcur, hcur.keys,
      heard_filing]
  refine ⟨rfl, rfl, hnodup, hsigners, ?_, by simp [makeQC], fun i signer hi => ?_⟩
  · have hcard := Finset.card_insert_le vote.voter (votersFor past vote.blockID)
    rw [← votersFor_cons] at hcard
    show ((env.order (q.votesFor vote.blockID)).map Vote.voter).length = _
    rw [← List.toFinset_card_of_nodup hnodup, hsigners]
    omega
  · simp only [makeQC, List.getElem?_map, Option.map_eq_some_iff] at hi ⊢
    obtain ⟨v, hv, rfl⟩ := hi
    have hmem := hperm.mem_iff.mp (List.mem_of_getElem? hv)
    exact ⟨v, latestVote_of_mem hcur hmem, v, hv, rfl⟩

theorem votersFor_congr {past' : List Vote} {blockID : Identifier}
    (h : past'.filter (·.blockID = blockID) = past.filter (·.blockID = blockID)) :
    votersFor past' blockID = votersFor past blockID := by
  rw [votersFor, h, votersFor]

theorem filter_cons_congr {past' : List Vote}
    (h : past'.filter (·.blockID = vote.blockID) = past.filter (·.blockID = vote.blockID)) :
    (vote :: past').filter (·.blockID = vote.blockID) =
      (vote :: past).filter (·.blockID = vote.blockID) := by
  simp [h]

/-- The votes for other blocks, the nominal size and the order in which the map
is traversed make no difference. -/
theorem add_after_independent {env' : Env} {total' : ℕ} {past' : List Vote}
    (hT : env'.byzNo = env.byzNo)
    (h : past'.filter (·.blockID = vote.blockID) = past.filter (·.blockID = vote.blockID)) :
    Option.Rel SameCertificate ((after env' total' past').add env' vote).1
      ((after env total past).add env vote).1 := by
  have hsome : ((after env' total' past').add env' vote).1.isSome ↔
      ((after env total past).add env vote).1.isSome := by
    rw [add_after_isSome, add_after_isSome, hT, votersFor_congr h,
      votersFor_congr (filter_cons_congr h)]
  cases hqc' : ((after env' total' past').add env' vote).1 with
  | none =>
    rw [hqc', Option.isSome_none] at hsome
    have hqc : ((after env total past).add env vote).1 = none := by simpa using hsome
    rw [hqc]
    exact Option.Rel.none
  | some qc' =>
    rw [hqc', Option.isSome_some] at hsome
    obtain ⟨qc, hqc⟩ := Option.isSome_iff_exists.mp (hsome.mp rfl)
    rw [hqc]
    obtain ⟨q', rfl, hcur'⟩ := add_after_eq_some hqc'
    obtain ⟨q, rfl, hcur⟩ := add_after_eq_some hqc
    rw [onKey_filing, filter_cons_congr h, ← onKey_filing] at hcur'
    have hvotes : (q'.votesFor vote.blockID).Perm (q.votesFor vote.blockID) := by
      unfold votesFor
      exact (hcur'.perm hcur).map _
    refine Option.Rel.some ⟨rfl, rfl, (makeQC_pairs env' q' vote).trans ?_⟩
    exact (hvotes.map _).trans (makeQC_pairs env q vote).symm

theorem blockID_of_add {q : Quorum} {qc : QC} (h : (q.add env vote).1 = some qc) :
    qc.blockID = vote.blockID := by
  rw [add_eq] at h
  split_ifs at h
  cases h
  rfl

/-- A vote brings a certificate for its block when it makes the voters enough. -/
theorem add_count {q : Quorum}
    (hq : Threshold.Kept (env.byzNo * 2 + 1) (past.map filing) q.votes) (blockID : Identifier) :
    ((q.add env vote).1.toList.filter (·.blockID = blockID)).length +
        (if env.byzNo * 2 + 1 ≤ (votersFor past blockID).card then 1 else 0) =
      if env.byzNo * 2 + 1 ≤ (votersFor (vote :: past) blockID).card then 1 else 0 := by
  have hiff := add_isSome_iff vote hq
  by_cases heq : vote.blockID = blockID
  · subst heq
    have hmono := Finset.card_le_card
      (Finset.subset_insert vote.voter (votersFor past vote.blockID))
    rw [← votersFor_cons] at hmono
    cases hqc : (q.add env vote).1 with
    | none =>
      simp only [hqc, Option.isSome_none, Bool.false_eq_true, false_iff] at hiff
      simp only [Option.toList_none, List.filter_nil, List.length_nil]
      split_ifs <;> omega
    | some qc =>
      simp only [hqc, Option.isSome_some, true_iff] at hiff
      simp only [Option.toList_some, List.filter_cons, blockID_of_add hqc, decide_true, if_true,
        List.filter_nil, List.length_singleton]
      split_ifs <;> omega
  · have hother : votersFor (vote :: past) blockID = votersFor past blockID := by
      simp [votersFor, heq]
    have hnone : (q.add env vote).1.toList.filter (·.blockID = blockID) = [] := by
      cases hqc : (q.add env vote).1 with
      | none => rfl
      | some qc => simp [blockID_of_add hqc, heq]
    rw [hnone, hother, List.length_nil, Nat.zero_add]

/-- A block has one certificate once it has enough voters, and none before. -/
theorem certificates_count (env : Env) (total : ℕ) (past : List Vote) (blockID : Identifier) :
    ((certificates env total past).filter (·.blockID = blockID)).length =
      if env.byzNo * 2 + 1 ≤ (votersFor past blockID).card then 1 else 0 := by
  induction past with
  | nil => simp [certificates, votersFor]
  | cons vote past ih =>
    rw [certificates, List.filter_append, List.length_append, ih]
    exact add_count (kept_after env total past) blockID

end Quorum

/-- Along every sequence of votes `Add` returns a certificate exactly on the
vote with which the distinct voters of its block reach the threshold: one for
each block, signed by exactly these voters with their latest signatures, and
the same up to order whatever other blocks are voted for. -/
theorem quorum_certifies_once (env : Env) (total : ℕ) (past : List Vote) (vote : Vote) :
    (((Quorum.after env total past).add env vote).1.isSome ↔
      (Quorum.votersFor past vote.blockID).card < 2 * env.byzNo + 1 ∧
        (Quorum.votersFor (vote :: past) vote.blockID).card = 2 * env.byzNo + 1) ∧
    (∀ qc, ((Quorum.after env total past).add env vote).1 = some qc →
      Quorum.Completes env past vote qc) ∧
    (∀ blockID, ((Quorum.certificates env total past).filter (·.blockID = blockID)).length =
      if 2 * env.byzNo + 1 ≤ (Quorum.votersFor past blockID).card then 1 else 0) ∧
    (∀ (env' : Env) (total' : ℕ) (past' : List Vote), env'.byzNo = env.byzNo →
      past'.filter (·.blockID = vote.blockID) = past.filter (·.blockID = vote.blockID) →
      Option.Rel Quorum.SameCertificate ((Quorum.after env' total' past').add env' vote).1
        ((Quorum.after env total past).add env vote).1) := by
  have hcard := Finset.card_insert_le vote.voter (Quorum.votersFor past vote.blockID)
  rw [← Quorum.votersFor_cons] at hcard
  refine ⟨?_, fun qc => Quorum.add_after_completes, fun blockID => ?_,
    fun env' total' past' => Quorum.add_after_independent⟩
  · rw [Quorum.add_after_isSome]
    omega
  · rw [Quorum.certificates_count, Nat.mul_comm]

end Bamboo
