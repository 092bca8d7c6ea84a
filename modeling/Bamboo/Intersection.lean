import Bamboo.Library.Quorums
import Bamboo.Network

/-!
# Any two certificates of a network

The threshold of a certificate is computed from `ByzNo`, while the nodes that
may sign one come from the address list. The signers of two certificates overlap
as they should exactly if the two numbers fit.
-/
namespace Bamboo

/-- The ids of the `N` nodes. -/
def networkNodes (env : Env) : Finset NodeID := (Finset.Icc 1 env.n).image newNodeID

theorem card_networkNodes (env : Env) : (networkNodes env).card = env.n := by
  rw [networkNodes, Finset.card_image_of_injective _ newNodeID_injective, Nat.card_Icc]
  omega

/-- A vote store that was filled with votes of the network's nodes, in any
order, and cleaned up in between. -/
inductive Stores (env : Env) : Quorum → Prop
  | new : Stores env (Quorum.new env.n)
  | add {q : Quorum} (vote : Vote) (h : Stores env q) (hv : vote.voter ∈ networkNodes env) :
      Stores env (q.add env vote).2
  | delete {q : Quorum} (id : Identifier) (h : Stores env q) :
      Stores env { q with votes := q.votes.erase id }

/-- A certificate that `Add` returns from such votes. -/
def Returned (env : Env) (qc : QC) : Prop :=
  ∃ q vote, Stores env q ∧ vote.voter ∈ networkNodes env ∧ (q.add env vote).1 = some qc

theorem Stores.filed {env : Env} {q : Quorum} (h : Stores env q) :
    q.Filed fun v => v.voter ∈ networkNodes env := by
  induction h with
  | new => exact Quorum.filed_new env.n
  | add vote _ hv ih => exact ih.add hv
  | delete id _ ih => exact ih.erase id

theorem Returned.signers {env : Env} {qc : QC} (h : Returned env qc) :
    qc.signers.toFinset ⊆ networkNodes env ∧
      2 * env.byzNo + 1 ≤ qc.signers.toFinset.card := by
  obtain ⟨q, vote, hq, hv, hadd⟩ := h
  obtain ⟨-, -, votes, hc⟩ := hq.filed.certificate hv (Prod.ext hadd rfl)
  constructor
  · intro id hid
    rw [List.mem_toFinset, hc.signers] at hid
    obtain ⟨v, hmem, rfl⟩ := List.mem_map.mp hid
    exact (hc.vote v hmem).2
  · rw [hc.signers, List.toFinset_card_of_nodup hc.nodup, List.length_map]
    have hsize := hc.size
    omega

namespace Quorum

/-- Exactly these voters have voted for the block. -/
def VotedBy (q : Quorum) (blockID : Identifier) (voters : List NodeID) : Prop :=
  ((q.votes.lookup blockID).getD ∅).keys = voters ∧ (q.votesFor blockID).map Vote.voter = voters

theorem VotedBy.size {q : Quorum} {blockID : Identifier} {voters : List NodeID}
    (h : q.VotedBy blockID voters) : q.size blockID = voters.length := by
  rw [Quorum.size, ← h.2, List.length_map]

theorem VotedBy.superMajority_iff {env : Env} {q : Quorum} {blockID : Identifier}
    {voters : List NodeID} (h : q.VotedBy blockID voters) :
    q.superMajority env blockID = true ↔ env.byzNo * 2 + 1 ≤ voters.length := by
  simp [superMajority, h.size]

/-- A vote in a new name is recorded besides the others. -/
theorem VotedBy.record {q : Quorum} {vote : Vote} {voters : List NodeID}
    (h : q.VotedBy vote.blockID voters) (hnew : vote.voter ∉ voters) :
    (q.record vote).VotedBy vote.blockID (vote.voter :: voters) := by
  have hkey : vote.voter ∉ (q.votes.lookup vote.blockID).getD ∅ := by
    intro hmem
    rw [AList.mem_keys, h.1] at hmem
    exact hnew hmem
  have hentries := AList.entries_insert_of_notMem (b := vote) hkey
  have hlookup : (q.record vote).votes.lookup vote.blockID =
      some (((q.votes.lookup vote.blockID).getD ∅).insert vote.voter vote) := by
    simp only [Quorum.record, AList.lookup_insert]
  unfold VotedBy votesFor AList.keys List.keys
  rw [hlookup, Option.getD_some, hentries, List.map_cons, List.map_cons, List.map_cons]
  exact ⟨congrArg _ h.1, congrArg _ h.2⟩

end Quorum

/-- Votes of any `2 f` nodes can all be recorded. -/
theorem exists_votedBy {env : Env} {voters : List NodeID}
    (hnet : ∀ id ∈ voters, id ∈ networkNodes env) (hnodup : voters.Nodup)
    (hlen : voters.length ≤ env.byzNo * 2) (blockID : Identifier) :
    ∃ q, Stores env q ∧ q.VotedBy blockID voters := by
  induction voters with
  | nil => exact ⟨Quorum.new env.n, Stores.new, rfl, rfl⟩
  | cons id voters ih =>
    obtain ⟨hid, hnet⟩ := List.forall_mem_cons.mp hnet
    obtain ⟨hnew, hnodup⟩ := List.nodup_cons.mp hnodup
    rw [List.length_cons] at hlen
    obtain ⟨q, hq, hvoted⟩ := ih hnet hnodup (by omega)
    obtain ⟨vote, rfl, rfl⟩ : ∃ vote : Vote, vote.voter = id ∧ vote.blockID = blockID :=
      ⟨⟨1, id, blockID, []⟩, rfl, rfl⟩
    have hrec := hvoted.record hnew
    have hstore := hq.add vote hid
    rw [Quorum.add_eq, if_neg, if_neg] at hstore
    · exact ⟨_, hstore, hrec⟩
    · rw [hrec.superMajority_iff, List.length_cons]
      omega
    · rw [hvoted.superMajority_iff]
      omega

/-- Any `2 f + 1` nodes are the signers of a certificate. -/
theorem exists_returned {env : Env} {nodes : Finset NodeID} (hnet : nodes ⊆ networkNodes env)
    (hcard : nodes.card = 2 * env.byzNo + 1) :
    ∃ qc, Returned env qc ∧ qc.signers.toFinset = nodes := by
  obtain ⟨list, hnodup, rfl⟩ : ∃ list : List NodeID, list.Nodup ∧ list.toFinset = nodes :=
    ⟨nodes.toList, nodes.nodup_toList, nodes.toList_toFinset⟩
  rw [List.toFinset_card_of_nodup hnodup] at hcard
  cases list with
  | nil => simp at hcard
  | cons id voters =>
    have hmem : ∀ i ∈ id :: voters, i ∈ networkNodes env := fun i hi =>
      hnet (List.mem_toFinset.mpr hi)
    obtain ⟨hid, hothers⟩ := List.forall_mem_cons.mp hmem
    obtain ⟨hnew, hdistinct⟩ := List.nodup_cons.mp hnodup
    rw [List.length_cons] at hcard
    obtain ⟨vote, rfl⟩ : ∃ vote : Vote, vote.voter = id := ⟨⟨1, id, 0, []⟩, rfl⟩
    obtain ⟨q, hq, hvoted⟩ := exists_votedBy hothers hdistinct (by omega) vote.blockID
    have hrec := hvoted.record hnew
    refine ⟨(q.record vote).makeQC env vote, ⟨q, vote, hq, hid, ?_⟩, ?_⟩
    · rw [Quorum.add_eq, if_neg, if_pos]
      · rw [hrec.superMajority_iff, List.length_cons]
        omega
      · rw [hvoted.superMajority_iff]
        omega
    · have hperm := (env.order_perm ((q.record vote).votesFor vote.blockID)).map Vote.voter
      rw [hrec.2] at hperm
      exact List.toFinset_eq_of_perm _ _ hperm

/-- Replicas of one network, which need not iterate over votes in one order. -/
def SameNetwork (env env' : Env) : Prop := env'.n = env.n ∧ env'.byzNo = env.byzNo

theorem SameNetwork.networkNodes_eq {env env' : Env} (h : SameNetwork env env') :
    networkNodes env' = networkNodes env := by
  rw [networkNodes, networkNodes, h.1]

/-- The threshold is computed from the number of Byzantine nodes alone, so that
two certificates share `f + 1` signers exactly in the networks of `3 f + 1`. -/
theorem signers_intersect_iff (env : Env) (h : 3 * env.byzNo + 1 ≤ env.n) :
    (∀ env₁ env₂ qc₁ qc₂, SameNetwork env env₁ → SameNetwork env env₂ →
      Returned env₁ qc₁ → Returned env₂ qc₂ →
        env.byzNo + 1 ≤ (qc₁.signers.toFinset ∩ qc₂.signers.toFinset).card) ↔
      env.n = 3 * env.byzNo + 1 := by
  have hcard := card_networkNodes env
  constructor
  · intro hall
    by_contra hne
    obtain ⟨A, hA, B, hB, hAf, hBf, hle⟩ :=
      Quorums.exists_card_inter_le (f := env.byzNo) (U := networkNodes env) (by omega)
    obtain ⟨qc₁, hqc₁, rfl⟩ := exists_returned hA hAf
    obtain ⟨qc₂, hqc₂, rfl⟩ := exists_returned hB hBf
    have hge := hall env env qc₁ qc₂ ⟨rfl, rfl⟩ ⟨rfl, rfl⟩ hqc₁ hqc₂
    omega
  · intro hn env₁ env₂ qc₁ qc₂ hsame₁ hsame₂ hqc₁ hqc₂
    obtain ⟨hsub₁, hsize₁⟩ := hqc₁.signers
    obtain ⟨hsub₂, hsize₂⟩ := hqc₂.signers
    rw [hsame₁.networkNodes_eq, hsame₁.2] at *
    rw [hsame₂.networkNodes_eq, hsame₂.2] at *
    exact Quorums.succ_le_card_inter (hcard.trans hn) hsub₁ hsub₂ hsize₁ hsize₂

theorem signers_intersect_of_four_nodes :
    3 * fourNodes.byzNo + 1 ≤ fourNodes.n ∧
    ∀ env₁ env₂ qc₁ qc₂, SameNetwork fourNodes env₁ → SameNetwork fourNodes env₂ →
      Returned env₁ qc₁ → Returned env₂ qc₂ →
        2 ≤ (qc₁.signers.toFinset ∩ qc₂.signers.toFinset).card :=
  ⟨by decide, (signers_intersect_iff fourNodes (by decide)).mpr rfl⟩

/-- The network that the repository's configuration file describes. -/
def fiveNodes : Env := { fourNodes with n := 5 }

/-- Nodes 1, 2, 3 and nodes 3, 4, 5 make certificates that share one signer. -/
theorem five_nodes_share_one_signer :
    3 * fiveNodes.byzNo + 1 ≤ fiveNodes.n ∧
    ∃ qc₁ qc₂, Returned fiveNodes qc₁ ∧ Returned fiveNodes qc₂ ∧
      ¬ fiveNodes.byzNo + 1 ≤ (qc₁.signers.toFinset ∩ qc₂.signers.toFinset).card := by
  obtain ⟨qc₁, h₁, hs₁⟩ : ∃ qc, Returned fiveNodes qc ∧ qc.signers.toFinset = {"1", "2", "3"} :=
    exists_returned (by decide +kernel) (by decide)
  obtain ⟨qc₂, h₂, hs₂⟩ : ∃ qc, Returned fiveNodes qc ∧ qc.signers.toFinset = {"3", "4", "5"} :=
    exists_returned (by decide +kernel) (by decide)
  refine ⟨by decide, qc₁, qc₂, h₁, h₂, ?_⟩
  rw [hs₁, hs₂]
  decide

end Bamboo
