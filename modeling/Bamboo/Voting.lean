import Bamboo.History
import Bamboo.Network

/-!
# Voting once, in increasing views

A vote follows the block it is for: when a replica votes, the block in hand is
the last one it took up. No voting rule holds that block against the votes made
before: `Fhs` reads `lastVotedView`, but nothing ever sets it. So the votes are
in increasing views as far as the blocks that are taken up lie above them.
-/
namespace Bamboo

open Stepwise

/-- Each block, when it is taken up, is of a view above every vote made so far. -/
def TakesUpNewViews (trace : List Event) : Prop :=
  AtEach (fun e past => ∀ b ∈ e.handled, ∀ v ∈ votesOf past, v.view < b.view) trace

instance (trace : List Event) : Decidable (TakesUpNewViews trace) :=
  AtEach.decidable _ trace

/-- Newest first, every vote is of a larger view than all before it. -/
def VotesIncrease (trace : List Event) : Prop :=
  (votesOf trace).Pairwise fun later earlier => earlier.view < later.view

/-- A vote is for the block in hand, so it is of a larger view than every vote
that was there when this block was taken up, and none was made since. -/
theorem Reachable.votesIncrease {env : Env} {alg : Algorithm} {K : Known} {id : NodeID}
    {s : Replica} (h : Reachable env alg K id s) (hnew : TakesUpNewViews s.trace) :
    VotesIncrease s.trace := by
  have hvoted : AtEach (fun e past => ∀ b ∈ e.voted, ∀ e' ∈ past, ∀ v ∈ e'.ballot, v.view < b.view)
      s.trace := by
    apply h.atEach_voted
    · intro b e hvoted _ v hv
      cases e with
      | vote core c w => cases hvoted
      | _ => cases hv
    · refine atEach_iff.mpr fun recent e past hsplit b hb e' he' v hv => ?_
      exact atEach_iff.mp hnew recent e past hsplit b hb v (List.mem_filterMap.mpr ⟨e', he', hv⟩)
  rw [VotesIncrease, votesOf, List.pairwise_filterMap]
  refine AtEach.pairwise (atEach_iff.mpr fun recent e past hsplit e' he' v hv w hw => ?_)
  obtain ⟨s₁, -, -, -, hrec⟩ := h.event hsplit
  cases e with
  | vote core b v' =>
    cases hv
    rw [(makeVote_ok hrec.2).1]
    exact atEach_iff.mp hvoted recent _ past hsplit b rfl e' he' w hw
  | _ => cases hv

/-- In a run that takes up blocks only above the votes made so far, the votes
are in strictly increasing views, and no two of them are of one view. -/
theorem votes_increase_of_new_views (env : Env) (alg : Algorithm) (id : NodeID)
    (inputs : List (Input × ℕ))
    (h : TakesUpNewViews ((Replica.new env id false).run env alg inputs).trace) :
    VotesIncrease ((Replica.new env id false).run env alg inputs).trace ∧
      ∀ v ∈ votesOf ((Replica.new env id false).run env alg inputs).trace,
        ∀ w ∈ votesOf ((Replica.new env id false).run env alg inputs).trace,
          v.view = w.view → v = w := by
  have hinc := (Replica.run_reachable env alg id inputs).votesIncrease h
  refine ⟨hinc, fun v hv w hw heq => ?_⟩
  by_contra hne
  have hdiff : (votesOf ((Replica.new env id false).run env alg inputs).trace).Pairwise
      fun a b => a.view ≠ b.view := hinc.imp fun hlt heq => by simp [heq] at hlt
  have hsymm : Std.Symm fun a b : Vote => a.view ≠ b.view := ⟨fun _ _ hab => hab.symm⟩
  exact hdiff.forall hv hw hne heq

/-- A replica that is given the blocks of views 1 and 2, with the timeouts of
view 1 in between. -/
def twoViews : List (Input × ℕ) :=
  deliverAll [fourNodes.chain 0] ++ fourNodes.timeouts 1 ++ deliverAll [fourNodes.chain 1]

theorem votes_increase_over_two_views :
    (votesOf ((Replica.new fourNodes "1" false).run fourNodes .hotStuff twoViews).trace).map
      Vote.view = [2, 1] ∧
    VotesIncrease ((Replica.new fourNodes "1" false).run fourNodes .hotStuff twoViews).trace :=
  ⟨by decide +kernel, (votes_increase_of_new_views fourNodes .hotStuff "1" twoViews
    (by decide +kernel)).1⟩

/-- The votes are not in increasing views, and two of them are for different
blocks of one view. -/
def VotesTwice (trace : List Event) : Prop :=
  ¬ VotesIncrease trace ∧ ∃ v ∈ votesOf trace, ∃ w ∈ votesOf trace,
    v.view = w.view ∧ v.blockID ≠ w.blockID

/-- A leader that proposes two blocks in view 1. -/
def twoBlocks : List (Input × ℕ) :=
  deliverAll [fourNodes.block 1 QC.initial 4 [], fourNodes.block 1 QC.initial 4 [⟨"a"⟩]]

/-- Whatever the protocol, a replica votes for both. -/
theorem votes_for_both_blocks :
    VotesTwice ((Replica.new fourNodes "1" false).run fourNodes .hotStuff twoBlocks).trace ∧
    VotesTwice ((Replica.new fourNodes "1" false).run fourNodes .tchs twoBlocks).trace ∧
    VotesTwice ((Replica.new fourNodes "1" false).run fourNodes .fhs twoBlocks).trace := by
  unfold VotesTwice VotesIncrease
  decide +kernel

end Bamboo
