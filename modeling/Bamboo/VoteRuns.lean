import Bamboo.CommitReturns
import Bamboo.QuorumRuns

/-!
# Votes over the life of a block chain

A certificate has the view of the vote that completes it, whatever the views of
the other votes are. And the votes for a block are deleted when the block is
committed, so that later ones are counted from the beginning.
-/
namespace Bamboo

namespace Quorum

variable {env : Env} {total : ℕ} {past : List Vote} {vote : Vote} {qc : QC}

/-- The vote whose signature stands in a certificate beside its voter. -/
def Contributes (past : List Vote) (vote : Vote) (qc : QC) (v : Vote) : Prop :=
  ∃ i : ℕ, qc.signers[i]? = some v.voter ∧ qc.aggSig[i]? = some v.signature ∧
    latestVote (vote :: past) vote.blockID v.voter = some v

theorem latestVote_cons_self : latestVote (vote :: past) vote.blockID vote.voter = some vote := by
  simp [latestVote]

theorem latestVote_cons_ne {voter : NodeID} (h : voter ≠ vote.voter) :
    latestVote (vote :: past) vote.blockID voter = latestVote past vote.blockID voter := by
  simp [latestVote, h.symm]

theorem voter_of_latestVote {blockID : Identifier} {voter : NodeID} {v : Vote}
    (h : latestVote past blockID voter = some v) : v.voter = voter := by
  simpa using List.find?_some h

theorem mem_votersFor_of_latestVote {blockID : Identifier} {voter : NodeID} {v : Vote}
    (h : latestVote past blockID voter = some v) : voter ∈ votersFor past blockID := by
  have hmem := List.mem_of_find?_eq_some h
  have hvoter := voter_of_latestVote h
  exact List.mem_toFinset.mpr (List.mem_map.mpr ⟨v, hmem, hvoter⟩)

/-- The contributors are the latest votes of all voters for the block. -/
theorem Completes.contributes_iff (h : Completes env past vote qc) {v : Vote} :
    Contributes past vote qc v ↔ latestVote (vote :: past) vote.blockID v.voter = some v := by
  constructor
  · rintro ⟨i, -, -, hlatest⟩
    exact hlatest
  · intro hlatest
    have hsigner : v.voter ∈ qc.signers := by
      rw [← List.mem_toFinset, h.signers]
      exact mem_votersFor_of_latestVote hlatest
    obtain ⟨i, hi⟩ := List.mem_iff_getElem?.mp hsigner
    obtain ⟨u, hu, hsig⟩ := h.latest i v.voter hi
    obtain rfl : u = v := Option.some.inj (hu.symm.trans hlatest)
    exact ⟨i, hi, hsig, hlatest⟩

end Quorum

/-- All votes of a certificate are of its view exactly if the latest votes of all
other voters for the block are of the view of the vote that completes it. -/
theorem certificate_view_iff {env : Env} {total : ℕ} {past : List Vote} {vote : Vote} {qc : QC}
    (h : ((Quorum.after env total past).add env vote).1 = some qc) :
    (∀ v, Quorum.Contributes past vote qc v → v.view = qc.view) ↔
      ∀ voter v, voter ≠ vote.voter → Quorum.latestVote past vote.blockID voter = some v →
        v.view = vote.view := by
  have hqc := Quorum.add_after_completes h
  rw [hqc.view]
  simp only [hqc.contributes_iff]
  constructor
  · intro hall voter v hne hv
    obtain rfl := Quorum.voter_of_latestVote hv
    exact hall v ((Quorum.latestVote_cons_ne hne).trans hv)
  · intro hothers v hv
    by_cases heq : v.voter = vote.voter
    · rw [heq, Quorum.latestVote_cons_self] at hv
      rw [← Option.some.inj hv]
    · rw [Quorum.latestVote_cons_ne heq] at hv
      exact hothers v.voter v heq hv

/-- Two votes of view 1 and one of view 5 make a certificate of view 5. -/
theorem certificate_view_mixed :
    ∃ qc, ((Quorum.after fourNodes 4 [⟨1, "2", 1, []⟩, ⟨1, "1", 1, []⟩]).add fourNodes
        ⟨5, "3", 1, []⟩).1 = some qc ∧
      Quorum.Contributes [⟨1, "2", 1, []⟩, ⟨1, "1", 1, []⟩] ⟨5, "3", 1, []⟩ qc ⟨1, "1", 1, []⟩ ∧
      qc.view = 5 :=
  ⟨⟨"", 5, 1, ["3", "2", "1"], [[], [], []], []⟩, by decide +kernel, ⟨2, by decide +kernel⟩, rfl⟩

theorem certificate_view_iff_alike :
    ∃ qc, ((Quorum.after fourNodes 4 [⟨1, "2", 1, []⟩, ⟨1, "1", 1, []⟩]).add fourNodes
        ⟨1, "3", 1, []⟩).1 = some qc ∧
      ∀ v, Quorum.Contributes [⟨1, "2", 1, []⟩, ⟨1, "1", 1, []⟩] ⟨1, "3", 1, []⟩ qc v →
        v.view = qc.view := by
  have hqc : ((Quorum.after fourNodes 4 [⟨1, "2", 1, []⟩, ⟨1, "1", 1, []⟩]).add fourNodes
      ⟨1, "3", 1, []⟩).1 = some ⟨"", 1, 1, ["3", "2", "1"], [[], [], []], []⟩ := by
    decide +kernel
  refine ⟨_, hqc, (certificate_view_iff hqc).mpr fun voter v _ hv => ?_⟩
  have hmem := List.mem_of_mem_filter (List.mem_of_find?_eq_some hv)
  simp only [List.mem_cons, List.not_mem_nil, or_false] at hmem
  rcases hmem with rfl | rfl <;> rfl

/-! ## Votes and commits -/

/-- The blocks whose votes a commit of `id` deletes. -/
def BlockChain.walked (bc : BlockChain) (id : Identifier) : List Identifier :=
  match bc.forrest.getVertex id with
  | none => []
  | some block =>
    match committedPath bc.forrest (bc.forrest.vertices.entries.length + 1) block with
    | .error _ => []
    | .ok path => path.map Block.id

/-- What matters of a call: the vote, or the blocks that a commit walks over. -/
inductive VoteEvent
  | voted (vote : Vote)
  | walked (ids : List Identifier)
  deriving DecidableEq, Repr

namespace VoteEvent

/-- The votes for a block, cut into rounds by the commits that walk over it, the
current round first. -/
def rounds (id : Identifier) : List VoteEvent → List Vote × List (List Vote)
  | [] => ([], [])
  | voted vote :: past =>
    let (votes, closed) := rounds id past
    (if vote.blockID = id then vote :: votes else votes, closed)
  | walked ids :: past =>
    let (votes, closed) := rounds id past
    if id ∈ ids then ([], votes :: closed) else (votes, closed)

/-- Every round, the current one included. -/
def allRounds (id : Identifier) (past : List VoteEvent) : List (List Vote) :=
  (rounds id past).1 :: (rounds id past).2

/-- The votes that no commit has deleted. -/
def live : List VoteEvent → List Vote
  | [] => []
  | voted vote :: past => vote :: live past
  | walked ids :: past => (live past).filter (·.blockID ∉ ids)

theorem filter_live (id : Identifier) (past : List VoteEvent) :
    (live past).filter (·.blockID = id) = (rounds id past).1 := by
  induction past with
  | nil => rfl
  | cons e past ih =>
    cases e with
    | voted vote =>
      rw [live, rounds, List.filter_cons]
      by_cases heq : vote.blockID = id <;> simp [heq, ih]
    | walked ids =>
      rw [live, rounds]
      by_cases hmem : id ∈ ids
      · simp only [hmem, if_true]
        rw [List.filter_filter, List.filter_eq_nil_iff]
        intro v _ hv
        simp only [Bool.and_eq_true, decide_eq_true_eq] at hv
        exact hv.2 (hv.1 ▸ hmem)
      · simp only [hmem, if_false]
        rw [← ih, List.filter_filter]
        apply List.filter_congr
        intro v _
        by_cases heq : v.blockID = id
        · simp [heq, hmem]
        · simp [heq]

end VoteEvent

/-- A block chain, what its calls have done to the votes and all certificates that
`AddVote` has returned, both newest first. -/
structure VoteSession where
  bc : BlockChain
  past : List VoteEvent
  issued : List QC

namespace VoteSession

def start (env : Env) : VoteSession := ⟨BlockChain.new env.n, [], []⟩

def step (env : Env) (s : VoteSession) : ChainOp → Except Fault VoteSession
  | .addBlock b => do return { s with bc := ← s.bc.addBlock b }
  | .addVote vote =>
    let (qc, bc) := s.bc.addVote env vote
    .ok ⟨bc, .voted vote :: s.past, qc.toList ++ s.issued⟩
  | .commitBlock id view => do
    return { s with
      bc := (← s.bc.commitBlock id view).2
      past := .walked (s.bc.walked id) :: s.past }

def run (env : Env) (s : VoteSession) (ops : List ChainOp) : Except Fault VoteSession :=
  ops.foldlM (step env) s

variable {env : Env} {s t : VoteSession}

/-- The rounds in which enough voters vote for a block. -/
def full (env : Env) (id : Identifier) (past : List VoteEvent) : List (List Vote) :=
  (VoteEvent.allRounds id past).filter fun votes =>
    env.byzNo * 2 + 1 ≤ (votes.map Vote.voter).toFinset.card

theorem votersFor_live (id : Identifier) (past : List VoteEvent) :
    Quorum.votersFor (VoteEvent.live past) id =
      ((VoteEvent.rounds id past).1.map Vote.voter).toFinset := by
  rw [Quorum.votersFor, VoteEvent.filter_live]

theorem full_voted (id : Identifier) (vote : Vote) (past : List VoteEvent) :
    (full env id (.voted vote :: past)).length +
        (if env.byzNo * 2 + 1 ≤ (Quorum.votersFor (VoteEvent.live past) id).card then 1 else 0) =
      (full env id past).length +
        if env.byzNo * 2 + 1 ≤ (Quorum.votersFor (vote :: VoteEvent.live past) id).card
          then 1 else 0 := by
  have hnow := votersFor_live id (.voted vote :: past)
  rw [VoteEvent.live] at hnow
  rw [votersFor_live id past, hnow]
  simp only [full, VoteEvent.allRounds, List.filter_cons, decide_eq_true_eq]
  rw [show (VoteEvent.rounds id (.voted vote :: past)).2 = (VoteEvent.rounds id past).2 from rfl]
  split_ifs <;> simp only [List.length_cons]

theorem full_walked (id : Identifier) (ids : List Identifier) (past : List VoteEvent) :
    (full env id (.walked ids :: past)).length = (full env id past).length := by
  unfold full VoteEvent.allRounds
  by_cases hmem : id ∈ ids
  · simp [VoteEvent.rounds, hmem, List.filter_cons]
  · simp [VoteEvent.rounds, hmem]

/-- The votes are counted from the last commit on, and every full round has had
its certificate. -/
structure Tallied (env : Env) (s : VoteSession) : Prop where
  kept : Threshold.Kept (env.byzNo * 2 + 1) ((VoteEvent.live s.past).map Quorum.filing)
    s.bc.quorum.votes
  issued : ∀ id, (s.issued.filter (·.blockID = id)).length = (full env id s.past).length

theorem tallied_start (env : Env) : (start env).Tallied env where
  kept := Threshold.kept_empty (Nat.succ_pos _)
  issued id := by simp [start, full, VoteEvent.allRounds, VoteEvent.rounds]

theorem step_addVote (env : Env) (s : VoteSession) (vote : Vote) :
    step env s (.addVote vote) = .ok
      ⟨{ s.bc with quorum := (s.bc.quorum.add env vote).2 }, .voted vote :: s.past,
        (s.bc.quorum.add env vote).1.toList ++ s.issued⟩ :=
  rfl

theorem Tallied.addVote (hs : s.Tallied env) (vote : Vote) :
    Tallied env ⟨{ s.bc with quorum := (s.bc.quorum.add env vote).2 }, .voted vote :: s.past,
      (s.bc.quorum.add env vote).1.toList ++ s.issued⟩ := by
  constructor
  · rw [Quorum.add_eq_threshold]
    exact (hs.kept.add vote.blockID vote.voter vote).1
  · intro id
    have hcount := @Quorum.add_count env _ vote _ hs.kept id
    have hfull := @full_voted env id vote s.past
    have hissued := hs.issued id
    simp only [List.filter_append, List.length_append]
    omega

theorem countCommitted_votes (view : View) (path : List Block) (bc : BlockChain) :
    (path.foldl (BlockChain.countCommitted view) bc).quorum.votes =
      (path.map Block.id).foldl (fun votes id => votes.erase id) bc.quorum.votes := by
  induction path generalizing bc with
  | nil => rfl
  | cons b path ih => exact ih (BlockChain.countCommitted view bc b)

theorem votes_of_commitBlock {bc bc' : BlockChain} {id : Identifier} {view : View}
    {r : Except Err (List Block × List Block)} (h : bc.commitBlock id view = .ok (r, bc')) :
    bc'.quorum.votes = (bc.walked id).foldl (fun votes id => votes.erase id) bc.quorum.votes := by
  rcases BlockChain.commitBlock_ok h with ⟨hnone, -, rfl⟩ | ⟨block, path, res, hb, hpath, -, hq, -⟩
  · simp [BlockChain.walked, hnone]
  · rw [hq, countCommitted_votes]
    simp [BlockChain.walked, hb, hpath]

theorem Tallied.commitBlock (hs : s.Tallied env) {id : Identifier} {view : View}
    {r : Except Err (List Block × List Block) × BlockChain}
    (h : s.bc.commitBlock id view = .ok r) :
    Tallied env { s with bc := r.2, past := .walked (s.bc.walked id) :: s.past } := by
  constructor
  · have hlive : (VoteEvent.live (.walked (s.bc.walked id) :: s.past)).map Quorum.filing =
        Threshold.forget (s.bc.walked id) ((VoteEvent.live s.past).map Quorum.filing) := by
      rw [VoteEvent.live, Threshold.forget, List.filter_map]
      exact congrArg _ (List.filter_congr fun v _ => decide_eq_decide.mpr Iff.rfl)
    rw [votes_of_commitBlock h, hlive]
    exact hs.kept.foldl_erase (Nat.succ_pos _) (s.bc.walked id)
  · intro id'
    rw [full_walked]
    exact hs.issued id'

theorem Tallied.step (hs : s.Tallied env) {op : ChainOp} (h : step env s op = .ok t) :
    t.Tallied env := by
  cases op with
  | addBlock b =>
    obtain ⟨bc, hbc, rfl⟩ := exists_of_map_eq_ok h
    obtain ⟨f, -, rfl⟩ := BlockChain.addBlock_ok hbc
    exact ⟨hs.kept, hs.issued⟩
  | addVote vote =>
    rw [step_addVote] at h
    cases h
    exact hs.addVote vote
  | commitBlock id view =>
    obtain ⟨r, hr, rfl⟩ := exists_of_map_eq_ok h
    exact hs.commitBlock hr

theorem Tallied.run {ops : List ChainOp} (hs : s.Tallied env) (h : run env s ops = .ok t) :
    t.Tallied env := by
  induction ops generalizing s with
  | nil =>
    cases h
    exact hs
  | cons op ops ih =>
    rw [VoteSession.run, List.foldlM_cons] at h
    cases hstep : VoteSession.step env s op with
    | error e =>
      rw [hstep] at h
      cases h
    | ok s' =>
      rw [hstep] at h
      exact ih (hs.step hstep) h

/-- The session only watches the block chain. -/
theorem run_bc (env : Env) (s : VoteSession) (ops : List ChainOp) :
    (run env s ops).map VoteSession.bc = s.bc.run env ops := by
  induction ops generalizing s with
  | nil => rfl
  | cons op ops ih =>
    have hstep : (step env s op).map VoteSession.bc = s.bc.apply env op := by
      cases op with
      | addBlock b =>
        cases h : s.bc.addBlock b <;>
          simp [step, BlockChain.apply, h, bind, Except.bind, pure, Except.pure, Except.map]
      | addVote vote => rfl
      | commitBlock id view =>
        cases h : s.bc.commitBlock id view <;>
          simp [step, BlockChain.apply, h, bind, Except.bind, pure, Except.pure, Except.map]
    rw [run, BlockChain.run, List.foldlM_cons, List.foldlM_cons, ← hstep]
    cases step env s op with
    | error e => rfl
    | ok s' => exact ih s'

end VoteSession

/-- Over the life of a block chain `AddVote` returns at most one certificate for a
block exactly if there is at most one round of votes for it with enough voters,
where the commits that walk over the block end a round. -/
theorem one_certificate_iff {env : Env} {ops : List ChainOp} {bc : BlockChain}
    (h : (BlockChain.new env.n).run env ops = .ok bc) :
    ∃ s, VoteSession.run env (.start env) ops = .ok s ∧ s.bc = bc ∧
      ∀ id, (s.issued.filter (·.blockID = id)).length ≤ 1 ↔
        (VoteSession.full env id s.past).length ≤ 1 := by
  rw [show BlockChain.new env.n = (VoteSession.start env).bc from rfl, ← VoteSession.run_bc] at h
  obtain ⟨s, hs, rfl⟩ := exists_of_map_eq_ok h
  refine ⟨s, hs, rfl, fun id => ?_⟩
  rw [((VoteSession.tallied_start env).run hs).issued id]

/-- Three votes certify a block, and after its commit three votes do so again. -/
theorem two_certificates :
    (VoteSession.run fourNodes (.start fourNodes)
      [.addBlock (.onView 1 0), .addVote ⟨1, "1", 1, []⟩, .addVote ⟨1, "2", 1, []⟩,
        .addVote ⟨1, "3", 1, []⟩, .commitBlock 1 2, .addVote ⟨1, "1", 1, []⟩,
        .addVote ⟨1, "2", 1, []⟩, .addVote ⟨1, "3", 1, []⟩]).map
      (fun s => (s.issued.filter (·.blockID = 1)).length) = .ok 2 := by
  decide +kernel

/-- One vote too few for a second certificate. -/
theorem one_certificate_iff_late :
    ∃ s, VoteSession.run fourNodes (.start fourNodes)
        [.addBlock (.onView 1 0), .addVote ⟨1, "1", 1, []⟩, .addVote ⟨1, "2", 1, []⟩,
          .addVote ⟨1, "3", 1, []⟩, .commitBlock 1 2, .addVote ⟨1, "1", 1, []⟩,
          .addVote ⟨1, "4", 1, []⟩] = .ok s ∧
      ((s.issued.filter (·.blockID = 1)).length ≤ 1 ↔
        (VoteSession.full fourNodes 1 s.past).length ≤ 1) := by
  have hrun : (((BlockChain.new fourNodes.n).run fourNodes
      [.addBlock (.onView 1 0), .addVote ⟨1, "1", 1, []⟩, .addVote ⟨1, "2", 1, []⟩,
        .addVote ⟨1, "3", 1, []⟩, .commitBlock 1 2, .addVote ⟨1, "1", 1, []⟩,
        .addVote ⟨1, "4", 1, []⟩]).map fun _ => ()) = .ok () := by
    decide +kernel
  obtain ⟨bc, hbc, -⟩ := exists_of_map_eq_ok hrun
  obtain ⟨s, hs, -, hiff⟩ := one_certificate_iff hbc
  exact ⟨s, hs, hiff 1⟩

end Bamboo
