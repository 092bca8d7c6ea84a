import Bamboo.HighQC

/-!
# Which blocks are stored

Of all that a stored block should satisfy, `ProcessBlock` of HotStuff insists on
one thing: that its proposer leads its view. A bad signature is logged, and
neither the id nor the link to the certified block is looked at.
-/
namespace Bamboo

open Relation Stepwise

/-- A block as `MakeBlock` makes it: signed by its proposer, named by the hash of
its content, and extending the certified block in a larger view. -/
structure Authentic (env : Env) (b : Block) : Prop where
  signed : Verifies env b.sig b.id b.proposer
  hash : b.id = env.crypto.makeID b.raw
  parent : ∃ q ∈ b.qc, b.prevID = q.blockID ∧ q.view < b.view

/-- The blocks a replica has proposed, newest first. -/
def proposalsOf (trace : List Event) : List Block := trace.filterMap Event.proposed

/-! ## The leader check -/

/-- Every stored block was proposed by the leader of its view. -/
def LedBlocks (env : Env) (s : Replica) : Prop :=
  ∀ id p, s.bc.forrest.getVertex id = some p → env.election.isLeader p.proposer p.view = true

theorem Clerical.ledBlocks {env : Env} {K : Known} {s s' : Replica}
    (h : Clerical env .hotStuff K s s') (hsound : s.bc.forrest.Sound) (hs : LedBlocks env s) :
    LedBlocks env s' := by
  cases h with
  | store core b bc _ _ hleader hadd =>
    obtain ⟨f, hf, rfl⟩ := BlockChain.addBlock_ok hadd
    intro id p hp
    rw [(LevelledForest.addVertex_spec hsound hf).2.2] at hp
    split_ifs at hp
    · obtain rfl := Option.some.inj hp
      exact hleader (by decide)
    · exact hs id p hp
  | tally v bc _ hadd =>
    obtain ⟨-, rfl⟩ := addVote_eq hadd
    exact hs
  | build v qc bc _ hadd =>
    obtain ⟨-, rfl⟩ := addVote_eq hadd
    exact hs
  | commit qc head committed forked bc _ hdone =>
    exact fun id p hp => hs id p ((BlockChain.commitBlock_forgets hdone).1.getVertex hp)
  | commitFailed d e bc hc =>
    exact fun id p hp => hs id p ((BlockChain.commitBlock_forgets hc).1.getVertex hp)
  | _ => exact hs

theorem Step.ledBlocks {env : Env} {K : Known} {s s' : Replica} (h : Step env .hotStuff K s s')
    (hst : Steady env .hotStuff K s) (hs : LedBlocks env s) : LedBlocks env s' := by
  rcases h with ((h | _) | _ | _) | _ | _ | _
  · exact h.ledBlocks hst.sound hs
  all_goals exact hs

theorem HotStuff.ledBlocks_after (env : Env) (id : NodeID) (isByz : Bool)
    (inputs : List (Input × ℕ)) : LedBlocks env (HotStuff.after env id isByz inputs) := by
  refine Steps.invariant (J := LedBlocks env) (fun _ _ hstep hst hs => hstep.ledBlocks hst hs)
    (Replica.new_steps env .hotStuff id isByz inputs []) (steady_new ..) ?_
  intro d p hp
  simp [Replica.new, BlockChain.new, LevelledForest.new, LevelledForest.getVertex] at hp

/-! ## Runs -/

/-- If the blocks that others deliver in the name of a leader are authentic, then
so is every stored block but the replica's own; the leader check itself is made. -/
theorem stored_blocks_authentic (env : Env) (id : NodeID) (inputs : List (Input × ℕ))
    (h : ∀ before b fuel after, inputs = before ++ (.deliver (.block b), fuel) :: after →
      env.election.isLeader b.proposer b.view = true →
      b ∈ proposalsOf (HotStuff.after env id false before).trace ∨ Authentic env b) :
    ∀ d p, (HotStuff.after env id false inputs).bc.forrest.getVertex d = some p →
      env.election.isLeader p.proposer p.view = true ∧
        (p ∈ proposalsOf (HotStuff.after env id false inputs).trace ∨ Authentic env p) := by
  intro d p hp
  have hleader := HotStuff.ledBlocks_after env id false inputs d p hp
  refine ⟨hleader, ?_⟩
  obtain ⟨-, fuel, hmem⟩ := (Replica.run_reachable env .hotStuff id inputs).stored hp
  obtain ⟨before, after, hsplit⟩ := List.mem_iff_append.mp hmem
  refine (h before p fuel after hsplit hleader).imp_left fun hown => ?_
  have hsuffix := (Steps.later (Replica.after_steps env .hotStuff id false before
    ((.deliver (.block p), fuel) :: after))).trace
  rw [← hsplit] at hsuffix
  obtain ⟨e, he, hproposed⟩ := List.mem_filterMap.mp hown
  exact List.mem_filterMap.mpr ⟨e, hsuffix.subset he, hproposed⟩

/-- Node 1 stores the four blocks of the chain, which are authentic. -/
theorem stored_blocks_authentic_on_four_blocks :
    (HotStuff.after fourNodes "1" false fourNodes.fourBlocks).bc.forrest.getVertex
      (fourNodes.chain 2).id = some (fourNodes.chain 2) ∧
    Authentic fourNodes (fourNodes.chain 2) := by
  have hstored : (HotStuff.after fourNodes "1" false fourNodes.fourBlocks).bc.forrest.getVertex
      (fourNodes.chain 2).id = some (fourNodes.chain 2) := by
    decide +kernel
  have hown : proposalsOf (HotStuff.after fourNodes "1" false fourNodes.fourBlocks).trace = [] := by
    decide +kernel
  have hall : ∀ b ∈ deliveredBlocks fourNodes.fourBlocks,
      Verifies fourNodes b.sig b.id b.proposer ∧ b.id = fourNodes.crypto.makeID b.raw ∧
        ∃ q ∈ b.qc, b.prevID = q.blockID ∧ q.view < b.view := by
    decide +kernel
  obtain ⟨-, hmem | hauth⟩ := stored_blocks_authentic fourNodes "1" fourNodes.fourBlocks
    (fun before b fuel after hsplit _ => by
      obtain ⟨hsigned, hhash, hparent⟩ := hall b (List.mem_filterMap.mpr
        ⟨(.deliver (.block b), fuel), by simp [hsplit], rfl⟩)
      exact Or.inr ⟨hsigned, hhash, hparent⟩) _ _ hstored
  · rw [hown] at hmem
    cases hmem
  · exact ⟨hstored, hauth⟩

/-- A block of view 1 in the name of its leader, with nothing else right: nobody
signed it, its id is made up, and its certificate is of view 5 and for another block. -/
def bogusBlock : Block :=
  ⟨1, some ⟨"", 5, 8, [], [], []⟩, "4", [], 9, [[0], [0]], 7, false, 0, 0⟩

theorem bogus_block_stored :
    (HotStuff.after fourNodes "1" false (deliverAll [bogusBlock])).bc.forrest.getVertex 7 =
      some bogusBlock ∧
    bogusBlock ∉ proposalsOf (HotStuff.after fourNodes "1" false (deliverAll [bogusBlock])).trace ∧
    ¬ Verifies fourNodes bogusBlock.sig bogusBlock.id bogusBlock.proposer ∧
    bogusBlock.id ≠ fourNodes.crypto.makeID bogusBlock.raw ∧
    ∃ q ∈ bogusBlock.qc, bogusBlock.prevID ≠ q.blockID ∧ ¬ q.view < bogusBlock.view := by
  decide +kernel

end Bamboo
