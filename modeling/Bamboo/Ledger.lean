import Bamboo.Certificates

/-!
# The ledger of a HotStuff replica

A commit names a head and delivers it with its stored ancestors, down to the
lowest level the forest retains. What a commit says about views depends on the
view that is written in the certificate; what it delivers depends on which
ancestors are stored.
-/
namespace Bamboo

open Stepwise

/-! ## Three-chains -/

/-- Stored blocks `p` and `b` continue `g` in consecutive views up to the
certified block. -/
def ThreeChain (core : Core) (qc : QC) (g : Block) : Prop :=
  ∃ p b, core.bc.forrest.getVertex p.id = some p ∧ core.bc.forrest.getVertex b.id = some b ∧
    p.prevID = g.id ∧ b.prevID = p.id ∧ b.id = qc.blockID ∧
      b.view = p.view + 1 ∧ p.view + 1 = g.view + 2

/-- What the commit rule has looked at when it names a block. -/
theorem commitRule_some {bc : BlockChain} {qc : QC} {g : Block} (hsound : bc.forrest.Sound)
    (h : HotStuff.commitRule bc qc = .ok (.ok (some g))) :
    ∃ p b, bc.forrest.getVertex p.id = some p ∧ bc.forrest.getVertex b.id = some b ∧
      bc.forrest.getVertex g.id = some g ∧ p.prevID = g.id ∧ b.prevID = p.id ∧
      b.id = qc.blockID ∧ g.view + 1 = p.view ∧ p.view + 1 = qc.view := by
  unfold HotStuff.commitRule at h
  cases hp : bc.getParentBlock qc.blockID with
  | error f => rw [hp] at h; cases h
  | ok rp =>
    cases rp with
    | error e => rw [hp] at h; cases h
    | ok p =>
      simp only [hp, bind, Except.bind] at h
      cases hg : bc.getParentBlock p.id with
      | error f => rw [hg] at h; cases h
      | ok rg =>
        cases rg with
        | error e => rw [hg] at h; cases h
        | ok g' =>
          simp only [hg] at h
          split_ifs at h with hviews
          · cases h
            obtain ⟨b, hb, hbp⟩ := BlockChain.getParentBlock_ok hp
            obtain ⟨p', hp', hpg⟩ := BlockChain.getParentBlock_ok hg
            have hbid := hsound.id_of_getVertex hb
            have hpid := hsound.id_of_getVertex hbp
            have hgid := hsound.id_of_getVertex hpg
            obtain rfl : p' = p := Option.some.inj (hp'.symm.trans (hpid ▸ hbp))
            exact ⟨p', b, hp', hbid ▸ hb, hgid ▸ hpg, hgid.symm, hpid.symm, hbid, hviews.1,
              hviews.2⟩
          · cases h

/-- A commit is the commit of a three-chain exactly if the certificate bears
the view of the block it is for. -/
theorem commits_three_chain_iff (env : Env) (id : NodeID) (inputs : List (Input × ℕ)) :
    ∀ e ∈ ((Replica.new env id false).run env .hotStuff inputs).trace,
      ∀ c ∈ e.commits, ThreeChain e.core c.1 c.2 ↔
        ∀ b ∈ e.core.bc.forrest.getVertex c.1.blockID, b.view = c.1.view := by
  intro e he c hc
  obtain ⟨s, -, hreach, -, hcore, hrec⟩ :=
    (Replica.run_reachable env .hotStuff id inputs).mem he
  cases e with
  | commit core qc head committed =>
    cases hc
    cases hcore
    obtain ⟨⟨-, -, hrule⟩, -⟩ := hrec
    obtain ⟨p, b, hp, hb, -, hpg, hbp, hid, hgp, hpq⟩ := commitRule_some hreach.steady.sound hrule
    constructor
    · rintro ⟨p', b', hp', hb', -, hbp', hid', hview, -⟩ b'' hb''
      obtain rfl : b'' = b' := Option.some.inj (hb''.symm.trans (hid' ▸ hb'))
      obtain rfl : b'' = b := Option.some.inj (hb''.symm.trans (hid ▸ hb))
      obtain rfl : p' = p := Option.some.inj (hp'.symm.trans (hbp' ▸ hbp.symm ▸ hp))
      rw [hview, hpq]
    · intro hview
      refine ⟨p, b, hp, hb, hpg, hbp, hid, ?_, ?_⟩
      · rw [hpq]
        exact hview b (hid ▸ hb)
      · rw [← hgp]
        exact Int64.add_assoc _ 1 1
  | _ => cases hc

theorem commits_three_chain_of_four_blocks :
    ∃ e ∈ ((Replica.new fourNodes "1" false).run fourNodes .hotStuff fourNodes.fourBlocks).trace,
      ∃ c ∈ e.commits, c.2 = fourNodes.chain 0 ∧ ThreeChain e.core c.1 c.2 := by
  have hsome : ∃ e ∈ ((Replica.new fourNodes "1" false).run fourNodes .hotStuff
      fourNodes.fourBlocks).trace,
      ∃ c ∈ e.commits, c.2 = fourNodes.chain 0 ∧
        ∀ b ∈ e.core.bc.forrest.getVertex c.1.blockID, b.view = c.1.view := by
    decide +kernel
  obtain ⟨e, he, c, hc, hhead, hview⟩ := hsome
  exact ⟨e, he, c, hc, hhead,
    (commits_three_chain_iff fourNodes "1" fourNodes.fourBlocks e he c hc).mpr hview⟩

/-- A block of view 4 that extends the block of view 2. -/
def skippingBlock : Block :=
  fourNodes.block 4 (fourNodes.certificate 2 (fourNodes.chain 1).id [2, 3, 4]) 3 []

/-- A timeout with the signatures of nodes 1, 2 and 3 on that block, under view 3. -/
def relabelled : List (Input × ℕ) :=
  fourNodes.timeouts 3 ++ deliverAll [fourNodes.chain 0, fourNodes.chain 1, skippingBlock] ++
    [(.deliver (.tmo ⟨4, "4", some (fourNodes.certificate 3 skippingBlock.id [1, 2, 3])⟩), 8)]

/-- The block of view 1 is committed, though views 1, 2 and 4 are not consecutive. -/
theorem commits_without_three_chain :
    ∃ e ∈ ((Replica.new fourNodes "1" false).run fourNodes .hotStuff relabelled).trace,
      ∃ c ∈ e.commits, RealQuorum fourNodes c.1 ∧ ¬ ThreeChain e.core c.1 c.2 := by
  have hsome : ∃ e ∈ ((Replica.new fourNodes "1" false).run fourNodes .hotStuff relabelled).trace,
      ∃ c ∈ e.commits, RealQuorum fourNodes c.1 ∧ c.2.view = 1 ∧
        e.core.bc.forrest.getVertex c.1.blockID = some skippingBlock := by
    decide +kernel
  obtain ⟨e, he, c, hc, hreal, hhead, hstored⟩ := hsome
  refine ⟨e, he, c, hc, hreal, ?_⟩
  rintro ⟨p, b, -, hb, -, -, hid, hview, hviews⟩
  obtain rfl : b = skippingBlock := Option.some.inj ((hid ▸ hb).symm.trans hstored)
  rw [hviews, hhead] at hview
  exact absurd hview (by decide)

/-! ## Gaps -/

/-- The parent is the genesis block or one of the given blocks. -/
def ParentAmong (blocks : List Block) (b : Block) : Prop :=
  b.prevID = genesisID ∨ ∃ p ∈ blocks, p.id = b.prevID

/-- Each delivered block's parent was delivered before or in the same call. -/
def NoGap (trace : List Event) : Prop :=
  AtEach (fun e past => ∀ b ∈ e.delivers, ParentAmong (e.delivers ++ ledgerOf past) b) trace

/-- From the block, an unbroken chain of blocks that are stored above the lowest
level leads to one that extends the genesis block or a delivered block. -/
def Grounded (f : LevelledForest) (delivered : List Block) : ℕ → Block → Prop
  | 0, _ => False
  | fuel + 1, b =>
    (∀ p ∈ f.getVertex b.prevID, f.lowestLevel < p.level → Grounded f delivered fuel p) ∧
      ((∀ p ∈ f.getVertex b.prevID, ¬ f.lowestLevel < p.level) → ParentAmong delivered b)

instance (blocks : List Block) (b : Block) : Decidable (ParentAmong blocks b) :=
  inferInstanceAs (Decidable (_ ∨ _))

instance Grounded.decidable (f : LevelledForest) (delivered : List Block) :
    (fuel : ℕ) → (b : Block) → Decidable (Grounded f delivered fuel b)
  | 0, _ => isFalse id
  | fuel + 1, _ =>
    have := Grounded.decidable f delivered fuel
    inferInstanceAs (Decidable (_ ∧ _))

/-- Whenever a block above the lowest level is committed, it is grounded. -/
def CommitsGrounded (trace : List Event) : Prop :=
  AtEach (fun e past => ∀ c ∈ e.commits, e.core.bc.forrest.lowestLevel < c.2.level →
    Grounded e.core.bc.forrest (ledgerOf past) (e.core.bc.forrest.vertices.entries.length + 1) c.2)
    trace

instance (trace : List Event) : Decidable (CommitsGrounded trace) :=
  AtEach.decidable _ trace

theorem ParentAmong.mono {blocks blocks' : List Block} {b : Block} (h : ParentAmong blocks b)
    (hsub : blocks ⊆ blocks') : ParentAmong blocks' b :=
  h.imp_right fun ⟨p, hp, hid⟩ => ⟨p, hsub hp, hid⟩

theorem committedPath_head {f : LevelledForest} {fuel : ℕ} {block : Block} {path : List Block}
    (h : BlockChain.committedPath f fuel block = .ok path) :
    (f.lowestLevel < block.level → block ∈ path) ∧ (¬ f.lowestLevel < block.level → path = []) := by
  cases fuel with
  | zero => cases h
  | succ fuel =>
    rcases BlockChain.committedPath_ok h with ⟨hlow, rfl⟩ | ⟨hlow, rest, rfl, -⟩
    · exact ⟨fun hl => absurd hl hlow, fun _ => rfl⟩
    · exact ⟨fun _ => List.mem_cons_self, fun hl => absurd hlow hl⟩

/-- The walk of `CommitBlock` delivers the parents of all but the block where it
ends, and that one's parent is there already. -/
theorem Grounded.committedPath {f : LevelledForest} (hf : f.Sound) {delivered : List Block}
    {fuel : ℕ} {block : Block} {path : List Block} (h : Grounded f delivered fuel block)
    (hpath : BlockChain.committedPath f fuel block = .ok path) :
    ∀ b ∈ path, ParentAmong (path ++ delivered) b := by
  induction fuel generalizing block path with
  | zero => cases h
  | succ fuel ih =>
    unfold Grounded at h
    rcases BlockChain.committedPath_ok hpath with ⟨-, rfl⟩ | ⟨-, rest, rfl, hrest⟩
    · simp
    rw [List.forall_mem_cons]
    rcases hrest with ⟨hp, rfl⟩ | ⟨p, hp, hrest⟩
    · exact ⟨(h.2 (by simp [hp])).mono (by simp), by simp⟩
    · obtain ⟨hhead, hnil⟩ := committedPath_head hrest
      by_cases hlp : f.lowestLevel < p.level
      · refine ⟨Or.inr ⟨p, by simp [hhead hlp], hf.id_of_getVertex hp⟩, fun b hb => ?_⟩
        exact (ih (h.1 p hp hlp) hrest b hb).mono (by simp)
      · rw [hnil hlp]
        exact ⟨(h.2 (by simpa [hp] using hlp)).mono (by simp), by simp⟩

theorem Reachable.noGap {env : Env} {K : Known} {id : NodeID} {s : Replica}
    (h : Reachable env .hotStuff K id s) (hground : CommitsGrounded s.trace) : NoGap s.trace := by
  refine atEach_iff.mpr fun recent e past hsplit => ?_
  obtain ⟨s₁, hreach, -, hcore, hrec⟩ := h.event hsplit
  have hg := atEach_iff.mp hground recent e past hsplit
  cases e with
  | commit core qc head committed =>
    cases hcore
    obtain ⟨⟨-, -, hrule⟩, forked, bc, hdone⟩ := hrec
    have hsound := hreach.steady.sound
    obtain ⟨-, -, -, -, hhead, -⟩ := commitRule_some hsound hrule
    obtain ⟨block, hblock, hpath⟩ := BlockChain.commitBlock_path hdone
    obtain rfl : block = head := Option.some.inj (hblock.symm.trans hhead)
    by_cases hl : s₁.bc.forrest.lowestLevel < block.level
    · exact (hg (qc, block) rfl hl).committedPath hsound hpath
    · obtain rfl := (committedPath_head hpath).2 hl
      exact fun b hb => by cases hb
  | _ => exact fun b hb => by cases hb

theorem NoGap.ledger {trace : List Event} (h : NoGap trace) :
    ∀ b ∈ ledgerOf trace, ParentAmong (ledgerOf trace) b := by
  induction h with
  | nil => intro b hb; cases hb
  | cons now _ ih =>
    intro b hb
    rcases List.mem_append.mp hb with hb | hb
    · exact now b hb
    · exact (ih b hb).mono (List.subset_append_right _ _)

/-- A replica of an honest network that commits grounded blocks only has no gap
in its ledger. -/
theorem ledger_without_gap (env : Env) (turns : List Turn) (i : ℕ)
    (h : CommitsGrounded ((World.after env .hotStuff turns).nodes i).trace) :
    NoGap ((World.after env .hotStuff turns).nodes i).trace ∧
      ∀ b ∈ ((World.after env .hotStuff turns).nodes i).committedBlocks,
        ParentAmong ((World.after env .hotStuff turns).nodes i).committedBlocks b := by
  obtain ⟨inputs, hrun⟩ := World.after_node env .hotStuff turns i
  rw [hrun] at h ⊢
  have hreach := Replica.run_reachable env .hotStuff (newNodeID i) inputs
  have hgap := hreach.noGap h
  refine ⟨hgap, fun b hb => ?_⟩
  have hledger := hgap.ledger b ((hreach.delivered b).mp hb)
  exact hledger.mono fun p hp => (hreach.delivered p).mpr hp

/-- Nodes 2, 3 and 4 go through views 1 to 4 and time out. Node 1 gets their
timeouts and then the blocks of views 2, 3 and 4, but never the one of view 1. -/
def lostBlock : List Turn :=
  -- view 1
  [⟨4, .txn, 8⟩, ⟨4, .newView [], 8⟩] ++ spread 4 0 [4, 2, 3] ++ collect 4 [(2, 0), (3, 0)] ++
  spread 4 1 [2, 3] ++ collect 4 [(2, 1), (3, 1)] ++
  -- view 2
  [⟨4, .newView [], 8⟩] ++ spread 4 2 [4, 2, 3] ++ collect 4 [(2, 2), (3, 2)] ++
  spread 4 3 [2, 3] ++ collect 4 [(2, 3), (3, 3)] ++
  -- view 3, whose votes go to node 3
  [⟨4, .newView [], 8⟩] ++ spread 4 4 [4, 3, 2] ++ collect 3 [(4, 5), (2, 4)] ++
  spread 3 4 [2, 4] ++ collect 3 [(2, 5), (4, 6)] ++
  -- view 4
  List.replicate 4 ⟨3, .newView [], 8⟩ ++ spread 3 5 [3, 2, 4] ++ collect 3 [(2, 6), (4, 7)] ++
  [⟨2, .timeout, 8⟩, ⟨3, .timeout, 8⟩, ⟨4, .timeout, 8⟩] ++
  -- node 1
  collect 1 [(2, 7), (3, 7), (4, 8), (4, 2), (4, 4), (3, 5)]

theorem ledger_of_node_three :
    ((World.after fourNodes .hotStuff lostBlock).nodes 3).committedBlocks.map
      Block.view = [1, 2] ∧
    NoGap ((World.after fourNodes .hotStuff lostBlock).nodes 3).trace := by
  -- one evaluation of the run for both
  obtain ⟨hviews, hgrounded⟩ : ((World.after fourNodes .hotStuff lostBlock).nodes
      3).committedBlocks.map Block.view = [1, 2] ∧
      CommitsGrounded ((World.after fourNodes .hotStuff lostBlock).nodes 3).trace := by
    decide +kernel
  exact ⟨hviews, (ledger_without_gap fourNodes lostBlock 3 hgrounded).1⟩

/-- Node 1 delivers the block of view 2 and never its parent. -/
theorem ledger_of_node_one :
    ((World.after fourNodes .hotStuff lostBlock).nodes 1).committedBlocks.map
      (fun b => (b.view, b.prevID)) = [(2, 1)] ∧
    ∃ b ∈ ((World.after fourNodes .hotStuff lostBlock).nodes 1).committedBlocks,
      ¬ ParentAmong
        ((World.after fourNodes .hotStuff lostBlock).nodes 1).committedBlocks b := by
  decide +kernel

end Bamboo
