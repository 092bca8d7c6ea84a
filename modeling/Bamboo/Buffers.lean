import Bamboo.Network
import Bamboo.ViewBounds

/-!
# Blocks that come early

A block above the current view is buffered under the view before its own. All
that a turn adds to the buffer is the delivered block, and only if it is above
the view the turn ends in; a block that should have left the buffer is one that
was there before. Entering a view does not look at the buffer: a timeout
certificate leaves it as it is, and the two-chain protocols process the block of
the next view without taking it out.

HotStuff takes the block of the next view out when it has voted, whether or not
that view has come. If it has not, the block is buffered anew and then deleted.
-/
namespace Bamboo

open Relation Stepwise

/-! ## Early blocks -/

/-- Every buffered block is above the current view. -/
def Ahead (s : Replica) : Prop :=
  ∀ view b, s.bufferedBlocks.lookup view = some b → s.pm.curView < b.view

/-- There has been no reason yet to leave a view for the block's own or a higher one. -/
def OutOfReach (env : Env) (D : Msg → Prop) (s : Replica) (b : Block) : Prop :=
  ∀ view, Justified env D s view → view + 1 < b.view

section Start

variable (p : Pacemaker)

theorem Pacemaker.start_advanceView_zero :
    (p.advanceView 0).start.curView = p.start.curView := by
  by_cases h : p.curView < 1
  · simp [start_curView, advanceView, view_pos_iff, h]
  · simp [start_curView, advanceView, view_pos_iff, h]

theorem Pacemaker.le_advanceView {view : View} (h : view < Int64.maxValue) :
    p.curView ≤ (p.advanceView view).curView := by
  unfold advanceView
  split_ifs with hlt
  · exact Int64.le_refl _
  · have hle := Int64.le_iff_toInt_le.mp (Int64.not_lt.mp hlt)
    have hsucc := toInt_succ h
    change p.curView ≤ view + 1
    rw [Int64.le_iff_toInt_le]
    omega

/-- Leaving a view for the one after it stays below a view that is above both. -/
theorem Pacemaker.start_advanceView_lt {view w : View} (hp : p.start.curView < w)
    (hview : view + 1 < w) : (p.advanceView view).start.curView < w := by
  unfold advanceView
  split_ifs with hlt
  · exact hp
  · rw [start_curView]
    split_ifs
    · exact Int64.lt_of_le_of_lt p.one_le_start hp
    · exact hview

end Start

/-- What a turn on an early block does to the views and the buffer. -/
structure Shelves (b : Block) (s s' : Replica) : Prop where
  start : s'.pm.start.curView = s.pm.start.curView
  buffer : ∀ view c, s'.bufferedBlocks.lookup view = some c →
    s.bufferedBlocks.lookup view = some c ∨ c = b

section Turns

variable {env : Env} {alg : Algorithm} {K : Known} {D : Msg → Prop} {s s' : Replica} {b : Block}

theorem processBlock_shelves (fuel : ℕ) (h : s.pm.start.curView < b.view) :
    Leads (Shelves b) (fun t => t = s) (Safety.processBlock env alg fuel b) fun _ _ => True := by
  refine (processBlock_early h ⟨s.pm.start_advanceView_zero, fun _ _ hc => Or.inl hc⟩
    ⟨rfl, fun key c hc => ?_⟩).post fun _ _ _ => trivial
  exact (lookup_insert_cases hc).elim (fun h => Or.inr h.2) Or.inl

/-- The blocks that are buffered in a state. -/
def Waiting (s : Replica) (b : Block) : Prop :=
  ∃ view, s.bufferedBlocks.lookup view = some b

theorem SteadyAt.narrow (hs : Steady env alg K s) : Steady env alg (K.narrow (Waiting s)) s :=
  { hs with blocks := fun view b hb =>
      ⟨(hs.blocks view b hb).1, (hs.blocks view b hb).2.1, view, hb⟩ }

theorem SteadyAt.of_narrow {M : Block → Prop} (hM : ∀ b, M b → K.early b)
    (hs : Steady env alg (K.narrow M) s) : Steady env alg K s :=
  { hs with blocks := fun view b hb =>
      ⟨(hs.blocks view b hb).1, (hs.blocks view b hb).2.1, hM b (hs.blocks view b hb).2.2⟩ }

theorem SteadyAt.waiting_iff (hs : Steady env alg K s) :
    Waiting s b ↔ s.bufferedBlocks.lookup (b.view - 1) = some b := by
  constructor
  · rintro ⟨view, hb⟩
    rw [(hs.blocks view b hb).1]
    exact hb
  · exact fun hb => ⟨_, hb⟩

/-- All that a turn can add to the buffer is above the view the turn ends in. -/
theorem SteadyAt.step_buffer (hs : Steady env alg K s) {i : Input × ℕ} (hi : Supplied K i.1)
    {view : View} {c : Block} (hc : (s.step env alg i).bufferedBlocks.lookup view = some c) :
    s.bufferedBlocks.lookup view = some c ∨ (s.step env alg i).pm.start.curView < c.view := by
  by_cases hearly : ∃ b, i.1 = .deliver (.block b) ∧ s.pm.start.curView < b.view
  · obtain ⟨b, hblock, hlt⟩ := hearly
    have hhandler : Leads (Shelves b) (fun t => t = s) (handleInput env alg i.2 i.1)
        fun _ _ => True := by
      rw [hblock]
      exact Leads.bind (processBlock_shelves i.2 hlt) fun _ => Leads.done
    have hchain := Replica.step_chain (fun t => ⟨rfl, fun _ _ h => Or.inl h⟩) hhandler rfl
    have hshelves : Shelves b s (s.step env alg i) :=
      invariant (J := Shelves b s) (fun t u htu ht => ⟨htu.start.trans ht.start,
        fun key d hd => (htu.buffer key d hd).elim (ht.buffer key d) Or.inr⟩) hchain
        ⟨rfl, fun _ _ h => Or.inl h⟩
    rcases hshelves.buffer view c hc with hold | rfl
    · exact Or.inl hold
    · exact Or.inr (hshelves.start ▸ hlt)
  · -- nothing is buffered that was not buffered before
    have hchain : ReflTransGen (Step env alg (K.narrow (Waiting s))) s (s.step env alg i) :=
      Replica.step_steps hs.narrow hi fun b hblock =>
        Or.inr (Int64.not_lt.mp fun hlt => hearly ⟨b, hblock, hlt⟩)
    obtain ⟨hkey, -, hwait⟩ := (Steps.steady hchain hs.narrow).blocks view c hc
    have hold := hs.waiting_iff.mp hwait
    rw [hkey] at hold
    exact Or.inl hold

/-! ## What stays out of reach -/

theorem OutOfReach.anti (h : OutOfReach env D s' b) (hs : Later s s') : OutOfReach env D s b :=
  fun view hview => h view (hview.mono hs.toGrows)

/-- A view is not entered while there is no reason to. -/
theorem Step.below (h : Step env alg K s s') (hst : Steady env alg K s)
    (hs : OutOfReach env K.msg s b → s.pm.start.curView < b.view) :
    OutOfReach env K.msg s' b → s'.pm.start.curView < b.view := by
  intro hout
  have hlow := hs (hout.anti h.later)
  rcases h.views hst with hsame | ⟨view, hwhy, hnext⟩
  · rwa [Pacemaker.start_curView, hsame.curView, ← Pacemaker.start_curView]
  · rw [Pacemaker.start_curView, hnext.curView, ← Pacemaker.start_curView]
    rcases hwhy with rfl | hjust
    · rwa [Pacemaker.start_advanceView_zero]
    · exact s.pm.start_advanceView_lt hlow (hout view hjust)

end Turns

/-- A view-change message of one node. -/
def fourNodes.announcement (view : View) (node : ℕ) : Input × ℕ :=
  (.deliver (.vmo ⟨view, newNodeID node, some QC.initial⟩), 8)

/-- The block of view 2 comes first, then the announcement of view 1 and its block. -/
def fourNodes.secondFirst : List (Input × ℕ) :=
  [(.deliver (.block (fourNodes.chain 1)), 8), fourNodes.announcement 1 4,
    (.deliver (.block (fourNodes.chain 0)), 8)]

end Bamboo
