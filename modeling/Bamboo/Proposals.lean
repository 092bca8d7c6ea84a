import Bamboo.Announcements
import Bamboo.GoodTurns
import Bamboo.Ledger
import Bamboo.ViewEnds

/-!
# One proposal per view

A replica proposes when it takes a new-view event, for the view of the event and
if it leads that view. The events come in the order of the views that were entered,
so a replica proposes once for a view at most, and where each view has one leader
so does the whole network.
-/
namespace Bamboo

open Relation Stepwise

/-- The blocks a replica has proposed, newest first. -/
def Replica.proposals (s : Replica) : List Block := s.trace.filterMap Event.proposed

/-! ## Taking a new-view event -/

/-- What comes of the new-view event that is next. -/
inductive TakesView (env : Env) (payload : List Transaction) (s : Replica) : Replica → Prop
  | none (h : s.pm.newViewChan[s.entered]? = .none) : TakesView env payload s s
  | follow (view : View) (h : s.pm.newViewChan[s.entered]? = some view)
      (hnot : ¬ (env.election.isLeader s.id view = true ∧ s.isByz = false)) :
      TakesView env payload s { s with entered := s.entered + 1 }
  | fail (view : View) (h : s.pm.newViewChan[s.entered]? = some view)
      (hleader : env.election.isLeader s.id view = true) (honest : s.isByz = false) :
      TakesView env payload s { s with entered := s.entered + 1, crashed := true }
  | propose (view : View) (b : Block) (h : s.pm.newViewChan[s.entered]? = some view)
      (hleader : env.election.isLeader s.id view = true) (honest : s.isByz = false)
      (forkNum height : ℤ)
      (made : makeBlock env view s.highQC s.highQC.blockID payload s.id false forkNum height =
        .ok b) :
      TakesView env payload s
        (({ s with entered := s.entered + 1 }.record (.propose s.toCore b)).push Option.none
          (.block b))

section Steps

variable {env : Env} {alg : Algorithm} {s : Replica}

theorem Replica.step_of_ok {i : Input} {fuel : ℕ} {t : Replica} (hup : s.crashed = false)
    (h : handleInput env alg fuel i s = .ok () t) : s.step env alg (i, fuel) = t := by
  simp [Replica.step, hup, h]

theorem Replica.step_of_error {i : Input} {fuel : ℕ} {f : Fault} {t : Replica}
    (hup : s.crashed = false) (h : handleInput env alg fuel i s = .error f t) :
    s.step env alg (i, fuel) = { t with crashed := true } := by
  simp [Replica.step, hup, h]

theorem processNewView_none {makeProposal : View → List Transaction → Exec Block}
    {payload : List Transaction} (h : s.pm.newViewChan[s.entered]? = none) :
    processNewView env makeProposal payload s = .ok () s := by
  unfold processNewView
  rw [run_get_bind]
  simp only [h]
  rfl

/-- The event is read and counted, and the block proposed if it is this replica's turn. -/
theorem processNewView_some {makeProposal : View → List Transaction → Exec Block}
    {payload : List Transaction} {view : View} (h : s.pm.newViewChan[s.entered]? = some view) :
    processNewView env makeProposal payload s =
      (if env.election.isLeader s.id view = true ∧ s.isByz = false then
        proposeBlock makeProposal view payload else pure ())
        { s with entered := s.entered + 1 } := by
  unfold processNewView
  rw [run_get_bind]
  simp only [h]
  rfl

theorem proposeBlock_ok {makeProposal : View → List Transaction → Exec Block} {view : View}
    {payload : List Transaction} {b : Block} (h : makeProposal view payload s = .ok b s) :
    proposeBlock makeProposal view payload s =
      .ok () ((s.record (.propose s.toCore b)).push none (.block b)) := by
  change EStateM.bind (makeProposal view payload) _ s = _
  rw [EStateM.bind, h]
  rfl

theorem proposeBlock_error {makeProposal : View → List Transaction → Exec Block} {view : View}
    {payload : List Transaction} {f : Fault} (h : makeProposal view payload s = .error f s) :
    proposeBlock makeProposal view payload s = .error f s := by
  change EStateM.bind (makeProposal view payload) _ s = _
  rw [EStateM.bind, h]

theorem Replica.step_takesView (hup : s.crashed = false) (payload : List Transaction) (fuel : ℕ) :
    TakesView env payload s (s.step env alg (.newView payload, fuel)) := by
  cases hview : s.pm.newViewChan[s.entered]? with
  | none =>
    have hrun : handleInput env alg fuel (.newView payload) s = .ok () s :=
      processNewView_none hview
    rw [Replica.step_of_ok hup hrun]
    exact .none hview
  | some view =>
    have hrun : handleInput env alg fuel (.newView payload) s =
        (if env.election.isLeader s.id view = true ∧ s.isByz = false then
          proposeBlock (Safety.makeProposal env alg) view payload else pure ())
          { s with entered := s.entered + 1 } :=
      processNewView_some hview
    by_cases hturn : env.election.isLeader s.id view = true ∧ s.isByz = false
    · rw [if_pos hturn] at hrun
      obtain ⟨forkNum, height, hmake⟩ := makeProposal_eq env alg view payload
        { s with entered := s.entered + 1 }
      rw [hturn.2] at hmake
      cases hmade : makeBlock env view s.highQC s.highQC.blockID payload s.id false forkNum
          height with
      | error f =>
        rw [hmade] at hmake
        rw [Replica.step_of_error hup (hrun.trans (proposeBlock_error hmake))]
        exact .fail view hview hturn.1 hturn.2
      | ok b =>
        rw [hmade] at hmake
        rw [Replica.step_of_ok hup (hrun.trans (proposeBlock_ok hmake))]
        exact .propose view b hview hturn.1 hturn.2 forkNum height hmade
    · rw [if_neg hturn] at hrun
      rw [Replica.step_of_ok hup hrun]
      exact .follow view hview hturn

end Steps

/-! ## The views that are entered -/

/-- The views of the channel increase, and the first is 1 or more. -/
structure Pacemaker.Upward (p : Pacemaker) : Prop extends p.Entered where
  positive : ∀ view ∈ p.newViewChan, 1 ≤ view

namespace Pacemaker

variable {p : Pacemaker} {view : View}

theorem Upward.advanceView (h : p.Upward) (hwrap : (p.advanceView view).Unwrapped) :
    (p.advanceView view).Upward := by
  by_cases hlt : view < p.curView
  · rwa [Pacemaker.advanceView, if_pos hlt]
  have hchan : (p.advanceView view).newViewChan = p.newViewChan ++ [view + 1] := by
    rw [Pacemaker.advanceView, if_neg hlt]
  have hne : view + 1 ≠ Int64.minValue := by
    intro heq
    apply hwrap
    rw [hchan, ← heq]
    exact List.mem_append_right _ (List.mem_singleton_self _)
  have hmax : view < Int64.maxValue := by
    refine Int64.lt_of_le_of_ne (Int64.le_maxValue view) fun heq => hne ?_
    rw [heq]
    decide
  refine ⟨h.toEntered.advanceView hmax, fun v hv => ?_⟩
  rw [hchan, List.mem_append, List.mem_singleton] at hv
  rcases hv with hold | rfl
  · exact h.positive v hold
  · have hsucc := toInt_succ hmax
    have hcur := Int64.le_iff_toInt_le.mp (Int64.le_trans h.nonneg (Int64.not_lt.mp hlt))
    have hzero : (0 : View).toInt = 0 := rfl
    have hone : (1 : View).toInt = 1 := rfl
    rw [Int64.le_iff_toInt_le]
    omega

theorem Upward.congr {p' : Pacemaker} (h : p.Upward) (hview : p'.curView = p.curView)
    (hchan : p'.newViewChan = p.newViewChan) : p'.Upward :=
  ⟨h.toEntered.congr hview hchan, by rw [hchan]; exact h.positive⟩

end Pacemaker

/-- As long as its counter does not run over, a replica goes up the views. -/
def Climbs (s : Replica) : Prop := s.pm.Unwrapped → s.pm.Upward

section Climbs

variable {env : Env} {alg : Algorithm} {K : Known} {s s' : Replica}

theorem Step.climbs (h : Step env alg K s s') (hst : Steady env alg K s) (hs : Climbs s) :
    Climbs s' := by
  intro hwrap
  rcases h.views hst with hsame | ⟨view, -, hnext⟩
  · rw [Pacemaker.Unwrapped, hsame.newViewChan] at hwrap
    exact (hs hwrap).congr hsame.curView hsame.newViewChan
  · rw [Pacemaker.Unwrapped, hnext.newViewChan] at hwrap
    have hold := hs (Pacemaker.Unwrapped.of_advanceView hwrap).1
    exact (hold.advanceView hwrap).congr hnext.curView hnext.newViewChan

theorem Replica.run_climbs (env : Env) (alg : Algorithm) (id : NodeID) (isByz : Bool)
    (inputs : List (Input × ℕ)) : Climbs ((Replica.new env id isByz).run env alg inputs) := by
  refine Steps.invariant (J := Climbs) (fun _ _ h hst => h.climbs hst)
    (Replica.new_steps env alg id isByz inputs []) (steady_new ..) fun _ => ?_
  exact ⟨Pacemaker.entered_new env.n, by simp [Replica.new, Pacemaker.new]⟩

end Climbs

/-! ## The views that are proposed for -/

/-- The blocks were proposed on the events taken so far, one on an event at most. -/
structure Sequenced (s : Replica) : Prop where
  taken : s.entered ≤ s.pm.newViewChan.length
  views : (s.proposals.map Block.view).Sublist (s.pm.newViewChan.take s.entered).reverse

section Sequenced

variable {env : Env} {alg : Algorithm} {s s' : Replica}

theorem Sequenced.of_idle (h : Sequenced s) (hidle : Idle s s')
    (hgrow : s.pm.newViewChan <+: s'.pm.newViewChan) : Sequenced s' := by
  obtain ⟨more, hmore⟩ := hgrow
  have htake : s'.pm.newViewChan.take s.entered = s.pm.newViewChan.take s.entered := by
    rw [← hmore, List.take_append_of_le_length h.taken]
  constructor
  · rw [hidle.entered, ← hmore, List.length_append]
    exact Nat.le_add_right_of_le h.taken
  · rw [Replica.proposals, hidle.proposed, hidle.entered, htake]
    exact h.views

/-- One more event is taken, on which a block may be proposed. -/
theorem Sequenced.enter (h : Sequenced s) {view : View}
    (hview : s.pm.newViewChan[s.entered]? = some view) (hpm : s'.pm = s.pm)
    (hentered : s'.entered = s.entered + 1)
    (hviews : (s'.proposals.map Block.view).Sublist (view :: s.proposals.map Block.view)) :
    Sequenced s' := by
  obtain ⟨hlt, hget⟩ := List.getElem?_eq_some_iff.mp hview
  constructor
  · rw [hpm, hentered]
    exact hlt
  · rw [hpm, hentered, List.take_add_one, hview, List.reverse_append]
    exact hviews.trans (h.views.cons_cons view)

theorem TakesView.sequenced {payload : List Transaction} (h : TakesView env payload s s')
    (hs : Sequenced s) : Sequenced s' := by
  cases h with
  | none => exact hs
  | follow view hview => exact hs.enter hview rfl rfl (List.sublist_cons_self _ _)
  | fail view hview => exact hs.enter hview rfl rfl (List.sublist_cons_self _ _)
  | propose view b hview _ _ forkNum height hmade =>
    refine hs.enter hview rfl rfl ?_
    obtain ⟨hbview, -⟩ := makeBlock_ok hmade
    change ((b :: s.proposals).map Block.view).Sublist _
    rw [List.map_cons, hbview]

theorem Replica.run_sequenced (env : Env) (alg : Algorithm) (id : NodeID) (isByz : Bool)
    (inputs : List (Input × ℕ)) : Sequenced ((Replica.new env id isByz).run env alg inputs) := by
  induction inputs using List.reverseRecOn with
  | nil => exact ⟨Nat.zero_le _, List.Sublist.refl _⟩
  | append_singleton inputs i ih =>
    have hgrow := (Steps.later (Replica.after_steps env alg id isByz inputs [i])).newViewChan
    have hsteady := Replica.run_steady env alg id isByz inputs
    rw [Replica.after, Replica.after, Replica.run_append] at hgrow
    rw [Replica.run_append]
    generalize (Replica.new env id isByz).run env alg inputs = s at ih hgrow hsteady
    obtain ⟨i, fuel⟩ := i
    change Sequenced (s.step env alg (i, fuel))
    by_cases hup : s.crashed = false
    · cases i with
      | newView payload => exact (Replica.step_takesView hup payload fuel).sequenced ih
      | _ => exact ih.of_idle (Replica.step_idle hsteady (by simp)) hgrow
    · rwa [Replica.step, if_pos (Bool.eq_true_of_not_eq_false hup)]

/-- Later proposals of a replica are for larger views. -/
theorem Sequenced.descend (h : Sequenced s) (hclimb : Climbs s) (hwrap : s.pm.Unwrapped) :
    s.proposals.Pairwise fun b b' => b'.view < b.view := by
  have hchan := (hclimb hwrap).increasing.sublist (List.take_sublist s.entered _)
  have hviews : (s.proposals.map Block.view).Pairwise fun v v' => v' < v :=
    (List.pairwise_reverse.mpr hchan).sublist h.views
  exact List.pairwise_map.mp hviews

theorem Sequenced.mem_newViewChan (h : Sequenced s) {b : Block} (hb : b ∈ s.proposals) :
    b.view ∈ s.pm.newViewChan := by
  have hmem := h.views.subset (List.mem_map_of_mem hb)
  exact List.mem_of_mem_take (List.mem_reverse.mp hmem)

end Sequenced

/-! ## Networks -/

/-- A node may propose for a view only if the votes of the view before go to it. -/
def OneLeader (env : Env) : Prop :=
  ∀ i, 1 ≤ i ∧ i ≤ env.n → ∀ view, env.election.isLeader (newNodeID i) view = true →
    env.election.findLeaderFor view = newNodeID i

theorem oneLeader_rotation {env : Env} (sha1 : String → List UInt8) (hmax : env.n < 2 ^ 63)
    (h : env.election = rotation sha1 env.n) : OneLeader env := by
  intro i hi view hleader
  rw [h] at hleader ⊢
  rw [findLeaderFor_rotation, (isLeader_rotation_iff hmax hi view).mp hleader]

namespace World

variable {env : Env} {alg : Algorithm}

theorem mem_proposals {w : World} {i : ℕ} {b : Block} :
    b ∈ (w.nodes i).proposals ↔ ∃ core, Event.propose core b ∈ (w.nodes i).trace := by
  constructor
  · intro hb
    obtain ⟨e, he, hprop⟩ := List.mem_filterMap.mp hb
    cases e with
    | propose core c =>
      cases hprop
      exact ⟨core, he⟩
    | _ => cases hprop
  · rintro ⟨core, he⟩
    exact List.mem_filterMap.mpr ⟨_, he, rfl⟩

theorem leads_of_mem_proposals {turns : List Turn} {i : ℕ} {b : Block}
    (hb : b ∈ ((after env alg turns).nodes i).proposals) :
    env.election.isLeader (newNodeID i) b.view = true := by
  obtain ⟨core, he⟩ := mem_proposals.mp hb
  obtain ⟨s, recent, hreach, -, -, hprop⟩ := (after_reachable env alg turns i).mem he
  rw [← hreach.id_eq]
  exact hprop.leader

theorem proposals_descend {turns : List Turn} {i : ℕ}
    (hwrap : Int64.minValue ∉ ((after env alg turns).nodes i).pm.newViewChan) :
    ((after env alg turns).nodes i).proposals.Pairwise fun b b' => b'.view < b.view := by
  obtain ⟨inputs, hnode⟩ := after_node env alg turns i
  rw [hnode] at hwrap ⊢
  have hclimbs := Replica.run_climbs env alg (newNodeID i) false inputs
  exact (Replica.run_sequenced env alg (newNodeID i) false inputs).descend hclimbs hwrap

/-- Two nodes that propose for one view are the same. -/
theorem proposer_unique (hone : OneLeader env) {turns : List Turn} {i j : ℕ}
    (hi : 1 ≤ i ∧ i ≤ env.n) (hj : 1 ≤ j ∧ j ≤ env.n) {b b' : Block}
    (hb : b ∈ ((after env alg turns).nodes i).proposals)
    (hb' : b' ∈ ((after env alg turns).nodes j).proposals) (hview : b.view = b'.view) :
    i = j := by
  have hleader := leads_of_mem_proposals hb
  have hleader' := leads_of_mem_proposals hb'
  rw [← hview] at hleader'
  apply newNodeID_injective
  rw [← hone i hi _ hleader, ← hone j hj _ hleader']

end World

/-- In an honest network in which each view has one leader and no node's views wrap around,
no two proposals are for one view, whatever is delayed, lost or repeated and whoever times
out. -/
theorem one_proposal_per_view (env : Env) (alg : Algorithm) (turns : List Turn)
    (hone : OneLeader env)
    (hwrap : ∀ i, 1 ≤ i ∧ i ≤ env.n →
      Int64.minValue ∉ ((World.after env alg turns).nodes i).pm.newViewChan) :
    (((World.after env alg turns).events env).filterMap fun e => e.proposed.map Block.view).Nodup
      := by
  have hviews : ((World.after env alg turns).events env).filterMap
      (fun e => e.proposed.map Block.view) = (List.range' 1 env.n).flatMap fun i =>
        ((World.after env alg turns).nodes i).proposals.map Block.view := by
    simp [World.events, Replica.proposals, List.filterMap_flatMap, List.map_filterMap]
  rw [hviews, List.nodup_flatMap]
  constructor
  · intro i hi
    rw [List.mem_range'_1] at hi
    refine List.pairwise_map.mpr ((World.proposals_descend (hwrap i (by omega))).imp ?_)
    exact fun hlt heq => Int64.lt_irrefl (heq ▸ hlt)
  · refine (List.nodup_range' (s := 1) (n := env.n)).imp_of_mem fun hi hj hne v hv hv' => hne ?_
    rw [List.mem_range'_1] at hi hj
    obtain ⟨b, hb, rfl⟩ := List.mem_map.mp hv
    obtain ⟨b', hb', heq⟩ := List.mem_map.mp hv'
    exact World.proposer_unique hone (by omega) (by omega) hb hb' heq.symm

/-- Node 4 proposes for views 1 to 3 and node 3 for view 4, while node 1 gets nothing. -/
theorem one_proposal_per_view_lostBlock :
    let views := ((World.after fourNodes .hotStuff lostBlock).events fourNodes).filterMap fun e =>
      e.proposed.map Block.view
    views = [4, 3, 2, 1] ∧ views.Nodup := by
  refine ⟨by decide +kernel, one_proposal_per_view fourNodes .hotStuff lostBlock
    (oneLeader_rotation sha1Table (by decide) rfl) fun i hi => ?_⟩
  have hwrap : ∀ i ∈ Finset.Icc 1 4, Int64.minValue ∉
      ((World.after fourNodes .hotStuff lostBlock).nodes i).pm.newViewChan := by
    decide +kernel
  exact hwrap i (Finset.mem_Icc.mpr hi)

end Bamboo
