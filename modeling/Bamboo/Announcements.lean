import Bamboo.Buffers
import Bamboo.TwoChainAgreement

/-!
# What stands behind a view-change message

HotStuff announces the end of a view when a certificate is completed. If the
certified block is stored, `ProcessVote` announces the current view, whatever the
view of the block is; if the block comes later, `ProcessBlock` announces the
block's own view. The first is the same thing only as long as the certificate is
completed in the view of its block. The second is always right: the votes for a
block go to one node, so a certificate that this node meets again is its own.

The network is honest, with any order of messages and any timeouts.
-/
namespace Bamboo

open Relation Stepwise

namespace World

variable {env : Env} {alg : Algorithm} {w w' : World}

/-! ## What reaches a node -/

/-- A message the network would let through to the node. -/
def Offered (env : Env) (w : World) (node : ℕ) (m : Msg) : Prop :=
  ∃ src, (1 ≤ src ∧ src ≤ env.n) ∧ ∃ e ∈ (w.nodes src).outbox, (m = e.msg ∨ m = e.msg.wire) ∧
    (src = node → ∃ b, e.msg = .block b) ∧
    (src ≠ node → e.dest = none ∨ e.dest = some (newNodeID node))

theorem Offered.mono {node : ℕ} {m : Msg} (h : w.Offered env node m)
    (hw : ∀ j, (w.nodes j).outbox <+: (w'.nodes j).outbox) : w'.Offered env node m := by
  obtain ⟨src, hsrc, e, he, hrest⟩ := h
  exact ⟨src, hsrc, e, (hw src).subset he, hrest⟩

theorem offered_of_input {node : ℕ} {a : Action} {m : Msg}
    (hid : (w.nodes node).id = newNodeID node)
    (h : w.input env node a = some (.deliver m)) : w.Offered env node m := by
  cases a with
  | txn => cases h
  | timeout => cases h
  | newView payload => cases h
  | deliver src k =>
    simp only [input] at h
    by_cases hsrc : 1 ≤ src ∧ src ≤ env.n
    · rw [if_pos hsrc] at h
      cases he : (w.nodes src).outbox[k]? with
      | none => rw [he] at h; cases h
      | some e =>
        have hmem := List.mem_of_getElem? he
        obtain ⟨dest, msg⟩ := e
        simp only [he] at h
        split_ifs at h with hself hdest
        · cases msg with
          | block b =>
            cases h
            exact ⟨src, hsrc, _, hmem, Or.inl rfl, fun _ => ⟨b, rfl⟩, fun hne => absurd hself hne⟩
          | _ => cases h
        · cases h
          rw [hid] at hdest
          exact ⟨src, hsrc, _, hmem, Or.inr rfl, fun heq => absurd heq hself, fun _ => hdest⟩
    · rw [if_neg hsrc] at h
      cases h

theorem after_later (turns : List Turn) (t : Turn) (i : ℕ) :
    Later ((after env alg turns).nodes i) ((after env alg (turns ++ [t])).nodes i) := by
  rw [after_append]
  unfold step
  split_ifs
  · cases (after env alg turns).input env t.node t.action with
    | none => exact .refl _
    | some input =>
      by_cases heq : i = t.node
      · subst heq
        obtain ⟨inputs, hnode⟩ := after_node env alg turns t.node
        have hsteps := Replica.after_steps env alg (newNodeID t.node) false inputs
          [(input, t.fuel)]
        rw [Replica.after, Replica.after, Replica.run_append, ← hnode] at hsteps
        rw [take_self]
        exact Steps.later hsteps
      · rw [take_ne env alg _ _ heq]
        exact .refl _
  · exact .refl _

theorem after_later_of_longer {earlier turns : List Turn} (h : earlier <+: turns) (i : ℕ) :
    Later ((after env alg earlier).nodes i) ((after env alg turns).nodes i) := by
  induction turns using List.reverseRecOn with
  | nil => rw [List.prefix_nil.mp h]; exact .refl _
  | append_singleton turns t ih =>
    rcases List.prefix_concat_iff.mp h with rfl | hpre
    · exact .refl _
    · exact (ih hpre).trans (after_later turns t i)

/-- Each node has run on messages that the network let through to it. -/
theorem after_offered (env : Env) (alg : Algorithm) (turns : List Turn) (i : ℕ) :
    ∃ inputs, (after env alg turns).nodes i = Replica.after env alg (newNodeID i) false inputs ∧
      ∀ m, deliveredIn inputs m → (after env alg turns).Offered env i m := by
  obtain ⟨inputs, hnode, hturns⟩ := after_inputs env alg turns i
  refine ⟨inputs, hnode, fun m hm => ?_⟩
  obtain ⟨fuel, hm⟩ := hm
  obtain ⟨before, rest, rfl⟩ := List.append_of_mem hm
  obtain ⟨earlier, t, hpre, -, hin, hrun⟩ := hturns before (.deliver m) fuel (by simp)
  have hid : ((after env alg earlier).nodes i).id = newNodeID i := by
    rw [hrun]
    exact (Steps.later (Replica.new_steps env alg _ _ before [])).id
  have hprefix := (List.prefix_append earlier [t]).trans hpre
  exact (offered_of_input hid hin).mono fun j => (after_later_of_longer hprefix j).outbox

/-- What every node keeps to, with the messages of the network at the end. -/
theorem after_steady (env : Env) (alg : Algorithm) (turns : List Turn) (i : ℕ) :
    ∃ D : Msg → Prop, (∀ m, D m → (after env alg turns).Offered env i m) ∧
      Steady env alg (.of D) ((after env alg turns).nodes i) := by
  obtain ⟨inputs, hnode, hoffered⟩ := after_offered env alg turns i
  refine ⟨deliveredIn inputs, hoffered, ?_⟩
  have hsteady := Replica.after_steady env alg (newNodeID i) false inputs []
  rw [List.append_nil] at hsteady
  rw [hnode]
  exact hsteady

/-! ## Votes and the certificates they make -/

variable (hreach : ∀ i, Reachable env alg (w.known env) (newNodeID i) (w.nodes i))
include hreach

theorem circulates_of_handle {i : ℕ} {core : Core} {b : Block}
    (he : Event.handle core b ∈ (w.nodes i).trace) : w.Circulates env b := by
  obtain ⟨s, recent, -, -, -, hrec⟩ := (hreach i).mem he
  exact hrec.1

theorem circulates_of_vote {i : ℕ} {core : Core} {b : Block} {v : Vote}
    (he : Event.vote core b v ∈ (w.nodes i).trace) : w.Circulates env b := by
  obtain ⟨s, recent, hs, hsplit, -, ⟨core₀, qc, hguard⟩, -⟩ := (hreach i).mem he
  have hhandle : Event.handle core₀ b ∈ (w.nodes i).trace := by
    rw [hsplit]
    exact List.mem_append_right _ (List.mem_cons_of_mem _ (inHand_mem hguard.hand))
  exact circulates_of_handle hreach hhandle

/-- A certificate that a message carries is the initial one or was built. -/
theorem backed_of_offered {i : ℕ} {m : Msg} (h : w.Offered env i m) {q : QC}
    (hq : (∃ b, m = .block b ∧ b.qc = some q) ∨ ∃ t, m = .tmo t ∧ t.highQC = some q) :
    w.Backed env q := by
  obtain ⟨src, hsrc, e, he, heq, -⟩ := h
  have hsup := supplied_of_sent hsrc (hreach src) ((hreach src).steady.sent e he) heq
  rcases hq with ⟨b, rfl, hq⟩ | ⟨t, rfl, hq⟩
  · exact hsup.2 q hq
  · exact hsup q hq

omit hreach in
/-- What is known of a vote that a node was sent: who made it, and for which block. -/
theorem vote_of_offered {i : ℕ} {v : Vote} (h : w.Offered env i (.vote v))
    (hsteady : ∀ j, ∃ D, Steady env alg (.of D) (w.nodes j)) :
    ∃ j core b, Event.vote core b v ∈ (w.nodes j).trace ∧ v.blockID = b.id ∧
      env.election.findLeaderFor (b.view + 1) = newNodeID i := by
  obtain ⟨src, -, ⟨dest, msg⟩, he, heq, hself, hdest⟩ := h
  obtain ⟨D, hD⟩ := hsteady src
  have hmsg : msg = .vote v := by
    cases msg <;> simp_all [Msg.wire]
  subst hmsg
  obtain ⟨core, b, hvote, hto⟩ := hD.sent _ he
  refine ⟨src, core, b, hvote, hD.votes core b v hvote, ?_⟩
  have hne : src ≠ i := fun heq => by
    obtain ⟨b, hb⟩ := hself heq
    cases hb
  rcases hdest hne with hnone | hsome
  · rw [hnone] at hto
    cases hto
  · rw [hsome] at hto
    exact (Option.some.inj hto).symm

/-- A certificate is built by the leader that the votes for its block go to. -/
theorem built_by_leader (hfree : CollisionFree env w)
    (hsteady : ∀ j, ∃ D : Msg → Prop, (∀ m, D m → w.Offered env j m) ∧
      Steady env alg (.of D) (w.nodes j))
    {j : ℕ} {core : Core} {q : QC} (he : Event.built core q ∈ (w.nodes j).trace) {b : Block}
    (hb : w.Circulates env b) (hid : b.id = q.blockID) :
    env.election.findLeaderFor (b.view + 1) = newNodeID j := by
  obtain ⟨D, hoffered, hD⟩ := hsteady j
  obtain ⟨v, hme, hv⟩ := hD.built core q he
  -- the vote is for a block of the same id, so of the same view
  have hsame : ∀ k core' b', Event.vote core' b' v ∈ (w.nodes k).trace → v.blockID = b'.id →
      b'.view = b.view := by
    intro k core' b' hvote hid'
    have hraw := (circulates_of_vote hreach hvote).raw_eq hfree hb
      (hid'.symm.trans (hv.trans hid.symm))
    exact congrArg RawBlock.view hraw
  rcases hme with hdelivered | ⟨core', b', hvote, hleader⟩
  · obtain ⟨k, core', b', hvote, hid', hleader⟩ :=
      vote_of_offered (hoffered _ hdelivered) fun i => (hsteady i).imp fun _ h => h.2
    rw [← hsame k core' b' hvote hid', hleader]
  · rw [← hsame j core' b' hvote (hD.votes core' b' v hvote), hleader, (hreach j).id_eq]

/-- The node has built a certificate for a proposed block of the view. -/
def HasCertified (env : Env) (w : World) (i : ℕ) (view : View) : Prop :=
  ∃ core q b, Event.built core q ∈ (w.nodes i).trace ∧ w.Circulates env b ∧ b.id = q.blockID ∧
    b.view = view

omit hreach in
theorem not_hasCertified {i : ℕ} {view : View}
    (h : ∀ e ∈ (w.nodes i).trace, ∀ q ∈ e.certificate, ∀ e' ∈ w.events env, ∀ b ∈ e'.proposed,
      b.id = q.blockID → b.view ≠ view) : ¬ w.HasCertified env i view := by
  rintro ⟨core, q, b, he, hb, hid, hview⟩
  obtain ⟨e', he', b₀, hb₀, hid₀, hraw⟩ := hb.proposed
  refine h _ he q rfl e' he' b₀ hb₀ (hid₀.symm.trans hid) ?_
  rw [← hview]
  exact (congrArg RawBlock.view hraw).symm

end World

/-! ## Announcements -/

/-- The views that `ProcessLocalVmo` has announced: its messages are broadcast,
while one that is passed on goes to one node. -/
def Replica.announcements (s : Replica) : List View :=
  s.outbox.filterMap fun e =>
    match e.dest, e.msg with
    | none, .vmo v => some v.view
    | _, _ => none

theorem Replica.mem_announcements {s : Replica} {view : View} :
    view ∈ s.announcements ↔ ∃ vmo : VMO, ⟨none, .vmo vmo⟩ ∈ s.outbox ∧ vmo.view = view := by
  simp only [announcements, List.mem_filterMap]
  constructor
  · rintro ⟨⟨dest, msg⟩, he, hview⟩
    cases dest <;> cases msg <;> simp_all
    exact ⟨_, he, hview⟩
  · rintro ⟨vmo, he, rfl⟩
    exact ⟨_, he, rfl⟩

/-- Whenever a certificate for a stored block was completed, the view of the
block was the current one. -/
def Timely (trace : List Event) : Prop :=
  ∀ e ∈ trace, ∀ q ∈ e.certificate, ∀ b ∈ e.core.bc.forrest.getVertex q.blockID,
    e.core.pm.curView = b.view

instance (trace : List Event) : Decidable (Timely trace) :=
  inferInstanceAs (Decidable (∀ e ∈ trace, _))

/-- Whoever announces a view has built a certificate for a block of that view. -/
theorem announcement_backed (env : Env) (turns : List Turn)
    (hfree : CollisionFree env (World.after env .hotStuff turns)) {i : ℕ}
    (htimely : Timely ((World.after env .hotStuff turns).nodes i).trace) :
    ∀ view ∈ ((World.after env .hotStuff turns).nodes i).announcements,
      (World.after env .hotStuff turns).HasCertified env i view := by
  intro view hview
  have hreach := World.after_reachable env .hotStuff turns
  have hsteady := World.after_steady env .hotStuff turns
  generalize World.after env .hotStuff turns = w at *
  obtain ⟨vmo, he, rfl⟩ := Replica.mem_announcements.mp hview
  obtain ⟨D, hoffered, hD⟩ := hsteady i
  rcases (hD.sent _ he).2 rfl with
    ⟨core, q, b, hbuilt, hstored, hview⟩ | ⟨core, b, q, hhandle, hview, hid, hheld, hleader⟩
  · -- the certificate of a stored block, completed in the view of the block
    obtain ⟨s, recent, hs, -, hcore, -⟩ := (hreach i).mem hbuilt
    have hstored' : s.bc.forrest.getVertex q.blockID = some b := by
      rw [show s.bc = core.bc from congrArg Core.bc hcore.symm]
      exact hstored
    obtain ⟨hid, hb⟩ := hs.stored hstored'
    refine ⟨core, q, b, hbuilt, hb.1, hid, ?_⟩
    rw [hview]
    exact (htimely _ hbuilt q rfl b hstored).symm
  · -- a certificate that was waiting for its block
    have hb := World.circulates_of_handle hreach hhandle
    have hback : w.Backed env q ∨ ∃ core, Event.built core q ∈ (w.nodes i).trace := by
      rcases hheld with (rfl | ⟨c, hc, hq⟩ | ⟨t, ht, hq⟩) | hown
      · exact Or.inl (Or.inl rfl)
      · exact Or.inl (World.backed_of_offered hreach (hoffered _ hc) (Or.inl ⟨c, rfl, hq⟩))
      · exact Or.inl (World.backed_of_offered hreach (hoffered _ ht) (Or.inr ⟨t, rfl, hq⟩))
      · exact Or.inr hown
    rcases hback with (rfl | ⟨j, core', -, hbuilt⟩) | ⟨core', hbuilt⟩
    · exact absurd hid.symm (hb.ne_genesis hfree)
    · -- it was built by the leader that the votes go to, and that is this node
      have hj := World.built_by_leader hreach hfree hsteady hbuilt hb hid.symm
      rw [hview, hleader, (hreach i).id_eq] at hj
      obtain rfl := newNodeID_injective hj
      exact ⟨core', q, b, hbuilt, hb, hid.symm, hview⟩
    · exact ⟨core', q, b, hbuilt, hb, hid.symm, hview⟩

/-- Two views in which all goes well. Node 4 leads the first three. -/
def smoothViews : List Turn :=
  [⟨4, .txn, 8⟩, ⟨4, .newView [], 8⟩] ++ spread 4 0 [1, 2, 3, 4] ++ collect 4 [(1, 0), (2, 0)] ++
  spread 4 1 [1, 2, 3] ++ collect 4 [(1, 1), (2, 1)] ++
  -- view 2
  [⟨4, .newView [], 8⟩] ++ spread 4 2 [1, 2, 3, 4] ++ collect 4 [(1, 2), (2, 2)] ++
  spread 4 3 [1, 2, 3] ++ collect 4 [(1, 3), (2, 3)]

theorem announcement_backed_smoothViews :
    ((World.after fourNodes .hotStuff smoothViews).nodes 4).announcements = [1, 2] ∧
    ∀ view ∈ ((World.after fourNodes .hotStuff smoothViews).nodes 4).announcements,
      (World.after fourNodes .hotStuff smoothViews).HasCertified fourNodes 4 view := by
  obtain ⟨hviews, hfree, htimely⟩ :
      ((World.after fourNodes .hotStuff smoothViews).nodes 4).announcements = [1, 2] ∧
      CollisionFree fourNodes (World.after fourNodes .hotStuff smoothViews) ∧
      Timely ((World.after fourNodes .hotStuff smoothViews).nodes 4).trace := by
    decide +kernel
  exact ⟨hviews, announcement_backed fourNodes smoothViews hfree htimely⟩

/-- In view 3 the votes reach node 3, the leader of view 4, and the block does
not; the view times out, and then the block arrives. -/
def lateBlock : List Turn :=
  smoothViews ++ [⟨4, .newView [], 8⟩] ++ spread 4 4 [1, 2] ++ collect 3 [(1, 4), (2, 4)] ++
  [⟨1, .timeout, 8⟩, ⟨2, .timeout, 8⟩, ⟨4, .timeout, 8⟩] ++
  collect 3 [(1, 5), (2, 5), (4, 5)] ++
  -- view 4
  spread 4 4 [3]

/-- Node 3 announces view 4, with the certificate of view 3 it has just built. -/
theorem announcement_unbacked :
    CollisionFree fourNodes (World.after fourNodes .hotStuff lateBlock) ∧
    4 ∈ ((World.after fourNodes .hotStuff lateBlock).nodes 3).announcements ∧
    ¬ (World.after fourNodes .hotStuff lateBlock).HasCertified fourNodes 3 4 := by
  obtain ⟨hfree, hview, hnone⟩ :
      CollisionFree fourNodes (World.after fourNodes .hotStuff lateBlock) ∧
      4 ∈ ((World.after fourNodes .hotStuff lateBlock).nodes 3).announcements ∧
      ∀ e ∈ ((World.after fourNodes .hotStuff lateBlock).nodes 3).trace, ∀ q ∈ e.certificate,
        ∀ e' ∈ (World.after fourNodes .hotStuff lateBlock).events fourNodes, ∀ b ∈ e'.proposed,
          b.id = q.blockID → b.view ≠ 4 := by
    decide +kernel
  exact ⟨hfree, hview, World.not_hasCertified hnone⟩

end Bamboo
