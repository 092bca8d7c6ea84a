import Bamboo.Backlog
import Bamboo.MoreFuel

/-!
# An honest HotStuff network survives

A replica that is given readable messages, with one block for each view, handles
them all. In an honest network all messages are readable: they were signed by nodes
of the key tables, and the certificates in them were built from votes. That the
blocks are one for each view follows from the leaders; that each extends a block of
a lower view is asked of the proposals, since a leader that is late may hold a
certificate of a larger view than the one it proposes for. That no message is too far
ahead of the node is asked, too: blocks that overtake an earlier one make a node enter
all their views in one call.

As everywhere the calls of the handlers are taken one after the other. The code runs
`ProcessLocalTmo` in another goroutine than the other handlers, without a lock.
-/
namespace Bamboo

open Relation Stepwise

theorem Verifies.checkable {env : Env} {data : Identifier} {id : NodeID} {sig : Signature}
    (h : Verifies env sig data id) : Checkable env sig id := by
  unfold Verifies pubVerify at h
  cases hkey : keyIndex env id with
  | error f => rw [hkey] at h; cases h
  | ok key =>
    obtain ⟨hlo, hhi, -⟩ := keyIndex_ok hkey
    refine ⟨⟨hlo, hhi⟩, ?_⟩
    rw [hkey] at h
    rcases sig with _ | ⟨r, _ | ⟨s, rest⟩⟩
    · cases h
    · cases h
    · simp

/-- The blocks that a network may show to a node: its own as it made them, the others
as they are carried. -/
def World.Visible (env : Env) (w : World) (i : ℕ) : Set Block :=
  {b | ∃ j core b₀, w.Did env j (.propose core b₀) ∧
    Msg.block b = if j = i then .block b₀ else (Msg.block b₀).wire}

/-- What is asked of a network besides that its nodes are honest. -/
structure World.Regular (env : Env) (w : World) : Prop where
  ids : CollisionFree env w
  views : ∀ i, 1 ≤ i ∧ i ≤ env.n → Int64.minValue ∉ (w.nodes i).pm.newViewChan
  certificates : ∀ e ∈ w.events env, ∀ b ∈ e.proposed, ∀ q ∈ b.qc, q.view < b.view

namespace World

variable {env : Env} {alg : Algorithm}

/-! ## One block for each view -/

theorem proposed_unique (hone : OneLeader env) {turns : List Turn}
    (hreg : (after env alg turns).Regular env) {i j : ℕ} {core core' : Core} {b b' : Block}
    (hb : (after env alg turns).Did env i (.propose core b))
    (hb' : (after env alg turns).Did env j (.propose core' b')) (hview : b.view = b'.view) :
    i = j ∧ b = b' := by
  have hmem := mem_proposals.mpr ⟨core, hb.2⟩
  have hmem' := mem_proposals.mpr ⟨core', hb'.2⟩
  obtain rfl := proposer_unique hone hb.1 hb'.1 hmem hmem' hview
  refine ⟨rfl, ?_⟩
  by_contra hne
  rcases pairwise_comparable (proposals_descend (hreg.views i hb.1)) hmem hmem' hne with hlt | hlt
  · rw [hview] at hlt
    exact Int64.lt_irrefl hlt
  · rw [hview] at hlt
    exact Int64.lt_irrefl hlt

theorem Visible.proposed {w : World} {i : ℕ} {b : Block} (h : b ∈ w.Visible env i) :
    ∃ j core b₀, w.Did env j (.propose core b₀) ∧ b.raw = b₀.raw ∧ b.id = b₀.id ∧
      b.sig = b₀.sig ∧ Msg.block b = if j = i then .block b₀ else (Msg.block b₀).wire := by
  obtain ⟨j, core, b₀, hdid, hb⟩ := h
  refine ⟨j, core, b₀, hdid, ?_, ?_, ?_, hb⟩
  all_goals
    split_ifs at hb
    · cases hb
      rfl
    · cases hb
      rfl

/-- A block that some node proposed is there for every node to see. -/
theorem exists_visible {w : World} {j : ℕ} {core : Core} {b₀ : Block}
    (h : w.Did env j (.propose core b₀)) (i : ℕ) :
    ∃ b ∈ w.Visible env i, b.raw = b₀.raw ∧ b.id = b₀.id := by
  by_cases heq : j = i
  · exact ⟨b₀, ⟨j, core, b₀, h, by rw [if_pos heq]⟩, rfl, rfl⟩
  · exact ⟨{ b₀ with forkNum := 0, height := 0 }, ⟨j, core, b₀, h, by rw [if_neg heq]; rfl⟩, rfl,
      rfl⟩

theorem Visible.eq_of_view (hone : OneLeader env) {turns : List Turn}
    (hreg : (after env alg turns).Regular env) {i : ℕ} {a b : Block}
    (ha : a ∈ (after env alg turns).Visible env i) (hb : b ∈ (after env alg turns).Visible env i)
    (hview : a.view = b.view) : a = b := by
  obtain ⟨j, core, a₀, hdid, hraw, -, -, hmsg⟩ := Visible.proposed ha
  obtain ⟨k, core', b₀, hdid', hraw', -, -, hmsg'⟩ := Visible.proposed hb
  have hviews : a₀.view = b₀.view := by
    have hav : a.view = a₀.view := congrArg RawBlock.view hraw
    have hbv : b.view = b₀.view := congrArg RawBlock.view hraw'
    rw [← hav, ← hbv, hview]
  obtain ⟨rfl, rfl⟩ := proposed_unique hone hreg hdid hdid' hviews
  exact Msg.block.inj (hmsg.trans hmsg'.symm)

theorem onePerView_visible (hone : OneLeader env) (turns : List Turn)
    (hreg : (after env alg turns).Regular env) (i : ℕ) :
    OnePerView ((after env alg turns).Visible env i) where
  ids a ha b hb hid := by
    refine Visible.eq_of_view hone hreg ha hb ?_
    obtain ⟨j, core, a₀, hdid, hraw, haid, -, -⟩ := Visible.proposed ha
    obtain ⟨k, core', b₀, hdid', hraw', hbid, -, -⟩ := Visible.proposed hb
    have hsame := hreg.ids.inj _ (mem_events.mpr ⟨j, hdid⟩) a₀ rfl _
      (mem_events.mpr ⟨k, hdid'⟩) b₀ rfl (haid.symm.trans (hid.trans hbid))
    exact congrArg RawBlock.view (hraw.trans (hsame.trans hraw'.symm))
  views a ha b hb hview := Visible.eq_of_view hone hreg ha hb hview
  positive b hb := by
    obtain ⟨j, core, b₀, hdid, hraw, -, -, -⟩ := Visible.proposed hb
    obtain ⟨inputs, hnode⟩ := after_node env alg turns j
    have hmem := mem_proposals.mpr ⟨core, hdid.2⟩
    have hwrap := hreg.views j hdid.1
    rw [hnode] at hmem hwrap
    have hview : b.view = b₀.view := congrArg RawBlock.view hraw
    rw [hview]
    exact (Replica.run_climbs env alg (newNodeID j) false inputs hwrap).positive _
      ((Replica.run_sequenced env alg (newNodeID j) false inputs).mem_newViewChan hmem)
  genesis b hb := by
    obtain ⟨j, core, b₀, hdid, -, hid, -, -⟩ := Visible.proposed hb
    rw [hid]
    exact hreg.ids.genesis _ (mem_events.mpr ⟨j, hdid⟩) b₀ rfl
  parent b hb := by
    obtain ⟨j, core, b₀, hdid, hraw, -, -, -⟩ := Visible.proposed hb
    have hreach := after_reachable env alg turns
    obtain ⟨q, hq, hprev, -, hheld⟩ := (hreach j).proposed hdid.2
    have hqc : b.qc = b₀.qc := congrArg RawBlock.qc hraw
    have hparent : b.prevID = b₀.prevID := congrArg RawBlock.prevID hraw
    have hview : b.view = b₀.view := congrArg RawBlock.view hraw
    refine ⟨q, hqc ▸ hq, ?_⟩
    by_cases hinit : q = QC.initial
    · right
      rw [hparent, hprev, hinit]
      exact ⟨rfl, rfl⟩
    · left
      obtain ⟨-, p, hp, hpid, hpview⟩ := (backed_of_held hdid.1 hheld).certified hreach hinit
      obtain ⟨e, he, p₀, hp₀, hid₀, hraw₀⟩ := hp.1.proposed
      obtain ⟨k, hk⟩ := mem_events.mp he
      cases e with
      | propose core' c =>
        cases hp₀
        obtain ⟨p', hp', hraw', hid'⟩ := exists_visible hk i
        have hp'view : p'.view = p.view := congrArg RawBlock.view (hraw'.trans hraw₀.symm)
        refine ⟨p', hp', ?_, hp'view.trans hpview, ?_⟩
        · rw [hid', ← hid₀, hpid, hparent, hprev]
        · rw [hview]
          exact hreg.certificates _ (mem_events.mpr ⟨j, hdid⟩) b₀ rfl q hq
      | _ => cases hp₀

/-! ## Messages that can be read -/

section Readable

variable {w : World} (hw : ∀ i, Reachable env alg (w.known env) (newNodeID i) (w.nodes i))
include hw

theorem vote_checkable {i : ℕ} {core : Core} {b : Block} {v : Vote}
    (h : w.Did env i (.vote core b v)) : Checkable env v.signature v.voter :=
  (makeVote_ok ((hw i).tally.own core b v h.2)).2.2.2.checkable

/-- A certificate that was built can be read by anyone. -/
theorem Backed.readable {q : QC} (h : w.Backed env q) (me : NodeID) : q.Readable env me := by
  intro _
  rcases h with rfl | ⟨i, core, hi, he⟩
  · simp [QC.initial]
  · obtain ⟨-, votes, hcert⟩ := (hw i).tally.built core q he
    rw [hcert.signers, hcert.aggSig, List.length_map, List.length_map]
    refine ⟨le_rfl, fun p hp => ?_⟩
    rw [List.zip_map'] at hp
    obtain ⟨v, hv, rfl⟩ := List.mem_map.mp hp
    obtain ⟨j, core', b, hvote⟩ := counted_cast hi (hcert.vote v hv).2
    exact vote_checkable hw hvote

theorem visible_readable {node : ℕ} {b : Block} (hb : b ∈ w.Visible env node) :
    b.Readable env (newNodeID node) (w.Visible env node) where
  signature _ := by
    obtain ⟨j, core, b₀, hdid, hraw, -, hsig, -⟩ := Visible.proposed hb
    obtain ⟨s, recent, -, -, -, hprop⟩ := (hw j).mem hdid.2
    have hproposer : b.proposer = b₀.proposer := congrArg RawBlock.proposer hraw
    rw [hsig, hproposer, hprop.proposer]
    exact (verifies_privSign hprop.signed).checkable
  qc q hq := by
    obtain ⟨j, core, b₀, hdid, hraw, -, -, -⟩ := Visible.proposed hb
    obtain ⟨q₀, hq₀, -, -, hheld⟩ := (hw j).proposed hdid.2
    have hqc : b.qc = b₀.qc := congrArg RawBlock.qc hraw
    obtain rfl : q = q₀ := Option.some.inj (hq.symm.trans (hqc.trans hq₀))
    exact (backed_of_held hdid.1 hheld).readable hw _
  stored _ _ := hb

/-- What the network lets through to a node can be read there. -/
theorem input_readable {node : ℕ} {a : Action} {m : Msg}
    (h : w.input env node a = some (.deliver m)) :
    m.Readable env (newNodeID node) (w.Visible env node) := by
  cases a with
  | txn => cases h
  | timeout => cases h
  | newView payload => cases h
  | deliver src k =>
    simp only [input] at h
    by_cases hsrc : 1 ≤ src ∧ src ≤ env.n
    · rw [if_pos hsrc] at h
      cases he : (w.nodes src).outbox[k]? with
      | none => rw [he] at h; cases h
      | some e =>
        have hmem := List.mem_of_getElem? he
        have hsent := (hw src).steady.sent e hmem
        obtain ⟨dest, msg⟩ := e
        simp only [he] at h
        split_ifs at h with hself hdest
        · cases msg with
          | block b =>
            cases h
            obtain ⟨core, hprop⟩ := hsent
            exact visible_readable hw ⟨src, core, b, ⟨hsrc, hprop⟩, by rw [if_pos hself]⟩
          | _ => cases h
        · cases h
          cases msg with
          | block b =>
            obtain ⟨core, hprop⟩ := hsent
            exact visible_readable hw ⟨src, core, b, ⟨hsrc, hprop⟩, by rw [if_neg hself]; rfl⟩
          | vote v =>
            obtain ⟨core, b, hvote, -⟩ := hsent
            exact fun _ => vote_checkable hw ⟨hsrc, hvote⟩
          | tmo t =>
            obtain ⟨-, q, hq, hheld⟩ := hsent
            exact ⟨q, hq, (backed_of_held hsrc hheld).readable hw _⟩
          | vmo v => trivial
    · rw [if_neg hsrc] at h
      cases h

end Readable

end World

/-! ## The run -/

/-- More blocks to see do no harm to a replica's state. -/
theorem Sane.mono {env : Env} {me : NodeID} {U U' : Set Block} {s : Replica}
    (h : Sane env me U s) (hU : U ⊆ U') : Sane env me U' s where
  __ := h
  forest := { h.forest with
    label_mem := fun a id l hl => (h.forest.label_mem a id l hl).imp_left
      fun ⟨b, hb, hid, hlevel⟩ => ⟨b, hU hb, hid, hlevel⟩
    vertex_mem := fun a b hb => hU (h.forest.vertex_mem a b hb) }
  blocks view b hb := by
    obtain ⟨hview, hread⟩ := h.blocks view b hb
    exact ⟨hview, hread.signature, hread.qc, fun hqc hleader => hU (hread.stored hqc hleader)⟩

/-- A turn that does not stop the replica returns. -/
theorem Replica.ok_of_step {env : Env} {alg : Algorithm} {s : Replica} {i : Input} {fuel : ℕ}
    (hup : (s.step env alg (i, fuel)).crashed = false) :
    ∃ u, handleInput env alg fuel i s = .ok u (s.step env alg (i, fuel)) := by
  have hrunning := Replica.crashed_of_step hup
  cases hres : handleInput env alg fuel i s with
  | ok u t => exact ⟨u, by rw [Replica.step_of_ok hrunning hres]⟩
  | error f t =>
    rw [Replica.step_of_error hrunning hres] at hup
    cases hup

namespace World

variable {env : Env} {alg : Algorithm}

theorem Regular.before {w w' : World} (h : w'.Regular env)
    (hlater : ∀ i, Later (w.nodes i) (w'.nodes i)) : w.Regular env := by
  have hevents : ∀ e ∈ w.events env, e ∈ w'.events env := by
    intro e he
    obtain ⟨i, hi, htrace⟩ := mem_events.mp he
    exact mem_events.mpr ⟨i, hi, (hlater i).trace.subset htrace⟩
  refine ⟨⟨fun e he b hb e' he' b' hb' => ?_, fun e he => ?_⟩, fun i hi hmem => ?_,
    fun e he => h.certificates e (hevents e he)⟩
  · exact h.ids.inj e (hevents e he) b hb e' (hevents e' he') b' hb'
  · exact h.ids.genesis e (hevents e he)
  · exact h.views i hi ((hlater i).newViewChan.subset hmem)

theorem Visible.mono {w w' : World} (h : ∀ i, Later (w.nodes i) (w'.nodes i)) (i : ℕ) :
    w.Visible env i ⊆ w'.Visible env i := by
  rintro b ⟨j, core, b₀, hdid, hb⟩
  exact ⟨j, core, b₀, ⟨hdid.1, (h j).trace.subset hdid.2⟩, hb⟩

/-- The nodes that are up are in order. -/
def Well (env : Env) (w : World) : Prop :=
  ∀ i, 1 ≤ i ∧ i ≤ env.n → (w.nodes i).crashed = false →
    Sane env (newNodeID i) (w.Visible env i) (w.nodes i)

/-- Whatever a node that is up is given next, it deals with. -/
theorem Well.settles (hn : env.n < 2 ^ 63) (hone : OneLeader env) {turns : List Turn}
    (hreg : (after env .hotStuff turns).Regular env) {i : ℕ} (hi : 1 ≤ i ∧ i ≤ env.n)
    (hs : Sane env (newNodeID i) ((after env .hotStuff turns).Visible env i)
      ((after env .hotStuff turns).nodes i))
    {a : Action} {input : Input} (hin : (after env .hotStuff turns).input env i a = some input) :
    Settles (fun k => handleInput env .hotStuff k input) ((after env .hotStuff turns).nodes i)
      fun _ => Sane env (newNodeID i) ((after env .hotStuff turns).Visible env i) := by
  have hkeyed : Keyed env (newNodeID i) := by
    rw [Keyed, node_newNodeID i (by omega)]
    omega
  refine handleInput_settles (onePerView_visible hone turns hreg i) hkeyed hs fun m hm => ?_
  subst hm
  exact input_readable (after_reachable env .hotStuff turns) hin

theorem well_after (hn : env.n < 2 ^ 63) (hone : OneLeader env) (turns : List Turn)
    (hreg : (after env .hotStuff turns).Regular env) : (after env .hotStuff turns).Well env := by
  induction turns using List.reverseRecOn with
  | nil => exact fun _ _ _ => sane_new false
  | append_singleton turns t ih =>
    have hbefore := hreg.before fun i => after_later turns t i
    intro i hi hup
    have hsub : (after env .hotStuff turns).Visible env i ⊆
        (after env .hotStuff (turns ++ [t])).Visible env i :=
      Visible.mono (fun j => after_later turns t j) i
    rw [after_append] at hup hsub ⊢
    unfold step at hup hsub ⊢
    split_ifs at hup hsub ⊢ with hrange
    · cases hin : (after env .hotStuff turns).input env t.node t.action with
      | none =>
        simp only [hin] at hup ⊢
        exact ih hbefore i hi hup
      | some input =>
        simp only [hin] at hup hsub ⊢
        by_cases heq : i = t.node
        · subst heq
          rw [take_self] at hup ⊢
          have hs := ih hbefore t.node hi (Replica.crashed_of_step hup)
          obtain ⟨u, hok⟩ := Replica.ok_of_step hup
          exact (Settles.of_ok (fun _ _ hle => handleInput_yields env .hotStuff hle input)
            (Well.settles hn hone hbefore hi hs hin) hok).mono hsub
        · rw [take_ne env .hotStuff _ _ heq] at hup ⊢
          exact (ih hbefore i hi hup).mono hsub
    · exact ih hbefore i hi hup

/-- The node is given no message that is too far ahead of it. -/
def Near (env : Env) (w : World) (i : ℕ) (a : Action) : Prop :=
  ∀ input ∈ w.input env i a, ∀ m ∈ input.message, m.Near (w.nodes i)

instance (env : Env) (w : World) (i : ℕ) (a : Action) : Decidable (w.Near env i a) :=
  inferInstanceAs (Decidable (∀ input ∈ w.input env i a, _))

/-- All along a run, the node is given no message that is too far ahead of it. -/
def Paced (env : Env) (alg : Algorithm) (i : ℕ) : World → List Turn → Prop
  | _, [] => True
  | w, t :: turns => (t.node = i → w.Near env i t.action) ∧ Paced env alg i (w.step env alg t) turns

instance decidablePaced (env : Env) (alg : Algorithm) (i : ℕ) :
    (w : World) → (turns : List Turn) → Decidable (Paced env alg i w turns)
  | _, [] => inferInstanceAs (Decidable True)
  | w, t :: turns =>
    have := decidablePaced env alg i (w.step env alg t) turns
    inferInstanceAs (Decidable (_ ∧ _))

theorem Paced.near {i : ℕ} {w : World} {turns earlier : List Turn} {t : Turn}
    (h : Paced env alg i w turns) (hpre : earlier ++ [t] <+: turns) (hi : t.node = i) :
    (w.run env alg earlier).Near env i t.action := by
  induction earlier generalizing w turns with
  | nil =>
    cases turns with
    | nil => simp at hpre
    | cons t' turns =>
      obtain ⟨rfl, -⟩ := List.cons_prefix_cons.mp hpre
      exact h.1 hi
  | cons t' earlier ih =>
    cases turns with
    | nil => simp at hpre
    | cons t'' turns =>
      rw [List.cons_append, List.cons_prefix_cons] at hpre
      obtain ⟨rfl, hpre⟩ := hpre
      exact ih h.2 hpre

theorem Paced.snoc {i : ℕ} {w : World} {turns : List Turn} (h : Paced env alg i w turns) {t : Turn}
    (hnear : t.node = i → (w.run env alg turns).Near env i t.action) :
    Paced env alg i w (turns ++ [t]) := by
  induction turns generalizing w with
  | nil => exact ⟨hnear, trivial⟩
  | cons t' turns ih => exact ⟨h.1, ih h.2 hnear⟩

theorem Paced.unread_le (hn : 2 ≤ env.n) {turns : List Turn} {i : ℕ}
    (h : Paced env alg i (init env) turns) :
    ((after env alg turns).nodes i).unread.length ≤ Pacemaker.capacity := by
  obtain ⟨inputs, hnode, hturns⟩ := after_inputs env alg turns i
  rw [hnode]
  refine Replica.after_room hn fun before m fuel hpre => ?_
  obtain ⟨earlier, t, hprefix, hi, hin, hrun⟩ := hturns before (.deliver m) fuel hpre
  rw [Replica.after, ← hrun]
  exact h.near hprefix hi _ hin m rfl

end World

end Bamboo
