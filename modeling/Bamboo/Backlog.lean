import Bamboo.NoCrash
import Bamboo.Proposals

/-!
# Views that nobody has taken yet

A handler that enters a view pushes it onto `newViewChan`. The views are taken out
by the event loop, which is in the handler at that time, so a handler that enters
more views than the channel has room for never returns. A view is left only when a
message of that view has been delivered, unless the replica is alone. So there is room
for all views as long as no message is too far ahead of the events taken so far.
-/
namespace Bamboo

open Relation Stepwise

/-- The views whose events the event loop has not taken. -/
def Replica.unread (s : Replica) : List View := s.pm.newViewChan.drop s.entered

/-- The view of the event taken last. -/
def Replica.begun (s : Replica) : View := (0 :: s.pm.newViewChan).getD s.entered 0

/-- The view that a message may help to end. -/
def Msg.ending : Msg → Option View
  | .block b => some b.view
  | .vote _ => none
  | .tmo t => some t.view
  | .vmo v => some v.view

/-- The view is less than the capacity of the channel ahead, and can be counted up. -/
def Msg.Near (s : Replica) (m : Msg) : Prop :=
  ∀ view ∈ m.ending, view < Int64.maxValue ∧ view.toInt < s.begun.toInt + Pacemaker.capacity

instance (s : Replica) (m : Msg) : Decidable (m.Near s) :=
  inferInstanceAs (Decidable (∀ view ∈ m.ending, _))

/-! ## The channel -/

/-- There are no more views in between than their distance. -/
theorem length_le_of_increasing {l : List View} {a : ℤ} {n : ℕ} (h : l.Pairwise (· < ·))
    (hl : ∀ v ∈ l, a < v.toInt ∧ v.toInt ≤ a + n) : l.length ≤ n := by
  have hnodup : (l.map Int64.toInt).Nodup := by
    refine List.pairwise_map.mpr (h.imp fun hlt => ?_)
    exact Int.ne_of_lt (Int64.lt_iff_toInt_lt.mp hlt)
  have hsub : (l.map Int64.toInt).toFinset ⊆ Finset.Ioc a (a + n) := by
    intro x hx
    obtain ⟨v, hv, rfl⟩ := List.mem_map.mp (List.mem_toFinset.mp hx)
    exact Finset.mem_Ioc.mpr (hl v hv)
  calc l.length = (l.map Int64.toInt).toFinset.card := by
        rw [List.toFinset_card_of_nodup hnodup, List.length_map]
    _ ≤ (Finset.Ioc a (a + n)).card := Finset.card_le_card hsub
    _ = n := by rw [Int.card_Ioc]; omega

theorem lt_of_getElem? {l : List View} (h : l.Pairwise (· < ·)) {i j : ℕ} (hij : i < j)
    {a b : View} (ha : l[i]? = some a) (hb : l[j]? = some b) : a < b := by
  obtain ⟨hi, rfl⟩ := List.getElem?_eq_some_iff.mp ha
  obtain ⟨hj, rfl⟩ := List.getElem?_eq_some_iff.mp hb
  exact List.pairwise_iff_getElem.mp h i j hi hj hij

section Channel

variable {s t : Replica}

theorem Pacemaker.Upward.increasing_from_zero {p : Pacemaker} (h : p.Upward) :
    (0 :: p.newViewChan).Pairwise (· < ·) := by
  refine List.pairwise_cons.mpr ⟨fun v hv => ?_, h.increasing⟩
  exact Int64.lt_of_lt_of_le (by decide) (h.positive v hv)

theorem Replica.begun_eq (h : s.entered ≤ s.pm.newViewChan.length) :
    (0 :: s.pm.newViewChan)[s.entered]? = some s.begun := by
  have hlt : s.entered < (0 :: s.pm.newViewChan).length := by simpa using Nat.lt_succ_of_le h
  rw [Replica.begun, List.getD_eq_getElem?_getD, List.getElem?_eq_getElem hlt, Option.getD_some]

theorem Replica.begun_nonneg (hup : s.pm.Upward) (h : s.entered ≤ s.pm.newViewChan.length) :
    0 ≤ s.begun := by
  rcases List.mem_cons.mp (List.mem_of_getElem? (s.begun_eq h)) with hzero | hmem
  · exact Int64.le_of_eq hzero.symm
  · exact Int64.le_trans (by decide) (hup.positive _ hmem)

/-- The events not taken are those of later views. -/
theorem Replica.begun_lt_unread (hup : s.pm.Upward) (h : s.entered ≤ s.pm.newViewChan.length)
    {v : View} (hv : v ∈ s.unread) : s.begun < v := by
  obtain ⟨k, hk⟩ := List.mem_iff_getElem?.mp hv
  rw [Replica.unread, List.getElem?_drop] at hk
  exact lt_of_getElem? hup.increasing_from_zero (j := s.entered + k + 1) (by omega) (s.begun_eq h)
    (by simpa using hk)

/-- More events taken are events of larger views. -/
theorem Replica.begun_le (hup : t.pm.Upward) (hchan : s.pm.newViewChan <+: t.pm.newViewChan)
    (hs : s.entered ≤ s.pm.newViewChan.length) (hle : s.entered ≤ t.entered)
    (ht : t.entered ≤ t.pm.newViewChan.length) : s.begun ≤ t.begun := by
  have hbegun : (0 :: t.pm.newViewChan)[s.entered]? = some s.begun := by
    obtain ⟨more, hmore⟩ := hchan
    have hlt : s.entered < (0 :: s.pm.newViewChan).length := by simpa using Nat.lt_succ_of_le hs
    rw [← hmore, ← List.cons_append, List.getElem?_append_left hlt]
    exact s.begun_eq hs
  rcases Nat.eq_or_lt_of_le hle with heq | hlt
  · rw [heq, t.begun_eq ht] at hbegun
    exact Int64.le_of_eq (Option.some.inj hbegun).symm
  · exact Int64.le_of_lt (lt_of_getElem? hup.increasing_from_zero hlt hbegun (t.begun_eq ht))

end Channel

/-! ## Why there is room -/

section Steps

variable {env : Env} {alg : Algorithm} {K : Known} {s s' : Replica}

/-- No quorum of two or more nodes is complete without another node. -/
theorem exists_ne_of_quorum (hn : 2 ≤ env.n) {senders : Finset NodeID}
    (hcard : 2 * env.n < 3 * senders.card) (id : NodeID) : ∃ i ∈ senders, i ≠ id := by
  have hone : 1 < senders.card := by omega
  exact Finset.exists_mem_ne hone id

/-- A view that is left for a reason is the view of a delivered message. -/
theorem Justified.exists_ending (hn : 2 ≤ env.n) (hs : Steady env alg K s) {view : View}
    (h : Justified env K.msg s view) : ∃ m, K.msg m ∧ m.ending = some view := by
  rcases h with ⟨senders, hcard, hall⟩ | ⟨-, senders, hcard, hall⟩ | ⟨-, b, hb, rfl⟩
  · obtain ⟨i, hi, hne⟩ := exists_ne_of_quorum hn hcard s.id
    obtain ⟨tmo, hk | hown, rfl, rfl⟩ := hall i hi
    · exact ⟨.tmo tmo, hk, rfl⟩
    · exact absurd (hs.sent _ hown).1 hne
  · obtain ⟨i, hi, hne⟩ := exists_ne_of_quorum hn hcard s.id
    obtain ⟨vmo, hk | hown, rfl, rfl⟩ := hall i hi
    · exact ⟨.vmo vmo, hk, rfl⟩
    · exact absurd (hs.sent _ hown).1 hne
  · exact ⟨.block b, hb, rfl⟩

/-- One more event is taken, or none. -/
theorem Step.entered_le (h : Step env alg K s s') : s.entered ≤ s'.entered := by
  cases h with
  | change h => exact Nat.le_of_eq h.idle.entered.symm
  | enter view _ => exact Nat.le_succ _
  | _ => exact Nat.le_refl _

end Steps

section Runs

variable {env : Env} {alg : Algorithm} {id : NodeID} {isByz : Bool} {inputs : List (Input × ℕ)}
  {s : Replica}

/-- Every view that has been entered is the first one, or comes after the view of
a delivered message. -/
theorem Replica.entered_after_message (hn : 2 ≤ env.n) {v : View}
    (hv : v ∈ (Replica.after env alg id isByz inputs).pm.newViewChan) :
    v = 1 ∨ ∃ m w, deliveredIn inputs m ∧ m.ending = some w ∧ v = w + 1 := by
  have hsteady := Replica.after_steady env alg id isByz inputs []
  rw [List.append_nil] at hsteady
  rcases Replica.after_allJustified env alg id isByz inputs v hv with hone | ⟨w, hw, hjust⟩
  · exact Or.inl hone
  · obtain ⟨m, hm, hend⟩ := hjust.exists_ending hn hsteady
    exact Or.inr ⟨m, w, hm, hend, hw⟩

/-- The counter does not run over on messages that are near some state. -/
theorem Replica.upward_of_near (hn : 2 ≤ env.n) (hnear : ∀ m, deliveredIn inputs m → m.Near s) :
    (Replica.after env alg id isByz inputs).pm.Upward := by
  refine Replica.run_climbs env alg id isByz inputs fun hmem => ?_
  rcases Replica.entered_after_message hn hmem with hone | ⟨m, w, hm, hend, hw⟩
  · exact absurd hone (by decide)
  · have hsucc := toInt_succ (hnear m hm w hend).1
    have hmin : Int64.minValue.toInt = -2 ^ 63 := rfl
    have hge := w.le_toInt
    rw [← hw, hmin] at hsucc
    omega

/-- If every message is near when it is delivered, all of them still are. -/
theorem Replica.after_near (hn : 2 ≤ env.n)
    (hnear : ∀ before m fuel, before ++ [(.deliver m, fuel)] <+: inputs →
      m.Near (Replica.after env alg id isByz before)) :
    ∀ m, deliveredIn inputs m → m.Near (Replica.after env alg id isByz inputs) := by
  induction inputs using List.reverseRecOn with
  | nil => simp [deliveredIn]
  | append_singleton inputs i ih =>
    have hold := ih fun before m fuel hpre => hnear before m fuel (hpre.trans (by simp))
    have hall : ∀ m, deliveredIn (inputs ++ [i]) m →
        m.Near (Replica.after env alg id isByz inputs) := by
      intro m hm
      rcases deliveredIn_snoc hm with hm | hi
      · exact hold m hm
      · obtain ⟨i, fuel⟩ := i
        obtain rfl : i = .deliver m := hi
        exact hnear inputs m fuel List.prefix_rfl
    have hsteps := Replica.after_steps env alg id isByz inputs [i]
    have hbegun : (Replica.after env alg id isByz inputs).begun ≤
        (Replica.after env alg id isByz (inputs ++ [i])).begun := by
      refine Replica.begun_le (Replica.upward_of_near hn hall) (Steps.later hsteps).newViewChan
        (Replica.run_sequenced env alg id isByz inputs).taken ?_
        (Replica.run_sequenced env alg id isByz (inputs ++ [i])).taken
      exact invariant (fun _ _ hstep hle => Nat.le_trans hle hstep.entered_le) hsteps
        (Nat.le_refl _)
    intro m hm view hview
    obtain ⟨hmax, hlt⟩ := hall m hm view hview
    exact ⟨hmax, Int.lt_of_lt_of_le hlt
      (Int.add_le_add_right (Int64.le_iff_toInt_le.mp hbegun) _)⟩

/-- On messages that are near when they are delivered, a replica never enters more
views than the channel has room for. -/
theorem Replica.after_room (hn : 2 ≤ env.n)
    (hnear : ∀ before m fuel, before ++ [(.deliver m, fuel)] <+: inputs →
      m.Near (Replica.after env alg id isByz before)) :
    (Replica.after env alg id isByz inputs).unread.length ≤ Pacemaker.capacity := by
  have hall := Replica.after_near hn hnear
  have hup : (Replica.after env alg id isByz inputs).pm.Upward := Replica.upward_of_near hn hall
  have htaken := (Replica.run_sequenced env alg id isByz inputs).taken
  have hbegun := fun v hv => Replica.begun_lt_unread hup htaken (v := v) hv
  refine length_le_of_increasing (a := (Replica.after env alg id isByz inputs).begun.toInt)
    (hup.increasing.sublist (List.drop_sublist _ _)) fun v hv => ?_
  refine ⟨Int64.lt_iff_toInt_lt.mp (hbegun v hv), ?_⟩
  rcases Replica.entered_after_message hn (List.mem_of_mem_drop hv) with rfl | ⟨m, w, hm, hend, rfl⟩
  · have hnonneg := Int64.le_iff_toInt_le.mp (Replica.begun_nonneg hup htaken)
    have hzero : (0 : View).toInt = 0 := rfl
    have hone : (1 : View).toInt = 1 := rfl
    have hcap : Pacemaker.capacity = 100 := rfl
    omega
  · obtain ⟨hmax, hlt⟩ := hall m hm w hend
    rw [toInt_succ hmax]
    omega

end Runs

/-! ## Everything that can be read is handled -/

/-- The state that the inputs lead to, with as much fuel as the handlers need. -/
def HotStuff.Reaches (env : Env) (id : NodeID) (isByz : Bool) (inputs : List Input)
    (s : Replica) : Prop :=
  ∃ N, ∀ fuel, N ≤ fuel → HotStuff.after env id isByz (inputs.map fun i => (i, fuel)) = s

theorem exists_of_prefix_map {α β : Type} {f : α → β} {l : List α} {p : List β}
    (h : p <+: l.map f) : ∃ q, q <+: l ∧ p = q.map f :=
  ⟨l.take p.length, List.take_prefix _ _, by rw [List.map_take, ← List.prefix_iff_eq_take.mp h]⟩

/-- Messages that are near in the states reached are near with enough fuel. -/
theorem HotStuff.near_of_reaches {env : Env} {me : NodeID} (hme : Keyed env me) {isByz : Bool}
    {U : Set Block} (hU : OnePerView U) {inputs : List Input}
    (hin : ∀ m, .deliver m ∈ inputs → m.Readable env me U)
    (hnear : ∀ before m s, before ++ [.deliver m] <+: inputs →
      HotStuff.Reaches env me isByz before s → m.Near s) :
    ∃ N, ∀ fuel, N ≤ fuel → ∀ before m, before ++ [.deliver m] <+: inputs →
      m.Near (HotStuff.after env me isByz (before.map fun i => (i, fuel))) := by
  induction inputs using List.reverseRecOn with
  | nil => exact ⟨0, fun _ _ before m hpre => by simp at hpre⟩
  | append_singleton inputs i ih =>
    have hpart : inputs <+: inputs ++ [i] := List.prefix_append _ _
    obtain ⟨N, hN⟩ := ih (fun m hm => hin m (hpart.subset hm))
      fun before m s hpre => hnear before m s (hpre.trans hpart)
    obtain ⟨s, -, N', hs⟩ := Replica.run_sane hU hme (sane_new isByz)
      fun m hm => hin m (hpart.subset hm)
    refine ⟨max N N', fun fuel hfuel before m hpre => ?_⟩
    rcases List.prefix_concat_iff.mp hpre with heq | hpre
    · obtain ⟨rfl, -⟩ := List.append_inj' heq rfl
      have hrun := hs fuel (le_of_max_le_right hfuel)
      have hclose := hnear before m s (by rw [heq]) ⟨N', hs⟩
      rwa [← hrun] at hclose
    · exact hN fuel (le_of_max_le_left hfuel) before m hpre

/-- A replica with a key of its own, in a network of two or more, that is given
readable messages, none of them too far ahead, and among the blocks it accepts one for
each view, each on one of them or on genesis, handles all its inputs to the end: it does
not crash, and it has room for the views it enters. With enough fuel its state does not
depend on it. -/
theorem readable_inputs_handled (env : Env) (hn : 2 ≤ env.n) {me : NodeID} (hme : Keyed env me)
    (isByz : Bool) {U : Set Block} (hU : OnePerView U) (inputs : List Input)
    (hin : ∀ m, .deliver m ∈ inputs → m.Readable env me U)
    (hnear : ∀ before m s, before ++ [.deliver m] <+: inputs →
      HotStuff.Reaches env me isByz before s → m.Near s) :
    ∀ before, before <+: inputs → ∃ s : Replica, HotStuff.Reaches env me isByz before s ∧
      s.crashed = false ∧ s.unread.length ≤ Pacemaker.capacity := by
  intro before hpre
  have hread : ∀ m, .deliver m ∈ before → m.Readable env me U := fun m hm => hin m (hpre.subset hm)
  obtain ⟨s, hs, N, hN⟩ := Replica.run_sane hU hme (sane_new isByz) hread
  obtain ⟨N', hN'⟩ := HotStuff.near_of_reaches hme hU hread
    fun p m t hp => hnear p m t (hp.trans hpre)
  refine ⟨s, ⟨N, hN⟩, hs.running, ?_⟩
  rw [← hN (max N N') (le_max_left _ _)]
  refine Replica.after_room hn fun p m fuel hp => ?_
  -- a part of the run ends with a delivery where a part of the inputs does
  obtain ⟨p', hp', hmap⟩ := exists_of_prefix_map hp
  obtain ⟨q, r, rfl, rfl, hlast⟩ := List.append_eq_map_iff.mp hmap
  obtain ⟨i, rfl, hi⟩ := List.map_eq_singleton_iff.mp hlast
  cases hi
  exact hN' _ (le_max_right _ _) q m hp'

/-- As long as no new-view event is taken, view 0 is the one begun. -/
theorem Replica.after_begun {env : Env} {alg : Algorithm} {id : NodeID} {isByz : Bool}
    {inputs : List (Input × ℕ)} (h : ∀ i ∈ inputs, ∀ payload, i.1 ≠ .newView payload) :
    (Replica.after env alg id isByz inputs).begun = 0 := by
  have hidle : (Replica.after env alg id isByz inputs).entered = 0 := by
    induction inputs using List.reverseRecOn with
    | nil => rfl
    | append_singleton inputs i ih =>
      rw [Replica.after, Replica.run_append]
      rw [List.forall_mem_append] at h
      have hstep := Replica.step_idle (Replica.run_steady env alg id isByz inputs)
        (h.2 i (List.mem_singleton_self i))
      exact hstep.entered.trans (ih h.1)
  rw [Replica.begun, hidle]
  rfl

/-- The block of view 2 before that of view 1, with an announcement between them,
then the timeouts that end view 3 and the next two blocks. -/
def outOfOrder : List Msg :=
  [.block (fourNodes.chain 1), .vmo ⟨1, "4", some QC.initial⟩, .block (fourNodes.chain 0)] ++
    ["2", "3", "4"].map (fun id => .tmo ⟨3, id, some QC.initial⟩) ++
    [.block (fourNodes.chain 2), .block (fourNodes.chain 3)]

theorem readable_inputs_handled_outOfOrder : ∃ s : Replica,
    HotStuff.Reaches fourNodes "1" false (outOfOrder.map .deliver) s ∧ s.crashed = false ∧
      s.unread.length ≤ Pacemaker.capacity := by
  have hU : OnePerView {b | b ∈ (List.range 4).map fourNodes.chain} :=
    onePerView_of_list (by decide +kernel)
  have hall : ∀ m ∈ outOfOrder, m.Readable fourNodes "1"
        {b | b ∈ (List.range 4).map fourNodes.chain} ∧
      ∀ view ∈ m.ending, view < Int64.maxValue ∧ view.toInt < 100 := by
    decide +kernel
  have hmem : ∀ m, .deliver m ∈ outOfOrder.map Input.deliver → m ∈ outOfOrder := by
    intro m hm
    obtain ⟨m', hm', heq⟩ := List.mem_map.mp hm
    cases heq
    exact hm'
  refine readable_inputs_handled fourNodes (by decide) (by decide +kernel) false hU _
    (fun m hm => (hall m (hmem m hm)).1) (fun before m s hpre hs => ?_) _ List.prefix_rfl
  obtain ⟨N, hN⟩ := hs
  have hbegun : s.begun = 0 := by
    rw [← hN N le_rfl]
    refine Replica.after_begun fun i hi payload heq => ?_
    obtain ⟨j, hj, rfl⟩ := List.mem_map.mp hi
    obtain ⟨m', -, rfl⟩ := List.mem_map.mp (hpre.subset (List.mem_append_left _ hj))
    cases heq
  intro view hview
  rw [hbegun]
  exact (hall m (hmem m (hpre.subset (List.mem_append_right _ (List.mem_singleton_self _))))).2
    view hview

/-- The fault that a first message causes at node 1. -/
def firstFault (m : Msg) : Option Fault :=
  match handleInput fourNodes .hotStuff 8 (.deliver m) (Replica.new fourNodes "1" false) with
  | .ok _ _ => none
  | .error f _ => some f

/-- A timeout without a certificate, a certificate with fewer signatures than
signers, a signature of no part or of one, and a sender that is not a number or
is not in the key table: each of them crashes a replica that has just started. -/
theorem messages_crash :
    firstFault (.tmo ⟨1, "4", none⟩) = some .nilPointer ∧
    firstFault (.tmo ⟨1, "4", some { QC.initial with signers := ["2"] }⟩) = some .index ∧
    firstFault (.block { fourNodes.chain 0 with qc := some { QC.initial with
      signers := ["2", "3"], aggSig := [[[2], identifierBytes 0]] } }) = some .index ∧
    firstFault (.block { fourNodes.chain 0 with sig := [] }) = some .index ∧
    firstFault (.block { fourNodes.chain 0 with proposer := "leader" }) = some .index ∧
    firstFault (.block { fourNodes.chain 0 with proposer := "5" }) = some .index ∧
    firstFault (.vote ⟨1, "2", 1, [[2]]⟩) = some .index ∧
    firstFault (.vote ⟨1, "", 1, [[2], []]⟩) = some .index := by
  decide +kernel

end Bamboo
