import Bamboo.Library.Quorums
import Bamboo.PacemakerRuns

/-!
# Quorums of timeouts and view changes

The controllers ask for more than `n * 2 / 3` senders, with the division rounded
down. For every network size this is enough for two quorums to share more nodes
than may be faulty, and no more than the correct nodes can bring together.
-/
namespace Bamboo

namespace Controller

variable {M : Type}

/-- A new controller after a sequence of messages, newest first. -/
def after (n : ℕ) : List (View × NodeID × M) → Controller M
  | [] => ⟨n, ∅⟩
  | (view, nodeID, m) :: past => ((after n past).add view nodeID m).2

/-- The views of all certificates returned along the sequence. -/
def certified (n : ℕ) : List (View × NodeID × M) → List View
  | [] => []
  | (view, nodeID, m) :: past =>
    ((after n past).add view nodeID m).1.toList ++ certified n past

/-- The ids recorded for a view. -/
def recorded (c : Controller M) (view : View) : Finset NodeID :=
  ((c.timeouts.lookup view).getD ∅).keys.toFinset

variable {n : ℕ} {past : List (View × NodeID × M)} {view w : View} {nodeID : NodeID} {m : M}

theorem after_n (n : ℕ) (past : List (View × NodeID × M)) : (after n past).n = n := by
  induction past with
  | nil => rfl
  | cons e past ih => rw [after, add_n, ih]

theorem kept_after (n : ℕ) (past : List (View × NodeID × M)) :
    Threshold.Kept (n * 2 / 3 + 1) past (after n past).timeouts := by
  induction past with
  | nil => exact Threshold.kept_empty (Nat.succ_pos _)
  | cons e past ih =>
    obtain ⟨view, nodeID, m⟩ := e
    rw [after, add_eq_threshold, after_n]
    exact (ih.add view nodeID m).1

/-- What is recorded when a certificate is returned: everybody heard for the view, and
that is enough. -/
theorem recorded_of_add (h : ((after n past).add view nodeID m).1 = some w) :
    w = view ∧
      ((after n past).add view nodeID m).2.recorded w =
        Threshold.heard (Threshold.onKey view ((view, nodeID, m) :: past)) ∧
      n * 2 / 3 + 1 ≤ (((after n past).add view nodeID m).2.recorded w).card := by
  obtain ⟨-, hiff, hcurrent⟩ := (kept_after n past).add view nodeID m
  rw [add_eq_threshold, after_n] at h ⊢
  obtain ⟨hr, hw⟩ := Option.ite_none_right_eq_some.mp h
  obtain rfl := Option.some.inj hw
  have hkeys : recorded ⟨n, (Threshold.add (n * 2 / 3 + 1) (after n past).timeouts view nodeID
      m).2⟩ view = Threshold.heard (Threshold.onKey view ((view, nodeID, m) :: past)) :=
    (hcurrent hr).keys
  refine ⟨rfl, hkeys, ?_⟩
  show n * 2 / 3 + 1 ≤ (recorded ⟨n, _⟩ view).card
  rw [hkeys]
  exact (hiff.mp hr).2

theorem mem_heard_onKey {i : NodeID} :
    i ∈ Threshold.heard (Threshold.onKey view past) ↔ ∃ m, (view, i, m) ∈ past := by
  induction past with
  | nil => simp [Threshold.onKey]
  | cons e past ih =>
    obtain ⟨view', j, m⟩ := e
    by_cases heq : view' = view
    · simp [heq, ih, exists_or]
    · simp [heq, ih, Ne.symm heq]

/-- A quorum consists of enough of the nodes that the messages are from. -/
theorem quorum_of_add {nodes : Finset NodeID}
    (hids : ∀ e ∈ (view, nodeID, m) :: past, e.2.1 ∈ nodes)
    (h : ((after n past).add view nodeID m).1 = some w) :
    ((after n past).add view nodeID m).2.recorded w ⊆ nodes ∧
      n * 2 / 3 + 1 ≤ (((after n past).add view nodeID m).2.recorded w).card := by
  obtain ⟨-, hrecorded, hcard⟩ := recorded_of_add h
  refine ⟨fun i hi => ?_, hcard⟩
  rw [hrecorded, mem_heard_onKey] at hi
  obtain ⟨m', hm'⟩ := hi
  exact hids _ hm'

/-- A certificate has been returned for every view that enough nodes were heard for. -/
theorem mem_certified (h : n * 2 / 3 + 1 ≤ (Threshold.heard (Threshold.onKey view past)).card) :
    view ∈ certified n past := by
  induction past with
  | nil => simp [Threshold.onKey] at h
  | cons e past ih =>
    obtain ⟨view', nodeID, m⟩ := e
    rw [certified, List.mem_append]
    by_cases hbefore : n * 2 / 3 + 1 ≤ (Threshold.heard (Threshold.onKey view past)).card
    · exact Or.inr (ih hbefore)
    · left
      have hview : view' = view := by
        by_contra hne
        simp [hne] at h
        omega
      subst hview
      have hr := ((kept_after n past).add view' nodeID m).2.1.mpr ⟨by omega, h⟩
      simp [add_eq_threshold, after_n, hr]

end Controller

namespace Pacemaker

/-- A new timeout controller after the messages, newest first. -/
def afterTmos (n : ℕ) : List TMO → Controller TMO
  | [] => ⟨n, ∅⟩
  | tmo :: past => (addTmo (afterTmos n past) tmo).2

/-- The views of all certificates that `AddTmo` has returned. -/
def tcs (n : ℕ) : List TMO → List View
  | [] => []
  | tmo :: past => (addTmo (afterTmos n past) tmo).1.toList ++ tcs n past

def afterVmos (n : ℕ) : List VMO → Controller VMO
  | [] => ⟨n, ∅⟩
  | vmo :: past => (addVmo (afterVmos n past) vmo).2

def vcs (n : ℕ) : List VMO → List View
  | [] => []
  | vmo :: past => (addVmo (afterVmos n past) vmo).1.toList ++ vcs n past

/-- A set of ids that a controller for `n` nodes of `nodes` has recorded for the view
of a certificate at the moment it returns the certificate. -/
inductive Quorum (n : ℕ) (nodes : Finset NodeID) : Finset NodeID → Prop
  | tc {past : List TMO} {tmo : TMO} {view : View} (ids : ∀ t ∈ tmo :: past, t.nodeID ∈ nodes)
      (returned : (addTmo (afterTmos n past) tmo).1 = some view) :
      Quorum n nodes ((addTmo (afterTmos n past) tmo).2.recorded view)
  | vc {past : List VMO} {vmo : VMO} {view : View} (ids : ∀ v ∈ vmo :: past, v.nodeID ∈ nodes)
      (returned : (addVmo (afterVmos n past) vmo).1 = some view) :
      Quorum n nodes ((addVmo (afterVmos n past) vmo).2.recorded view)

def tmoEntry (tmo : TMO) : View × NodeID × TMO := (tmo.view, tmo.nodeID, tmo)

def vmoEntry (vmo : VMO) : View × NodeID × VMO := (vmo.view, vmo.nodeID, vmo)

theorem afterTmos_eq (n : ℕ) (past : List TMO) :
    afterTmos n past = Controller.after n (past.map tmoEntry) := by
  induction past with
  | nil => rfl
  | cons tmo past ih => simp [afterTmos, addTmo, Controller.after, tmoEntry, ih]

theorem afterVmos_eq (n : ℕ) (past : List VMO) :
    afterVmos n past = Controller.after n (past.map vmoEntry) := by
  induction past with
  | nil => rfl
  | cons vmo past ih => simp [afterVmos, addVmo, Controller.after, vmoEntry, ih]

theorem tcs_eq (n : ℕ) (past : List TMO) :
    tcs n past = Controller.certified n (past.map tmoEntry) := by
  induction past with
  | nil => rfl
  | cons tmo past ih => simp [tcs, addTmo, Controller.certified, tmoEntry, ih, afterTmos_eq]

theorem vcs_eq (n : ℕ) (past : List VMO) :
    vcs n past = Controller.certified n (past.map vmoEntry) := by
  induction past with
  | nil => rfl
  | cons vmo past ih => simp [vcs, addVmo, Controller.certified, vmoEntry, ih, afterVmos_eq]

theorem Quorum.enough {n : ℕ} {nodes A : Finset NodeID} (h : Quorum n nodes A) :
    A ⊆ nodes ∧ n * 2 / 3 + 1 ≤ A.card := by
  cases h with
  | @tc past tmo view ids returned =>
    have hids : ∀ e ∈ (tmo :: past).map tmoEntry, e.2.1 ∈ nodes := List.forall_mem_map.mpr ids
    rw [afterTmos_eq, addTmo] at returned ⊢
    exact Controller.quorum_of_add hids returned
  | @vc past vmo view ids returned =>
    have hids : ∀ e ∈ (vmo :: past).map vmoEntry, e.2.1 ∈ nodes := List.forall_mem_map.mpr ids
    rw [afterVmos_eq, addVmo] at returned ⊢
    exact Controller.quorum_of_add hids returned

end Pacemaker

/-- For every size `n` of the network, of which `f = (n - 1) / 3` nodes may be faulty,
two sets of ids recorded at returned certificates share `f + 1` ids, whichever
controllers and views they are of. And once all of `n - f` nodes have sent a message
for a view, its certificate has been returned. -/
theorem timeout_quorums {n : ℕ} (hn : 1 ≤ n) {nodes : Finset NodeID} (hnodes : nodes.card = n) :
    (∀ A B, Pacemaker.Quorum n nodes A → Pacemaker.Quorum n nodes B →
      (n - 1) / 3 + 1 ≤ (A ∩ B).card) ∧
    ∀ correct ⊆ nodes, correct.card = n - (n - 1) / 3 → ∀ view,
      (∀ past : List TMO, (∀ i ∈ correct, ∃ t ∈ past, t.view = view ∧ t.nodeID = i) →
        view ∈ Pacemaker.tcs n past) ∧
      (∀ past : List VMO, (∀ i ∈ correct, ∃ v ∈ past, v.view = view ∧ v.nodeID = i) →
        view ∈ Pacemaker.vcs n past) := by
  constructor
  · intro A B hA hB
    obtain ⟨hAsub, hAcard⟩ := hA.enough
    obtain ⟨hBsub, hBcard⟩ := hB.enough
    have hcards := Quorums.card_add_card_le hAsub hBsub
    omega
  · intro correct _ hcard view
    constructor
    · intro past hpast
      rw [Pacemaker.tcs_eq]
      apply Controller.mem_certified
      have hsub : correct ⊆ Threshold.heard
          (Threshold.onKey view (past.map Pacemaker.tmoEntry)) := by
        intro i hi
        obtain ⟨t, ht, rfl, rfl⟩ := hpast i hi
        exact Controller.mem_heard_onKey.mpr ⟨t, List.mem_map_of_mem ht⟩
      have hle := Finset.card_le_card hsub
      omega
    · intro past hpast
      rw [Pacemaker.vcs_eq]
      apply Controller.mem_certified
      have hsub : correct ⊆ Threshold.heard
          (Threshold.onKey view (past.map Pacemaker.vmoEntry)) := by
        intro i hi
        obtain ⟨v, hv, rfl, rfl⟩ := hpast i hi
        exact Controller.mem_heard_onKey.mpr ⟨v, List.mem_map_of_mem hv⟩
      have hle := Finset.card_le_card hsub
      omega

/-- Six nodes, of which one may be faulty: five messages complete a certificate. -/
theorem timeout_quorums_six :
    (1 ≤ 6 ∧ ({"1", "2", "3", "4", "5", "6"} : Finset NodeID).card = 6) ∧
      (3 : View) ∈ Pacemaker.tcs 6 [⟨3, "5", none⟩, ⟨3, "4", none⟩, ⟨3, "3", none⟩, ⟨3, "2", none⟩,
        ⟨3, "1", none⟩] := by
  have hsix := @timeout_quorums 6 (by decide) {"1", "2", "3", "4", "5", "6"} rfl
  exact ⟨by decide, (hsix.2 {"1", "2", "3", "4", "5"} (by decide) rfl 3).1 _ (by decide)⟩

end Bamboo
