import Bamboo.Pacemaker
import Bamboo.Library.Threshold

/-!
# Every sequence of pacemaker calls

Both controllers are books of messages by view and sender, read through the same
interface. Histories list the calls newest first; a message counts if it is not
stale when it arrives.
-/
namespace Bamboo

namespace Controller

variable {M : Type}

theorem superMajority_eq (c : Controller M) (view : View) :
    c.superMajority view =
      decide (c.n * 2 / 3 + 1 ≤ (Threshold.sheet c.timeouts view).entries.length) :=
  rfl

theorem add_eq_threshold (c : Controller M) (view : View) (nodeID : NodeID) (m : M) :
    c.add view nodeID m =
      let r := Threshold.add (c.n * 2 / 3 + 1) c.timeouts view nodeID m
      (if r.1 then some view else none, { c with timeouts := r.2 }) := by
  by_cases hfull : c.n * 2 / 3 + 1 ≤ (Threshold.sheet c.timeouts view).entries.length
  · rw [Threshold.add_closed hfull]
    simp [add, superMajority_eq, hfull]
  · rw [Threshold.add_open (Nat.not_le.mp hfull), add]
    simp only [superMajority_eq, hfull, decide_false, Bool.false_eq_true, if_false]
    rw [← Threshold.sheet]
    simp only [Threshold.sheet_insert, ↓reduceIte]
    split_ifs <;> rfl

/-- Every message counted is `good` for the view and the sender it is filed under. -/
def Filed (good : View → NodeID → M → Prop) (c : Controller M) : Prop :=
  ∀ view nodeID m, (Threshold.sheet c.timeouts view).lookup nodeID = some m → good view nodeID m

variable {good : View → NodeID → M → Prop} {c : Controller M}

theorem filed_empty (n : ℕ) : (⟨n, ∅⟩ : Controller M).Filed good := by
  intro view nodeID m h
  simp [Threshold.sheet] at h

theorem add_n (c : Controller M) (view : View) (nodeID : NodeID) (m : M) :
    (c.add view nodeID m).2.n = c.n := by
  rw [add_eq_threshold]

theorem Filed.add {view : View} {nodeID : NodeID} {m : M} (hc : c.Filed good)
    (hm : good view nodeID m) : (c.add view nodeID m).2.Filed good := by
  intro view' nodeID' m' h
  rw [add_eq_threshold] at h
  rcases Threshold.lookup_add h with ⟨rfl, rfl, rfl⟩ | hold
  · exact hm
  · exact hc view' nodeID' m' hold

/-- A certificate is built by the message that completes the majority. -/
theorem add_eq_some {view w : View} {nodeID : NodeID} {m : M} :
    (c.add view nodeID m).1 = some w ↔
      w = view ∧ c.superMajority view = false ∧ (c.add view nodeID m).2.superMajority view := by
  unfold add
  cases hfull : c.superMajority view with
  | true => simp
  | false =>
    simp only [Bool.false_eq_true, if_false, true_and]
    split_ifs with hnow
    · simp [hnow, eq_comm]
    · simp [hnow]

/-- Behind a majority stand messages of more than two thirds of the network. -/
theorem Filed.senders {view : View} (hc : c.Filed good) (h : c.superMajority view) :
    ∃ senders : Finset NodeID, 2 * c.n < 3 * senders.card ∧
      ∀ i ∈ senders, ∃ m, good view i m := by
  rw [superMajority_eq, decide_eq_true_eq] at h
  refine ⟨(Threshold.sheet c.timeouts view).keys.toFinset, ?_, fun i hi => ?_⟩
  · rw [List.toFinset_card_of_nodup (AList.keys_nodup _), AList.keys, List.keys, List.length_map]
    omega
  · have hkey := AList.lookup_isSome.mpr (AList.mem_keys.mpr (List.mem_toFinset.mp hi))
    obtain ⟨m, hm⟩ := Option.isSome_iff_exists.mp hkey
    exact ⟨m, hc view i m hm⟩

end Controller

namespace Pacemaker

inductive Call where
  | processRemoteTmo (tmo : TMO)
  | processRemoteVmo (vmo : VMO)
  | advanceView (view : View)

def call (p : Pacemaker) : Call → Pacemaker
  | .processRemoteTmo tmo => (p.processRemoteTmo tmo).2
  | .processRemoteVmo vmo => (p.processRemoteVmo vmo).2
  | .advanceView view => p.advanceView view

/-- The pacemaker after a sequence of calls. -/
def after (n : ℕ) : List Call → Pacemaker
  | [] => new n
  | c :: past => (after n past).call c

/-- The certificate a call returns, if any. -/
def tc (p : Pacemaker) : Call → Option View
  | .processRemoteTmo tmo => (p.processRemoteTmo tmo).1
  | _ => none

def vc (p : Pacemaker) : Call → Option View
  | .processRemoteVmo vmo => (p.processRemoteVmo vmo).1
  | _ => none

/-- One of the two kinds of messages, with the controller that counts it. -/
structure Kind (M : Type) where
  message : Call → Option (View × NodeID × M)
  controller : Pacemaker → Controller M
  certificate : Pacemaker → Call → Option View
  controller_new : ∀ n, controller (new n) = ⟨n, ∅⟩
  ignores : ∀ p c, message c = none →
    certificate p c = none ∧ controller (p.call c) = controller p
  stale : ∀ p c m, message c = some m → m.1 < p.curView →
    certificate p c = none ∧ controller (p.call c) = controller p
  counts : ∀ p c m, message c = some m → ¬ m.1 < p.curView →
    (certificate p c, controller (p.call c)) = (controller p).add m.1 m.2.1 m.2.2

def Call.tmo : Call → Option (View × NodeID × TMO)
  | .processRemoteTmo tmo => some (tmo.view, tmo.nodeID, tmo)
  | _ => none

def Call.vmo : Call → Option (View × NodeID × VMO)
  | .processRemoteVmo vmo => some (vmo.view, vmo.nodeID, vmo)
  | _ => none

def Kind.tmo : Kind TMO where
  message := Call.tmo
  controller := timeoutController
  certificate := tc
  controller_new _ := rfl
  ignores p c hc := by
    cases c with
    | processRemoteTmo tmo => simp [Call.tmo] at hc
    | processRemoteVmo vmo =>
      simp only [tc, call, processRemoteVmo]
      split_ifs <;> simp
    | advanceView view =>
      simp only [tc, call, advanceView]
      split_ifs <;> simp
  stale p c m hc hm := by
    cases c with
    | processRemoteTmo tmo =>
      obtain rfl := Option.some.inj hc
      simp only at hm
      simp [tc, call, processRemoteTmo, hm]
    | processRemoteVmo vmo => simp [Call.tmo] at hc
    | advanceView view => simp [Call.tmo] at hc
  counts p c m hc hm := by
    cases c with
    | processRemoteTmo tmo =>
      obtain rfl := Option.some.inj hc
      simp only at hm
      simp [tc, call, processRemoteTmo, addTmo, hm]
    | processRemoteVmo vmo => simp [Call.tmo] at hc
    | advanceView view => simp [Call.tmo] at hc

def Kind.vmo : Kind VMO where
  message := Call.vmo
  controller := viewChangeController
  certificate := vc
  controller_new _ := rfl
  ignores p c hc := by
    cases c with
    | processRemoteTmo tmo =>
      simp only [vc, call, processRemoteTmo]
      split_ifs <;> simp
    | processRemoteVmo vmo => simp [Call.vmo] at hc
    | advanceView view =>
      simp only [vc, call, advanceView]
      split_ifs <;> simp
  stale p c m hc hm := by
    cases c with
    | processRemoteTmo tmo => simp [Call.vmo] at hc
    | processRemoteVmo vmo =>
      obtain rfl := Option.some.inj hc
      simp only at hm
      simp [vc, call, processRemoteVmo, hm]
    | advanceView view => simp [Call.vmo] at hc
  counts p c m hc hm := by
    cases c with
    | processRemoteTmo tmo => simp [Call.vmo] at hc
    | processRemoteVmo vmo =>
      obtain rfl := Option.some.inj hc
      simp only at hm
      simp [vc, call, processRemoteVmo, addVmo, hm]
    | advanceView view => simp [Call.vmo] at hc

/-! ## Counting one kind of messages -/

namespace Kind

variable {M : Type} (k : Kind M) (n : ℕ)

/-- The messages that were not stale when they arrived. -/
def fresh : List Call → List (View × NodeID × M)
  | [] => []
  | c :: past =>
    (k.message c).toList.filter (fun m => ¬ m.1 < (after n past).curView) ++ fresh past

/-- The distinct senders of fresh messages for a view. -/
def senders (calls : List Call) (view : View) : Finset NodeID :=
  (((k.fresh n calls).filter (·.1 = view)).map (·.2.1)).toFinset

/-- The views of all certificates returned so far. -/
def certified : List Call → List View
  | [] => []
  | c :: past => (k.certificate (after n past) c).toList ++ certified past

theorem heard_fresh (calls : List Call) (view : View) :
    Threshold.heard (Threshold.onKey view (k.fresh n calls)) = k.senders n calls view := by
  unfold senders
  generalize k.fresh n calls = h
  induction h with
  | nil => rfl
  | cons m h ih =>
    obtain ⟨view', nodeID, m⟩ := m
    by_cases heq : view' = view <;> simp [heq, ih]

variable {k n}

theorem fresh_ignores {c : Call} (past : List Call) (hc : k.message c = none) :
    k.fresh n (c :: past) = k.fresh n past := by
  simp [fresh, hc]

theorem fresh_stale {c : Call} {m : View × NodeID × M} {past : List Call}
    (hc : k.message c = some m) (hm : m.1 < (after n past).curView) :
    k.fresh n (c :: past) = k.fresh n past := by
  simp [fresh, hc, hm]

theorem fresh_counts {c : Call} {m : View × NodeID × M} {past : List Call}
    (hc : k.message c = some m) (hm : ¬ m.1 < (after n past).curView) :
    k.fresh n (c :: past) = m :: k.fresh n past := by
  simp [fresh, hc, Int64.not_lt.mp hm]

theorem senders_congr {calls calls' : List Call} (h : k.fresh n calls = k.fresh n calls')
    (view : View) : k.senders n calls view = k.senders n calls' view := by
  rw [senders, h, senders]

/-- The controller is the book of the fresh messages. -/
def Counted (k : Kind M) (n : ℕ) (calls : List Call) : Prop :=
  (k.controller (after n calls)).n = n ∧
    Threshold.Kept (n * 2 / 3 + 1) (k.fresh n calls) (k.controller (after n calls)).timeouts

theorem counted_nil (k : Kind M) (n : ℕ) : Counted k n [] := by
  rw [Counted, after, k.controller_new]
  exact ⟨rfl, Threshold.kept_empty (Nat.succ_pos _)⟩

/-- More than two thirds of the network has sent a fresh message for the view. -/
def Heard (k : Kind M) (n : ℕ) (calls : List Call) (view : View) : Prop :=
  2 * n < 3 * (k.senders n calls view).card

theorem heard_iff (k : Kind M) (n : ℕ) (calls : List Call) (view : View) :
    k.Heard n calls view ↔
      n * 2 / 3 + 1 ≤ (Threshold.heard (Threshold.onKey view (k.fresh n calls))).card := by
  rw [Heard, heard_fresh]
  omega

theorem Counted.unchanged {c : Call} {past : List Call} (hk : Counted k n past)
    (hfresh : k.fresh n (c :: past) = k.fresh n past)
    (hc : k.certificate (after n past) c = none ∧
      k.controller (after n (c :: past)) = k.controller (after n past)) :
    Counted k n (c :: past) ∧
      ∀ view, k.certificate (after n past) c = some view ↔
        ¬ k.Heard n past view ∧ k.Heard n (c :: past) view := by
  refine ⟨by rwa [Counted, hc.2, hfresh], fun view => ?_⟩
  rw [hc.1, Heard, Heard, senders_congr hfresh]
  simp

/-- A call returns a certificate for exactly the view that it completes. -/
theorem Counted.step {past : List Call} (hk : Counted k n past) (c : Call) :
    Counted k n (c :: past) ∧
      ∀ view, k.certificate (after n past) c = some view ↔
        ¬ k.Heard n past view ∧ k.Heard n (c :: past) view := by
  cases hc : k.message c with
  | none => exact hk.unchanged (fresh_ignores past hc) (k.ignores _ c hc)
  | some m =>
    by_cases hm : m.1 < (after n past).curView
    · exact hk.unchanged (fresh_stale hc hm) (k.stale _ c m hc hm)
    · have hfresh := fresh_counts hc hm
      have hadd := k.counts _ c m hc hm
      rw [Controller.add_eq_threshold, hk.1] at hadd
      obtain ⟨hcert, hcontroller⟩ := Prod.mk.inj hadd
      obtain ⟨hkept, hiff, -⟩ := hk.2.add m.1 m.2.1 m.2.2
      refine ⟨?_, fun view => ?_⟩
      · rw [Counted, hfresh]
        show (k.controller ((after n past).call c)).n = n ∧ _
        rw [after, hcontroller]
        exact ⟨rfl, hkept⟩
      · rw [heard_iff, heard_iff, hfresh, hcert]
        simp only [Option.ite_none_right_eq_some, Option.some.injEq, hiff]
        by_cases heq : m.1 = view
        · subst heq
          simp
        · have hother : Threshold.onKey view (m :: k.fresh n past) =
              Threshold.onKey view (k.fresh n past) := by
            obtain ⟨view', e⟩ := m
            simp [show view' ≠ view from heq]
          rw [hother]
          simp [heq]

theorem counted (k : Kind M) (n : ℕ) (calls : List Call) : Counted k n calls := by
  induction calls with
  | nil => exact counted_nil k n
  | cons c past ih => exact (ih.step c).1

theorem certificate_iff (k : Kind M) (n : ℕ) (past : List Call) (c : Call) (view : View) :
    k.certificate (after n past) c = some view ↔
      ¬ k.Heard n past view ∧ k.Heard n (c :: past) view :=
  ((counted k n past).step c).2 view

theorem senders_subset (c : Call) (past : List Call) (view : View) :
    k.senders n past view ⊆ k.senders n (c :: past) view := by
  intro nodeID h
  simp only [senders, fresh, List.filter_append, List.map_append, List.toFinset_append,
    Finset.mem_union]
  exact Or.inr h

/-- The certified views are the views that enough senders were heard for. -/
theorem mem_certified {calls : List Call} {view : View} :
    view ∈ k.certified n calls ↔ k.Heard n calls view := by
  induction calls with
  | nil => simp [certified, Heard, senders, fresh]
  | cons c past ih =>
    have hmono := Finset.card_le_card (senders_subset (k := k) (n := n) c past view)
    rw [certified, List.mem_append, Option.mem_toList, certificate_iff, ih]
    unfold Heard
    omega

theorem nodup_certified (k : Kind M) (n : ℕ) (calls : List Call) :
    (k.certified n calls).Nodup := by
  induction calls with
  | nil => exact List.nodup_nil
  | cons c past ih =>
    rw [certified]
    cases hc : k.certificate (after n past) c with
    | none => exact ih
    | some view =>
      have hnew := ((certificate_iff k n past c view).mp hc).1
      exact List.nodup_cons.mpr ⟨fun h => hnew (mem_certified.mp h), ih⟩

/-- Certificates are for views that are not behind the current one. -/
theorem certificate_message {past : List Call} {c : Call} {view : View}
    (h : k.certificate (after n past) c = some view) :
    ∃ m, k.message c = some m ∧ m.1 = view ∧ (after n past).curView ≤ view := by
  cases hc : k.message c with
  | none =>
    rw [(k.ignores _ c hc).1] at h
    cases h
  | some m =>
    by_cases hm : m.1 < (after n past).curView
    · rw [(k.stale _ c m hc hm).1] at h
      cases h
    · have hadd := congrArg Prod.fst (k.counts _ c m hc hm)
      rw [h, Controller.add_eq_threshold] at hadd
      obtain ⟨-, hview⟩ := Option.ite_none_right_eq_some.mp hadd.symm
      obtain rfl := Option.some.inj hview
      exact ⟨m, rfl, rfl, Int64.not_lt.mp hm⟩

theorem certificate_spec (k : Kind M) (n : ℕ) (past : List Call) (c : Call)
    (m : View × NodeID × M) (hc : k.message c = some m) (view : View) :
    k.certificate (after n past) c = some view ↔
      view = m.1 ∧ (after n past).curView ≤ view ∧
        3 * (k.senders n past view).card ≤ 2 * n ∧
        2 * n < 3 * (k.senders n (c :: past) view).card := by
  constructor
  · intro h
    obtain ⟨m', hm', rfl, hle⟩ := certificate_message h
    obtain rfl := Option.some.inj (hc.symm.trans hm')
    obtain ⟨hbefore, hnow⟩ := (certificate_iff k n past c _).mp h
    exact ⟨rfl, hle, Nat.not_lt.mp hbefore, hnow⟩
  · rintro ⟨-, -, hbefore, hnow⟩
    exact (certificate_iff k n past c view).mpr ⟨Nat.not_lt.mpr hbefore, hnow⟩

end Kind

/-! ## Entering views -/

/-- The views entered so far increase up to the current one. -/
structure Entered (p : Pacemaker) : Prop where
  increasing : p.newViewChan.Pairwise (· < ·)
  le : ∀ view ∈ p.newViewChan, view ≤ p.curView
  last : p.newViewChan.getLast?.getD 0 = p.curView
  nonneg : 0 ≤ p.curView

theorem entered_new (n : ℕ) : Entered (new n) :=
  ⟨List.Pairwise.nil, by simp [new], rfl, Int64.le_refl 0⟩

theorem Entered.advanceView {p : Pacemaker} (hp : Entered p) {view : View}
    (hmax : view < Int64.maxValue) : Entered (p.advanceView view) := by
  unfold Pacemaker.advanceView
  split_ifs with hview
  · exact hp
  · have hcur := Int64.le_iff_toInt_le.mp (Int64.not_lt.mp hview)
    have hsucc := toInt_succ hmax
    have hnew : ∀ old ∈ p.newViewChan, old < view + 1 := by
      intro old hold
      have hold := Int64.le_iff_toInt_le.mp (hp.le old hold)
      rw [Int64.lt_iff_toInt_lt]
      omega
    have hnonneg : 0 ≤ view + 1 := by
      have hzero := Int64.le_iff_toInt_le.mp hp.nonneg
      rw [Int64.le_iff_toInt_le]
      omega
    refine ⟨?_, ?_, by simp, hnonneg⟩
    · rw [List.pairwise_append]
      refine ⟨hp.increasing, List.pairwise_singleton _ _, fun old hold next hnext => ?_⟩
      obtain rfl := List.mem_singleton.mp hnext
      exact hnew old hold
    · intro old hold
      rcases List.mem_append.mp hold with hold | hold
      · exact Int64.le_of_lt (hnew old hold)
      · rw [List.mem_singleton.mp hold]
        exact Int64.le_refl _

theorem Entered.congr {p p' : Pacemaker} (hp : Entered p) (hview : p'.curView = p.curView)
    (hchan : p'.newViewChan = p.newViewChan) : Entered p' := by
  obtain ⟨hinc, hle, hlast, hnonneg⟩ := hp
  exact ⟨by rwa [hchan], by rwa [hchan, hview], by rwa [hchan, hview], by rwa [hview]⟩

theorem processRemoteTmo_keeps (p : Pacemaker) (tmo : TMO) :
    (p.processRemoteTmo tmo).2.curView = p.curView ∧
      (p.processRemoteTmo tmo).2.newViewChan = p.newViewChan := by
  unfold processRemoteTmo
  split_ifs <;> simp

theorem processRemoteVmo_keeps (p : Pacemaker) (vmo : VMO) :
    (p.processRemoteVmo vmo).2.curView = p.curView ∧
      (p.processRemoteVmo vmo).2.newViewChan = p.newViewChan := by
  unfold processRemoteVmo
  split_ifs <;> simp

theorem entered_after {n : ℕ} {calls : List Call}
    (hmax : ∀ view, Call.advanceView view ∈ calls → view < Int64.maxValue) :
    Entered (after n calls) := by
  induction calls with
  | nil => exact entered_new n
  | cons c past ih =>
    have hpast := ih fun view hview => hmax view (List.mem_cons_of_mem c hview)
    rw [after]
    cases c with
    | processRemoteTmo tmo =>
      obtain ⟨hview, hchan⟩ := processRemoteTmo_keeps (after n past) tmo
      exact hpast.congr hview hchan
    | processRemoteVmo vmo =>
      obtain ⟨hview, hchan⟩ := processRemoteVmo_keeps (after n past) vmo
      exact hpast.congr hview hchan
    | advanceView view => exact hpast.advanceView (hmax view List.mem_cons_self)

end Pacemaker

open Pacemaker in
/-- Along every sequence of calls a TC or VC is returned exactly on the message
with which more than two thirds of the network has been heard for its view, once
for a view and never for a view behind the current one, and the views entered
increase strictly up to the current one. -/
theorem pacemaker_runs (n : ℕ) (calls : List Call)
    (hmax : ∀ view, Call.advanceView view ∈ calls → view < Int64.maxValue) :
    (∀ tmo view, ((after n calls).processRemoteTmo tmo).1 = some view ↔
      view = tmo.view ∧ (after n calls).curView ≤ view ∧
        3 * (Kind.tmo.senders n calls view).card ≤ 2 * n ∧
        2 * n < 3 * (Kind.tmo.senders n (.processRemoteTmo tmo :: calls) view).card) ∧
    (∀ vmo view, ((after n calls).processRemoteVmo vmo).1 = some view ↔
      view = vmo.view ∧ (after n calls).curView ≤ view ∧
        3 * (Kind.vmo.senders n calls view).card ≤ 2 * n ∧
        2 * n < 3 * (Kind.vmo.senders n (.processRemoteVmo vmo :: calls) view).card) ∧
    (Kind.tmo.certified n calls).Nodup ∧ (Kind.vmo.certified n calls).Nodup ∧
    (after n calls).newViewChan.Pairwise (· < ·) ∧
    (after n calls).newViewChan.getLast?.getD 0 = (after n calls).curView := by
  have hentered := entered_after (n := n) hmax
  refine ⟨fun tmo => ?_, fun vmo => ?_, Kind.nodup_certified _ n calls,
    Kind.nodup_certified _ n calls, hentered.increasing, hentered.last⟩
  · exact Kind.tmo.certificate_spec n calls (.processRemoteTmo tmo) (tmo.view, tmo.nodeID, tmo) rfl
  · exact Kind.vmo.certificate_spec n calls (.processRemoteVmo vmo) (vmo.view, vmo.nodeID, vmo) rfl

open Pacemaker in
/-- A replica that has entered view 1 and heard two nodes time out in it. -/
def twoTimeouts : List Call :=
  [.processRemoteTmo ⟨1, "2", none⟩, .processRemoteTmo ⟨1, "1", none⟩, .advanceView 0]

open Pacemaker in
/-- Among four nodes the third timeout message of a view completes a TC. -/
theorem pacemaker_runs_third_timeout :
    ((after 4 twoTimeouts).processRemoteTmo ⟨1, "3", none⟩).1 = some 1 ∧
      (after 4 twoTimeouts).newViewChan.getLast?.getD 0 = 1 := by
  have hmax : ∀ view, Call.advanceView view ∈ twoTimeouts → view < Int64.maxValue := by
    intro view hview
    obtain rfl : view = 0 := by simpa [twoTimeouts] using hview
    decide
  obtain ⟨htc, -, -, -, -, hlast⟩ := pacemaker_runs 4 twoTimeouts hmax
  exact ⟨(htc _ 1).mpr (by decide +kernel), hlast.trans (by decide +kernel)⟩

end Bamboo
