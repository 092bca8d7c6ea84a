import Mathlib.Order.Interval.Finset.Nat
import Mathlib.Tactic

/-!
# The rate limiter of the benchmark

Times and durations are nanoseconds. A duration is an `int64`, so its sums wrap,
and the difference of two times saturates. The argument is a potential: the last
admission plus the debt in `sleep`, which grows by at least one interval with
each call, while `sleep` stays between `slack` and zero.
-/
namespace Bamboo

/-- `last` is missing while it is the zero `Time`, which the clock never shows. -/
structure Limiter where
  last : Option ℤ
  sleep : ℤ
  interval : ℤ
  slack : ℤ
  deriving DecidableEq, Repr

namespace Limiter

/-- A sum of durations. -/
def wrap (d : ℤ) : ℤ := d.bmod (2 ^ 64)

/-- `t.Sub(u)`. -/
def sub (t u : ℤ) : ℤ := max (-2 ^ 63) (min (2 ^ 63 - 1) (t - u))

def new (rate : ℤ) : Limiter where
  last := none
  sleep := 0
  interval := Int.tdiv 1000000000 rate
  slack := Int.tdiv (-10 * 1000000000) rate

/-- `l.sleep` before it is tested against zero. -/
def debt (l : Limiter) (last now : ℤ) : ℤ :=
  let sleep := wrap (l.sleep + wrap (l.interval - sub now last))
  if sleep < l.slack then l.slack else sleep

def wait (l : Limiter) (now : ℤ) : Limiter :=
  match l.last with
  | none => { l with last := some now }
  | some last =>
    if l.debt last now > 0 then { l with last := some (now + l.debt last now), sleep := 0 }
    else { l with last := some now, sleep := l.debt last now }

/-- The calls at the given readings of the clock. -/
def run (l : Limiter) (nows : List ℤ) : Limiter := nows.foldl wait l

/-- No call reads the clock before the admission of the call before it. -/
def Timely (l : Limiter) : List ℤ → Prop
  | [] => True
  | now :: nows => (∀ last ∈ l.last, last ≤ now) ∧ (l.wait now).Timely nows

/-! ## One call -/

/-- The debt is between the slack and zero, and these are small against an `int64`. -/
structure Balanced (l : Limiter) : Prop where
  interval : 0 ≤ l.interval ∧ l.interval ≤ 10 ^ 9
  slack : -10 ^ 10 ≤ l.slack ∧ l.slack ≤ 0
  sleep : l.slack ≤ l.sleep ∧ l.sleep ≤ 0

theorem balanced_new {rate : ℤ} (hrate : 0 < rate) : (new rate).Balanced := by
  have hinterval : Int.tdiv 1000000000 rate = 1000000000 / rate :=
    Int.tdiv_eq_ediv_of_nonneg (by norm_num)
  have hslack : Int.tdiv (-10 * 1000000000) rate = -(10000000000 / rate) := by
    rw [show (-10 * 1000000000 : ℤ) = -10000000000 by norm_num, Int.neg_tdiv,
      Int.tdiv_eq_ediv_of_nonneg (by norm_num)]
  have hpos₁ : 0 ≤ 1000000000 / rate := Int.ediv_nonneg (by norm_num) hrate.le
  have hpos₂ : 0 ≤ 10000000000 / rate := Int.ediv_nonneg (by norm_num) hrate.le
  have hle₁ : 1000000000 / rate ≤ 1000000000 := Int.ediv_le_self _ (by norm_num)
  have hle₂ : 10000000000 / rate ≤ 10000000000 := Int.ediv_le_self _ (by norm_num)
  constructor <;> simp only [new, hinterval, hslack] <;> omega

/-- The debt pays for the time that has passed; a sum that wraps makes it larger. -/
theorem Balanced.debt_ge {l : Limiter} (hl : l.Balanced) {last now : ℤ} (h : last ≤ now) :
    l.slack ≤ l.debt last now ∧ last + l.sleep + l.interval ≤ now + l.debt last now := by
  obtain ⟨hinterval, hslack, hsleep⟩ := hl
  have hsub : 0 ≤ sub now last ∧ sub now last ≤ 2 ^ 63 - 1 ∧ sub now last ≤ now - last := by
    unfold sub
    omega
  have hinner : wrap (l.interval - sub now last) = l.interval - sub now last := by
    unfold wrap
    rw [Int.bmod_eq_of_le] <;> omega
  have houter : l.sleep + l.interval - sub now last ≤
      wrap (l.sleep + wrap (l.interval - sub now last)) := by
    rw [hinner]
    unfold wrap
    have hlt := Int.le_bmod (x := l.sleep + (l.interval - sub now last)) (show 0 < 2 ^ 64 by simp)
    have hmod := Int.bmod_emod (x := l.sleep + (l.interval - sub now last)) (m := 2 ^ 64)
    omega
  simp only [debt]
  split_ifs <;> omega

@[simp] theorem interval_wait (l : Limiter) (now : ℤ) : (l.wait now).interval = l.interval := by
  unfold wait
  split
  · rfl
  · split_ifs <;> rfl

@[simp] theorem slack_wait (l : Limiter) (now : ℤ) : (l.wait now).slack = l.slack := by
  unfold wait
  split
  · rfl
  · split_ifs <;> rfl

/-- A call admits, keeps the bounds and raises the potential by an interval. -/
structure Admits (l l' : Limiter) (last' : ℤ) : Prop where
  last : l'.last = some last'
  balanced : l'.Balanced
  potential : ∀ last ∈ l.last, last + l.sleep + l.interval ≤ last' + l'.sleep

theorem Balanced.wait {l : Limiter} (hl : l.Balanced) {now : ℤ}
    (h : ∀ last ∈ l.last, last ≤ now) : ∃ last', Admits l (l.wait now) last' := by
  cases hlast : l.last with
  | none =>
    have hwait : l.wait now = { l with last := some now } := by simp [Limiter.wait, hlast]
    rw [hwait]
    exact ⟨now, rfl, ⟨hl.interval, hl.slack, hl.sleep⟩, by simp [hlast]⟩
  | some last =>
    obtain ⟨hslack, hpotential⟩ := hl.debt_ge (h last hlast)
    by_cases hdebt : l.debt last now > 0
    · have hwait : l.wait now = { l with last := some (now + l.debt last now), sleep := 0 } := by
        simp [Limiter.wait, hlast, hdebt]
      rw [hwait]
      refine ⟨_, rfl, ⟨hl.interval, hl.slack, hl.slack.2, le_rfl⟩, ?_⟩
      simpa [hlast] using hpotential
    · have hwait : l.wait now = { l with last := some now, sleep := l.debt last now } := by
        simp [Limiter.wait, hlast, hdebt]
      rw [hwait]
      refine ⟨_, rfl, ⟨hl.interval, hl.slack, hslack, not_lt.mp hdebt⟩, ?_⟩
      simpa [hlast] using hpotential

/-! ## Runs -/

@[simp] theorem run_nil (l : Limiter) : l.run [] = l := rfl

@[simp] theorem run_cons (l : Limiter) (now : ℤ) (nows : List ℤ) :
    l.run (now :: nows) = (l.wait now).run nows := rfl

theorem run_append (l : Limiter) (past nows : List ℤ) :
    l.run (past ++ nows) = (l.run past).run nows := List.foldl_append

theorem timely_append {l : Limiter} {past nows : List ℤ} :
    l.Timely (past ++ nows) ↔ l.Timely past ∧ (l.run past).Timely nows := by
  induction past generalizing l with
  | nil => simp [Timely]
  | cons now past ih => simp [Timely, ih, and_assoc]

/-- From an admission on, the potential grows by an interval with each call. -/
theorem Balanced.run {l : Limiter} (hl : l.Balanced) {last : ℤ} (hlast : l.last = some last)
    {nows : List ℤ} (h : l.Timely nows) :
    ∃ last', (l.run nows).last = some last' ∧ (l.run nows).Balanced ∧
      last + l.sleep + nows.length * l.interval ≤ last' + (l.run nows).sleep := by
  induction nows generalizing l last with
  | nil => exact ⟨last, hlast, hl, by simp⟩
  | cons now nows ih =>
    obtain ⟨mid, hmid⟩ := hl.wait h.1
    obtain ⟨last', hlast', hbalanced, hpotential⟩ := ih hmid.balanced hmid.last h.2
    refine ⟨last', hlast', hbalanced, ?_⟩
    have hstep := hmid.potential last hlast
    rw [interval_wait] at hpotential
    rw [run_cons, List.length_cons]
    push_cast
    linarith

@[simp] theorem interval_run (l : Limiter) (nows : List ℤ) :
    (l.run nows).interval = l.interval := by
  induction nows generalizing l with
  | nil => simp
  | cons now nows ih => simp [ih]

@[simp] theorem slack_run (l : Limiter) (nows : List ℤ) : (l.run nows).slack = l.slack := by
  induction nows generalizing l with
  | nil => simp
  | cons now nows ih => simp [ih]

/-- The first call admits, and each state after it is in bounds. -/
theorem run_new {rate : ℤ} (hrate : 0 < rate) {nows : List ℤ} (hne : nows ≠ [])
    (h : (new rate).Timely nows) :
    ∃ last, ((new rate).run nows).last = some last ∧ ((new rate).run nows).Balanced := by
  cases nows with
  | nil => exact absurd rfl hne
  | cons now nows =>
    obtain ⟨first, hfirst⟩ := (balanced_new hrate).wait h.1
    obtain ⟨last, hlast, hbalanced, -⟩ := hfirst.balanced.run hfirst.last h.2
    exact ⟨last, hlast, hbalanced⟩

/-- `l.last` after the first `k` calls. -/
def lastAfter (rate : ℤ) (nows : List ℤ) (k : ℕ) : Option ℤ := ((new rate).run (nows.take k)).last

theorem lastAfter_bound {rate : ℤ} (hrate : 0 < rate) {nows : List ℤ} (h : (new rate).Timely nows)
    {i j : ℕ} (hi : 1 ≤ i) (hij : i ≤ j) (hj : j ≤ nows.length) :
    ∃ li lj, lastAfter rate nows i = some li ∧ lastAfter rate nows j = some lj ∧
      ((j - i : ℕ) : ℤ) * (new rate).interval + (new rate).slack ≤ lj - li := by
  have hsplit : nows.take j = nows.take i ++ (nows.take j).drop i := by
    have happend := List.take_append_drop i (nows.take j)
    rw [List.take_take, min_eq_left hij] at happend
    exact happend.symm
  have htimely : (new rate).Timely (nows.take j) := by
    rw [← List.take_append_drop j nows, timely_append] at h
    exact h.1
  rw [hsplit, timely_append] at htimely
  have hne : nows.take i ≠ [] := by
    rw [← List.length_pos_iff, List.length_take]
    omega
  obtain ⟨li, hli, hbalanced⟩ := run_new hrate hne htimely.1
  obtain ⟨lj, hlj, hend, hpotential⟩ := hbalanced.run hli htimely.2
  rw [← run_append, ← hsplit] at hlj hend hpotential
  refine ⟨li, lj, hli, hlj, ?_⟩
  -- the debt left at the end only helps, and the debt at the start is at most the slack
  have hstart := hbalanced.sleep.1
  have hsleep := hend.sleep.2
  rw [slack_run] at hstart
  rw [interval_run, List.length_drop, List.length_take, min_eq_left hj] at hpotential
  linarith

theorem card_le_span {A : Finset ℕ} (hA : A.Nonempty) :
    A.card ≤ A.max' hA - A.min' hA + 1 := by
  have hsub : A ⊆ Finset.Icc (A.min' hA) (A.max' hA) := fun k hk =>
    Finset.mem_Icc.mpr ⟨A.min'_le k hk, A.le_max' k hk⟩
  have hle := Finset.card_le_card hsub
  rw [Nat.card_Icc] at hle
  have hminmax := A.min'_le_max' hA
  omega

/-- All admissions of a window lie between the first and the last of them. -/
theorem window_bound {rate : ℤ} (hrate : 0 < rate) {nows : List ℤ} (h : (new rate).Timely nows)
    {t T : ℤ} {A : Finset ℕ} (hA : A.Nonempty)
    (hmem : ∀ k ∈ A, (1 ≤ k ∧ k ≤ nows.length) ∧
      ∃ last, lastAfter rate nows k = some last ∧ t ≤ last ∧ last ≤ t + T) :
    (A.card : ℤ) * (new rate).interval ≤ T + (new rate).interval - (new rate).slack := by
  obtain ⟨hmin, li, hli, hti, -⟩ := hmem _ (A.min'_mem hA)
  obtain ⟨hmax, lj, hlj, -, htj⟩ := hmem _ (A.max'_mem hA)
  obtain ⟨li', lj', hli', hlj', hbound⟩ :=
    lastAfter_bound hrate h hmin.1 (A.min'_le_max' hA) hmax.2
  rw [hli] at hli'
  rw [hlj] at hlj'
  cases hli'
  cases hlj'
  have hcard := card_le_span hA
  have hscaled : (A.card : ℤ) * (new rate).interval ≤
      ((A.max' hA - A.min' hA : ℕ) + 1 : ℤ) * (new rate).interval :=
    mul_le_mul_of_nonneg_right (by exact_mod_cast hcard) (balanced_new hrate).interval.1
  linarith

end Limiter

/-- Between the `i`-th and the `j`-th admission there are `j - i` intervals less the
slack. So a window of length `T` holds at most one admission for each interval in it,
one more, and those that fit in the slack. -/
theorem limiter_rate_bound {rate : ℤ} (hrate : 0 < rate) {nows : List ℤ}
    (h : (Limiter.new rate).Timely nows) :
    (∀ i j, 1 ≤ i → i ≤ j → j ≤ nows.length →
      ∃ li lj, Limiter.lastAfter rate nows i = some li ∧ Limiter.lastAfter rate nows j = some lj ∧
        ((j - i : ℕ) : ℤ) * (Limiter.new rate).interval + (Limiter.new rate).slack ≤ lj - li) ∧
    ∀ t T, 0 ≤ T →
      ({k ∈ Finset.Icc 1 nows.length |
          ∃ last ∈ Limiter.lastAfter rate nows k, t ≤ last ∧ last ≤ t + T}.card : ℤ) *
        (Limiter.new rate).interval ≤
      T + (Limiter.new rate).interval - (Limiter.new rate).slack := by
  refine ⟨fun i j hi hij hj => Limiter.lastAfter_bound hrate h hi hij hj, fun t T hT => ?_⟩
  rcases Finset.eq_empty_or_nonempty {k ∈ Finset.Icc 1 nows.length |
    ∃ last ∈ Limiter.lastAfter rate nows k, t ≤ last ∧ last ≤ t + T} with hnone | hsome
  · have hinterval := (Limiter.balanced_new hrate).interval.1
    have hslack := (Limiter.balanced_new hrate).slack.2
    rw [hnone, Finset.card_empty, Nat.cast_zero, zero_mul]
    linarith
  · exact Limiter.window_bound hrate h hsome fun k hk => by simpa using hk

/-- A burst after a pause of a minute, at a hundred operations a second. -/
theorem limiter_rate_bound_burst :
    (Limiter.new 100).Timely [1, 60000000001, 60000000002, 60000000003] ∧
      ∃ li lj, Limiter.lastAfter 100 [1, 60000000001, 60000000002, 60000000003] 2 = some li ∧
        Limiter.lastAfter 100 [1, 60000000001, 60000000002, 60000000003] 4 = some lj ∧
        ((4 - 2 : ℕ) : ℤ) * (Limiter.new 100).interval + (Limiter.new 100).slack ≤ lj - li := by
  have h : (Limiter.new 100).Timely [1, 60000000001, 60000000002, 60000000003] := by
    refine ⟨?_, ?_, ?_, ?_, trivial⟩ <;> decide
  exact ⟨h, (limiter_rate_bound (by decide) h).1 2 4 (by decide) (by decide) (by decide)⟩

end Bamboo
