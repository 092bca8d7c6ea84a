import Mathlib.Tactic

/-!
# Programs that return given enough fuel

A program that recurses takes its fuel as an argument. It settles in a state if
all large enough amounts of fuel give one and the same outcome, and that is a
result, not an error. Since the outcome does not depend on the fuel, the rest of
a program can start from it; so the rules below take a program apart as it is
written, with the fuel abstracted from all its parts at once.
-/

variable {ε σ α β : Type}

/-- With enough fuel the program returns, always with the same result and state. -/
def Settles (m : ℕ → EStateM ε σ α) (s : σ) (Q : α → σ → Prop) : Prop :=
  ∃ a s', (∃ N, ∀ n, N ≤ n → m n s = .ok a s') ∧ Q a s'

namespace Settles

variable {m : ℕ → EStateM ε σ α} {s : σ} {Q : α → σ → Prop}

theorem post {Q' : α → σ → Prop} (h : Settles m s Q) (hQ : ∀ a t, Q a t → Q' a t) :
    Settles m s Q' := by
  obtain ⟨a, t, hm, ht⟩ := h
  exact ⟨a, t, hm, hQ a t ht⟩

/-! ## The constructs of a program -/

theorem of_eq {m : EStateM ε σ α} {a : α} {t : σ} (h : m s = .ok a t) (ht : Q a t) :
    Settles (fun _ => m) s Q :=
  ⟨a, t, ⟨0, fun _ _ => h⟩, ht⟩

theorem pure {a : α} (h : Q a s) : Settles (fun _ => (Pure.pure a : EStateM ε σ α)) s Q :=
  of_eq rfl h

theorem bind {R : β → σ → Prop} {f : ℕ → α → EStateM ε σ β} (hm : Settles m s Q)
    (hf : ∀ a t, Q a t → Settles (fun n => f n a) t R) : Settles (fun n => m n >>= f n) s R := by
  obtain ⟨a, t, ⟨N, hN⟩, ht⟩ := hm
  obtain ⟨b, u, ⟨N', hN'⟩, hu⟩ := hf a t ht
  refine ⟨b, u, ⟨max N N', fun n hn => ?_⟩, hu⟩
  change EStateM.bind (m n) (f n) s = .ok b u
  rw [EStateM.bind, hN n (le_of_max_le_left hn)]
  exact hN' n (le_of_max_le_right hn)

theorem get_bind {f : ℕ → σ → EStateM ε σ α} (h : Settles (fun n => f n s) s Q) :
    Settles (fun n => get >>= f n) s Q :=
  h

theorem modify {f : σ → σ} {Q : PUnit → σ → Prop} (h : Q ⟨⟩ (f s)) :
    Settles (fun _ => (modify f : EStateM ε σ PUnit)) s Q :=
  of_eq rfl h

theorem set {t : σ} {Q : PUnit → σ → Prop} (h : Q ⟨⟩ t) :
    Settles (fun _ => (set t : EStateM ε σ PUnit)) s Q :=
  of_eq rfl h

theorem ite {c : Prop} [Decidable c] {m' : ℕ → EStateM ε σ α} (h : c → Settles m s Q)
    (h' : ¬ c → Settles m' s Q) : Settles (fun n => if c then m n else m' n) s Q := by
  by_cases hc : c
  · simpa only [if_pos hc] using h hc
  · simpa only [if_neg hc] using h' hc

/-! ## Fuel -/

/-- The recursive call has one less. -/
theorem succ (h : Settles (fun n => m (n + 1)) s Q) : Settles m s Q := by
  obtain ⟨a, t, ⟨N, hN⟩, ht⟩ := h
  refine ⟨a, t, ⟨N + 1, fun n hn => ?_⟩, ht⟩
  obtain ⟨k, rfl⟩ := Nat.exists_eq_add_of_le hn
  rw [show N + 1 + k = (N + k) + 1 by omega]
  exact hN (N + k) (Nat.le_add_right N k)

/-- More than enough is enough. -/
theorem of_le {g : ℕ → ℕ} (hg : ∀ n, n ≤ g n) (h : Settles m s Q) :
    Settles (fun n => m (g n)) s Q := by
  obtain ⟨a, t, ⟨N, hN⟩, ht⟩ := h
  exact ⟨a, t, ⟨N, fun n hn => hN (g n) (hn.trans (hg n))⟩, ht⟩

end Settles
