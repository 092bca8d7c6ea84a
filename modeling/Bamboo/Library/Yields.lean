import Bamboo.Library.Settles

/-!
# Programs that go at least as far

`Yields m m'` says that `m'` returns whatever `m` returns, with the same state;
where `m` fails nothing is said. A program that fails when it runs out of fuel is
related in this way to itself with more of it, and the rules below show it along
the constructs of the program. What such a program returns is then what it
settles in.
-/

variable {ε σ α β : Type}

def Yields (m m' : EStateM ε σ α) : Prop := ∀ s a t, m s = .ok a t → m' s = .ok a t

namespace Yields

theorem refl (m : EStateM ε σ α) : Yields m m := fun _ _ _ h => h

theorem throw {e : ε} {m : EStateM ε σ α} : Yields (throw e) m := fun _ _ _ h => by cases h

theorem bind {m m' : EStateM ε σ α} {f f' : α → EStateM ε σ β} (hm : Yields m m')
    (hf : ∀ a, Yields (f a) (f' a)) : Yields (m >>= f) (m' >>= f') := by
  intro s b u h
  change EStateM.bind m f s = _ at h
  change EStateM.bind m' f' s = _
  unfold EStateM.bind at h ⊢
  cases hr : m s with
  | error e t => rw [hr] at h; cases h
  | ok a t =>
    rw [hr] at h
    rw [hm s a t hr]
    exact hf a t b u h

/-- A part that does not depend on the fuel. -/
theorem then_bind {m : EStateM ε σ α} {f f' : α → EStateM ε σ β}
    (hf : ∀ a, Yields (f a) (f' a)) : Yields (m >>= f) (m >>= f') :=
  (refl m).bind hf

theorem ite {c : Prop} [Decidable c] {m m' n n' : EStateM ε σ α} (h : Yields m m')
    (h' : Yields n n') : Yields (if c then m else n) (if c then m' else n') := by
  split_ifs
  · exact h
  · exact h'

end Yields

/-- Whatever a program returns that does not mind more fuel, it settles in. -/
theorem Settles.of_ok {m : ℕ → EStateM ε σ α} {s t : σ} {a : α} {Q : α → σ → Prop} {k : ℕ}
    (hm : ∀ n n', n ≤ n' → Yields (m n) (m n')) (h : Settles m s Q) (hk : m k s = .ok a t) :
    Q a t := by
  obtain ⟨b, u, ⟨N, hN⟩, hQ⟩ := h
  have hmore := hm k (max k N) (le_max_left k N) s a t hk
  rw [hN _ (le_max_right k N)] at hmore
  cases hmore
  exact hQ
