import Mathlib.Logic.Relation
import Mathlib.Data.Finset.Card

/-!
# Walks along a partial function

A loop that goes from one point to the next, and fails at points that are not
`ok`, is a walk along a partial function. In a finite set such a walk ends
unless it meets a bad point or comes back to a point it has been at, and it is
enough to wait for as many steps as there are points.
-/
namespace Walks

open Relation

variable {α : Type*} {ok : α → Prop} {next : α → Option α} {a b : α} {n : ℕ}

def Step (next : α → Option α) (a b : α) : Prop := next a = some b

/-- The walk from `a` meets good points only and is over in fewer than `n` steps. -/
def Ends (ok : α → Prop) (next : α → Option α) : ℕ → α → Prop
  | 0, _ => False
  | n + 1, a => ok a ∧ ∀ b, next a = some b → Ends ok next n b

theorem Ends.exists_of_reaches (h : Ends ok next n a) (hab : ReflTransGen (Step next) a b) :
    ∃ m, Ends ok next m b := by
  induction hab with
  | refl => exact ⟨n, h⟩
  | tail _ hstep ih =>
    obtain ⟨m, hm⟩ := ih
    cases m with
    | zero => exact hm.elim
    | succ m => exact ⟨m, hm.2 _ hstep⟩

theorem Ends.ok_of_reaches (h : Ends ok next n a) (hab : ReflTransGen (Step next) a b) : ok b := by
  obtain ⟨m, hm⟩ := h.exists_of_reaches hab
  cases m with
  | zero => exact hm.elim
  | succ m => exact hm.1

/-- A walk that ends does not start on a cycle. -/
theorem Ends.acyclic (h : Ends ok next n a) : ¬ TransGen (Step next) a a := by
  induction n generalizing a with
  | zero => exact h.elim
  | succ n ih =>
    intro hcycle
    obtain ⟨b, hstep, hback⟩ := TransGen.head'_iff.mp hcycle
    -- the point after `a` is on the same cycle
    exact ih (h.2 b hstep) (TransGen.tail' hback hstep)

/-- `s` has the points that the walk leaves again, so one step more is enough. -/
theorem ends_of_acyclic {s : Finset α}
    (hs : ∀ b c, ReflTransGen (Step next) a b → next b = some c → b ∈ s)
    (hok : ∀ b, ReflTransGen (Step next) a b → ok b)
    (hacyclic : ∀ b, ReflTransGen (Step next) a b → ¬ TransGen (Step next) b b)
    (hn : s.card < n) : Ends ok next n a := by
  classical
  induction n generalizing a s with
  | zero => omega
  | succ n ih =>
    refine ⟨hok a .refl, fun b hstep => ?_⟩
    have hfrom : ∀ c, ReflTransGen (Step next) b c → ReflTransGen (Step next) a c :=
      fun c hc => .head hstep hc
    -- what comes after `a` does not include `a`
    apply ih (s := s.erase a)
    · intro c d hc hd
      refine Finset.mem_erase.mpr ⟨?_, hs c d (hfrom c hc) hd⟩
      rintro rfl
      exact hacyclic c .refl (TransGen.head' hstep hc)
    · intro c hc
      exact hok c (hfrom c hc)
    · intro c hc
      exact hacyclic c (hfrom c hc)
    · have hcard := Finset.card_erase_lt_of_mem (hs a b .refl hstep)
      omega

/-- In a finite set, the only obstacles are bad points and cycles. -/
theorem ends_iff {s : Finset α}
    (hs : ∀ b c, ReflTransGen (Step next) a b → next b = some c → b ∈ s) (hn : s.card < n) :
    Ends ok next n a ↔ ∀ b, ReflTransGen (Step next) a b → ok b ∧ ¬ TransGen (Step next) b b := by
  constructor
  · intro h b hab
    obtain ⟨m, hm⟩ := h.exists_of_reaches hab
    exact ⟨h.ok_of_reaches hab, hm.acyclic⟩
  · intro h
    apply ends_of_acyclic hs _ _ hn
    · intro b hab
      exact (h b hab).1
    · intro b hab
      exact (h b hab).2

/-- Whatever holds after every step holds all around a cycle. -/
theorem of_cycle {p : α → Prop} (hp : ∀ a b, next a = some b → p b)
    (h : TransGen (Step next) a a) : p a := by
  obtain ⟨b, -, hstep⟩ := TransGen.tail'_iff.mp h
  exact hp b a hstep

/-- Whatever holds after every step and at the start holds all along. -/
theorem of_reaches {p : α → Prop} (hp : ∀ a b, next a = some b → p b) (ha : p a)
    (h : ReflTransGen (Step next) a b) : p b := by
  cases h with
  | refl => exact ha
  | tail _ hstep => exact hp _ _ hstep

end Walks
