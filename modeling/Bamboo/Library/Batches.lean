import Mathlib.Data.List.Basic

/-!
# Batches of commands that commute

A machine executes commands one after the other and answers each. If every
command of one batch commutes with every command of another, so do the batches:
the state is the same in both orders and so is every answer.
-/
namespace Batches

variable {α β σ : Type*} (exec : σ → α → β × σ)

/-- The answers to a batch, in order, and the state behind it. -/
def run (s : σ) : List α → List β × σ
  | [] => ([], s)
  | c :: cs => ((exec s c).1 :: (run (exec s c).2 cs).1, (run (exec s c).2 cs).2)

@[simp] theorem run_nil (s : σ) : run exec s [] = ([], s) := rfl

@[simp] theorem run_cons_fst (s : σ) (c : α) (cs : List α) :
    (run exec s (c :: cs)).1 = (exec s c).1 :: (run exec (exec s c).2 cs).1 := rfl

@[simp] theorem run_cons_snd (s : σ) (c : α) (cs : List α) :
    (run exec s (c :: cs)).2 = (run exec (exec s c).2 cs).2 := rfl

/-- Neither changes the other's answer, and their order does not change the state. -/
structure Commutes (a b : α) : Prop where
  left : ∀ s, (exec (exec s b).2 a).1 = (exec s a).1
  right : ∀ s, (exec (exec s a).2 b).1 = (exec s b).1
  state : ∀ s, (exec (exec s a).2 b).2 = (exec (exec s b).2 a).2

variable {exec}

/-- One command moves past a batch. -/
theorem run_exec {a : α} {bs : List α} (h : ∀ b ∈ bs, Commutes exec a b) (s : σ) :
    (exec (run exec s bs).2 a).1 = (exec s a).1 ∧
      (run exec (exec s a).2 bs).1 = (run exec s bs).1 ∧
      (run exec (exec s a).2 bs).2 = (exec (run exec s bs).2 a).2 := by
  induction bs generalizing s with
  | nil => simp
  | cons b bs ih =>
    rw [List.forall_mem_cons] at h
    obtain ⟨hb, hbs⟩ := h
    obtain ⟨hanswer, hanswers, hstate⟩ := ih hbs (exec s b).2
    simp [hb.left, hb.right, hb.state, hanswer, hanswers, hstate]

theorem run_run {as bs : List α} (h : ∀ a ∈ as, ∀ b ∈ bs, Commutes exec a b) (s : σ) :
    (run exec (run exec s bs).2 as).1 = (run exec s as).1 ∧
      (run exec (run exec s as).2 bs).1 = (run exec s bs).1 ∧
      (run exec (run exec s as).2 bs).2 = (run exec (run exec s bs).2 as).2 := by
  induction as generalizing s with
  | nil => simp
  | cons a as ih =>
    rw [List.forall_mem_cons] at h
    obtain ⟨hanswer, hanswers, hstate⟩ := run_exec h.1 s
    obtain ⟨hanswers₁, hanswers₂, hstate'⟩ := ih h.2 (exec s a).2
    rw [hstate] at hanswers₁ hstate'
    simp [hanswer, hanswers, hanswers₁, hanswers₂, hstate']

end Batches
