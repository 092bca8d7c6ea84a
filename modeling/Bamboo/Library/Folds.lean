import Mathlib.Data.List.Dedup
import Mathlib.Data.List.Perm.Basic

/-!
# Folds that do not depend on the order

If the actions of the elements of a list commute and repeating one changes
nothing, then the fold depends only on which elements occur.
-/
namespace Folds

variable {σ α : Type} {act : σ → α → σ}

/-- An action that comes again later may be left out. -/
theorem foldl_absorb {x : α} {xs : List α} (hx : x ∈ xs)
    (comm : ∀ y ∈ xs, ∀ s, act (act s x) y = act (act s y) x)
    (idem : ∀ s, act (act s x) x = act s x) (s : σ) :
    xs.foldl act (act s x) = xs.foldl act s := by
  induction xs generalizing s with
  | nil => cases hx
  | cons y xs ih =>
    rw [List.foldl_cons, List.foldl_cons]
    rcases List.mem_cons.mp hx with rfl | hx
    · rw [idem]
    · rw [comm y List.mem_cons_self]
      exact ih hx (fun z hz => comm z (List.mem_cons_of_mem y hz)) (act s y)

variable [DecidableEq α]

theorem foldl_dedup {xs : List α}
    (comm : ∀ x ∈ xs, ∀ y ∈ xs, ∀ s, act (act s x) y = act (act s y) x)
    (idem : ∀ x ∈ xs, ∀ s, act (act s x) x = act s x) (s : σ) :
    xs.dedup.foldl act s = xs.foldl act s := by
  induction xs generalizing s with
  | nil => rfl
  | cons x xs ih =>
    have hrest := ih (fun y hy z hz => comm y (List.mem_cons_of_mem x hy) z
      (List.mem_cons_of_mem x hz)) fun y hy => idem y (List.mem_cons_of_mem x hy)
    by_cases hx : x ∈ xs
    · rw [List.dedup_cons_of_mem hx, hrest, List.foldl_cons, foldl_absorb hx]
      · exact fun y hy => comm x List.mem_cons_self y (List.mem_cons_of_mem x hy)
      · exact idem x List.mem_cons_self
    · rw [List.dedup_cons_of_notMem hx, List.foldl_cons, List.foldl_cons, hrest]

/-- Lists with the same elements fold to the same result. -/
theorem foldl_eq_of_mem_iff {xs ys : List α} (h : ∀ x, x ∈ xs ↔ x ∈ ys)
    (comm : ∀ x ∈ xs, ∀ y ∈ xs, ∀ s, act (act s x) y = act (act s y) x)
    (idem : ∀ x ∈ xs, ∀ s, act (act s x) x = act s x) (s : σ) :
    xs.foldl act s = ys.foldl act s := by
  have hperm : xs.dedup.Perm ys.dedup :=
    (List.perm_ext_iff_of_nodup xs.nodup_dedup ys.nodup_dedup).mpr fun x => by simp [h]
  have hys : ys.dedup.foldl act s = ys.foldl act s := by
    apply foldl_dedup
    · exact fun x hx y hy => comm x ((h x).mpr hx) y ((h y).mpr hy)
    · exact fun x hx => idem x ((h x).mpr hx)
  calc xs.foldl act s = xs.dedup.foldl act s := (foldl_dedup comm idem s).symm
    _ = ys.dedup.foldl act s :=
      hperm.foldl_eq' (fun x hx y hy => comm x (List.mem_dedup.mp hx) y (List.mem_dedup.mp hy)) s
    _ = ys.foldl act s := hys

end Folds
