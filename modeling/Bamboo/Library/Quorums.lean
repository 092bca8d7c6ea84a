import Mathlib.Data.Finset.Card
import Mathlib.Tactic

/-!
# Intersecting quorums

Two subsets of a finite universe share at least as many elements as their sizes
exceed the universe by.
-/
namespace Quorums

variable {V : Type} [DecidableEq V]

theorem card_add_card_le {U A B : Finset V} (hA : A ⊆ U) (hB : B ⊆ U) :
    A.card + B.card ≤ U.card + (A ∩ B).card := by
  rw [← Finset.card_union_add_card_inter]
  have hU := Finset.card_le_card (Finset.union_subset hA hB)
  omega

/-- Two quorums of `2 f + 1` out of `3 f + 1` share `f + 1` elements. -/
theorem succ_le_card_inter {f : ℕ} {U A B : Finset V} (hU : U.card = 3 * f + 1) (hA : A ⊆ U)
    (hB : B ⊆ U) (hAf : 2 * f + 1 ≤ A.card) (hBf : 2 * f + 1 ≤ B.card) :
    f + 1 ≤ (A ∩ B).card := by
  have h := card_add_card_le hA hB
  omega

/-- So one of the shared elements is outside any set of `f`. -/
theorem exists_mem_inter_notMem {f : ℕ} {U A B F : Finset V} (hU : U.card = 3 * f + 1)
    (hA : A ⊆ U) (hB : B ⊆ U) (hAf : 2 * f + 1 ≤ A.card) (hBf : 2 * f + 1 ≤ B.card)
    (hF : F.card ≤ f) : ∃ x ∈ A, x ∈ B ∧ x ∉ F := by
  by_contra hnone
  push Not at hnone
  have hsub : A ∩ B ⊆ F := fun x hx =>
    hnone x (Finset.mem_inter.mp hx).1 (Finset.mem_inter.mp hx).2
  have hcard := Finset.card_le_card hsub
  have hinter := succ_le_card_inter hU hA hB hAf hBf
  omega

/-- In a larger universe two quorums of that size may share no more than `f`. -/
theorem exists_card_inter_le {f : ℕ} {U : Finset V} (hU : 3 * f + 1 < U.card) :
    ∃ A ⊆ U, ∃ B ⊆ U, A.card = 2 * f + 1 ∧ B.card = 2 * f + 1 ∧ (A ∩ B).card ≤ f := by
  obtain ⟨A, hA, hAf⟩ := Finset.exists_subset_card_eq (s := U) (n := 2 * f + 1) (by omega)
  have hrest := Finset.card_sdiff_of_subset hA
  obtain ⟨C, hC, hCf⟩ := Finset.exists_subset_card_eq (s := U \ A) (n := f + 1) (by omega)
  obtain ⟨D, hD, hDf⟩ := Finset.exists_subset_card_eq (s := A) (n := f) (by omega)
  have hCA : Disjoint C A := Finset.disjoint_of_subset_left hC Finset.sdiff_disjoint
  have hinter : A ∩ (C ∪ D) = D := by
    rw [Finset.inter_union_distrib_left, Finset.inter_comm A C,
      Finset.disjoint_iff_inter_eq_empty.mp hCA, Finset.empty_union,
      Finset.inter_eq_right.mpr hD]
  refine ⟨A, hA, C ∪ D, ?_, hAf, ?_, ?_⟩
  · exact Finset.union_subset (hC.trans Finset.sdiff_subset) (hD.trans hA)
  · rw [Finset.card_union_of_disjoint (Finset.disjoint_of_subset_right hD hCA)]
    omega
  · rw [hinter, hDf]

end Quorums
