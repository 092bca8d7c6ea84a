import Mathlib.Logic.Relation
import Bamboo.Library.Quorums

/-!
# Chains of certified blocks

Blocks of any kind with a parent relation and a view, and nodes that sign them.
A certificate is a quorum of nodes whose members outside a small set of faulty
ones have all signed. If a node outside that set signs at most one block of a
view, and a block it signs later never goes below what it was locked on, then
the certified blocks from some view on all extend the same block.
-/
namespace Chains

open Relation

variable {N D : Type}

/-- One of two blocks is an ancestor of the other, or they are the same. -/
def OneChain (parent : D → D → Prop) (a b : D) : Prop :=
  ReflTransGen parent a b ∨ ReflTransGen parent b a

/-- Ancestors of blocks on one chain are on one chain. -/
theorem OneChain.ancestors {parent : D → D → Prop} (hu : Relator.RightUnique parent)
    {a b a' b' : D} (h : OneChain parent a b) (ha : ReflTransGen parent a a')
    (hb : ReflTransGen parent b b') : OneChain parent a' b' := by
  rcases h with hab | hba
  · exact ReflTransGen.total_of_right_unique hu ha (hab.trans hb)
  · exact ReflTransGen.total_of_right_unique hu (hba.trans ha) hb

/-- A set that contains the parents of its members contains their ancestors. -/
theorem ancestor_mem {parent : D → D → Prop} {S : D → Prop} (hS : ∀ a b, parent a b → S a → S b)
    {a b : D} (h : ReflTransGen parent a b) (ha : S a) : S b := by
  induction h with
  | refl => exact ha
  | tail _ hlink ih => exact hS _ _ hlink ih

/-- A chain in consecutive views, newest first, leads to its oldest block and
has a block of every view in between that extends it. -/
theorem chain_covers {parent : D → D → Prop} {view : D → ℤ} {tip g : D} {chain : List D}
    (hchain : (tip :: chain).IsChain fun b a => parent b a ∧ view b = view a + 1)
    (hlast : (tip :: chain).getLast (by simp) = g) :
    ReflTransGen parent tip g ∧ ∀ v, view g ≤ v → v ≤ view tip →
      ∃ d ∈ tip :: chain, view d = v ∧ ReflTransGen parent d g := by
  induction chain generalizing tip with
  | nil =>
    obtain rfl : tip = g := by simpa using hlast
    exact ⟨.refl, fun v hlo hhi => ⟨tip, by simp, by omega, .refl⟩⟩
  | cons p rest ih =>
    obtain ⟨⟨hlink, hview⟩, hrest⟩ := List.isChain_cons_cons.mp hchain
    obtain ⟨hext, hcover⟩ := ih hrest (by simpa using hlast)
    have htip : ReflTransGen parent tip g := ReflTransGen.head hlink hext
    refine ⟨htip, fun v hlo hhi => ?_⟩
    by_cases hv : v ≤ view p
    · obtain ⟨d, hd, hdv, hdg⟩ := hcover v hlo hv
      exact ⟨d, List.mem_cons_of_mem _ hd, hdv, hdg⟩
    · exact ⟨tip, List.mem_cons_self, by omega, htip⟩

section Signers

variable {U F : Finset N} {f : ℕ} {signed : N → D → Prop} {parent : D → D → Prop} {view : D → ℤ}

/-- A quorum of `2 f + 1` nodes whose non-faulty members have signed the block. -/
def Certified (U F : Finset N) (f : ℕ) (signed : N → D → Prop) (d : D) : Prop :=
  ∃ Q ⊆ U, 2 * f + 1 ≤ Q.card ∧ ∀ n ∈ Q, n ∉ F → signed n d

/-- A node that is not faulty signs at most one block of a view. -/
def OnePerView (U F : Finset N) (signed : N → D → Prop) (view : D → ℤ) : Prop :=
  ∀ n ∈ U, n ∉ F → ∀ d d', signed n d → signed n d' → view d = view d' → d = d'

/-- The signers of `tip` are locked on `g`: what they sign above `tip` has a
certified parent that is not below `g`. -/
def Locks (U F : Finset N) (f : ℕ) (signed : N → D → Prop) (parent : D → D → Prop) (view : D → ℤ)
    (g tip : D) : Prop :=
  ∀ n ∈ U, n ∉ F → signed n tip → ∀ d, signed n d → view tip < view d →
    ∃ p, parent d p ∧ Certified U F f signed p ∧ view g ≤ view p ∧ view p < view d

/-- A certified block that every certified block from its view on extends. -/
def Decided (U F : Finset N) (f : ℕ) (signed : N → D → Prop) (parent : D → D → Prop)
    (view : D → ℤ) (g : D) : Prop :=
  Certified U F f signed g ∧
    ∀ d, Certified U F f signed d → view g ≤ view d → ReflTransGen parent d g

/-- Any two decided blocks are on one chain. -/
theorem Decided.oneChain {g g' : D} (h : Decided U F f signed parent view g)
    (h' : Decided U F f signed parent view g') : OneChain parent g g' := by
  rcases le_total (view g) (view g') with hle | hle
  · exact Or.inr (h.2 g' h'.1 hle)
  · exact Or.inl (h'.2 g h.1 hle)

variable [DecidableEq N]

theorem Certified.common_signer (hU : U.card = 3 * f + 1) (hF : F.card ≤ f) {d d' : D}
    (h : Certified U F f signed d) (h' : Certified U F f signed d') :
    ∃ n ∈ U, n ∉ F ∧ signed n d ∧ signed n d' := by
  obtain ⟨Q, hQ, hcard, hsigned⟩ := h
  obtain ⟨Q', hQ', hcard', hsigned'⟩ := h'
  obtain ⟨n, hn, hn', hF⟩ := Quorums.exists_mem_inter_notMem hU hQ hQ' hcard hcard' hF
  exact ⟨n, hQ hn, hF, hsigned n hn hF, hsigned' n hn' hF⟩

theorem Certified.eq_of_view_eq (hU : U.card = 3 * f + 1) (hF : F.card ≤ f)
    (hone : OnePerView U F signed view) {d d' : D} (h : Certified U F f signed d)
    (h' : Certified U F f signed d') (hview : view d = view d') : d = d' := by
  obtain ⟨n, hn, hnF, hs, hs'⟩ := h.common_signer hU hF h'
  exact hone n hn hnF d d' hs hs' hview

/-- Every certified block from the view of `g` on extends `g`, if those up to
`tip` do and the signers of `tip` are locked on `g`. By induction on the view,
since a block above `tip` shares a signer with it. -/
theorem Certified.extends_of_locks (hU : U.card = 3 * f + 1) (hF : F.card ≤ f) {g tip : D}
    (htip : Certified U F f signed tip) (hlock : Locks U F f signed parent view g tip)
    (hlow : ∀ d, Certified U F f signed d → view g ≤ view d → view d ≤ view tip →
      ReflTransGen parent d g) :
    ∀ d, Certified U F f signed d → view g ≤ view d → ReflTransGen parent d g := by
  have hmain : ∀ k : ℕ, ∀ d, Certified U F f signed d → view g ≤ view d →
      view d = view g + k → ReflTransGen parent d g := by
    intro k
    induction k using Nat.strong_induction_on with
    | _ k ih =>
      intro d hd hg hk
      by_cases htop : view d ≤ view tip
      · exact hlow d hd hg htop
      · obtain ⟨n, hn, hnF, hst, hsd⟩ := htip.common_signer hU hF hd
        obtain ⟨p, hlink, hp, hgp, hpd⟩ := hlock n hn hnF hst d hsd (by omega)
        have hext : ReflTransGen parent p g :=
          ih (view p - view g).toNat (by omega) p hp hgp (by omega)
        exact ReflTransGen.head hlink hext
  intro d hd hg
  exact hmain (view d - view g).toNat d hd hg (by omega)

/-- A chain of certified blocks in consecutive views, newest first, decides its
oldest block, if the signers of the newest are locked on it. -/
theorem decided_of_chain (hU : U.card = 3 * f + 1) (hF : F.card ≤ f)
    (hone : OnePerView U F signed view) {tip g : D} {chain : List D}
    (hchain : (tip :: chain).IsChain fun b a => parent b a ∧ view b = view a + 1)
    (hlast : (tip :: chain).getLast (by simp) = g)
    (hcert : ∀ d ∈ tip :: chain, Certified U F f signed d)
    (hlock : Locks U F f signed parent view g tip) :
    Decided U F f signed parent view g := by
  have htip := hcert tip List.mem_cons_self
  have hg : Certified U F f signed g := hcert g (hlast ▸ List.getLast_mem _)
  refine ⟨hg, htip.extends_of_locks hU hF hlock ?_⟩
  intro d hd hlo hhi
  -- a block of the chain has the view of `d`, so it is `d`
  obtain ⟨d', hd', hview, hext⟩ := (chain_covers hchain hlast).2 (view d) hlo hhi
  obtain rfl := hd.eq_of_view_eq hU hF hone (hcert d' hd') hview.symm
  exact hext

end Signers

end Chains
