import Bamboo.ForkReports

/-!
# Chains without gaps

Where nothing goes wrong each view adds one block, whose certificate is for the
block of the view before. A forest that was given such a chain stores it from
the last committed block on, and committing the next block delivers that block
alone and forks nothing off.
-/
namespace Bamboo

/-! ## Views as numbers -/

def viewOf (k : ℕ) : View := Int64.ofNat k

@[simp] theorem viewOf_add_one (k : ℕ) : viewOf k + 1 = viewOf (k + 1) := by
  simp [viewOf, Int64.ofNat_add]

@[simp] theorem viewOf_succ_sub_one (k : ℕ) : viewOf (k + 1) - 1 = viewOf k := by
  rw [← viewOf_add_one]
  exact Int64.add_sub_cancel _ _

theorem toInt_viewOf {k : ℕ} (h : k < 2 ^ 63) : (viewOf k).toInt = k := by
  rw [viewOf, Int64.toInt_ofNat_of_lt h]

theorem viewOf_lt {a b : ℕ} (ha : a < 2 ^ 63) (hb : b < 2 ^ 63) : viewOf a < viewOf b ↔ a < b := by
  rw [Int64.lt_iff_toInt_lt, toInt_viewOf ha, toInt_viewOf hb]
  omega

theorem viewOf_le {a b : ℕ} (ha : a < 2 ^ 63) (hb : b < 2 ^ 63) : viewOf a ≤ viewOf b ↔ a ≤ b := by
  rw [Int64.le_iff_toInt_le, toInt_viewOf ha, toInt_viewOf hb]
  omega

theorem viewOf_inj {a b : ℕ} (ha : a < 2 ^ 63) (hb : b < 2 ^ 63) : viewOf a = viewOf b ↔ a = b := by
  rw [← Int64.toInt_inj, toInt_viewOf ha, toInt_viewOf hb]
  omega

/-! ## One block for each view -/

/-- The id that the next block names as its parent. -/
def tipID (l : List Block) : Identifier := (l.getLast?.map Block.id).getD genesisID

@[simp] theorem tipID_snoc (l : List Block) (b : Block) : tipID (l ++ [b]) = b.id := by
  simp [tipID]

/-- The block of the next view, with a certificate for the last block. -/
structure Block.Extends (l : List Block) (b : Block) : Prop where
  view : b.view = viewOf (l.length + 1)
  qc : ∃ qc, b.qc = some qc ∧ qc.view = viewOf l.length ∧ qc.blockID = tipID l
  prevID : b.prevID = tipID l
  genesis : b.id ≠ genesisID
  fresh : ∀ x ∈ l, x.id ≠ b.id

/-- Blocks of the views 1, 2, 3 and so on, oldest first. -/
inductive Straight : List Block → Prop
  | nil : Straight []
  | snoc {l : List Block} {b : Block} (h : Straight l) (hb : b.Extends l)
      (hlen : l.length + 1 < 2 ^ 63) : Straight (l ++ [b])

namespace Straight

variable {l : List Block} {b p : Block} {k : ℕ}

theorem length_lt (h : Straight l) : l.length < 2 ^ 63 := by
  cases h with
  | nil => simp
  | snoc _ _ hlen => simpa using hlen

/-- The last block and what came before it. -/
theorem snoc_iff : Straight (l ++ [b]) ↔ Straight l ∧ b.Extends l ∧ l.length + 1 < 2 ^ 63 := by
  constructor
  · intro h
    generalize hlist : l ++ [b] = m at h
    cases h with
    | nil => simp at hlist
    | snoc h hb hlen =>
      obtain ⟨rfl, hlast⟩ := List.append_inj' hlist rfl
      cases hlast
      exact ⟨h, hb, hlen⟩
  · rintro ⟨h, hb, hlen⟩
    exact h.snoc hb hlen

theorem view (h : Straight l) (hb : l[k]? = some b) : b.view = viewOf (k + 1) := by
  induction h with
  | nil => simp at hb
  | @snoc l x hl hx _ ih =>
    rcases lt_trichotomy k l.length with hlt | rfl | hgt
    · rw [List.getElem?_append_left hlt] at hb
      exact ih hb
    · simp only [List.getElem?_concat_length, Option.some.injEq] at hb
      rw [← hb, hx.view]
    · rw [List.getElem?_eq_none (by simp; omega)] at hb
      cases hb

/-- The block at a place names the one before as its parent. -/
theorem prevID (h : Straight l) (hp : l[k]? = some p) (hb : l[k + 1]? = some b) :
    b.prevID = p.id := by
  induction h with
  | nil => simp at hb
  | @snoc l x hl hx _ ih =>
    rcases lt_trichotomy (k + 1) l.length with hlt | heq | hgt
    · rw [List.getElem?_append_left hlt] at hb
      rw [List.getElem?_append_left (by omega)] at hp
      exact ih hp hb
    · rw [heq, List.getElem?_concat_length] at hb
      obtain rfl := Option.some.inj hb
      rw [List.getElem?_append_left (by omega)] at hp
      have hlast : l.getLast? = some p := by rw [List.getLast?_eq_getElem?, ← heq, ← hp]; rfl
      rw [hx.prevID, tipID, hlast]
      rfl
    · rw [List.getElem?_eq_none (by simp; omega)] at hb
      cases hb

theorem ids (h : Straight l) : ∀ a ∈ l, ∀ b ∈ l, a.id = b.id → a = b := by
  induction h with
  | nil => simp
  | @snoc l x hl hx _ ih =>
    intro a ha b hb heq
    simp only [List.mem_append, List.mem_singleton] at ha hb
    rcases ha with ha | rfl <;> rcases hb with hb | rfl
    · exact ih a ha b hb heq
    · exact absurd heq (hx.fresh a ha)
    · exact absurd heq.symm (hx.fresh b hb)
    · rfl

theorem tipID_eq (hb : l[k]? = some b) (hk : l.length = k + 1) : tipID l = b.id := by
  rw [tipID, List.getLast?_eq_getElem?, hk, Nat.add_sub_cancel, hb]
  rfl

/-- Only the last block has the id of the tip. -/
theorem tipID_ne (h : Straight l) (hb : l[k]? = some b) (hk : k + 1 < l.length) :
    tipID l ≠ b.id := by
  cases h with
  | nil => simp at hb
  | @snoc l x _ hx _ =>
    simp only [List.length_append, List.length_singleton] at hk
    rw [List.getElem?_append_left (by omega)] at hb
    rw [tipID_snoc]
    exact (hx.fresh b (List.mem_of_getElem? hb)).symm

/-- The certificate of each block is for the block before, which comes of the
view that it states, or for genesis. -/
theorem parent (h : Straight l) : ∀ b ∈ l, ∃ qc ∈ b.qc,
    (∃ p ∈ l, p.id = b.prevID ∧ p.view = qc.view ∧ qc.view < b.view) ∨
      (b.prevID = genesisID ∧ qc.view = 0) := by
  induction h with
  | nil => simp
  | @snoc l x hl hx hlen ih =>
    intro b hb
    rcases List.mem_append.mp hb with hb | hb
    · obtain ⟨qc, hqc, ⟨p, hp, hrest⟩ | hgen⟩ := ih b hb
      · exact ⟨qc, hqc, Or.inl ⟨p, List.mem_append_left _ hp, hrest⟩⟩
      · exact ⟨qc, hqc, Or.inr hgen⟩
    · obtain rfl := List.mem_singleton.mp hb
      obtain ⟨qc, hqc, hview, hid⟩ := hx.qc
      refine ⟨qc, hqc, ?_⟩
      cases hlast : l.getLast? with
      | none =>
        rw [List.getLast?_eq_none_iff] at hlast
        subst hlast
        exact Or.inr ⟨hx.prevID, hview⟩
      | some p =>
        refine Or.inl ⟨p, List.mem_append_left _ (List.mem_of_getLast? hlast), ?_, ?_, ?_⟩
        · rw [hx.prevID, tipID, hlast]
          rfl
        · rw [List.getLast?_eq_getElem?] at hlast
          have hpos : 0 < l.length := by
            by_contra hzero
            simp [show l = [] from List.length_eq_zero_iff.mp (by omega)] at hlast
          rw [hl.view hlast, hview, Nat.sub_add_cancel hpos]
        · rw [hview, hx.view, viewOf_lt (by omega) hlen]
          omega

theorem onePerView (h : Straight l) : OnePerView {b | b ∈ l} where
  ids := h.ids
  views a ha b hb heq := by
    obtain ⟨i, hi⟩ := List.mem_iff_getElem?.mp ha
    obtain ⟨j, hj⟩ := List.mem_iff_getElem?.mp hb
    have hil := (List.getElem?_eq_some_iff.mp hi).1
    have hjl := (List.getElem?_eq_some_iff.mp hj).1
    have hlen := h.length_lt
    rw [h.view hi, h.view hj, viewOf_inj (by omega) (by omega)] at heq
    obtain rfl : i = j := by omega
    exact Option.some.inj (hi.symm.trans hj)
  positive b hb := by
    obtain ⟨i, hi⟩ := List.mem_iff_getElem?.mp hb
    have hil := (List.getElem?_eq_some_iff.mp hi).1
    have hlen := h.length_lt
    rw [h.view hi, show (1 : View) = viewOf 1 from rfl, viewOf_le (by norm_num) (by omega)]
    omega
  genesis := by
    induction h with
    | nil => simp
    | snoc _ hx _ ih =>
      intro b hb
      rcases List.mem_append.mp hb with hb | hb
      · exact ih b hb
      · obtain rfl := List.mem_singleton.mp hb
        exact hx.genesis
  parent := h.parent

end Straight

/-! ## Forests of such chains -/

theorem level_viewOf {k : ℕ} (h : k < 2 ^ 63) : (viewOf k).toUInt64.toNat = k := by
  have hzero : (0 : View) ≤ viewOf k :=
    (viewOf_le (by norm_num) h).mpr (Nat.zero_le k)
  have hlevel := toNat_toUInt64 hzero
  rw [toInt_viewOf h] at hlevel
  omega

theorem Straight.level {l : List Block} (h : Straight l) {k : ℕ} {b : Block}
    (hb : l[k]? = some b) : b.level.toNat = k + 1 := by
  have hk := (List.getElem?_eq_some_iff.mp hb).1
  have hlen := h.length_lt
  rw [Block.level, h.view hb, level_viewOf (by omega)]

namespace LevelledForest

theorem Fits.mono {U V : Set Block} {f : LevelledForest} (hf : f.Fits U) (h : U ⊆ V) :
    f.Fits V where
  toCoherent := hf.toCoherent
  label_mem a id l hl := by
    rcases hf.label_mem a id l hl with ⟨b, hb, hlabel⟩ | hgen
    · exact Or.inl ⟨b, h hb, hlabel⟩
    · exact Or.inr hgen
  vertex_mem a b hv := h (hf.vertex_mem a b hv)

/-- The forest holds the chain from its block of view `c` on; the blocks up to
that one are committed. -/
structure Retains (l : List Block) (c : ℕ) (f : LevelledForest) : Prop where
  fits : f.Fits {b | b ∈ l}
  stored : ∀ k b, l[k]? = some b → (f.Stored b ↔ c ≤ k + 1)
  lowest : f.lowestLevel.toNat = c
  le : c ≤ l.length

theorem retains_new : new.Retains [] 0 where
  fits := fits_new _
  stored k b h := by simp at h
  lowest := rfl
  le := Nat.le_refl 0

section Retains

variable {l : List Block} {c k : ℕ} {f : LevelledForest} {b p : Block}

theorem Retains.getVertex (hf : f.Retains l c) (hb : l[k]? = some b) (hc : c ≤ k + 1) :
    f.getVertex b.id = some b :=
  (hf.stored k b hb).mpr hc

/-- The next block is stored beside the others. -/
theorem Retains.snoc (hl : Straight (l ++ [b])) (hf : f.Retains l c) :
    ∃ f', f.addVertex b = .ok f' ∧ f'.Retains (l ++ [b]) c := by
  obtain ⟨-, hb, -⟩ := Straight.snoc_iff.mp hl
  have hfits := hf.fits.mono (V := {x | x ∈ l ++ [b]}) fun x hx => List.mem_append_left _ hx
  obtain ⟨f', hadd, hfits'⟩ := hfits.addVertex hl.onePerView.treelike (b := b) (by simp)
  obtain ⟨-, hlow, hget⟩ := addVertex_spec hf.fits.toSound hadd
  have hnone : f.getVertex b.id = none := by
    rw [Option.eq_none_iff_forall_not_mem]
    intro x hx
    obtain ⟨hmem, hid⟩ := hf.fits.mem_of_getVertex hx
    exact hb.fresh x hmem hid
  have hlevel : ¬ b.level < f.lowestLevel := by
    have hle := hf.le
    rw [UInt64.lt_iff_toNat_lt, hf.lowest, hl.level (k := l.length) (by simp)]
    omega
  refine ⟨f', hadd, hfits', fun k x hx => ?_, by rw [hlow, hf.lowest], ?_⟩
  · rw [Stored, hget]
    rcases lt_trichotomy k l.length with hlt | rfl | hgt
    · rw [List.getElem?_append_left hlt] at hx
      have hne : x.id ≠ b.id := hb.fresh x (List.mem_of_getElem? hx)
      rw [if_neg fun h => hne h.1]
      exact hf.stored k x hx
    · rw [List.getElem?_concat_length, Option.some.injEq] at hx
      subst hx
      have hle := hf.le
      simp only [hlevel, hnone, not_false_eq_true, and_self, ↓reduceIte, true_iff]
      omega
    · rw [List.getElem?_eq_none (by simp; omega)] at hx
      cases hx
  · have hle := hf.le
    simp only [List.length_append]
    omega

/-- The parent of a block above the committed one is stored as well. -/
theorem Retains.prevID (hl : Straight l) (hf : f.Retains l c) (hp : l[k]? = some p)
    (hb : l[k + 1]? = some b) (hc : c ≤ k + 1) : f.getVertex b.prevID = some p := by
  rw [hl.prevID hp hb]
  exact hf.getVertex hp hc

end Retains

end LevelledForest

namespace BlockChain

variable {l : List Block} {c k : ℕ} {bc : BlockChain} {b p : Block}

theorem getParentBlock_retained (hl : Straight l) (hf : bc.forrest.Retains l c)
    (hp : l[k]? = some p) (hb : l[k + 1]? = some b) (hc : c ≤ k + 1) :
    bc.getParentBlock b.id = .ok (.ok p) := by
  obtain ⟨qc, hqc, -⟩ := hl.parent b (List.mem_of_getElem? hb)
  exact getParentBlock_of_stored (hf.getVertex hb (by omega)) hqc (hf.prevID hl hp hb hc)

/-- Committing the block after the committed ones delivers it and nothing else. -/
theorem commitBlock_next (hl : Straight l) (hf : bc.forrest.Retains l c) (hb : l[c]? = some b)
    (view : View) :
    ∃ bc', bc.commitBlock b.id view = .ok (.ok ([b], []), bc') ∧
      bc'.forrest.Retains l (c + 1) ∧ bc'.quorum.votes = bc.quorum.votes.erase b.id := by
  have hstored := hf.getVertex hb (Nat.le_succ c)
  have hU := hl.onePerView
  obtain ⟨committed, forked, bc', hcommit, hc, hfits⟩ :=
    commitBlock_commits hU hf.fits hstored view
  have hlevel := hl.level hb
  have hdown : ∀ x, bc.forrest.Joined b x → x = b ∨ x.level < b.level :=
    fun x hx => (hf.fits.joined hU.treelike hstored hx).2
  have hpath : committed = [b] := by
    refine List.perm_singleton.mp ((List.perm_ext_iff_of_nodup hc.committed_nodup
      (List.nodup_singleton b)).mpr fun x => ?_)
    rw [hc.committed_iff, List.mem_singleton, UInt64.lt_iff_toNat_lt, hf.lowest]
    constructor
    · rintro ⟨hjoined, hlow⟩
      rcases hdown x hjoined with rfl | hlt
      · rfl
      · rw [UInt64.lt_iff_toNat_lt] at hlt
        omega
    · rintro rfl
      exact ⟨.refl, by omega⟩
  have hforked : forked = [] := by
    rw [List.eq_nil_iff_forall_not_mem]
    intro x hx
    obtain ⟨hxs, -, hlt, hnot⟩ := (hc.forked_iff x).mp hx
    obtain ⟨j, hj⟩ := List.mem_iff_getElem?.mp (hf.fits.mem_of_getVertex hxs).1
    have hle := (hf.stored j x hj).mp hxs
    rw [UInt64.lt_iff_toNat_lt, hl.level hj] at hlt
    obtain rfl : c = j + 1 := by omega
    refine hnot ((LevelledForest.joined_of_some (hf.prevID hl hj hb (Nat.le_refl _))).mpr ?_)
    exact Or.inr .refl
  subst hpath hforked
  refine ⟨bc', hcommit, ⟨hfits, fun j x hx => ?_, by rw [hc.lowestLevel, hlevel], ?_⟩, ?_⟩
  · rw [hc.stored_iff hU hf.fits, hf.stored j x hx, UInt64.le_iff_toNat_le, hl.level hx]
    omega
  · exact (List.getElem?_eq_some_iff.mp hb).1
  · rcases commitBlock_ok hcommit with ⟨hnone, -⟩ | ⟨_, path, res, -, -, -, hq, hr⟩
    · rw [hnone] at hstored
      cases hstored
    · rcases hr with ⟨e, -, he⟩ | ⟨forked, prunedNo, -, he⟩
      · cases he
      · cases he
        rw [hq]
        rfl

end BlockChain

end Bamboo
