import Bamboo.ForestOrder

/-!
# Commits on well-formed chains

The blocks that reach a replica come from a set with at most one block for each
view, in which every block has a parent of a smaller view. The two walks of a
commit, one by parent ids and one by levels, then agree and end; a commit
delivers the stored path above the lowest level and leaves what is at the
committed view or above.
-/
namespace Bamboo

open Relation

/-! ## Views and levels -/

/-- Levels order the blocks of non-negative views as their views do. -/
theorem level_lt_iff {a b : Block} (ha : 0 ≤ a.view) (hb : 0 ≤ b.view) :
    a.level < b.level ↔ a.view < b.view := by
  have hna : (a.level.toNat : ℤ) = a.view.toInt := toNat_toUInt64 ha
  have hnb : (b.level.toNat : ℤ) = b.view.toInt := toNat_toUInt64 hb
  rw [UInt64.lt_iff_toNat_lt, Int64.lt_iff_toInt_lt]
  omega

theorem level_eq_iff {a b : Block} : a.level = b.level ↔ a.view = b.view := by
  constructor
  · intro h
    simpa [Block.level] using congrArg UInt64.toInt64 h
  · intro h
    rw [Block.level, h, Block.level]

/-- Distinct ids, one block for each view, and every parent is a block of the
set with the view that the certificate names, or genesis. -/
structure OnePerView (U : Set Block) : Prop where
  ids : ∀ a ∈ U, ∀ b ∈ U, a.id = b.id → a = b
  views : ∀ a ∈ U, ∀ b ∈ U, a.view = b.view → a = b
  positive : ∀ b ∈ U, 1 ≤ b.view
  genesis : ∀ b ∈ U, b.id ≠ genesisID
  parent : ∀ b ∈ U, ∃ qc ∈ b.qc,
    (∃ p ∈ U, p.id = b.prevID ∧ p.view = qc.view ∧ qc.view < b.view) ∨
      (b.prevID = genesisID ∧ qc.view = 0)

/-- The same without the restriction to one block for each view. -/
structure Treelike (U : Set Block) : Prop where
  ids : ∀ a ∈ U, ∀ b ∈ U, a.id = b.id → a = b
  genesis : ∀ b ∈ U, b.id ≠ genesisID
  parent : ∀ b ∈ U, ∃ qc ∈ b.qc, qc.view < b.view ∧
    ((∃ p ∈ U, p.id = b.prevID ∧ p.view = qc.view) ∨ (b.prevID = genesisID ∧ qc.view = 0))

theorem OnePerView.treelike {U : Set Block} (hU : OnePerView U) : Treelike U where
  ids := hU.ids
  genesis := hU.genesis
  parent b hb := by
    obtain ⟨qc, hqc, ⟨p, hp, hid, hview, hlt⟩ | ⟨hid, hview⟩⟩ := hU.parent b hb
    · exact ⟨qc, hqc, hlt, Or.inl ⟨p, hp, hid, hview⟩⟩
    · refine ⟨qc, hqc, ?_, Or.inr ⟨hid, hview⟩⟩
      rw [hview]
      exact Int64.lt_of_lt_of_le (by decide) (hU.positive b hb)

/-- A finite set is checked by going through it. -/
theorem onePerView_of_list {l : List Block}
    (h : (∀ a ∈ l, ∀ b ∈ l, (a.id = b.id → a = b) ∧ (a.view = b.view → a = b)) ∧
      (∀ b ∈ l, 1 ≤ b.view ∧ b.id ≠ genesisID) ∧
      ∀ b ∈ l, ∃ qc ∈ b.qc,
        (∃ p ∈ l, p.id = b.prevID ∧ p.view = qc.view ∧ qc.view < b.view) ∨
          (b.prevID = genesisID ∧ qc.view = 0)) : OnePerView {b | b ∈ l} where
  ids a ha b hb := (h.1 a ha b hb).1
  views a ha b hb := (h.1 a ha b hb).2
  positive b hb := (h.2.1 b hb).1
  genesis b hb := (h.2.1 b hb).2
  parent := h.2.2

/-- Going from parent to parent, the views get smaller and cannot but end at genesis. -/
theorem Treelike.positive {U : Set Block} (hU : Treelike U) {b : Block} (hb : b ∈ U) :
    1 ≤ b.view := by
  induction hn : (b.view.toInt + 2 ^ 63).toNat using Nat.strong_induction_on generalizing b with
  | _ n ih =>
    obtain ⟨qc, -, hlt, hparent⟩ := hU.parent b hb
    have hview := Int64.lt_iff_toInt_lt.mp hlt
    have hone : (1 : View).toInt = 1 := rfl
    rw [Int64.le_iff_toInt_le]
    rcases hparent with ⟨p, hp, -, hpq⟩ | ⟨-, hzero⟩
    · have hlow : -2 ^ 63 ≤ qc.view.toInt := qc.view.le_toInt
      have hpos := ih (p.view.toInt + 2 ^ 63).toNat (by rw [hpq]; omega) hp rfl
      rw [hpq, Int64.le_iff_toInt_le] at hpos
      omega
    · have hqc : qc.view.toInt = 0 := by rw [hzero]; rfl
      omega

theorem Treelike.view_nonneg {U : Set Block} (hU : Treelike U) {b : Block} (hb : b ∈ U) :
    0 ≤ b.view :=
  Int64.le_trans (by decide) (hU.positive hb)

theorem Treelike.one_le_level {U : Set Block} (hU : Treelike U) {b : Block} (hb : b ∈ U) :
    1 ≤ b.level := by
  have hview := Int64.le_iff_toInt_le.mp (hU.positive hb)
  have hone : (1 : View).toInt = 1 := rfl
  have hlevel : (b.level.toNat : ℤ) = b.view.toInt := toNat_toUInt64 (hU.view_nonneg hb)
  have hnat : (1 : UInt64).toNat = 1 := rfl
  rw [UInt64.le_iff_toNat_le]
  omega

/-- The parent is of the level that the block names, which is smaller than its own. -/
theorem Treelike.parent_level {U : Set Block} (hU : Treelike U) {b p : Block} (hb : b ∈ U)
    (hp : p ∈ U) (h : p.id = b.prevID) : p.level = b.parentLevel ∧ p.level < b.level := by
  obtain ⟨qc, hqc, hlt, ⟨q, hq, hqid, hqview⟩ | ⟨hgen, -⟩⟩ := hU.parent b hb
  · obtain rfl : p = q := hU.ids p hp q hq (h.trans hqid.symm)
    rw [level_lt_iff (hU.view_nonneg hp) (hU.view_nonneg hb), hqview]
    refine ⟨?_, hlt⟩
    simp [Block.level, Block.parentLevel, Option.mem_def.mp hqc, hqview]
  · exact absurd (h.trans hgen) (hU.genesis p hp)

theorem OnePerView.eq_of_level {U : Set Block} (hU : OnePerView U) {a b : Block} (ha : a ∈ U)
    (hb : b ∈ U) (h : a.level = b.level) : a = b :=
  hU.views a ha b hb (level_eq_iff.mp h)

/-! ## Forests of such blocks -/

namespace LevelledForest

/-- The containers are those of blocks of the set, at their levels, and perhaps
a placeholder for genesis. -/
structure Fits (U : Set Block) (f : LevelledForest) : Prop extends Coherent f where
  label_mem : ∀ a id l, f.label a = some (id, l) →
    (∃ b ∈ U, b.id = id ∧ b.level = l) ∨ (id = genesisID ∧ l = 0)
  vertex_mem : ∀ a b, f.vertexAt a = some b → b ∈ U

theorem fits_new (U : Set Block) : new.Fits U where
  toCoherent := coherent_new
  label_mem a id l h := by simp [new, label] at h
  vertex_mem a b h := by simp [new, vertexAt] at h

theorem label_getOrCreate {f : LevelledForest} {id : Identifier} {level : UInt64} {a : ℕ}
    {x : Identifier × UInt64} (h : (f.getOrCreateVertexContainer id level).1.label a = some x) :
    f.label a = some x ∨ x = (id, level) := by
  cases hlookup : f.vertices.lookup id with
  | some a' =>
    rw [getOrCreate_some hlookup] at h
    exact Or.inl h
  | none =>
    rw [getOrCreate_none hlookup, label_push] at h
    split_ifs at h
    · exact Or.inr (Option.some.inj h).symm
    · exact Or.inl h

/-- The only containers a block brings along are its own and its parent's. -/
theorem addVertex_label {f f' : LevelledForest} (hf : f.Coherent) {b : Block} {qc : QC}
    (hqc : b.qc = some qc) (h : f.addVertex b = .ok f') {a : ℕ} {x : Identifier × UInt64}
    (hx : f'.label a = some x) :
    f.label a = some x ∨ x = (b.id, b.level) ∨ x = (b.prevID, b.parentLevel) := by
  rcases addVertex_ok hf h with rfl | ⟨g, i, c, hr, -, -, -, -, -, hreg⟩
  · exact Or.inl hx
  · have hfill : ∀ y, (g.fill i b).label a = some y → f.label a = some y ∨ y = (b.id, b.level) := by
      intro y hy
      rw [label_fill] at hy
      exact label_getOrCreate (by rw [hr]; exact hy)
    rcases registerWithParent_ok hreg with rfl | ⟨id, view, hp, -, rfl⟩
    · exact (hfill x hx).imp_right Or.inl
    · rw [parent_eq hqc] at hp
      cases hp
      rw [label_addChild] at hx
      rcases label_getOrCreate hx with hx | hx
      · exact (hfill x hx).imp_right Or.inl
      · exact Or.inr (Or.inr hx)

theorem addVertex_vertexAt {f f' : LevelledForest} (hf : f.Coherent) {b : Block}
    (h : f.addVertex b = .ok f') {a : ℕ} {v : Block} (hv : f'.vertexAt a = some v) :
    f.vertexAt a = some v ∨ v = b := by
  rcases addVertex_ok hf h with rfl | ⟨g, i, c, hr, -, -, -, hc, -, hreg⟩
  · exact Or.inl hv
  · have hfill : (g.fill i b).vertexAt a = some v := by
      rcases registerWithParent_ok hreg with rfl | ⟨id, view, -, -, rfl⟩
      · exact hv
      · rwa [vertexAt_addChild, vertexAt_getOrCreate] at hv
    rw [vertexAt_fill hc] at hfill
    split_ifs at hfill
    · exact Or.inr (Option.some.inj hfill).symm
    · have hg := f.vertexAt_getOrCreate b.id b.level a
      rw [hr] at hg
      exact Or.inl (hg.symm.trans hfill)

/-- A block of the set can always be stored. -/
theorem Fits.addVertex {U : Set Block} (hU : Treelike U) {f : LevelledForest} (hf : f.Fits U)
    {b : Block} (hb : b ∈ U) : ∃ f', f.addVertex b = .ok f' ∧ f'.Fits U := by
  obtain ⟨qc, hqc, -, hparent⟩ := hU.parent b hb
  obtain ⟨f', hadd, -⟩ := addVertex_outline hf.toCoherent hqc
  have hlevel : b.parentLevel = qc.view.toUInt64 := by
    simp [Block.parentLevel, Option.mem_def.mp hqc]
  refine ⟨f', hadd, hf.toCoherent.addVertex hadd, fun a id l hl => ?_, fun a v hv => ?_⟩
  · rcases addVertex_label hf.toCoherent hqc hadd hl with hl | hl | hl
    · exact hf.label_mem a id l hl
    · cases hl
      exact Or.inl ⟨b, hb, rfl, rfl⟩
    · cases hl
      rcases hparent with ⟨p, hp, hid, hview⟩ | ⟨hid, hview⟩
      · refine Or.inl ⟨p, hp, hid, ?_⟩
        rw [hlevel, ← hview, Block.level]
      · refine Or.inr ⟨hid, ?_⟩
        rw [hlevel, hview]
        rfl
  · rcases addVertex_vertexAt hf.toCoherent hadd hv with hv | rfl
    · exact hf.vertex_mem a v hv
    · exact hb

theorem Fits.pruneUpToLevel {U : Set Block} {f f' : LevelledForest} (hf : f.Fits U)
    {level : UInt64} {r : Except Err (List Block × ℕ)}
    (h : f.pruneUpToLevel level = .ok (r, f')) : f'.Fits U := by
  have hheap := (pruneUpToLevel_forgets h).heap
  refine ⟨hf.toCoherent.pruneUpToLevel h, fun a id l hl => ?_, fun a v hv => ?_⟩
  · rw [label, hheap] at hl
    exact hf.label_mem a id l hl
  · rw [vertexAt, hheap] at hv
    exact hf.vertex_mem a v hv

/-! ## What is stored, and where -/

/-- The block can be looked up under its id. -/
def Stored (f : LevelledForest) (b : Block) : Prop := f.getVertex b.id = some b

section Stored

variable {U : Set Block} {f : LevelledForest} {b p : Block}

theorem Fits.mem_of_getVertex (hf : f.Fits U) {id : Identifier} (h : f.getVertex id = some b) :
    b ∈ U ∧ b.id = id := by
  obtain ⟨a, -, hv⟩ := getVertex_eq_some.mp h
  exact ⟨hf.vertex_mem a b hv, hf.toSound.id_of_getVertex h⟩

theorem Fits.stored_of_getVertex (hf : f.Fits U) {id : Identifier}
    (h : f.getVertex id = some b) : f.Stored b := by
  rw [Stored, (hf.mem_of_getVertex h).2, h]

/-- One container at a level: one block of the set, or genesis. -/
theorem Fits.atLevel_unique (hU : OnePerView U) (hf : f.Fits U) {l : UInt64} {a a' : ℕ}
    (ha : a ∈ f.atLevel l) (ha' : a' ∈ f.atLevel l) : a = a' := by
  obtain ⟨id, hlabel, hlookup⟩ := (hf.listed l a).mp ha
  obtain ⟨id', hlabel', hlookup'⟩ := (hf.listed l a').mp ha'
  have hid : id = id' := by
    rcases hf.label_mem a id l hlabel with ⟨c, hc, rfl, rfl⟩ | ⟨rfl, rfl⟩
    · rcases hf.label_mem a' id' _ hlabel' with ⟨c', hc', rfl, hl⟩ | ⟨rfl, hl⟩
      · rw [hU.eq_of_level hc' hc hl]
      · exact absurd (hU.treelike.one_le_level hc) (by rw [hl]; decide)
    · rcases hf.label_mem a' id' 0 hlabel' with ⟨c', hc', -, hl⟩ | ⟨rfl, -⟩
      · exact absurd (hU.treelike.one_le_level hc') (by rw [hl]; decide)
      · rfl
  rw [hid, hlookup'] at hlookup
  exact (Option.some.inj hlookup).symm

/-- A stored block is at its level, which is not below the lowest one. -/
theorem Fits.container_of_stored (hU : Treelike U) (hf : f.Fits U) (hb : f.Stored b) :
    ∃ a, a ∈ f.atLevel b.level ∧ f.vertexAt a = some b ∧ f.vertices.lookup b.id = some a ∧
      f.lowestLevel ≤ b.level := by
  obtain ⟨a, ha, hv⟩ := getVertex_eq_some.mp hb
  obtain ⟨c, hc, hid, hmem⟩ := hf.mem_atLevel ha
  have hbU := (hf.mem_of_getVertex hb).1
  have hlevel : c.level = b.level := by
    rcases hf.label_mem a c.id c.level (label_of_heap hc) with ⟨d, hd, hdid, hdl⟩ | ⟨hgen, -⟩
    · rw [← hdl, hU.ids d hd b hbU (hdid.trans hid)]
    · exact absurd (hid.symm.trans hgen) (hU.genesis b hbU)
  rw [hlevel] at hmem
  exact ⟨a, hmem, hv, ha, hf.lowest _ _ hmem⟩

/-- With one block for each view it is alone there. -/
theorem Fits.atLevel_of_stored (hU : OnePerView U) (hf : f.Fits U) (hb : f.Stored b) :
    ∃ a, f.atLevel b.level = [a] ∧ f.vertexAt a = some b ∧ f.vertices.lookup b.id = some a ∧
      f.lowestLevel ≤ b.level := by
  obtain ⟨a, hmem, hv, ha, hlow⟩ := hf.container_of_stored hU.treelike hb
  refine ⟨a, ?_, hv, ha, hlow⟩
  apply List.perm_singleton.mp
  refine (List.perm_ext_iff_of_nodup (hf.once _) (List.nodup_singleton a)).mpr fun x => ?_
  rw [List.mem_singleton]
  exact ⟨fun hx => hf.atLevel_unique hU hx hmem, fun hx => hx ▸ hmem⟩

/-- The stored parent is a block of the set of a smaller level. -/
theorem Fits.storedParent (hU : Treelike U) (hf : f.Fits U) (hb : b ∈ U)
    (h : BlockChain.StoredParent f b p) : p ∈ U ∧ p.id = b.prevID ∧ p.level < b.level := by
  obtain ⟨hp, hid⟩ := hf.mem_of_getVertex h
  exact ⟨hp, hid, (hU.parent_level hb hp hid).2⟩

/-- One walks from `b` to `x` by stored parents. -/
abbrev Joined (f : LevelledForest) (b x : Block) : Prop :=
  ReflTransGen (BlockChain.StoredParent f) b x

theorem joined_of_none {x : Block} (h : f.getVertex b.prevID = none) : f.Joined b x ↔ x = b := by
  rw [Joined, ReflTransGen.cases_head_iff]
  simp [BlockChain.StoredParent, h, eq_comm]

theorem joined_of_some {x : Block} (h : f.getVertex b.prevID = some p) :
    f.Joined b x ↔ x = b ∨ f.Joined p x := by
  rw [Joined, ReflTransGen.cases_head_iff]
  simp [BlockChain.StoredParent, h, eq_comm]

/-- The walk stays among stored blocks and goes down. -/
theorem Fits.joined (hU : Treelike U) (hf : f.Fits U) (hb : f.Stored b) {x : Block}
    (h : f.Joined b x) : f.Stored x ∧ (x = b ∨ x.level < b.level) := by
  induction h with
  | refl => exact ⟨hb, Or.inl rfl⟩
  | tail _ hstep ih =>
    have hlt := (hf.storedParent hU (hf.mem_of_getVertex ih.1).1 hstep).2.2
    refine ⟨hf.stored_of_getVertex hstep, Or.inr ?_⟩
    rcases ih.2 with heq | hlt'
    · rwa [heq] at hlt
    · exact UInt64.lt_trans hlt hlt'

/-- The walk does not come back. -/
theorem Fits.ne_of_joined_parent (hU : Treelike U) (hf : f.Fits U) (hb : f.Stored b)
    (hp : f.getVertex b.prevID = some p) {x : Block} (h : f.Joined p x) : x ≠ b := by
  have hlt := (hf.storedParent hU (hf.mem_of_getVertex hb).1 hp).2.2
  rintro rfl
  rcases (hf.joined hU (hf.stored_of_getVertex hp) h).2 with rfl | hlt'
  · exact UInt64.lt_irrefl _ hlt
  · exact UInt64.lt_asymm hlt hlt'

/-! ## The two walks of a commit -/

/-- A walk that goes down through a finite set of levels has fewer and fewer
levels below it. -/
theorem card_below_lt {s : Finset UInt64} {l m : UInt64} (hl : l ∈ s) (h : l < m) :
    (s.filter (· < l)).card < (s.filter (· < m)).card := by
  apply Finset.card_lt_card
  rw [Finset.ssubset_iff_of_subset]
  · exact ⟨l, Finset.mem_filter.mpr ⟨hl, h⟩, by simp⟩
  · intro x hx
    rw [Finset.mem_filter] at hx ⊢
    exact ⟨hx.1, UInt64.lt_trans hx.2 h⟩

/-- The walk of `CommitBlock` ends, and meets each stored ancestor above the
lowest level once. -/
theorem Fits.committedPath (hU : Treelike U) (hf : f.Fits U) {s : Finset UInt64}
    (hs : ∀ c, f.Stored c → c.level ∈ s) {fuel : ℕ} (hb : f.Stored b)
    (hfuel : (s.filter (· < b.level)).card < fuel) :
    ∃ path, BlockChain.committedPath f fuel b = .ok path ∧ path.Nodup ∧
      ∀ x, x ∈ path ↔ f.Joined b x ∧ f.lowestLevel < x.level := by
  induction fuel generalizing b with
  | zero => omega
  | succ fuel ih =>
    unfold BlockChain.committedPath
    by_cases hlow : f.lowestLevel < b.level
    · rw [if_pos hlow]
      cases hp : f.getVertex b.prevID with
      | none =>
        refine ⟨[b], rfl, List.nodup_singleton b, fun x => ?_⟩
        rw [joined_of_none hp, List.mem_singleton]
        exact ⟨fun h => ⟨h, h ▸ hlow⟩, fun h => h.1⟩
      | some p =>
        have hpb := hf.storedParent hU (hf.mem_of_getVertex hb).1 hp
        have hps := hf.stored_of_getVertex hp
        have hcard := card_below_lt (hs p hps) hpb.2.2
        obtain ⟨rest, hrest, hnodup, hmem⟩ := ih hps (by omega)
        refine ⟨b :: rest, by simp [hrest], List.nodup_cons.mpr ⟨fun hbr => ?_, hnodup⟩,
          fun x => ?_⟩
        · exact hf.ne_of_joined_parent hU hb hp ((hmem b).mp hbr).1 rfl
        · rw [List.mem_cons, hmem, joined_of_some hp]
          constructor
          · rintro (rfl | ⟨hj, hx⟩)
            · exact ⟨Or.inl rfl, hlow⟩
            · exact ⟨Or.inr hj, hx⟩
          · rintro ⟨hx | hj, hlt⟩
            · exact Or.inl hx
            · exact Or.inr ⟨hj, hlt⟩
    · rw [if_neg hlow]
      refine ⟨[], rfl, List.nodup_nil, fun x => ?_⟩
      simp only [List.not_mem_nil, false_iff, not_and]
      intro hj hx
      rcases (hf.joined hU hb hj).2 with rfl | hlt
      · exact hlow hx
      · exact hlow (UInt64.lt_trans hx hlt)

/-- The walk of `PruneUpToLevel` ends, and marks the levels of the stored
ancestors. -/
theorem Fits.committedLevels (hU : OnePerView U) (hf : f.Fits U) {s : Finset UInt64}
    (hs : ∀ c, f.Stored c → c.level ∈ s) {fuel : ℕ} (hb : f.Stored b)
    (hfuel : (s.filter (· < b.level)).card < fuel) :
    ∃ ls, f.committedLevels fuel b.level = .ok ls ∧
      ∀ l, l ∈ ls ↔ ∃ x, f.Joined b x ∧ x ≠ b ∧ x.level = l := by
  induction fuel generalizing b with
  | zero => omega
  | succ fuel ih =>
    obtain ⟨a, hat, hv, -, hlow⟩ := hf.atLevel_of_stored hU hb
    have hbU := (hf.mem_of_getVertex hb).1
    obtain ⟨qc, hqc, -⟩ := hU.parent b hbU
    -- the parent is looked up in any case, whether or not the loop goes on
    cases hp : f.getVertex b.prevID with
    | none =>
      refine ⟨[], ?_, fun l => ?_⟩
      · unfold LevelledForest.committedLevels
        split_ifs
        · rw [show (f.verticesAtLevel.lookup b.level).getD [] = [a] from hat]
          simp [hv, parent_eq hqc, bind, Except.bind, hp, pure, Except.pure]
        · rfl
      · simp only [List.not_mem_nil, false_iff, not_exists, not_and]
        exact fun x hj hne => absurd ((joined_of_none hp).mp hj) hne
    | some p =>
      have hpb := hf.storedParent hU.treelike hbU hp
      have hps := hf.stored_of_getVertex hp
      have hone : 1 < b.level := UInt64.lt_of_le_of_lt (hU.treelike.one_le_level hpb.1) hpb.2.2
      have hcard := card_below_lt (hs p hps) hpb.2.2
      obtain ⟨rest, hrest, hmem⟩ := ih hps (by omega)
      obtain ⟨-, -, -, -, hplow⟩ := hf.atLevel_of_stored hU hps
      refine ⟨p.level :: rest, ?_, fun l => ?_⟩
      · unfold LevelledForest.committedLevels
        rw [if_pos ⟨hlow, hone⟩, show (f.verticesAtLevel.lookup b.level).getD [] = [a] from hat]
        simp [hv, parent_eq hqc, bind, Except.bind, hp, UInt64.not_lt.mpr hplow, hrest, pure,
          Except.pure]
      · rw [List.mem_cons, hmem]
        constructor
        · have hbeyond : ∀ x, f.Joined p x → f.Joined b x ∧ x ≠ b := fun x hj =>
            ⟨(joined_of_some hp).mpr (Or.inr hj), hf.ne_of_joined_parent hU.treelike hb hp hj⟩
          rintro (rfl | ⟨x, hj, -, rfl⟩)
          · exact ⟨p, (hbeyond p .refl).1, (hbeyond p .refl).2, rfl⟩
          · exact ⟨x, (hbeyond x hj).1, (hbeyond x hj).2, rfl⟩
        · rintro ⟨x, hj, hne, rfl⟩
          have hj' := ((joined_of_some hp).mp hj).resolve_left hne
          by_cases hxp : x = p
          · exact Or.inl (by rw [hxp])
          · exact Or.inr ⟨x, hj', hxp, rfl⟩

/-- There are no more stored levels than ids, and none without an entry. -/
theorem Fits.stored_level_mem (hU : Treelike U) (hf : f.Fits U) :
    (∃ s : Finset UInt64, s.card ≤ f.vertices.entries.length ∧ ∀ c, f.Stored c → c.level ∈ s) ∧
    ∃ s : Finset UInt64, s.card ≤ f.verticesAtLevel.entries.length ∧
      ∀ c, f.Stored c → c.level ∈ s := by
  constructor
  · refine ⟨f.vertices.keys.toFinset.image fun id => ((f.getVertex id).map Block.level).getD 0,
      ?_, fun c hc => ?_⟩
    · refine Finset.card_image_le.trans ((List.toFinset_card_le _).trans ?_)
      simp [AList.keys, List.keys]
    · obtain ⟨a, ha, -⟩ := getVertex_eq_some.mp hc
      refine Finset.mem_image.mpr ⟨c.id, ?_, by rw [show f.getVertex c.id = some c from hc]; rfl⟩
      rw [List.mem_toFinset, ← AList.mem_keys, ← AList.lookup_isSome, ha]
      rfl
  · refine ⟨f.verticesAtLevel.keys.toFinset, ?_, fun c hc => ?_⟩
    · refine (List.toFinset_card_le _).trans ?_
      simp [AList.keys, List.keys]
    · obtain ⟨a, hmem, -⟩ := hf.container_of_stored hU hc
      rw [List.mem_toFinset, ← AList.mem_keys, ← AList.lookup_isSome]
      cases hl : f.verticesAtLevel.lookup c.level with
      | none => simp [atLevel, hl] at hmem
      | some as => rfl

/-- A vertex is listed under its own level. -/
theorem Fits.stored_of_listed (hU : Treelike U) (hf : f.Fits U) {l : UInt64} {a : ℕ} {x : Block}
    (ha : a ∈ f.atLevel l) (hv : f.vertexAt a = some x) : f.Stored x ∧ x.level = l := by
  obtain ⟨id, hlabel, hlookup⟩ := (hf.listed l a).mp ha
  have hget := getVertex_eq_some.mpr ⟨a, hlookup, hv⟩
  have hx := hf.stored_of_getVertex hget
  obtain ⟨a', hmem, -, hlookup', -⟩ := hf.container_of_stored hU hx
  rw [(hf.mem_of_getVertex hget).2, hlookup] at hlookup'
  cases hlookup'
  obtain ⟨id', hlabel', -⟩ := (hf.listed x.level a).mp hmem
  rw [hlabel] at hlabel'
  cases hlabel'
  exact ⟨hx, rfl⟩

theorem Fits.mem_forkedAt (hU : Treelike U) (hf : f.Fits U) {committed : List UInt64}
    {l : UInt64} {x : Block} :
    x ∈ f.forkedAt committed l ↔ f.Stored x ∧ x.level = l ∧ l ∉ committed ∧ 1 < l := by
  unfold forkedAt
  split_ifs with h
  · rw [List.mem_filterMap]
    constructor
    · rintro ⟨a, ha, hv⟩
      obtain ⟨hx, hlevel⟩ := hf.stored_of_listed hU ha hv
      exact ⟨hx, hlevel, h⟩
    · rintro ⟨hx, rfl, -⟩
      obtain ⟨a, hmem, hv, -⟩ := hf.container_of_stored hU hx
      exact ⟨a, hmem, hv⟩
  · simp only [List.not_mem_nil, false_iff, not_and]
    intro _ _ hc ho
    exact h ⟨hc, ho⟩

theorem Fits.nodup_forkedAt (hU : OnePerView U) (hf : f.Fits U) (committed : List UInt64)
    (l : UInt64) : (f.forkedAt committed l).Nodup := by
  have hlen : (f.forkedAt committed l).length ≤ 1 := by
    unfold forkedAt
    split_ifs
    · refine (List.length_filterMap_le _ _).trans ?_
      by_contra hlong
      rw [not_le] at hlong
      have hne := List.pairwise_iff_getElem.mp (hf.once l) 0 1 (by omega) hlong (by omega)
      exact hne (hf.atLevel_unique hU (List.getElem_mem _) (List.getElem_mem _))
    · simp
  cases hf : f.forkedAt committed l with
  | nil => exact List.nodup_nil
  | cons x xs =>
    cases xs with
    | nil => exact List.nodup_singleton x
    | cons y ys => simp [hf] at hlen

end Stored

/-- What a commit of the stored block `b` reports and leaves. -/
structure Commits (f : LevelledForest) (b : Block) (committed forked : List Block)
    (f' : LevelledForest) : Prop where
  committed_iff : ∀ x, x ∈ committed ↔ f.Joined b x ∧ f.lowestLevel < x.level
  committed_nodup : committed.Nodup
  forked_iff : ∀ x, x ∈ forked ↔
    f.Stored x ∧ 1 < x.level ∧ x.level < b.level ∧ ¬ f.Joined b x
  forked_nodup : forked.Nodup
  heap : f'.heap = f.heap
  lowestLevel : f'.lowestLevel = b.level
  vertices : ∀ id a, f'.vertices.lookup id = some a ↔
    f.vertices.lookup id = some a ∧ ∃ c, f.heap[a]? = some c ∧ b.level ≤ c.level
  atLevel : ∀ l, f'.atLevel l = if b.level ≤ l then f.atLevel l else []

/-- A level below is marked exactly if its block is an ancestor. -/
theorem Fits.marked_iff {U : Set Block} (hU : OnePerView U) {f : LevelledForest} (hf : f.Fits U)
    {b x : Block} (hb : f.Stored b) (hx : f.Stored x) (hlt : x.level < b.level) :
    (∃ y, f.Joined b y ∧ y ≠ b ∧ y.level = x.level) ↔ f.Joined b x := by
  constructor
  · rintro ⟨y, hj, -, hl⟩
    have hyU := (hf.mem_of_getVertex (hf.joined hU.treelike hb hj).1).1
    rwa [← hU.eq_of_level hyU (hf.mem_of_getVertex hx).1 hl]
  · intro hj
    refine ⟨x, hj, ?_, rfl⟩
    rintro rfl
    exact UInt64.lt_irrefl _ hlt

theorem Fits.nodup_forked {U : Set Block} (hU : OnePerView U) {f : LevelledForest}
    (hf : f.Fits U) (committed : List UInt64) (level : UInt64) :
    ((f.levelsBelow level).flatMap (f.forkedAt committed)).Nodup := by
  rw [List.nodup_flatMap]
  refine ⟨fun l _ => hf.nodup_forkedAt hU committed l, ?_⟩
  refine (f.nodup_levelsBelow level).imp fun hne => ?_
  intro x hx hx'
  exact hne (((hf.mem_forkedAt hU.treelike).mp hx).2.1.symm.trans
    ((hf.mem_forkedAt hU.treelike).mp hx').2.1)

/-- A container is listed at its own level only. -/
theorem Coherent.exists_atLevel_iff {f : LevelledForest} (hf : f.Coherent) {id : Identifier}
    {i : ℕ} (hi : f.vertices.lookup id = some i) (level : UInt64) :
    (∃ l, i ∈ f.atLevel l ∧ level ≤ l) ↔ ∃ c, f.heap[i]? = some c ∧ level ≤ c.level := by
  obtain ⟨c, hc, -, hmem⟩ := hf.mem_atLevel hi
  constructor
  · rintro ⟨l, hl, hle⟩
    obtain ⟨_, hlabel, -⟩ := (hf.listed l i).mp hl
    rw [label_of_heap hc] at hlabel
    cases hlabel
    exact ⟨c, hc, hle⟩
  · rintro ⟨c', hc', hle⟩
    rw [hc] at hc'
    cases hc'
    exact ⟨c.level, hmem, hle⟩

/-- Pruning up to a stored block returns, and tells the forked blocks apart from
the ancestors of the block. -/
theorem Fits.prune {U : Set Block} (hU : OnePerView U) {f : LevelledForest} (hf : f.Fits U)
    {b : Block} (hb : f.Stored b) {committed : List Block}
    (hmem : ∀ x, x ∈ committed ↔ f.Joined b x ∧ f.lowestLevel < x.level)
    (hnodup : committed.Nodup) :
    ∃ forked prunedNo f', f.pruneUpToLevel b.level = .ok (.ok (forked, prunedNo), f') ∧
      Commits f b committed forked f' ∧ f'.Fits U := by
  obtain ⟨-, s, hcard, hs⟩ := hf.stored_level_mem hU.treelike
  obtain ⟨a, hat, hv, ha, hlow⟩ := hf.atLevel_of_stored hU hb
  have hfuel : (s.filter (· < b.level)).card < f.verticesAtLevel.entries.length + 1 :=
    Nat.lt_succ_of_le ((Finset.card_filter_le _ _).trans hcard)
  obtain ⟨ls, hls, hmemls⟩ := hf.committedLevels hU hs hb hfuel
  have hnot : ¬ b.level < f.lowestLevel := UInt64.not_lt.mpr hlow
  obtain ⟨r, f', hprune⟩ : ∃ r f', f.pruneUpToLevel b.level = .ok (.ok r, f') :=
    ⟨_, _, by simp only [LevelledForest.pruneUpToLevel, hnot, ↓reduceIte, hls]; rfl⟩
  rcases pruneUpToLevel_ok hf.toCoherent hprune with ⟨hlt, -⟩ | ⟨-, ls', p, hls', hp, hr, hf'⟩
  · exact absurd hlt hnot
  rw [hls] at hls'
  cases hls'
  cases hr
  obtain ⟨hvertices, hlevels⟩ := hp.retained hf.toCoherent
  refine ⟨_, _, f', hprune, ?_, hf.pruneUpToLevel hprune⟩
  subst hf'
  refine ⟨hmem, hnodup, fun x => ?_, ?_, hp.heap, rfl, fun id i => ?_, hlevels⟩
  · rw [hp.forked, List.mem_flatMap]
    constructor
    · rintro ⟨l, hl, hx⟩
      obtain ⟨hstored, rfl, hnm, hone⟩ := (hf.mem_forkedAt hU.treelike).mp hx
      have hlt := (mem_levelsBelow.mp hl).2
      rw [hmemls, hf.marked_iff hU hb hstored hlt] at hnm
      exact ⟨hstored, hone, hlt, hnm⟩
    · rintro ⟨hx, hone, hlt, hj⟩
      obtain ⟨-, -, -, -, hxlow⟩ := hf.atLevel_of_stored hU hx
      rw [← hf.marked_iff hU hb hx hlt, ← hmemls] at hj
      exact ⟨x.level, mem_levelsBelow.mpr ⟨hxlow, hlt⟩,
        (hf.mem_forkedAt hU.treelike).mpr ⟨hx, rfl, hj, hone⟩⟩
  · rw [hp.forked]
    exact hf.nodup_forked hU ls b.level
  · show p.forest.vertices.lookup id = some i ↔ _
    rw [hvertices]
    exact and_congr_right fun hi => hf.exists_atLevel_iff hi b.level

end LevelledForest

namespace BlockChain

/-- A commit of a stored block returns. -/
theorem commitBlock_commits {U : Set Block} (hU : OnePerView U) {bc : BlockChain}
    (hf : bc.forrest.Fits U) {id : Identifier} {b : Block}
    (hb : bc.forrest.getVertex id = some b) (view : View) :
    ∃ committed forked bc', bc.commitBlock id view = .ok (.ok (committed, forked), bc') ∧
      LevelledForest.Commits bc.forrest b committed forked bc'.forrest ∧
      bc'.forrest.Fits U := by
  have hstored := hf.stored_of_getVertex hb
  obtain ⟨⟨s, hcard, hs⟩, -⟩ := hf.stored_level_mem hU.treelike
  have hfuel : (s.filter (· < b.level)).card < bc.forrest.vertices.entries.length + 1 :=
    Nat.lt_succ_of_le ((Finset.card_filter_le _ _).trans hcard)
  obtain ⟨path, hpath, hnodup, hmem⟩ := hf.committedPath hU.treelike hs hstored hfuel
  obtain ⟨forked, prunedNo, f', hprune, hcommits, hfits⟩ := hf.prune hU hstored hmem hnodup
  have hforest : (path.foldl (countCommitted view)
      { bc with highestComitted := b.view }).forrest = bc.forrest :=
    countCommitted_forrest view { bc with highestComitted := b.view } path
  refine ⟨path, forked, { path.foldl (countCommitted view) { bc with highestComitted := b.view }
    with forrest := f', prunedBlockNo := (path.foldl (countCommitted view)
      { bc with highestComitted := b.view }).prunedBlockNo + prunedNo }, ?_, hcommits, hfits⟩
  simp only [commitBlock, hb, hpath, bind, Except.bind]
  rw [hforest, hprune]
  rfl

theorem commitBlock_missing {bc : BlockChain} {id : Identifier}
    (h : bc.forrest.getVertex id = none) (view : View) :
    bc.commitBlock id view = .ok (.error (.cannotFind id), bc) := by
  simp [commitBlock, h]

end BlockChain

/-! ## Runs -/

inductive ChainCall
  | addBlock (b : Block)
  | commitBlock (id : Identifier) (view : View)
  deriving DecidableEq, Repr

def ChainCall.added : ChainCall → Option Block
  | .addBlock b => some b
  | .commitBlock _ _ => none

/-- A commit that succeeded: the block committed and the two lists returned. -/
structure Commit where
  head : Block
  committed : List Block
  forked : List Block
  deriving DecidableEq, Repr

/-- A block chain and the commits made on it, newest first. -/
structure Session where
  chain : BlockChain
  commits : List Commit

namespace Session

def new (n : ℕ) : Session := ⟨BlockChain.new n, []⟩

def call (s : Session) : ChainCall → Except Fault Session
  | .addBlock b => do return { s with chain := ← s.chain.addBlock b }
  | .commitBlock id view => do
    let (r, bc) ← s.chain.commitBlock id view
    match r, s.chain.forrest.getVertex id with
    | .ok (committed, forked), some head => return ⟨bc, ⟨head, committed, forked⟩ :: s.commits⟩
    | _, _ => return { s with chain := bc }

def run (s : Session) : List ChainCall → Except Fault Session
  | [] => .ok s
  | c :: calls => do (← s.call c).run calls

/-- All blocks returned as committed, over all commits. -/
def committed (s : Session) : List Block := s.commits.flatMap Commit.committed

/-- All blocks returned as forked. -/
def forked (s : Session) : List Block := s.commits.flatMap Commit.forked

theorem run_concat (s : Session) (calls : List ChainCall) (c : ChainCall) :
    s.run (calls ++ [c]) = (s.run calls).bind fun s' => s'.call c := by
  induction calls generalizing s with
  | nil => cases h : s.call c <;> simp [run, bind, Except.bind, h]
  | cons c' calls ih =>
    cases h : s.call c' with
    | error e => simp [run, bind, Except.bind, h]
    | ok s' => simpa [run, bind, Except.bind, h] using ih s'

variable {U : Set Block} {s : Session}

/-- What one call on blocks of the set can do. -/
inductive Step (U : Set Block) (s : Session) : ChainCall → Session → Prop
  | addBlock {b : Block} {f' : LevelledForest} (mem : b ∈ U)
      (lowestLevel : f'.lowestLevel = s.chain.forrest.lowestLevel)
      (kept : ∀ x, s.chain.forrest.Stored x → f'.Stored x)
      (new : ∀ x, f'.Stored x → s.chain.forrest.Stored x ∨
        x = b ∧ s.chain.forrest.lowestLevel ≤ b.level) :
      Step U s (.addBlock b) { s with chain := { s.chain with forrest := f' } }
  | missing {id : Identifier} {view : View} (none : s.chain.forrest.getVertex id = none) :
      Step U s (.commitBlock id view) s
  | commit {id : Identifier} {view : View} {b : Block} {committed forked : List Block}
      {bc : BlockChain} (found : s.chain.forrest.getVertex id = some b)
      (returned : s.chain.commitBlock id view = .ok (.ok (committed, forked), bc))
      (commits : LevelledForest.Commits s.chain.forrest b committed forked bc.forrest) :
      Step U s (.commitBlock id view) ⟨bc, ⟨b, committed, forked⟩ :: s.commits⟩

/-- Every call returns. -/
theorem call_step (hU : OnePerView U) (hf : s.chain.forrest.Fits U) {c : ChainCall}
    (hc : ∀ b, c = .addBlock b → b ∈ U) :
    ∃ s', s.call c = .ok s' ∧ Step U s c s' ∧ s'.chain.forrest.Fits U := by
  cases c with
  | addBlock b =>
    obtain ⟨f', hadd, hfits⟩ := hf.addVertex hU.treelike (hc b rfl)
    obtain ⟨-, hlow, hget⟩ := LevelledForest.addVertex_spec hf.toSound hadd
    refine ⟨{ s with chain := { s.chain with forrest := f' } }, ?_,
      .addBlock (hc b rfl) hlow (fun x hx => ?_) (fun x hx => ?_), hfits⟩
    · simp [call, BlockChain.addBlock, hadd, bind, Except.bind, pure, Except.pure]
    · rw [LevelledForest.Stored] at hx ⊢
      rw [hget, if_neg, hx]
      rintro ⟨-, -, hnone⟩
      rw [hx] at hnone
      cases hnone
    · rw [LevelledForest.Stored, hget] at hx
      split_ifs at hx with h
      · exact Or.inr ⟨(Option.some.inj hx).symm, UInt64.not_lt.mp h.2.1⟩
      · exact Or.inl hx
  | commitBlock id view =>
    cases hb : s.chain.forrest.getVertex id with
    | none =>
      refine ⟨s, ?_, .missing hb, hf⟩
      simp [call, BlockChain.commitBlock_missing hb, bind, Except.bind, pure, Except.pure]
    | some b =>
      obtain ⟨committed, forked, bc, hc, hcommits, hfits⟩ :=
        BlockChain.commitBlock_commits hU hf hb view
      refine ⟨⟨bc, ⟨b, committed, forked⟩ :: s.commits⟩, ?_, .commit hb hc hcommits, hfits⟩
      simp [call, hc, hb, bind, Except.bind, pure, Except.pure]

/-- A run on blocks of the set returns, and has whatever every call preserves. -/
theorem run_invariant (hU : OnePerView U) (n : ℕ) {J : List ChainCall → Session → Prop}
    (hnew : J [] (new n))
    (hstep : ∀ past s c s', (new n).run past = .ok s → (new n).run (past ++ [c]) = .ok s' →
      s.chain.forrest.Fits U → Step U s c s' → J past s → J (past ++ [c]) s')
    {calls : List ChainCall} (hcalls : ∀ b, .addBlock b ∈ calls → b ∈ U) :
    ∃ s, (new n).run calls = .ok s ∧ s.chain.forrest.Fits U ∧ J calls s := by
  induction calls using List.reverseRecOn with
  | nil => exact ⟨new n, rfl, LevelledForest.fits_new U, hnew⟩
  | append_singleton calls c ih =>
    obtain ⟨s, hrun, hf, hJ⟩ := ih fun b hb => hcalls b (List.mem_append_left [c] hb)
    have hc : ∀ b, c = .addBlock b → b ∈ U := fun b hb =>
      hcalls b (List.mem_append_right calls (List.mem_singleton.mpr hb.symm))
    obtain ⟨s', hcall, hs', hf'⟩ := call_step hU hf hc
    have hrun' : (new n).run (calls ++ [c]) = .ok s' := by
      rw [run_concat, hrun]
      exact hcall
    exact ⟨s', hrun', hf', hstep calls s c s' hrun hrun' hf hs' hJ⟩

/-- What has been committed is not above the lowest level any more. -/
structure Settled (s : Session) : Prop where
  le_lowest : ∀ x ∈ s.committed, x.level ≤ s.chain.forrest.lowestLevel
  nodup : s.committed.Nodup

theorem Settled.step (hU : OnePerView U) (hf : s.chain.forrest.Fits U) (h : s.Settled)
    {c : ChainCall} {s' : Session} (hs : Step U s c s') : s'.Settled := by
  cases hs with
  | addBlock mem hlow => exact ⟨fun x hx => by simpa only [hlow] using h.le_lowest x hx, h.nodup⟩
  | missing => exact h
  | @commit id view b committed forked bc hb _ hc =>
    have hstored := hf.stored_of_getVertex hb
    have hlow : s.chain.forrest.lowestLevel ≤ b.level := by
      obtain ⟨-, -, -, -, hle⟩ := hf.atLevel_of_stored hU hstored
      exact hle
    constructor
    · intro x hx
      simp only [hc.lowestLevel]
      simp only [Session.committed, List.flatMap_cons, List.mem_append] at hx
      rcases hx with hx | hx
      · rcases (hf.joined hU.treelike hstored ((hc.committed_iff x).mp hx).1).2 with rfl | hlt
        · exact UInt64.le_refl _
        · exact UInt64.le_of_lt hlt
      · exact UInt64.le_trans (h.le_lowest x hx) hlow
    · simp only [Session.committed, List.flatMap_cons]
      refine hc.committed_nodup.append h.nodup fun x hx hx' => ?_
      exact UInt64.not_lt.mpr (h.le_lowest x hx') ((hc.committed_iff x).mp hx).2

end Session

/-! ## What a commit delivers -/

/-- The longest walk by parent ids from `id` through stored blocks above the
lowest level, newest first. -/
structure LevelledForest.MaximalPath (f : LevelledForest) (id : Identifier) (path : List Block) :
    Prop where
  start : path.head? = (f.getVertex id).filter (f.lowestLevel < ·.level)
  step : path.IsChain (BlockChain.StoredParent f)
  above : ∀ x ∈ path, f.Stored x ∧ f.lowestLevel < x.level
  maximal : ∀ x ∈ path.getLast?, ∀ p, BlockChain.StoredParent f x p → ¬ f.lowestLevel < p.level

theorem committedPath_starts {f : LevelledForest} {fuel : ℕ} {b : Block} {path : List Block}
    (h : BlockChain.committedPath f fuel b = .ok path) :
    path.head? = (some b).filter (f.lowestLevel < ·.level) := by
  cases fuel with
  | zero => cases h
  | succ fuel =>
    rcases BlockChain.committedPath_ok h with ⟨hlow, rfl⟩ | ⟨hlow, rest, rfl, -⟩
    · simp [Option.filter, hlow]
    · simp [Option.filter, hlow]

/-- The walk stops only where there is no further stored block above. -/
theorem committedPath_ends {f : LevelledForest} {fuel : ℕ} {b : Block} {path : List Block}
    (h : BlockChain.committedPath f fuel b = .ok path) {x p : Block} (hx : path.getLast? = some x)
    (hp : BlockChain.StoredParent f x p) : ¬ f.lowestLevel < p.level := by
  induction fuel generalizing b path with
  | zero => cases h
  | succ fuel ih =>
    rcases BlockChain.committedPath_ok h with
      ⟨-, rfl⟩ | ⟨-, rest, rfl, ⟨hnone, rfl⟩ | ⟨q, hq, hrest⟩⟩
    · cases hx
    · obtain rfl : b = x := by simpa using hx
      rw [BlockChain.StoredParent, hnone] at hp
      cases hp
    · cases rest with
      | nil =>
        obtain rfl : b = x := by simpa using hx
        rw [BlockChain.StoredParent, hq] at hp
        cases hp
        have hhead := committedPath_starts hrest
        simpa [Option.filter] using hhead
      | cons y rest =>
        exact ih hrest (by simpa using hx)

/-- Whatever blocks of a well-formed set are stored in whatever order, and
whatever ids are committed in between, every call returns and no block is
delivered twice. The next commit delivers the maximal path from its block and
keeps exactly the containers at the block's view or above, unchanged. -/
theorem commit_runs {U : Set Block} (hU : OnePerView U) (n : ℕ) {calls : List ChainCall}
    (hcalls : ∀ b, .addBlock b ∈ calls → b ∈ U) :
    ∃ s, (Session.new n).run calls = .ok s ∧ s.committed.Nodup ∧
      ∀ id view committed forked bc,
        s.chain.commitBlock id view = .ok (.ok (committed, forked), bc) →
        s.chain.forrest.MaximalPath id committed ∧
        ∃ b, s.chain.forrest.getVertex id = some b ∧ bc.forrest.lowestLevel = b.level ∧
          bc.forrest.heap = s.chain.forrest.heap ∧
          (∀ i a, bc.forrest.vertices.lookup i = some a ↔
            s.chain.forrest.vertices.lookup i = some a ∧
              ∃ c, s.chain.forrest.heap[a]? = some c ∧ b.level ≤ c.level) ∧
          ∀ l, bc.forrest.atLevel l = if b.level ≤ l then s.chain.forrest.atLevel l else [] := by
  have hnew : (Session.new n).Settled :=
    ⟨fun x hx => by simp [Session.new, Session.committed] at hx, List.nodup_nil⟩
  obtain ⟨s, hrun, hf, hsettled⟩ := Session.run_invariant hU n (J := fun _ s => s.Settled) hnew
    (fun _ _ _ _ _ _ hf hs hJ => hJ.step hU hf hs) hcalls
  refine ⟨s, hrun, hsettled.nodup, fun id view committed forked bc hc => ?_⟩
  obtain ⟨b, hb, hpath⟩ := BlockChain.commitBlock_path hc
  obtain ⟨committed', forked', bc', hc', hcommits, -⟩ :=
    BlockChain.commitBlock_commits hU hf hb view
  rw [hc] at hc'
  cases hc'
  refine ⟨⟨?_, ?_, fun x hx => ?_, fun x hx p hp => ?_⟩, b, hb, hcommits.lowestLevel,
    hcommits.heap, hcommits.vertices, hcommits.atLevel⟩
  · rw [hb]
    exact committedPath_starts hpath
  · rcases BlockChain.committedPath_isChain hpath with rfl | ⟨rest, rfl, hchain⟩
    · exact List.isChain_nil
    · exact hchain
  · have hx := (hcommits.committed_iff x).mp hx
    exact ⟨(hf.joined hU.treelike (hf.stored_of_getVertex hb) hx.1).1, hx.2⟩
  · exact committedPath_ends hpath hx hp

/-- The blocks that are added by calls. -/
def addedBlocks (calls : List ChainCall) : Set Block :=
  {b | b ∈ calls.filterMap ChainCall.added}

theorem mem_addedBlocks {calls : List ChainCall} {b : Block} (h : .addBlock b ∈ calls) :
    b ∈ addedBlocks calls :=
  List.mem_filterMap.mpr ⟨.addBlock b, h, rfl⟩

/-- An orphan, a fork, a commit of a missing block and two commits. -/
def orphanAndFork : List ChainCall :=
  [.addBlock (.onView 3 2), .addBlock (.onView 1 0), .commitBlock 2 4, .addBlock (.onView 2 1),
    .addBlock (.onView 4 2), .commitBlock 3 5, .addBlock (.onView 5 3), .commitBlock 5 7]

theorem commit_runs_fork : ∃ s, (Session.new 4).run orphanAndFork = .ok s ∧
    s.committed = [.onView 5 3, .onView 3 2, .onView 2 1, .onView 1 0] ∧ s.committed.Nodup := by
  have hU : OnePerView (addedBlocks orphanAndFork) := onePerView_of_list (by decide)
  obtain ⟨s, hrun, hnodup, -⟩ := commit_runs hU 4 fun _ => mem_addedBlocks
  have heval : Except.map Session.committed (Except.ok s : Except Fault Session) =
      .ok [.onView 5 3, .onView 3 2, .onView 2 1, .onView 1 0] := by
    rw [← hrun]
    decide +kernel
  exact ⟨s, hrun, Except.ok.inj heval, hnodup⟩

end Bamboo
