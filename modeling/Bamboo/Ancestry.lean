import Bamboo.History
import Bamboo.Library.Chains
import Bamboo.Network

/-!
# Ancestors along `PrevID`

The blocks of a network are linked by their ids: a block that some node took up
or proposed leads from its own id to the one it names as its parent. What a
commit delivers lies on the links down from its head.
-/
namespace Bamboo

open Relation Stepwise

namespace World

/-- An event in the history of one of the `N` nodes. -/
def Did (env : Env) (w : World) (i : ℕ) (e : Event) : Prop :=
  (1 ≤ i ∧ i ≤ env.n) ∧ e ∈ (w.nodes i).trace

/-- The histories of the `N` nodes, one after the other. -/
def events (env : Env) (w : World) : List Event :=
  (List.range' 1 env.n).flatMap fun i => (w.nodes i).trace

theorem mem_events {env : Env} {w : World} {e : Event} :
    e ∈ w.events env ↔ ∃ i, w.Did env i e := by
  simp only [events, List.mem_flatMap, List.mem_range'_1, Did]
  constructor
  · rintro ⟨i, ⟨hlo, hhi⟩, he⟩
    exact ⟨i, ⟨hlo, by omega⟩, he⟩
  · rintro ⟨i, ⟨hlo, hhi⟩, he⟩
    exact ⟨i, ⟨hlo, by omega⟩, he⟩

/-- A block that some node took up or proposed. -/
def Seen (env : Env) (w : World) (b : Block) : Prop :=
  ∃ e ∈ w.events env, b ∈ e.handled ∨ b ∈ e.proposed

/-- The link from a block's id to its parent's. -/
def Linked (env : Env) (w : World) (d p : Identifier) : Prop :=
  ∃ b, w.Seen env b ∧ b.id = d ∧ b.prevID = p

/-- One of the blocks is an ancestor of the other along `PrevID`, or they are the same. -/
def OneChain (env : Env) (w : World) (a b : Block) : Prop :=
  Chains.OneChain (w.Linked env) a.id b.id

/-- With a block's id the list contains the id of its parent. -/
def ParentClosed (env : Env) (w : World) (ids : List Identifier) : Prop :=
  ∀ e ∈ w.events env, (∀ c ∈ e.handled, c.id ∈ ids → c.prevID ∈ ids) ∧
    ∀ c ∈ e.proposed, c.id ∈ ids → c.prevID ∈ ids

instance (env : Env) (w : World) (ids : List Identifier) : Decidable (w.ParentClosed env ids) :=
  inferInstanceAs (Decidable (∀ e ∈ w.events env, _ ∧ _))

theorem ParentClosed.not_ancestor {env : Env} {w : World} {ids : List Identifier}
    (h : w.ParentClosed env ids) {a b : Identifier} (ha : a ∈ ids) (hb : b ∉ ids) :
    ¬ ReflTransGen (w.Linked env) a b := by
  intro hanc
  have hlink : ∀ x y, w.Linked env x y → x ∈ ids → y ∈ ids := by
    rintro x y ⟨c, ⟨e, he, hc | hc⟩, rfl, rfl⟩ hx
    · exact (h e he).1 c hc hx
    · exact (h e he).2 c hc hx
  exact hb (Chains.ancestor_mem hlink hanc ha)

/-- Blocks that are separated by two such lists are not on one chain. -/
theorem not_oneChain {env : Env} {w : World} {ids ids' : List Identifier} {a b : Block}
    (h : w.ParentClosed env ids) (h' : w.ParentClosed env ids') (ha : a.id ∈ ids ∧ a.id ∉ ids')
    (hb : b.id ∈ ids' ∧ b.id ∉ ids) : ¬ w.OneChain env a b := by
  rintro (hanc | hanc)
  · exact h.not_ancestor ha.1 hb.2 hanc
  · exact h'.not_ancestor hb.1 ha.2 hanc

end World

/-- The blocks on the walk from a stored block are its ancestors. -/
theorem walk_ancestors {f : LevelledForest} (hf : f.Sound) {link : Identifier → Identifier → Prop}
    (hlink : ∀ d b, f.getVertex d = some b → link b.id b.prevID) {rest : List Block} {block : Block}
    {d : Identifier} (hstored : f.getVertex d = some block)
    (hchain : (block :: rest).IsChain (BlockChain.StoredParent f)) :
    ∀ x ∈ block :: rest, ReflTransGen link block.id x.id := by
  induction rest generalizing block d with
  | nil =>
    intro x hx
    obtain rfl := List.mem_singleton.mp hx
    exact .refl
  | cons p rest ih =>
    obtain ⟨hp, hrest⟩ := List.isChain_cons_cons.mp hchain
    have hstep : link block.id p.id := by
      rw [hf.id_of_getVertex hp]
      exact hlink d block hstored
    intro x hx
    rcases List.mem_cons.mp hx with rfl | hx
    · exact .refl
    · exact ReflTransGen.head hstep (ih hp hrest x hx)

/-- What `CommitBlock` returns are ancestors of the block it was called with. -/
theorem commitBlock_ancestors {bc bc' : BlockChain} (hf : bc.forrest.Sound)
    {link : Identifier → Identifier → Prop}
    (hlink : ∀ d b, bc.forrest.getVertex d = some b → link b.id b.prevID) {id : Identifier}
    {view : View} {committed forked : List Block}
    (h : bc.commitBlock id view = .ok (.ok (committed, forked), bc')) :
    ∀ x ∈ committed, ReflTransGen link id x.id := by
  obtain ⟨block, hblock, hpath⟩ := BlockChain.commitBlock_path h
  obtain rfl := hf.id_of_getVertex hblock
  intro x hx
  rcases BlockChain.committedPath_isChain hpath with rfl | ⟨rest, rfl, hchain⟩
  · cases hx
  · exact walk_ancestors hf hlink hblock hchain x hx

/-- What a node has stored at some time was seen. -/
theorem World.seen_of_stored {env : Env} {alg : Algorithm} {K : Known} {id : NodeID} {w : World}
    {i : ℕ} (hi : 1 ≤ i ∧ i ≤ env.n) {s : Replica} (hs : Reachable env alg K id s)
    (hsuffix : s.trace <:+ (w.nodes i).trace) {d : Identifier} {b : Block}
    (hb : s.bc.forrest.getVertex d = some b) : w.Seen env b := by
  obtain ⟨core, hhandle⟩ := hs.stocked d b hb
  exact ⟨_, mem_events.mpr ⟨i, hi, hsuffix.subset hhandle⟩, Or.inl rfl⟩

/-- The delivered blocks of a node are ancestors of the heads it committed. -/
theorem World.delivered_ancestor {env : Env} {alg : Algorithm} {K : Known} {w : World} {i : ℕ}
    (hi : 1 ≤ i ∧ i ≤ env.n) (h : Reachable env alg K (newNodeID i) (w.nodes i)) {x : Block}
    (hx : x ∈ (w.nodes i).committedBlocks) :
    ∃ core qc head committed, w.Did env i (.commit core qc head committed) ∧
      ReflTransGen (w.Linked env) head.id x.id := by
  obtain ⟨e, he, hmem⟩ := List.mem_flatMap.mp ((h.delivered x).mp hx)
  cases e with
  | commit core qc head committed =>
    obtain ⟨s, recent, hreach, hsplit, -, -, forked, bc, hdone⟩ := h.mem he
    refine ⟨core, qc, head, committed, ⟨hi, he⟩, ?_⟩
    have hlink : ∀ d b, s.bc.forrest.getVertex d = some b → w.Linked env b.id b.prevID :=
      fun d b hb => ⟨b, seen_of_stored hi hreach (suffix_of_split hsplit) hb, rfl, rfl⟩
    exact commitBlock_ancestors hreach.steady.sound hlink hdone x hmem
  | _ => cases hmem

end Bamboo
