import Bamboo.Ancestry
import Bamboo.Certificates

/-!
# Honest networks

In an honest network all that a node can be given was recorded by some node
before. So each node goes through the transitions of a replica whose environment
knows what the whole network has recorded in the end.
-/
namespace Bamboo

open Relation Stepwise

namespace World

variable {env : Env} {alg : Algorithm}

/-- The certificate every replica starts with, or one that some node built. -/
def Backed (env : Env) (w : World) (q : QC) : Prop :=
  q = QC.initial ∨ ∃ i core, w.Did env i (.built core q)

theorem backed_initial (env : Env) (w : World) : w.Backed env QC.initial := Or.inl rfl

/-- A proposed block, as its proposer made it or as the network carries it. -/
def Circulates (env : Env) (w : World) (b : Block) : Prop :=
  ∃ i core b₀, w.Did env i (.propose core b₀) ∧ (b = b₀ ∨ Msg.block b = (Msg.block b₀).wire)

/-- What the nodes can be given, as far as they have recorded it. -/
def known (env : Env) (w : World) : Known :=
  .supplying (fun b => w.Circulates env b ∧ ∀ q ∈ b.qc, w.Backed env q) (w.Backed env)
    (fun v => ∃ i core b, w.Did env i (.vote core b v)) (backed_initial env w)
    fun _ q h hq => h.2 q hq

/-- Histories that only grow make more known. -/
theorem known_le {w w' : World} (h : ∀ i, (w.nodes i).trace <:+ (w'.nodes i).trace) :
    (w.known env).Le (w'.known env) := by
  have hdid : ∀ i e, w.Did env i e → w'.Did env i e := fun i e he => ⟨he.1, (h i).subset he.2⟩
  have hbacked : ∀ q, w.Backed env q → w'.Backed env q := by
    rintro q (rfl | ⟨i, core, he⟩)
    · exact Or.inl rfl
    · exact Or.inr ⟨i, core, hdid _ _ he⟩
  refine Known.supplying_le ?_ hbacked ?_
  · rintro b ⟨⟨i, core, b₀, he, hb⟩, hq⟩
    exact ⟨⟨i, core, b₀, hdid _ _ he, hb⟩, fun q hqc => hbacked q (hq q hqc)⟩
  · rintro v ⟨i, core, b, he⟩
    exact ⟨i, core, b, hdid _ _ he⟩

variable {w : World}

theorem backed_of_held {i : ℕ} (hi : 1 ≤ i ∧ i ≤ env.n) {q : QC}
    (h : Held (w.known env) (w.nodes i) q) : w.Backed env q := by
  rcases h with hq | ⟨core, he⟩
  · exact hq
  · exact Or.inr ⟨i, core, hi, he⟩

/-- What a node has sent can be supplied, as it is or as the network carries it. -/
theorem supplied_of_sent {src : ℕ} (hsrc : 1 ≤ src ∧ src ≤ env.n)
    (hw : Reachable env alg (w.known env) (newNodeID src) (w.nodes src)) {dest : Option NodeID}
    {m m' : Msg} (hm : Sent env alg (w.known env) (w.nodes src) dest m)
    (heq : m' = m ∨ m' = m.wire) : Supplied (w.known env) (.deliver m') := by
  cases m with
  | block b =>
    obtain ⟨core, he⟩ := hm
    obtain ⟨q, hq, -, -, hheld⟩ := hw.proposed he
    have hback : ∀ q' ∈ b.qc, w.Backed env q' := by
      intro q' hq'
      obtain rfl : q' = q := Option.some.inj (hq'.symm.trans hq)
      exact backed_of_held hsrc hheld
    have hcirc : ∀ b', b' = b ∨ Msg.block b' = (Msg.block b).wire → w.Circulates env b' :=
      fun b' hb' => ⟨src, core, b, ⟨hsrc, he⟩, hb'⟩
    rcases heq with rfl | rfl
    · exact ⟨hcirc b (Or.inl rfl), hback⟩
    · exact ⟨hcirc _ (Or.inr rfl), hback⟩
  | vote v =>
    obtain ⟨core, b, he, -⟩ := hm
    obtain rfl : m' = .vote v := by simpa [Msg.wire] using heq
    exact ⟨src, core, b, hsrc, he⟩
  | tmo t =>
    obtain rfl : m' = .tmo t := by simpa [Msg.wire] using heq
    intro q hq
    obtain ⟨q', hq', hheld⟩ := hm.2
    obtain rfl : q = q' := Option.some.inj (hq.symm.trans hq')
    exact backed_of_held hsrc hheld
  | vmo v =>
    obtain rfl : m' = .vmo v := by simpa [Msg.wire] using heq
    trivial

/-- Whatever the network lets through was recorded by its sender. -/
theorem input_supplied (hw : ∀ i, Reachable env alg (w.known env) (newNodeID i) (w.nodes i))
    {node : ℕ} {a : Action} {i : Input} (h : w.input env node a = some i) :
    Supplied (w.known env) i := by
  cases a with
  | txn => cases h; trivial
  | timeout => cases h; trivial
  | newView payload => cases h; trivial
  | deliver src k =>
    simp only [input] at h
    by_cases hsrc : 1 ≤ src ∧ src ≤ env.n
    · rw [if_pos hsrc] at h
      cases hmsg : (w.nodes src).outbox[k]? with
      | none => rw [hmsg] at h; cases h
      | some e =>
        have hsent := (hw src).steady.sent e (List.mem_of_getElem? hmsg)
        obtain ⟨dest, m⟩ := e
        simp only [hmsg] at h
        split_ifs at h
        · cases m with
          | block b => cases h; exact supplied_of_sent hsrc (hw src) hsent (Or.inl rfl)
          | _ => cases h
        · cases h
          exact supplied_of_sent hsrc (hw src) hsent (Or.inr rfl)
    · rw [if_neg hsrc] at h
      cases h

/-- One turn keeps every node reachable from what is known after it. -/
theorem step_reachable (hw : ∀ i, Reachable env alg (w.known env) (newNodeID i) (w.nodes i))
    (t : Turn) (i : ℕ) :
    Reachable env alg ((w.step env alg t).known env) (newNodeID i)
      ((w.step env alg t).nodes i) := by
  unfold step
  split_ifs with hrange
  · cases hin : w.input env t.node t.action with
    | none => exact hw i
    | some input =>
      have hstep : ReflTransGen (Step env alg (w.known env)) (w.nodes t.node)
          ((w.nodes t.node).step env alg (input, t.fuel)) :=
        Replica.step_reaches (fun _ => trivial) (hw t.node).steady (input_supplied hw hin)
      have hgrow : ∀ j,
          (w.nodes j).trace <:+ ((w.take env alg t.node (input, t.fuel)).nodes j).trace := by
        intro j
        by_cases hj : j = t.node
        · subst hj
          rw [take_self]
          exact (Steps.later hstep).trace
        · rw [take_ne env alg w _ hj]
      have hnode : Reachable env alg (w.known env) (newNodeID i)
          ((w.take env alg t.node (input, t.fuel)).nodes i) := by
        by_cases hi : i = t.node
        · subst hi
          rw [take_self]
          exact (hw t.node).trans hstep
        · rw [take_ne env alg w _ hi]
          exact hw i
      exact hnode.le (known_le hgrow)
  · exact hw i

/-- In the end each node has gone through transitions that what is known in the
end allows for. -/
theorem after_reachable (env : Env) (alg : Algorithm) (turns : List Turn) (i : ℕ) :
    Reachable env alg ((after env alg turns).known env) (newNodeID i)
      ((after env alg turns).nodes i) := by
  induction turns using List.reverseRecOn generalizing i with
  | nil => exact .refl
  | append_singleton turns t ih =>
    rw [after_append]
    exact step_reachable ih t i

end World

end Bamboo
