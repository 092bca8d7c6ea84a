import Mathlib.Data.List.Pairwise
import Mathlib.Logic.Relation

/-!
# Programs that move by steps

`Leads R P m Q` relates a program with state and failure to a step relation `R`:
started in a state that satisfies `P`, the program only makes `R`-steps, whether
it returns or fails, and a result satisfies `Q`. An invariant of the steps is
then an invariant of the program at every point where it can stop, so that a
program with many branches is analysed once and its invariants are read off
the relation.
-/
namespace Stepwise

open Relation

variable {ε σ α β : Type} {R : σ → σ → Prop} {P : σ → Prop} {Q : α → σ → Prop}

def Leads (R : σ → σ → Prop) (P : σ → Prop) (m : EStateM ε σ α) (Q : α → σ → Prop) : Prop :=
  ∀ s, P s → match m s with
    | .ok a s' => ReflTransGen R s s' ∧ Q a s'
    | .error _ s' => ReflTransGen R s s'

/-- Any step will do: only the result, if there is one, is spoken of. -/
abbrev Gives (P : σ → Prop) (m : EStateM ε σ α) (Q : α → σ → Prop) : Prop :=
  Leads (fun _ _ => True) P m Q

/-- What every step preserves, a chain of steps preserves. -/
theorem invariant {J : σ → Prop} (hJ : ∀ s s', R s s' → J s → J s') {s t : σ}
    (h : ReflTransGen R s t) (hs : J s) : J t := by
  induction h with
  | refl => exact hs
  | tail _ hstep ih => exact hJ _ _ hstep ih

/-! ## Histories

A history lists events, newest first. When each step adds at most one event to
the history that a state carries, every event of it goes back to one step.
-/

section History

variable {E : Type}

theorem suffix_of_split {l recent past : List E} {e : E} (h : l = recent ++ e :: past) :
    past <:+ l := by
  rw [h]
  exact (List.suffix_cons e past).trans (List.suffix_append recent _)

/-- Each event of a history satisfies `p` together with what was there before it. -/
inductive AtEach (p : E → List E → Prop) : List E → Prop
  | nil : AtEach p []
  | cons {e : E} {past : List E} (now : p e past) (before : AtEach p past) : AtEach p (e :: past)

theorem atEach_cons {p : E → List E → Prop} {e : E} {past : List E} :
    AtEach p (e :: past) ↔ p e past ∧ AtEach p past := by
  constructor
  · rintro (_ | ⟨now, before⟩)
    exact ⟨now, before⟩
  · rintro ⟨now, before⟩
    exact .cons now before

instance AtEach.decidable (p : E → List E → Prop) [∀ e past, Decidable (p e past)] :
    (l : List E) → Decidable (AtEach p l)
  | [] => isTrue .nil
  | e :: past =>
    have := AtEach.decidable p past
    decidable_of_iff (p e past ∧ AtEach p past) atEach_cons.symm

theorem atEach_iff {p : E → List E → Prop} {l : List E} :
    AtEach p l ↔ ∀ recent e past, l = recent ++ e :: past → p e past := by
  induction l with
  | nil => simp [AtEach.nil]
  | cons a l ih =>
    rw [atEach_cons, ih]
    constructor
    · rintro ⟨ha, hl⟩ recent e past heq
      cases recent with
      | nil => cases heq; exact ha
      | cons b recent => exact hl recent e past (List.cons.inj heq).2
    · intro h
      refine ⟨h [] a l rfl, fun recent e past heq => h (a :: recent) e past ?_⟩
      rw [heq, List.cons_append]

/-- Of two different events, one comes before the other. -/
theorem pairwise_comparable {r : E → E → Prop} {l : List E} (h : l.Pairwise r) {a b : E}
    (ha : a ∈ l) (hb : b ∈ l) (hne : a ≠ b) : r a b ∨ r b a := by
  have hsymm : Std.Symm fun a b : E => r a b ∨ r b a := ⟨fun _ _ hab => hab.symm⟩
  have hboth : l.Pairwise fun a b => r a b ∨ r b a := h.imp Or.inl
  exact hboth.forall ha hb hne

theorem AtEach.pairwise {p : E → E → Prop} {l : List E}
    (h : AtEach (fun e past => ∀ e' ∈ past, p e e') l) : l.Pairwise p := by
  induction h with
  | nil => exact List.Pairwise.nil
  | cons now _ ih => exact List.pairwise_cons.mpr ⟨now, ih⟩

/-- The step that added an event, from the state that had the rest. -/
theorem exists_step_of_event {history : σ → List E}
    (hgrow : ∀ s s', R s s' → history s' = history s ∨ ∃ e, history s' = e :: history s)
    {s t : σ} (h : ReflTransGen R s t) (hs : history s = []) {l past : List E} {e : E}
    (he : history t = l ++ e :: past) :
    ∃ s₁ s₂, ReflTransGen R s s₁ ∧ R s₁ s₂ ∧ history s₁ = past ∧ history s₂ = e :: past := by
  induction h generalizing l with
  | refl => simp [hs] at he
  | @tail t t' hst hstep ih =>
    rcases hgrow t t' hstep with heq | ⟨e', heq⟩
    · exact ih (heq.symm.trans he)
    · rw [heq] at he
      cases l with
      | nil =>
        obtain ⟨rfl, hpast⟩ := List.cons.inj he
        exact ⟨t, t', hst, hstep, hpast, by rw [heq, hpast]⟩
      | cons a l => exact ih (List.cons.inj he).2

end History

/-- The state a program stops in. -/
def final (m : EStateM ε σ α) (s : σ) : σ :=
  match m s with
  | .ok _ s' => s'
  | .error _ s' => s'

namespace Leads

theorem reaches {m : EStateM ε σ α} (h : Leads R P m Q) {s : σ} (hs : P s) :
    ReflTransGen R s (final m s) := by
  have hm := h s hs
  unfold final
  cases hr : m s with
  | ok a s' => rw [hr] at hm; exact hm.1
  | error e s' => rw [hr] at hm; exact hm

/-! ## Consequence -/

theorem pre {P' : σ → Prop} {m : EStateM ε σ α} (h : Leads R P m Q) (hP : ∀ s, P' s → P s) :
    Leads R P' m Q :=
  fun s hs => h s (hP s hs)

theorem post {Q' : α → σ → Prop} {m : EStateM ε σ α} (h : Leads R P m Q)
    (hQ : ∀ a s, Q a s → Q' a s) : Leads R P m Q' := by
  intro s hs
  have hm := h s hs
  cases hr : m s with
  | ok a s' => rw [hr] at hm; exact ⟨hm.1, hQ a s' hm.2⟩
  | error e s' => rw [hr] at hm; exact hm

theorem rel {R' : σ → σ → Prop} {m : EStateM ε σ α} (h : Leads R P m Q)
    (hR : ∀ s s', R s s' → R' s s') : Leads R' P m Q := by
  intro s hs
  have hm := h s hs
  cases hr : m s with
  | ok a s' => rw [hr] at hm; exact ⟨ReflTransGen.mono hR _ _ hm.1, hm.2⟩
  | error e s' => rw [hr] at hm; exact ReflTransGen.mono hR _ _ hm

/-- The start may be fixed, so that later states can be compared with it. -/
theorem start {m : EStateM ε σ α} (h : ∀ s₀, P s₀ → Leads R (fun s => s = s₀) m Q) :
    Leads R P m Q :=
  fun s hs => h s hs s rfl

/-- A fixed start that is known to satisfy the precondition. -/
theorem at_start {m : EStateM ε σ α} (h : Leads R P m Q) {s₀ : σ} (hs : P s₀) :
    Leads R (fun s => s = s₀) m Q :=
  h.pre fun _ heq => heq ▸ hs

/-- What the precondition says besides the state may be assumed outright. -/
theorem assume {F : Prop} {m : EStateM ε σ α} (h : F → Leads R P m Q) :
    Leads R (fun s => P s ∧ F) m Q :=
  fun s hs => h hs.2 s hs.1

/-- The result may be described by way of other steps. -/
theorem and {R' : σ → σ → Prop} {Q' : α → σ → Prop} {m : EStateM ε σ α} (h : Leads R P m Q)
    (h' : Leads R' P m Q') : Leads R P m fun a s => Q a s ∧ Q' a s := by
  intro s hs
  have hm := h s hs
  have hm' := h' s hs
  cases hr : m s with
  | ok a s' => rw [hr] at hm hm'; exact ⟨hm.1, hm.2, hm'.2⟩
  | error e s' => rw [hr] at hm; exact hm

/-! ## Invariants of the steps -/

/-- Whatever every step preserves may be carried along. -/
theorem carry {J P' : σ → Prop} (hJ : ∀ s s', R s s' → J s → J s') (hP : ∀ s, P' s → P s ∧ J s)
    {m : EStateM ε σ α} (h : Leads R P m Q) : Leads R P' m fun a s => Q a s ∧ J s := by
  intro s hs
  have hm := h s (hP s hs).1
  cases hr : m s with
  | ok a s' => rw [hr] at hm; exact ⟨hm.1, hm.2, invariant hJ hm.1 (hP s hs).2⟩
  | error e s' => rw [hr] at hm; exact hm

/-- An invariant of the steps holds again at the end. -/
theorem keep {J : σ → Prop} (hJ : ∀ s s', R s s' → J s → J s') {m : EStateM ε σ α}
    (h : Leads R J m Q) : Leads R J m fun _ => J :=
  (h.carry hJ fun _ hs => ⟨hs, hs⟩).post fun _ _ hs => hs.2

/-! ## The constructs of a program -/

theorem pure {a : α} (h : ∀ s, P s → Q a s) :
    Leads R P (Pure.pure a : EStateM ε σ α) Q :=
  fun s hs => ⟨ReflTransGen.refl, h s hs⟩

theorem throw {e : ε} : Leads R P (throw e : EStateM ε σ α) Q :=
  fun _ _ => ReflTransGen.refl

theorem bind {T : β → σ → Prop} {m : EStateM ε σ α} {f : α → EStateM ε σ β}
    (hm : Leads R P m Q) (hf : ∀ a, Leads R (Q a) (f a) T) : Leads R P (m >>= f) T := by
  intro s hs
  have h₁ := hm s hs
  change match EStateM.bind m f s with
    | .ok a s' => ReflTransGen R s s' ∧ T a s'
    | .error _ s' => ReflTransGen R s s'
  unfold EStateM.bind
  cases hr : m s with
  | error e s' => rw [hr] at h₁; exact h₁
  | ok a s₁ =>
    rw [hr] at h₁
    have h₂ := hf a s₁ h₁.2
    dsimp only
    cases hr₂ : f a s₁ with
    | ok b s₂ => rw [hr₂] at h₂; exact ⟨h₁.1.trans h₂.1, h₂.2⟩
    | error e s₂ => rw [hr₂] at h₂; exact h₁.1.trans h₂

theorem ite {c : Prop} [Decidable c] {m m' : EStateM ε σ α} (hm : c → Leads R P m Q)
    (hm' : ¬ c → Leads R P m' Q) : Leads R P (if c then m else m') Q := by
  by_cases h : c
  · rw [if_pos h]; exact hm h
  · rw [if_neg h]; exact hm' h

/-- After a read the state is known until it is changed. -/
theorem get_bind {f : σ → EStateM ε σ α} (h : ∀ s₀, P s₀ → Leads R (fun s => s = s₀) (f s₀) Q) :
    Leads R P (get >>= f) Q :=
  fun s hs => h s hs s rfl

theorem of_modify {f : σ → σ} {Q : PUnit → σ → Prop} (h : ∀ s, P s → R s (f s) ∧ Q ⟨⟩ (f s)) :
    Leads R P (modify f : EStateM ε σ PUnit) Q :=
  fun s hs => ⟨.single (h s hs).1, (h s hs).2⟩

theorem of_modify_step {f : σ → σ} (h : ∀ s, P s → R s (f s)) :
    Leads R P (modify f : EStateM ε σ PUnit) fun _ _ => True :=
  Leads.of_modify fun s hs => ⟨h s hs, trivial⟩

/-- A program that always returns makes one step of what it does. -/
theorem of_run {m : EStateM ε σ PUnit} {f : σ → σ} {Q : PUnit → σ → Prop}
    (hrun : ∀ s, P s → m s = .ok ⟨⟩ (f s)) (h : ∀ s, P s → R s (f s) ∧ Q ⟨⟩ (f s)) :
    Leads R P m Q := by
  intro s hs
  rw [hrun s hs]
  exact ⟨.single (h s hs).1, (h s hs).2⟩

/-- The state after one change of a known state is known. -/
theorem of_modify_at {s₀ : σ} {f : σ → σ} (h : R s₀ (f s₀)) :
    Leads R (fun s => s = s₀) (modify f : EStateM ε σ PUnit) fun _ s => s = f s₀ := by
  intro s hs
  subst hs
  exact ⟨.single h, rfl⟩

/-- The state that is set is known from there on. -/
theorem of_set {s₀ s' : σ} (h : R s₀ s') :
    Leads R (fun s => s = s₀) (set s' : EStateM ε σ PUnit) fun _ s => s = s' := by
  intro s hs
  subst hs
  exact ⟨.single h, rfl⟩

theorem of_set_step {s' : σ} (h : ∀ s, P s → R s s') :
    Leads R P (set s' : EStateM ε σ PUnit) fun _ _ => True :=
  fun s hs => ⟨.single (h s hs), trivial⟩

/-- A program that is done, with nothing left to say about the result. -/
theorem done {a : α} : Leads R P (Pure.pure a : EStateM ε σ α) fun _ _ => True :=
  Leads.pure fun _ _ => trivial

end Leads

end Stepwise
