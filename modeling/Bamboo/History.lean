import Bamboo.Protocols

/-!
# What a replica's history tells

Every event of a replica's trace goes back to the transition that recorded it,
made in a reachable state whose trace is the rest. The guard of that transition
is what is known about the event.
-/
namespace Bamboo

open Relation Stepwise

/-- The votes a replica has made, newest first. -/
def votesOf (trace : List Event) : List Vote := trace.filterMap Event.ballot

/-- The certificates a replica has built, newest first. -/
def certificatesOf (trace : List Event) : List QC := trace.filterMap Event.certificate

/-- The blocks a replica has delivered, those of the last commit first. -/
def ledgerOf (trace : List Event) : List Block := trace.flatMap Event.delivers

theorem mem_certificatesOf {trace : List Event} {qc : QC} :
    qc ∈ certificatesOf trace ↔ ∃ core, Event.built core qc ∈ trace := by
  constructor
  · intro h
    obtain ⟨e, he, hq⟩ := List.mem_filterMap.mp h
    cases e with
    | built core q => cases hq; exact ⟨core, he⟩
    | _ => cases hq
  · rintro ⟨core, h⟩
    exact List.mem_filterMap.mpr ⟨_, h, rfl⟩

/-- Since the block in hand was taken up, nothing was voted for or proposed. -/
theorem inHand_split {trace : List Event} {core : Core} {b : Block}
    (h : inHand trace = some (core, b)) :
    ∃ since older, trace = since ++ .handle core b :: older ∧
      ∀ e ∈ trace, e ∈ older ∨ (e.voted = none ∧ e.proposed = none) := by
  induction trace with
  | nil => cases h
  | cons e trace ih =>
    have hmore : inHand trace = some (core, b) → e.voted = none ∧ e.proposed = none →
        ∃ since older, e :: trace = since ++ .handle core b :: older ∧
          ∀ e' ∈ e :: trace, e' ∈ older ∨ (e'.voted = none ∧ e'.proposed = none) := by
      intro htrace hnone
      obtain ⟨since, older, hsplit, hrest⟩ := ih htrace
      refine ⟨e :: since, older, ?_, List.forall_mem_cons.mpr ⟨Or.inr hnone, hrest⟩⟩
      rw [hsplit, List.cons_append]
    cases e with
    | handle c b' =>
      cases h
      exact ⟨[], trace, rfl, List.forall_mem_cons.mpr ⟨Or.inr ⟨rfl, rfl⟩, fun _ => Or.inl⟩⟩
    | vote _ _ _ => cases h
    | propose _ _ => cases h
    | built c qc => exact hmore h ⟨rfl, rfl⟩
    | commit c qc head committed => exact hmore h ⟨rfl, rfl⟩

section Steps

variable {env : Env} {alg : Algorithm} {K : Known} {s s' : Replica}

/-- The guard of the transition that records an event. -/
def Recorded (env : Env) (alg : Algorithm) (K : Known) (s : Replica) : Event → Prop
  | .handle _ b => K.block b
  | .vote _ b v => (∃ core qc, VoteGuard env alg core s b qc) ∧
      makeVote env b.view s.id b.id = .ok v
  | .propose _ b => Proposal env s b
  | .built _ qc => ∃ v bc, Counted env K s v ∧
      ∃ q, s.bc.addVote env v = (some q, bc) ∧ qc = { q with leader := s.id }
  | .commit _ qc head committed => CommitGuard env K s qc head alg ∧
      ∃ forked bc, s.bc.commitBlock head.id s.pm.curView = .ok (.ok (committed, forked), bc)

/-- A transition records at most one event, in the state it starts from. -/
theorem Step.recorded (h : Step env alg K s s') :
    s'.trace = s.trace ∨ ∃ e, s'.trace = e :: s.trace ∧ e.core = s.toCore ∧
      Recorded env alg K s e := by
  cases h with
  | change h =>
    cases h with
    | act h =>
      cases h with
      | clerical h =>
        cases h with
        | build v qc bc hv hadd => exact Or.inr ⟨_, rfl, rfl, v, bc, hv, qc, hadd, rfl⟩
        | commit qc head committed forked bc hg hdone =>
          exact Or.inr ⟨_, rfl, rfl, hg, forked, bc, hdone⟩
        | _ => exact Or.inl rfl
      | handle b hb => exact Or.inr ⟨_, rfl, rfl, hb⟩
      | vote core b qc v hg hmade => exact Or.inr ⟨_, rfl, rfl, ⟨core, qc, hg⟩, hmade⟩
      | _ => exact Or.inl rfl
    | _ => exact Or.inl rfl
  | propose b hb => exact Or.inr ⟨_, rfl, rfl, hb⟩
  | _ => exact Or.inl rfl

/-- The states of an honest replica. -/
def Reachable (env : Env) (alg : Algorithm) (K : Known) (id : NodeID) (s : Replica) : Prop :=
  ReflTransGen (Step env alg K) (Replica.new env id false) s

theorem Reachable.invariant {J : Replica → Prop} {id : NodeID} (h : Reachable env alg K id s)
    (hJ : ∀ s s', Step env alg K s s' → J s → J s') (hnew : J (Replica.new env id false)) : J s :=
  Stepwise.invariant hJ h hnew

/-- Each event was recorded in a reachable state with the trace before it. -/
theorem Reachable.event {id : NodeID} (h : Reachable env alg K id s) {recent past : List Event}
    {e : Event} (he : s.trace = recent ++ e :: past) :
    ∃ s₁, Reachable env alg K id s₁ ∧ s₁.trace = past ∧ e.core = s₁.toCore ∧
      Recorded env alg K s₁ e := by
  have hgrow : ∀ s s', Step env alg K s s' → s'.trace = s.trace ∨ ∃ e, s'.trace = e :: s.trace :=
    fun _ _ hstep => hstep.recorded.imp_right fun ⟨e, he, _⟩ => ⟨e, he⟩
  obtain ⟨s₁, s₂, hreach, hstep, hpast, hnew⟩ := exists_step_of_event hgrow h rfl he
  rcases hstep.recorded with heq | ⟨e', heq, hcore, hrec⟩
  · rw [heq, hpast] at hnew
    exact absurd (congrArg List.length hnew) (by simp)
  · rw [hnew, hpast] at heq
    obtain ⟨rfl, -⟩ := List.cons.inj heq
    exact ⟨s₁, hreach, hpast, hcore, hrec⟩

theorem Reachable.mem {id : NodeID} (h : Reachable env alg K id s) {e : Event}
    (he : e ∈ s.trace) :
    ∃ s₁ recent, Reachable env alg K id s₁ ∧ s.trace = recent ++ e :: s₁.trace ∧
      e.core = s₁.toCore ∧ Recorded env alg K s₁ e := by
  obtain ⟨recent, past, hsplit⟩ := List.mem_iff_append.mp he
  obtain ⟨s₁, hreach, hpast, hcore, hrec⟩ := h.event hsplit
  exact ⟨s₁, recent, hreach, by rw [hsplit, hpast], hcore, hrec⟩

/-- What holds between a block that is taken up and what was voted for or
proposed before still holds when the block is voted for. -/
theorem Reachable.atEach_voted {id : NodeID} (h : Reachable env alg K id s)
    {p : Block → Event → Prop} (hquiet : ∀ b e, e.voted = none → e.proposed = none → p b e)
    (hhandle : AtEach (fun e past => ∀ b ∈ e.handled, ∀ e' ∈ past, p b e') s.trace) :
    AtEach (fun e past => ∀ b ∈ e.voted, ∀ e' ∈ past, p b e') s.trace := by
  refine atEach_iff.mpr fun recent e past hsplit b hb e' he' => ?_
  obtain ⟨s₁, -, rfl, -, hrec⟩ := h.event hsplit
  cases e with
  | vote core c v =>
    cases hb
    obtain ⟨⟨core₀, qc, hguard⟩, -⟩ := hrec
    obtain ⟨since, older, hpast, hrest⟩ := inHand_split hguard.hand
    rcases hrest e' he' with hold | ⟨hvoted, hproposed⟩
    · rw [hpast, ← List.cons_append, ← List.append_assoc] at hsplit
      exact atEach_iff.mp hhandle _ _ _ hsplit b rfl e' hold
    · exact hquiet b e' hvoted hproposed
  | _ => cases hb

/-! ## What the past says about the present -/

theorem Reachable.steady {id : NodeID} (h : Reachable env alg K id s) : Steady env alg K s :=
  Steps.steady h (steady_new env alg K id false)

theorem Reachable.id_eq {id : NodeID} (h : Reachable env alg K id s) : s.id = id :=
  (Steps.later h).id

/-- Only blocks that were taken up are stored. -/
def Stocked (s : Replica) : Prop :=
  ∀ id p, s.bc.forrest.getVertex id = some p → ∃ core, Event.handle core p ∈ s.trace

theorem Step.stocked (h : Step env alg K s s') (hr : Steady env alg K s) (hs : Stocked s) :
    Stocked s' := by
  intro id p hp
  have hold : ∃ core, Event.handle core p ∈ s.trace := by
    rcases (h.forest hr.sound).2 id p hp with hp | ⟨core, hcore⟩
    · exact hs id p hp
    · exact ⟨core, inHand_mem hcore⟩
  exact hold.imp fun _ he => h.later.trace.subset he

theorem Reachable.stocked {id : NodeID} (h : Reachable env alg K id s) : Stocked s := by
  have hboth : Steady env alg K s ∧ Stocked s :=
    h.invariant (J := fun s => Steady env alg K s ∧ Stocked s)
      (fun _ _ hstep hs => ⟨hstep.steady hs.1, hstep.stocked hs.1 hs.2⟩)
      ⟨steady_new env alg K id false, fun id p hp => by
        simp [Replica.new, BlockChain.new, LevelledForest.new, LevelledForest.getVertex] at hp⟩
  exact hboth.2

/-- A stored block is stored under its own id, and was supplied. -/
theorem Reachable.stored {id : NodeID} (h : Reachable env alg K id s) {d : Identifier} {p : Block}
    (hp : s.bc.forrest.getVertex d = some p) : p.id = d ∧ K.block p := by
  obtain ⟨core, he⟩ := h.stocked d p hp
  obtain ⟨s₁, recent, -, -, -, hrec⟩ := h.mem he
  exact ⟨h.steady.sound.id_of_getVertex hp, hrec⟩

/-- The lock and the highest certificate only rise. -/
def Rising (s : Replica) : Prop :=
  ∀ e ∈ s.trace, e.core.preferredView ≤ s.preferredView ∧ e.core.highQC.view ≤ s.highQC.view

theorem Step.rising (h : Step env alg K s s') (hs : Rising s) : Rising s' := by
  intro e he
  have hold : e ∈ s.trace ∨ e.core = s.toCore := by
    rcases h.recorded with heq | ⟨e', heq, hcore, -⟩
    · exact Or.inl (heq ▸ he)
    · rw [heq] at he
      rcases List.mem_cons.mp he with rfl | he
      · exact Or.inr hcore
      · exact Or.inl he
  rcases hold with he | hcore
  · exact ⟨Int64.le_trans (hs e he).1 h.later.lock, Int64.le_trans (hs e he).2 h.later.highQC⟩
  · rw [hcore]
    exact ⟨h.later.lock, h.later.highQC⟩

theorem Reachable.rising {id : NodeID} (h : Reachable env alg K id s) : Rising s :=
  h.invariant (fun _ _ hstep => hstep.rising) (by intro e he; cases he)

/-- What was sent to the application is what the commits delivered. -/
def Delivered (s : Replica) : Prop := ∀ b, b ∈ s.committedBlocks ↔ b ∈ ledgerOf s.trace

theorem Step.delivered (h : Step env alg K s s') (hs : Delivered s) : Delivered s' := by
  cases h with
  | change h =>
    cases h with
    | act h =>
      cases h with
      | clerical h =>
        cases h with
        | commit qc head committed forked bc _ _ =>
          intro b
          change b ∈ s.committedBlocks ++ committed ↔ b ∈ committed ++ ledgerOf s.trace
          rw [List.mem_append, List.mem_append, hs b, or_comm]
        | _ => exact hs
      | _ => exact hs
    | _ => exact hs
  | _ => exact hs

theorem Reachable.delivered {id : NodeID} (h : Reachable env alg K id s) : Delivered s :=
  h.invariant (fun _ _ hstep => hstep.delivered) (fun _ => Iff.rfl)

/-- A proposed block carries a certificate that its proposer holds. -/
theorem Reachable.proposed {id : NodeID} {core : Core} {b : Block}
    (h : Reachable env alg K id s) (he : Event.propose core b ∈ s.trace) :
    ∃ q ∈ b.qc, b.prevID = q.blockID ∧ b.id = env.crypto.makeID b.raw ∧ Held K s q := by
  obtain ⟨s₁, recent, hreach, hsplit, -, hprop⟩ := h.mem he
  have hheld := hreach.steady.highQC.mono (suffix_of_split hsplit)
  exact ⟨s₁.highQC, hprop.certificate, hprop.parent, hprop.hash, hheld⟩

theorem Reachable.le {K' : Known} {id : NodeID} (h : Reachable env alg K id s) (hK : K.Le K') :
    Reachable env alg K' id s :=
  ReflTransGen.mono (fun _ _ hstep => hstep.le hK) _ _ h

end Steps

/-! ## Runs on a list of inputs -/

def deliveredBlocks (inputs : List (Input × ℕ)) : List Block :=
  inputs.filterMap fun i => match i.1 with
    | .deliver (.block b) => some b
    | _ => none

def deliveredVotes (inputs : List (Input × ℕ)) : List Vote :=
  inputs.filterMap fun i => match i.1 with
    | .deliver (.vote v) => some v
    | _ => none

/-- The messages of a list of inputs. -/
def deliveredIn (inputs : List (Input × ℕ)) (m : Msg) : Prop :=
  ∃ fuel, (Input.deliver m, fuel) ∈ inputs

theorem mem_deliveredBlocks {inputs : List (Input × ℕ)} {b : Block} :
    b ∈ deliveredBlocks inputs ↔ deliveredIn inputs (.block b) := by
  constructor
  · intro h
    obtain ⟨⟨i, fuel⟩, hi, hb⟩ := List.mem_filterMap.mp h
    rcases i with (c | _ | _ | _) | _ | _ | _ <;> cases hb
    exact ⟨fuel, hi⟩
  · rintro ⟨fuel, h⟩
    exact List.mem_filterMap.mpr ⟨_, h, rfl⟩

theorem mem_deliveredVotes {inputs : List (Input × ℕ)} {v : Vote} :
    v ∈ deliveredVotes inputs ↔ deliveredIn inputs (.vote v) := by
  constructor
  · intro h
    obtain ⟨⟨i, fuel⟩, hi, hv⟩ := List.mem_filterMap.mp h
    rcases i with (_ | w | _ | _) | _ | _ | _ <;> cases hv
    exact ⟨fuel, hi⟩
  · rintro ⟨fuel, h⟩
    exact List.mem_filterMap.mpr ⟨_, h, rfl⟩

/-- What a list of inputs supplies. -/
abbrev Known.delivered (inputs : List (Input × ℕ)) : Known := .of (deliveredIn inputs)

theorem Supplied.delivered {inputs : List (Input × ℕ)} {i : Input × ℕ} (h : i ∈ inputs) :
    Supplied (Known.delivered inputs) i.1 := by
  obtain ⟨i, fuel⟩ := i
  cases i with
  | deliver m => exact ⟨fuel, h⟩
  | _ => trivial

theorem Replica.run_append (env : Env) (alg : Algorithm) (s : Replica)
    (inputs inputs' : List (Input × ℕ)) :
    s.run env alg (inputs ++ inputs') = (s.run env alg inputs).run env alg inputs' := by
  simp [Replica.run]

/-- A replica after a run on the inputs. -/
abbrev Replica.after (env : Env) (alg : Algorithm) (id : NodeID) (isByz : Bool)
    (inputs : List (Input × ℕ)) : Replica :=
  (Replica.new env id isByz).run env alg inputs

/-- A HotStuff replica after a list of inputs. -/
def HotStuff.after (env : Env) (id : NodeID) (isByz : Bool) (inputs : List (Input × ℕ)) :
    Replica :=
  (Replica.new env id isByz).run env .hotStuff inputs

section After

variable (env : Env) (alg : Algorithm) (id : NodeID) (isByz : Bool)
  (inputs more : List (Input × ℕ))

/-- The messages may be those of a longer list. -/
theorem Replica.new_steps :
    ReflTransGen (Step env alg (.delivered (inputs ++ more))) (Replica.new env id isByz)
      (Replica.after env alg id isByz inputs) :=
  Replica.run_reaches (fun _ => trivial) (steady_new ..) fun _ hi =>
    Supplied.delivered (List.mem_append_left more hi)

theorem Replica.after_steady :
    Steady env alg (.delivered (inputs ++ more)) (Replica.after env alg id isByz inputs) :=
  Steps.steady (Replica.new_steps env alg id isByz inputs more) (steady_new ..)

/-- Whatever the messages are. -/
theorem Replica.run_steady :
    Steady env alg .anything ((Replica.new env id isByz).run env alg inputs) :=
  Steps.steady (Replica.run_reaches (fun _ => trivial) (steady_new ..) fun i _ => .anything i.1)
    (steady_new ..)

theorem Replica.after_steps :
    ReflTransGen (Step env alg (.delivered (inputs ++ more)))
      (Replica.after env alg id isByz inputs)
      (Replica.after env alg id isByz (inputs ++ more)) := by
  rw [Replica.after, Replica.after, Replica.run_append]
  exact Replica.run_reaches (fun _ => trivial) (Replica.after_steady ..) fun _ hi =>
    Supplied.delivered (List.mem_append_right inputs hi)

theorem Replica.run_reachable :
    Reachable env alg (.delivered inputs) id (Replica.after env alg id false inputs) := by
  have h := Replica.new_steps env alg id false inputs []
  rwa [List.append_nil] at h

end After

end Bamboo
