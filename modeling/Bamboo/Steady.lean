import Bamboo.Transition

/-!
# What a replica holds

Whatever a replica counts, keeps, buffers or sends was received or is its own, and
is filed under its own view or block. No transition changes that, and so every view
that is entered is entered for a reason.
-/
namespace Bamboo

open Relation

/-! ## Counting -/

section Counting

variable {env : Env} {D : Msg → Prop} {s s' : Replica} {p : Pacemaker}

/-- The controllers count messages that were received, and the current view is
the one entered last. -/
structure Counting (env : Env) (D : Msg → Prop) (s : Replica) (p : Pacemaker) : Prop where
  tmoSize : p.timeoutController.n = env.n
  tmos : p.timeoutController.Filed fun view nodeID tmo =>
    Received D s (.tmo tmo) ∧ tmo.view = view ∧ tmo.nodeID = nodeID
  vmoSize : p.viewChangeController.n = env.n
  vmos : p.viewChangeController.Filed fun view nodeID vmo =>
    Received D s (.vmo vmo) ∧ vmo.view = view ∧ vmo.nodeID = nodeID
  current : p.newViewChan.getLast?.getD 0 = p.curView

theorem Counting.mono (h : Counting env D s p) (hs : Grows s s') : Counting env D s' p where
  tmoSize := h.tmoSize
  tmos view nodeID tmo ht := (h.tmos view nodeID tmo ht).imp_left fun hr => hr.mono hs
  vmoSize := h.vmoSize
  vmos view nodeID vmo hv := (h.vmos view nodeID vmo hv).imp_left fun hr => hr.mono hs
  current := h.current

theorem Counting.passed (h : Counting env D s p) : Passed p p.curView := by
  refine ⟨p.curView, ?_, Int64.le_refl _⟩
  have hlast := h.current
  cases hchan : p.newViewChan.getLast? with
  | none => simp [hchan] at hlast; simp [hlast]
  | some v =>
    rw [hchan, Option.getD_some] at hlast
    exact List.mem_cons_of_mem _ (hlast ▸ List.mem_of_getLast? hchan)

theorem Counting.advanceView (h : Counting env D s p) (view : View) :
    Counting env D s (p.advanceView view) := by
  unfold Pacemaker.advanceView
  split_ifs
  · exact h
  · exact ⟨h.tmoSize, h.tmos, h.vmoSize, h.vmos, by simp⟩

theorem Counting.elim (h : Counting env D s p) (o : Option View) :
    Counting env D s (o.elim p p.advanceView) := by
  cases o with
  | none => exact h
  | some view => exact h.advanceView view

theorem Counting.processRemoteTmo (h : Counting env D s p) {tmo : TMO}
    (hr : Received D s (.tmo tmo)) : Counting env D s (p.processRemoteTmo tmo).2 := by
  unfold Pacemaker.processRemoteTmo
  split_ifs
  · exact h
  · exact ⟨(Controller.add_n _ _ _ _).trans h.tmoSize, h.tmos.add ⟨hr, rfl, rfl⟩, h.vmoSize,
      h.vmos, h.current⟩

theorem Counting.processRemoteVmo (h : Counting env D s p) {vmo : VMO}
    (hr : Received D s (.vmo vmo)) : Counting env D s (p.processRemoteVmo vmo).2 := by
  unfold Pacemaker.processRemoteVmo
  split_ifs
  · exact h
  · exact ⟨h.tmoSize, h.tmos, (Controller.add_n _ _ _ _).trans h.vmoSize,
      h.vmos.add ⟨hr, rfl, rfl⟩, h.current⟩

/-- Behind a TC stand timeouts of more than two thirds of the network. -/
theorem Counting.timedOut (h : Counting env D s p) {tmo : TMO} {view : View}
    (hr : Received D s (.tmo tmo)) (htc : (p.processRemoteTmo tmo).1 = some view) :
    TimedOut env D s view := by
  unfold Pacemaker.processRemoteTmo at htc
  split_ifs at htc
  obtain ⟨rfl, -, hfull⟩ := Controller.add_eq_some.mp htc
  obtain ⟨senders, hcard, hall⟩ := (h.tmos.add ⟨hr, rfl, rfl⟩).senders hfull
  rw [Controller.add_n, h.tmoSize] at hcard
  exact ⟨senders, hcard, hall⟩

theorem Counting.leftBehind (h : Counting env D s p) {vmo : VMO} {view : View}
    (hr : Received D s (.vmo vmo)) (hvc : (p.processRemoteVmo vmo).1 = some view) :
    view = vmo.view ∧ LeftBehind env D s view := by
  unfold Pacemaker.processRemoteVmo at hvc
  split_ifs at hvc
  obtain ⟨rfl, -, hfull⟩ := Controller.add_eq_some.mp hvc
  obtain ⟨senders, hcard, hall⟩ := (h.vmos.add ⟨hr, rfl, rfl⟩).senders hfull
  rw [Controller.add_n, h.vmoSize] at hcard
  exact ⟨rfl, senders, hcard, hall⟩

end Counting

/-! ## Steady replicas -/

/-- What state `s` holds is accounted for by what is known in state `t`. -/
structure SteadyAt (env : Env) (alg : Algorithm) (K : Known) (t s : Replica) : Prop where
  counting : Counting env K.msg t s.pm
  vmos : ∀ view vmo, s.recivedVMO.lookup view = some vmo →
    vmo.view - 1 = view ∧ Received K.msg t (.vmo vmo)
  takenUp : ∀ view b, s.recivedBlock.lookup view = some b → b.view - 1 = view ∧ K.block b
  blocks : ∀ view b, s.bufferedBlocks.lookup view = some b →
    b.view - 1 = view ∧ K.block b ∧ K.early b
  qcs : ∀ id q, s.bufferedQCs.lookup id = some q → q.blockID = id ∧ Held K t q
  highQC : Held K t s.highQC
  sent : ∀ e ∈ s.outbox, Sent env alg K t e.dest e.msg
  votes : ∀ core b v, Event.vote core b v ∈ s.trace → v.blockID = b.id
  built : ∀ core q, Event.built core q ∈ s.trace → ∃ v, ForMe env K t v ∧ v.blockID = q.blockID
  sound : s.bc.forrest.Sound

abbrev Steady (env : Env) (alg : Algorithm) (K : Known) (s : Replica) : Prop :=
  SteadyAt env alg K s s

theorem steady_new (env : Env) (alg : Algorithm) (K : Known) (id : NodeID) (isByz : Bool) :
    Steady env alg K (Replica.new env id isByz) where
  counting := ⟨rfl, Controller.filed_empty _, rfl, Controller.filed_empty _, rfl⟩
  vmos _ _ h := by simp [Replica.new] at h
  takenUp _ _ h := by simp [Replica.new] at h
  blocks _ _ h := by simp [Replica.new] at h
  qcs _ _ h := by simp [Replica.new] at h
  highQC := Or.inl K.qc_initial
  sent _ h := by simp [Replica.new] at h
  votes _ _ _ h := by simp [Replica.new] at h
  built _ _ h := by simp [Replica.new] at h
  sound := LevelledForest.sound_new

theorem addVote_blockID {env : Env} {bc bc' : BlockChain} {v : Vote} {q : QC}
    (h : bc.addVote env v = (some q, bc')) : q.blockID = v.blockID := by
  have hadd : (bc.quorum.add env v).1 = some q := congrArg Prod.fst h
  rw [Quorum.add_eq] at hadd
  split_ifs at hadd
  cases hadd
  rfl

section Steps

variable {env : Env} {alg : Algorithm} {K : Known} {s s' t t' : Replica}

theorem SteadyAt.mono (h : SteadyAt env alg K t s) (ht : Later t t') :
    SteadyAt env alg K t' s where
  counting := h.counting.mono ht.toGrows
  vmos view vmo hv := (h.vmos view vmo hv).imp_right fun hr => hr.mono ht.toGrows
  takenUp := h.takenUp
  blocks := h.blocks
  qcs id q hq := (h.qcs id q hq).imp_right fun hheld => hheld.mono ht.trace
  highQC := h.highQC.mono ht.trace
  sent e he := (h.sent e he).mono ht
  votes := h.votes
  built core q he := (h.built core q he).imp fun _ hv => ⟨hv.1.mono ht, hv.2⟩
  sound := h.sound

theorem SteadyAt.record (h : SteadyAt env alg K t s) {e : Event}
    (hvote : ∀ core b v, e = .vote core b v → v.blockID = b.id)
    (hbuilt : ∀ core q, e = .built core q → ∃ v, ForMe env K t v ∧ v.blockID = q.blockID) :
    SteadyAt env alg K t (s.record e) where
  counting := h.counting
  vmos := h.vmos
  takenUp := h.takenUp
  blocks := h.blocks
  qcs := h.qcs
  highQC := h.highQC
  sent := h.sent
  votes core b v he := (List.mem_cons.mp he).elim (fun heq => hvote core b v heq.symm)
    (h.votes core b v)
  built core q he := (List.mem_cons.mp he).elim (fun heq => hbuilt core q heq.symm)
    (h.built core q)
  sound := h.sound

theorem SteadyAt.push (h : SteadyAt env alg K t s) {dest : Option NodeID} {m : Msg}
    (hm : Sent env alg K t dest m) : SteadyAt env alg K t (s.push dest m) :=
  { h with
    sent := fun e he => (List.mem_append.mp he).elim (h.sent e) fun hnew =>
      List.mem_singleton.mp hnew ▸ hm }

theorem Clerical.steady (h : Clerical env alg K s s') (hs : Steady env alg K s) :
    Steady env alg K s' := by
  have hlater := h.later
  have hseen := hs.mono hlater
  have hsound := (h.forest hs.sound).1
  cases h with
  | raise qc hq =>
    refine { hseen with highQC := ?_ }
    simp only [Replica.raiseHighQC]
    split_ifs
    · rcases hq with hacc | ⟨core, b, -, hk, hqc⟩
      · exact hacc.1
      · exact Or.inl (K.qc_of_block b qc hk hqc)
    · exact hseen.highQC
  | bufferQC qc hq =>
    exact { hseen with qcs := forall_lookup_insert hseen.qcs ⟨rfl, hq.mono hlater.trace⟩ }
  | dropQC id =>
    exact { hseen with qcs := fun i q hl => hseen.qcs i q (lookup_of_lookup_erase hl) }
  | build v qc bc hv hadd =>
    refine SteadyAt.record (s := { s with bc := bc }) { hseen with sound := hsound }
      (fun _ _ _ heq => by cases heq) fun core q heq => ?_
    cases heq
    exact ⟨v, hv.1.mono hlater, (addVote_blockID hadd).symm⟩
  | commit qc head committed forked bc _ _ =>
    exact SteadyAt.record (s := { s with
      bc := bc, committedBlocks := _, forkedBlocks := _ }) { hseen with sound := hsound }
      (fun _ _ _ heq => by cases heq) fun _ _ heq => by cases heq
  | _ => exact { hseen with sound := hsound }

theorem Act.steady (h : Act env alg K s s') (hs : Steady env alg K s) : Steady env alg K s' := by
  have hlater := h.later
  have hseen := hs.mono hlater
  cases h with
  | clerical h => exact h.steady hs
  | handle b _ =>
    exact hseen.record (fun _ _ _ heq => by cases heq) fun _ _ heq => by cases heq
  | vote core b qc v _ made =>
    refine hseen.record (fun _ _ _ heq => ?_) fun _ _ heq => by cases heq
    cases heq
    exact (makeVote_ok made).2.2.1
  | send dest m hm _ => exact hseen.push (hm.mono hlater)
  | buffer b hb he =>
    exact { hseen with blocks := forall_lookup_insert hseen.blocks ⟨rfl, hb, he⟩ }
  | keepVmo vmo hr =>
    exact { hseen with vmos := forall_lookup_insert hseen.vmos ⟨rfl, hr.mono hlater.toGrows⟩ }
  | keepBlock b hb =>
    exact { hseen with takenUp := forall_lookup_insert hseen.takenUp ⟨rfl, hb⟩ }
  | release view =>
    exact { hseen with
      vmos := fun v w hw => hseen.vmos v w (lookup_of_lookup_erase hw)
      takenUp := fun v b hb => hseen.takenUp v b (lookup_of_lookup_erase hb) }
  | start => exact { hseen with counting := hseen.counting.advanceView 0 }
  | leave view _ => exact { hseen with counting := hseen.counting.advanceView view }
  | countTmo tmo hr =>
    have hcounted := hseen.counting.processRemoteTmo (hr.mono hlater.toGrows)
    exact { hseen with counting := hcounted.elim _ }
  | countVmo vmo hr _ =>
    have hcounted := hseen.counting.processRemoteVmo (hr.mono hlater.toGrows)
    exact { hseen with counting := hcounted.elim _ }
  | announce vmo hm _ =>
    have hown : Received K.msg { s.push none (.vmo vmo) with pm := s.pm.countVmo vmo } (.vmo vmo) :=
      Or.inr (by simp [Replica.push])
    have hcounted := hseen.counting.processRemoteVmo hown
    exact { hseen.push (hm.mono hlater) with counting := hcounted.elim _ }

theorem Change.steady (h : Change env alg K s s') (hs : Steady env alg K s) :
    Steady env alg K s' := by
  have hlater := h.later
  have hseen := hs.mono hlater
  cases h with
  | act h => exact h.steady hs
  | unbuffer view =>
    exact { hseen with blocks := fun v b hb => hseen.blocks v b (lookup_of_lookup_erase hb) }
  | broadcast m hm => exact hseen.push (hm.mono hlater)

theorem Steady.act (s s' : Replica) (h : Act env alg K s s') (hs : Steady env alg K s) :
    Steady env alg K s' :=
  h.steady hs

theorem Steady.unbuffer (s : Replica) (view : View) (hs : Steady env alg K s) :
    Steady env alg K { s with bufferedBlocks := s.bufferedBlocks.erase view } :=
  (Change.unbuffer s view).steady hs

theorem Step.steady (h : Step env alg K s s') (hs : Steady env alg K s) :
    Steady env alg K s' := by
  have hseen := hs.mono h.later
  cases h with
  | change h => exact h.steady hs
  | propose b _ =>
    exact hseen.record (fun _ _ _ heq => by cases heq) fun _ _ heq => by cases heq
  | enter view _ => exact { hseen with }
  | crash => exact { hseen with }

theorem Steps.steady (h : ReflTransGen (Step env alg K) s s') (hs : Steady env alg K s) :
    Steady env alg K s' :=
  Stepwise.invariant (fun _ _ hstep => hstep.steady) h hs

/-- An invariant of steady replicas holds along every chain of transitions. -/
theorem Steps.invariant {J : Replica → Prop}
    (hJ : ∀ s s', Step env alg K s s' → Steady env alg K s → J s → J s')
    (h : ReflTransGen (Step env alg K) s s') (hs : Steady env alg K s) (hinit : J s) : J s' :=
  (Stepwise.invariant (J := fun t => Steady env alg K t ∧ J t)
    (fun _ _ hstep ht => ⟨hstep.steady ht.1, hJ _ _ hstep ht.1 ht.2⟩) h ⟨hs, hinit⟩).2

/-! ## Why a view is entered -/

/-- The same views have been entered. -/
structure Pacemaker.SameViews (p p' : Pacemaker) : Prop where
  curView : p'.curView = p.curView
  newViewChan : p'.newViewChan = p.newViewChan

theorem Pacemaker.SameViews.advanceView {p p' : Pacemaker} (h : SameViews p p') (view : View) :
    SameViews (p.advanceView view) (p'.advanceView view) := by
  unfold Pacemaker.advanceView
  rw [h.curView, h.newViewChan]
  split_ifs
  · exact h
  · exact ⟨rfl, rfl⟩

theorem Pacemaker.SameViews.elim {p p' : Pacemaker} (h : SameViews p p') (o : Option View) :
    SameViews p (o.elim p' p'.advanceView) ∨
      ∃ view, o = some view ∧ SameViews (p.advanceView view) (o.elim p' p'.advanceView) := by
  cases o with
  | none => exact Or.inl h
  | some view => exact Or.inr ⟨view, rfl, h.advanceView view⟩

/-- A transition enters at most one view: view 1, or one after a view that there
is a reason to leave. -/
theorem Act.views (h : Act env alg K s s') (hs : Steady env alg K s) :
    s.pm.SameViews s'.pm ∨ ∃ view, (view = 0 ∨ Justified env K.msg s' view) ∧
      (s.pm.advanceView view).SameViews s'.pm := by
  have hgrow := h.later.toGrows
  have hvmo : ∀ vmo, Received K.msg s' (.vmo vmo) →
      env.election.findLeaderFor (vmo.view + 1) = s.id → s'.pm = s.pm.countVmo vmo →
      s.pm.SameViews s'.pm ∨ ∃ view, (view = 0 ∨ Justified env K.msg s' view) ∧
        (s.pm.advanceView view).SameViews s'.pm := by
    intro vmo hr hleader hpm
    rw [hpm]
    have hkeep := Pacemaker.processRemoteVmo_keeps s.pm vmo
    rcases Pacemaker.SameViews.elim ⟨hkeep.1, hkeep.2⟩ (s.pm.processRemoteVmo vmo).1 with
      hsame | ⟨view, hvc, hnext⟩
    · exact Or.inl hsame
    · obtain ⟨rfl, hleft⟩ := (hs.counting.mono hgrow).leftBehind hr hvc
      exact Or.inr ⟨vmo.view, Or.inr (Or.inr (Or.inl ⟨hgrow.id ▸ hleader, hleft⟩)), hnext⟩
  cases h with
  | clerical h =>
    rw [h.apart.pm]
    exact Or.inl ⟨rfl, rfl⟩
  | start => exact Or.inr ⟨0, Or.inl rfl, rfl, rfl⟩
  | leave view hjust => exact Or.inr ⟨view, Or.inr (hjust.mono hgrow), rfl, rfl⟩
  | countTmo tmo hr =>
    have hkeep := Pacemaker.processRemoteTmo_keeps s.pm tmo
    rcases Pacemaker.SameViews.elim ⟨hkeep.1, hkeep.2⟩ (s.pm.processRemoteTmo tmo).1 with
      hsame | ⟨view, htc, hnext⟩
    · exact Or.inl hsame
    · have htimed := (hs.counting.mono hgrow).timedOut (hr.mono hgrow) htc
      exact Or.inr ⟨view, Or.inr (Or.inl htimed), hnext⟩
  | countVmo vmo hr hleader => exact hvmo vmo (hr.mono hgrow) hleader rfl
  | announce vmo _ hleader => exact hvmo vmo (Or.inr (by simp [Replica.push])) hleader rfl
  | _ => exact Or.inl ⟨rfl, rfl⟩

theorem Change.views (h : Change env alg K s s') (hs : Steady env alg K s) :
    s.pm.SameViews s'.pm ∨ ∃ view, (view = 0 ∨ Justified env K.msg s' view) ∧
      (s.pm.advanceView view).SameViews s'.pm := by
  cases h with
  | act h => exact h.views hs
  | _ => exact Or.inl ⟨rfl, rfl⟩

theorem Step.views (h : Step env alg K s s') (hs : Steady env alg K s) :
    s.pm.SameViews s'.pm ∨ ∃ view, (view = 0 ∨ Justified env K.msg s' view) ∧
      (s.pm.advanceView view).SameViews s'.pm := by
  cases h with
  | change h => exact h.views hs
  | _ => exact Or.inl ⟨rfl, rfl⟩

end Steps

end Bamboo
