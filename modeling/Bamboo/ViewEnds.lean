import Bamboo.EarlyBlocks

/-!
# Quorums end views

The converse of the reasons for a view change: once the timeouts of more than two
thirds of the network for a view have reached a replica, the view is over for it,
and so it is for the leader of the next view once the announcements of as many
have. A replica may have left the view before, and then drops such messages.
-/
namespace Bamboo

open Stepwise

/-! ## Controllers -/

namespace Controller

variable {M : Type} {c : Controller M} {cur cur' view w : View} {nodeID i : NodeID} {m : M}

/-- The message's view is over, or its sender has been counted. -/
def Notes (c : Controller M) (cur view : View) (nodeID : NodeID) : Prop :=
  view < cur ∨ nodeID ∈ Threshold.sheet c.timeouts view

/-- Every view that enough senders were counted for is over. -/
def Ended (c : Controller M) (cur : View) : Prop := ∀ view, c.superMajority view → view < cur

theorem Notes.mono (h : c.Notes cur view nodeID) (hle : cur ≤ cur') : c.Notes cur' view nodeID :=
  h.imp_left fun hlt => Int64.lt_of_lt_of_le hlt hle

theorem Ended.mono (h : c.Ended cur) (hle : cur ≤ cur') : c.Ended cur' :=
  fun view hview => Int64.lt_of_lt_of_le (h view hview) hle

theorem sheet_add_self (h : c.superMajority view = false) :
    Threshold.sheet (c.add view nodeID m).2.timeouts view =
      (Threshold.sheet c.timeouts view).insert nodeID m := by
  rw [superMajority_eq, decide_eq_false_iff_not, Nat.not_le] at h
  rw [add_eq_threshold]
  simp [Threshold.add_open h]

theorem Notes.add (h : c.Notes cur w i) (view : View) (nodeID : NodeID) (m : M) :
    (c.add view nodeID m).2.Notes cur w i := by
  refine h.imp_right fun hmem => ?_
  by_cases heq : w = view
  · subst heq
    cases hfull : c.superMajority w with
    | true => simpa [Controller.add, hfull] using hmem
    | false =>
      rw [sheet_add_self hfull, AList.mem_insert]
      exact Or.inr hmem
  · rw [add_eq_threshold]
    rwa [Threshold.sheet_add_ne heq]

theorem superMajority_add_ne (h : w ≠ view) :
    (c.add view nodeID m).2.superMajority w = c.superMajority w := by
  rw [superMajority_eq, add_n, add_eq_threshold, superMajority_eq, Threshold.sheet_add_ne h]

/-- A message that is not late is counted, or it completes a certificate and its
view is left. -/
theorem Ended.add (h : c.Ended cur) (hview : ¬ view < cur) (hle : cur ≤ cur')
    (hleft : ∀ w, (c.add view nodeID m).1 = some w → w < cur') :
    (c.add view nodeID m).2.Ended cur' ∧ (c.add view nodeID m).2.Notes cur' view nodeID := by
  have hopen : c.superMajority view = false := by
    by_contra hfull
    exact hview (h view (Bool.eq_true_of_not_eq_false hfull))
  refine ⟨fun w hw => ?_, Or.inr ?_⟩
  · by_cases heq : w = view
    · subst heq
      exact hleft w (add_eq_some.mpr ⟨rfl, hopen, hw⟩)
    · exact h.mono hle w (superMajority_add_ne heq ▸ hw)
  · rw [sheet_add_self hopen, AList.mem_insert]
    exact Or.inl rfl

end Controller

/-! ## Pacemakers -/

namespace Pacemaker

variable {p : Pacemaker} {env : Env} {view : View}

/-- The view counter has not run over. -/
def Unwrapped (p : Pacemaker) : Prop := Int64.minValue ∉ p.newViewChan

/-- Every view that has a certificate is over. -/
structure Abreast (env : Env) (p : Pacemaker) : Prop where
  tmoSize : p.timeoutController.n = env.n
  vmoSize : p.viewChangeController.n = env.n
  tmos : p.timeoutController.Ended p.curView
  vmos : p.viewChangeController.Ended p.curView

/-- What happens to the pacemaker while its counter does not run over. -/
structure Onward (env : Env) (p p' : Pacemaker) : Prop where
  unwrapped : p.Unwrapped
  abreast : p'.Abreast env
  tmos : ∀ view i, p.timeoutController.Notes p.curView view i →
    p'.timeoutController.Notes p'.curView view i
  vmos : ∀ view i, p.viewChangeController.Notes p.curView view i →
    p'.viewChangeController.Notes p'.curView view i

theorem lt_add_one_of_ne (h : view + 1 ≠ Int64.minValue) : view < view + 1 := by
  have hmax : view < Int64.maxValue := by
    refine Int64.lt_of_le_of_ne (Int64.le_maxValue view) fun heq => h ?_
    rw [heq]
    decide
  have hsucc := toInt_succ hmax
  rw [Int64.lt_iff_toInt_lt]
  omega

theorem Unwrapped.of_advanceView (h : (p.advanceView view).Unwrapped) :
    p.Unwrapped ∧ p.curView ≤ (p.advanceView view).curView ∧
      view < (p.advanceView view).curView := by
  unfold advanceView at h ⊢
  split_ifs at h ⊢ with hlt
  · exact ⟨h, Int64.le_refl _, hlt⟩
  · rw [Unwrapped, List.mem_append, not_or, List.mem_singleton] at h
    have hsucc := lt_add_one_of_ne (Ne.symm h.2)
    exact ⟨h.1, Int64.le_trans (Int64.not_lt.mp hlt) (Int64.le_of_lt hsucc), hsucc⟩

@[simp] theorem advanceView_timeoutController :
    (p.advanceView view).timeoutController = p.timeoutController := by
  unfold advanceView
  split_ifs <;> rfl

@[simp] theorem advanceView_viewChangeController :
    (p.advanceView view).viewChangeController = p.viewChangeController := by
  unfold advanceView
  split_ifs <;> rfl

theorem Abreast.advanceView (h : p.Abreast env) (hwrap : (p.advanceView view).Unwrapped) :
    Onward env p (p.advanceView view) := by
  obtain ⟨hp, hle, -⟩ := hwrap.of_advanceView
  refine ⟨hp, ⟨?_, ?_, ?_, ?_⟩, fun w i hn => ?_, fun w i hn => ?_⟩
  · simpa using h.tmoSize
  · simpa using h.vmoSize
  · simpa using h.tmos.mono hle
  · simpa using h.vmos.mono hle
  · simpa using hn.mono hle
  · simpa using hn.mono hle

/-- A certificate's view, if there is one, is left. -/
theorem Unwrapped.of_elim {o : Option View} (h : (o.elim p p.advanceView).Unwrapped) :
    p.Unwrapped ∧ p.curView ≤ (o.elim p p.advanceView).curView ∧
      ∀ w, o = some w → w < (o.elim p p.advanceView).curView := by
  cases o with
  | none => exact ⟨h, Int64.le_refl _, fun w hw => by cases hw⟩
  | some view =>
    obtain ⟨hp, hle, hlt⟩ := h.of_advanceView
    exact ⟨hp, hle, fun w hw => Option.some.inj hw ▸ hlt⟩

theorem elim_controllers (o : Option View) :
    (o.elim p p.advanceView).timeoutController = p.timeoutController ∧
      (o.elim p p.advanceView).viewChangeController = p.viewChangeController := by
  cases o <;> simp

theorem Unwrapped.of_countTmo {tmo : TMO} (h : (p.countTmo tmo).Unwrapped) : p.Unwrapped := by
  have hbefore := h.of_elim.1
  rwa [Unwrapped, (processRemoteTmo_keeps p tmo).2] at hbefore

theorem Unwrapped.of_countVmo {vmo : VMO} (h : (p.countVmo vmo).Unwrapped) : p.Unwrapped := by
  have hbefore := h.of_elim.1
  rwa [Unwrapped, (processRemoteVmo_keeps p vmo).2] at hbefore

/-- A timeout is counted, or its view is over. -/
theorem Abreast.countTmo (h : p.Abreast env) (tmo : TMO) (hwrap : (p.countTmo tmo).Unwrapped) :
    Onward env p (p.countTmo tmo) ∧
      (p.countTmo tmo).timeoutController.Notes (p.countTmo tmo).curView tmo.view tmo.nodeID := by
  unfold Pacemaker.countTmo Pacemaker.processRemoteTmo at hwrap ⊢
  split_ifs at hwrap ⊢ with hlate
  · exact ⟨⟨hwrap, h, fun _ _ hn => hn, fun _ _ hn => hn⟩, Or.inl hlate⟩
  · obtain ⟨hp, hle, hleft⟩ := hwrap.of_elim
    obtain ⟨hended, hnoted⟩ := h.tmos.add hlate hle hleft
    obtain ⟨htmo, hvmo⟩ := elim_controllers (p := { p with
      timeoutController := (addTmo p.timeoutController tmo).2 }) (addTmo p.timeoutController tmo).1
    refine ⟨⟨hp, ⟨?_, ?_, ?_, ?_⟩, fun w i hn => ?_, fun w i hn => ?_⟩, ?_⟩
    · rw [htmo]
      exact (Controller.add_n _ _ _ _).trans h.tmoSize
    · rw [hvmo]
      exact h.vmoSize
    · rw [htmo]
      exact hended
    · rw [hvmo]
      exact h.vmos.mono hle
    · rw [htmo]
      exact (hn.mono hle).add _ _ _
    · rw [hvmo]
      exact hn.mono hle
    · rw [htmo]
      exact hnoted

/-- An announcement is counted, or its view is over. -/
theorem Abreast.countVmo (h : p.Abreast env) (vmo : VMO) (hwrap : (p.countVmo vmo).Unwrapped) :
    Onward env p (p.countVmo vmo) ∧
      (p.countVmo vmo).viewChangeController.Notes (p.countVmo vmo).curView vmo.view vmo.nodeID := by
  unfold Pacemaker.countVmo Pacemaker.processRemoteVmo at hwrap ⊢
  split_ifs at hwrap ⊢ with hlate
  · exact ⟨⟨hwrap, h, fun _ _ hn => hn, fun _ _ hn => hn⟩, Or.inl hlate⟩
  · obtain ⟨hp, hle, hleft⟩ := hwrap.of_elim
    obtain ⟨hended, hnoted⟩ := h.vmos.add hlate hle hleft
    obtain ⟨htmo, hvmo⟩ := elim_controllers (p := { p with
      viewChangeController := (addVmo p.viewChangeController vmo).2 })
      (addVmo p.viewChangeController vmo).1
    refine ⟨⟨hp, ⟨?_, ?_, ?_, ?_⟩, fun w i hn => ?_, fun w i hn => ?_⟩, ?_⟩
    · rw [htmo]
      exact h.tmoSize
    · rw [hvmo]
      exact (Controller.add_n _ _ _ _).trans h.vmoSize
    · rw [htmo]
      exact h.tmos.mono hle
    · rw [hvmo]
      exact hended
    · rw [htmo]
      exact hn.mono hle
    · rw [hvmo]
      exact (hn.mono hle).add _ _ _
    · rw [hvmo]
      exact hnoted

end Pacemaker

/-! ## Replicas -/

/-- The message has been dealt with: a timeout by anyone, an announcement by the
leader of the next view. -/
def Noted (env : Env) (s : Replica) : Msg → Prop
  | .tmo t => s.pm.timeoutController.Notes s.pm.curView t.view t.nodeID
  | .vmo v => env.election.findLeaderFor (v.view + 1) = s.id →
      s.pm.viewChangeController.Notes s.pm.curView v.view v.nodeID
  | _ => True

/-- All that was received has been dealt with, except for `X`. -/
structure Attentive (env : Env) (D X : Msg → Prop) (s : Replica) : Prop where
  abreast : s.pm.Abreast env
  noted : ∀ m, Received D s m → Noted env s m ∨ X m

/-- The same unless the view counter has run over. -/
def Attends (env : Env) (D X : Msg → Prop) (s : Replica) : Prop :=
  s.pm.Unwrapped → Attentive env D X s

section Replicas

variable {env : Env} {alg : Algorithm} {D X : Msg → Prop} {K : Known} {s s' : Replica}

theorem Noted.onward (h : Pacemaker.Onward env s.pm s'.pm) (hid : s'.id = s.id) {m : Msg}
    (hm : Noted env s m) : Noted env s' m := by
  cases m with
  | tmo t => exact h.tmos _ _ hm
  | vmo v => exact fun hleader => h.vmos _ _ (hm (hid ▸ hleader))
  | block b => trivial
  | vote v => trivial

theorem Attentive.onward (hs : Attentive env D X s) (h : Pacemaker.Onward env s.pm s'.pm)
    (hid : s'.id = s.id)
    (hout : ∀ m, ⟨none, m⟩ ∈ s'.outbox → ⟨none, m⟩ ∈ s.outbox ∨ Noted env s' m) :
    Attentive env D X s' := by
  refine ⟨h.abreast, fun m hm => ?_⟩
  rcases hm with hm | hm
  · exact (hs.noted m (Or.inl hm)).imp_left (Noted.onward h hid)
  · rcases hout m hm with hold | hnew
    · exact (hs.noted m (Or.inr hold)).imp_left (Noted.onward h hid)
    · exact Or.inl hnew

theorem Pacemaker.Abreast.onward_refl {p : Pacemaker} (h : p.Abreast env) (hwrap : p.Unwrapped) :
    Pacemaker.Onward env p p :=
  ⟨hwrap, h, fun _ _ hn => hn, fun _ _ hn => hn⟩

theorem Attends.of_same (hs : Attends env D X s) (hid : s'.id = s.id) (hpm : s'.pm = s.pm)
    (hout : s'.outbox = s.outbox) : Attends env D X s' := by
  intro hwrap
  rw [hpm] at hwrap
  have hat := hs hwrap
  refine hat.onward ?_ hid fun m hm => Or.inl (hout ▸ hm)
  rw [hpm]
  exact hat.abreast.onward_refl hwrap

theorem Act.attends (h : Act env alg K s s') (hs : Attends env D X s) : Attends env D X s' := by
  have hleave : ∀ view, Attends env D X { s with pm := s.pm.advanceView view } := by
    intro view hwrap
    have hat := hs hwrap.of_advanceView.1
    exact hat.onward (hat.abreast.advanceView hwrap) rfl fun m hm => Or.inl hm
  cases h with
  | clerical h => exact hs.of_same h.apart.id h.apart.pm h.apart.outbox
  | send dest m h huncounted =>
    intro hwrap
    have hat := hs hwrap
    refine hat.onward (hat.abreast.onward_refl hwrap) rfl fun m' hm' => ?_
    rcases List.mem_append.mp hm' with hold | hnew
    · exact Or.inl hold
    · cases List.mem_singleton.mp hnew
      refine Or.inr ?_
      have hquiet := huncounted rfl
      cases m with
      | tmo t => exact hquiet.elim
      | vmo v => exact fun hleader => absurd hleader hquiet
      | block b => trivial
      | vote v => trivial
  | start => exact hleave 0
  | leave view => exact hleave view
  | countTmo tmo =>
    intro hwrap
    have hat := hs (Pacemaker.Unwrapped.of_countTmo hwrap)
    exact hat.onward (hat.abreast.countTmo tmo hwrap).1 rfl fun m hm => Or.inl hm
  | countVmo vmo =>
    intro hwrap
    have hat := hs (Pacemaker.Unwrapped.of_countVmo hwrap)
    exact hat.onward (hat.abreast.countVmo vmo hwrap).1 rfl fun m hm => Or.inl hm
  | announce vmo =>
    intro hwrap
    have hat := hs (Pacemaker.Unwrapped.of_countVmo hwrap)
    obtain ⟨honward, hnoted⟩ := hat.abreast.countVmo vmo hwrap
    refine hat.onward honward rfl fun m hm => ?_
    rcases List.mem_append.mp hm with hold | hnew
    · exact Or.inl hold
    · cases List.mem_singleton.mp hnew
      exact Or.inr fun _ => hnoted
  | _ => exact hs.of_same rfl rfl rfl

/-- With one more message dealt with, nothing is left. -/
theorem Attentive.done {x : Msg} (h : Attentive env D (fun m => m = x) s) (hx : Noted env s x) :
    Attentive env D (fun _ => False) s :=
  ⟨h.abreast, fun m hm => Or.inl ((h.noted m hm).elim id fun heq => heq ▸ hx)⟩

theorem attends_countTmo {tmo : TMO} (h : Attends env D (fun m => m = .tmo tmo) s) :
    Attends env D (fun _ => False) { s with pm := s.pm.countTmo tmo } := by
  intro hwrap
  have hat := h (Pacemaker.Unwrapped.of_countTmo hwrap)
  obtain ⟨honward, hnoted⟩ := hat.abreast.countTmo tmo hwrap
  have hnext : Attentive env D (fun m => m = .tmo tmo) { s with pm := s.pm.countTmo tmo } :=
    hat.onward honward rfl fun m hm => Or.inl hm
  exact hnext.done hnoted

theorem attends_countVmo {vmo : VMO} (h : Attends env D (fun m => m = .vmo vmo) s) :
    Attends env D (fun _ => False) { s with pm := s.pm.countVmo vmo } := by
  intro hwrap
  have hat := h (Pacemaker.Unwrapped.of_countVmo hwrap)
  obtain ⟨honward, hnoted⟩ := hat.abreast.countVmo vmo hwrap
  have hnext : Attentive env D (fun m => m = .vmo vmo) { s with pm := s.pm.countVmo vmo } :=
    hat.onward honward rfl fun m hm => Or.inl hm
  exact hnext.done fun _ => hnoted

/-- A timeout of its own is left to be counted. -/
theorem Attends.push_tmo (h : Attends env D (fun _ => False) s) (tmo : TMO) :
    Attends env D (fun m => m = .tmo tmo) (s.push none (.tmo tmo)) := by
  intro hwrap
  have hat := h hwrap
  refine ⟨hat.abreast, fun m hm => ?_⟩
  rcases hm with hm | hm
  · exact Or.inl ((hat.noted m (Or.inl hm)).resolve_right id)
  · rcases List.mem_append.mp hm with hold | hnew
    · exact Or.inl ((hat.noted m (Or.inr hold)).resolve_right id)
    · cases List.mem_singleton.mp hnew
      exact Or.inr rfl

/-! ## Handlers -/

/-- Any message may arrive. -/
def Watchful (env : Env) (alg : Algorithm) (D X : Msg → Prop) (s : Replica) : Prop :=
  Attends env D X s ∧ Steady env alg Known.anything s

theorem Watchful.steady (s : Replica) (hs : Watchful env alg D X s) :
    Steady env alg Known.anything s :=
  hs.2

theorem Act.watchful (s s' : Replica) (h : Act env alg Known.anything s s')
    (hs : Watchful env alg D X s) : Watchful env alg D X s' :=
  ⟨h.attends hs.1, h.steady hs.2⟩

theorem watchful_unbuffer (s : Replica) (view : View) (hs : Watchful env alg D X s) :
    Watchful env alg D X { s with bufferedBlocks := s.bufferedBlocks.erase view } :=
  ⟨hs.1.of_same rfl rfl rfl, (Change.unbuffer s view).steady hs.2⟩

theorem processRemoteTmo_watchful (tmo : TMO) :
    Leads (Change env alg Known.anything) (Watchful env alg D fun m => m = .tmo tmo)
      (Safety.processRemoteTmo env alg tmo) fun _ => Watchful env alg D fun _ => False := by
  refine Leads.start fun s hs => ?_
  have htmo : Leads (Act env alg Known.anything) (fun t => t = s)
      (Safety.processRemoteTmo env alg tmo) _ :=
    processRemoteTmo_leads (Or.inl trivial) fun _ _ => Or.inl trivial
  exact (Minds.act_at (fun _ _ ha => ha.steady) hs.2 htmo).post fun _ t ht =>
    ⟨(attends_countTmo hs.1).of_same ht.2.id ht.2.pm ht.2.outbox, ht.1⟩

theorem processLocalTmo_watchful (view : View) :
    Minds env alg Known.anything (Watchful env alg D fun _ => False)
      (Safety.processLocalTmo env alg view) := by
  refine Leads.start fun s hs => ?_
  have htmo := (processLocalTmo_leads hs.2.highQC view).carry (fun _ _ hm => hm.steady)
    fun t (ht : t = s) => ⟨ht, ht ▸ hs.2⟩
  exact htmo.post fun _ t ht =>
    ⟨(attends_countTmo (hs.1.push_tmo _)).of_same ht.1.id ht.1.pm ht.1.outbox, ht.2⟩

/-- An announcement is counted by the leader of the next view. -/
theorem processRemoteVmo_watchful (fuel : ℕ) (vmo : VMO) :
    Leads (Change env alg Known.anything) (Watchful env alg D fun m => m = .vmo vmo)
      (Safety.processRemoteVmo env alg fuel vmo) fun _ => Watchful env alg D fun _ => False := by
  refine Leads.start fun s hs => ?_
  by_cases hleader : env.election.findLeaderFor (vmo.view + 1) = s.id
  · cases fuel with
    | zero => exact Leads.throw
    | succ fuel =>
      have hact : Act env alg Known.anything s { s with pm := s.pm.countVmo vmo } :=
        .countVmo s vmo (Or.inl trivial) hleader
      refine Leads.of_run (f := fun t => { t with pm := t.pm.countVmo vmo }) (fun t ht => ?_)
        fun t ht => ?_
      · subst ht
        exact processRemoteVmo_run hleader fuel
      · subst ht
        exact ⟨.act hact, attends_countVmo hs.1, hact.steady hs.2⟩
  · refine (processRemoteVmo_minds Watchful.steady Act.watchful
      (takeUpBuffered_processBlock_minds Watchful.steady Act.watchful watchful_unbuffer fuel)
      (rules_lead env alg _) fuel vmo).at_start ⟨⟨fun hwrap => ?_, hs.2⟩, Or.inl trivial⟩
    exact (hs.1 hwrap).done fun h => absurd h hleader

/-- What was dealt with before stays so. -/
theorem handleInput_watchful_rest (fuel : ℕ) {i : Input} (h : ∀ payload, i ≠ .newView payload) :
    Minds env alg Known.anything (Watchful env alg D fun _ => False) (handleInput env alg fuel i) :=
  handleInput_minds Watchful.steady Act.watchful (.anything i) h
    (takeUpBuffered_processBlock_minds Watchful.steady Act.watchful watchful_unbuffer fuel)
    (fun _ hs => hs)
    (fun _ _ => (processBlock_minds Watchful.steady Act.watchful watchful_unbuffer fuel trivial).pre
      fun _ hs => ⟨hs, Or.inl trivial⟩) processLocalTmo_watchful

/-! ## Runs -/

theorem Attends.more {D' : Msg → Prop} (h : Attends env D (fun _ => False) s)
    (hD : ∀ m, D' m → D m ∨ X m) : Attends env D' X s := by
  refine fun hwrap => ⟨(h hwrap).abreast, fun m hm => ?_⟩
  rcases hm with hm | hm
  · rcases hD m hm with hold | hnew
    · exact Or.inl (((h hwrap).noted m (Or.inl hold)).resolve_right id)
    · exact Or.inr hnew
  · exact Or.inl (((h hwrap).noted m (Or.inr hm)).resolve_right id)

/-- One message after the other is dealt with. -/
theorem handleDelivery_watchful (fuel : ℕ) (m : Msg) :
    Leads (Change env alg Known.anything) (Watchful env alg D fun m' => m' = m)
      (handleInput env alg fuel (.deliver m)) fun _ => Watchful env alg D fun _ => False := by
  cases m with
  | block b =>
    exact (handleInput_watchful_rest fuel (by simp)).pre fun s hs =>
      ⟨fun hwrap => (hs.1 hwrap).done trivial, hs.2⟩
  | vote v =>
    exact (handleInput_watchful_rest fuel (by simp)).pre fun s hs =>
      ⟨fun hwrap => (hs.1 hwrap).done trivial, hs.2⟩
  | tmo t => exact processRemoteTmo_watchful t
  | vmo v => exact processRemoteVmo_watchful fuel v

theorem attends_new (env : Env) (id : NodeID) (isByz : Bool) :
    Attends env (deliveredIn []) (fun _ => False) (Replica.new env id isByz) := by
  have hnone : ∀ (M : Type) (cur : View), (⟨env.n, ∅⟩ : Controller M).Ended cur := by
    intro M cur view hfull
    simp [Controller.superMajority, Controller.total] at hfull
  refine fun _ => ⟨⟨rfl, rfl, hnone _ _, hnone _ _⟩, fun m hm => ?_⟩
  rcases hm with ⟨fuel, hm⟩ | hm
  · simp at hm
  · simp [Replica.new] at hm

theorem deliveredIn_snoc {inputs : List (Input × ℕ)} {i : Input × ℕ} {m : Msg}
    (h : deliveredIn (inputs ++ [i]) m) : deliveredIn inputs m ∨ i.1 = .deliver m := by
  obtain ⟨fuel, hm⟩ := h
  rcases List.mem_append.mp hm with hold | hnew
  · exact Or.inl ⟨fuel, hold⟩
  · rw [← List.mem_singleton.mp hnew]
    exact Or.inr rfl

theorem handleInput_watchful (inputs : List (Input × ℕ)) (i : Input × ℕ) :
    Leads (Step env alg Known.anything) (Watchful env alg (deliveredIn inputs) fun _ => False)
      (handleInput env alg i.2 i.1)
      fun _ => Watchful env alg (deliveredIn (inputs ++ [i])) fun _ => False := by
  obtain ⟨i, fuel⟩ := i
  have hmore : ∀ s, Attends env (deliveredIn inputs) (fun _ => False) s →
      Attends env (deliveredIn (inputs ++ [(i, fuel)])) (fun m => i = .deliver m) s :=
    fun s hs => hs.more fun m hm => deliveredIn_snoc hm
  have hsame : (∀ m, i ≠ .deliver m) → ∀ s,
      Watchful env alg (deliveredIn inputs) (fun _ => False) s →
      Watchful env alg (deliveredIn (inputs ++ [(i, fuel)])) (fun _ => False) s :=
    fun hne s hs => ⟨fun hwrap => ⟨(hmore s hs.1 hwrap).abreast, fun m hm =>
      Or.inl (((hmore s hs.1 hwrap).noted m hm).resolve_right (hne m))⟩, hs.2⟩
  cases i with
  | deliver m =>
    refine ((handleDelivery_watchful fuel m).rel fun _ _ => .change).pre fun s hs =>
      ⟨fun hwrap => ⟨(hmore s hs.1 hwrap).abreast, fun m' hm' => ?_⟩, hs.2⟩
    exact ((hmore s hs.1 hwrap).noted m' hm').imp_right fun h => (Input.deliver.inj h).symm
  | newView payload =>
    refine (processNewView_leads (fun s _ => Act.watchful s _)
      (fun s s' hstep hpm hout _ hs => ?_) payload).pre (hsame (by simp))
    exact ⟨hs.1.of_same hstep.later.id hpm hout, hstep.steady hs.2⟩
  | txn =>
    exact ((handleInput_watchful_rest fuel (by simp)).rel fun _ _ => .change).pre
      (hsame (by simp))
  | timeout =>
    exact ((handleInput_watchful_rest fuel (by simp)).rel fun _ _ => .change).pre
      (hsame (by simp))

theorem run_watchful (env : Env) (alg : Algorithm) (id : NodeID) (isByz : Bool)
    (inputs : List (Input × ℕ))
    (hup : ((Replica.new env id isByz).run env alg inputs).crashed = false) :
    Watchful env alg (deliveredIn inputs) (fun _ => False)
      ((Replica.new env id isByz).run env alg inputs) := by
  induction inputs using List.reverseRecOn with
  | nil => exact ⟨attends_new env id isByz, steady_new env alg _ id isByz⟩
  | append_singleton inputs i ih =>
    rw [Replica.run_append] at hup ⊢
    exact Replica.step_leads (handleInput_watchful inputs i) (ih (Replica.crashed_of_step hup)) hup

theorem Replica.run_id (env : Env) (alg : Algorithm) (id : NodeID) (isByz : Bool)
    (inputs : List (Input × ℕ)) : ((Replica.new env id isByz).run env alg inputs).id = id :=
  (Steps.later (Replica.new_steps env alg id isByz inputs [])).id

/-! ## The views that are over -/

/-- Senders who have all been counted, unless the view is over. -/
theorem Controller.Ended.of_senders {M : Type} {c : Controller M} {cur view : View}
    (h : c.Ended cur) {senders : Finset NodeID} (hcard : 2 * c.n < 3 * senders.card)
    (hall : ∀ i ∈ senders, c.Notes cur view i) : view < cur := by
  by_contra hnot
  have hsub : senders ⊆ (Threshold.sheet c.timeouts view).keys.toFinset := by
    intro i hi
    rw [List.mem_toFinset, ← AList.mem_keys]
    exact (hall i hi).resolve_left hnot
  have hle := Finset.card_le_card hsub
  rw [List.toFinset_card_of_nodup (AList.keys_nodup _), AList.keys, List.keys,
    List.length_map] at hle
  refine hnot (h view ?_)
  rw [superMajority_eq, decide_eq_true_eq]
  omega

theorem Attentive.view_lt (h : Attentive env D (fun _ => False) s) {view : View}
    (hquorum : TimedOut env D s view ∨
      env.election.findLeaderFor (view + 1) = s.id ∧ LeftBehind env D s view) :
    view < s.pm.curView := by
  rcases hquorum with ⟨senders, hcard, hall⟩ | ⟨hleader, senders, hcard, hall⟩
  · refine h.abreast.tmos.of_senders (by rwa [h.abreast.tmoSize]) fun i hi => ?_
    obtain ⟨tmo, hr, rfl, rfl⟩ := hall i hi
    exact (h.noted _ hr).resolve_right id
  · refine h.abreast.vmos.of_senders (by rwa [h.abreast.vmoSize]) fun i hi => ?_
    obtain ⟨vmo, hr, rfl, rfl⟩ := hall i hi
    exact (h.noted _ hr).resolve_right id hleader

end Replicas

/-- A replica that has not crashed, and whose views have not wrapped around, is past every
view for which timeouts in the names of more than two thirds of the network have reached
it, its own included, and past every view before one that it leads for which as many
announcements have. -/
theorem quorum_ends_view (env : Env) (alg : Algorithm) (id : NodeID) (isByz : Bool)
    (inputs : List (Input × ℕ)) (view : View)
    (hup : ((Replica.new env id isByz).run env alg inputs).crashed = false)
    (hwrap : Int64.minValue ∉ ((Replica.new env id isByz).run env alg inputs).pm.newViewChan)
    (hquorum : TimedOut env (deliveredIn inputs)
        ((Replica.new env id isByz).run env alg inputs) view ∨
      env.election.findLeaderFor (view + 1) = id ∧ LeftBehind env (deliveredIn inputs)
        ((Replica.new env id isByz).run env alg inputs) view) :
    view < ((Replica.new env id isByz).run env alg inputs).pm.curView := by
  refine ((run_watchful env alg id isByz inputs hup).1 hwrap).view_lt ?_
  rwa [Replica.run_id]

/-- Node 1 takes up the first block, times out and hears of two other timeouts. -/
def fourNodes.twoTimeouts : List (Input × ℕ) :=
  [(.deliver (.block (fourNodes.chain 0)), 8), (.timeout, 0),
    (.deliver (.tmo ⟨1, "2", some QC.initial⟩), 0), (.deliver (.tmo ⟨1, "3", some QC.initial⟩), 0)]

theorem quorum_ends_view_twoTimeouts :
    1 < ((Replica.new fourNodes "1" false).run fourNodes .hotStuff
      fourNodes.twoTimeouts).pm.curView := by
  refine quorum_ends_view fourNodes .hotStuff "1" false fourNodes.twoTimeouts 1 (by decide +kernel)
    (by decide +kernel) (Or.inl ⟨{"1", "2", "3"}, by decide, fun i hi => ?_⟩)
  simp only [Finset.mem_insert, Finset.mem_singleton] at hi
  rcases hi with rfl | rfl | rfl
  · exact ⟨⟨1, "1", some QC.initial⟩, Or.inr (by decide +kernel), rfl, rfl⟩
  · exact ⟨⟨1, "2", some QC.initial⟩, Or.inl ⟨0, by decide +kernel⟩, rfl, rfl⟩
  · exact ⟨⟨1, "3", some QC.initial⟩, Or.inl ⟨0, by decide +kernel⟩, rfl, rfl⟩

end Bamboo
