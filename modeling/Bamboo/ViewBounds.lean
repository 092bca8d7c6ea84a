import Bamboo.Ledger

/-!
# Views along a run

What the transitions add up to over a whole run: every view that is entered is
entered for a reason, and nothing that HotStuff stores, locks on or prunes to is
ahead of the current view.
-/
namespace Bamboo

open Relation Stepwise

/-! ## Why a view is entered -/

section Steps

variable {env : Env} {alg : Algorithm} {K : Known} {s s' : Replica}

theorem Pacemaker.mem_advanceView {p : Pacemaker} {view v : View}
    (h : v ∈ (p.advanceView view).newViewChan) : v ∈ p.newViewChan ∨ v = view + 1 := by
  unfold Pacemaker.advanceView at h
  split_ifs at h
  · exact Or.inl h
  · simpa using h

/-- Every view but the first one was entered for a reason. -/
def AllJustified (env : Env) (K : Msg → Prop) (s : Replica) : Prop :=
  ∀ v ∈ s.pm.newViewChan, v = 1 ∨ ∃ w, v = w + 1 ∧ Justified env K s w

theorem Step.allJustified (h : Step env alg K s s') (hst : Steady env alg K s)
    (hs : AllJustified env K.msg s) : AllJustified env K.msg s' := by
  have hold : ∀ v ∈ s.pm.newViewChan, v = 1 ∨ ∃ w, v = w + 1 ∧ Justified env K.msg s' w := by
    intro v hv
    rcases hs v hv with hone | ⟨w, hw, hjust⟩
    · exact Or.inl hone
    · exact Or.inr ⟨w, hw, hjust.mono h.later.toGrows⟩
  intro v hv
  rcases h.views hst with hsame | ⟨view, hwhy, hnext⟩
  · exact hold v (hsame.newViewChan ▸ hv)
  · rw [hnext.newViewChan] at hv
    rcases Pacemaker.mem_advanceView hv with hv | rfl
    · exact hold v hv
    · rcases hwhy with rfl | hjust
      · exact Or.inl (by simp)
      · exact Or.inr ⟨view, rfl, hjust⟩

end Steps

theorem Replica.after_allJustified (env : Env) (alg : Algorithm) (id : NodeID) (isByz : Bool)
    (inputs : List (Input × ℕ)) :
    AllJustified env (deliveredIn inputs) (Replica.after env alg id isByz inputs) := by
  have hsteps := Replica.new_steps env alg id isByz inputs []
  rw [List.append_nil] at hsteps
  refine Steps.invariant (J := AllJustified env (deliveredIn inputs))
    (fun _ _ hstep hst hs => hstep.allJustified hst hs) hsteps (steady_new ..) ?_
  intro v hv
  simp [Replica.new, Pacemaker.new] at hv

/-- One more input enters the views of a list, in this order, and each of them
above view 1 for a reason. -/
theorem view_changes_justified (env : Env) (id : NodeID) (isByz : Bool)
    (inputs : List (Input × ℕ)) (i : Input × ℕ) :
    ∃ entered : List View,
      (HotStuff.after env id isByz (inputs ++ [i])).pm.newViewChan =
        (HotStuff.after env id isByz inputs).pm.newViewChan ++ entered ∧
      (HotStuff.after env id isByz (inputs ++ [i])).pm.curView =
        entered.getLast?.getD (HotStuff.after env id isByz inputs).pm.curView ∧
      ∀ w, 1 ≤ w → w + 1 ∈ entered → Justified env (deliveredIn (inputs ++ [i]))
        (HotStuff.after env id isByz (inputs ++ [i])) w := by
  obtain ⟨entered, hchan⟩ :=
    (Steps.later (Replica.after_steps env .hotStuff id isByz inputs [i])).newViewChan
  refine ⟨entered, hchan.symm, ?_, fun w hw hmem => ?_⟩
  · have hbefore := (Replica.after_steady env .hotStuff id isByz inputs []).counting.current
    have hafter := (Replica.after_steady env .hotStuff id isByz (inputs ++ [i]) []).counting.current
    change (Replica.after env .hotStuff id isByz (inputs ++ [i])).pm.curView =
      entered.getLast?.getD (Replica.after env .hotStuff id isByz inputs).pm.curView
    rw [← hafter, ← hbefore, ← hchan, List.getLast?_append]
    cases entered.getLast? <;> simp
  · have hall := Replica.after_allJustified env .hotStuff id isByz (inputs ++ [i]) (w + 1)
      (by rw [← hchan]; exact List.mem_append_right _ hmem)
    rcases hall with hone | ⟨w', hview, hjust⟩
    · have hzero : w = 0 := (Int64.add_left_inj 1).mp (by rw [hone]; rfl)
      rw [hzero] at hw
      exact absurd hw (by decide)
    · rwa [(Int64.add_left_inj 1).mp hview]

/-- Three nodes time out of view 3, and the replica goes straight to view 4. -/
example : (HotStuff.after fourNodes "1" false (fourNodes.timeouts 3)).pm.newViewChan = [4] := by
  decide +kernel

/-! ## Nothing is ahead of the current view -/

/-- What is stored, locked on, pruned to or committed is of a view that was
passed by then. -/
structure Bounded (s : Replica) : Prop where
  stored : ∀ id p, s.bc.forrest.getVertex id = some p → Passed s.pm p.view
  lock : Passed s.pm s.preferredView
  lowestLevel : s.bc.forrest.lowestLevel = 0 ∨
    ∃ view, 1 ≤ view ∧ Passed s.pm view ∧ s.bc.forrest.lowestLevel = view.toUInt64
  commits : ∀ core qc head committed, Event.commit core qc head committed ∈ s.trace →
    ∀ b ∈ committed, Passed core.pm b.view

theorem bounded_new (env : Env) (id : NodeID) (isByz : Bool) :
    Bounded (Replica.new env id isByz) where
  stored d p hp := by
    simp [Replica.new, BlockChain.new, LevelledForest.new, LevelledForest.getVertex] at hp
  lock := ⟨0, List.mem_cons_self, Int64.le_refl 0⟩
  lowestLevel := Or.inl rfl
  commits _ _ _ _ h := by cases h

/-- The last of three consecutive views is at least 3, so the first is at least 1. -/
theorem one_le_of_consecutive {a b c : View} (hab : a + 1 = b) (hbc : b + 1 = c)
    (hc : ¬ c < 3) : 1 ≤ a := by
  have hthree : (3 : View).toInt = 3 := rfl
  have htwo : (2 : View).toInt = 2 := rfl
  have hone : (1 : View).toInt = 1 := rfl
  have hle := Int64.le_iff_toInt_le.mp (Int64.not_lt.mp hc)
  have hb : (b + 1).toInt = b.toInt + 1 := toInt_add_one (by
    rw [hbc, Int64.le_iff_toInt_le]
    omega)
  rw [hbc] at hb
  have ha : (a + 1).toInt = a.toInt + 1 := toInt_add_one (by
    rw [hab, Int64.le_iff_toInt_le]
    omega)
  rw [hab] at ha
  rw [Int64.le_iff_toInt_le]
  omega

/-- The walk of `CommitBlock` visits the block and stored blocks only. -/
theorem committedPath_stored {f : LevelledForest} {fuel : ℕ} {block : Block}
    {path : List Block} (h : BlockChain.committedPath f fuel block = .ok path) :
    ∀ x ∈ path, x = block ∨ ∃ id, f.getVertex id = some x := by
  induction fuel generalizing block path with
  | zero => cases h
  | succ fuel ih =>
    intro x hx
    rcases BlockChain.committedPath_ok h with
      ⟨-, rfl⟩ | ⟨-, rest, rfl, ⟨-, rfl⟩ | ⟨p, hp, hrest⟩⟩
    · cases hx
    · exact Or.inl (List.mem_singleton.mp hx)
    · rcases List.mem_cons.mp hx with rfl | hx
      · exact Or.inl rfl
      · rcases ih hrest x hx with rfl | hstored
        · exact Or.inr ⟨_, hp⟩
        · exact Or.inr hstored

section Steps

variable {env : Env} {K : Known} {s s' : Replica}

theorem Bounded.frame (hs : Bounded s) (hgrow : Grows s s')
    (hforest : s'.bc.forrest = s.bc.forrest) (hlock : s'.preferredView = s.preferredView)
    (htrace : ∀ e ∈ s'.trace, e ∈ s.trace ∨ e.commits = none) : Bounded s' where
  stored d p hp := (hs.stored d p (hforest ▸ hp)).mono hgrow
  lock := by
    rw [hlock]
    exact hs.lock.mono hgrow
  lowestLevel := by
    rw [hforest]
    refine hs.lowestLevel.imp_right fun ⟨view, hone, hpassed, hlow⟩ => ?_
    exact ⟨view, hone, hpassed.mono hgrow, hlow⟩
  commits core qc head committed he := by
    rcases htrace _ he with hold | hnone
    · exact hs.commits core qc head committed hold
    · cases hnone

theorem Clerical.bounded (h : Clerical env .hotStuff K s s') (hsound : s.bc.forrest.Sound)
    (hs : Bounded s) : Bounded s' := by
  have hgrow := h.later.toGrows
  cases h with
  | store core b bc _ hpassed _ hadd =>
    obtain ⟨f, hf, rfl⟩ := BlockChain.addBlock_ok hadd
    obtain ⟨-, hlow, hget⟩ := LevelledForest.addVertex_spec hsound hf
    refine ⟨fun d p hp => ?_, hs.lock, ?_, hs.commits⟩
    · rw [hget] at hp
      split_ifs at hp
      · obtain rfl := Option.some.inj hp
        exact hpassed
      · exact hs.stored d p hp
    · show f.lowestLevel = 0 ∨ _
      rw [hlow]
      exact hs.lowestLevel
  | lock qc view _ target =>
    obtain ⟨p, hparent, rfl⟩ := target
    obtain ⟨b, -, hp⟩ := BlockChain.getParentBlock_ok hparent
    refine ⟨hs.stored, ?_, hs.lowestLevel, hs.commits⟩
    simp only [Replica.raiseLock]
    split_ifs
    · exact hs.stored _ p hp
    · exact hs.lock
  | tally v bc _ hadd =>
    have hforest : bc.forrest = s.bc.forrest := by rw [(addVote_eq hadd).2]
    exact hs.frame hgrow hforest rfl fun _ he => Or.inl he
  | build v qc bc _ hadd =>
    have hforest : bc.forrest = s.bc.forrest := by rw [(addVote_eq hadd).2]
    exact hs.frame hgrow hforest rfl fun e he => (List.mem_cons.mp he).elim
      (fun heq => Or.inr (heq ▸ rfl)) Or.inl
  | commit qc head committed forked bc hguard hdone =>
    obtain ⟨-, hview, hrule⟩ := hguard
    obtain ⟨p, b, -, -, hhead, -, -, -, hgp, hpq⟩ := commitRule_some hsound hrule
    have hforgets := (BlockChain.commitBlock_forgets hdone).1
    refine ⟨fun d x hx => hs.stored d x (hforgets.getVertex hx), hs.lock, Or.inr ?_, ?_⟩
    · rcases BlockChain.commitBlock_lowestLevel hdone with ⟨⟨e, he⟩, -⟩ | ⟨-, block, hb, -, hlow⟩
      · cases he
      · obtain rfl := Option.some.inj (hhead.symm.trans hb)
        exact ⟨head.view, one_le_of_consecutive hgp hpq hview, hs.stored _ _ hhead, hlow⟩
    · intro core qc' head' committed' he
      rcases List.mem_cons.mp he with heq | hold
      · cases heq
        obtain ⟨block, hblock, hpath⟩ := BlockChain.commitBlock_path hdone
        intro x hx
        rcases committedPath_stored hpath x hx with rfl | ⟨d, hd⟩
        · exact hs.stored _ _ hblock
        · exact hs.stored _ _ hd
      · exact hs.commits core qc' head' committed' hold
  | commitFailed d e bc hc =>
    rcases BlockChain.commitBlock_lowestLevel hc with ⟨-, hforest⟩ | ⟨⟨_, hok⟩, -⟩
    · exact hs.frame hgrow hforest rfl fun _ he => Or.inl he
    · cases hok
  | _ => exact hs.frame hgrow rfl rfl fun _ he => Or.inl he

theorem Step.bounded (h : Step env .hotStuff K s s') (hst : Steady env .hotStuff K s)
    (hs : Bounded s) : Bounded s' := by
  have hgrow := h.later.toGrows
  have hnew : ∀ e : Event, e.commits = none →
      ∀ e' ∈ e :: s.trace, e' ∈ s.trace ∨ e'.commits = none :=
    fun e hnone e' he => (List.mem_cons.mp he).elim (fun heq => Or.inr (heq ▸ hnone)) Or.inl
  rcases h with ((h | _ | _) | _ | _) | _ | _ | _
  · exact h.bounded hst.sound hs
  · exact hs.frame hgrow rfl rfl (hnew _ rfl)
  · exact hs.frame hgrow rfl rfl (hnew _ rfl)
  all_goals first
    | exact hs.frame hgrow rfl rfl fun _ he => Or.inl he
    | exact hs.frame hgrow rfl rfl (hnew _ rfl)

theorem Clerical.lowestLevel_le {alg : Algorithm} (h : Clerical env alg K s s')
    (hsound : s.bc.forrest.Sound) : s.bc.forrest.lowestLevel ≤ s'.bc.forrest.lowestLevel := by
  cases h with
  | store core b bc _ _ _ hadd =>
    obtain ⟨f, hf, rfl⟩ := BlockChain.addBlock_ok hadd
    exact UInt64.le_of_eq (LevelledForest.addVertex_spec hsound hf).2.1.symm
  | tally v bc _ hadd =>
    rw [(addVote_eq hadd).2]
    exact UInt64.le_refl _
  | build v qc bc _ hadd =>
    rw [(addVote_eq hadd).2]
    exact UInt64.le_refl _
  | commit qc head committed forked bc _ hdone =>
    rcases BlockChain.commitBlock_lowestLevel hdone with ⟨⟨e, he⟩, -⟩ | ⟨-, block, -, hle, hlow⟩
    · cases he
    · show _ ≤ bc.forrest.lowestLevel
      rwa [hlow]
  | commitFailed d e bc hc =>
    rcases BlockChain.commitBlock_lowestLevel hc with ⟨-, hforest⟩ | ⟨⟨_, hok⟩, -⟩
    · exact UInt64.le_of_eq (congrArg _ hforest.symm)
    · cases hok
  | _ => exact UInt64.le_refl _

theorem Step.lowestLevel_le {alg : Algorithm} (h : Step env alg K s s')
    (hst : Steady env alg K s) : s.bc.forrest.lowestLevel ≤ s'.bc.forrest.lowestLevel := by
  rcases h with ((h | _) | _ | _) | _ | _ | _
  · exact h.lowestLevel_le hst.sound
  all_goals exact UInt64.le_refl _

/-! ## Views below the largest one -/

/-- The messages that can end a view are of views below the largest one. -/
structure Below (D : Msg → Prop) (s : Replica) : Prop where
  tmo : ∀ tmo : TMO, Received D s (.tmo tmo) → tmo.view < Int64.maxValue
  vmo : ∀ vmo : VMO, Received D s (.vmo vmo) → vmo.view < Int64.maxValue

theorem Below.anti {D : Msg → Prop} {t : Replica} (ht : Below D t) (h : Grows s t) : Below D s :=
  ⟨fun tmo hr => ht.tmo tmo (hr.mono h), fun vmo hr => ht.vmo vmo (hr.mono h)⟩

theorem Justified.lt_max {D : Msg → Prop} {view : View} (h : Justified env D s view)
    (hs : Below D s) : view < Int64.maxValue := by
  have hsome : ∀ senders : Finset NodeID, 2 * env.n < 3 * senders.card → senders.Nonempty := by
    intro senders hcard
    rw [← Finset.card_pos]
    omega
  rcases h with ⟨senders, hcard, hall⟩ | ⟨-, senders, hcard, hall⟩ | ⟨⟨vmo, hr, rfl⟩, -⟩
  · obtain ⟨i, hi⟩ := hsome senders hcard
    obtain ⟨tmo, hr, rfl, -⟩ := hall i hi
    exact hs.tmo tmo hr
  · obtain ⟨i, hi⟩ := hsome senders hcard
    obtain ⟨vmo, hr, rfl, -⟩ := hall i hi
    exact hs.vmo vmo hr
  · exact hs.vmo vmo hr

/-- The views have been entered in order, now and at every commit. -/
def InOrder (s : Replica) : Prop :=
  s.pm.Entered ∧ ∀ core qc head committed, Event.commit core qc head committed ∈ s.trace →
    core.pm.Entered

theorem Step.entered {alg : Algorithm} (h : Step env alg K s s') (hst : Steady env alg K s)
    (hbelow : Below K.msg s') (hs : s.pm.Entered) : s'.pm.Entered := by
  rcases h.views hst with hsame | ⟨view, hwhy, hnext⟩
  · exact hs.congr hsame.curView hsame.newViewChan
  · have hlt : view < Int64.maxValue := by
      rcases hwhy with rfl | hjust
      · decide
      · exact hjust.lt_max hbelow
    exact (hs.advanceView hlt).congr hnext.curView hnext.newViewChan

theorem Step.inOrder {alg : Algorithm} (h : Step env alg K s s') (hst : Steady env alg K s)
    (hbelow : Below K.msg s') (hs : InOrder s) : InOrder s' := by
  refine ⟨h.entered hst hbelow hs.1, fun core qc head committed he => ?_⟩
  rcases h.recorded with heq | ⟨e, heq, hcore, -⟩
  · exact hs.2 core qc head committed (heq ▸ he)
  · rw [heq] at he
    rcases List.mem_cons.mp he with rfl | hold
    · cases hcore
      exact hs.1
    · exact hs.2 core qc head committed hold

theorem Pacemaker.Entered.le_curView {p : Pacemaker} (hp : p.Entered) {view : View}
    (h : Passed p view) : view ≤ p.curView := by
  obtain ⟨v, hv, hle⟩ := h
  rcases List.mem_cons.mp hv with rfl | hv
  · exact Int64.le_trans hle hp.nonneg
  · exact Int64.le_trans hle (hp.le v hv)

end Steps

/-- The difference of two views is negative only where it is too large. -/
theorem sub_nonneg_iff {a b : View} (h : b ≤ a) : 0 ≤ a - b ↔ a.toInt - b.toInt < 2 ^ 63 := by
  have hle := Int64.le_iff_toInt_le.mp h
  have hzero : (0 : View).toInt = 0 := rfl
  have hsub : (a - b).toInt = (a.toInt - b.toInt).bmod (2 ^ 64) := Int64.toInt_sub a b
  have ha : a.toInt < 2 ^ 63 := a.toInt_lt
  have hb : -2 ^ 63 ≤ b.toInt := b.le_toInt
  rw [Int64.le_iff_toInt_le, hsub, hzero, Int.bmod_def]
  omega

/-- Nothing that the views are compared with goes down. -/
structure Rises (s t : Replica) : Prop where
  curView : s.pm.curView ≤ t.pm.curView
  preferredView : s.preferredView ≤ t.preferredView
  highQC : s.highQC.view ≤ t.highQC.view
  lowestLevel : s.bc.forrest.lowestLevel ≤ t.bc.forrest.lowestLevel

structure WithinView (s : Replica) : Prop where
  stored : ∀ id p, s.bc.forrest.getVertex id = some p → p.view ≤ s.pm.curView
  preferredView : s.preferredView ≤ s.pm.curView
  lowestLevel : (s.bc.forrest.lowestLevel.toNat : ℤ) ≤ s.pm.curView.toInt

theorem Bounded.withinView {s : Replica} (hs : Bounded s) (hp : s.pm.Entered) : WithinView s where
  stored id p h := hp.le_curView (hs.stored id p h)
  preferredView := hp.le_curView hs.lock
  lowestLevel := by
    rcases hs.lowestLevel with hzero | ⟨view, hone, hpassed, hlow⟩
    · rw [hzero]
      exact Int64.le_iff_toInt_le.mp hp.nonneg
    · rw [hlow, toNat_toUInt64 (Int64.le_trans (by decide) hone)]
      exact Int64.le_iff_toInt_le.mp (hp.le_curView hpassed)

section Runs

variable {env : Env} {K : Known} {s t : Replica}

theorem Steps.bounded (h : ReflTransGen (Step env .hotStuff K) s t) (hbelow : Below K.msg t)
    (hst : Steady env .hotStuff K s) (hb : Bounded s) (hi : InOrder s) : Bounded t ∧ InOrder t := by
  -- what is received on the way is received in the end, so the induction is on the first step
  induction h using ReflTransGen.head_induction_on with
  | refl => exact ⟨hb, hi⟩
  | head hstep hrest ih =>
    have hearly := hbelow.anti (Steps.later hrest).toGrows
    exact ih (hstep.steady hst) (hstep.bounded hst hb) (hstep.inOrder hst hearly hi)

theorem Steps.lowestLevel_le {alg : Algorithm} (h : ReflTransGen (Step env alg K) s t)
    (hst : Steady env alg K s) : s.bc.forrest.lowestLevel ≤ t.bc.forrest.lowestLevel :=
  Steps.invariant (J := fun u => s.bc.forrest.lowestLevel ≤ u.bc.forrest.lowestLevel)
    (fun _ _ hstep hu hle => UInt64.le_trans hle (hstep.lowestLevel_le hu)) h hst
    (UInt64.le_refl _)

end Runs

/-- As long as no view reaches the largest one, what the views are compared with
only rises, nothing is ahead of the current view, and the view that a committed
block is behind is not negative exactly if the two are less than `2 ^ 63` apart. -/
theorem views_rise_and_bound (env : Env) (id : NodeID) (isByz : Bool)
    (inputs more : List (Input × ℕ))
    (hbelow : Below (deliveredIn (inputs ++ more)) (HotStuff.after env id isByz (inputs ++ more))) :
    Rises (HotStuff.after env id isByz inputs) (HotStuff.after env id isByz (inputs ++ more)) ∧
    WithinView (HotStuff.after env id isByz (inputs ++ more)) ∧
    ∀ core qc head committed, Event.commit core qc head committed ∈
        (HotStuff.after env id isByz (inputs ++ more)).trace →
      ∀ b ∈ committed, b.view ≤ core.pm.curView ∧
        (0 ≤ core.pm.curView - b.view ↔ core.pm.curView.toInt - b.view.toInt < 2 ^ 63) := by
  have hnew := Replica.new_steps env .hotStuff id isByz (inputs ++ more) []
  rw [List.append_nil] at hnew
  obtain ⟨hbounded, hentered, hcores⟩ := Steps.bounded hnew hbelow (steady_new ..)
    (bounded_new env id isByz) ⟨Pacemaker.entered_new env.n, fun _ _ _ _ he => by cases he⟩
  have hsteps := Replica.after_steps env .hotStuff id isByz inputs more
  have hsteady := Replica.after_steady env .hotStuff id isByz inputs more
  have hlater := Steps.later hsteps
  refine ⟨⟨?_, hlater.lock, hlater.highQC, ?_⟩, hbounded.withinView hentered, ?_⟩
  · exact hentered.le_curView (hsteady.counting.passed.mono hlater.toGrows)
  · exact Steps.lowestLevel_le hsteps hsteady
  · intro core qc head committed he b hb
    have hle := (hcores core qc head committed he).le_curView
      (hbounded.commits core qc head committed he b hb)
    exact ⟨hle, sub_nonneg_iff hle⟩

def Msg.view : Msg → View
  | .block b => b.view
  | .vote v => v.view
  | .tmo t => t.view
  | .vmo v => v.view

def Input.view : Input → Option View
  | .deliver m => some m.view
  | _ => none

theorem below_of_views {inputs : List (Input × ℕ)} {s : Replica}
    (hin : ∀ i ∈ inputs, i.1.view.all (· < Int64.maxValue))
    (hout : ∀ p ∈ s.outbox, p.msg.view < Int64.maxValue) : Below (deliveredIn inputs) s := by
  have hall : ∀ m, Received (deliveredIn inputs) s m → m.view < Int64.maxValue := by
    rintro m (⟨fuel, hm⟩ | hm)
    · simpa [Input.view] using hin (.deliver m, fuel) hm
    · exact hout ⟨none, m⟩ hm
  exact ⟨fun tmo => hall (.tmo tmo), fun vmo => hall (.vmo vmo)⟩

/-- Node 1 stores and commits along the chain of four blocks. -/
theorem views_rise_on_four_blocks :
    (HotStuff.after fourNodes "1" false fourNodes.fourBlocks).committedBlocks =
      [fourNodes.chain 0] ∧
    Rises (HotStuff.after fourNodes "1" false (fourNodes.timeouts 3))
      (HotStuff.after fourNodes "1" false fourNodes.fourBlocks) ∧
    WithinView (HotStuff.after fourNodes "1" false fourNodes.fourBlocks) := by
  have hbelow : Below (deliveredIn fourNodes.fourBlocks)
      (HotStuff.after fourNodes "1" false fourNodes.fourBlocks) :=
    below_of_views (by decide +kernel) (by decide +kernel)
  obtain ⟨hrises, hwithin, -⟩ := views_rise_and_bound fourNodes "1" false (fourNodes.timeouts 3)
    (deliverAll ((List.range 4).map fourNodes.chain)) hbelow
  exact ⟨by decide +kernel, hrises, hwithin⟩

/-- A chain of blocks that starts at the smallest view, followed by views 1 to 4. -/
def negativeChain : ℕ → Block
  | 0 => fourNodes.block Int64.minValue QC.initial 4 []
  | k + 1 =>
    let b := negativeChain k
    fourNodes.block (if k = 0 then 1 else b.view + 1)
      (fourNodes.certificate b.view b.id [2, 3, 4]) (if k < 3 then 4 else 3) []

def negativeBlocks : List (Input × ℕ) :=
  fourNodes.timeouts 3 ++ deliverAll ((List.range 5).map negativeChain)

/-- In view 4 the block of view 1 is committed together with its parent, which
is so far behind that the difference of the views wraps around. -/
theorem negative_interval :
    Below (deliveredIn negativeBlocks) (HotStuff.after fourNodes "1" false negativeBlocks) ∧
    (HotStuff.after fourNodes "1" false negativeBlocks).crashed = false ∧
    ∃ e ∈ (HotStuff.after fourNodes "1" false negativeBlocks).trace, ∃ b ∈ e.delivers,
      e.core.pm.curView - b.view < 0 :=
  ⟨below_of_views (by decide +kernel) (by decide +kernel), by decide +kernel, by decide +kernel⟩

end Bamboo
