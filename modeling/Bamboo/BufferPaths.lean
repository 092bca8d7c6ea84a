import Bamboo.Outcomes

/-!
# The ways into a view, and the buffer

A view is entered by a timeout certificate, by a view-change certificate, by an
announcement together with the block of its view, or at the very start; nested
handlers do it in the same ways. Neither certificate looks at the buffer. An
announcement that completes a block, or a block that completes an announcement,
looks at the buffer for the view that is left, not for the one that is entered. Only
the end of `ProcessBlock` looks for the block of the next view, after a vote, and
only HotStuff takes it out.

A call is `Direct` if it enters at most one view, in one of these ways. For those
calls `Clean` says, in terms of the state before the call, whether a block is left
behind, and this is exact.
-/
namespace Bamboo

open Relation Stepwise

/-! ## Before a call -/

/-- Every buffered block is above a view. -/
def Above (view : View) (s : Core) : Prop := ∀ e ∈ s.bufferedBlocks.entries, view < e.2.view

instance (view : View) (s : Core) : Decidable (Above view s) := by
  unfold Above
  infer_instance

theorem above_iff {view : View} {s : Core} :
    Above view s ↔ ∀ key b, s.bufferedBlocks.lookup key = some b → view < b.view :=
  ⟨fun h _ _ hb => h _ (AList.mem_lookup_iff.mp hb),
    fun h _ he => h _ _ (AList.mem_lookup_iff.mpr he)⟩

theorem ahead_iff {s : Replica} : Ahead s ↔ Above s.pm.curView s.toCore := above_iff.symm

/-- The pacemaker after an announcement. The leader of the next view counts it; any
other replica leaves the view if it has the block. -/
def Core.paceAfter (env : Env) (s : Core) (vmo : VMO) : Pacemaker :=
  if env.election.findLeaderFor (vmo.view + 1) = s.id then s.pm.countVmo vmo
  else if vmo.view ≤ s.pm.start.curView ∧ (s.recivedBlock.lookup (vmo.view - 1)).isSome then
    s.pm.start.advanceView vmo.view
  else s.pm.start

/-- The view that `ProcessVote` announces, when the vote completes a certificate for a
stored block. -/
def Core.announces (env : Env) (alg : Algorithm) (s : Core) (v : Vote) : Option View :=
  ((s.completed env v).filter fun q => (s.bc.forrest.getVertex q.blockID).isSome).map
    (announcedView alg s)

/-- The block completes the announcement that was kept for its view, which is left. -/
def Core.Completes (s : Core) (b : Block) : Prop :=
  (s.recivedVMO.lookup (b.view - 1)).isSome ∧ s.pm.start.curView = b.view

instance (s : Core) (b : Block) : Decidable (s.Completes b) := by
  unfold Core.Completes
  infer_instance

/-- No other announcement has been kept for the next view. -/
def Core.Last (env : Env) (s : Core) (view : View) : Prop :=
  env.election.findLeaderFor (view + 1) = s.id ∨ s.recivedVMO.lookup view = none

instance (env : Env) (s : Core) (view : View) : Decidable (s.Last env view) := by
  unfold Core.Last
  infer_instance

/-- The call enters at most one view. A block is then not one whose votes the replica
collects, and if it completes an announcement and the next block is waiting, that one
does not complete another. -/
def Direct (env : Env) (alg : Algorithm) (s : Core) : Input → Prop
  | .deliver (.vmo v) => s.Last env v.view
  | .deliver (.vote v) => ∀ view ∈ s.announces env alg v, s.Last env view
  | .deliver (.block b) => s.pm.start.curView < b.view ∨
      (env.election.findLeaderFor (b.view + 1) ≠ s.id ∧
        (s.Completes b → (s.bufferedBlocks.lookup b.view).isSome →
          env.election.findLeaderFor (b.view + 1 + 1) ≠ s.id ∧ s.recivedVMO.lookup b.view = none))
  | _ => True

/-- The call leaves no block behind. With either certificate, or with an announcement
for a block that is there, no block of the view that is entered may be waiting. With a
block for an announcement that is there, HotStuff has to vote for it. -/
def Clean (env : Env) (alg : Algorithm) (s : Replica) : Input × ℕ → Prop
  | (.deliver (.tmo t), _) => Above (s.pm.countTmo t).curView s.toCore
  | (.timeout, _) => Above (s.pm.countTmo ⟨s.pm.curView, s.id, some s.highQC⟩).curView s.toCore
  | (.deliver (.vmo v), _) => Above (s.paceAfter env v).curView s.toCore
  | (.deliver (.vote v), _) => ∀ view ∈ s.announces env alg v,
      Above (s.paceAfter env ⟨view, s.id, none⟩).curView s.toCore
  | (.deliver (.block b), fuel) => s.Completes b → (s.bufferedBlocks.lookup b.view).isSome →
      alg = .hotStuff ∧
        b ∈ (s.since (s.step env alg (.deliver (.block b), fuel))).filterMap Event.voted
  | _ => True

instance (env : Env) (alg : Algorithm) (s : Core) (i : Input) : Decidable (Direct env alg s i) := by
  unfold Direct
  split <;> infer_instance

instance (env : Env) (alg : Algorithm) (s : Replica) (i : Input × ℕ) :
    Decidable (Clean env alg s i) := by
  unfold Clean
  split <;> infer_instance

/-! ## Certificates and announcements -/

section Handlers

variable {env : Env} {alg : Algorithm} {s t : Replica} {b : Block} {fuel : ℕ}
  {processBlock : Block → Exec (Option Err)}

theorem processCertificate_apart (q : QC) :
    Gives (Apart s) ((Safety.rules env alg).processCertificate q) fun _ => Apart s :=
  ((((rules_lead env alg .anything).processCertificate q).carry
    (fun _ _ hc ht => ht.trans hc.apart) fun _ ht => ⟨Or.inl trivial, ht⟩).post
    fun _ _ ht => ht.2).rel fun _ _ _ => trivial

/-- The block that an announcement asks for is not in the buffer. -/
theorem processRemoteVmo_gives {vmo : VMO} (hlast : s.Last env vmo.view)
    (hnone : vmo.view ≤ s.pm.start.curView → s.bufferedBlocks.lookup (vmo.view - 1) = none) :
    Gives (fun t => t = s) (processRemoteVmo env (Safety.rules env alg) processBlock fuel vmo)
      fun _ t => t.pm = s.paceAfter env vmo ∧ t.bufferedBlocks = s.bufferedBlocks := by
  cases fuel with
  | zero => exact Leads.throw
  | succ fuel =>
    by_cases hleader : env.election.findLeaderFor (vmo.view + 1) = s.id
    · refine Leads.of_run (f := fun t => { t with pm := t.pm.countVmo vmo }) (fun t ht => ?_)
        fun t ht => ⟨trivial, ?_⟩
      · subst ht
        exact processRemoteVmo_run hleader fuel
      · rw [ht, Core.paceAfter, if_pos hleader]
        exact ⟨rfl, rfl⟩
    have hkept := hlast.resolve_left hleader
    unfold processRemoteVmo Core.paceAfter
    refine Leads.get_bind fun t ht => ?_
    subst ht
    simp only [if_neg hleader]
    refine Leads.bind (keepVmo_leads vmo (fun _ => trivial) fun _ => trivial) fun _ => ?_
    refine Leads.bind leads_getCurView fun cur => ?_
    refine Leads.ite (fun hlt => ?_) fun hge => Leads.start fun u hu => ?_
    · refine Leads.pure fun u hu => ?_
      obtain ⟨rfl, rfl⟩ := hu
      rw [if_neg fun h => absurd hlt (Int64.not_lt.mpr h.1)]
      exact ⟨rfl, rfl⟩
    · obtain ⟨rfl, rfl⟩ := hu
      have hcome : vmo.view ≤ t.pm.start.curView := Int64.not_lt.mp hge
      refine Leads.bind (processVMOAndBlock_gives fun _ => hnone hcome) fun ok => ?_
      simp only [AList.lookup_insert, Option.isSome_some, true_and, hcome]
      by_cases hblock : (t.recivedBlock.lookup (vmo.view - 1)).isSome
      · simp only [if_pos hblock]
        refine Leads.ite (fun _ => Leads.get_bind fun w hw => ?_) fun hno => ?_
        · obtain ⟨-, outbox, rfl⟩ := hw
          have hnext : ((t.recivedVMO.insert (vmo.view - 1) vmo).erase (vmo.view - 1)).lookup
              vmo.view = none := by
            have hne : vmo.view ≠ vmo.view - 1 := by grind
            rw [AList.lookup_erase_ne hne, AList.lookup_insert_ne hne, hkept]
          simp only [hnext]
          exact Leads.pure fun x hx => hx ▸ ⟨rfl, rfl⟩
        · exact Leads.pure fun w hw => absurd hw.1 hno
      · simp only [if_neg hblock]
        refine Leads.ite (fun hyes => Leads.start fun w hw => ?_) fun _ => ?_
        · rw [hyes] at hw
          cases hw.1
        · exact Leads.pure fun w hw => hw.2 ▸ ⟨rfl, rfl⟩

theorem announce_gives {view : View} (hlast : s.Last env view)
    (hnone : view ≤ s.pm.start.curView → s.bufferedBlocks.lookup (view - 1) = none) :
    Gives (fun t => t = s) (processLocalVmo env (Safety.rules env alg) processBlock fuel view)
      fun _ t => t.pm = s.paceAfter env ⟨view, s.id, some s.highQC⟩ ∧
        t.bufferedBlocks = s.bufferedBlocks := by
  unfold processLocalVmo
  refine Leads.get_bind fun t ht => ?_
  subst ht
  refine Leads.bind (Leads.of_modify_at trivial) fun _ => ?_
  refine processRemoteVmo_gives ?_ ?_
  · exact hlast
  · exact hnone

theorem announcedView_congr {s t : Core} (h : t.pm = s.pm) (q : QC) :
    announcedView alg t q = announcedView alg s q := by
  cases alg with
  | hotStuff => exact congrArg Pacemaker.curView h
  | tchs => exact congrArg Pacemaker.curView h
  | fhs => rfl

theorem Core.paceAfter_curView {s t : Core} (hid : t.id = s.id) (hpm : t.pm = s.pm)
    (hblocks : t.recivedBlock = s.recivedBlock) {vmo vmo' : VMO} (hview : vmo.view = vmo'.view)
    (hnode : vmo.nodeID = vmo'.nodeID) :
    (t.paceAfter env vmo).curView = (s.paceAfter env vmo').curView := by
  unfold Core.paceAfter
  rw [hid, hpm, hblocks, hview]
  split_ifs
  · exact Pacemaker.countVmo_curView _ hview hnode
  · rfl
  · rfl

/-- A vote moves the view only by the announcement of a certificate that it completes. -/
theorem processVote_gives {v : Vote}
    (hlast : ∀ view ∈ s.toCore.announces env alg v, s.Last env view)
    (hnone : ∀ view, view ≤ s.pm.start.curView → s.bufferedBlocks.lookup (view - 1) = none) :
    Gives (fun t => t = s) (processVote env (Safety.rules env alg) processBlock fuel v) fun _ t =>
      t.bufferedBlocks = s.bufferedBlocks ∧
        t.pm.curView = (s.toCore.announces env alg v).elim s.pm.curView fun view =>
          (s.toCore.paceAfter env ⟨view, s.id, none⟩).curView := by
  unfold processVote
  refine Leads.bind (countVote_leads (fun _ _ _ => trivial) fun _ _ _ _ => trivial)
    fun r => Leads.start fun t ht => ?_
  obtain ⟨hr, bc, hforest, rfl⟩ := ht
  unfold Core.announces at hlast ⊢
  rw [← hr] at hlast ⊢
  cases r with
  | none => exact Leads.pure fun t ht => ht ▸ ⟨rfl, rfl⟩
  | some q =>
    refine Leads.get_bind fun t ht => ?_
    subst ht
    simp only [Option.elim_some, Replica.record]
    cases hb : bc.getBlockByID q.blockID with
    | error e =>
      have hmissing : s.bc.forrest.getVertex q.blockID = none := by
        rw [← hforest]
        cases hv : bc.forrest.getVertex q.blockID with
        | none => rfl
        | some c =>
          rw [BlockChain.getBlockByID_ok.mpr hv] at hb
          cases hb
      refine Leads.of_modify fun t ht => ⟨trivial, ?_⟩
      subst ht
      simp [Option.filter, hmissing, Replica.bufferQC]
    | ok c =>
      have hstored : s.bc.forrest.getVertex q.blockID = some c :=
        hforest ▸ BlockChain.getBlockByID_ok.mp hb
      simp only [Option.filter, hstored, Option.isSome_some, if_true, Option.map_some,
        Option.mem_some_iff, forall_eq', Option.elim_some] at hlast ⊢
      refine Leads.bind ((processCertificate_apart q).at_start (.refl _)) fun _ => ?_
      refine Leads.start fun t ht => ?_
      refine Leads.bind ((rules_lead env alg .anything).announced q _ t) fun view => ?_
      refine Leads.start fun w hw => ?_
      obtain ⟨rfl, rfl⟩ := hw
      rw [announcedView_congr (s := s.toCore) ht.pm]
      refine (announce_gives ?_ ?_).post fun _ u hu => ⟨hu.2.trans ht.bufferedBlocks, ?_⟩
      · unfold Core.Last at hlast ⊢
        rwa [ht.id, ht.recivedVMO]
      · rw [ht.pm, ht.bufferedBlocks]
        exact hnone _
      · rw [hu.1]
        exact Core.paceAfter_curView ht.id ht.pm ht.recivedBlock rfl ht.id

/-! ## Blocks -/

/-- The block has been voted for; the views and what waits for them are as they were. -/
structure Votes (b : Block) (s t : Replica) : Prop where
  id : t.id = s.id
  pm : t.pm = s.pm
  recivedVMO : t.recivedVMO = s.recivedVMO
  bufferedBlocks : t.bufferedBlocks = s.bufferedBlocks
  voted : ∃ recent, t.trace = recent ++ s.trace ∧ b ∈ recent.filterMap Event.voted

theorem castVote_votes (hnot : env.election.findLeaderFor (b.view + 1) ≠ s.id) {rules : Rules} :
    Gives (Apart s) (castVote env rules processBlock fuel b) fun _ => Votes b s := by
  unfold castVote
  refine Leads.get_bind fun t ht => Leads.bind (leads_call _) fun v => ?_
  have hrecord : Votes b s (t.record (.vote t.toCore b v)) := by
    obtain ⟨recent, htrace, -⟩ := ht.trace
    refine ⟨ht.id, ht.pm, ht.recivedVMO, ht.bufferedBlocks, .vote t.toCore b v :: recent, ?_, ?_⟩
    · rw [List.cons_append, ← htrace]
      rfl
    · exact List.mem_cons_self
  refine Leads.bind (Q := fun _ => Votes b s) (Leads.of_modify fun u hu => ⟨trivial, ?_⟩)
    fun _ => ?_
  · rw [hu.1]
    exact hrecord
  · refine Leads.ite (fun h => absurd (h.trans ht.id) hnot) fun _ => ?_
    exact Leads.of_modify fun u hu => ⟨trivial, { hu with }⟩

/-- A block whose votes go elsewhere is taken up; then it is either dropped, or voted
for and followed by the block of the next view. -/
theorem processBlock_gives (hs : Steady env alg Known.anything s)
    (hreached : ¬ s.pm.start.curView < b.view)
    (hnone : (s.recivedVMO.lookup (b.view - 1)).isSome →
      s.bufferedBlocks.lookup (b.view - 1) = none)
    (hnot : env.election.findLeaderFor (b.view + 1) ≠ s.id) {Q : Replica → Prop}
    (hnext : ∀ t w, TakesUp b s t → Votes b t w → Steady env alg Known.anything w →
      Gives (fun u => u = w) (Safety.takeUpNext alg (Safety.processBlock env alg fuel) b.view)
        fun _ => Q) :
    Gives (fun t => t = s) (Safety.processBlock env alg (fuel + 1) b) fun _ u =>
      (∃ t, TakesUp b s t ∧ Apart t u) ∨ Q u := by
  have hnested : ∀ c, Known.anything.block c → Known.anything.early c →
      Minds env alg .anything (Steady env alg .anything) (Safety.processBlock env alg fuel c) :=
    fun c hc hearly => (processBlock_minds (fun _ h => h) Steady.act Steady.unbuffer fuel hc).pre
      fun _ ht => ⟨ht, Or.inl hearly⟩
  have htake : Leads (Change env alg .anything) (fun t => t = s)
      (takeUp env (Safety.processBlock env alg fuel) b) fun ok u => if ok then
        (Steady env alg .anything u ∧ ∃ t, TakesUp b s t ∧ Apart t u) ∧
          ∃ s₀, TakenUp env alg .anything b s₀ u
        else (∃ t, TakesUp b s t ∧ Apart t u) ∨ Q u := by
    refine ((takeUp_minds (fun _ h => h) Steady.act (takeUpBuffered_processBlock_minds
      (fun _ h => h) Steady.act Steady.unbuffer fuel) trivial hs (Or.inl trivial)).and
      (takeUp_gives hnone)).post fun ok u hu => ?_
    obtain ⟨⟨hup, hok⟩, htaken⟩ := hu
    rw [if_neg hreached] at htaken
    rw [if_pos htaken.1] at hup ⊢
    exact ⟨⟨hup.1, u, htaken.2, .refl u⟩, hup.2⟩
  refine (safety_processBlock_minds trivial (fun _ hu => hu.1) (fun u u' hq hu => ?_)
    (fun _ hu => Or.inl hu.2) htake ?_).rel fun _ _ _ => trivial
  · obtain ⟨hsteady, t, ht, happart⟩ := hu
    refine ⟨hq.act.steady hsteady, t, ht, ?_⟩
    rcases hq.kind with hc | hleader
    · exact happart.trans hc.apart
    · exact absurd (hleader.trans (happart.id.trans ht.id)) hnot
  · refine Leads.start fun u hu => ?_
    obtain ⟨⟨hsteady, t, ht, happart⟩, hguard⟩ := hu
    have hnot' : env.election.findLeaderFor (b.view + 1) ≠ t.id := by rwa [ht.id]
    refine Leads.bind (((castVote_guarded_minds (fun _ h => h) Steady.act Steady.unbuffer hnested
      fuel b).at_start ⟨hsteady, hguard⟩).and ((castVote_votes hnot').at_start happart))
      fun _ => Leads.start fun w hw => ?_
    exact (((takeUpNext_minds (fun _ h => h) Steady.unbuffer hnested b.view).at_start hw.1).and
      (hnext t w ht hw.2 hw.1)).post fun _ _ hv => Or.inr hv.2

/-! ## The block of the next view -/

/-- No view has been entered and no block has been buffered that was not there; only
HotStuff has taken blocks out. -/
structure Thins (alg : Algorithm) (s t : Replica) : Prop where
  curView : t.pm.curView = s.pm.curView
  sub : ∀ key c, t.bufferedBlocks.lookup key = some c → s.bufferedBlocks.lookup key = some c
  kept : alg ≠ .hotStuff → ∀ key, t.bufferedBlocks.lookup key = s.bufferedBlocks.lookup key
  trace : ∃ more, t.trace = more ++ s.trace

theorem Thins.of_eq (hpm : t.pm = s.pm) (hblocks : t.bufferedBlocks = s.bufferedBlocks)
    (htrace : ∃ more, t.trace = more ++ s.trace) : Thins alg s t :=
  ⟨congrArg Pacemaker.curView hpm, fun _ _ h => hblocks ▸ h, fun _ _ => by rw [hblocks], htrace⟩

theorem Thins.trans {u : Replica} (h : Thins alg s t) (h' : Thins alg t u) : Thins alg s u where
  curView := h'.curView.trans h.curView
  sub key c hc := h.sub key c (h'.sub key c hc)
  kept halg key := (h'.kept halg key).trans (h.kept halg key)
  trace := by
    obtain ⟨more, ht⟩ := h.trace
    obtain ⟨more', hu⟩ := h'.trace
    exact ⟨more' ++ more, by rw [hu, ht, List.append_assoc]⟩

/-- The same, and HotStuff has taken out the block of the next view. -/
structure Drained (alg : Algorithm) (view : View) (s t : Replica) : Prop extends Thins alg s t where
  dropped : alg = .hotStuff → t.bufferedBlocks.lookup view = none

/-- The block of the next view is dealt with, and HotStuff then takes it out. -/
theorem takeUpNext_of_thins {view : View}
    (h : ∀ d, s.bufferedBlocks.lookup view = some d →
      Gives (fun t => t = s) (processBlock d) fun _ => Thins alg s) :
    Gives (fun t => t = s) (Safety.takeUpNext alg processBlock view) fun _ =>
      Drained alg view s := by
  have hdone : s.bufferedBlocks.lookup view = none → Drained alg view s s :=
    fun hd => ⟨.of_eq rfl rfl ⟨[], rfl⟩, fun _ => hd⟩
  have htwo : alg ≠ .hotStuff → Gives (fun t => t = s) (TwoChain.takeUpNext processBlock view)
      fun _ => Drained alg view s := by
    intro halg
    refine Leads.get_bind fun t ht => ?_
    subst ht
    cases hd : t.bufferedBlocks.lookup view with
    | none => exact Leads.pure fun u hu => hu.symm ▸ hdone hd
    | some d => exact (h d hd).post fun _ u hu => ⟨hu, fun heq => absurd heq halg⟩
  cases alg with
  | hotStuff =>
    refine Leads.get_bind fun t ht => ?_
    subst ht
    cases hd : t.bufferedBlocks.lookup view with
    | none => exact Leads.pure fun u hu => hu.symm ▸ hdone hd
    | some d =>
      refine Leads.bind (h d hd) fun _ => ?_
      refine Leads.bind (Q := fun _ => Drained .hotStuff view t)
        (Leads.of_modify fun u hu => ⟨trivial, ?_⟩) fun _ => Leads.pure fun _ hw => hw
      refine ⟨⟨hu.curView, fun key c hc => hu.sub key c (lookup_of_lookup_erase hc),
        fun halg => absurd rfl halg, hu.trace⟩, fun _ => ?_⟩
      exact AList.lookup_erase view u.bufferedBlocks
  | tchs => exact htwo (by decide)
  | fhs => exact htwo (by decide)

/-- A block that is still early is buffered where it was. -/
theorem processBlock_thins_early {key : View} (hpos : 1 ≤ s.pm.curView)
    (hb : s.bufferedBlocks.lookup key = some b) (hkey : b.view - 1 = key)
    (h : s.pm.curView < b.view) :
    Gives (fun t => t = s) (Safety.processBlock env alg fuel b) fun _ => Thins alg s := by
  have hstart := Pacemaker.start_of_pos hpos
  have hearly : s.pm.start.curView < b.view := by rwa [hstart]
  refine (processBlock_early hearly trivial trivial).post fun _ t ht => ?_
  have hlookup : ∀ k, t.bufferedBlocks.lookup k = s.bufferedBlocks.lookup k := by
    intro k
    rw [ht]
    by_cases hk : k = b.view - 1
    · rw [hk, AList.lookup_insert, hkey, hb]
    · exact AList.lookup_insert_ne hk
  refine ⟨?_, fun k c hc => hlookup k ▸ hc, fun _ => hlookup, [], by rw [ht]; rfl⟩
  rw [ht, hstart]

/-- A block of the current view that moves no view. The one after it is early. -/
theorem processBlock_thins (hs : Steady env alg Known.anything s) (hpos : 1 ≤ s.pm.curView)
    (hcur : s.pm.curView = b.view) (hvmo : s.recivedVMO.lookup (b.view - 1) = none)
    (hnot : env.election.findLeaderFor (b.view + 1) ≠ s.id)
    (hnext : ∀ c, s.bufferedBlocks.lookup b.view = some c →
      c.view - 1 = b.view ∧ s.pm.curView < c.view) :
    Gives (fun t => t = s) (Safety.processBlock env alg fuel b) fun _ => Thins alg s := by
  cases fuel with
  | zero => cases alg <;> exact Leads.throw
  | succ fuel =>
    have hstart := Pacemaker.start_of_pos hpos
    have hpace : s.toCore.paceAt b = s.pm := by
      rw [Core.paceAt, if_neg (by simp [hvmo]), hstart]
    have htaken : ∀ {t}, TakesUp b s t → Thins alg s t := fun ht =>
      .of_eq (ht.pm.trans hpace) ht.bufferedBlocks (ht.trace.elim fun _ h => ⟨[_], h⟩)
    refine (processBlock_gives (Q := Thins alg s) hs ?_ (fun h => by simp [hvmo] at h) hnot
      fun t w ht hw _ => ?_).post fun _ u hu => ?_
    · rw [hstart, hcur]
      exact Int64.lt_irrefl
    · have hpm : w.pm = s.pm := hw.pm.trans (ht.pm.trans hpace)
      have hblocks := hw.bufferedBlocks.trans ht.bufferedBlocks
      have hvotes : Thins alg t w :=
        .of_eq hw.pm hw.bufferedBlocks (hw.voted.imp fun _ h => h.1)
      refine (takeUpNext_of_thins fun c hc => ?_).post fun _ u hu =>
        (htaken ht).trans (hvotes.trans hu.toThins)
      obtain ⟨hkey, hearly⟩ := hnext c (hblocks ▸ hc)
      exact processBlock_thins_early (hpm ▸ hpos) hc hkey (hpm ▸ hearly)
    · rcases hu with ⟨t, ht, happart⟩ | hu
      · exact (htaken ht).trans (.of_eq happart.pm happart.bufferedBlocks
          (happart.trace.imp fun _ h => h.1))
      · exact hu

/-! ## One call -/

theorem succ_lt_of_lt {a b : View} (h : a < b) (hne : b - 1 ≠ a) : a + 1 < b := by
  have hlt := Int64.lt_iff_toInt_lt.mp h
  have hmax : a < Int64.maxValue := by
    rw [Int64.lt_iff_toInt_lt]
    exact lt_of_lt_of_le hlt b.toInt_le
  have hle : a + 1 ≤ b := by
    rw [Int64.le_iff_toInt_le, toInt_succ hmax]
    exact hlt
  exact Int64.lt_of_le_of_ne hle fun heq => hne (by grind)

theorem Core.paceAt_of_completes {s : Core} (h : s.Completes b) :
    (s.paceAt b).curView = b.view + 1 := by
  rw [Core.paceAt, if_pos h.1, Pacemaker.advanceView, if_neg]
  rw [h.2]
  exact Int64.lt_irrefl

theorem Core.paceAt_of_not {s : Core} (h : ¬ s.Completes b) (hle : b.view ≤ s.pm.start.curView) :
    (s.paceAt b).curView = s.pm.start.curView := by
  unfold Core.paceAt
  split_ifs with hvmo
  · have hne : b.view ≠ s.pm.start.curView := fun heq => h ⟨hvmo, heq.symm⟩
    rw [Pacemaker.advanceView, if_pos (Int64.lt_of_le_of_ne hle hne)]
  · rfl

section Call

variable (hkeys : ∀ key c, s.bufferedBlocks.lookup key = some c → c.view - 1 = key)
  (habove : Above s.pm.start.curView s.toCore)
include hkeys habove

theorem lookup_of_reached {view : View} (h : view ≤ s.pm.start.curView) :
    s.bufferedBlocks.lookup (view - 1) = none := by
  cases hc : s.bufferedBlocks.lookup (view - 1) with
  | none => rfl
  | some c =>
    have hview : c.view = view := by
      have := hkeys _ _ hc
      grind
    exact absurd (above_iff.mp habove _ _ hc) (hview ▸ Int64.not_lt.mpr h)

/-- After its vote, a block is followed by the one of the next view. -/
theorem takeUpNext_gives {t w : Replica} (ht : TakesUp b s t) (hw : Votes b t w)
    (hsteady : Steady env alg Known.anything w)
    (hsecond : s.Completes b → (s.bufferedBlocks.lookup b.view).isSome →
      env.election.findLeaderFor (b.view + 1 + 1) ≠ s.id ∧ s.recivedVMO.lookup b.view = none) :
    Gives (fun u => u = w) (Safety.takeUpNext alg (Safety.processBlock env alg fuel) b.view)
      fun _ => Drained alg b.view w := by
  have hblocks := hw.bufferedBlocks.trans ht.bufferedBlocks
  have hpm := hw.pm.trans ht.pm
  refine takeUpNext_of_thins fun d hd => ?_
  rw [hblocks] at hd
  have hkey := hkeys _ _ hd
  have hd' : d.view = b.view + 1 := by grind
  have hlt := above_iff.mp habove _ _ hd
  by_cases hcompletes : s.Completes b
  · obtain ⟨hleader, hvmo⟩ := hsecond hcompletes (by rw [hd]; rfl)
    have hcur : w.pm.curView = d.view := by
      rw [hpm, Core.paceAt_of_completes hcompletes, hd']
    have hle : s.pm.start.curView ≤ w.pm.curView := hcur ▸ Int64.le_of_lt hlt
    refine processBlock_thins hsteady (Int64.le_trans s.pm.one_le_start hle) hcur ?_ ?_
      fun c hc => ?_
    · rw [hkey, hw.recivedVMO]
      exact ht.vmos _ hvmo
    · rw [hd', hw.id, ht.id]
      exact hleader
    · rw [hblocks] at hc
      have hc' := hkeys _ _ hc
      refine ⟨hc', hcur ▸ ?_⟩
      have habove' := above_iff.mp habove _ _ hc
      rw [hcompletes.2] at habove'
      have hsucc := succ_lt_of_lt habove' fun heq => by
        have hlt' := hd' ▸ hcompletes.2 ▸ hlt
        exact absurd (hc'.symm.trans heq) (hd' ▸ fun h => Int64.lt_irrefl (h ▸ hlt'))
      rw [hd']
      exact hsucc
  · have hcur : w.pm.curView = s.pm.start.curView := by
      rw [hpm, Core.paceAt_of_not hcompletes ht.reached]
    exact processBlock_thins_early (hcur ▸ s.pm.one_le_start) (hblocks ▸ hd) hkey (hcur ▸ hlt)

theorem ahead_of_sub (hcur : t.pm.curView = (s.toCore.paceAt b).curView)
    (hreached : b.view ≤ s.pm.start.curView)
    (hsub : ∀ key c, t.bufferedBlocks.lookup key = some c → s.bufferedBlocks.lookup key = some c)
    (hnext : s.Completes b → t.bufferedBlocks.lookup b.view = none) : Ahead t := by
  intro key c hc
  have hlt := above_iff.mp habove _ _ (hsub key c hc)
  rw [hcur]
  by_cases hcompletes : s.Completes b
  · rw [Core.paceAt_of_completes hcompletes]
    rw [hcompletes.2] at hlt
    refine succ_lt_of_lt hlt fun heq => ?_
    rw [← hkeys key c (hsub key c hc), heq, hnext hcompletes] at hc
    cases hc
  · rwa [Core.paceAt_of_not hcompletes hreached]

omit habove in
theorem not_ahead_of_next (hcur : t.pm.curView = (s.toCore.paceAt b).curView)
    (hcompletes : s.Completes b) (hd : (s.bufferedBlocks.lookup b.view).isSome)
    (hsame : t.bufferedBlocks.lookup b.view = s.bufferedBlocks.lookup b.view) : ¬ Ahead t := by
  obtain ⟨d, hd⟩ := Option.isSome_iff_exists.mp hd
  have hview : d.view = b.view + 1 := by
    have := hkeys _ _ hd
    grind
  intro ht
  have hlt := ht _ _ (hsame.trans hd)
  rw [hcur, Core.paceAt_of_completes hcompletes, hview] at hlt
  exact Int64.lt_irrefl hlt

/-- A block leaves another one behind if it completes an announcement and the one of
the view that is entered is waiting, unless HotStuff votes. -/
theorem processBlock_ahead (hs : Steady env alg Known.anything s)
    (hdirect : Direct env alg s.toCore (.deliver (.block b))) :
    Gives (fun t => t = s) (Safety.processBlock env alg fuel b) fun _ t =>
      (Ahead t ↔ (s.Completes b → (s.bufferedBlocks.lookup b.view).isSome →
        alg = .hotStuff ∧ b ∈ (s.since t).filterMap Event.voted)) := by
  by_cases hearly : s.pm.start.curView < b.view
  · refine (processBlock_early hearly trivial trivial).post fun _ t ht => iff_of_true ?_ fun h => ?_
    · intro key c hc
      rw [ht] at hc ⊢
      rcases lookup_insert_cases hc with ⟨-, rfl⟩ | hold
      · exact hearly
      · exact above_iff.mp habove _ _ hold
    · rw [h.2] at hearly
      exact absurd hearly Int64.lt_irrefl
  obtain ⟨hnot, hsecond⟩ := hdirect.resolve_left hearly
  cases fuel with
  | zero => cases alg <;> exact Leads.throw
  | succ fuel =>
    have hreached := Int64.not_lt.mp hearly
    refine (processBlock_gives (Q := fun u => ∃ t w, TakesUp b s t ∧ Votes b t w ∧
      Drained alg b.view w u) hs hearly (fun _ => lookup_of_reached hkeys habove hreached) hnot
      fun t w ht hw hsteady => ?_).post fun _ u hu => ?_
    · exact (takeUpNext_gives hkeys habove ht hw hsteady hsecond).post
        fun _ u hu => ⟨t, w, ht, hw, hu⟩
    · rcases hu with ⟨t, ht, happart⟩ | ⟨t, w, ht, hw, hu⟩
      · have hcur := congrArg Pacemaker.curView (happart.pm.trans ht.pm)
        have hsame := happart.bufferedBlocks.trans ht.bufferedBlocks
        obtain ⟨recent, hrecent, hnone⟩ := happart.trace
        obtain ⟨core, htrace⟩ := ht.trace
        have hsince : s.since u = recent ++ [.handle core b] := Replica.since_eq (by
          rw [hrecent, htrace, List.append_assoc, List.singleton_append])
        have hunvoted : b ∉ (s.since u).filterMap Event.voted := by
          have hold : recent.filterMap Event.voted = [] :=
            List.filterMap_eq_nil_iff.mpr fun e he => (hnone e he).1
          rw [hsince, List.filterMap_append, hold]
          exact List.not_mem_nil
        refine ⟨fun ha hc hd => absurd ha ?_, fun h => ?_⟩
        · exact not_ahead_of_next hkeys hcur hc hd (by rw [hsame])
        · refine ahead_of_sub hkeys habove hcur hreached (fun _ _ hc => hsame ▸ hc) fun hc => ?_
          rw [hsame, ← Option.not_isSome_iff_eq_none]
          exact fun hd => hunvoted (h hc hd).2
      · have hcur := hu.curView.trans (congrArg Pacemaker.curView (hw.pm.trans ht.pm))
        have hsame := hw.bufferedBlocks.trans ht.bufferedBlocks
        have hvoted : b ∈ (s.since u).filterMap Event.voted := by
          obtain ⟨more, hmore⟩ := hu.trace
          obtain ⟨recent, hrecent, hmem⟩ := hw.voted
          obtain ⟨core, htrace⟩ := ht.trace
          have hsince : s.since u = more ++ (recent ++ [.handle core b]) := Replica.since_eq (by
            rw [hmore, hrecent, htrace, List.append_assoc, List.append_assoc,
              List.singleton_append])
          rw [hsince, List.filterMap_append, List.filterMap_append]
          exact List.mem_append_right _ (List.mem_append_left _ hmem)
        refine ⟨fun ha hc hd => ⟨?_, hvoted⟩, fun h => ?_⟩
        · by_contra halg
          exact not_ahead_of_next hkeys hcur hc hd (by rw [hu.kept halg, hsame]) ha
        · refine ahead_of_sub hkeys habove hcur hreached
            (fun key c hc => hsame ▸ hu.sub key c hc) fun hc => ?_
          cases hd : u.bufferedBlocks.lookup b.view with
          | none => rfl
          | some d =>
            have hd' := hu.sub _ _ hd
            rw [hsame] at hd'
            rw [hu.dropped (h hc (by rw [hd']; rfl)).1] at hd
            cases hd

end Call

theorem ahead_iff_of_same (h : t.bufferedBlocks = s.bufferedBlocks) :
    Ahead t ↔ Above t.pm.curView s.toCore := by
  rw [ahead_iff]
  unfold Above
  rw [h]

theorem handleTxn_same :
    Gives (fun t => t = s) (handleTxn env) fun _ t =>
      t.bufferedBlocks = s.bufferedBlocks ∧ t.pm.curView ≤ s.pm.start.curView := by
  refine Leads.get_bind fun t ht => ?_
  subst ht
  refine Leads.ite (fun h => (Leads.of_modify_at trivial).post fun _ u hu => ?_) fun _ =>
    Leads.pure fun u hu => ?_
  · have hstart : t.pm.start = t.pm.advanceView 0 := if_pos (by rw [h.1]; decide)
    rw [hu, hstart]
    exact ⟨rfl, Int64.le_refl _⟩
  · rw [hu]
    exact ⟨rfl, t.pm.curView_le_start⟩

theorem processNewView_same (payload : List Transaction) :
    Gives (fun t => t = s) (processNewView env (Safety.makeProposal env alg) payload) fun _ t =>
      t.bufferedBlocks = s.bufferedBlocks ∧ t.pm = s.pm := by
  have hleads : Leads (Step env alg .anything)
      (fun t => t.bufferedBlocks = s.bufferedBlocks ∧ t.pm = s.pm)
      (processNewView env (Safety.makeProposal env alg) payload)
      fun _ t => t.bufferedBlocks = s.bufferedBlocks ∧ t.pm = s.pm :=
    processNewView_leads (fun _ _ _ ht => ht)
      (fun _ _ _ hpm _ hblocks ht => ⟨hblocks.trans ht.1, hpm.trans ht.2⟩) payload
  exact (hleads.at_start ⟨rfl, rfl⟩).rel fun _ _ _ => trivial

/-- A direct call leaves a block behind exactly if it is not clean. -/
theorem ahead_step_iff (hs : Steady env alg Known.anything s)
    (habove : Above s.pm.start.curView s.toCore) {i : Input × ℕ}
    (hdirect : Direct env alg s.toCore i.1) (hok : (s.step env alg i).crashed = false) :
    Ahead (s.step env alg i) ↔ Clean env alg s i := by
  have hkeys : ∀ key c, s.bufferedBlocks.lookup key = some c → c.view - 1 = key :=
    fun key c hc => (hs.blocks key c hc).1
  have hnone : ∀ view, view ≤ s.pm.start.curView → s.bufferedBlocks.lookup (view - 1) = none :=
    fun view => lookup_of_reached hkeys habove
  have hahead : Above s.pm.curView s.toCore := fun e he =>
    Int64.lt_of_le_of_lt s.pm.curView_le_start (habove e he)
  obtain ⟨i, fuel⟩ := i
  cases i with
  | deliver m =>
    cases m with
    | block b =>
      exact Replica.step_leads (i := (.deliver (.block b), fuel))
        (Leads.bind (processBlock_ahead hkeys habove hs hdirect) fun _ => Leads.pure fun _ ht => ht)
        rfl hok
    | vote v =>
      obtain ⟨hblocks, hcur⟩ := Replica.step_leads (i := (.deliver (.vote v), fuel))
        (processVote_gives hdirect hnone) rfl hok
      rw [ahead_iff_of_same hblocks, hcur]
      unfold Clean
      cases hann : s.announces env alg v with
      | none => simpa [hann] using hahead
      | some view => simp [hann]
    | tmo tmo =>
      have hstep := Replica.step_leads (i := (.deliver (.tmo tmo), fuel)) (processRemoteTmo_leads
        (K := .anything) (Or.inl trivial) fun _ _ => Or.inl trivial) rfl hok
      rw [ahead_iff_of_same hstep.bufferedBlocks, hstep.pm]
      rfl
    | vmo vmo =>
      obtain ⟨hpm, hblocks⟩ := Replica.step_leads (i := (.deliver (.vmo vmo), fuel))
        (processRemoteVmo_gives hdirect (hnone _)) rfl hok
      rw [ahead_iff_of_same hblocks, hpm]
      rfl
  | txn =>
    obtain ⟨hblocks, hle⟩ := Replica.step_leads (i := (.txn, fuel)) handleTxn_same rfl hok
    rw [ahead_iff_of_same hblocks]
    exact iff_of_true (fun e he => Int64.lt_of_le_of_lt hle (habove e he)) trivial
  | timeout =>
    have hcall : Leads (Change env alg .anything) (fun t => t = s)
        (handleInput env alg fuel .timeout) fun _ => Apart { s.push none
          (.tmo ⟨s.pm.curView, s.id, some s.highQC⟩) with
            pm := s.pm.countTmo ⟨s.pm.curView, s.id, some s.highQC⟩ } := by
      refine Leads.bind leads_getCurView fun view => Leads.start fun t ht => ?_
      obtain ⟨rfl, rfl⟩ := ht
      exact processLocalTmo_leads (Or.inl trivial) _
    have hstep := Replica.step_leads (i := (.timeout, fuel)) hcall rfl hok
    rw [ahead_iff_of_same hstep.bufferedBlocks, hstep.pm]
    rfl
  | newView payload =>
    obtain ⟨hblocks, hpm⟩ := Replica.step_leads (i := (.newView payload, fuel))
      (processNewView_same payload) rfl hok
    rw [ahead_iff_of_same hblocks, hpm]
    exact iff_of_true hahead trivial

end Handlers

/-! ## Other calls -/

/-- A timeout or a view-change message of a replica. -/
def Own (id : NodeID) : Msg → Prop
  | .tmo t => t.nodeID = id
  | .vmo v => v.nodeID = id
  | _ => False

/-- Whatever the replica sends, there is no reason to leave a view for the block's own
or a higher one. -/
def FarOff (env : Env) (K : Msg → Prop) (s : Replica) (b : Block) : Prop :=
  OutOfReach env (fun m => K m ∨ Own s.id m) s b

section FarOff

variable {env : Env} {alg : Algorithm} {K : Known} {s t : Replica} {b : Block}

/-- What a replica sends in a call is its own. -/
theorem FarOff.outOfReach (h : FarOff env K.msg s b) (ht : Steady env alg K t)
    (hid : t.id = s.id) : OutOfReach env K.msg t b := by
  have htmo : ∀ tmo, Received K.msg t (.tmo tmo) →
      Received (fun m => K.msg m ∨ Own s.id m) s (.tmo tmo) := fun tmo hr =>
    Or.inl (hr.imp_right fun hm => (ht.sent ⟨none, .tmo tmo⟩ hm).1.trans hid)
  have hvmo : ∀ vmo, Received K.msg t (.vmo vmo) →
      Received (fun m => K.msg m ∨ Own s.id m) s (.vmo vmo) := fun vmo hr =>
    Or.inl (hr.imp_right fun hm => (ht.sent ⟨none, .vmo vmo⟩ hm).1.trans hid)
  rintro view (⟨senders, hcard, hall⟩ | ⟨hleader, senders, hcard, hall⟩ |
    ⟨⟨vmo, hreceived, hview⟩, c, hc, hcview⟩)
  · refine h view (Or.inl ⟨senders, hcard, fun node hnode => ?_⟩)
    exact (hall node hnode).imp fun tmo hsent => hsent.imp_left (htmo tmo)
  · refine h view (Or.inr (Or.inl ⟨hid ▸ hleader, senders, hcard, fun node hnode => ?_⟩))
    exact (hall node hnode).imp fun vmo hsent => hsent.imp_left (hvmo vmo)
  · exact h view (Or.inr (Or.inr ⟨⟨vmo, hvmo vmo hreceived, hview⟩, c, Or.inl hc, hcview⟩))

/-- A call keeps clear of the blocks that are far off. -/
theorem SteadyAt.ahead_step (hs : Steady env alg K s) (hopen : ∀ b, K.early b) {i : Input × ℕ}
    (hi : Supplied K i.1) (habove : Above s.pm.start.curView s.toCore)
    (hfar : ∀ b, Waiting s b → FarOff env K.msg s b) : Ahead (s.step env alg i) := by
  intro key c hc
  refine Int64.lt_of_le_of_lt (Pacemaker.curView_le_start _) ?_
  rcases hs.step_buffer hi hc with hold | hlt
  · have hchain := Replica.step_reaches hopen hs hi
    refine Steps.invariant (fun _ _ hstep hst ht => hstep.below (b := c) hst ht) hchain hs
      (fun _ => ?_) ((hfar c ⟨key, hold⟩).outOfReach (Steps.steady hchain hs)
        (Steps.later hchain).id)
    exact above_iff.mp habove key c hold
  · exact hlt

end FarOff

/-! ## Runs -/

/-- The condition on a call: it is direct and clean, or every waiting block is far off. -/
def Spared (env : Env) (alg : Algorithm) (K : Msg → Prop) (s : Replica) (i : Input × ℕ) : Prop :=
  (Direct env alg s.toCore i.1 ∧ Clean env alg s i) ∨ ∀ b, Waiting s b → FarOff env K s b

section Runs

variable (env : Env) (alg : Algorithm) (id : NodeID) (isByz : Bool)

theorem Replica.after_snoc (done : List (Input × ℕ)) (i : Input × ℕ) :
    Replica.after env alg id isByz (done ++ [i]) =
      (Replica.after env alg id isByz done).step env alg i :=
  Replica.run_append ..

/-- The very first view is entered before anything is buffered. -/
theorem Replica.after_waiting (inputs : List (Input × ℕ)) {b : Block}
    (hb : Waiting (Replica.after env alg id isByz inputs) b) : 1 < b.view := by
  induction inputs using List.reverseRecOn with
  | nil =>
    obtain ⟨view, hb⟩ := hb
    simp [Replica.after, Replica.run, Replica.new] at hb
  | append_singleton done i ih =>
    obtain ⟨view, hb⟩ := hb
    rw [Replica.after_snoc] at hb
    rcases (Replica.after_steady env alg id isByz done [i]).step_buffer
      (Supplied.delivered (by simp)) hb with hold | hlt
    · exact ih ⟨view, hold⟩
    · exact Int64.lt_of_le_of_lt (Pacemaker.one_le_start _) hlt

theorem Replica.after_above {inputs : List (Input × ℕ)}
    (h : Ahead (Replica.after env alg id isByz inputs)) :
    Above (Replica.after env alg id isByz inputs).pm.start.curView
      (Replica.after env alg id isByz inputs).toCore := by
  rw [above_iff, Pacemaker.start_curView]
  intro key b hb
  split_ifs
  · exact Replica.after_waiting env alg id isByz inputs ⟨key, hb⟩
  · exact h key b hb

end Runs

end Bamboo
