import Bamboo.Lock
import Bamboo.Outcomes

/-!
# The lock of Fast-HotStuff

Fast-HotStuff's `processCertificate` drops every certificate below the current
view. The certificate that a block carries is older than the block, and a block
above the current view is buffered, so that the certificate of a block never
raises `preferredView`. While a block is processed the lock rises with two others: a
certificate for the block that was waiting for it, and the one that the replica
completes with its own vote. `LocksOn` says when, in terms of the state before the
call, and the handlers are followed to the vote for the block and past it.
-/
namespace Bamboo

open Stepwise

/-! ## The state in which a block is voted for -/

namespace Fhs

/-- The view when it is voted for. A replica that leads the next view and has a
certificate waiting for the block has announced the view by then. -/
def viewAt (env : Env) (s : Core) (b : Block) : View :=
  if (s.bufferedQCs.lookup b.id).isSome ∧ env.election.findLeaderFor (b.view + 1) = s.id then
    ((s.paceAt b).countVmo ⟨b.view, s.id, none⟩).curView
  else (s.paceAt b).curView

/-- The block chain when it is voted for: the block has been added, and what its
certificate commits has been pruned. -/
def chainAt (s : Core) (b : Block) (qc : QC) : Except Fault BlockChain := do
  let bc ← s.bc.addBlock b
  if 2 ≤ qc.view ∧ qc.view + 1 = b.view then
    match ← TwoChain.commitRule bc qc with
    | .ok (some head) => return (← bc.commitBlock head.id (s.paceAt b).curView).2
    | _ => return bc
  else return bc

/-- A certificate waits for the block that `processCertificate` accepts. -/
def Awaited (env : Env) (s : Core) (b : Block) : Prop :=
  ∃ q ∈ s.bufferedQCs.lookup b.id, 2 ≤ q.view ∧ (s.paceAt b).curView ≤ q.view ∧
    quorumIsVerified env s q = .ok true

/-- The replica collects the votes for the block, has not left its view, and its
own vote is the last one needed. -/
def Completes (env : Env) (s : Core) (b : Block) (bc : BlockChain) : Prop :=
  env.election.findLeaderFor (b.view + 1) = s.id ∧ viewAt env s b ≤ b.view ∧
    ∃ v ∈ (makeVote env b.view s.id b.id).toOption, (bc.addVote env v).1.isSome

/-- What raises the lock while a block is processed. -/
def LocksOn (env : Env) (s : Core) (b : Block) (qc : QC) : Prop :=
  ∃ bc ∈ (chainAt s b qc).toOption, (bc.forrest.getVertex b.id).isSome ∧
    (Awaited env s b ∨ Completes env s b bc)

/-- No buffered block is taken up along with the block: neither one of the same view,
for a view-change message that was kept, nor the one of the next view. -/
structure Single (env : Env) (s : Core) (b : Block) : Prop where
  same : (s.recivedVMO.lookup (b.view - 1)).isSome → s.bufferedBlocks.lookup (b.view - 1) = none
  next : s.bufferedBlocks.lookup b.view = none ∨
    ((s.paceAt b).curView = b.view ∧ env.election.findLeaderFor (b.view + 1) ≠ s.id)

instance (env : Env) (s : Core) (b : Block) : Decidable (Awaited env s b) := by
  unfold Awaited
  infer_instance

instance (env : Env) (s : Core) (b : Block) (bc : BlockChain) :
    Decidable (Completes env s b bc) := by
  unfold Completes
  infer_instance

instance (env : Env) (s : Core) (b : Block) (qc : QC) : Decidable (LocksOn env s b qc) := by
  unfold LocksOn
  infer_instance

end Fhs

namespace Fhs

variable {env : Env} {s t : Replica} {b : Block} {qc : QC} {bc : BlockChain}
  {processBlock : Block → Exec (Option Err)} {fuel : ℕ}

/-! ## Up to the vote -/

/-- Between taking up a block and looking for a certificate that waits for it, the
lock and what waits are as they were before the call. -/
structure Underway (s : Replica) (b : Block) (bc : BlockChain) (t : Replica) : Prop where
  id : t.id = s.id
  isByz : t.isByz = s.isByz
  lock : t.preferredView = s.preferredView
  bufferedQCs : t.bufferedQCs = s.bufferedQCs
  bufferedBlocks : t.bufferedBlocks = s.bufferedBlocks
  pm : t.pm = s.toCore.paceAt b
  chain : t.bc = bc
  unvoted : Unvoted s t

theorem underway_of_takesUp (h : TakesUp b s t) : Underway s b s.bc t := by
  obtain ⟨core, htrace⟩ := h.trace
  exact ⟨h.id, h.isByz, h.preferredView, h.bufferedQCs, h.bufferedBlocks, h.pm, h.bc,
    [.handle core b], htrace, rfl⟩

theorem addBlock_gives :
    Gives (Underway s b s.bc) (addBlock b) fun _ t =>
      ∃ bc, s.bc.addBlock b = .ok bc ∧ Underway s b bc t := by
  refine Leads.start fun t ht => (addBlock_leads fun _ _ => trivial).post fun _ u hu => ?_
  obtain ⟨bc, hbc, rfl⟩ := hu
  exact ⟨bc, ht.chain ▸ hbc, { ht with chain := rfl }⟩

/-- The certificate of the block is older than the current view and is dropped. -/
theorem processBlockQC_gives (hold : qc.view < (s.toCore.paceAt b).curView) :
    Gives (Underway s b bc) (processBlockQC (rules env) b qc) fun _ => Underway s b bc := by
  refine Leads.bind (Q := fun _ => Underway s b bc)
    (Leads.of_modify fun t ht => ⟨trivial, { ht with }⟩) fun _ => ?_
  refine Leads.get_bind fun t ht => Leads.at_start ?_ ht
  refine Leads.ite (fun _ => ?_) fun _ => Leads.pure fun _ hu => hu
  refine Leads.bind leads_getCurView fun curView => ?_
  refine Leads.ite (fun _ => Leads.pure fun _ hu => hu.1) fun hge => ?_
  refine Leads.start fun u hu => absurd ?_ hge
  rw [hu.2, hu.1.pm]
  exact hold

theorem commit_gives {head : Block} :
    Gives (Underway s b bc) (commit qc head) fun _ t =>
      ∃ r bc', bc.commitBlock head.id (s.toCore.paceAt b).curView = .ok (r, bc') ∧
        Underway s b bc' t := by
  unfold commit
  refine Leads.get_bind fun t ht => Leads.bind (leads_call _) fun r => Leads.assume fun hr => ?_
  obtain ⟨res, bc'⟩ := r
  rw [ht.chain, ht.pm] at hr
  cases res with
  | error e =>
    refine Leads.bind (Q := fun _ => Underway s b bc') (fun u hu => ⟨.single trivial, ?_⟩)
      fun _ => Leads.pure fun u hu => ⟨_, _, hr, hu⟩
    exact { ht with chain := rfl }
  | ok res =>
    refine Leads.bind (Q := fun _ => Underway s b bc') (fun u hu => ⟨.single trivial, ?_⟩)
      fun _ => Leads.pure fun u hu => ⟨_, _, hr, hu⟩
    exact ⟨ht.id, ht.isByz, ht.lock, ht.bufferedQCs, ht.bufferedBlocks, ht.pm, rfl,
      ht.unvoted.record rfl⟩

theorem checkCommit_gives (hadd : s.bc.addBlock b = .ok bc) :
    Gives (Underway s b bc) (TwoChain.checkCommit b qc) fun _ t =>
      ∃ bc', chainAt s.toCore b qc = .ok bc' ∧ Underway s b bc' t := by
  unfold TwoChain.checkCommit
  refine Leads.ite (fun hview => ?_) fun hview => Leads.pure fun t ht => ⟨bc, ?_, ht⟩
  · refine Leads.get_bind fun t ht => Leads.at_start ?_ ht
    rw [ht.chain]
    refine Leads.bind (leads_call _) fun r => Leads.assume fun hrule => ?_
    rcases r with e | _ | head
    · refine Leads.pure fun u hu => ⟨bc, ?_, hu⟩
      simp [chainAt, hadd, hview, hrule, bind, Except.bind, pure, Except.pure]
    · refine Leads.pure fun u hu => ⟨bc, ?_, hu⟩
      simp [chainAt, hadd, hview, hrule, bind, Except.bind, pure, Except.pure]
    · refine Leads.bind (commit_gives.post fun _ u hu =>
        show ∃ bc', chainAt s.toCore b qc = .ok bc' ∧ Underway s b bc' u from ?_) fun res => ?_
      · obtain ⟨r, bc', hcommit, hu⟩ := hu
        refine ⟨bc', ?_, hu⟩
        simp [chainAt, hadd, hview, hrule, hcommit, bind, Except.bind, pure, Except.pure]
      · cases res with
        | error e => exact Leads.pure fun _ hu => hu
        | ok _ => exact Leads.pure fun _ hu => hu
  · simp [chainAt, hadd, hview, bind, Except.bind, pure, Except.pure]

/-! ## Certificates -/

/-- The certificate raises the lock. -/
def Raises (env : Env) (s : Core) (q : QC) : Prop :=
  2 ≤ q.view ∧ s.pm.curView ≤ q.view ∧ quorumIsVerified env s q = .ok true ∧
    (s.bc.forrest.getVertex q.blockID).isSome

/-- The certificate has been dealt with. -/
structure Dealt (env : Env) (s : Replica) (q : QC) (t : Replica) : Prop where
  rest : ∃ lock high qcs, t = { s with
    preferredView := lock, highQC := high, bufferedQCs := qcs }
  raised : Raises env s.toCore q → q.view ≤ t.preferredView
  kept : ¬ Raises env s.toCore q → t.preferredView = s.preferredView

theorem Dealt.unchanged {q : QC} (h : ¬ Raises env s.toCore q) : Dealt env s q s :=
  ⟨⟨_, _, _, rfl⟩, fun hr => absurd hr h, fun _ => rfl⟩

theorem Dealt.other {q : QC} (h : Dealt env s q t) (high : QC) (qcs : Map Identifier QC) :
    Dealt env s q { t with highQC := high, bufferedQCs := qcs } := by
  obtain ⟨⟨lock, _, _, rfl⟩, hraised, hkept⟩ := h
  exact ⟨⟨_, _, _, rfl⟩, hraised, hkept⟩

theorem updatePreferredView_gives {q : QC} (hview : s.pm.curView ≤ q.view)
    (hver : quorumIsVerified env s.toCore q = .ok true) :
    Gives (fun t => t = s) (updatePreferredView q) fun _ => Dealt env s q := by
  unfold updatePreferredView
  refine Leads.ite (fun hlow => ?_) fun hlow => ?_
  · refine Leads.pure fun t ht => ht ▸ Dealt.unchanged fun h => ?_
    exact absurd hlow (Int64.not_lt.mpr h.1)
  refine Leads.get_bind fun t ht => ?_
  subst ht
  cases hb : t.bc.getBlockByID q.blockID with
  | error e =>
    have hno : ¬ Raises env t.toCore q := by
      intro h
      obtain ⟨c, hc⟩ := Option.isSome_iff_exists.mp h.2.2.2
      rw [BlockChain.getBlockByID_ok.mpr hc] at hb
      cases hb
    exact Leads.pure fun u hu => hu.symm ▸ Dealt.unchanged hno
  | ok c =>
    have hraise : Raises env t.toCore q :=
      ⟨Int64.not_lt.mp hlow, hview, hver, by simp [BlockChain.getBlockByID_ok.mp hb]⟩
    refine Leads.bind (Q := fun _ => Dealt env t q) (Leads.of_modify fun u hu => ⟨trivial, ?_⟩)
      fun _ => Leads.pure fun _ hu => hu
    subst hu
    refine ⟨⟨_, _, _, rfl⟩, fun _ => ?_, fun h => absurd hraise h⟩
    simp only [Replica.raiseLock]
    split_ifs with hlt
    · exact Int64.le_refl _
    · exact Int64.not_lt.mp hlt

theorem processCertificate_gives {q : QC} :
    Gives (fun t => t = s) (processCertificate env q) fun _ => Dealt env s q := by
  unfold processCertificate
  refine Leads.bind leads_getCurView fun curView => Leads.ite (fun hlt => ?_) fun hge => ?_
  · refine Leads.pure fun t ht => ?_
    obtain ⟨rfl, rfl⟩ := ht
    exact Dealt.unchanged fun h => absurd hlt (Int64.not_lt.mpr h.2.1)
  refine Leads.get_bind fun t ht => ?_
  obtain ⟨rfl, rfl⟩ := ht
  refine Leads.bind (leads_call _) fun ok => Leads.assume fun hok => ?_
  refine Leads.ite (fun hyes => ?_) fun hfalse => ?_
  · rw [hyes] at hok
    refine Leads.bind (updatePreferredView_gives (Int64.not_lt.mp hge) hok) fun r => ?_
    cases r with
    | error e => exact Leads.of_modify fun u hu => ⟨trivial, hu.other _ _⟩
    | ok _ => exact Leads.of_modify fun u hu => ⟨trivial, hu.other _ _⟩
  · have hno : ¬ Raises env t.toCore q := by
      intro h
      cases hok.symm.trans h.2.2.1
      exact hfalse rfl
    exact Leads.pure fun u hu => hu.symm ▸ Dealt.unchanged hno

/-! ## The vote -/

def Stored (bc : BlockChain) (b : Block) : Prop := (bc.forrest.getVertex b.id).isSome

/-- If `A`, the lock is past the block; if not, it is where it was. -/
def LockedIf (A : Prop) (s : Replica) (b : Block) (t : Replica) : Prop :=
  (A ∧ b.view ≤ t.preferredView) ∨ (¬ A ∧ t.preferredView = s.preferredView)

theorem LockedIf.congr {A A' : Prop} (h : LockedIf A s b t) (hA : A ↔ A') : LockedIf A' s b t := by
  unfold LockedIf at h ⊢
  rwa [← hA]

/-- The block is about to be voted for. -/
structure Decided (env : Env) (s : Replica) (b : Block) (bc : BlockChain) (t : Replica) : Prop where
  id : t.id = s.id
  isByz : t.isByz = s.isByz
  bufferedBlocks : t.bufferedBlocks = s.bufferedBlocks
  chain : t.bc = bc
  view : t.pm.curView = viewAt env s.toCore b
  unvoted : Unvoted s t
  lock : LockedIf (Awaited env s.toCore b ∧ Stored bc b) s b t

theorem raises_iff {q : QC} (ht : Underway s b bc t) (hq : s.bufferedQCs.lookup b.id = some q)
    (hid : q.blockID = b.id) :
    Raises env t.toCore q ↔ Awaited env s.toCore b ∧ Stored bc b := by
  have hver : quorumIsVerified env t.toCore q = quorumIsVerified env s.toCore q := by
    unfold quorumIsVerified
    rw [ht.id]
  unfold Raises Awaited Stored
  rw [hver, ht.pm, ht.chain, hid, hq]
  simp [and_assoc]

theorem processBufferedQC_gives
    (hqcs : ∀ q, s.bufferedQCs.lookup b.id = some q → q.blockID = b.id)
    (hview : b.view ≤ (s.toCore.paceAt b).curView) :
    Gives (Underway s b bc) (processBufferedQC env (rules env) processBlock fuel b)
      fun _ => Decided env s b bc := by
  unfold processBufferedQC
  refine Leads.get_bind fun t ht => ?_
  rw [ht.bufferedQCs]
  cases hq : s.bufferedQCs.lookup b.id with
  | none =>
    refine Leads.pure fun u hu => hu ▸ ⟨ht.id, ht.isByz, ht.bufferedBlocks, ht.chain, ?_,
      ht.unvoted, Or.inr ⟨?_, ht.lock⟩⟩
    · rw [ht.pm, viewAt, if_neg (by simp [hq])]
    · simp [Awaited, hq]
  | some q =>
    have hlock : ∀ u, Dealt env t q u →
        LockedIf (Awaited env s.toCore b ∧ Stored bc b) s b u := by
      intro u hu
      have hiff : Raises env t.toCore q ↔ _ := raises_iff ht hq (hqcs q hq)
      by_cases hr : Raises env t.toCore q
      · have hpast : b.view ≤ q.view := Int64.le_trans hview (ht.pm ▸ hr.2.1)
        exact Or.inl ⟨hiff.mp hr, Int64.le_trans hpast (hu.raised hr)⟩
      · exact Or.inr ⟨mt hiff.mpr hr, (hu.kept hr).trans ht.lock⟩
    refine Leads.bind processCertificate_gives fun _ => ?_
    refine Leads.bind (Q := fun _ => Dealt env t q)
      (Leads.of_modify fun u hu => ⟨trivial, hu.other u.highQC _⟩) fun _ => ?_
    refine Leads.get_bind fun u hu => ?_
    have hl := hlock u hu
    obtain ⟨lock, high, qcs, rfl⟩ := hu.rest
    refine Leads.ite (fun hleader => ?_) fun hnot => ?_
    · refine (processLocalVmo_leads hleader trivial trivial).post fun _ w hw => ?_
      subst hw
      refine ⟨ht.id, ht.isByz, ht.bufferedBlocks, ht.chain, ?_, ht.unvoted, hl⟩
      rw [viewAt, if_pos ⟨by simp [hq], hleader.trans ht.id⟩]
      change (t.pm.countVmo _).curView = _
      rw [ht.pm]
      exact Pacemaker.countVmo_curView _ rfl ht.id
    · refine Leads.pure fun w hw => hw ▸ ⟨ht.id, ht.isByz, ht.bufferedBlocks, ht.chain, ?_,
        ht.unvoted, hl⟩
      rw [viewAt, if_neg fun h => hnot (h.2.trans ht.id.symm)]
      exact congrArg Pacemaker.curView ht.pm

theorem locksOn_iff (hchain : chainAt s.toCore b qc = .ok bc) :
    LocksOn env s.toCore b qc ↔
      (Awaited env s.toCore b ∧ Stored bc b) ∨ (Completes env s.toCore b bc ∧ Stored bc b) := by
  simp only [LocksOn, hchain, Except.toOption, Option.mem_some_iff, exists_eq_left', Stored]
  tauto

/-- The vote completes a certificate that raises the lock. -/
def Counts (env : Env) (s : Core) (v : Vote) : Prop :=
  (s.bc.addVote env v).1.isSome ∧ s.pm.curView ≤ v.view ∧
    (s.bc.forrest.getVertex v.blockID).isSome

theorem processVote_gives {v : Vote} (hhonest : s.isByz = false) (hmine : v.voter = s.id)
    (hleader : env.election.findLeaderFor (v.view + 1) = s.id) (hlow : 2 ≤ v.view) :
    Gives (fun t => t = s) (processVote env (rules env) processBlock fuel v) fun _ t =>
      t.bufferedBlocks = s.bufferedBlocks ∧ (∃ more, t.trace = more ++ s.trace) ∧
      (Counts env s.toCore v → v.view ≤ t.preferredView) ∧
      (¬ Counts env s.toCore v → t.preferredView = s.preferredView) := by
  have hcompleted : s.toCore.completed env v =
      (s.bc.addVote env v).1.map fun q => { q with leader := s.id } :=
    if_pos ⟨hhonest, fun hother => absurd hmine hother⟩
  unfold processVote
  refine Leads.bind (countVote_leads (fun _ _ _ => trivial) fun _ _ _ _ => trivial)
    fun r => Leads.start fun t ht => ?_
  obtain ⟨hr, bc', hforest, rfl⟩ := ht
  cases r with
  | none =>
    have hno : ¬ Counts env s.toCore v := by
      intro h
      rw [hcompleted, eq_comm, Option.map_eq_none_iff] at hr
      simp [Counts, hr] at h
    exact Leads.pure fun t ht => ht ▸ ⟨rfl, ⟨[], rfl⟩, fun h => absurd h hno, fun _ => rfl⟩
  | some q =>
    obtain ⟨hq, hqview, hqblock⟩ := Core.completed_eq_some hr.symm
    have hsome : (s.bc.addVote env v).1.isSome := by
      rw [hcompleted] at hr
      rw [← Option.isSome_map, ← hr]
      rfl
    refine Leads.get_bind fun t ht => ?_
    subst ht
    cases hb : bc'.getBlockByID q.blockID with
    | error e =>
      have hno : ¬ Counts env s.toCore v := by
        intro h
        obtain ⟨c, hc⟩ := Option.isSome_iff_exists.mp h.2.2
        rw [← hforest, ← hqblock] at hc
        rw [BlockChain.getBlockByID_ok.mpr hc] at hb
        cases hb
      simp only [Option.elim_some, Replica.record, hb]
      refine Leads.of_modify fun t ht => ⟨trivial, ?_⟩
      subst ht
      exact ⟨rfl, ⟨[_], rfl⟩, fun h => absurd h hno, fun _ => rfl⟩
    | ok c =>
      have hraises : Raises env { s with bc := bc' }.toCore q ↔ Counts env s.toCore v := by
        have hver : quorumIsVerified env { s with bc := bc' }.toCore q = .ok true :=
          if_neg (not_not.mpr hq)
        simp [Raises, Counts, hver, hsome, hqview, hqblock, hforest, hlow]
      simp only [Option.elim_some, Replica.record, hb]
      refine Leads.bind processCertificate_gives fun _ => ?_
      refine Leads.bind (Q := fun view t => view = q.view ∧ Dealt env _ q t)
        (Leads.pure fun t ht => ⟨rfl, ht⟩) fun view => Leads.start fun t ht => ?_
      obtain ⟨rfl, hdealt⟩ := ht
      obtain ⟨lock, high, qcs, rfl⟩ := hdealt.rest
      refine (processLocalVmo_leads (hqview ▸ hleader) trivial trivial).post fun _ u hu => ?_
      subst hu
      refine ⟨rfl, ⟨[_], rfl⟩, fun h => ?_, fun h => hdealt.kept (mt hraises.mp h)⟩
      rw [← hqview]
      exact hdealt.raised (hraises.mpr h)

/-- The vote for the block, and what follows from counting it here. -/
theorem castVote_gives (hhonest : s.isByz = false) (hlow : 2 ≤ b.view)
    (hchain : chainAt s.toCore b qc = .ok bc) :
    Gives (Decided env s b bc) (castVote env (rules env) processBlock fuel b) fun _ t =>
      t.bufferedBlocks = s.bufferedBlocks ∧ (∃ recent, t.trace = recent ++ s.trace) ∧
      LockedIf (LocksOn env s.toCore b qc) s b t ∧
      (env.election.findLeaderFor (b.view + 1) ≠ s.id → t.pm.curView = viewAt env s.toCore b) := by
  unfold castVote
  refine Leads.get_bind fun t ht => Leads.bind (leads_call _) fun v => Leads.assume fun hmade => ?_
  obtain ⟨recent, htrace, -⟩ := ht.unvoted
  obtain ⟨hview, hvoter, hblock, -⟩ := makeVote_ok hmade
  rw [ht.id] at hmade
  have hiff : LocksOn env s.toCore b qc ↔ _ := locksOn_iff hchain
  have hcompletes : Completes env s.toCore b bc ∧ Stored bc b ↔
      env.election.findLeaderFor (b.view + 1) = s.id ∧ Counts env t.toCore v := by
    simp only [Completes, Counts, Stored, hmade, Except.toOption, Option.mem_some_iff,
      exists_eq_left', ht.chain, ht.view, hview, hblock]
    tauto
  refine Leads.bind (Leads.of_modify (Q := fun _ u => u = t.record (.vote t.toCore b v))
    fun u hu => ⟨trivial, by rw [hu]⟩) fun _ => Leads.ite (fun hleader => ?_) fun hnot => ?_
  · have hmine : env.election.findLeaderFor (b.view + 1) = s.id := hleader.trans ht.id
    refine (processVote_gives (s := t.record (.vote t.toCore b v)) (ht.isByz.trans hhonest)
      hvoter (hview ▸ hleader) (hview ▸ hlow)).post fun _ u hu => ?_
    obtain ⟨hbuffered, ⟨more, hmore⟩, hraised, hkept⟩ := hu
    refine ⟨hbuffered.trans ht.bufferedBlocks, ⟨more ++ .vote t.toCore b v :: recent, ?_⟩, ?_,
      absurd hmine⟩
    · rw [hmore, List.append_assoc, List.cons_append, ← htrace]
      rfl
    · by_cases hcounts : Counts env t.toCore v
      · refine Or.inl ⟨hiff.mpr (Or.inr (hcompletes.mpr ⟨hmine, hcounts⟩)), ?_⟩
        rw [← hview]
        exact hraised hcounts
      · have hlock : u.preferredView = t.preferredView := hkept hcounts
        have hno : ¬ (Completes env s.toCore b bc ∧ Stored bc b) := fun h =>
          hcounts (hcompletes.mp h).2
        unfold LockedIf
        rw [hlock]
        exact LockedIf.congr ht.lock (by rw [hiff]; simp [hno])
  · refine Leads.of_modify fun u hu => ⟨trivial, ?_⟩
    subst hu
    have hno : ¬ (Completes env s.toCore b bc ∧ Stored bc b) := fun h =>
      hnot ((hcompletes.mp h).1.trans ht.id.symm)
    refine ⟨ht.bufferedBlocks, ⟨.vote t.toCore b v :: recent, ?_⟩, ?_, fun _ => ht.view⟩
    · rw [List.cons_append, ← htrace]
      rfl
    · exact LockedIf.congr (t := t) ht.lock (by rw [hiff]; simp [hno])

/-! ## The call -/

/-- A block of the next view is not taken up, unless that view has come. -/
theorem takeUpNext_gives (hpos : 1 ≤ b.view) (hmax : b.view < Int64.maxValue)
    (hblocks : ∀ d, s.bufferedBlocks.lookup b.view = some d → d.view - 1 = b.view)
    (hnext : s.bufferedBlocks.lookup b.view = none ∨ s.pm.curView = b.view) :
    Gives (fun t => t = s) (TwoChain.takeUpNext (Fhs.processBlock env fuel) b.view) fun _ t =>
      t.trace = s.trace ∧ t.preferredView = s.preferredView := by
  refine Leads.get_bind fun t ht => ?_
  subst ht
  cases hd : t.bufferedBlocks.lookup b.view with
  | none => exact Leads.pure fun u hu => hu ▸ ⟨rfl, rfl⟩
  | some d =>
    have hcur : t.pm.curView = b.view := hnext.resolve_left (by simp [hd])
    have hview : d.view = b.view + 1 := by
      have hkey := hblocks d hd
      grind
    have hearly : t.pm.start.curView < d.view := by
      rw [Pacemaker.start_of_pos (hcur ▸ hpos), hcur, hview, Int64.lt_iff_toInt_lt, toInt_succ hmax]
      omega
    have hshelved : Gives (fun u => u = t) (Safety.processBlock env .fhs fuel d) fun _ u =>
        u = _ := processBlock_early hearly trivial trivial
    refine hshelved.post fun _ u hu => ?_
    rw [hu]
    exact ⟨rfl, rfl⟩

theorem le_paceAt (hmax : b.view < Int64.maxValue) (h : b.view ≤ s.pm.start.curView) :
    b.view ≤ (s.toCore.paceAt b).curView := by
  unfold Core.paceAt
  split_ifs
  · exact Int64.le_trans h (Pacemaker.le_advanceView _ hmax)
  · exact h

/-- A call either casts no vote, or ends with the lock past the block if something
has raised it and where it was if nothing has. -/
theorem processBlock_gives (hhonest : s.isByz = false) (hqc : b.qc = some qc)
    (hlow : 2 ≤ qc.view) (hlt : qc.view < b.view) (hmax : b.view < Int64.maxValue)
    (hsingle : Single env s.toCore b)
    (hqcs : ∀ q, s.bufferedQCs.lookup b.id = some q → q.blockID = b.id)
    (hblocks : ∀ d, s.bufferedBlocks.lookup b.view = some d → d.view - 1 = b.view) :
    Gives (fun t => t = s) (Fhs.processBlock env fuel b) fun _ t =>
      Unvoted s t ∨ ((∃ recent, t.trace = recent ++ s.trace) ∧
        LockedIf (LocksOn env s.toCore b qc) s b t) := by
  cases fuel with
  | zero => exact Leads.throw
  | succ fuel =>
    have htwo : 2 ≤ b.view := Int64.le_of_lt (Int64.lt_of_le_of_lt hlow hlt)
    unfold Fhs.processBlock
    refine Leads.bind (takeUp_gives hsingle.same) fun ok => ?_
    by_cases hlt' : s.pm.start.curView < b.view
    · simp only [if_pos hlt']
      refine Leads.ite (fun hok => Leads.start fun t ht => ?_) fun _ => Leads.pure fun t ht => ?_
      · rw [hok] at ht
        cases ht.1
      · rw [ht.2]
        exact Or.inl (.of_eq rfl)
    simp only [if_neg hlt']
    refine Leads.ite (fun _ => ?_) fun hno => Leads.start fun t ht => absurd ht.1 hno
    refine Leads.start fun t ht => ?_
    have hview := le_paceAt hmax ht.2.reached
    refine Leads.bind (addBlock_gives.at_start (underway_of_takesUp ht.2)) fun _ => ?_
    refine Leads.start fun t ht => ?_
    obtain ⟨bc, hadd, hunder⟩ := ht
    refine Leads.get_bind fun u hu => Leads.at_start (P := Underway s b bc) ?_ (hu ▸ hunder)
    refine Leads.bind (leads_call _) fun r => Leads.assume fun _ => ?_
    rcases r with e | _ | _
    · exact Leads.ite (fun _ => Leads.throw) fun _ => Leads.pure fun _ hw => Or.inl hw.unvoted
    · exact Leads.pure fun _ hw => Or.inl hw.unvoted
    · rw [hqc]
      refine Leads.bind (processBlockQC_gives (Int64.lt_of_lt_of_le hlt hview)) fun _ => ?_
      refine Leads.ite (fun _ => Leads.pure fun _ hw => Or.inl hw.unvoted) fun _ => ?_
      refine Leads.bind (checkCommit_gives hadd) fun failed => Leads.start fun w hw => ?_
      obtain ⟨bc', hchain, hunder⟩ := hw
      cases failed with
      | some e => exact Leads.pure fun x hx => Or.inl (hx ▸ hunder.unvoted)
      | none =>
        refine Leads.bind ((processBufferedQC_gives hqcs hview).at_start hunder) fun _ => ?_
        refine Leads.bind (castVote_gives hhonest htwo hchain) fun _ => Leads.start fun x hx => ?_
        obtain ⟨hbuffered, ⟨recent, hrecent⟩, hlock, hcur⟩ := hx
        refine (takeUpNext_gives (Int64.le_trans (by decide) htwo) hmax
          (hbuffered ▸ hblocks) ?_).post fun _ y hy => Or.inr ⟨⟨recent, ?_⟩, ?_⟩
        · rw [hbuffered]
          refine hsingle.next.imp_right fun h => ?_
          rw [hcur h.2, viewAt, if_neg fun hl => h.2 hl.2]
          exact h.1
        · rw [hy.1, hrecent]
        · unfold LockedIf
          rw [hy.2]
          exact hlock

end Fhs

/-! ## Turns -/

section Turns

variable (env : Env) (id : NodeID) (inputs : List (Input × ℕ))

theorem fhs_after_honest : (Replica.after env .fhs id false inputs).isByz = false :=
  (Steps.later (Replica.new_steps env .fhs id false inputs [])).isByz

theorem fhs_step_lock_le (i : Input × ℕ) :
    (Replica.after env .fhs id false inputs).preferredView ≤
      ((Replica.after env .fhs id false inputs).step env .fhs i).preferredView :=
  (Steps.later (Replica.step_reaches (fun _ => trivial)
    (Replica.run_steady env .fhs id false inputs) (Supplied.anything i.1))).lock

end Turns

/-- The votes of nodes 1 and 2 for the block of view 3 are there before the block. -/
def fourNodes.votesBefore : List (Input × ℕ) :=
  fourNodes.timeouts 2 ++ deliverAll ((List.range 2).map fourNodes.chain) ++
    [1, 2].map fun i =>
      let sig := idealCrypto.sign i (fourNodes.chain 2).id
      (.deliver (.vote ⟨3, newNodeID i, (fourNodes.chain 2).id, [sig.1, sig.2]⟩), 8)

/-- Node 4 has announced the end of view 3 before its block is there. -/
def fourNodes.announcedFirst : List (Input × ℕ) :=
  fourNodes.timeouts 2 ++ deliverAll ((List.range 2).map fourNodes.chain) ++
    [(.deliver (.vmo ⟨3, "4", none⟩), 8)]

end Bamboo
