import Bamboo.Reasons

/-!
# The transitions of a replica

What one handler does is a chain of small transitions, each with the guard under
which the code makes it. The invariants of a replica are proved for the transitions,
so that the handlers need to be taken apart only once.

`Clerical` transitions deal with stored blocks, votes and certificates, and an
`Act` may also deal with views, messages and blocks that wait. `Change` adds what
leaves a handler something to do: a block taken out of the buffer is to be
processed, or has been, and a message that the replica broadcasts and is to count
itself has not been counted. `Step` adds new-view events, proposals and the crash.
-/
namespace Bamboo

open Relation

section

variable (env : Env) (alg : Algorithm) (K : Known)

inductive Clerical : Replica → Replica → Prop
  | raise (s : Replica) (qc : QC)
      (h : Accepted env K s qc ∨ ∃ core b, inHand s.trace = some (core, b) ∧ K.block b ∧
        b.qc = some qc) :
      Clerical s (s.raiseHighQC qc)
  | lock (s : Replica) (qc : QC) (view : View) (h : Accepted env K s qc)
      (target : LockTarget s.bc qc view alg) : Clerical s (s.raiseLock view)
  | bufferQC (s : Replica) (qc : QC) (h : Held K s qc) : Clerical s (s.bufferQC qc)
  | dropQC (s : Replica) (id : Identifier) :
      Clerical s { s with bufferedQCs := s.bufferedQCs.erase id }
  | store (s : Replica) (core : Core) (b : Block) (bc : BlockChain)
      (hand : inHand s.trace = some (core, b)) (passed : Passed s.pm b.view)
      (leader : alg ≠ .fhs → env.election.isLeader b.proposer b.view = true)
      (h : s.bc.addBlock b = .ok bc) :
      Clerical s { s with bc := bc }
  | tally (s : Replica) (v : Vote) (bc : BlockChain) (h : Counted env K s v)
      (add : s.bc.addVote env v = (none, bc)) : Clerical s { s with bc := bc }
  | build (s : Replica) (v : Vote) (qc : QC) (bc : BlockChain) (h : Counted env K s v)
      (add : s.bc.addVote env v = (some qc, bc)) :
      Clerical s ({ s with bc := bc }.record (.built s.toCore { qc with leader := s.id }))
  | commit (s : Replica) (qc : QC) (head : Block) (committed forked : List Block)
      (bc : BlockChain) (h : CommitGuard env K s qc head alg)
      (done : s.bc.commitBlock head.id s.pm.curView = .ok (.ok (committed, forked), bc)) :
      Clerical s ({ s with
        bc := bc
        committedBlocks := s.committedBlocks ++ committed
        forkedBlocks := s.forkedBlocks ++ forked }.record (.commit s.toCore qc head committed))
  | commitFailed (s : Replica) (id : Identifier) (e : Err) (bc : BlockChain)
      (h : s.bc.commitBlock id s.pm.curView = .ok (.error e, bc)) :
      Clerical s { s with bc := bc }

inductive Act : Replica → Replica → Prop
  | clerical {s s' : Replica} (h : Clerical env alg K s s') : Act s s'
  | handle (s : Replica) (b : Block) (h : K.block b) : Act s (s.record (.handle s.toCore b))
  | vote (s : Replica) (core : Core) (b : Block) (qc : QC) (v : Vote)
      (h : VoteGuard env alg core s b qc) (made : makeVote env b.view s.id b.id = .ok v) :
      Act s (s.record (.vote s.toCore b v))
  | send (s : Replica) (dest : Option NodeID) (m : Msg) (h : Sent env alg K s dest m)
      (uncounted : dest = none → Uncounted env s m) : Act s (s.push dest m)
  | buffer (s : Replica) (b : Block) (h : K.block b) (early : K.early b) :
      Act s { s with bufferedBlocks := s.bufferedBlocks.insert (b.view - 1) b }
  | keepVmo (s : Replica) (vmo : VMO) (h : Received K.msg s (.vmo vmo)) :
      Act s { s with recivedVMO := s.recivedVMO.insert (vmo.view - 1) vmo }
  | keepBlock (s : Replica) (b : Block) (h : K.block b) :
      Act s { s with recivedBlock := s.recivedBlock.insert (b.view - 1) b }
  | release (s : Replica) (view : View) :
      Act s { s with
        recivedVMO := s.recivedVMO.erase view, recivedBlock := s.recivedBlock.erase view }
  | start (s : Replica) : Act s { s with pm := s.pm.advanceView 0 }
  | leave (s : Replica) (view : View) (h : Justified env K.msg s view) :
      Act s { s with pm := s.pm.advanceView view }
  | countTmo (s : Replica) (tmo : TMO) (h : Received K.msg s (.tmo tmo)) :
      Act s { s with pm := s.pm.countTmo tmo }
  | countVmo (s : Replica) (vmo : VMO) (h : Received K.msg s (.vmo vmo))
      (leader : env.election.findLeaderFor (vmo.view + 1) = s.id) :
      Act s { s with pm := s.pm.countVmo vmo }
  | announce (s : Replica) (vmo : VMO) (h : Sent env alg K s none (.vmo vmo))
      (leader : env.election.findLeaderFor (vmo.view + 1) = s.id) :
      Act s { s.push none (.vmo vmo) with pm := s.pm.countVmo vmo }

inductive Change : Replica → Replica → Prop
  | act {s s' : Replica} (h : Act env alg K s s') : Change s s'
  | unbuffer (s : Replica) (view : View) :
      Change s { s with bufferedBlocks := s.bufferedBlocks.erase view }
  | broadcast (s : Replica) (m : Msg) (h : Sent env alg K s none m) : Change s (s.push none m)

inductive Step : Replica → Replica → Prop
  | change {s s' : Replica} (h : Change env alg K s s') : Step s s'
  | enter (s : Replica) (view : View) (h : s.pm.newViewChan[s.entered]? = some view) :
      Step s { s with entered := s.entered + 1 }
  | propose (s : Replica) (b : Block) (h : Proposal env s b) :
      Step s (s.record (.propose s.toCore b))
  | crash (s : Replica) : Step s { s with crashed := true }

end

variable {env : Env} {alg : Algorithm} {K K' : Known} {s s' : Replica}

/-! ## What a transition leaves alone -/

/-- A change to the stored blocks, the certificates and the lock. What may be
recorded is neither a vote nor a proposal. -/
structure Apart (s s' : Replica) : Prop where
  id : s'.id = s.id
  pm : s'.pm = s.pm
  recivedVMO : s'.recivedVMO = s.recivedVMO
  recivedBlock : s'.recivedBlock = s.recivedBlock
  bufferedBlocks : s'.bufferedBlocks = s.bufferedBlocks
  outbox : s'.outbox = s.outbox
  entered : s'.entered = s.entered
  trace : ∃ recent, s'.trace = recent ++ s.trace ∧
    ∀ e ∈ recent, e.voted = none ∧ e.proposed = none

theorem Apart.refl (s : Replica) : Apart s s :=
  ⟨rfl, rfl, rfl, rfl, rfl, rfl, rfl, [], rfl, by simp⟩

theorem Apart.trans {t : Replica} (h : Apart s s') (h' : Apart s' t) : Apart s t := by
  obtain ⟨recent, htrace, hnone⟩ := h.trace
  obtain ⟨recent', htrace', hnone'⟩ := h'.trace
  refine ⟨h'.id.trans h.id, h'.pm.trans h.pm, h'.recivedVMO.trans h.recivedVMO,
    h'.recivedBlock.trans h.recivedBlock, h'.bufferedBlocks.trans h.bufferedBlocks,
    h'.outbox.trans h.outbox, h'.entered.trans h.entered, recent' ++ recent, ?_, ?_⟩
  · rw [htrace', htrace, List.append_assoc]
  · exact fun e he => (List.mem_append.mp he).elim (hnone' e) (hnone e)

theorem Clerical.apart (h : Clerical env alg K s s') : Apart s s' := by
  cases h with
  | build v qc bc _ _ =>
    exact ⟨rfl, rfl, rfl, rfl, rfl, rfl, rfl, [_], rfl, by simp [Event.voted, Event.proposed]⟩
  | commit qc head committed forked bc _ _ =>
    exact ⟨rfl, rfl, rfl, rfl, rfl, rfl, rfl, [_], rfl, by simp [Event.voted, Event.proposed]⟩
  | _ => exact ⟨rfl, rfl, rfl, rfl, rfl, rfl, rfl, [], rfl, by simp⟩

theorem Clerical.inHand_eq (h : Clerical env alg K s s') : inHand s'.trace = inHand s.trace := by
  cases h <;> rfl

/-- Neither is a new-view event taken nor a block proposed. -/
structure Idle (s s' : Replica) : Prop where
  entered : s'.entered = s.entered
  proposed : s'.trace.filterMap Event.proposed = s.trace.filterMap Event.proposed

theorem Idle.refl (s : Replica) : Idle s s := ⟨rfl, rfl⟩

theorem Idle.trans {t : Replica} (h : Idle s s') (h' : Idle s' t) : Idle s t :=
  ⟨h'.entered.trans h.entered, h'.proposed.trans h.proposed⟩

theorem Apart.idle (h : Apart s s') : Idle s s' := by
  obtain ⟨recent, htrace, hnone⟩ := h.trace
  have hrecent : recent.filterMap Event.proposed = [] :=
    List.filterMap_eq_nil_iff.mpr fun e he => (hnone e he).2
  exact ⟨h.entered, by rw [htrace, List.filterMap_append, hrecent, List.nil_append]⟩

theorem Change.idle (h : Change env alg K s s') : Idle s s' := by
  cases h with
  | act h =>
    cases h with
    | clerical h => exact h.apart.idle
    | _ => exact ⟨rfl, rfl⟩
  | _ => exact ⟨rfl, rfl⟩

/-! ## Nothing is taken back -/

theorem le_raised (a b : View) : a ≤ if a < b then b else a := by
  split_ifs with h
  · exact Int64.le_of_lt h
  · exact Int64.le_refl a

theorem Clerical.later (h : Clerical env alg K s s') : Later s s' := by
  have hsame := h.apart
  refine ⟨⟨hsame.id, hsame.outbox ▸ List.prefix_rfl, hsame.pm ▸ List.prefix_rfl⟩, ?_, ?_, ?_, ?_⟩
  · cases h <;> rfl
  · obtain ⟨recent, htrace, -⟩ := hsame.trace
    exact htrace ▸ List.suffix_append recent s.trace
  · cases h with
    | lock => exact le_raised _ _
    | _ => exact Int64.le_refl _
  · cases h with
    | raise qc _ =>
      simp only [Replica.raiseHighQC]
      split_ifs with hlt
      · exact Int64.le_of_lt hlt
      · exact Int64.le_refl _
    | _ => exact Int64.le_refl _

theorem Pacemaker.advanceView_chan (p : Pacemaker) (view : View) :
    p.newViewChan <+: (p.advanceView view).newViewChan := by
  unfold Pacemaker.advanceView
  split_ifs
  · exact List.prefix_rfl
  · exact List.prefix_append _ _

theorem Pacemaker.elim_chan (p : Pacemaker) (o : Option View) :
    p.newViewChan <+: (o.elim p p.advanceView).newViewChan := by
  cases o with
  | none => exact List.prefix_rfl
  | some view => exact p.advanceView_chan view

theorem Pacemaker.countTmo_chan (p : Pacemaker) (tmo : TMO) :
    p.newViewChan <+: (p.countTmo tmo).newViewChan := by
  have h := (p.processRemoteTmo tmo).2.elim_chan (p.processRemoteTmo tmo).1
  rwa [(processRemoteTmo_keeps p tmo).2] at h

theorem Pacemaker.countVmo_chan (p : Pacemaker) (vmo : VMO) :
    p.newViewChan <+: (p.countVmo vmo).newViewChan := by
  have h := (p.processRemoteVmo vmo).2.elim_chan (p.processRemoteVmo vmo).1
  rwa [(processRemoteVmo_keeps p vmo).2] at h

theorem later_push (s : Replica) (dest : Option NodeID) (m : Msg) : Later s (s.push dest m) :=
  { Later.refl s with outbox := List.prefix_append _ _ }

theorem later_record (s : Replica) (e : Event) : Later s (s.record e) :=
  { Later.refl s with trace := List.suffix_cons _ _ }

theorem later_pm {p : Pacemaker} (h : s.pm.newViewChan <+: p.newViewChan) :
    Later s { s with pm := p } :=
  { Later.refl s with newViewChan := h }

theorem Act.later (h : Act env alg K s s') : Later s s' := by
  cases h with
  | clerical h => exact h.later
  | handle b _ => exact later_record s _
  | vote core b qc v _ _ => exact later_record s _
  | send dest m _ _ => exact later_push s dest m
  | start => exact later_pm (s.pm.advanceView_chan 0)
  | leave view _ => exact later_pm (s.pm.advanceView_chan view)
  | countTmo tmo _ => exact later_pm (s.pm.countTmo_chan tmo)
  | countVmo vmo _ _ => exact later_pm (s.pm.countVmo_chan vmo)
  | announce vmo _ _ =>
    exact (later_push s none (.vmo vmo)).trans (later_pm (s.pm.countVmo_chan vmo))
  | _ => exact { Later.refl s with }

theorem later_unbuffer (s : Replica) (view : View) :
    Later s { s with bufferedBlocks := s.bufferedBlocks.erase view } :=
  { Later.refl s with }

theorem Change.later (h : Change env alg K s s') : Later s s' := by
  cases h with
  | act h => exact h.later
  | unbuffer view => exact later_unbuffer s view
  | broadcast m _ => exact later_push s none m

theorem Step.later (h : Step env alg K s s') : Later s s' := by
  cases h with
  | change h => exact h.later
  | propose b _ => exact later_record s _
  | enter view _ => exact { Later.refl s with }
  | crash => exact { Later.refl s with }

theorem Steps.later (h : ReflTransGen (Step env alg K) s s') : Later s s' := by
  induction h with
  | refl => exact .refl s
  | tail _ hstep ih => exact ih.trans hstep.later

/-! ## What is stored -/

/-- A transition keeps the forest sound and stores the block in hand at most. -/
theorem Clerical.forest (h : Clerical env alg K s s') (hs : s.bc.forrest.Sound) :
    s'.bc.forrest.Sound ∧ ∀ id p, s'.bc.forrest.getVertex id = some p →
      s.bc.forrest.getVertex id = some p ∨ ∃ core, inHand s.trace = some (core, p) := by
  have hkept : ∀ f, LevelledForest.Forgets s.bc.forrest f →
      f.Sound ∧ ∀ id p, f.getVertex id = some p →
        s.bc.forrest.getVertex id = some p ∨ ∃ core, inHand s.trace = some (core, p) :=
    fun f hf => ⟨hf.sound hs, fun _ _ hp => Or.inl (hf.getVertex hp)⟩
  cases h with
  | store core b bc hand _ _ hadd =>
    obtain ⟨f, hf, rfl⟩ := BlockChain.addBlock_ok hadd
    obtain ⟨hsound, -, hget⟩ := LevelledForest.addVertex_spec hs hf
    refine ⟨hsound, fun id p hp => ?_⟩
    rw [hget] at hp
    split_ifs at hp
    · cases hp
      exact Or.inr ⟨core, hand⟩
    · exact Or.inl hp
  | tally v bc _ hadd =>
    have hbc : bc = (s.bc.addVote env v).2 := by rw [hadd]
    subst hbc
    exact hkept _ (LevelledForest.Forgets.refl _)
  | build v qc bc _ hadd =>
    have hbc : bc = (s.bc.addVote env v).2 := by rw [hadd]
    subst hbc
    exact hkept _ (LevelledForest.Forgets.refl _)
  | commit qc head committed forked bc _ hc =>
    exact hkept _ (BlockChain.commitBlock_forgets hc).1
  | commitFailed id e bc hc => exact hkept _ (BlockChain.commitBlock_forgets hc).1
  | _ => exact hkept _ (LevelledForest.Forgets.refl _)

theorem Act.forest (h : Act env alg K s s') (hs : s.bc.forrest.Sound) :
    s'.bc.forrest.Sound ∧ ∀ id p, s'.bc.forrest.getVertex id = some p →
      s.bc.forrest.getVertex id = some p ∨ ∃ core, inHand s.trace = some (core, p) := by
  cases h with
  | clerical h => exact h.forest hs
  | _ => exact ⟨hs, fun _ _ hp => Or.inl hp⟩

theorem Step.forest (h : Step env alg K s s') (hs : s.bc.forrest.Sound) :
    s'.bc.forrest.Sound ∧ ∀ id p, s'.bc.forrest.getVertex id = some p →
      s.bc.forrest.getVertex id = some p ∨ ∃ core, inHand s.trace = some (core, p) := by
  cases h with
  | change h =>
    cases h with
    | act h => exact h.forest hs
    | _ => exact ⟨hs, fun _ _ hp => Or.inl hp⟩
  | _ => exact ⟨hs, fun _ _ hp => Or.inl hp⟩

/-! ## More knowledge, more transitions -/

section Le

variable (hK : K.Le K')
include hK

theorem Clerical.le (h : Clerical env alg K s s') : Clerical env alg K' s s' := by
  cases h with
  | raise qc hq =>
    apply Clerical.raise s qc
    rcases hq with hq | ⟨core, b, hand, hb, hqc⟩
    · exact Or.inl (hq.le hK)
    · exact Or.inr ⟨core, b, hand, hK.msg _ hb, hqc⟩
  | lock qc view hq target => exact .lock s qc view (hq.le hK) target
  | bufferQC qc hq => exact .bufferQC s qc (hq.le hK)
  | dropQC id => exact .dropQC s id
  | store core b bc hand hpassed hleader hadd => exact .store s core b bc hand hpassed hleader hadd
  | tally v bc hv hadd => exact .tally s v bc (hv.le hK) hadd
  | build v qc bc hv hadd => exact .build s v qc bc (hv.le hK) hadd
  | commit qc head committed forked bc hg hdone =>
    exact .commit s qc head committed forked bc (hg.le hK) hdone
  | commitFailed id e bc hc => exact .commitFailed s id e bc hc

theorem Act.le (h : Act env alg K s s') : Act env alg K' s s' := by
  cases h with
  | clerical h => exact .clerical (h.le hK)
  | handle b hb => exact .handle s b (hK.msg _ hb)
  | vote core b qc v hg hmade => exact .vote s core b qc v hg hmade
  | send dest m hm hu => exact .send s dest m (hm.le hK) hu
  | buffer b hb he => exact .buffer s b (hK.msg _ hb) (hK.early b he)
  | keepVmo vmo hr => exact .keepVmo s vmo (hr.le hK)
  | keepBlock b hb => exact .keepBlock s b (hK.msg _ hb)
  | release view => exact .release s view
  | start => exact .start s
  | leave view hj => exact .leave s view (hj.le hK)
  | countTmo tmo hr => exact .countTmo s tmo (hr.le hK)
  | countVmo vmo hr hleader => exact .countVmo s vmo (hr.le hK) hleader
  | announce vmo hm hleader => exact .announce s vmo (hm.le hK) hleader

theorem Change.le (h : Change env alg K s s') : Change env alg K' s s' := by
  cases h with
  | act h => exact .act (h.le hK)
  | unbuffer view => exact .unbuffer s view
  | broadcast m hm => exact .broadcast s m (hm.le hK)

theorem Step.le (h : Step env alg K s s') : Step env alg K' s s' := by
  cases h with
  | change h => exact .change (h.le hK)
  | enter view hview => exact .enter s view hview
  | propose b hb => exact .propose s b hb
  | crash => exact .crash s

end Le

end Bamboo
