import Bamboo.EarlyBlocks
import Bamboo.Rejections

/-!
# What a call returns

The state in which `takeUp` and the handlers on its way return, in full. Where they
would take a block out of the buffer, there is none.
-/
namespace Bamboo

open Stepwise

/-! ## The trace of a call -/

/-- The events added to a trace. -/
def Replica.since (s t : Replica) : List Event := t.trace.take (t.trace.length - s.trace.length)

theorem Replica.since_eq {s t : Replica} {recent : List Event} (h : t.trace = recent ++ s.trace) :
    s.since t = recent := by
  simp [Replica.since, h]

/-- There may be new events, but no vote among them. -/
def Unvoted (s t : Replica) : Prop :=
  ∃ recent, t.trace = recent ++ s.trace ∧ recent.filterMap Event.voted = []

theorem Unvoted.of_eq {s t : Replica} (h : t.trace = s.trace) : Unvoted s t := ⟨[], h, rfl⟩

theorem Unvoted.record {s t : Replica} {e : Event} (h : Unvoted s t) (he : e.voted = none) :
    Unvoted s (t.record e) := by
  obtain ⟨recent, ht, hnone⟩ := h
  exact ⟨e :: recent, by simp [Replica.record, ht], by simp [hnone, he]⟩

/-! ## Views -/

/-- Whether a message completes a certificate depends on its view and its sender. -/
theorem Controller.add_fst {M : Type} (c : Controller M) (view : View) (nodeID : NodeID)
    (m m' : M) : (c.add view nodeID m).1 = (c.add view nodeID m').1 := by
  simp only [Controller.add, Controller.superMajority, Controller.total, AList.lookup_insert,
    Option.getD_some, AList.entries_insert, List.length_cons, apply_ite Prod.fst]

theorem Pacemaker.countVmo_curView (p : Pacemaker) {vmo vmo' : VMO} (hview : vmo.view = vmo'.view)
    (hnode : vmo.nodeID = vmo'.nodeID) : (p.countVmo vmo).curView = (p.countVmo vmo').curView := by
  have hsame : (p.processRemoteVmo vmo).1 = (p.processRemoteVmo vmo').1 := by
    unfold processRemoteVmo addVmo
    rw [hview, hnode]
    split_ifs
    · rfl
    · exact Controller.add_fst _ _ _ _ _
  have hleft := (Pacemaker.processRemoteVmo_keeps p vmo).1
  have hright := (Pacemaker.processRemoteVmo_keeps p vmo').1
  unfold countVmo
  rw [hsame]
  cases (p.processRemoteVmo vmo').1 with
  | none => exact hleft.trans hright.symm
  | some view =>
    simp only [Option.elim_some, advanceView, hleft, hright]
    split_ifs
    · exact hleft.trans hright.symm
    · rfl

section Handlers

variable {env : Env} {s : Replica} {b : Block} {view : View}
  {processBlock : Block → Exec (Option Err)}

/-! ## Announcements -/

/-- With nothing in the buffer, a view-change message that was kept is acted on if
the block of its view has been received. -/
theorem processVMOAndBlock_gives
    (hnone : (s.recivedVMO.lookup (view - 1)).isSome → s.bufferedBlocks.lookup (view - 1) = none) :
    Gives (fun t => t = s) (processVMOAndBlock env processBlock view) fun ok t =>
      if (s.recivedVMO.lookup (view - 1)).isSome ∧ (s.recivedBlock.lookup (view - 1)).isSome then
        ok = true ∧ ∃ outbox, t = { s with
          pm := s.pm.advanceView view
          recivedVMO := s.recivedVMO.erase (view - 1)
          recivedBlock := s.recivedBlock.erase (view - 1)
          outbox := outbox }
      else ok = false ∧ t = s := by
  unfold processVMOAndBlock
  refine Leads.get_bind fun u hu => ?_
  subst hu
  cases hvmo : u.recivedVMO.lookup (view - 1) with
  | none => exact Leads.pure fun t ht => by simpa using ht
  | some vmo =>
    have htake : Gives (fun t => t = u) (takeUpBuffered processBlock view) fun _ t => t = u := by
      refine Leads.get_bind fun t ht => ?_
      subst ht
      rw [hnone (by simp [hvmo])]
      exact Leads.pure fun _ ht => ht
    refine Leads.bind htake fun _ => Leads.get_bind fun t ht => ?_
    subst ht
    cases hblock : t.recivedBlock.lookup (view - 1) with
    | none => exact Leads.pure fun u hu => by simpa using hu
    | some c =>
      refine Leads.bind (postBack_leads trivial) fun _ => Leads.start fun u hu => ?_
      obtain ⟨outbox, rfl⟩ := hu
      refine Leads.bind (Leads.of_modify_at trivial) fun _ => ?_
      refine Leads.bind (Leads.of_modify_at trivial) fun _ => Leads.pure fun u hu => ?_
      simpa using ⟨outbox, hu⟩

/-! ## Votes -/

theorem addVote_view {bc bc' : BlockChain} {v : Vote} {q : QC}
    (h : bc.addVote env v = (some q, bc')) : q.view = v.view := by
  have hadd : (bc.quorum.add env v).1 = some q := congrArg Prod.fst h
  rw [Quorum.add_eq] at hadd
  split_ifs at hadd
  cases hadd
  rfl

theorem Core.completed_eq_some {s : Core} {v : Vote} {q : QC} (h : s.completed env v = some q) :
    q.leader = s.id ∧ q.view = v.view ∧ q.blockID = v.blockID := by
  unfold Core.completed at h
  split_ifs at h
  obtain ⟨q', hadd, rfl⟩ := Option.map_eq_some_iff.mp h
  have hpair : s.bc.addVote env v = (some q', (s.bc.addVote env v).2) := by rw [← hadd]
  have hview := addVote_view hpair
  have hblock := addVote_blockID hpair
  exact ⟨rfl, hview, hblock⟩

/-! ## Blocks -/

/-- The pacemaker when a block is taken up: the block completes a view-change
message that was kept for its view. -/
def Core.paceAt (s : Core) (b : Block) : Pacemaker :=
  if (s.recivedVMO.lookup (b.view - 1)).isSome then s.pm.start.advanceView b.view else s.pm.start

/-- The block has been taken up, and little else has changed. -/
structure TakesUp (b : Block) (s t : Replica) : Prop where
  reached : b.view ≤ s.pm.start.curView
  id : t.id = s.id
  isByz : t.isByz = s.isByz
  preferredView : t.preferredView = s.preferredView
  bc : t.bc = s.bc
  bufferedQCs : t.bufferedQCs = s.bufferedQCs
  bufferedBlocks : t.bufferedBlocks = s.bufferedBlocks
  pm : t.pm = s.toCore.paceAt b
  vmos : ∀ key, s.recivedVMO.lookup key = none → t.recivedVMO.lookup key = none
  trace : ∃ core, t.trace = .handle core b :: s.trace

theorem takeUp_gives (hnone : (s.recivedVMO.lookup (b.view - 1)).isSome →
      s.bufferedBlocks.lookup (b.view - 1) = none) :
    Gives (fun t => t = s) (takeUp env processBlock b) fun ok t =>
      if s.pm.start.curView < b.view then ok = false ∧ t = { s with
        pm := s.pm.start, bufferedBlocks := s.bufferedBlocks.insert (b.view - 1) b }
      else ok = true ∧ TakesUp b s t := by
  unfold takeUp
  refine Leads.bind (isBuffered_leads trivial (fun _ => trivial) fun _ => trivial)
    fun buffered => ?_
  by_cases hlt : s.pm.start.curView < b.view
  · simp only [if_pos hlt]
    refine Leads.ite (fun _ => Leads.pure fun t ht => ⟨rfl, ht.2⟩) fun hno => ?_
    exact Leads.start fun t ht => absurd ht.1 hno
  · simp only [if_neg hlt]
    refine Leads.ite (fun hyes => Leads.start fun t ht => ?_) fun _ => Leads.start fun t ht => ?_
    · rw [hyes] at ht
      cases ht.1
    · obtain ⟨-, rfl⟩ := ht
      refine Leads.bind (processVMOAndBlock_gives hnone) fun _ => ?_
      refine Leads.bind (Q := fun _ => TakesUp b s) (Leads.of_modify fun u hu => ⟨trivial, ?_⟩)
        fun _ => Leads.pure fun u hu => ⟨rfl, hu⟩
      have hreached := Int64.not_lt.mp hlt
      by_cases hvmo : (s.recivedVMO.lookup (b.view - 1)).isSome
      · rw [if_pos ⟨hvmo, by simp⟩] at hu
        obtain ⟨-, outbox, rfl⟩ := hu
        refine ⟨hreached, rfl, rfl, rfl, rfl, rfl, rfl, (if_pos hvmo).symm, fun key hkey => ?_,
          _, rfl⟩
        exact Option.eq_none_iff_forall_ne_some.mpr fun vmo hl => by
          rw [lookup_of_lookup_erase hl] at hkey
          cases hkey
      · rw [if_neg fun h => hvmo h.1] at hu
        obtain ⟨-, rfl⟩ := hu
        exact ⟨hreached, rfl, rfl, rfl, rfl, rfl, rfl, (if_neg hvmo).symm, fun _ hkey => hkey,
          _, rfl⟩

end Handlers

end Bamboo
