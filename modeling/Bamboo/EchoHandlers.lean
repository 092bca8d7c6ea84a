import Bamboo.CommitCounters
import Bamboo.Gossip
import Bamboo.NotarizedBounds
import Bamboo.Voting

/-!
# The handlers of Streamlet and the echoes

Every handler keeps `Relay`, as long as nothing is committed: a commit prunes the
forest, and a pruned block may come again. A handler may also stop halfway, with a
block passed on and not yet stored.
-/
namespace Bamboo

namespace Streamlet

open Stepwise

/-! ## The handlers -/

section Handlers

variable {env : Env} {me : NodeID} {heard : Set Vote} {due : Set Identifier}

theorem pushAll_eq (s : Streamlet) (nodes : List ℕ) (m : Msg) :
    s.pushAll nodes m =
      { s with outbox := s.outbox ++ nodes.map fun i => ⟨some (newNodeID i), m⟩ } := by
  induction nodes generalizing s with
  | nil => simp [pushAll]
  | cons i nodes ih =>
    have hcons : s.pushAll (i :: nodes) m = (s.push (some (newNodeID i)) m).pushAll nodes m := rfl
    rw [hcons, ih]
    simp [push]

/-- The state between two inputs. -/
def Fine (env : Env) (me : NodeID) (heard : Set Vote) (due : Set Identifier) (s : Streamlet) :
    Prop :=
  s.id = me ∧ s.isByz = false ∧ (s.committedBlocks = [] → Relay env heard none due s.gossip)

/-- The state where a handler may stop. -/
def Told (env : Env) (me : NodeID) (heard : Set Vote) (s : Streamlet) : Prop :=
  s.id = me ∧ (s.committedBlocks = [] → ∃ flight, Relay env heard flight ∅ s.gossip)

/-- A step to such a state, which does not take a commit back. -/
def Passes (env : Env) (me : NodeID) (heard : Set Vote) (s t : Streamlet) : Prop :=
  (t.committedBlocks = [] → s.committedBlocks = []) ∧ Told env me heard t

theorem Fine.told {s : Streamlet} (hs : Fine env me heard due s) : Told env me heard s :=
  ⟨hs.1, fun h => ⟨none, (hs.2.2 h).mono (Set.empty_subset due)⟩⟩

theorem Fine.passes {s t : Streamlet} (ht : Fine env me heard due t)
    (hc : t.committedBlocks = [] → s.committedBlocks = []) : Passes env me heard s t :=
  ⟨hc, ht.told⟩

theorem Fine.alike {s t : Streamlet} (hs : Fine env me heard due s) (hg : t.gossip = s.gossip)
    (hc : t.committedBlocks = s.committedBlocks) : Fine env me heard due t := by
  refine ⟨?_, ?_, ?_⟩
  · exact (congrArg Gossip.me hg).trans hs.1
  · exact (congrArg Gossip.isByz hg).trans hs.2.1
  · rw [hc, hg]
    exact hs.2.2

/-- A handler that keeps the story straight, whatever votes are still due. -/
def Relays {α : Type} (env : Env) (me : NodeID) (heard : Set Vote) (m : Exec α) : Prop :=
  ∀ due, Leads (Passes env me heard) (Fine env me heard due) m fun _ => Fine env me heard due

namespace Relays

variable {α β : Type}

theorem bind {m : Exec α} {f : α → Exec β} (hm : Relays env me heard m)
    (hf : ∀ a, Relays env me heard (f a)) : Relays env me heard (m >>= f) :=
  fun due => Leads.bind (hm due) fun a => hf a due

theorem call (e : Except Fault α) : Relays env me heard (call e) :=
  fun _ => (leads_call e).post fun _ _ h => h.1

theorem done (a : α) : Relays env me heard (pure a : Exec α) :=
  fun _ => Leads.pure fun _ h => h

theorem ite {c : Prop} [Decidable c] {m m' : Exec α} (hm : Relays env me heard m)
    (hm' : Relays env me heard m') : Relays env me heard (if c then m else m') :=
  fun due => Leads.ite (fun _ => hm due) fun _ => hm' due

theorem read {f : Streamlet → Exec α} (h : ∀ s, Relays env me heard (f s)) :
    Relays env me heard (get >>= f) :=
  fun due => Leads.get_bind fun s hs => (h s due).at_start hs

/-- With what is known of the state that was read. -/
theorem readState {f : Streamlet → Exec α}
    (h : ∀ s due, Fine env me heard due s →
      Leads (Passes env me heard) (fun t => t = s) (f s) fun _ => Fine env me heard due) :
    Relays env me heard (get >>= f) :=
  fun due => Leads.get_bind fun s hs => h s due hs

theorem modify {f : Streamlet → Streamlet} (hg : ∀ s, (f s).gossip = s.gossip)
    (hc : ∀ s, (f s).committedBlocks = s.committedBlocks) :
    Relays env me heard (modify f : Exec Unit) := by
  refine fun due => Leads.of_modify fun s hs => ?_
  have hfine := Fine.alike hs (hg s) (hc s)
  exact ⟨hfine.passes fun h => (hc s).symm.trans h, hfine⟩

end Relays

theorem leads_set_fine {s t : Streamlet} (ht : Fine env me heard due t)
    (hc : t.committedBlocks = [] → s.committedBlocks = []) :
    Leads (Passes env me heard) (fun u => u = s) (set t : Exec Unit) fun _ =>
      Fine env me heard due :=
  (Leads.of_set (ht.passes hc)).post fun _ _ h => h ▸ ht

theorem leads_set_alike {s t : Streamlet} (hs : Fine env me heard due s)
    (hg : t.gossip = s.gossip) (hc : t.committedBlocks = s.committedBlocks) :
    Leads (Passes env me heard) (fun u => u = s) (set t : Exec Unit) fun _ =>
      Fine env me heard due :=
  leads_set_fine (hs.alike hg hc) fun h => hc.symm.trans h

/-! ### Echoes -/

def echoOnce (env : Env) (id : Identifier) (m : Msg) (s : Streamlet) : Streamlet :=
  if (s.echoedBlock.lookup id).isSome then s
  else { s with echoedBlock := s.echoedBlock.insert id (), outbox := s.outbox ++ toEach env.n m }

theorem modify_run (f : Streamlet → Streamlet) (s : Streamlet) :
    (modify f : Exec Unit) s = .ok () (f s) := rfl

theorem modify_bind_run {α : Type} (f : Streamlet → Streamlet) (g : Unit → Exec α)
    (s : Streamlet) : ((modify f : Exec Unit) >>= g) s = g () (f s) := rfl

theorem sendAll_run (m : Msg) (s : Streamlet) :
    sendAll env .streamlet m s = .ok () { s with outbox := s.outbox ++ toEach env.n m } := by
  rw [sendAll, noMailBroadcast, modify_run, pushAll_eq, toEach]

theorem spread_run {s : Streamlet} (hs : s.isByz = false) (m : Msg) (isVote : Bool) :
    spread env .streamlet m isVote s =
      .ok () { s with outbox := s.outbox ++ toEach env.n m } := by
  rw [spread, get_bind_run, if_neg (by simp [hs]), sendAll_run]

theorem echo_run {s : Streamlet} {id : Identifier} {m : Msg} {broadcast : Exec Unit}
    (h : ∀ t, t.isByz = s.isByz →
      broadcast t = .ok () { t with outbox := t.outbox ++ toEach env.n m }) :
    echo id broadcast s = .ok () (s.echoOnce env id m) := by
  unfold echo echoOnce
  rw [get_bind_run]
  split_ifs
  · rfl
  · rw [modify_bind_run]
    exact h _ rfl

@[simp] theorem id_echoOnce (s : Streamlet) (id : Identifier) (m : Msg) :
    (s.echoOnce env id m).id = s.id := by
  unfold echoOnce
  split_ifs <;> rfl

@[simp] theorem isByz_echoOnce (s : Streamlet) (id : Identifier) (m : Msg) :
    (s.echoOnce env id m).isByz = s.isByz := by
  unfold echoOnce
  split_ifs <;> rfl

@[simp] theorem committedBlocks_echoOnce (s : Streamlet) (id : Identifier) (m : Msg) :
    (s.echoOnce env id m).committedBlocks = s.committedBlocks := by
  unfold echoOnce
  split_ifs <;> rfl

theorem gossip_echoOnce (s : Streamlet) (id : Identifier) (m : Msg) :
    (s.echoOnce env id m).gossip =
      if (s.echoedBlock.lookup id).isSome then s.gossip else s.gossip.pass env.n id m := by
  unfold echoOnce
  split_ifs <;> rfl

/-- An id that has been echoed is not echoed again. -/
theorem Fine.echoOnce {s : Streamlet} (hs : Fine env me heard due s) {id : Identifier} (m : Msg)
    (h : s.committedBlocks = [] → (s.echoedBlock.lookup id).isSome) :
    Fine env me heard due (s.echoOnce env id m) := by
  unfold Streamlet.echoOnce
  split_ifs with hsome
  · exact hs
  · exact ⟨hs.1, hs.2.1, fun hc => absurd (h hc) hsome⟩

/-- The vote of somebody else is passed on or only noted. -/
theorem Fine.echoVote {s : Streamlet} (hs : Fine env me heard due s) {v : Vote}
    (hforeign : v.voter ≠ me) :
    Fine env me (insert v heard) due (s.echoOnce env v.blockID (.vote v)) := by
  have hne : v.voter ≠ s.gossip.me := by
    rw [← hs.1] at hforeign
    exact hforeign
  refine ⟨by simpa using hs.1, by simpa using hs.2.1, fun hc => ?_⟩
  have hrelay := hs.2.2 (by simpa using hc)
  rw [gossip_echoOnce]
  split_ifs with hsome
  · exact hrelay.hear hsome fun hme => absurd hme hne
  · exact hrelay.passOn hne (Option.not_isSome_iff_eq_none.mp hsome)

/-- The block is on its way into the forest. -/
structure Flying (env : Env) (me : NodeID) (heard : Set Vote) (due : Set Identifier) (b : Block)
    (s : Streamlet) : Prop where
  id : s.id = me
  isByz : s.isByz = false
  stored : s.bc.forrest.getVertex b.id = none
  relay : s.committedBlocks = [] → Relay env heard (some b) due s.gossip
  echoed : (s.echoedBlock.lookup b.id).isSome

theorem Fine.echoBlock {s : Streamlet} (hs : Fine env me heard due s) {b : Block}
    (hstored : s.bc.forrest.getVertex b.id = none) :
    Flying env me heard due b (s.echoOnce env b.id (.block b)) := by
  have hgossip := @gossip_echoOnce env s b.id (.block b)
  have hcommitted := @committedBlocks_echoOnce env s b.id (.block b)
  unfold Streamlet.echoOnce at hgossip hcommitted ⊢
  split_ifs at hgossip hcommitted ⊢ with hsome
  · exact ⟨hs.1, hs.2.1, hstored, fun hc => (hs.2.2 hc).takeOff b, hsome⟩
  · refine ⟨hs.1, hs.2.1, hstored, fun hc => ?_, by simp⟩
    rw [hgossip]
    exact (hs.2.2 hc).announce hstored (Option.not_isSome_iff_eq_none.mp hsome)

theorem Flying.land {s : Streamlet} {b : Block} (hs : Flying env me heard due b s)
    {bc : BlockChain} (hadd : s.bc.addBlock b = .ok bc) :
    Fine env me heard (insert b.id due) { s with bc := bc } := by
  refine ⟨hs.id, hs.isByz, fun hc => ?_⟩
  have hforest : s.bc.forrest.addVertex b = .ok bc.forrest := by
    unfold BlockChain.addBlock at hadd
    cases hv : s.bc.forrest.addVertex b with
    | error e => rw [hv] at hadd; cases hadd
    | ok f => rw [hv] at hadd; cases hadd; rfl
  exact (hs.relay hc).land hs.stored hs.echoed hforest

/-- A commit that delivers nothing leaves the forest as it is. -/
theorem commitBlock_nothing {bc bc' : BlockChain} {id : Identifier} {view : View}
    {forked : List Block} (h : bc.commitBlock id view = .ok (.ok ([], forked), bc')) :
    bc'.forrest = bc.forrest := by
  refine ((BlockChain.commitBlock_idle_iff h).mpr fun b hb => ?_).1
  rcases BlockChain.commitBlock_ok h with ⟨hnone, -⟩ | ⟨block, path, res, hblock, hpath, -, -, hr⟩
  · rw [hb] at hnone
    cases hnone
  · obtain rfl : block = b := Option.some.inj (hblock.symm.trans hb)
    obtain rfl : path = [] := by
      rcases hr with ⟨e, -, he⟩ | ⟨forked', prunedNo, -, hok⟩
      · cases he
      · cases hok
        rfl
    rcases BlockChain.committedPath_ok hpath with ⟨hlow, -⟩ | ⟨-, rest, hcons, -⟩
    · exact UInt64.not_lt.mp hlow
    · cases hcons

theorem Fine.deliver {s : Streamlet} (hs : Fine env me heard due s) {id : Identifier}
    {view : View} {committed forked : List Block} {bc : BlockChain}
    (h : s.bc.commitBlock id view = .ok (.ok (committed, forked), bc)) :
    Fine env me heard due (s.deliver bc committed forked) := by
  refine ⟨hs.1, hs.2.1, fun hc => ?_⟩
  obtain ⟨hnone, rfl⟩ := List.append_eq_nil_iff.mp hc
  have hgossip : (s.deliver bc [] forked).gossip = s.gossip := by
    simp [gossip, Streamlet.deliver, commitBlock_nothing h]
  rw [hgossip]
  exact hs.2.2 hnone

/-! ### One handler after the other -/

theorem relays_updateNotarizedChain (qc : QC) :
    Relays env me heard (updateNotarizedChain qc) := by
  unfold updateNotarizedChain
  refine Relays.readState fun s due hs => ?_
  have hkeep : ∀ (t : Streamlet) (r : Except Err Unit), t.gossip = s.gossip →
      t.committedBlocks = s.committedBlocks →
      Leads (Passes env me heard) (fun u => u = s) (do set t; return r : Exec (Except Err Unit))
        fun _ => Fine env me heard due := fun t r hg hc =>
    Leads.bind (leads_set_alike hs hg hc) fun _ => Leads.pure fun _ h => h
  cases s.bc.getBlockByID qc.blockID with
  | error e => exact Leads.pure fun _ h => h ▸ hs
  | ok block =>
    refine Leads.ite (fun _ => hkeep _ _ rfl rfl) fun _ => ?_
    refine Leads.bind (leads_call _) fun found => Leads.assume fun _ => ?_
    exact Leads.ite (fun _ => hkeep _ _ rfl rfl) fun _ => hkeep _ _ rfl rfl

section Nested

variable {processBlock : Block → Exec (Option Err)} {processCertificate : QC → Exec Unit}

theorem relays_takeUpBlock (hb : ∀ b, Relays env me heard (processBlock b)) (id : Identifier) :
    Relays env me heard (takeUpBlock processBlock id) := by
  unfold takeUpBlock
  refine Relays.read fun s => ?_
  cases s.bufferedBlocks.lookup id with
  | none => exact Relays.done _
  | some b => exact (hb b).bind fun _ => Relays.modify (fun _ => rfl) fun _ => rfl

theorem relays_takeUpNotarized (hc : ∀ qc, Relays env me heard (processCertificate qc))
    (id : Identifier) : Relays env me heard (takeUpNotarized processCertificate id) := by
  unfold takeUpNotarized
  refine Relays.read fun s => ?_
  cases s.bufferedNotarizedBlock.lookup id with
  | none => exact Relays.done _
  | some qc => exact (hc qc).bind fun _ => Relays.modify (fun _ => rfl) fun _ => rfl

theorem relays_checkCommit (hb : ∀ b, Relays env me heard (processBlock b))
    (hc : ∀ qc, Relays env me heard (processCertificate qc)) (qc : QC) :
    Relays env me heard (checkCommit processBlock processCertificate qc) := by
  unfold checkCommit
  refine Relays.ite (Relays.done _) (Relays.readState fun s due hs => ?_)
  cases commitRule s.notarizedChain with
  | none => exact Leads.pure fun _ h => h ▸ hs
  | some block =>
    refine Leads.bind (leads_call _) fun r => Leads.assume fun hr => ?_
    obtain ⟨res, bc⟩ := r
    cases res with
    | error e =>
      have hforest : bc.forrest = s.bc.forrest := by
        rcases BlockChain.commitBlock_lowestLevel hr with ⟨-, hf⟩ | ⟨⟨blocks, he⟩, -⟩
        · exact hf
        · cases he
      exact leads_set_alike hs (by simp [gossip, hforest]) rfl
    | ok res =>
      obtain ⟨committed, forked⟩ := res
      refine Leads.bind (leads_set_fine (hs.deliver hr) fun h => (List.append_eq_nil_iff.mp h).1)
        fun _ => ?_
      exact ((relays_takeUpBlock hb qc.blockID).bind fun _ =>
        relays_takeUpNotarized hc qc.blockID) due

theorem relays_certify (hb : ∀ b, Relays env me heard (processBlock b))
    (hc : ∀ qc, Relays env me heard (processCertificate qc)) (qc : QC) :
    Relays env me heard (certify env .streamlet processBlock processCertificate qc) := by
  unfold certify
  refine Relays.readState fun s due hs => ?_
  refine Leads.ite (fun _ => Leads.pure fun _ h => h ▸ hs) fun _ => ?_
  refine Leads.ite (fun _ => leads_set_alike hs rfl rfl) fun _ => ?_
  refine Leads.at_start (Relays.bind (Relays.call _) (fun verified => ?_) due) hs
  refine Relays.ite ((relays_updateNotarizedChain qc).bind fun r => ?_) (Relays.done _)
  cases r with
  | error e => exact Relays.done _
  | ok _ =>
    refine Relays.bind ?_ fun _ => relays_checkCommit hb hc qc
    exact Relays.modify (fun _ => rfl) fun _ => rfl

/-- What is left of `ProcessVote` once it is clear what the check and the echo do. -/
theorem leads_processVote (hc : ∀ qc, Relays env me heard (processCertificate qc)) {vote : Vote}
    {P : Streamlet → Prop}
    (hyes : ∀ s, P s → (vote.voter = s.id ∨ Verifies env vote.signature vote.blockID vote.voter) →
      Fine env me heard due (s.echoOnce env vote.blockID (.vote vote)))
    (hno : ∀ s, P s →
      ¬ (vote.voter = s.id ∨ Verifies env vote.signature vote.blockID vote.voter) →
      Fine env me heard due s) :
    Leads (Passes env me heard) P (processVote env .streamlet processCertificate vote) fun _ =>
      Fine env me heard due := by
  unfold processVote
  refine Leads.get_bind fun s hs => Leads.bind (leads_call _) fun verified => ?_
  refine Leads.assume fun hverified => ?_
  have hiff : verified = true ↔
      (vote.voter = s.id ∨ Verifies env vote.signature vote.blockID vote.voter) := by
    by_cases hme : vote.voter = s.id
    · simp only [hme, ne_eq, not_true_eq_false, if_false, Except.ok.injEq] at hverified
      simp [hme, ← hverified]
    · simp only [ne_eq, hme, not_false_eq_true, if_true] at hverified
      simp [hme, Verifies, hverified]
  refine Leads.ite (fun htrue => ?_) fun hfalse => ?_
  · have hfine := hyes s hs (hiff.mp htrue)
    refine Leads.bind (Q := fun _ => Fine env me heard due) ?_ fun _ => ?_
    · refine Leads.of_run (f := fun t => t.echoOnce env vote.blockID (.vote vote))
        (fun t _ => echo_run fun u _ => sendAll_run (.vote vote) u) fun t ht => ?_
      subst ht
      exact ⟨hfine.passes (by simp), hfine⟩
    · refine Leads.get_bind fun t ht => ?_
      cases hr : t.bc.addVote env vote with
      | mk r bc =>
        have hforest : bc.forrest = t.bc.forrest := (congrArg (fun p => p.2.forrest) hr).symm
        have hset : Leads (Passes env me heard) (fun u => u = t)
            (set { t with bc := bc } : Exec Unit) fun _ => Fine env me heard due :=
          leads_set_alike ht (by simp [gossip, hforest]) rfl
        cases r with
        | none => exact hset
        | some qc => exact Leads.bind hset fun _ => hc qc due
  · exact Leads.pure fun t ht => ht ▸ hno s hs fun h => hfalse (hiff.mpr h)

theorem Fine.mono {due' : Set Identifier} {s : Streamlet} (hs : Fine env me heard due s)
    (hdue : due' ⊆ due) : Fine env me heard due' s :=
  ⟨hs.1, hs.2.1, fun hc => (hs.2.2 hc).mono hdue⟩

/-- The own vote is counted, which may set off anything, and then sent. -/
theorem leads_castVote (hc : ∀ qc, Relays env me heard (processCertificate qc)) (block : Block) :
    Leads (Passes env me heard)
      (fun s => Fine env me heard (insert block.id due) s ∧
        (s.committedBlocks = [] → block.id ∉ due))
      (castVote env .streamlet processCertificate block) fun _ => Fine env me heard due := by
  unfold castVote
  refine Leads.get_bind fun s hs => Leads.bind (leads_call _) fun vote => ?_
  refine Leads.assume fun hvote => ?_
  obtain ⟨-, hvoter, hid, -⟩ := makeVote_ok hvote
  have hcount : Leads (Passes env me heard) (fun t => t = s)
      (processVote env .streamlet processCertificate vote) fun _ =>
      Fine env me heard (insert block.id due) := by
    refine leads_processVote hc (fun t ht _ => ?_) fun t ht hnot => ?_
    · subst ht
      refine hs.1.echoOnce _ fun hnone => ?_
      have hrelay := hs.1.2.2 hnone
      exact hrelay.echoed_of_stored (hid ▸ (hrelay.due block.id (Set.mem_insert _ _)).1)
    · subst ht
      exact absurd (Or.inl hvoter) hnot
  refine Leads.bind (hcount.carry (J := fun t => t.committedBlocks = [] → block.id ∉ due)
    (fun t u hpass ht hu => ht (hpass.1 hu)) fun t ht => ⟨ht, ht ▸ hs.2⟩) fun _ => ?_
  refine Leads.of_run (fun t ht => spread_run ht.1.2.1 (.vote vote) true) fun t ht => ?_
  have hfine : Fine env me heard due
      { t with outbox := t.outbox ++ toEach env.n (.vote vote) } := by
    refine ⟨ht.1.1, ht.1.2.1, fun hnone => ?_⟩
    have hme : vote.voter = t.gossip.me := hvoter.trans (hs.1.1.trans ht.1.1.symm)
    exact (ht.1.2.2 hnone).ballot hme hid (ht.2 hnone)
  exact ⟨hfine.passes fun h => h, hfine⟩

theorem relays_takeUpNextQC (hc : ∀ qc, Relays env me heard (processCertificate qc))
    (id : Identifier) : Relays env me heard (takeUpNextQC processCertificate id) := by
  unfold takeUpNextQC
  refine Relays.read fun s => ?_
  cases s.bufferedQCs.lookup id with
  | none => exact Relays.done _
  | some qc => exact hc qc

theorem relays_takeUpNextBlock (hb : ∀ b, Relays env me heard (processBlock b))
    (id : Identifier) : Relays env me heard (takeUpNextBlock processBlock id) := by
  unfold takeUpNextBlock
  refine Relays.read fun s => ?_
  cases s.bufferedBlocks.lookup id with
  | none => exact Relays.done _
  | some b => exact (hb b).bind fun _ => Relays.done _

theorem leads_checkSignature {R : Streamlet → Streamlet → Prop} {P : Streamlet → Prop}
    (block : Block) : Leads R P (checkSignature env block) fun _ => P := by
  unfold checkSignature
  refine Leads.get_bind fun s hs => Leads.ite (fun _ => ?_) fun _ => Leads.pure fun t ht => ht ▸ hs
  exact Leads.bind (leads_call _) fun _ => Leads.pure fun t ht => ht.1 ▸ hs

/-- From the echo of a block that is not stored to its own vote. -/
theorem leads_accept (hb : ∀ b, Relays env me heard (processBlock b))
    (hc : ∀ qc, Relays env me heard (processCertificate qc)) (block : Block) :
    Leads (Passes env me heard)
      (fun s => Fine env me heard due s ∧ s.bc.forrest.getVertex block.id = none)
      (accept env .streamlet processBlock processCertificate block) fun _ =>
      Fine env me heard due := by
  unfold accept
  refine Leads.bind (leads_checkSignature block) fun _ => ?_
  refine Leads.bind (Q := fun _ s => Flying env me heard due block s ∧
    (s.committedBlocks = [] → block.id ∉ due)) ?_ fun _ => ?_
  · refine Leads.of_run (f := fun s => s.echoOnce env block.id (.block block)) (fun s hs => ?_)
      fun s hs => ?_
    · exact echo_run fun t ht => spread_run (ht.trans hs.1.2.1) _ _
    · have hfly := hs.1.echoBlock hs.2
      refine ⟨⟨by simp, hfly.id, fun hnone => ⟨some block, ?_⟩⟩, hfly, fun hnone hdue => ?_⟩
      · exact (hfly.relay hnone).mono (Set.empty_subset due)
      · have hstored := ((hfly.relay hnone).due block.id hdue).1
        rw [show (s.echoOnce env block.id (.block block)).gossip.forest.getVertex block.id = none
          from hfly.stored] at hstored
        cases hstored
  · refine Leads.get_bind fun s hs => Leads.bind (leads_call _) fun bc => ?_
    refine Leads.assume fun hadd => ?_
    have hland := hs.1.land hadd
    refine Leads.bind (Q := fun _ t => Fine env me heard (insert block.id due) t ∧
      (t.committedBlocks = [] → block.id ∉ due)) ?_ fun _ => ?_
    · have hpass : Passes env me heard s { s with bc := bc } := hland.passes fun h => h
      refine (Leads.of_set hpass).post fun _ t ht => ?_
      subst ht
      exact ⟨hland, hs.2⟩
    · refine Leads.bind (leads_call _) fun vote => Leads.assume fun _ => ?_
      refine Leads.ite (fun _ => ?_) fun _ => ?_
      · refine Leads.bind (leads_castVote hc block) fun _ => ?_
        exact ((relays_takeUpNextQC hc block.id).bind fun _ =>
          relays_takeUpNextBlock hb block.id) due
      · refine Leads.of_modify fun t ht => ?_
        have hfine := (ht.1.mono (Set.subset_insert block.id due)).alike
          (t := { t with bufferedBlocks := t.bufferedBlocks.insert block.prevID block }) rfl rfl
        exact ⟨hfine.passes fun h => h, hfine⟩

theorem relays_screen (hb : ∀ b, Relays env me heard (processBlock b))
    (hc : ∀ qc, Relays env me heard (processCertificate qc)) (block : Block) :
    Relays env me heard (screen env .streamlet processBlock processCertificate block) := by
  unfold screen
  refine Relays.readState fun s due hs => ?_
  refine Leads.ite (fun _ => Leads.pure fun _ h => h ▸ hs) fun hnew => ?_
  refine Leads.ite (fun _ => Leads.pure fun _ h => h ▸ hs) fun _ => ?_
  refine Leads.ite (fun _ => ?_) fun _ => ?_
  · exact Leads.bind (leads_set_alike hs rfl rfl) fun _ => Leads.pure fun _ h => h
  refine Leads.ite (fun _ => Leads.pure fun _ h => h ▸ hs) fun _ => ?_
  refine Leads.bind ((leads_accept hb hc block).at_start ⟨hs, ?_⟩) fun _ => Leads.pure fun _ h => h
  exact Option.not_isSome_iff_eq_none.mp hnew

end Nested

theorem relays_handlers (fuel : ℕ) :
    (∀ b, Relays env me heard (processBlock env .streamlet fuel b)) ∧
      ∀ qc, Relays env me heard (processCertificate env .streamlet fuel qc) := by
  induction fuel with
  | zero => exact ⟨fun _ _ => Leads.throw, fun _ _ => Leads.throw⟩
  | succ fuel ih => exact ⟨relays_screen ih.1 ih.2, relays_certify ih.1 ih.2⟩

end Handlers

end Streamlet

end Bamboo
