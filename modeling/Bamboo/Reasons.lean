import Bamboo.Library.Stepwise
import Bamboo.PacemakerRuns
import Bamboo.Safety

/-!
# What a replica goes by

The conditions that the code has tested, or can rely on, when it raises its lock,
votes, commits, sends a message or leaves a view. Each is said of the state in
which the replica acts, and none that is about the past is ever taken back.

`Known` says what the environment may supply.
-/
namespace Bamboo

/-! ## Events -/

namespace Event

/-- The state in which the event was recorded. -/
def core : Event → Core
  | .handle core _ => core
  | .vote core _ _ => core
  | .propose core _ => core
  | .built core _ => core
  | .commit core _ _ _ => core

def handled : Event → Option Block
  | .handle _ b => some b
  | _ => none

/-- The block that was voted for. -/
def voted : Event → Option Block
  | .vote _ b _ => some b
  | _ => none

def ballot : Event → Option Vote
  | .vote _ _ v => some v
  | _ => none

def proposed : Event → Option Block
  | .propose _ b => some b
  | _ => none

def certificate : Event → Option QC
  | .built _ qc => some qc
  | _ => none

/-- The certificate and the block of a commit. -/
def commits : Event → Option (QC × Block)
  | .commit _ qc head _ => some (qc, head)
  | _ => none

/-- The blocks that one call of `CommitBlock` delivered. -/
def delivers : Event → List Block
  | .commit _ _ _ committed => committed
  | _ => []

end Event

/-- The block in hand, the one that was taken up last and has not been voted for
yet, with the state in which it was taken up. -/
def inHand : List Event → Option (Core × Block)
  | [] => none
  | .handle core b :: _ => some (core, b)
  | .vote _ _ _ :: _ => none
  | .propose _ _ :: _ => none
  | .built _ _ :: trace => inHand trace
  | .commit _ _ _ _ :: trace => inHand trace

/-! ## What is supplied -/

/-- The messages and certificates that the environment may supply, and the blocks
that may come before their view. -/
structure Known where
  msg : Msg → Prop
  qc : QC → Prop
  early : Block → Prop
  qc_initial : qc QC.initial
  qc_of_block : ∀ b q, msg (.block b) → b.qc = some q → qc q
  qc_of_tmo : ∀ t q, msg (.tmo t) → t.highQC = some q → qc q

namespace Known

abbrev block (K : Known) (b : Block) : Prop := K.msg (.block b)

abbrev vote (K : Known) (v : Vote) : Prop := K.msg (.vote v)

/-- An environment that may supply anything. -/
def anything : Known where
  msg _ := True
  qc _ := True
  early _ := True
  qc_initial := trivial
  qc_of_block _ _ _ _ := trivial
  qc_of_tmo _ _ _ _ := trivial

/-- The certificate every replica starts with, or one that a message carries. -/
def Carried (K : Msg → Prop) (q : QC) : Prop :=
  q = QC.initial ∨ (∃ b, K (.block b) ∧ b.qc = some q) ∨ ∃ t, K (.tmo t) ∧ t.highQC = some q

/-- The messages are given, and any block may come early. -/
def of (K : Msg → Prop) : Known where
  msg := K
  qc := Carried K
  early _ := True
  qc_initial := Or.inl rfl
  qc_of_block b _ hb hq := Or.inr (Or.inl ⟨b, hb, hq⟩)
  qc_of_tmo t _ ht hq := Or.inr (Or.inr ⟨t, ht, hq⟩)

/-- Only some blocks may come early. -/
abbrev narrow (K : Known) (M : Block → Prop) : Known := { K with early := M }

/-- Blocks, certificates and votes are given; of a timeout only its certificate
matters, of an announcement nothing. -/
def supplying (block : Block → Prop) (qc : QC → Prop) (vote : Vote → Prop)
    (hinitial : qc QC.initial) (hblock : ∀ b q, block b → b.qc = some q → qc q) : Known where
  msg
    | .block b => block b
    | .vote v => vote v
    | .tmo t => ∀ q, t.highQC = some q → qc q
    | .vmo _ => True
  qc := qc
  early _ := True
  qc_initial := hinitial
  qc_of_block := hblock
  qc_of_tmo _ q ht := ht q

/-- One environment supplies no more than another. -/
structure Le (K K' : Known) : Prop where
  msg : ∀ m, K.msg m → K'.msg m
  qc : ∀ q, K.qc q → K'.qc q
  early : ∀ b, K.early b → K'.early b

theorem supplying_le {block block' : Block → Prop} {qc qc' : QC → Prop} {vote vote' : Vote → Prop}
    {hinitial hinitial'} {hblock hblock'} (hb : ∀ b, block b → block' b) (hq : ∀ q, qc q → qc' q)
    (hv : ∀ v, vote v → vote' v) :
    (supplying block qc vote hinitial hblock).Le
      (supplying block' qc' vote' hinitial' hblock') where
  msg m h := by
    cases m with
    | block b => exact hb b h
    | vote v => exact hv v h
    | tmo t => exact fun q ht => hq q (h q ht)
    | vmo v => trivial
  qc := hq
  early _ h := h

end Known

/-- What an input supplies. -/
def Supplied (K : Known) : Input → Prop
  | .deliver m => K.msg m
  | _ => True

theorem Supplied.anything (i : Input) : Supplied Known.anything i := by
  cases i <;> trivial

/-! ## Views -/

/-- A message that was delivered, or that this replica broadcast itself. -/
def Received (K : Msg → Prop) (s : Replica) (m : Msg) : Prop := K m ∨ ⟨none, m⟩ ∈ s.outbox

/-- A view that some entered view, or the initial one, has reached. -/
def Passed (p : Pacemaker) (view : View) : Prop := ∃ v ∈ 0 :: p.newViewChan, view ≤ v

/-- More than two thirds of the network sent a timeout for the view. -/
def TimedOut (env : Env) (K : Msg → Prop) (s : Replica) (view : View) : Prop :=
  ∃ senders : Finset NodeID, 2 * env.n < 3 * senders.card ∧
    ∀ nodeID ∈ senders, ∃ tmo : TMO, Received K s (.tmo tmo) ∧ tmo.view = view ∧
      tmo.nodeID = nodeID

/-- More than two thirds of the network sent a view-change message for the view. -/
def LeftBehind (env : Env) (K : Msg → Prop) (s : Replica) (view : View) : Prop :=
  ∃ senders : Finset NodeID, 2 * env.n < 3 * senders.card ∧
    ∀ nodeID ∈ senders, ∃ vmo : VMO, Received K s (.vmo vmo) ∧ vmo.view = view ∧
      vmo.nodeID = nodeID

/-- The reasons to leave a view. -/
def Justified (env : Env) (K : Msg → Prop) (s : Replica) (view : View) : Prop :=
  TimedOut env K s view ∨
  (env.election.findLeaderFor (view + 1) = s.id ∧ LeftBehind env K s view) ∨
  ((∃ vmo : VMO, Received K s (.vmo vmo) ∧ vmo.view = view) ∧
    ∃ b : Block, K (.block b) ∧ b.view = view)

namespace Pacemaker

/-- A timeout is counted, and its view is left if that completes a TC. -/
def countTmo (p : Pacemaker) (tmo : TMO) : Pacemaker :=
  (p.processRemoteTmo tmo).1.elim (p.processRemoteTmo tmo).2 (p.processRemoteTmo tmo).2.advanceView

/-- The same for an announcement and a VC. -/
def countVmo (p : Pacemaker) (vmo : VMO) : Pacemaker :=
  (p.processRemoteVmo vmo).1.elim (p.processRemoteVmo vmo).2 (p.processRemoteVmo vmo).2.advanceView

/-- `if pm.GetCurView() < 1 { pm.AdvanceView(0) }`. -/
def start (p : Pacemaker) : Pacemaker := if p.curView < 1 then p.advanceView 0 else p

variable (p : Pacemaker)

theorem start_curView : p.start.curView = if p.curView < 1 then 1 else p.curView := by
  by_cases h : p.curView < 1
  · simp [start, advanceView, view_pos_iff, h]
  · simp [start, h]

theorem curView_le_start : p.curView ≤ p.start.curView := by
  rw [start_curView]
  split_ifs with h
  · exact Int64.le_of_lt h
  · exact Int64.le_refl _

theorem one_le_start : 1 ≤ p.start.curView := by
  rw [start_curView]
  split_ifs with h
  · exact Int64.le_refl _
  · exact Int64.not_lt.mp h

variable {p}

theorem start_of_pos (h : 1 ≤ p.curView) : p.start = p := if_neg (Int64.not_lt.mpr h)

theorem start_start : p.start.start = p.start := start_of_pos p.one_le_start

end Pacemaker

/-! ## Certificates and votes -/

/-- A certificate that was supplied or that this replica built itself. -/
def Held (K : Known) (s : Replica) (qc : QC) : Prop :=
  K.qc qc ∨ ∃ core, Event.built core qc ∈ s.trace

/-- A held certificate that passes the signature check. -/
def Accepted (env : Env) (K : Known) (s : Replica) (qc : QC) : Prop :=
  Held K s qc ∧ quorumIsVerified env s.toCore qc = .ok true

/-- A vote that was delivered, or this replica's own for a block whose votes it collects. -/
def ForMe (env : Env) (K : Known) (s : Replica) (v : Vote) : Prop :=
  K.vote v ∨ ∃ core b, Event.vote core b v ∈ s.trace ∧
    env.election.findLeaderFor (b.view + 1) = s.id

/-- A vote that `ProcessVote` counts: verified unless it bears this replica's id. -/
def Counted (env : Env) (K : Known) (s : Replica) (v : Vote) : Prop :=
  ForMe env K s v ∧ (v.voter ≠ s.id → Verifies env v.signature v.blockID v.voter)

/-- The view to which a certificate raises the lock. -/
def LockTarget (bc : BlockChain) (qc : QC) (view : View) : Algorithm → Prop
  | .hotStuff => ∃ p, bc.getParentBlock qc.blockID = .ok (.ok p) ∧ view = p.view
  | .tchs => ∃ p, bc.getParentBlock qc.blockID = .ok (.ok p) ∧ view = p.view
  | .fhs => ∃ b, bc.getBlockByID qc.blockID = .ok b ∧ view = qc.view

/-- When the commit rule names a head. HotStuff applies it to every accepted
certificate, the other two to the certificate of the block in hand. -/
def CommitGuard (env : Env) (K : Known) (s : Replica) (qc : QC) (head : Block) :
    Algorithm → Prop
  | .hotStuff => Accepted env K s qc ∧ ¬ qc.view < 3 ∧
      HotStuff.commitRule s.bc qc = .ok (.ok (some head))
  | _ => ∃ core b, inHand s.trace = some (core, b) ∧ b.qc = some qc ∧ 2 ≤ qc.view ∧
      qc.view + 1 = b.view ∧ TwoChain.commitRule s.bc qc = .ok (.ok (some head))

/-- What each protocol's own rule has established when it votes for the block
in hand, taken up in state `core`. -/
def VoteRule (env : Env) (core : Core) (s : Replica) (b : Block) (qc : QC) : Algorithm → Prop
  | .hotStuff => HotStuff.votingRule s.toCore b = .ok (.ok true) ∧
      (b.proposer ≠ s.id → quorumIsVerified env core qc = .ok true → 2 < qc.view →
        ∀ p, core.bc.getParentBlock qc.blockID = .ok (.ok p) → p.view ≤ s.preferredView)
  | .tchs => True
  | .fhs => ∃ bc, core.bc.addBlock b = .ok bc ∧
      Fhs.votingRule { core with bc := bc } b = .ok (.ok true)

structure VoteGuard (env : Env) (alg : Algorithm) (core : Core) (s : Replica) (b : Block)
    (qc : QC) : Prop where
  hand : inHand s.trace = some (core, b)
  certificate : b.qc = some qc
  highQC : qc.view ≤ s.highQC.view
  lock : core.preferredView ≤ s.preferredView
  stored : ∀ id p, s.bc.forrest.getVertex id = some p →
    core.bc.forrest.getVertex id = some p ∨ p = b
  leader : env.election.isLeader b.proposer b.view = true
  rule : VoteRule env core s b qc alg

/-- A block made by `MakeProposal` in state `s`: it carries the highest
certificate and extends the block that one is for. -/
structure Made (env : Env) (s : Replica) (b : Block) : Prop where
  certificate : b.qc = some s.highQC
  parent : b.prevID = s.highQC.blockID
  proposer : b.proposer = s.id
  hash : b.id = env.crypto.makeID b.raw
  signed : privSign env b.id s.id = .ok b.sig

/-- A block that `processNewView` proposes. -/
structure Proposal (env : Env) (s : Replica) (b : Block) : Prop extends Made env s b where
  leader : env.election.isLeader s.id b.view = true
  honest : s.isByz = false

/-! ## Messages -/

/-- The view that `ProcessVote` announces when it has completed a certificate. -/
def announcedView : Algorithm → Core → QC → View
  | .fhs, _, q => q.view
  | _, core, _ => core.pm.curView

/-- The two occasions for `ProcessLocalVmo`: a certificate of a stored block was
completed, or the block that a certificate was waiting for has been taken up. -/
def Announced (env : Env) (alg : Algorithm) (K : Known) (s : Replica) (view : View) : Prop :=
  (∃ core q b, Event.built core q ∈ s.trace ∧ core.bc.forrest.getVertex q.blockID = some b ∧
    view = announcedView alg core q) ∨
  ∃ core b q, Event.handle core b ∈ s.trace ∧ b.view = view ∧ q.blockID = b.id ∧
    Held K s q ∧ env.election.findLeaderFor (view + 1) = s.id

/-- What is known of a message that a replica sends. Only announcements of its
own are broadcast; it passes on others in its own name to one node. -/
def Sent (env : Env) (alg : Algorithm) (K : Known) (s : Replica) (dest : Option NodeID) :
    Msg → Prop
  | .block b => ∃ core, Event.propose core b ∈ s.trace
  | .vote v => ∃ core b, Event.vote core b v ∈ s.trace ∧
      dest = some (env.election.findLeaderFor (b.view + 1))
  | .tmo t => t.nodeID = s.id ∧ ∃ q, t.highQC = some q ∧ Held K s q
  | .vmo v => v.nodeID = s.id ∧ (dest = none → Announced env alg K s v.view)

/-- A broadcast that the replica itself need not count. -/
def Uncounted (env : Env) (s : Replica) : Msg → Prop
  | .tmo _ => False
  | .vmo v => env.election.findLeaderFor (v.view + 1) ≠ s.id
  | _ => True

/-! ## Nothing is taken back -/

/-- Nothing that was sent or entered is taken back. -/
structure Grows (s s' : Replica) : Prop where
  id : s'.id = s.id
  outbox : s.outbox <+: s'.outbox
  newViewChan : s.pm.newViewChan <+: s'.pm.newViewChan

/-- Neither is what was recorded, nor do the lock and the highest certificate go down. -/
structure Later (s s' : Replica) : Prop extends Grows s s' where
  isByz : s'.isByz = s.isByz
  trace : s.trace <:+ s'.trace
  lock : s.preferredView ≤ s'.preferredView
  highQC : s.highQC.view ≤ s'.highQC.view

section Mono

variable {env : Env} {alg : Algorithm} {K K' : Known} {D : Msg → Prop} {s s' t : Replica}
  {q : QC} {v : Vote} {view : View} {dest : Option NodeID} {m : Msg}

theorem Later.refl (s : Replica) : Later s s :=
  ⟨⟨rfl, List.prefix_rfl, List.prefix_rfl⟩, rfl, List.suffix_rfl, Int64.le_refl _, Int64.le_refl _⟩

theorem Later.trans (h : Later s s') (h' : Later s' t) : Later s t where
  id := h'.id.trans h.id
  outbox := h.outbox.trans h'.outbox
  newViewChan := h.newViewChan.trans h'.newViewChan
  isByz := h'.isByz.trans h.isByz
  trace := h.trace.trans h'.trace
  lock := Int64.le_trans h.lock h'.lock
  highQC := Int64.le_trans h.highQC h'.highQC

theorem Received.mono (h : Received D s m) (hs : Grows s s') : Received D s' m :=
  h.imp_right fun hm => hs.outbox.subset hm

theorem Passed.mono (h : Passed s.pm view) (hs : Grows s s') : Passed s'.pm view := by
  obtain ⟨v, hv, hle⟩ := h
  refine ⟨v, ?_, hle⟩
  rcases List.mem_cons.mp hv with rfl | hv
  · exact List.mem_cons_self
  · exact List.mem_cons_of_mem _ (hs.newViewChan.subset hv)

/-- With more messages delivered or sent, there are only more reasons to leave a view. -/
theorem Justified.weaken {D' : Msg → Prop} (h : Justified env D s view) (hid : s'.id = s.id)
    (hD : ∀ m, Received D s m → Received D' s' m) (hblock : ∀ b, D (.block b) → D' (.block b)) :
    Justified env D' s' view := by
  rcases h with ⟨senders, hcard, hall⟩ | ⟨hleader, senders, hcard, hall⟩ | ⟨⟨vmo, hvmo⟩, b, hb⟩
  · refine Or.inl ⟨senders, hcard, fun i hi => ?_⟩
    obtain ⟨tmo, hr, hrest⟩ := hall i hi
    exact ⟨tmo, hD _ hr, hrest⟩
  · refine Or.inr (Or.inl ⟨by rw [hid, hleader], senders, hcard, fun i hi => ?_⟩)
    obtain ⟨vmo, hr, hrest⟩ := hall i hi
    exact ⟨vmo, hD _ hr, hrest⟩
  · exact Or.inr (Or.inr ⟨⟨vmo, hD _ hvmo.1, hvmo.2⟩, b, hblock b hb.1, hb.2⟩)

theorem Justified.mono (h : Justified env D s view) (hs : Grows s s') :
    Justified env D s' view :=
  h.weaken hs.id (fun _ hm => hm.mono hs) fun _ hb => hb

theorem Held.mono (h : Held K s q) (hs : s.trace <:+ s'.trace) : Held K s' q :=
  h.imp_right fun ⟨core, hb⟩ => ⟨core, hs.subset hb⟩

theorem Accepted.mono (h : Accepted env K s q) (hs : Later s s') : Accepted env K s' q := by
  refine ⟨h.1.mono hs.trace, ?_⟩
  have hv := h.2
  unfold quorumIsVerified at hv ⊢
  rwa [hs.id]

theorem ForMe.mono (h : ForMe env K s v) (hs : Later s s') : ForMe env K s' v := by
  refine h.imp_right fun ⟨core, b, he, hleader⟩ => ⟨core, b, hs.trace.subset he, ?_⟩
  rw [hs.id, hleader]

theorem Counted.mono (h : Counted env K s v) (hs : Later s s') : Counted env K s' v :=
  ⟨h.1.mono hs, fun hne => h.2 (hs.id ▸ hne)⟩

theorem Announced.mono (h : Announced env alg K s view) (hs : Later s s') :
    Announced env alg K s' view := by
  rcases h with ⟨core, q, b, he, hrest⟩ | ⟨core, b, q, he, hview, hid, hq, hleader⟩
  · exact Or.inl ⟨core, q, b, hs.trace.subset he, hrest⟩
  · refine Or.inr ⟨core, b, q, hs.trace.subset he, hview, hid, hq.mono hs.trace, ?_⟩
    rw [hs.id, hleader]

theorem Sent.mono (h : Sent env alg K s dest m) (hs : Later s s') : Sent env alg K s' dest m := by
  cases m with
  | block b => exact h.imp fun _ he => hs.trace.subset he
  | vote v => exact h.imp fun core => Exists.imp fun b hb => ⟨hs.trace.subset hb.1, hb.2⟩
  | tmo t => exact ⟨h.1.trans hs.id.symm, h.2.imp fun q hq => ⟨hq.1, hq.2.mono hs.trace⟩⟩
  | vmo v => exact ⟨h.1.trans hs.id.symm, fun hd => (h.2 hd).mono hs⟩

/-! ## More knowledge, more reasons -/

variable (hK : K.Le K')
include hK

theorem Received.le (h : Received K.msg s m) : Received K'.msg s m := h.imp_left (hK.msg m)

theorem Justified.le (h : Justified env K.msg s view) : Justified env K'.msg s view :=
  h.weaken rfl (fun _ hm => hm.le hK) fun b => hK.msg (.block b)

theorem Held.le (h : Held K s q) : Held K' s q := h.imp_left (hK.qc q)

theorem Accepted.le (h : Accepted env K s q) : Accepted env K' s q := ⟨h.1.le hK, h.2⟩

theorem Counted.le (h : Counted env K s v) : Counted env K' s v :=
  ⟨h.1.imp_left (hK.msg (.vote v)), h.2⟩

theorem CommitGuard.le {head : Block} (h : CommitGuard env K s q head alg) :
    CommitGuard env K' s q head alg := by
  cases alg with
  | hotStuff => exact ⟨h.1.le hK, h.2⟩
  | tchs => exact h
  | fhs => exact h

theorem Sent.le (h : Sent env alg K s dest m) : Sent env alg K' s dest m := by
  cases m with
  | block b => exact h
  | vote v => exact h
  | tmo t => exact ⟨h.1, h.2.imp fun q hq => ⟨hq.1, hq.2.le hK⟩⟩
  | vmo v =>
    refine ⟨h.1, fun hd => (h.2 hd).imp_right ?_⟩
    rintro ⟨core, b, q, he, hview, hid, hq, hleader⟩
    exact ⟨core, b, q, he, hview, hid, hq.le hK, hleader⟩

end Mono

end Bamboo
