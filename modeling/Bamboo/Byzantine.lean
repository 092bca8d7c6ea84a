import Bamboo.Ancestry
import Bamboo.Ledger
import Bamboo.Lock

/-!
# HotStuff among Byzantine nodes

The correct nodes run HotStuff; what they are given is up to an adversary who
knows everything and holds the keys of the other nodes. It can make up any
message, except that a signature which verifies under the key of a correct node
is on a block that this node has voted for or proposed; the two signatures are
the same. Nothing else in a message is authenticated.
-/
namespace Bamboo

open Relation Stepwise

/-! ## The adversary -/

/-- The block that a vote or a proposal puts a signature on. -/
def Event.signed : Event → Option Block
  | .vote _ b _ => some b
  | .propose _ b => some b
  | _ => none

def Replica.Signed (s : Replica) (d : Identifier) : Prop :=
  ∃ e ∈ s.trace, ∃ b ∈ e.signed, b.id = d

instance (s : Replica) (d : Identifier) : Decidable (s.Signed d) :=
  inferInstanceAs (Decidable (∃ e ∈ s.trace, _))

/-- A signature in a message: who is said to have signed what. -/
structure Signing where
  signer : NodeID
  data : Identifier
  sig : Signature

def QC.signings (q : QC) : List Signing :=
  (q.signers.zip q.aggSig).map fun p => ⟨p.1, q.blockID, p.2⟩

def Msg.signings : Msg → List Signing
  | .block b => ⟨b.proposer, b.id, b.sig⟩ :: b.qc.toList.flatMap QC.signings
  | .vote v => [⟨v.voter, v.blockID, v.signature⟩]
  | .tmo t => t.highQC.toList.flatMap QC.signings
  | .vmo v => v.highQC.toList.flatMap QC.signings

def correctNodes (env : Env) (byz : Finset ℕ) : Finset ℕ := Finset.Icc 1 env.n \ byz

/-- No signature of a correct node is forged. -/
def Unforged (env : Env) (byz : Finset ℕ) (w : World) (m : Msg) : Prop :=
  ∀ c ∈ m.signings, Verifies env c.sig c.data c.signer →
    ∀ i ∈ correctNodes env byz, c.signer.node = i → (w.nodes i).Signed c.data

instance (env : Env) (byz : Finset ℕ) (w : World) (m : Msg) : Decidable (Unforged env byz w m) :=
  inferInstanceAs (Decidable (∀ c ∈ m.signings, _))

/-- An input that the adversary has a correct node take. -/
structure Move where
  node : ℕ
  input : Input
  fuel : ℕ

/-- The network after these moves, which are listed newest first. -/
def World.attacked (env : Env) : List Move → World
  | [] => World.init env
  | m :: earlier => (World.attacked env earlier).take env .hotStuff m.node (m.input, m.fuel)

/-- Correct nodes are given messages without forged signatures. -/
def Feasible (env : Env) (byz : Finset ℕ) (moves : List Move) : Prop :=
  AtEach (fun m earlier => m.node ∈ correctNodes env byz ∧
    ∀ msg ∈ m.input.message, Unforged env byz (World.attacked env earlier) msg) moves

instance (env : Env) (byz : Finset ℕ) (moves : List Move) : Decidable (Feasible env byz moves) :=
  AtEach.decidable _ moves

/-! ## What is asked of a run -/

/-- What the ids of blocks stand for. -/
structure Meaning where
  view : Identifier → View
  parent : Identifier → Identifier

/-- The block is what its id stands for, and extends the block its certificate
is for in a larger view. -/
structure Block.Fits (M : Meaning) (b : Block) : Prop where
  view : b.view = M.view b.id
  parent : b.prevID = M.parent b.id
  positive : 1 ≤ b.view
  named : b.id ≠ genesisID
  certificate : ∃ q ∈ b.qc, b.prevID = q.blockID ∧ q.view < b.view

/-- The initial certificate, or one of a real quorum that bears the view of the
block it is for. -/
def QC.Fits (env : Env) (M : Meaning) (q : QC) : Prop :=
  q = QC.initial ∨ (RealQuorum env q ∧ q.view = M.view q.blockID)

def Msg.Fits (env : Env) (M : Meaning) : Msg → Prop
  | .block b => b.Fits M ∧ ∀ q ∈ b.qc, q.Fits env M
  | .vote v => v.view = M.view v.blockID
  | .tmo t => ∀ q ∈ t.highQC, q.Fits env M
  | .vmo _ => True

/-- The block is above everything signed before, unless it is the same block. -/
def AboveSigned (past : List Event) (b : Block) : Prop :=
  ∀ e ∈ past, ∀ b' ∈ e.signed, b'.view < b.view ∨ b'.id = b.id

/-- The proposer of a block is locked on the block's grandparent. -/
def ProposerLocked (core : Core) (b : Block) : Prop :=
  ∀ q ∈ b.qc, 2 < q.view → ∃ p ∈ core.bc.forrest.getVertex q.blockID, ∃ qp ∈ p.qc,
    qp.view ≤ core.preferredView

/-- Blocks are taken up and proposed above everything signed before, and with
the lock ready. -/
def SignsCarefully (M : Meaning) (trace : List Event) : Prop :=
  AtEach (fun e past =>
    (∀ b ∈ e.handled, LockReady e.core b ∧ AboveSigned past b) ∧
      ∀ b ∈ e.proposed, b.Fits M ∧ ProposerLocked e.core b ∧ AboveSigned past b) trace

def votesTo (i : ℕ) (moves : List Move) : List Vote :=
  moves.filterMap fun m => if m.node = i then
      match m.input with
      | .deliver (.vote v) => some v
      | _ => none
    else none

structure Careful (env : Env) (byz : Finset ℕ) (M : Meaning) (moves : List Move) : Prop where
  messages : ∀ m ∈ moves, ∀ msg ∈ m.input.message, msg.Fits env M
  names : ∀ i ∈ correctNodes env byz, OneName env (newNodeID i) (· ∈ votesTo i moves)
  steps : ∀ i ∈ correctNodes env byz, SignsCarefully M ((World.attacked env moves).nodes i).trace

instance (env : Env) (M : Meaning) (q : QC) : Decidable (q.Fits env M) :=
  inferInstanceAs (Decidable (_ ∨ _))

instance (M : Meaning) (b : Block) : Decidable (b.Fits M) :=
  decidable_of_iff
    (b.view = M.view b.id ∧ b.prevID = M.parent b.id ∧ 1 ≤ b.view ∧ b.id ≠ genesisID ∧
      ∃ q ∈ b.qc, b.prevID = q.blockID ∧ q.view < b.view)
    ⟨fun ⟨hv, hp, hpos, hn, hq⟩ => ⟨hv, hp, hpos, hn, hq⟩,
      fun h => ⟨h.view, h.parent, h.positive, h.named, h.certificate⟩⟩

instance Msg.Fits.decidable (env : Env) (M : Meaning) : (m : Msg) → Decidable (m.Fits env M)
  | .block _ => inferInstanceAs (Decidable (_ ∧ _))
  | .vote _ => inferInstanceAs (Decidable (_ = _))
  | .tmo t => inferInstanceAs (Decidable (∀ q ∈ t.highQC, _))
  | .vmo _ => inferInstanceAs (Decidable True)

instance (core : Core) (b : Block) : Decidable (ProposerLocked core b) := by
  unfold ProposerLocked
  infer_instance

instance (past : List Event) (b : Block) : Decidable (AboveSigned past b) :=
  inferInstanceAs (Decidable (∀ e ∈ past, _))

instance (M : Meaning) (trace : List Event) : Decidable (SignsCarefully M trace) :=
  AtEach.decidable _ trace

theorem Block.Fits.same {M : Meaning} {b b' : Block} (h : b.Fits M) (h' : b'.Fits M)
    (hid : b.id = b'.id) : b.view = b'.view ∧ b.prevID = b'.prevID := by
  rw [h.view, h'.view, h.parent, h'.parent, hid]
  exact ⟨rfl, rfl⟩

theorem mem_votesTo {i : ℕ} {moves : List Move} {v : Vote} :
    v ∈ votesTo i moves ↔ ∃ m ∈ moves, m.node = i ∧ m.input = .deliver (.vote v) := by
  simp only [votesTo, List.mem_filterMap]
  refine exists_congr fun m => and_congr_right fun _ => ?_
  obtain ⟨node, input, fuel⟩ := m
  rcases input with (b | w | t | u) | _ | _ | _ <;> simp

/-! ## What the nodes go through -/

namespace World

variable {env : Env}

theorem attacked_reachable {K : ℕ → Known} {moves : List Move} (hopen : ∀ i b, (K i).early b)
    (h : ∀ m ∈ moves, Supplied (K m.node) m.input) (i : ℕ) :
    Reachable env .hotStuff (K i) (newNodeID i) ((attacked env moves).nodes i) := by
  induction moves with
  | nil => exact .refl
  | cons m earlier ih =>
    have hi := ih fun m' hm' => h m' (List.mem_cons_of_mem _ hm')
    rw [attacked]
    by_cases heq : i = m.node
    · subst heq
      rw [take_self]
      exact hi.trans (Replica.step_reaches (hopen m.node) hi.steady (h m List.mem_cons_self))
    · rw [take_ne env .hotStuff _ _ heq]
      exact hi

/-- Histories only grow, whatever the nodes are given. -/
theorem attacked_suffix (recent earlier : List Move) (i : ℕ) :
    ((attacked env earlier).nodes i).trace <:+
      ((attacked env (recent ++ earlier)).nodes i).trace := by
  induction recent with
  | nil => exact List.suffix_rfl
  | cons m recent ih =>
    refine ih.trans ?_
    rw [List.cons_append, attacked]
    by_cases heq : i = m.node
    · subst heq
      rw [take_self]
      have hreach : Reachable env .hotStuff Known.anything (newNodeID m.node)
          ((attacked env (recent ++ earlier)).nodes m.node) :=
        attacked_reachable (K := fun _ => Known.anything) (fun _ _ => trivial)
          (fun m' _ => Supplied.anything m'.input) m.node
      exact (Steps.later (Replica.step_reaches (fun _ => trivial) hreach.steady
        (Supplied.anything m.input))).trace
    · rw [take_ne env .hotStuff _ _ heq]

theorem attacked_idle {moves : List Move} {i : ℕ} (h : ∀ m ∈ moves, m.node ≠ i) :
    ((attacked env moves).nodes i).trace = [] := by
  induction moves with
  | nil => rfl
  | cons m earlier ih =>
    rw [attacked, take_ne env .hotStuff _ _ (h m List.mem_cons_self).symm]
    exact ih fun m' hm' => h m' (List.mem_cons_of_mem _ hm')

end World

/-! ## What a certificate stands for -/

section

variable {env : Env} {byz : Finset ℕ} {M : Meaning} {moves : List Move}

theorem mem_correctNodes {i : ℕ} :
    i ∈ correctNodes env byz ↔ (1 ≤ i ∧ i ≤ env.n) ∧ i ∉ byz := by
  rw [correctNodes, Finset.mem_sdiff, Finset.mem_Icc]

/-- No signature in a delivered message was forged, by what the correct nodes
have signed in the end. -/
theorem Feasible.unforged (h : Feasible env byz moves) {m : Move} (hm : m ∈ moves) {msg : Msg}
    (hmsg : msg ∈ m.input.message) : Unforged env byz (World.attacked env moves) msg := by
  obtain ⟨recent, earlier, rfl⟩ := List.mem_iff_append.mp hm
  obtain ⟨-, hun⟩ := atEach_iff.mp h recent m earlier rfl
  intro c hc hver i hi hnode
  obtain ⟨e, he, hsigned⟩ := hun msg hmsg c hc hver i hi hnode
  have hsuffix : ((World.attacked env earlier).nodes i).trace <:+
      ((World.attacked env (recent ++ m :: earlier)).nodes i).trace := by
    rw [List.append_cons]
    exact World.attacked_suffix (recent ++ [m]) earlier i
  exact ⟨e, hsuffix.subset he, hsigned⟩

/-- A quorum, of which all correct nodes have signed the block with this id. -/
def Backed (env : Env) (byz : Finset ℕ) (w : World) (d : Identifier) : Prop :=
  Chains.Certified (Finset.Icc 1 env.n) byz env.byzNo (fun i d => (w.nodes i).Signed d) d

/-- The initial certificate, or one for a block that is backed, of its view. -/
def Certifies (env : Env) (byz : Finset ℕ) (M : Meaning) (w : World) (q : QC) : Prop :=
  q = QC.initial ∨ (Backed env byz w q.blockID ∧ q.view = M.view q.blockID)

theorem backed_of_signers {w : World} {ids : List NodeID} {d : Identifier}
    (hsize : env.byzNo * 2 + 1 ≤
      ((ids.map NodeID.node).toFinset.filter fun i : ℤ => 1 ≤ i ∧ i ≤ env.n).card)
    (hsigned : ∀ id ∈ ids, ∀ i ∈ correctNodes env byz, id.node = i → (w.nodes i).Signed d) :
    Backed env byz w d := by
  refine ⟨(Finset.Icc 1 env.n).filter fun i : ℕ => (i : ℤ) ∈ ids.map NodeID.node,
    Finset.filter_subset _ _, ?_, ?_⟩
  · have hsub : ((ids.map NodeID.node).toFinset.filter fun i : ℤ => 1 ≤ i ∧ i ≤ env.n) ⊆
        ((Finset.Icc 1 env.n).filter fun i : ℕ => (i : ℤ) ∈ ids.map NodeID.node).image
          fun i : ℕ => (i : ℤ) := by
      intro k hk
      obtain ⟨hmem, hlo, hhi⟩ := Finset.mem_filter.mp hk
      rw [List.mem_toFinset] at hmem
      obtain ⟨i, rfl⟩ := Int.eq_ofNat_of_zero_le (show 0 ≤ k by omega)
      apply Finset.mem_image_of_mem
      rw [Finset.mem_filter, Finset.mem_Icc]
      exact ⟨by omega, hmem⟩
    have hcard := (Finset.card_le_card hsub).trans Finset.card_image_le
    omega
  · intro i hi hbyz
    obtain ⟨hrange, hmem⟩ := Finset.mem_filter.mp hi
    obtain ⟨id, hid, hnode⟩ := List.mem_map.mp hmem
    exact hsigned id hid i (Finset.mem_sdiff.mpr ⟨hrange, hbyz⟩) hnode

/-- A delivered certificate of a real quorum is for a block that is backed. -/
theorem certifies_of_unforged {w : World} {m : Msg} (hun : Unforged env byz w m) {q : QC}
    (hfit : q.Fits env M) (hsub : q.signings ⊆ m.signings) : Certifies env byz M w q := by
  rcases hfit with hinit | ⟨hreal, hview⟩
  · exact Or.inl hinit
  · refine Or.inr ⟨backed_of_signers hreal.1 ?_, hview⟩
    intro id hid i hi hnode
    obtain ⟨sig, hpair⟩ := hreal.2.beside hid
    have hmem : ⟨id, q.blockID, sig⟩ ∈ q.signings := by
      rw [QC.signings, List.mem_map]
      exact ⟨(id, sig), hpair, rfl⟩
    have hver : Verifies env sig q.blockID id := hreal.2.2 (id, sig) hpair
    exact hun _ (hsub hmem) hver i hi hnode

/-- What a correct node can be given. -/
def deliverable (env : Env) (byz : Finset ℕ) (M : Meaning) (moves : List Move) (i : ℕ) : Known :=
  .supplying
    (fun b => b.Fits M ∧ ∀ q ∈ b.qc,
      q.Fits env M ∧ Certifies env byz M (World.attacked env moves) q)
    (fun q => q.Fits env M ∧ Certifies env byz M (World.attacked env moves) q)
    (· ∈ votesTo i moves) ⟨Or.inl rfl, Or.inl rfl⟩ fun _ q h hq => h.2 q hq

theorem supplied_deliverable (hfeas : Feasible env byz moves) (hcare : Careful env byz M moves) :
    ∀ m ∈ moves, Supplied (deliverable env byz M moves m.node) m.input := by
  intro m hm
  have hun : ∀ msg ∈ m.input.message, _ := fun _ => hfeas.unforged hm
  have hfit := hcare.messages m hm
  have hvotes : ∀ v, m.input = .deliver (.vote v) → v ∈ votesTo m.node moves :=
    fun v hv => mem_votesTo.mpr ⟨m, hm, rfl, hv⟩
  revert hun hfit hvotes
  rcases m.input with (b | v | t | u) | _ | _ | _
  · intro hun hfit _
    obtain ⟨hb, hq⟩ : b.Fits M ∧ ∀ q ∈ b.qc, q.Fits env M := hfit _ rfl
    refine ⟨hb, fun q hqc => ⟨hq q hqc, certifies_of_unforged (hun _ rfl) (hq q hqc) ?_⟩⟩
    intro c hc
    refine List.mem_cons_of_mem _ (List.mem_flatMap.mpr ⟨q, ?_, hc⟩)
    rw [Option.mem_toList]
    exact hqc
  · intro _ _ hvotes
    exact hvotes v rfl
  · intro hun hfit _ q hqc
    have hq : q.Fits env M := hfit _ rfl q hqc
    refine ⟨hq, certifies_of_unforged (hun _ rfl) hq ?_⟩
    intro c hc
    refine List.mem_flatMap.mpr ⟨q, ?_, hc⟩
    rw [Option.mem_toList]
    exact hqc
  all_goals exact fun _ _ _ => trivial

theorem deliverable_wellFormed (i : ℕ) :
    WellFormed env (deliverable env byz M moves i).block := by
  constructor
  · intro b hb
    obtain ⟨q, hq, hprev, hlt⟩ := hb.1.certificate
    exact ⟨q, hq, hprev, hlt, (hb.2 q hq).1.imp_right And.left⟩
  · intro b hb q hq p hp hid
    rcases (hb.2 q hq).1 with rfl | ⟨-, hview⟩
    · exact absurd hid hp.1.named
    · rw [hp.1.view, hid, hview]

section Certificates

variable (hfeas : Feasible env byz moves) (hcare : Careful env byz M moves)
include hfeas hcare

theorem attacked_deliverable (i : ℕ) :
    Reachable env .hotStuff (deliverable env byz M moves i) (newNodeID i)
      ((World.attacked env moves).nodes i) :=
  World.attacked_reachable (fun _ _ => trivial) (supplied_deliverable hfeas hcare) i

theorem attacked_oneName {i : ℕ} (hi : i ∈ correctNodes env byz) :
    OneName env ((World.attacked env moves).nodes i).id (deliverable env byz M moves i).vote := by
  rw [(attacked_deliverable hfeas hcare i).id_eq]
  exact hcare.names i hi

/-- A counted vote of a correct node is for a block that this node has signed,
and bears its view. -/
theorem counted_signed {i : ℕ} (hi : i ∈ correctNodes env byz) (hn : env.n < 2 ^ 63) {v : Vote}
    (h : Counted env (deliverable env byz M moves i) ((World.attacked env moves).nodes i) v) :
    (∀ j ∈ correctNodes env byz, v.voter.node = j →
      ((World.attacked env moves).nodes j).Signed v.blockID) ∧ v.view = M.view v.blockID := by
  have hreach := attacked_deliverable hfeas hcare i
  rcases h.1 with hv | ⟨core, b, he, -⟩
  · obtain ⟨-, hver⟩ := counted_verifies (attacked_oneName hfeas hcare hi) hreach.tally h
    obtain ⟨m, hm, -, hinput⟩ := mem_votesTo.mp hv
    have hmsg : Msg.vote v ∈ m.input.message := by
      rw [hinput]
      rfl
    have hfit : v.view = M.view v.blockID := hcare.messages m hm _ hmsg
    exact ⟨hfeas.unforged hm hmsg _ (List.mem_singleton_self _) hver, hfit⟩
  · obtain ⟨hview, hvoter, hid, -⟩ := makeVote_ok (hreach.tally.own core b v he)
    obtain ⟨s, recent, hreach₁, -, -, ⟨core₀, qc, hguard⟩, -⟩ := hreach.mem he
    obtain ⟨s₀, -, -, -, -, hb⟩ := hreach₁.mem (inHand_mem hguard.hand)
    constructor
    · intro j hj hnode
      have hlt : i < 2 ^ 63 := (mem_correctNodes.mp hi).1.2.trans_lt hn
      rw [hvoter, hreach.id_eq, node_newNodeID i hlt] at hnode
      obtain rfl : i = j := by exact_mod_cast hnode
      exact ⟨_, he, b, rfl, hid.symm⟩
    · rw [hview, hid]
      exact hb.1.view

/-- Whatever certificate a correct node holds, the block it is for is backed. -/
theorem held_certifies {i : ℕ} (hi : i ∈ correctNodes env byz) (hn : env.n < 2 ^ 63) {q : QC}
    (h : Held (deliverable env byz M moves i) ((World.attacked env moves).nodes i) q) :
    Certifies env byz M (World.attacked env moves) q := by
  have hreach := attacked_deliverable hfeas hcare i
  rcases h with hq | ⟨core, he⟩
  · exact hq.2
  · obtain ⟨⟨v, hv, hid, hview⟩, votes, hcert⟩ := hreach.tally.built core q he
    have hnodes :=
      certificate_differentNodes (attacked_oneName hfeas hcare hi) hreach.tally hcert
    have hrange : ∀ k ∈ (q.signers.map NodeID.node).toFinset, 1 ≤ k ∧ k ≤ env.n := by
      intro k hk
      obtain ⟨id, hmem, rfl⟩ := List.mem_map.mp (List.mem_toFinset.mp hk)
      exact hnodes.range id hmem
    have hsize : env.byzNo * 2 + 1 ≤ ((q.signers.map NodeID.node).toFinset.filter
        fun k : ℤ => 1 ≤ k ∧ k ≤ env.n).card := by
      rw [Finset.filter_true_of_mem hrange, List.toFinset_card_of_nodup hnodes.nodup,
        List.length_map]
      exact hnodes.size
    refine Or.inr ⟨backed_of_signers hsize fun id hmem j hj hnode => ?_, ?_⟩
    · rw [hcert.signers] at hmem
      obtain ⟨u, hu, rfl⟩ := List.mem_map.mp hmem
      obtain ⟨huid, hucount⟩ := hcert.vote u hu
      rw [← huid]
      exact (counted_signed hfeas hcare hi hn hucount).1 j hj hnode
    · rw [← hview, ← hid]
      exact (counted_signed hfeas hcare hi hn hv).2

end Certificates

end

end Bamboo
