import Bamboo.Buffers
import Bamboo.Byzantine

/-!
# Who is behind a TC or a VC

The controllers of the pacemaker count timeouts and view-change messages by the
`NodeID` written in them. Neither message is signed, so the count says something
about the nodes only if the network vouches for the name: then more than two
thirds of `3 f + 1` names leave `f + 1` correct nodes after the Byzantine ones
are taken away. If it does not, one node can fill the count by itself.

The correct nodes run any of the three protocols, and the adversary decides what
each of them is given.
-/
namespace Bamboo

open Relation Stepwise

/-! ## Counting names -/

/-- Of more than two thirds of `3 f + 1` names, `f + 1` belong to correct nodes. -/
theorem card_correct {env : Env} {byz : Finset ℕ} {f : ℕ} (hn : env.n = 3 * f + 1)
    (hbyz : byz.card ≤ f) {P : ℕ → Prop} [DecidablePred P] {senders : Finset NodeID}
    (hcard : 2 * env.n < 3 * senders.card)
    (h : ∀ id ∈ senders, ∃ j ∈ Finset.Icc 1 env.n, id = newNodeID j ∧ (j ∉ byz → P j)) :
    f + 1 ≤ ((correctNodes env byz).filter P).card := by
  let named := (Finset.Icc 1 env.n).filter fun j => j ∉ byz → P j
  have himage : senders ⊆ named.image newNodeID := by
    intro id hid
    obtain ⟨j, hj, rfl, hP⟩ := h id hid
    exact Finset.mem_image_of_mem _ (Finset.mem_filter.mpr ⟨hj, hP⟩)
  have hnamed := (Finset.card_le_card himage).trans Finset.card_image_le
  have hsub : named \ byz ⊆ (correctNodes env byz).filter P := by
    intro j hj
    obtain ⟨hj, hbyz⟩ := Finset.mem_sdiff.mp hj
    obtain ⟨hrange, hP⟩ := Finset.mem_filter.mp hj
    exact Finset.mem_filter.mpr ⟨Finset.mem_sdiff.mpr ⟨hrange, hbyz⟩, hP hbyz⟩
  have hrest := Finset.le_card_sdiff byz named
  have hle := Finset.card_le_card hsub
  omega

/-! ## The network -/

/-- The network after these moves, which are listed newest first. -/
def World.driven (env : Env) (alg : Algorithm) : List Move → World
  | [] => World.init env
  | m :: earlier => (World.driven env alg earlier).take env alg m.node (m.input, m.fuel)

/-- What one node was given, in order. -/
def inputsTo (i : ℕ) : List Move → List (Input × ℕ)
  | [] => []
  | m :: earlier =>
    if m.node = i then inputsTo i earlier ++ [(m.input, m.fuel)] else inputsTo i earlier

/-- The two messages that the controllers count. -/
inductive Signal
  | tmo
  | vmo
  deriving DecidableEq, Repr

def Msg.signal : Msg → Option (Signal × View)
  | .tmo t => some (.tmo, t.view)
  | .vmo v => some (.vmo, v.view)
  | _ => none

/-- The name that a message is counted under. -/
def Msg.counted : Msg → Option NodeID
  | .tmo t => some t.nodeID
  | .vmo v => some v.nodeID
  | _ => none

/-- The replica has issued such a message, under whatever name. -/
def Replica.HasSent (s : Replica) (signal : Signal) (view : View) : Prop :=
  ∃ e ∈ s.outbox, e.msg.signal = some (signal, view)

instance (s : Replica) (signal : Signal) (view : View) : Decidable (s.HasSent signal view) :=
  inferInstanceAs (Decidable (∃ e ∈ s.outbox, _))

/-- The pacemaker has built a certificate for the view: the message that makes
the majority returns it. -/
def Pacemaker.HasBuilt (p : Pacemaker) (view : View) : Signal → Prop
  | .tmo => p.timeoutController.superMajority view
  | .vmo => p.viewChangeController.superMajority view

instance (p : Pacemaker) (view : View) : (signal : Signal) → Decidable (p.HasBuilt view signal)
  | .tmo => inferInstanceAs (Decidable (_ = true))
  | .vmo => inferInstanceAs (Decidable (_ = true))

/-- The name in the message is that of a node, and a correct node of that name
has issued a message of this kind and view. -/
def Attested (env : Env) (byz : Finset ℕ) (w : World) (m : Msg) : Prop :=
  ∀ id ∈ m.counted, ∃ j ∈ Finset.Icc 1 env.n, id = newNodeID j ∧
    (j ∉ byz → ∃ e ∈ (w.nodes j).outbox, e.msg.signal = m.signal)

instance (env : Env) (byz : Finset ℕ) (w : World) (m : Msg) : Decidable (Attested env byz w m) :=
  inferInstanceAs (Decidable (∀ id ∈ m.counted, _))

/-- Correct nodes are given messages whose names the network vouches for. -/
def TrueNames (env : Env) (alg : Algorithm) (byz : Finset ℕ) (moves : List Move) : Prop :=
  AtEach (fun m earlier => m.node ∈ correctNodes env byz ∧
    ∀ msg ∈ m.input.message, Attested env byz (World.driven env alg earlier) msg) moves

instance (env : Env) (alg : Algorithm) (byz : Finset ℕ) (moves : List Move) :
    Decidable (TrueNames env alg byz moves) :=
  AtEach.decidable _ moves

/-! ## What a node has become -/

section Nodes

variable (env : Env) (alg : Algorithm)

theorem inputsTo_append (i : ℕ) (recent earlier : List Move) :
    inputsTo i (recent ++ earlier) = inputsTo i earlier ++ inputsTo i recent := by
  induction recent with
  | nil => simp [inputsTo]
  | cons m recent ih =>
    by_cases h : m.node = i
    · simp [inputsTo, h, ih]
    · simp [inputsTo, h, ih]

theorem mem_inputsTo {i : ℕ} {moves : List Move} {input : Input × ℕ} :
    input ∈ inputsTo i moves ↔ ∃ m ∈ moves, m.node = i ∧ input = (m.input, m.fuel) := by
  induction moves with
  | nil => simp [inputsTo]
  | cons m earlier ih =>
    by_cases h : m.node = i
    · simp [inputsTo, h, ih, or_comm]
    · simp [inputsTo, h, ih]

theorem World.driven_node (i : ℕ) (moves : List Move) :
    (World.driven env alg moves).nodes i =
      Replica.after env alg (newNodeID i) false (inputsTo i moves) := by
  induction moves with
  | nil => rfl
  | cons m earlier ih =>
    rw [World.driven, inputsTo]
    by_cases h : m.node = i
    · subst h
      rw [World.take_self, if_pos rfl, ih, Replica.after, Replica.after, Replica.run_append]
      rfl
    · rw [World.take_ne env alg _ _ (Ne.symm h), if_neg h, ih]

theorem World.driven_outbox (recent earlier : List Move) (i : ℕ) :
    ((World.driven env alg earlier).nodes i).outbox <+:
      ((World.driven env alg (recent ++ earlier)).nodes i).outbox := by
  rw [World.driven_node, World.driven_node, inputsTo_append]
  exact (Steps.later (Replica.after_steps env alg ..)).outbox

theorem World.driven_id (moves : List Move) (i : ℕ) :
    ((World.driven env alg moves).nodes i).id = newNodeID i := by
  rw [World.driven_node]
  exact (Steps.later (Replica.new_steps env alg _ _ _ [])).id

end Nodes

/-! ## The names behind a certificate -/

section Certificates

variable {env : Env} {alg : Algorithm} {byz : Finset ℕ} {moves : List Move}

theorem TrueNames.attested (h : TrueNames env alg byz moves) {m : Move} (hm : m ∈ moves) {msg : Msg}
    (hmsg : msg ∈ m.input.message) : Attested env byz (World.driven env alg moves) msg := by
  obtain ⟨recent, earlier, rfl⟩ := List.mem_iff_append.mp hm
  obtain ⟨-, hall⟩ := atEach_iff.mp h recent m earlier rfl
  intro id hid
  obtain ⟨j, hj, hname, hsent⟩ := hall msg hmsg id hid
  refine ⟨j, hj, hname, fun hbyz => ?_⟩
  obtain ⟨e, he, hsignal⟩ := hsent hbyz
  rw [List.append_cons]
  exact ⟨e, (World.driven_outbox env alg (recent ++ [m]) earlier j).subset he, hsignal⟩

/-- Whatever a correct node counts is attested, its own messages included. -/
theorem attested_of_received (h : TrueNames env alg byz moves) {i : ℕ}
    (hi : i ∈ correctNodes env byz) {m : Msg}
    (hm : Received (deliveredIn (inputsTo i moves)) ((World.driven env alg moves).nodes i) m) :
    Attested env byz (World.driven env alg moves) m := by
  rcases hm with ⟨fuel, hdelivered⟩ | hown
  · obtain ⟨mv, hmv, -, heq⟩ := mem_inputsTo.mp hdelivered
    have hinput : mv.input = .deliver m := (congrArg Prod.fst heq).symm
    exact h.attested hmv (by rw [hinput]; rfl)
  · intro id hid
    have hsteady := Replica.after_steady env alg (newNodeID i) false (inputsTo i moves) []
    rw [← World.driven_node] at hsteady
    have hsent := hsteady.sent _ hown
    refine ⟨i, (Finset.mem_sdiff.mp hi).1, ?_, fun _ => ⟨_, hown, rfl⟩⟩
    rw [← World.driven_id env alg moves i]
    cases m with
    | block b => cases hid
    | vote v => cases hid
    | tmo t =>
      obtain rfl := Option.some.inj hid
      exact hsent.1
    | vmo v =>
      obtain rfl := Option.some.inj hid
      exact hsent.1

/-- Behind a TC or VC of a correct node stand `f + 1` correct nodes. -/
theorem certificate_attested (f : ℕ) (hn : env.n = 3 * f + 1) (hbyz : byz.card ≤ f)
    (h : TrueNames env alg byz moves) {i : ℕ} (hi : i ∈ correctNodes env byz) (signal : Signal)
    (view : View) (hbuilt : ((World.driven env alg moves).nodes i).pm.HasBuilt view signal) :
    f + 1 ≤ ((correctNodes env byz).filter fun j =>
      ((World.driven env alg moves).nodes j).HasSent signal view).card := by
  have hsteady := Replica.after_steady env alg (newNodeID i) false (inputsTo i moves) []
  rw [← World.driven_node, List.append_nil] at hsteady
  have hcounting := hsteady.counting
  have hname : ∀ m, Received (deliveredIn (inputsTo i moves))
      ((World.driven env alg moves).nodes i) m → m.signal = some (signal, view) →
      ∀ id ∈ m.counted, ∃ j ∈ Finset.Icc 1 env.n, id = newNodeID j ∧
        (j ∉ byz → ((World.driven env alg moves).nodes j).HasSent signal view) := by
    intro m hm hsignal id hid
    have hattested := attested_of_received h hi hm id hid
    rw [hsignal] at hattested
    exact hattested
  cases signal with
  | tmo =>
    obtain ⟨senders, hcard, hall⟩ := hcounting.tmos.senders hbuilt
    rw [hcounting.tmoSize] at hcard
    refine card_correct hn hbyz hcard fun id hid => ?_
    obtain ⟨t, hr, rfl, rfl⟩ := hall id hid
    exact hname _ hr rfl _ rfl
  | vmo =>
    obtain ⟨senders, hcard, hall⟩ := hcounting.vmos.senders hbuilt
    rw [hcounting.vmoSize] at hcard
    refine card_correct hn hbyz hcard fun id hid => ?_
    obtain ⟨v, hr, rfl, rfl⟩ := hall id hid
    exact hname _ hr rfl _ rfl

end Certificates

/-- Nodes 1 to 3 enter view 1 with its block and run into their timeouts, and
node 1 hears of the others. -/
def fourNodes.timingOut : List Move :=
  let heard (i : ℕ) : Move := ⟨1, .deliver (.tmo ⟨1, newNodeID i, some QC.initial⟩), 8⟩
  heard 3 :: heard 2 :: ([3, 2, 1].map fun i => ⟨i, .timeout, 8⟩) ++
    [3, 2, 1].map fun i => ⟨i, .deliver (.block (fourNodes.chain 0)), 8⟩

theorem certificate_attested_timingOut :
    ((World.driven fourNodes .hotStuff fourNodes.timingOut).nodes 1).pm.HasBuilt 1 .tmo ∧
    1 + 1 ≤ ((correctNodes fourNodes {4}).filter fun j =>
      ((World.driven fourNodes .hotStuff fourNodes.timingOut).nodes j).HasSent .tmo 1).card :=
  ⟨by decide +kernel, certificate_attested 1 rfl (by decide) (by decide +kernel)
    (show 1 ∈ correctNodes fourNodes {4} by decide) .tmo 1 (by decide +kernel)⟩

/-- Node 4 sends three timeouts of view 1 to node 1, and three view-change
messages of view 3 to node 3, which leads view 4, each time under three names. -/
def fourNodes.masquerade : List Move :=
  ([1, 2, 4].map fun i => ⟨3, .deliver (.vmo ⟨3, newNodeID i, some QC.initial⟩), 8⟩) ++
    [2, 3, 4].map fun i => ⟨1, .deliver (.tmo ⟨1, newNodeID i, some QC.initial⟩), 8⟩

/-- The certificates are built in each protocol, and no correct node has sent
anything that is counted. -/
theorem certificates_forged :
    (((World.driven fourNodes .hotStuff fourNodes.masquerade).nodes 1).pm.HasBuilt 1 .tmo ∧
      ((World.driven fourNodes .hotStuff fourNodes.masquerade).nodes 3).pm.HasBuilt 3 .vmo) ∧
    (((World.driven fourNodes .tchs fourNodes.masquerade).nodes 1).pm.HasBuilt 1 .tmo ∧
      ((World.driven fourNodes .tchs fourNodes.masquerade).nodes 3).pm.HasBuilt 3 .vmo) ∧
    (((World.driven fourNodes .fhs fourNodes.masquerade).nodes 1).pm.HasBuilt 1 .tmo ∧
      ((World.driven fourNodes .fhs fourNodes.masquerade).nodes 3).pm.HasBuilt 3 .vmo) ∧
    ((correctNodes fourNodes {4}).filter fun j =>
      ((World.driven fourNodes .hotStuff fourNodes.masquerade).nodes j).HasSent .tmo 1 ∨
      ((World.driven fourNodes .tchs fourNodes.masquerade).nodes j).HasSent .tmo 1 ∨
      ((World.driven fourNodes .fhs fourNodes.masquerade).nodes j).HasSent .tmo 1 ∨
      ((World.driven fourNodes .hotStuff fourNodes.masquerade).nodes j).HasSent .vmo 3 ∨
      ((World.driven fourNodes .tchs fourNodes.masquerade).nodes j).HasSent .vmo 3 ∨
      ((World.driven fourNodes .fhs fourNodes.masquerade).nodes j).HasSent .vmo 3) = ∅ := by
  decide +kernel

end Bamboo
