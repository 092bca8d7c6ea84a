import Bamboo.Election
import Bamboo.Safety

/-!
# Networks of replicas

`World` holds the replicas by their number. In an honest network every replica
follows the configured algorithm and a message reaches another replica only
after it was sent; which messages arrive, when and in which order is up to the
schedule, and so are the timeouts. A proposer processes its own block as a
delivery from itself. A turn is a whole call of a handler, so that the calls on one
replica do not overlap.
-/
namespace Bamboo

inductive Action
  | deliver (src k : ℕ)
  | txn
  | timeout
  | newView (payload : List Transaction)
  deriving DecidableEq, Repr

/-- One turn of one replica's event loop. -/
structure Turn where
  node : ℕ
  action : Action
  fuel : ℕ
  deriving DecidableEq, Repr

structure World where
  nodes : ℕ → Replica

namespace World

def init (env : Env) : World := ⟨fun i => Replica.new env (newNodeID i) false⟩

/-- The input an action amounts to, if the network allows it. -/
def input (env : Env) (w : World) (node : ℕ) : Action → Option Input
  | .txn => some .txn
  | .timeout => some .timeout
  | .newView payload => some (.newView payload)
  | .deliver src k =>
    if 1 ≤ src ∧ src ≤ env.n then
      match (w.nodes src).outbox[k]? with
      | none => none
      | some e =>
        if src = node then
          match e.msg with
          | .block b => some (.deliver (.block b))
          | _ => none
        else if e.dest = none ∨ e.dest = some (w.nodes node).id then some (.deliver e.msg.wire)
        else none
    else none

def take (env : Env) (alg : Algorithm) (w : World) (node : ℕ) (i : Input × ℕ) : World :=
  ⟨Function.update w.nodes node ((w.nodes node).step env alg i)⟩

@[simp] theorem take_self (env : Env) (alg : Algorithm) (w : World) (node : ℕ) (i : Input × ℕ) :
    (w.take env alg node i).nodes node = (w.nodes node).step env alg i :=
  Function.update_self _ _ _

theorem take_ne (env : Env) (alg : Algorithm) (w : World) {node j : ℕ} (i : Input × ℕ)
    (h : j ≠ node) : (w.take env alg node i).nodes j = w.nodes j :=
  Function.update_of_ne h _ _

def step (env : Env) (alg : Algorithm) (w : World) (t : Turn) : World :=
  if 1 ≤ t.node ∧ t.node ≤ env.n then
    match w.input env t.node t.action with
    | none => w
    | some i => w.take env alg t.node (i, t.fuel)
  else w

def run (env : Env) (alg : Algorithm) (w : World) (turns : List Turn) : World :=
  turns.foldl (step env alg) w

/-- An honest network after some turns. -/
def after (env : Env) (alg : Algorithm) (turns : List Turn) : World :=
  (init env).run env alg turns

theorem after_append (env : Env) (alg : Algorithm) (turns : List Turn) (t : Turn) :
    after env alg (turns ++ [t]) = (after env alg turns).step env alg t := by
  simp [after, run]

/-- What a node has become is a run of its own on the inputs it took, each of them in a
turn of its own. -/
theorem after_inputs (env : Env) (alg : Algorithm) (turns : List Turn) (i : ℕ) :
    ∃ inputs, (after env alg turns).nodes i =
        (Replica.new env (newNodeID i) false).run env alg inputs ∧
      ∀ before input fuel, before ++ [(input, fuel)] <+: inputs → ∃ earlier t,
        earlier ++ [t] <+: turns ∧ t.node = i ∧
        (after env alg earlier).input env i t.action = some input ∧
        (after env alg earlier).nodes i =
          (Replica.new env (newNodeID i) false).run env alg before := by
  induction turns using List.reverseRecOn with
  | nil => exact ⟨[], rfl, fun before input fuel hpre => by simp at hpre⟩
  | append_singleton turns t ih =>
    obtain ⟨inputs, hrun, hturns⟩ := ih
    have hold : ∀ before input fuel, before ++ [(input, fuel)] <+: inputs → ∃ earlier t',
        earlier ++ [t'] <+: turns ++ [t] ∧ t'.node = i ∧
        (after env alg earlier).input env i t'.action = some input ∧
        (after env alg earlier).nodes i =
          (Replica.new env (newNodeID i) false).run env alg before := by
      intro before input fuel hpre
      obtain ⟨earlier, t', hprefix, hrest⟩ := hturns before input fuel hpre
      exact ⟨earlier, t', hprefix.trans (List.prefix_append _ _), hrest⟩
    rw [after_append]
    unfold step
    split_ifs
    · cases hin : (after env alg turns).input env t.node t.action with
      | none => exact ⟨inputs, hrun, hold⟩
      | some input =>
        by_cases heq : i = t.node
        · subst heq
          refine ⟨inputs ++ [(input, t.fuel)], by simp [hrun, Replica.run], ?_⟩
          intro before input' fuel hpre
          rcases List.prefix_concat_iff.mp hpre with hlast | hpre
          · obtain ⟨rfl, hpair⟩ := List.append_inj' hlast rfl
            cases hpair
            exact ⟨turns, t, List.prefix_rfl, rfl, hin, hrun⟩
          · exact hold before input' fuel hpre
        · refine ⟨inputs, ?_, hold⟩
          rw [take_ne env alg _ _ heq, hrun]
    · exact ⟨inputs, hrun, hold⟩

theorem after_node (env : Env) (alg : Algorithm) (turns : List Turn) (i : ℕ) :
    ∃ inputs, (after env alg turns).nodes i =
      (Replica.new env (newNodeID i) false).run env alg inputs := by
  obtain ⟨inputs, hrun, -⟩ := after_inputs env alg turns i
  exact ⟨inputs, hrun⟩

end World

/-- A message of one node's outbox reaches some nodes. -/
def spread (src k : ℕ) (nodes : List ℕ) : List Turn :=
  nodes.map fun i => ⟨i, .deliver src k, 8⟩

/-- Messages from several outboxes reach one node. -/
def collect (node : ℕ) (messages : List (ℕ × ℕ)) : List Turn :=
  messages.map fun m => ⟨node, .deliver m.1 m.2, 8⟩

/-! ## A deployment of four nodes

One Byzantine node is allowed for, and the leaders rotate. The signatures are
ideal, and ids are told apart by the view and the number of transactions; the
runs below use no two blocks that agree in both.
-/

def identifierBytes (id : Identifier) : List UInt8 :=
  (List.range 32).map fun i => UInt8.ofNat (id.toNat / 256 ^ i)

def idealCrypto : Crypto where
  makeID raw := BitVec.ofNat 256 (raw.view.toUInt64.toNat + 2 ^ 64 * raw.payload.length)
  sign key id := ([UInt8.ofNat key], identifierBytes id)
  verify key id r s := decide (r = [UInt8.ofNat key] ∧ s = identifierBytes id)
  verify_sign _ _ := by simp

/-- The SHA-1 digests of the numbers drawn in views 4 to 9, first eight bytes. -/
def sha1Table (s : String) : List UInt8 :=
  if s = "5" then [0xac, 0x34, 0x78, 0xd6, 0x9a, 0x3c, 0x81, 0xfa]
  else if s = "6" then [0xc1, 0xdf, 0xd9, 0x6e, 0xea, 0x8c, 0xc2, 0xb6]
  else if s = "7" then [0x90, 0x2b, 0xa3, 0xcd, 0xa1, 0x88, 0x38, 0x01]
  else if s = "8" then [0xfe, 0x5d, 0xbb, 0xce, 0xa5, 0xce, 0x7e, 0x29]
  else if s = "9" then [0x0a, 0xde, 0x7c, 0x2c, 0xf9, 0x7f, 0x75, 0xd0]
  else if s = "10" then [0xb1, 0xd5, 0x78, 0x11, 0x11, 0xd8, 0x4f, 0x7b]
  else []

def fourNodes : Env where
  n := 4
  byzNo := 1
  forkATK := false
  election := rotation sha1Table 4
  crypto := idealCrypto
  order := id
  order_perm _ := List.Perm.refl _

/-- A block of the deployment, signed by its proposer. -/
def fourNodes.block (view : View) (qc : QC) (proposer : ℕ) (payload : List Transaction) : Block :=
  let raw : RawBlock := ⟨view, some qc, newNodeID proposer, payload.map Transaction.id, qc.blockID⟩
  let id := idealCrypto.makeID raw
  let sig := idealCrypto.sign proposer id
  ⟨view, some qc, newNodeID proposer, payload, qc.blockID, [sig.1, sig.2], id, false, 0, 0⟩

/-- The certificate that the given nodes sign for a block. -/
def fourNodes.certificate (view : View) (blockID : Identifier) (nodes : List ℕ) : QC :=
  { leader := "", view := view, blockID := blockID, signers := nodes.map newNodeID,
    aggSig := nodes.map fun i => [(idealCrypto.sign i blockID).1, (idealCrypto.sign i blockID).2],
    signature := [] }

/-- A chain of blocks, the one at `k` of view `k + 1`, each with a certificate
of nodes 2, 3 and 4 for the block before. Node 4 leads the first three views,
node 3 the next two. -/
def fourNodes.chain : ℕ → Block
  | 0 => fourNodes.block 1 QC.initial 4 []
  | k + 1 =>
    let b := fourNodes.chain k
    fourNodes.block (b.view + 1) (fourNodes.certificate b.view b.id [2, 3, 4])
      (if k < 2 then 4 else 3) []

def deliverAll (blocks : List Block) : List (Input × ℕ) :=
  blocks.map fun b => (.deliver (.block b), 8)

/-- The timeouts of nodes 2, 3 and 4 for a view, which end it. -/
def fourNodes.timeouts (view : View) : List (Input × ℕ) :=
  [2, 3, 4].map fun i => (.deliver (.tmo ⟨view, newNodeID i, some QC.initial⟩), 8)

/-- All four blocks of the chain in order, to a replica in view 4. -/
def fourNodes.fourBlocks : List (Input × ℕ) :=
  fourNodes.timeouts 3 ++ deliverAll ((List.range 4).map fourNodes.chain)

end Bamboo
