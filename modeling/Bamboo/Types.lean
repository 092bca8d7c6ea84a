import Mathlib.Data.List.AList
import Mathlib.Tactic

/-!
# Wire types of the replicas

The records exchanged by the replicas, with the widths of the source. A view
is a signed 64-bit integer and a level of the forest is its unsigned reading,
so a negative view becomes a very large level, as it does in Go. A pointer that
may be nil is an `Option`; a Go map is an association list with distinct keys.

Left out are the fields that only feed statistics or transport: the timestamps
of a block and its `CommitFromThis` mark, and everything of a transaction but
its id, which is all that a block's own id depends on.
-/
namespace Bamboo

abbrev View := Int64

/-- Counting up does not wrap around where it leads to 2 or above. -/
theorem toInt_add_one {a : View} (h : 2 ≤ a + 1) : (a + 1).toInt = a.toInt + 1 := by
  have hle : (2 : View).toInt ≤ (a + 1).toInt := Int64.le_iff_toInt_le.mp h
  have htwo : (2 : View).toInt = 2 := rfl
  have hadd : (a + 1).toInt = (a.toInt + 1).bmod (2 ^ 64) := Int64.toInt_add a 1
  have hlo : -2 ^ 63 ≤ a.toInt := a.le_toInt
  have hhi : a.toInt < 2 ^ 63 := a.toInt_lt
  rw [hadd, Int.bmod_def] at hle ⊢
  omega

/-- Nor does it below the largest view. -/
theorem toInt_succ {a : View} (h : a < Int64.maxValue) : (a + 1).toInt = a.toInt + 1 := by
  have hlt : a.toInt < 2 ^ 63 - 1 := Int64.lt_iff_toInt_lt.mp h
  have hadd : (a + 1).toInt = (a.toInt + 1).bmod (2 ^ 64) := Int64.toInt_add a 1
  have hlo : -2 ^ 63 ≤ a.toInt := a.le_toInt
  rw [hadd, Int.bmod_def]
  omega

theorem view_pos_iff {view : View} : 0 < view ↔ ¬ view < 1 := by
  rw [Int64.lt_iff_toInt_lt, Int64.lt_iff_toInt_lt]
  change (0 : ℤ) < _ ↔ ¬ _ < (1 : ℤ)
  omega

/-- What holds of an optional view is decided for that view, not for all of them in turn. -/
instance (priority := 2000) decidableForallMemView {p : View → Prop} [DecidablePred p]
    (o : Option View) : Decidable (∀ v ∈ o, p v) :=
  decidable_of_iff (o.all fun v => decide (p v)) (by cases o <;> simp)

/-- A view that is not negative keeps its value as a level. -/
theorem toNat_toUInt64 {v : View} (h : 0 ≤ v) : (v.toUInt64.toNat : ℤ) = v.toInt := by
  rw [Int64.toNat_toUInt64_of_le h]
  exact Int.toNat_of_nonneg (Int64.le_iff_toInt_le.mp h)

/-- A 32-byte hash. The zero value names the genesis block, which is never stored. -/
abbrev Identifier := BitVec 256

def genesisID : Identifier := 0

abbrev NodeID := String

/-- The two decimal strings of an ECDSA signature; senders may supply any number. -/
abbrev Signature := List (List UInt8)

abbrev Map (K V : Type) := AList fun _ : K => V

theorem lookup_of_lookup_erase {K V : Type} [DecidableEq K] {m : Map K V} {k k' : K} {v : V}
    (h : (m.erase k).lookup k' = some v) : m.lookup k' = some v := by
  by_cases heq : k' = k
  · subst heq
    rw [AList.lookup_erase] at h
    cases h
  · rwa [AList.lookup_erase_ne heq] at h

theorem lookup_insert_cases {V W : Type} [DecidableEq V] {m : Map V W} {k k' : V} {x y : W}
    (h : (m.insert k x).lookup k' = some y) : (k' = k ∧ y = x) ∨ m.lookup k' = some y := by
  by_cases heq : k' = k
  · subst heq
    rw [AList.lookup_insert] at h
    exact Or.inl ⟨rfl, (Option.some.inj h).symm⟩
  · rw [AList.lookup_insert_ne heq] at h
    exact Or.inr h

/-- What is so of all entries of a map stays so if it is so of a new one. -/
theorem forall_lookup_insert {K V : Type} [DecidableEq K] {m : Map K V} {P : K → V → Prop}
    {k : K} {v : V} (h : ∀ k v, m.lookup k = some v → P k v) (hnew : P k v) :
    ∀ k' v', (m.insert k v).lookup k' = some v' → P k' v' := by
  intro k' v' hl
  rcases lookup_insert_cases hl with ⟨rfl, rfl⟩ | hold
  · exact hnew
  · exact h k' v' hold

/-- Ways in which a Go call fails to return. `spin` covers an endless loop and
a recursion deeper than the fuel of the model. -/
inductive Fault
  | index
  | nilPointer
  | spin
  deriving DecidableEq, Repr

/-- Returned errors, one constructor for each `fmt.Errorf` of the modelled code. -/
inductive Err
  | blockMissing (id : Identifier)
  | parentMissing (id : Identifier)
  | cannotFind (id : Identifier)
  | lowerLevel (level lowest : UInt64)
  | cannotPrune (cause : Err)
  | invalidVertex (cause : Err)
  | conflicting (id : Identifier)
  | parentNotLower (parentLevel level : UInt64)
  | parentLevelDiffers (id : Identifier) (parentLevel stored : UInt64)
  | missingQC
  | invalidLeader (view : View) (proposer : NodeID)
  | cannotVote (cause : Err)
  | cannotCommitAny (cause : Err)
  | cannotUpdate (cause : Err)
  | cannotCommit
  | staleBlock
  | notStored
  | notExtending
  deriving DecidableEq, Repr

structure QC where
  leader : NodeID
  view : View
  blockID : Identifier
  signers : List NodeID
  aggSig : List Signature
  signature : Signature
  deriving DecidableEq, Repr

/-- The certificate every replica starts with: `&blockchain.QC{View: 0}`. -/
def QC.initial : QC := ⟨"", 0, genesisID, [], [], []⟩

structure Transaction where
  id : String
  deriving DecidableEq, Repr

structure Block where
  view : View
  qc : Option QC
  proposer : NodeID
  payload : List Transaction
  prevID : Identifier
  sig : Signature
  id : Identifier
  mali : Bool
  forkNum : Int
  height : Int
  deriving DecidableEq, Repr

/-- The part of a block that is hashed into its id. -/
structure RawBlock where
  view : View
  qc : Option QC
  proposer : NodeID
  payload : List String
  prevID : Identifier
  deriving DecidableEq, Repr

def Block.raw (b : Block) : RawBlock :=
  ⟨b.view, b.qc, b.proposer, b.payload.map Transaction.id, b.prevID⟩

structure Vote where
  view : View
  voter : NodeID
  blockID : Identifier
  signature : Signature
  deriving DecidableEq, Repr

structure TMO where
  view : View
  nodeID : NodeID
  highQC : Option QC
  deriving DecidableEq, Repr

structure VMO where
  view : View
  nodeID : NodeID
  highQC : Option QC
  deriving DecidableEq, Repr

inductive Msg
  | block (b : Block)
  | vote (v : Vote)
  | tmo (t : TMO)
  | vmo (v : VMO)
  deriving DecidableEq, Repr

/-- Gob carries the exported fields only, so a received block has lost its
fork number and its height. -/
def Msg.wire : Msg → Msg
  | .block b => .block { b with forkNum := 0, height := 0 }
  | m => m

/-- `dest = none` is a broadcast, which goes to every node but the sender. -/
structure Envelope where
  dest : Option NodeID
  msg : Msg
  deriving DecidableEq, Repr

/-! ## A block as a vertex of the forest -/

namespace Block

def level (b : Block) : UInt64 := b.view.toUInt64

/-- `Parent()` reads the view out of the block's QC, which may be nil. -/
def parent (b : Block) : Except Fault (Identifier × UInt64) :=
  match b.qc with
  | none => .error .nilPointer
  | some qc => .ok (b.prevID, qc.view.toUInt64)

end Block

end Bamboo
