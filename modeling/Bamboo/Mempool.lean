import Bamboo.Types

/-!
# The memory pool of a producer

`MemPool` and `Producer` are wrappers of one `Backend`: a doubly linked list of
transactions with a limit and a counter. New transactions go to the back, the
transactions of a forked block to the front, and a payload is taken from the
front. Nothing looks into a transaction, so that the entries may be of any type.
A nil transaction is `none`.
-/
namespace Bamboo

structure Backend (α : Type) where
  txns : List α
  limit : ℤ
  totalReceived : ℕ
  deriving DecidableEq, Repr

namespace Backend

variable {α β : Type}

def new (limit : ℤ) : Backend α := ⟨[], limit, 0⟩

def size (b : Backend α) : ℕ := b.txns.length

/-- A transaction is dropped silently once the pool is above its limit. -/
def insertBack (b : Backend α) : Option α → Backend α
  | none => b
  | some txn =>
    if b.limit < b.size then b
    else { b with txns := b.txns ++ [txn], totalReceived := b.totalReceived + 1 }

def insertFront (b : Backend α) : Option α → Backend α
  | none => b
  | some txn => { b with txns := txn :: b.txns }

def front (b : Backend α) : Option α × Backend α :=
  match b.txns with
  | [] => (none, b)
  | txn :: rest => (some txn, { b with txns := rest })

/-- The loop of `some`. -/
def batch : ℕ → Backend α → List (Option α) × Backend α
  | 0, b => ([], b)
  | n + 1, b =>
    let (tx, b) := b.front
    let (rest, b) := batch n b
    (tx :: rest, b)

/-- A slice of negative capacity cannot be made. -/
def some (b : Backend α) (n : ℤ) : Except Fault (List (Option α) × Backend α) :=
  let batchSize : ℤ := if n ≤ b.size then n else b.size
  if batchSize < 0 then .error .index else .ok (batch batchSize.toNat b)

/-- The same pool with other entries. -/
def map (f : α → β) (b : Backend α) : Backend β := ⟨b.txns.map f, b.limit, b.totalReceived⟩

/-! ## What the loops do -/

theorem insertBack_of_lt {b : Backend α} (h : b.limit < b.size) (txn : α) :
    b.insertBack (.some txn) = b :=
  if_pos h

theorem insertBack_of_le {b : Backend α} (h : b.size ≤ b.limit) (txn : α) :
    b.insertBack (.some txn) =
      { b with txns := b.txns ++ [txn], totalReceived := b.totalReceived + 1 } :=
  if_neg (Int.not_lt.mpr h)

/-- As long as the pool lasts, the loop takes what is in front. -/
theorem batch_eq {n : ℕ} {b : Backend α} (h : n ≤ b.size) :
    batch n b = ((b.txns.take n).map .some, { b with txns := b.txns.drop n }) := by
  induction n generalizing b with
  | zero => rfl
  | succ n ih =>
    obtain ⟨txns, limit, total⟩ := b
    cases txns with
    | nil => simp [size] at h
    | cons txn rest =>
      have hrest : n ≤ (⟨rest, limit, total⟩ : Backend α).size := by simpa [size] using h
      simp [batch, front, ih hrest]

theorem some_eq (b : Backend α) {n : ℤ} (h : 0 ≤ n) :
    b.some n = .ok ((b.txns.take n.toNat).map .some, { b with txns := b.txns.drop n.toNat }) := by
  unfold some
  by_cases hle : n ≤ b.size
  · have hsize : n.toNat ≤ b.size := by omega
    simp [hle, Int.not_lt.mpr h, batch_eq hsize]
  · have hlen : b.txns.length ≤ n.toNat := by simp only [size] at hle; omega
    have hall : batch b.size b = (b.txns.map .some, { b with txns := [] }) := by
      simpa [size] using batch_eq (le_refl b.size)
    simp [hle, hall, List.take_of_length_le hlen, List.drop_of_length_le hlen]

end Backend

/-! ## Producers -/

abbrev Producer (α : Type) := Backend α

namespace Producer

variable {α : Type}

def new (memSize : ℤ) : Producer α := Backend.new memSize

def generatePayload (bSize : ℤ) (pd : Producer α) :
    Except Fault (List (Option α) × Producer α) :=
  pd.some bSize

/-- `addNew` sets the time stamp first, which a nil transaction does not survive. -/
def addTxn (pd : Producer α) : Option α → Except Fault (Producer α)
  | none => .error .nilPointer
  | some txn => .ok (pd.insertBack (some txn))

def collectTxn (pd : Producer α) (txn : Option α) : Producer α := pd.insertFront txn

def totalReceivedTxNo (pd : Producer α) : ℕ := pd.totalReceived

end Producer

/-- `processForkedBlock`: only the proposer takes the transactions back. -/
def processForkedBlock (me : NodeID) (pd : Producer Transaction) (block : Block) :
    Producer Transaction :=
  if block.proposer = me then
    block.payload.foldl (fun pd txn => Producer.collectTxn pd (some txn)) pd
  else pd

end Bamboo
