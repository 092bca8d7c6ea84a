import Bamboo.Types

/-!
# Configuration, identities and signatures

Elliptic curves, SHA-3 and the leader schedule's SHA-1 enter as parameters of
the model. What is modelled of the signature code is everything around them:
the key tables indexed by the number a node id parses to, the two parts read
from a signature without a length test, and the loop over a certificate.
-/
namespace Bamboo

/-! ## Node ids -/

/-- `strconv.ParseUint(s, 10, 64)`: decimal digits only, leading zeros allowed. -/
def parseUint (s : String) : Option ℕ :=
  if s.toList ≠ [] ∧ s.toList.all Char.isDigit = true ∧ Nat.ofDigitChars 10 s.toList 0 < 2 ^ 64 then
    some (Nat.ofDigitChars 10 s.toList 0)
  else none

/-- `NodeID.Node`: zero on a parse error, and the unsigned value read as an `int`. -/
def NodeID.node (id : NodeID) : ℤ :=
  match parseUint id with
  | none => 0
  | some v => (v : ℤ).bmod (2 ^ 64)

/-- `NewNodeID` on a non-negative number. -/
def newNodeID (i : ℕ) : NodeID := Nat.repr i

theorem newNodeID_injective : Function.Injective newNodeID := by
  intro i j h
  have hd := congrArg (fun s : String => Nat.ofDigitChars 10 s.toList 0) h
  simpa only [newNodeID, Nat.toList_repr, Nat.ofDigitChars_ten_toDigits] using hd

theorem parseUint_newNodeID (i : ℕ) (hi : i < 2 ^ 64) : parseUint (newNodeID i) = some i := by
  have hdigits : (Nat.toDigits 10 i).all Char.isDigit = true := by
    rw [List.all_eq_true]
    intro c hc
    exact Nat.isDigit_of_mem_toDigits (by norm_num) (by norm_num) hc
  simp only [parseUint, newNodeID, Nat.toList_repr, Nat.ofDigitChars_ten_toDigits]
  rw [if_pos ⟨Nat.toDigits_ne_nil, hdigits, hi⟩]

theorem node_newNodeID (i : ℕ) (hi : i < 2 ^ 63) : NodeID.node (newNodeID i) = i := by
  simp only [NodeID.node, parseUint_newNodeID i (by omega)]
  rw [Int.bmod_eq_of_le] <;> omega

/-! ## The environment of a replica -/

structure Election where
  isLeader : NodeID → View → Bool
  findLeaderFor : View → NodeID

/-- The hash and the signature scheme. Key `i` is the key of node `i`. -/
structure Crypto where
  makeID : RawBlock → Identifier
  sign : ℕ → Identifier → List UInt8 × List UInt8
  verify : ℕ → Identifier → List UInt8 → List UInt8 → Bool
  verify_sign : ∀ i id, verify i id (sign i id).1 (sign i id).2 = true

/-- Everything a replica reads but does not own. `order` is the order in which
Go happens to iterate over the votes of a block. -/
structure Env where
  n : ℕ
  byzNo : ℕ
  forkATK : Bool
  election : Election
  crypto : Crypto
  order : List Vote → List Vote
  order_perm : ∀ votes, (order votes).Perm votes

/-! ## Signing and verifying -/

/-- The slot of a node in the key tables: out of range unless `1 ≤ Node() ≤ N`. -/
def keyIndex (env : Env) (id : NodeID) : Except Fault ℕ :=
  if 1 ≤ id.node ∧ id.node ≤ env.n then .ok id.node.toNat else .error .index

def privSign (env : Env) (data : Identifier) (id : NodeID) : Except Fault Signature := do
  let key ← keyIndex env id
  return [(env.crypto.sign key data).1, (env.crypto.sign key data).2]

/-- `PubVerify` with `ToECDSA`, which reads parts 0 and 1 of the signature. -/
def pubVerify (env : Env) (sig : Signature) (data : Identifier) (id : NodeID) :
    Except Fault Bool := do
  let key ← keyIndex env id
  match sig with
  | r :: s :: _ => return env.crypto.verify key data r s
  | _ => throw .index

/-- `VerifyQuorumSignature`: the signers in order, each against the signature
at its own position; no signature is required of an empty list. -/
def verifyQuorumSignature (env : Env) (blockID : Identifier) :
    List Signature → List NodeID → Except Fault Bool
  | _, [] => .ok true
  | [], _ :: _ => .error .index
  | sig :: sigs, signer :: signers => do
    if ← pubVerify env sig blockID signer then
      verifyQuorumSignature env blockID sigs signers
    else
      return false

/-- A signature that `PubVerify` accepts. -/
def Verifies (env : Env) (sig : Signature) (data : Identifier) (id : NodeID) : Prop :=
  pubVerify env sig data id = .ok true

instance (env : Env) (sig : Signature) (data : Identifier) (id : NodeID) :
    Decidable (Verifies env sig data id) :=
  match h : pubVerify env sig data id with
  | .ok true => isTrue h
  | .ok false => isFalse (by simp [Verifies, h])
  | .error _ => isFalse (by simp [Verifies, h])

theorem keyIndex_ok {env : Env} {id : NodeID} {key : ℕ} (h : keyIndex env id = .ok key) :
    1 ≤ id.node ∧ id.node ≤ env.n ∧ key = id.node.toNat := by
  unfold keyIndex at h
  split_ifs at h with hr
  cases h
  exact ⟨hr.1, hr.2, rfl⟩

/-- Only a node of the key table has verifying signatures. -/
theorem Verifies.range {env : Env} {sig : Signature} {data : Identifier} {id : NodeID}
    (h : Verifies env sig data id) : 1 ≤ id.node ∧ id.node ≤ env.n := by
  unfold Verifies pubVerify at h
  cases hk : keyIndex env id with
  | error f => rw [hk] at h; cases h
  | ok key => exact ⟨(keyIndex_ok hk).1, (keyIndex_ok hk).2.1⟩

/-- What a node signs, its own key verifies. -/
theorem verifies_privSign {env : Env} {sig : Signature} {data : Identifier} {id : NodeID}
    (h : privSign env data id = .ok sig) : Verifies env sig data id := by
  unfold privSign at h
  unfold Verifies pubVerify
  cases hk : keyIndex env id with
  | error f => rw [hk] at h; cases h
  | ok key =>
    rw [hk] at h
    cases h
    simpa using env.crypto.verify_sign key data

/-- The loop accepts exactly the lists whose every signer has a signature at
its position, each of them verifying. -/
theorem verifyQuorumSignature_iff (env : Env) (blockID : Identifier)
    (sigs : List Signature) (signers : List NodeID) :
    verifyQuorumSignature env blockID sigs signers = .ok true ↔
      signers.length ≤ sigs.length ∧
        ∀ p ∈ signers.zip sigs, Verifies env p.2 blockID p.1 := by
  induction sigs generalizing signers with
  | nil => cases signers <;> simp [verifyQuorumSignature]
  | cons sig sigs ih =>
    cases signers with
    | nil => simp [verifyQuorumSignature]
    | cons signer signers =>
      simp only [verifyQuorumSignature, List.length_cons, List.zip_cons_cons,
        List.forall_mem_cons, Nat.add_le_add_iff_right]
      cases hv : pubVerify env sig blockID signer with
      | error f => simp [Verifies, hv, bind, Except.bind]
      | ok ok =>
        cases ok with
        | false => simp [Verifies, hv, bind, Except.bind, pure, Except.pure]
        | true => simpa [Verifies, hv, bind, Except.bind] using ih signers

end Bamboo
