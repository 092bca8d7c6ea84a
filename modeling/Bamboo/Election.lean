import Bamboo.Crypto

/-!
# Leader election

The two schedules a replica can be configured with. `Rotation` gives the first
three views to the last node and draws the others with SHA-1, which is a
parameter here.
-/
namespace Bamboo

/-- `binary.BigEndian.Uint64` on the first eight bytes. -/
def bigEndianUint64 (bytes : List UInt8) : ℕ :=
  (bytes.take 8).foldl (fun acc b => acc * 256 + b.toNat) 0

/-- The digest drawn for a view: SHA-1 of the decimal text of the next view. -/
def viewDigest (sha1 : String → List UInt8) (view : View) : ℕ :=
  bigEndianUint64 (sha1 (Int.repr (view + 1).toInt))

def rotation (sha1 : String → List UInt8) (peerNo : ℕ) : Election where
  isLeader id view :=
    if view ≤ 3 then decide (¬ id.node < peerNo)
    else decide (((viewDigest sha1 view % peerNo : ℕ) : ℤ) = (id.node - 1) % 2 ^ 64)
  findLeaderFor view :=
    if view ≤ 3 then newNodeID peerNo
    else newNodeID (viewDigest sha1 view % peerNo + 1)

def static (master : NodeID) : Election where
  isLeader id _ := decide (id = master)
  findLeaderFor _ := master

/-! ## One leader for each view -/

/-- The number of the node whose turn a view is. -/
def rotationTurn (sha1 : String → List UInt8) (peerNo : ℕ) (view : View) : ℕ :=
  if view ≤ 3 then peerNo else viewDigest sha1 view % peerNo + 1

section Rotation

variable {sha1 : String → List UInt8} {peerNo : ℕ}

theorem findLeaderFor_rotation (view : View) :
    (rotation sha1 peerNo).findLeaderFor view = newNodeID (rotationTurn sha1 peerNo view) := by
  simp only [rotation, rotationTurn]
  split_ifs <;> rfl

theorem rotationTurn_range (hpos : 1 ≤ peerNo) (view : View) :
    1 ≤ rotationTurn sha1 peerNo view ∧ rotationTurn sha1 peerNo view ≤ peerNo := by
  have hmod := Nat.mod_lt (viewDigest sha1 view) hpos
  simp only [rotationTurn]
  split_ifs <;> omega

/-- `id - 1` compared with the residue, and `id` with `peerNo` in the first views. -/
theorem isLeader_rotation_iff (hmax : peerNo < 2 ^ 63) {i : ℕ} (hi : 1 ≤ i ∧ i ≤ peerNo)
    (view : View) :
    (rotation sha1 peerNo).isLeader (newNodeID i) view = true ↔
      i = rotationTurn sha1 peerNo view := by
  have hnode : NodeID.node (newNodeID i) = i := node_newNodeID i (by omega)
  simp only [rotation, rotationTurn, hnode]
  by_cases hview : view ≤ 3
  · simp only [hview, if_true, decide_eq_true_eq]
    omega
  · -- `uint64(id.Node()-1)` does not wrap for a peer
    have hkey : ((i : ℤ) - 1) % 2 ^ 64 = i - 1 := by omega
    simp only [hview, if_false, decide_eq_true_eq, hkey]
    omega

end Rotation

/-- For the peers the test on a proposal and the address of a vote agree in every view,
and each view has exactly one leader among them. The bound is the range of `int`. -/
theorem rotation_tests_agree (sha1 : String → List UInt8) (peerNo : ℕ) (hpos : 1 ≤ peerNo)
    (hmax : peerNo < 2 ^ 63) (view : View) :
    (∀ i, 1 ≤ i ∧ i ≤ peerNo →
      ((rotation sha1 peerNo).isLeader (newNodeID i) view = true ↔
        (rotation sha1 peerNo).findLeaderFor view = newNodeID i)) ∧
    ∃! i, (1 ≤ i ∧ i ≤ peerNo) ∧ (rotation sha1 peerNo).isLeader (newNodeID i) view = true := by
  constructor
  · intro i hi
    rw [isLeader_rotation_iff hmax hi, findLeaderFor_rotation, newNodeID_injective.eq_iff, eq_comm]
  · have hturn := @rotationTurn_range sha1 _ hpos view
    refine ⟨rotationTurn sha1 peerNo view, ⟨hturn, ?_⟩, ?_⟩
    · rw [isLeader_rotation_iff hmax hturn]
    · rintro i ⟨hi, hleader⟩
      exact (isLeader_rotation_iff hmax hi view).mp hleader

/-- Four peers in a view behind the first three: the digest decides. -/
theorem rotation_tests_agree_four :
    (rotation (fun _ => [0, 0, 0, 0, 0, 0, 0, 6]) 4).isLeader (newNodeID 3) 5 = true ∧
      ∃! i, (1 ≤ i ∧ i ≤ 4) ∧
        (rotation (fun _ => [0, 0, 0, 0, 0, 0, 0, 6]) 4).isLeader (newNodeID i) 5 = true :=
  have h := rotation_tests_agree (fun _ => [0, 0, 0, 0, 0, 0, 0, 6]) 4 (by decide) (by decide) 5
  ⟨(h.1 3 (by decide)).mpr (by decide), h.2⟩

end Bamboo
