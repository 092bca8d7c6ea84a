import Bamboo.ForestRuns
import Bamboo.Network

/-!
# The counts of the committed blocks

A replica keeps counts of the blocks that it commits. It reads the fork number of
a malicious block, which is not among the fields that the transport carries, so
the count of forked blocks depends on the way the blocks have come.
-/
namespace Bamboo

/-- A block as it leaves the chain, with the mark of the block that was asked for. -/
structure Committed where
  block : Block
  commitFromThis : Bool
  deriving DecidableEq, Repr

/-- The counters of a replica; those of times are left out. -/
structure Statistics where
  totolCommitTimes : ℕ
  latencyNo : ℕ
  committedNo : ℕ
  totalCommittedTx : ℕ
  maliNo : ℕ
  kindNo : ℕ
  forkedNo : ℤ
  deriving DecidableEq, Repr

namespace Statistics

def new : Statistics := ⟨0, 0, 0, 0, 0, 0, 0⟩

def processCommittedBlock (me : NodeID) (s : Statistics) (c : Committed) : Statistics :=
  let s := if c.commitFromThis then { s with totolCommitTimes := s.totolCommitTimes + 1 } else s
  let s :=
    if c.block.proposer = me then { s with latencyNo := s.latencyNo + c.block.payload.length }
    else s
  let s :=
    { s with
      committedNo := s.committedNo + 1
      totalCommittedTx := s.totalCommittedTx + c.block.payload.length }
  if c.block.mali then
    { s with maliNo := s.maliNo + 1, forkedNo := s.forkedNo + c.block.forkNum }
  else { s with kindNo := s.kindNo + 1 }

/-- A query starts the count of transactions anew. -/
def handleQuery (s : Statistics) : Statistics := { s with totalCommittedTx := 0 }

/-- The counts after the committed blocks in their order. -/
def after (me : NodeID) (cs : List Committed) : Statistics :=
  cs.foldl (processCommittedBlock me) new

/-- The fork number that a block adds to the count of forked blocks. -/
def forks (b : Block) : ℤ := if b.mali then b.forkNum else 0

/-- The other counts do not depend on that of the transactions. -/
theorem processCommittedBlock_recount (me : NodeID) (s : Statistics) (c : Committed) (count : ℕ) :
    processCommittedBlock me { s with totalCommittedTx := count } c =
      { processCommittedBlock me s c with
        totalCommittedTx := count + c.block.payload.length } := by
  simp only [processCommittedBlock]
  split_ifs <;> rfl

theorem processCommittedBlock_counts (me : NodeID) (s : Statistics) (c : Committed) :
    (processCommittedBlock me s c).committedNo = s.committedNo + 1 ∧
      (processCommittedBlock me s c).maliNo = s.maliNo + (if c.block.mali then 1 else 0) ∧
      (processCommittedBlock me s c).kindNo = s.kindNo + (if c.block.mali then 0 else 1) ∧
      (processCommittedBlock me s c).forkedNo = s.forkedNo + forks c.block := by
  simp only [processCommittedBlock, forks]
  split_ifs <;> simp

theorem foldl_counts (me : NodeID) (s : Statistics) (cs : List Committed) :
    (cs.foldl (processCommittedBlock me) s).committedNo = s.committedNo + cs.length ∧
      (cs.foldl (processCommittedBlock me) s).maliNo = s.maliNo + cs.countP (·.block.mali) ∧
      (cs.foldl (processCommittedBlock me) s).kindNo = s.kindNo + cs.countP (!·.block.mali) ∧
      (cs.foldl (processCommittedBlock me) s).forkedNo =
        s.forkedNo + (cs.map fun c => forks c.block).sum := by
  induction cs generalizing s with
  | nil => simp
  | cons c cs ih =>
    obtain ⟨hcommitted, hmali, hkind, hforked⟩ := processCommittedBlock_counts me s c
    obtain ⟨ihcommitted, ihmali, ihkind, ihforked⟩ := ih (processCommittedBlock me s c)
    rw [List.foldl_cons, ihcommitted, ihmali, ihkind, ihforked, hcommitted, hmali, hkind, hforked]
    cases hb : c.block.mali <;> simp [hb] <;> omega

end Statistics

/-! ## Two replicas -/

/-- The copy of a block at a replica, which may have come over the transport. -/
def Block.received (gob : Bool) (b : Block) : Block :=
  if gob then { b with forkNum := 0, height := 0 } else b

theorem wire_block (b : Block) : (Msg.block b).wire = .block (b.received true) := rfl

@[simp] theorem mali_received (gob : Bool) (b : Block) : (b.received gob).mali = b.mali := by
  unfold Block.received
  split_ifs <;> rfl

@[simp] theorem forks_received (gob : Bool) (b : Block) :
    Statistics.forks (b.received gob) =
      Statistics.forks b - (if gob then Statistics.forks b else 0) := by
  cases gob <;> simp [Statistics.forks, Block.received]

/-- A committed block, the way it came to each of two replicas and their marks on it. -/
structure Delivery where
  block : Block
  gob₁ : Bool
  gob₂ : Bool
  mark₁ : Bool
  mark₂ : Bool
  deriving DecidableEq, Repr

namespace Delivery

def first (d : Delivery) : Committed := ⟨d.block.received d.gob₁, d.mark₁⟩

def second (d : Delivery) : Committed := ⟨d.block.received d.gob₂, d.mark₂⟩

/-- The fork numbers of the malicious blocks that came over the transport. -/
def lost (gob : Delivery → Bool) (ds : List Delivery) : ℤ :=
  (ds.map fun d => if gob d then Statistics.forks d.block else 0).sum

theorem sum_forks_received (gob : Delivery → Bool) (ds : List Delivery) :
    (ds.map fun d => Statistics.forks (d.block.received (gob d))).sum =
      (ds.map fun d => Statistics.forks d.block).sum - lost gob ds := by
  induction ds with
  | nil => simp [lost]
  | cons d ds ih =>
    simp only [lost, List.map_cons, List.sum_cons, forks_received] at ih ⊢
    omega

end Delivery

/-- Replicas that commit the same blocks agree on how many there are, how many of them
are malicious and how many are not. They agree on the forked ones exactly if the fork
numbers that the transport has dropped add up to the same. -/
theorem committed_counts_agree (me₁ me₂ : NodeID) (ds : List Delivery) :
    (Statistics.after me₁ (ds.map Delivery.first)).committedNo =
        (Statistics.after me₂ (ds.map Delivery.second)).committedNo ∧
      (Statistics.after me₁ (ds.map Delivery.first)).maliNo =
        (Statistics.after me₂ (ds.map Delivery.second)).maliNo ∧
      (Statistics.after me₁ (ds.map Delivery.first)).kindNo =
        (Statistics.after me₂ (ds.map Delivery.second)).kindNo ∧
      ((Statistics.after me₁ (ds.map Delivery.first)).forkedNo =
          (Statistics.after me₂ (ds.map Delivery.second)).forkedNo ↔
        Delivery.lost Delivery.gob₁ ds = Delivery.lost Delivery.gob₂ ds) := by
  obtain ⟨hcommitted₁, hmali₁, hkind₁, hforked₁⟩ :=
    Statistics.foldl_counts me₁ .new (ds.map Delivery.first)
  obtain ⟨hcommitted₂, hmali₂, hkind₂, hforked₂⟩ :=
    Statistics.foldl_counts me₂ .new (ds.map Delivery.second)
  simp only [Statistics.after, hcommitted₁, hcommitted₂, hmali₁, hmali₂, hkind₁, hkind₂, hforked₁,
    hforked₂]
  refine ⟨by simp, ?_, ?_, ?_⟩
  · simp [List.countP_map, Function.comp_def, Delivery.first, Delivery.second]
  · simp [List.countP_map, Function.comp_def, Delivery.first, Delivery.second]
  · have hsum₁ := Delivery.sum_forks_received Delivery.gob₁ ds
    have hsum₂ := Delivery.sum_forks_received Delivery.gob₂ ds
    simp only [List.map_map, Function.comp_def, Delivery.first, Delivery.second, hsum₁, hsum₂]
    omega

/-- The proposer of a malicious block with one fork, and a replica that received it. -/
theorem committed_counts_differ : ∃ b,
    makeBlock fourNodes 1 QC.initial genesisID [] "1" true 1 0 = .ok b ∧
      (Statistics.after "1" [⟨b, false⟩]).forkedNo = 1 ∧
      (Statistics.after "2" [⟨b.received true, false⟩]).forkedNo = 0 := by
  have hmake : ((makeBlock fourNodes 1 QC.initial genesisID [] "1" true 1 0).map fun b =>
      ((Statistics.after "1" [⟨b, false⟩]).forkedNo,
        (Statistics.after "2" [⟨b.received true, false⟩]).forkedNo)) = .ok (1, 0) := by
    decide +kernel
  obtain ⟨b, hb, hcounts⟩ := exists_of_map_eq_ok hmake
  rw [Prod.mk.injEq] at hcounts
  exact ⟨b, hb, hcounts⟩

end Bamboo
