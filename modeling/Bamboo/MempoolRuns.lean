import Bamboo.Mempool

/-!
# Runs of a producer

A run is any sequence of `AddTxn`, `CollectTxn` and `GeneratePayload`. The session
keeps what the pool took in and what it gave out beside the pool.
-/
namespace Bamboo

inductive PoolCall (α : Type)
  | addTxn (txn : α)
  | collectTxn (txn : α)
  | generatePayload
  deriving DecidableEq, Repr

namespace PoolCall

variable {α β : Type}

def map (f : α → β) : PoolCall α → PoolCall β
  | addTxn txn => addTxn (f txn)
  | collectTxn txn => collectTxn (f txn)
  | generatePayload => generatePayload

/-- The same call with a note on the transaction how it comes into the pool: `inl` by
`AddTxn` and `inr` by `CollectTxn`. -/
def mark : PoolCall α → PoolCall (α ⊕ α)
  | addTxn txn => addTxn (.inl txn)
  | collectTxn txn => collectTxn (.inr txn)
  | generatePayload => generatePayload

def unmark : α ⊕ α → α := Sum.elim id id

theorem map_unmark_mark (call : PoolCall α) : call.mark.map unmark = call := by
  cases call <;> rfl

end PoolCall

structure PoolSession (α : Type) where
  pool : Producer α
  accepted : List α
  collected : List α
  payloads : List (List (Option α))
  deriving DecidableEq, Repr

namespace PoolSession

variable {α β : Type} {bSize : ℤ} {s t : PoolSession α}

def start (memSize : ℤ) : PoolSession α := ⟨Producer.new memSize, [], [], []⟩

/-- A transaction counts as accepted when the pool has grown by it. -/
def step (bSize : ℤ) (s : PoolSession α) : PoolCall α → Except Fault (PoolSession α)
  | .addTxn txn => do
    let pool ← s.pool.addTxn (some txn)
    let accepted := if pool.size = s.pool.size then s.accepted else s.accepted ++ [txn]
    return { s with pool, accepted }
  | .collectTxn txn =>
    return { s with pool := s.pool.collectTxn (some txn), collected := s.collected ++ [txn] }
  | .generatePayload => do
    let (payload, pool) ← s.pool.generatePayload bSize
    return { s with pool, payloads := s.payloads ++ [payload] }

def run (bSize : ℤ) (s : PoolSession α) (calls : List (PoolCall α)) :
    Except Fault (PoolSession α) :=
  calls.foldlM (step bSize) s

def map (f : α → β) (s : PoolSession α) : PoolSession β :=
  ⟨s.pool.map f, s.accepted.map f, s.collected.map f, s.payloads.map (List.map (Option.map f))⟩

/-! ## What a call can do -/

/-- The moves of a session. -/
inductive Moves (bSize : ℤ) (s : PoolSession α) : PoolCall α → PoolSession α → Prop
  | dropped (txn : α) (full : s.pool.limit < s.pool.size) : Moves bSize s (.addTxn txn) s
  | accepted (txn : α) (room : (s.pool.size : ℤ) ≤ s.pool.limit) :
    Moves bSize s (.addTxn txn)
      { s with
        pool.txns := s.pool.txns ++ [txn]
        pool.totalReceived := s.pool.totalReceived + 1
        accepted := s.accepted ++ [txn] }
  | collected (txn : α) :
    Moves bSize s (.collectTxn txn)
      { s with pool.txns := txn :: s.pool.txns, collected := s.collected ++ [txn] }
  | emitted (nonneg : 0 ≤ bSize) :
    Moves bSize s .generatePayload
      { s with
        pool.txns := s.pool.txns.drop bSize.toNat
        payloads := s.payloads ++ [(s.pool.txns.take bSize.toNat).map some] }

theorem step_addTxn_of_lt (h : s.pool.limit < s.pool.size) (txn : α) :
    step bSize s (.addTxn txn) = .ok s := by
  simp [step, Producer.addTxn, Backend.insertBack_of_lt h, pure, Except.pure, bind, Except.bind]

theorem step_addTxn_of_le (h : (s.pool.size : ℤ) ≤ s.pool.limit) (txn : α) :
    step bSize s (.addTxn txn) = .ok
      { s with
        pool.txns := s.pool.txns ++ [txn]
        pool.totalReceived := s.pool.totalReceived + 1
        accepted := s.accepted ++ [txn] } := by
  simp [step, Producer.addTxn, Backend.insertBack_of_le h, Backend.size, pure, Except.pure, bind,
    Except.bind]

theorem step_generatePayload (h : 0 ≤ bSize) :
    step bSize s .generatePayload = .ok
      { s with
        pool.txns := s.pool.txns.drop bSize.toNat
        payloads := s.payloads ++ [(s.pool.txns.take bSize.toNat).map some] } := by
  simp [step, Producer.generatePayload, Backend.some_eq s.pool h, pure, Except.pure, bind,
    Except.bind]

theorem step_generatePayload_of_neg (h : bSize < 0) :
    step bSize s .generatePayload = .error .index := by
  have hle : bSize ≤ s.pool.size := by omega
  simp [step, Producer.generatePayload, Backend.some, hle, h, bind, Except.bind]

/-- Every call that returns is one of the moves; `GeneratePayload` does not return
for a negative batch size. -/
theorem moves_of_step {call : PoolCall α} (h : step bSize s call = .ok t) :
    Moves bSize s call t := by
  cases call with
  | addTxn txn =>
    rcases Int.lt_or_le s.pool.limit s.pool.size with hfull | hroom
    · cases (step_addTxn_of_lt hfull txn).symm.trans h
      exact .dropped txn hfull
    · cases (step_addTxn_of_le hroom txn).symm.trans h
      exact .accepted txn hroom
  | collectTxn txn =>
    cases h
    exact .collected txn
  | generatePayload =>
    by_cases hsize : 0 ≤ bSize
    · cases (step_generatePayload hsize).symm.trans h
      exact .emitted hsize
    · rw [step_generatePayload_of_neg (Int.not_le.mp hsize)] at h
      cases h

theorem step_ok (h : 0 ≤ bSize) (s : PoolSession α) (call : PoolCall α) :
    ∃ t, step bSize s call = .ok t := by
  cases call with
  | addTxn txn => exact ⟨_, rfl⟩
  | collectTxn txn => exact ⟨_, rfl⟩
  | generatePayload => exact ⟨_, step_generatePayload h⟩

/-! ## Runs -/

theorem run_ok (h : 0 ≤ bSize) (s : PoolSession α) (calls : List (PoolCall α)) :
    ∃ t, run bSize s calls = .ok t := by
  induction calls generalizing s with
  | nil => exact ⟨s, rfl⟩
  | cons call calls ih =>
    obtain ⟨s', hs'⟩ := step_ok h s call
    obtain ⟨t, ht⟩ := ih s'
    refine ⟨t, ?_⟩
    rw [run, List.foldlM_cons, hs']
    exact ht

/-- What the moves of the calls preserve, the run preserves. -/
theorem run_invariant {J : PoolSession α → Prop} {calls : List (PoolCall α)}
    (hJ : ∀ call ∈ calls, ∀ s t, J s → Moves bSize s call t → J t) (hs : J s)
    (h : run bSize s calls = .ok t) : J t := by
  induction calls generalizing s with
  | nil =>
    cases h
    exact hs
  | cons call calls ih =>
    rw [run, List.foldlM_cons] at h
    cases hstep : step bSize s call with
    | error e =>
      rw [hstep] at h
      cases h
    | ok s' =>
      rw [hstep] at h
      apply ih (fun c hc => hJ c (by simp [hc])) _ h
      exact hJ call (by simp) s s' hs (moves_of_step hstep)

/-- Nothing is lost, and nothing comes from nowhere. -/
structure Accounted (s : PoolSession α) : Prop where
  conserved : ((s.accepted ++ s.collected).map some).Perm
    (s.payloads.flatten ++ s.pool.txns.map some)
  counted : s.pool.totalReceived = s.accepted.length

theorem accounted_start (memSize : ℤ) : (start memSize : PoolSession α).Accounted :=
  ⟨List.Perm.refl _, rfl⟩

theorem Accounted.moves {call : PoolCall α} (hs : s.Accounted) (h : Moves bSize s call t) :
    t.Accounted := by
  cases h with
  | dropped txn full => exact hs
  | accepted txn room =>
    constructor
    · have hswap : (s.accepted.map some ++ ([some txn] ++ s.collected.map some)).Perm
          (s.accepted.map some ++ (s.collected.map some ++ [some txn])) :=
        List.perm_append_comm.append_left _
      apply List.Perm.trans (by simpa using hswap)
      simpa using hs.conserved.append_right [some txn]
    · simp [hs.counted]
  | collected txn =>
    constructor
    · have hlast := List.perm_append_singleton (some txn) ((s.accepted ++ s.collected).map some)
      have hfront : (some txn :: (s.payloads.flatten ++ s.pool.txns.map some)).Perm
          (s.payloads.flatten ++ some txn :: s.pool.txns.map some) :=
        List.perm_middle.symm
      simpa using (hlast.trans (hs.conserved.cons _)).trans hfront
    · exact hs.counted
  | emitted nonneg =>
    constructor
    · simpa [← List.map_append] using hs.conserved
    · exact hs.counted

/-! ## Entries with their origin -/

/-- Nothing depends on what the entries are. -/
theorem step_map (f : α → β) (s : PoolSession α) (call : PoolCall α) :
    step bSize (s.map f) (call.map f) = (step bSize s call).map (map f) := by
  cases call with
  | addTxn txn =>
    rcases Int.lt_or_le s.pool.limit s.pool.size with hfull | hroom
    · have hfull' : (s.map f).pool.limit < (s.map f).pool.size := by
        simpa [map, Backend.map, Backend.size] using hfull
      rw [PoolCall.map, step_addTxn_of_lt hfull, step_addTxn_of_lt hfull', Except.map]
    · have hroom' : ((s.map f).pool.size : ℤ) ≤ (s.map f).pool.limit := by
        simpa [map, Backend.map, Backend.size] using hroom
      rw [PoolCall.map, step_addTxn_of_le hroom, step_addTxn_of_le hroom', Except.map]
      simp [map, Backend.map]
  | collectTxn txn =>
    simp [PoolCall.map, step, map, Backend.map, Producer.collectTxn, Backend.insertFront, pure,
      Except.pure, Except.map]
  | generatePayload =>
    rcases Int.lt_or_le bSize 0 with hneg | hsize
    · rw [PoolCall.map, step_generatePayload_of_neg hneg, step_generatePayload_of_neg hneg,
        Except.map]
    · rw [PoolCall.map, step_generatePayload hsize, step_generatePayload hsize, Except.map]
      simp [map, Backend.map]

theorem run_map (f : α → β) (s : PoolSession α) (calls : List (PoolCall α)) :
    run bSize (s.map f) (calls.map (PoolCall.map f)) = (run bSize s calls).map (map f) := by
  induction calls generalizing s with
  | nil => rfl
  | cons call calls ih =>
    rw [run, run, List.map_cons, List.foldlM_cons, List.foldlM_cons, step_map]
    cases step bSize s call with
    | error e => rfl
    | ok t => exact ih t

/-- The entries that `AddTxn` has put in. -/
def added (entries : List (Option (α ⊕ α))) : List α :=
  entries.filterMap (Option.bind · Sum.getLeft?)

@[simp] theorem added_append (l l' : List (Option (α ⊕ α))) :
    added (l ++ l') = added l ++ added l' :=
  List.filterMap_append

@[simp] theorem added_inl (txn : α) (l : List (Option (α ⊕ α))) :
    added (some (.inl txn) :: l) = txn :: added l := by
  simp [added]

@[simp] theorem added_inr (txn : α) (l : List (Option (α ⊕ α))) :
    added (some (.inr txn) :: l) = added l :=
  List.filterMap_cons_none rfl

/-- What has left the pool and what is still in it, in this order, are the accepted
transactions in the order in which they came. -/
def InOrder (m : PoolSession (α ⊕ α)) : Prop :=
  added (m.payloads.flatten ++ m.pool.txns.map some) = m.accepted.map PoolCall.unmark

theorem InOrder.moves {m m' : PoolSession (α ⊕ α)} (hm : m.InOrder) {call : PoolCall α}
    (h : Moves bSize m call.mark m') : m'.InOrder := by
  unfold InOrder at hm ⊢
  cases call with
  | addTxn txn =>
    cases h with
    | dropped _ full => exact hm
    | accepted _ room =>
      show added (m.payloads.flatten ++ (m.pool.txns ++ [Sum.inl txn]).map some) =
        (m.accepted ++ [Sum.inl txn]).map PoolCall.unmark
      rw [List.map_append, List.map_append, ← List.append_assoc, added_append, hm]
      rfl
  | collectTxn txn =>
    cases h
    rw [added_append] at hm ⊢
    rw [← hm, List.map_cons, added_inr]
  | generatePayload =>
    cases h
    rw [← hm]
    congr 1
    simp

end PoolSession

section Conservation

variable {α : Type} {bSize : ℤ} (hsize : 0 ≤ bSize) (memSize : ℤ) (calls : List (PoolCall α))
include hsize

/-- The run of the marked calls is the run of the calls, and it shows the order. -/
theorem marked_run :
    ∃ m : PoolSession (α ⊕ α),
      PoolSession.run bSize (.start memSize) (calls.map PoolCall.mark) = .ok m ∧
      PoolSession.run bSize (.start memSize) calls = .ok (m.map PoolCall.unmark) ∧ m.InOrder := by
  obtain ⟨m, hm⟩ := PoolSession.run_ok hsize (.start memSize) (calls.map PoolCall.mark)
  refine ⟨m, hm, ?_, ?_⟩
  · have hcalls : (calls.map PoolCall.mark).map (PoolCall.map PoolCall.unmark) = calls := by
      simp [Function.comp_def, PoolCall.map_unmark_mark]
    have hmap := @PoolSession.run_map _ _ bSize PoolCall.unmark (.start memSize)
      (calls.map PoolCall.mark)
    rwa [hcalls, hm] at hmap
  · have hstart : PoolSession.InOrder (.start memSize : PoolSession (α ⊕ α)) := rfl
    refine PoolSession.run_invariant (fun call hcall s t hs hmoves => ?_) hstart hm
    obtain ⟨call', -, rfl⟩ := List.mem_map.mp hcall
    exact hs.moves hmoves

end Conservation

/-- A producer keeps every transaction until it emits it. -/
theorem producer_conserves {α : Type} {bSize : ℤ} (hsize : 0 ≤ bSize) (memSize : ℤ)
    (calls : List (PoolCall α)) :
    (∃ s : PoolSession α, PoolSession.run bSize (.start memSize) calls = .ok s ∧
      ((s.accepted ++ s.collected).map some : Multiset (Option α)) =
        s.payloads.flatten + (s.pool.txns.map some : List (Option α)) ∧
      s.pool.totalReceivedTxNo = s.accepted.length ∧
      ∃ m : PoolSession (α ⊕ α),
        PoolSession.run bSize (.start memSize) (calls.map PoolCall.mark) = .ok m ∧
        m.map PoolCall.unmark = s ∧
        PoolSession.added m.payloads.flatten ++ PoolSession.added (m.pool.txns.map some) =
          s.accepted) ∧
    ∀ pd : Producer α, ∃ payload rest, pd.txns = payload ++ rest ∧
      (payload.length : ℤ) = min bSize pd.size ∧
      pd.generatePayload bSize = .ok (payload.map some, { pd with txns := rest }) := by
  obtain ⟨m, hm, hrun, horder⟩ := marked_run hsize memSize calls
  have hsum : (m.map PoolCall.unmark).Accounted :=
    PoolSession.run_invariant (fun call _ s t hs hmoves => hs.moves hmoves)
      (PoolSession.accounted_start memSize) hrun
  refine ⟨⟨m.map PoolCall.unmark, hrun, ?_, hsum.counted, m, hm, rfl, ?_⟩, fun pd => ?_⟩
  · simpa using Multiset.coe_eq_coe.mpr hsum.conserved
  · rw [← PoolSession.added_append]
    exact horder
  · refine ⟨_, _, (List.take_append_drop bSize.toNat pd.txns).symm, ?_, Backend.some_eq pd hsize⟩
    rw [List.length_take, Backend.size]
    omega

/-- A full pool that loses nothing but what it turns away: with room for one
transaction it takes two, and a collected one goes first. -/
theorem producer_conserves_full :
    (0 : ℤ) ≤ 2 ∧ ∃ s : PoolSession ℕ,
      PoolSession.run 2 (.start 1)
        [.addTxn 1, .addTxn 2, .addTxn 3, .collectTxn 9, .generatePayload] = .ok s ∧
      s.pool.totalReceivedTxNo = s.accepted.length := by
  refine ⟨by decide, ?_⟩
  obtain ⟨⟨s, hs, -, htotal, -⟩, -⟩ := producer_conserves (show (0 : ℤ) ≤ 2 by decide) 1
    [.addTxn 1, .addTxn 2, .addTxn 3, .collectTxn 9, .generatePayload]
  exact ⟨s, hs, htotal⟩

/-! ## Forked blocks -/

theorem collectTxn_foldl {α : Type} (payload : List α) (pd : Producer α) :
    payload.foldl (fun pd txn => Producer.collectTxn pd (some txn)) pd =
      { pd with txns := payload.reverse ++ pd.txns } := by
  induction payload generalizing pd with
  | nil => rfl
  | cons txn payload ih =>
    rw [List.foldl_cons, ih]
    simp [Producer.collectTxn, Backend.insertFront]

theorem take_reversed_front {α : Type} (l : List α) (n : ℕ) :
    ((l.take n).reverse ++ l.drop n).take n = (l.take n).reverse := by
  rcases Nat.le_total n l.length with h | h
  · exact List.take_left' (by simp [h])
  · rw [List.drop_of_length_le h, List.take_of_length_le h]
    simpa using h

theorem drop_reversed_front {α : Type} (l : List α) (n : ℕ) :
    ((l.take n).reverse ++ l.drop n).drop n = l.drop n := by
  rcases Nat.le_total n l.length with h | h
  · exact List.drop_left' (by simp [h])
  · rw [List.drop_of_length_le h, List.take_of_length_le h]
    simpa using h

theorem generatePayload_eq {pd pd' : Producer Transaction} {bSize : ℤ}
    {payload : List (Option Transaction)}
    (h : pd.generatePayload bSize = .ok (payload, pd')) :
    0 ≤ bSize ∧ payload = (pd.txns.take bSize.toNat).map some ∧
      pd' = { pd with txns := pd.txns.drop bSize.toNat } := by
  rcases Int.lt_or_le bSize 0 with hneg | hsize
  · have hle : bSize ≤ pd.size := by omega
    simp [Producer.generatePayload, Backend.some, hle, hneg] at h
  · rw [Producer.generatePayload, Backend.some_eq pd hsize] at h
    cases h
    exact ⟨hsize, rfl, rfl⟩

/-- The proposer of a forked block puts its transactions back one by one, each in
front of those before it. So the pool is as before the block was built exactly if
the payload reads the same backwards, and the next payload is the reversed one. -/
theorem processForkedBlock_reverses {me : NodeID} {pd pd' : Producer Transaction} {bSize : ℤ}
    {payload : List (Option Transaction)} {block : Block}
    (hpayload : pd.generatePayload bSize = .ok (payload, pd'))
    (hblock : block.payload.map some = payload) (hown : block.proposer = me) :
    (processForkedBlock me pd' block = pd ∧
        (processForkedBlock me pd' block).generatePayload bSize = .ok (payload, pd') ↔
      (pd.txns.take bSize.toNat).reverse = pd.txns.take bSize.toNat) ∧
    (processForkedBlock me pd' block).generatePayload bSize = .ok (payload.reverse, pd') := by
  obtain ⟨hsize, hfront, rfl⟩ := generatePayload_eq hpayload
  have htxns : block.payload = pd.txns.take bSize.toNat := by
    apply List.map_injective_iff.mpr (Option.some_injective Transaction)
    rw [hblock, hfront]
  have hpool : processForkedBlock me { pd with txns := pd.txns.drop bSize.toNat } block =
      { pd with
        txns := (pd.txns.take bSize.toNat).reverse ++ pd.txns.drop bSize.toNat } := by
    rw [processForkedBlock, if_pos hown, collectTxn_foldl, htxns]
  have hnext : (processForkedBlock me { pd with txns := pd.txns.drop bSize.toNat }
      block).generatePayload bSize =
      .ok (payload.reverse, { pd with txns := pd.txns.drop bSize.toNat }) := by
    rw [hpool, Producer.generatePayload, Backend.some_eq _ hsize]
    simp only [take_reversed_front, drop_reversed_front, hfront, List.map_reverse]
  refine ⟨⟨fun h => ?_, fun hpal => ?_⟩, hnext⟩
  · have heq := congrArg Backend.txns (hpool.symm.trans h.1)
    have hsplit := (List.take_append_drop bSize.toNat pd.txns).symm
    exact List.append_cancel_right (heq.trans hsplit)
  · have hsame : payload.reverse = payload := by rw [hfront, ← List.map_reverse, hpal]
    rw [hnext, hsame, hpool, hpal, List.take_append_drop]
    exact ⟨rfl, rfl⟩

/-- Two transactions come back in the wrong order. -/
theorem processForkedBlock_swaps :
    let pd : Producer Transaction := ⟨[⟨"first"⟩, ⟨"second"⟩], 10, 2⟩
    let block : Block := ⟨1, none, "1", pd.txns, 0, [], 1, false, 0, 0⟩
    pd.generatePayload 2 = .ok (block.payload.map some, ⟨[], 10, 2⟩) ∧
      (processForkedBlock "1" ⟨[], 10, 2⟩ block).txns = [⟨"second"⟩, ⟨"first"⟩] := by
  decide

/-- Three transactions that read the same backwards come back as they were, in front of the
one that was left in the pool. -/
theorem processForkedBlock_reverses_palindrome :
    let pd : Producer Transaction := ⟨[⟨"outer"⟩, ⟨"inner"⟩, ⟨"outer"⟩, ⟨"last"⟩], 10, 4⟩
    let block : Block := ⟨1, none, "1", pd.txns.take 3, 0, [], 1, false, 0, 0⟩
    pd.generatePayload 3 = .ok (block.payload.map some, ⟨[⟨"last"⟩], 10, 4⟩) ∧
      processForkedBlock "1" ⟨[⟨"last"⟩], 10, 4⟩ block = pd ∧
      (processForkedBlock "1" ⟨[⟨"last"⟩], 10, 4⟩ block).generatePayload 3 =
        .ok (block.payload.map some, ⟨[⟨"last"⟩], 10, 4⟩) :=
  ⟨rfl, (processForkedBlock_reverses rfl rfl rfl).1.mpr rfl⟩

/-! ## The limit -/

namespace PoolSession

variable {α : Type} {bSize memSize : ℤ} {s t : PoolSession α} {calls : List (PoolCall α)}

theorem run_limit (h : run bSize s calls = .ok t) : t.pool.limit = s.pool.limit := by
  refine run_invariant (J := fun t => t.pool.limit = s.pool.limit) (fun _ _ s t hs h => ?_) rfl h
  cases h <;> exact hs

theorem run_snoc (s : PoolSession α) (calls : List (PoolCall α)) (call : PoolCall α) :
    run bSize s (calls ++ [call]) = run bSize s calls >>= fun t => step bSize t call := by
  simp [run, List.foldlM_append]

/-- The last call of a run. -/
theorem moves_of_run_snoc {call : PoolCall α} (h : run bSize s (calls ++ [call]) = .ok t) :
    ∃ u, run bSize s calls = .ok u ∧ Moves bSize u call t := by
  rw [run_snoc] at h
  cases hu : run bSize s calls with
  | error e =>
    rw [hu] at h
    cases h
  | ok u =>
    rw [hu] at h
    exact ⟨u, rfl, moves_of_step h⟩

/-- The pool never holds more than `bound` transactions. -/
def Bounded (bSize memSize bound : ℤ) (calls : List (PoolCall α)) : Prop :=
  ∀ past s, past <+: calls → run bSize (start memSize) past = .ok s → (s.pool.size : ℤ) ≤ bound

/-- No transaction is added to a pool that holds exactly as many as it should. -/
def NoneAtLimit (bSize memSize : ℤ) (calls : List (PoolCall α)) : Prop :=
  ∀ past txn s, past ++ [.addTxn txn] <+: calls → run bSize (start memSize) past = .ok s →
    (s.pool.size : ℤ) ≠ memSize

/-- The pool grows by one transaction at a time, and only while it is not above
the limit. -/
theorem bounded_of_room {bound : ℤ} (hmem : 0 ≤ bound)
    (hcalls : ∀ txn, .collectTxn txn ∉ calls)
    (hroom : ∀ past txn s, past ++ [.addTxn txn] <+: calls →
      run bSize (start memSize) past = .ok s → (s.pool.size : ℤ) ≤ bound →
      (s.pool.size : ℤ) ≤ memSize → (s.pool.size : ℤ) < bound) :
    Bounded bSize memSize bound calls := by
  intro past
  induction past using List.reverseRecOn with
  | nil =>
    intro s _ hs
    cases hs
    exact hmem
  | append_singleton past call ih =>
    intro t hpre ht
    obtain ⟨s, hs, hmoves⟩ := moves_of_run_snoc ht
    have hsize := ih s ((List.prefix_append past [call]).trans hpre) hs
    cases hmoves with
    | dropped txn full => exact hsize
    | accepted txn room =>
      rw [run_limit hs] at room
      have hlt := hroom past txn s hpre hs hsize room
      simp only [Backend.size, List.length_append, List.length_singleton] at hlt ⊢
      omega
    | collected txn => exact absurd (hpre.subset (by simp)) (hcalls txn)
    | emitted nonneg =>
      simp only [Backend.size, List.length_drop] at hsize ⊢
      omega

theorem noneAtLimit_of_bounded (h : Bounded bSize memSize memSize calls) :
    NoneAtLimit bSize memSize calls := by
  intro past txn s hpre hs hsize
  have hroom : (s.pool.size : ℤ) ≤ s.pool.limit := by
    rw [run_limit hs]
    exact hsize.le
  have hrun := @run_snoc _ bSize (start memSize) past (.addTxn txn)
  rw [hs] at hrun
  have hbound := h _ _ hpre (hrun.trans (@step_addTxn_of_le _ bSize _ hroom txn))
  simp only [Backend.size, List.length_append, List.length_singleton] at hsize hbound
  omega

end PoolSession

/-- A new producer without fork returns holds one transaction more than its limit
at most, and no more than its limit exactly if none is added at the limit. -/
theorem producer_limited_iff {α : Type} {bSize memSize : ℤ} {calls : List (PoolCall α)}
    (hmem : 0 ≤ memSize) (hcalls : ∀ txn, .collectTxn txn ∉ calls) :
    (PoolSession.Bounded bSize memSize memSize calls ↔
      PoolSession.NoneAtLimit bSize memSize calls) ∧
    PoolSession.Bounded bSize memSize (memSize + 1) calls := by
  refine ⟨⟨PoolSession.noneAtLimit_of_bounded, fun hnone => ?_⟩, ?_⟩
  · apply PoolSession.bounded_of_room hmem hcalls
    intro past txn s hpre hs _ hroom
    exact lt_of_le_of_ne hroom (hnone past txn s hpre hs)
  · apply PoolSession.bounded_of_room (by omega) hcalls
    intro past txn s hpre hs _ hroom
    omega

/-- With a limit of one the pool takes two. -/
theorem producer_above_limit :
    ∃ s : PoolSession ℕ, PoolSession.run 1 (.start 1) [.addTxn 1, .addTxn 2] = .ok s ∧
      (1 : ℤ) < s.pool.size :=
  ⟨⟨⟨[1, 2], 1, 2⟩, [1, 2], [], []⟩, by decide, by decide⟩

/-- A pool of two is filled, emptied and filled again. -/
def PoolSession.refill : List (PoolCall ℕ) :=
  [.addTxn 1, .addTxn 2, .generatePayload, .addTxn 3, .addTxn 4]

theorem producer_limited_iff_refill :
    PoolSession.Bounded (2 : ℤ) 2 2 PoolSession.refill ∧
      (PoolSession.run 2 (.start 2) PoolSession.refill).map (fun s => s.pool.txns) =
        .ok [3, 4] := by
  refine ⟨(producer_limited_iff (by decide) (by simp [PoolSession.refill])).1.mpr
    fun past txn s hpre hs => ?_, rfl⟩
  obtain ⟨rest, hrest⟩ := hpre
  rcases past with _ | ⟨_, _ | ⟨_, _ | ⟨_, _ | ⟨_, _ | ⟨_, past⟩⟩⟩⟩⟩
  · cases hs
    decide
  · obtain ⟨rfl, -⟩ := List.cons.inj hrest
    cases hs
    decide
  · cases (List.cons.inj (List.cons.inj (List.cons.inj hrest).2).2).1
  · obtain ⟨rfl, htwo⟩ := List.cons.inj hrest
    obtain ⟨rfl, hthree⟩ := List.cons.inj htwo
    obtain ⟨rfl, -⟩ := List.cons.inj hthree
    cases hs
    decide
  · obtain ⟨rfl, htwo⟩ := List.cons.inj hrest
    obtain ⟨rfl, hthree⟩ := List.cons.inj htwo
    obtain ⟨rfl, hfour⟩ := List.cons.inj hthree
    obtain ⟨rfl, -⟩ := List.cons.inj hfour
    cases hs
    decide
  · simp [PoolSession.refill] at hrest

end Bamboo
