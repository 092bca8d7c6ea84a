import Bamboo.Crypto
import Bamboo.Database
import Bamboo.Limiter

/-!
# The benchmark client

The workload generator and the client were written apart: the one spaces its
keys by the number of correct nodes, the other adds the number of each node it
sends to. Whether the ids of the transactions collide depends on both. The
client also checks the histories of a key at all nodes against each other.
-/
namespace Bamboo

/-! ## Requests -/

/-- What the client reads of the configuration. The nodes are numbered from 1 to `n`,
and `n` is an `int`. -/
structure Config where
  httpAddrs : Map NodeID String
  n : ℕ
  byzNo : ℕ
  strategy : String
  numbered : ∀ id, id ∈ httpAddrs ↔ ∃ i, (1 ≤ i ∧ i ≤ n) ∧ id = newNodeID i
  range : n < 2 ^ 63

/-- The addresses of the file `ips.txt`, from number `i` on. -/
def loadIPs (addrs : Map NodeID String) : ℕ → List String → Map NodeID String
  | _, [] => addrs
  | i, ip :: ips =>
    loadIPs (addrs.insert (newNodeID i) ("http://" ++ ip ++ ":" ++ Nat.repr (8069 + i))) (i + 1) ips

theorem mem_loadIPs {addrs : Map NodeID String} {i : ℕ} {ips : List String} {id : NodeID} :
    id ∈ loadIPs addrs i ips ↔
      id ∈ addrs ∨ ∃ j, (i ≤ j ∧ j < i + ips.length) ∧ id = newNodeID j := by
  induction ips generalizing addrs i with
  | nil =>
    simp only [loadIPs, List.length_nil, Nat.add_zero]
    constructor
    · exact Or.inl
    · rintro (h | ⟨j, hj, -⟩)
      · exact h
      · omega
  | cons ip ips ih =>
    rw [loadIPs, ih, AList.mem_insert, List.length_cons]
    constructor
    · rintro ((rfl | h) | ⟨j, hj, rfl⟩)
      · exact Or.inr ⟨i, by omega, rfl⟩
      · exact Or.inl h
      · exact Or.inr ⟨j, by omega, rfl⟩
    · rintro (h | ⟨j, hj, rfl⟩)
      · exact Or.inl (Or.inr h)
      · by_cases hij : j = i
        · exact Or.inl (Or.inl (by rw [hij]))
        · exact Or.inr ⟨j, by omega, rfl⟩

/-- `Load`, with all addresses in `ips.txt`. -/
def Config.load (byzNo : ℕ) (strategy : String) (ips : List String) (h : ips.length < 2 ^ 63) :
    Config where
  httpAddrs := loadIPs ∅ 1 ips
  n := ips.length
  byzNo := byzNo
  strategy := strategy
  numbered id := by
    rw [mem_loadIPs]
    simp [Nat.lt_one_add_iff]
  range := h

structure HTTPClient where
  http : Map NodeID String

/-- The client will not send requests to Byzantine nodes, if they are silent. -/
def newHTTPClient (config : Config) : HTTPClient where
  http :=
    if config.strategy = "silence" then
      (List.range' 1 config.byzNo).foldl (fun http i => http.erase (newNodeID i)) config.httpAddrs
    else config.httpAddrs

/-- The path of a request, which the node takes for the id of the transaction. -/
def requestURI (key : ℕ) (id : NodeID) : String := "/" ++ Int.repr (key + id.node)

/-- The paths that a key is put under, one for each node. -/
def HTTPClient.allPut (c : HTTPClient) (key : ℕ) : List String := c.http.keys.map (requestURI key)

/-- The generator with its limiter. `count` is the counter of the package, which does
not overflow here. -/
structure Benchmark where
  throttle : ℤ
  distribution : String
  rate : Limiter
  count : ℕ

namespace Benchmark

/-- The key of the next request; an unknown distribution ends the program. -/
def next (config : Config) (b : Benchmark) (now : ℤ) : Option (ℕ × Benchmark) :=
  if b.distribution = "uniform" then
    some (b.count,
      { b with
        count := b.count + (config.n - config.byzNo)
        rate := if b.throttle > 0 then b.rate.wait now else b.rate })
  else none

/-- The keys of the requests made at the given times. -/
def keys (config : Config) (b : Benchmark) : List ℤ → Option (List ℕ)
  | [] => some []
  | now :: nows => do
    let (key, b) ← b.next config now
    return key :: (← b.keys config nows)

end Benchmark

/-! ## The ids of the transactions -/

theorem requestURI_eq_iff {key key' i i' : ℕ} (hi : i < 2 ^ 63) (hi' : i' < 2 ^ 63) :
    requestURI key (newNodeID i) = requestURI key' (newNodeID i') ↔ key + i = key' + i' := by
  have huri : ∀ k j : ℕ, j < 2 ^ 63 →
      requestURI k (newNodeID j) = "/" ++ newNodeID (k + j) := by
    intro k j hj
    rw [requestURI, node_newNodeID j hj, ← Nat.cast_add]
    rfl
  rw [huri key i hi, huri key' i' hi', String.append_right_inj, newNodeID_injective.eq_iff]

/-- The client leaves out the nodes up to this number. -/
def Config.silent (config : Config) : ℕ := if config.strategy = "silence" then config.byzNo else 0

theorem mem_foldl_erase {m : Map NodeID String} {is : List ℕ} {id : NodeID} :
    id ∈ is.foldl (fun http i => http.erase (newNodeID i)) m ↔
      id ∈ m ∧ ∀ i ∈ is, id ≠ newNodeID i := by
  induction is generalizing m with
  | nil => simp
  | cons i is ih => simp [ih, AList.mem_erase, and_assoc, and_left_comm]

theorem mem_newHTTPClient (config : Config) (id : NodeID) :
    id ∈ (newHTTPClient config).http ↔
      ∃ i, (config.silent < i ∧ i ≤ config.n) ∧ id = newNodeID i := by
  unfold newHTTPClient Config.silent
  split_ifs with h
  · rw [mem_foldl_erase, config.numbered]
    constructor
    · rintro ⟨⟨i, hi, rfl⟩, hne⟩
      refine ⟨i, ⟨?_, hi.2⟩, rfl⟩
      by_contra hle
      exact hne i (List.mem_range'_1.mpr (by omega)) rfl
    · rintro ⟨i, hi, rfl⟩
      refine ⟨⟨i, by omega, rfl⟩, fun j hj heq => ?_⟩
      rw [newNodeID_injective heq] at hi
      rw [List.mem_range'_1] at hj
      omega
  · rw [config.numbered]
    rfl

theorem mem_allPut {config : Config} {key : ℕ} {uri : String} :
    uri ∈ (newHTTPClient config).allPut key ↔
      ∃ i, (config.silent < i ∧ i ≤ config.n) ∧ uri = requestURI key (newNodeID i) := by
  simp only [HTTPClient.allPut, List.mem_map, ← AList.mem_keys, mem_newHTTPClient]
  constructor
  · rintro ⟨_, ⟨i, hi, rfl⟩, rfl⟩
    exact ⟨i, hi, rfl⟩
  · rintro ⟨i, hi, rfl⟩
    exact ⟨_, ⟨i, hi, rfl⟩, rfl⟩

/-- One request goes to each node under an id of its own. -/
theorem nodup_allPut (config : Config) (key : ℕ) :
    ((newHTTPClient config).allPut key).Nodup := by
  apply List.Nodup.map_on
  · intro id hid id' hid' heq
    rw [← AList.mem_keys, mem_newHTTPClient] at hid hid'
    obtain ⟨i, hi, rfl⟩ := hid
    obtain ⟨i', hi', rfl⟩ := hid'
    have hrange := config.range
    have hsum := (requestURI_eq_iff (by omega) (by omega)).mp heq
    rw [show i = i' by omega]
  · exact AList.keys_nodup _

/-- Two requests share an id exactly if some two of the nodes bridge their keys. -/
theorem disjoint_allPut_iff {config : Config} {key key' : ℕ} :
    List.Disjoint ((newHTTPClient config).allPut key) ((newHTTPClient config).allPut key') ↔
      ∀ i i', config.silent < i → i ≤ config.n → config.silent < i' → i' ≤ config.n →
        key + i ≠ key' + i' := by
  have hrange := config.range
  constructor
  · intro h i i' hi hin hi' hin' heq
    refine h (mem_allPut.mpr ⟨i, ⟨hi, hin⟩, rfl⟩) (mem_allPut.mpr ⟨i', ⟨hi', hin'⟩, ?_⟩)
    exact (requestURI_eq_iff (by omega) (by omega)).mpr heq
  · intro h uri huri huri'
    obtain ⟨i, hi, rfl⟩ := mem_allPut.mp huri
    obtain ⟨i', hi', heq⟩ := mem_allPut.mp huri'
    have hsum := (requestURI_eq_iff (by omega) (by omega)).mp heq
    exact h i i' hi.1 hi.2 hi'.1 hi'.2 hsum

theorem keys_eq {config : Config} {b : Benchmark} (hdist : b.distribution = "uniform")
    (nows : List ℤ) :
    b.keys config nows =
      some ((List.range nows.length).map fun k => b.count + k * (config.n - config.byzNo)) := by
  induction nows generalizing b with
  | nil => simp [Benchmark.keys]
  | cons now nows ih =>
    simp [Benchmark.keys, Benchmark.next, hdist, ih, List.range_succ_eq_map, Function.comp_def,
      Nat.add_mul, Nat.add_assoc, Nat.add_comm]

/-- Keys are one step apart or more; a step is as long as the client's row of nodes. -/
theorem disjoint_of_silent {config : Config} (hsilent : config.silent = config.byzNo)
    {key k k' : ℕ} (hk : k < k') :
    List.Disjoint ((newHTTPClient config).allPut (key + k * (config.n - config.byzNo)))
      ((newHTTPClient config).allPut (key + k' * (config.n - config.byzNo))) := by
  rw [disjoint_allPut_iff]
  intro i i' hi hin hi' hin'
  have hstep : (k + 1) * (config.n - config.byzNo) ≤ k' * (config.n - config.byzNo) :=
    Nat.mul_le_mul_right _ hk
  rw [Nat.succ_mul] at hstep
  omega

/-- The ids of the transactions are all different exactly if the Byzantine nodes are left
out by the client, or there are none, or there is only one request. -/
theorem transaction_ids_nodup_iff (config : Config) (b : Benchmark)
    (hbyz : config.byzNo < config.n) (hdist : b.distribution = "uniform") (nows : List ℤ) :
    ∃ keys, b.keys config nows = some keys ∧ keys.length = nows.length ∧
      ((keys.flatMap (newHTTPClient config).allPut).Nodup ↔
        config.strategy = "silence" ∨ config.byzNo = 0 ∨ nows.length ≤ 1) := by
  refine ⟨_, keys_eq hdist nows, by simp, ?_⟩
  rw [List.nodup_flatMap]
  constructor
  · rintro ⟨-, hpairwise⟩
    by_contra hnot
    push Not at hnot
    obtain ⟨hloud, hpos, hlength⟩ := hnot
    have hsilent : config.silent = 0 := by simp [Config.silent, hloud]
    -- the last node of the first request and node `byzNo` of the second
    rw [List.pairwise_map, List.pairwise_iff_getElem] at hpairwise
    have hfirst := hpairwise 0 1 (by simpa using by omega) (by simpa using hlength) (by omega)
    simp only [List.getElem_range, Function.onFun, disjoint_allPut_iff, hsilent] at hfirst
    exact hfirst config.n config.byzNo (by omega) (by omega) (by omega) (by omega) (by omega)
  · intro h
    refine ⟨fun key _ => nodup_allPut config key, ?_⟩
    rw [List.pairwise_map]
    rcases h with hquiet | hnone | hone
    · have hsilent : config.silent = config.byzNo := by simp [Config.silent, hquiet]
      exact List.pairwise_lt_range.imp fun hk => disjoint_of_silent hsilent hk
    · have hsilent : config.silent = config.byzNo := by simp [Config.silent, hnone]
      exact List.pairwise_lt_range.imp fun hk => disjoint_of_silent hsilent hk
    · apply List.Pairwise.imp_of_mem _ List.pairwise_lt_range
      intro k k' hk hk' hlt
      rw [List.mem_range] at hk hk'
      omega

/-- Four nodes on one machine. -/
def fourLocal (byzNo : ℕ) (strategy : String) : Config :=
  Config.load byzNo strategy ["127.0.0.1", "127.0.0.1", "127.0.0.1", "127.0.0.1"] (by decide)

theorem transaction_ids_silence : ∃ keys,
    Benchmark.keys (fourLocal 1 "silence") ⟨0, "uniform", Limiter.new 1, 0⟩ [0, 1, 2] = some keys ∧
      (keys.flatMap (newHTTPClient (fourLocal 1 "silence")).allPut).Nodup := by
  obtain ⟨keys, hkeys, -, hiff⟩ := transaction_ids_nodup_iff (fourLocal 1 "silence")
    ⟨0, "uniform", Limiter.new 1, 0⟩ (by decide) rfl [0, 1, 2]
  exact ⟨keys, hkeys, hiff.mpr (Or.inl rfl)⟩

/-- With one Byzantine node that is not silent the first request at node 4 and the second
at node 1 have the same id. -/
theorem transaction_ids_collide :
    Benchmark.keys (fourLocal 1 "") ⟨0, "uniform", Limiter.new 1, 0⟩ [0, 1] = some [0, 3] ∧
      requestURI 0 "4" ∈ (newHTTPClient (fourLocal 1 "")).allPut 0 ∧
      requestURI 3 "1" ∈ (newHTTPClient (fourLocal 1 "")).allPut 3 ∧
      requestURI 0 "4" = requestURI 3 "1" := by
  refine ⟨?_, ?_, ?_, ?_⟩ <;> decide +kernel

/-! ## The consensus check -/

/-- `if len(h[id]) > i { set[string(h[id][i])] = struct{}{} }`; a nil value is the empty
string. -/
def collectValue (h : NodeID → List Value) (i : ℕ) (set : Finset (List UInt8)) (id : NodeID) :
    Finset (List UInt8) :=
  match (h id)[i]? with
  | none => set
  | some v => insert (v.getD []) set

def longer (h : NodeID → List Value) (n : ℕ) (id : NodeID) : ℕ :=
  if (h id).length > n then (h id).length else n

/-- `Consensus` on the answers of the nodes. A node that could not be asked or whose
answer could not be read counts with an empty history. -/
def HTTPClient.consensus (c : HTTPClient) (answer : NodeID → Option (List Value)) : Bool :=
  let h := fun id => (answer id).getD []
  let n := c.http.keys.foldl (longer h) 0
  (List.range n).all fun i => decide (¬ (c.http.keys.foldl (collectValue h i) ∅).card > 1)

/-- The history of a node as byte strings. -/
def byteHistory (answer : NodeID → Option (List Value)) (id : NodeID) : List (List UInt8) :=
  ((answer id).getD []).map (·.getD [])

section Consensus

variable {h : NodeID → List Value} {i : ℕ} {x : List UInt8}

theorem mem_collectValue {set : Finset (List UInt8)} {id : NodeID} :
    x ∈ collectValue h i set id ↔ x ∈ set ∨ ((h id).map (·.getD []))[i]? = some x := by
  cases hv : (h id)[i]? with
  | none => simp [collectValue, hv]
  | some v => simp [collectValue, hv, or_comm, eq_comm]

theorem mem_foldl_collectValue {set : Finset (List UInt8)} {ids : List NodeID} :
    x ∈ ids.foldl (collectValue h i) set ↔
      x ∈ set ∨ ∃ id ∈ ids, ((h id).map (·.getD []))[i]? = some x := by
  induction ids generalizing set with
  | nil => simp
  | cons id ids ih =>
    rw [List.foldl_cons, ih, mem_collectValue]
    simp [or_assoc]

theorem le_foldl_longer (ids : List NodeID) (n : ℕ) :
    n ≤ ids.foldl (longer h) n ∧ ∀ id ∈ ids, (h id).length ≤ ids.foldl (longer h) n := by
  induction ids generalizing n with
  | nil => simp
  | cons id ids ih =>
    obtain ⟨hle, hall⟩ := ih (longer h n id)
    have hstep : n ≤ longer h n id ∧ (h id).length ≤ longer h n id := by
      unfold longer
      split_ifs <;> omega
    rw [List.foldl_cons, List.forall_mem_cons]
    exact ⟨hstep.1.trans hle, hstep.2.trans hle, hall⟩

end Consensus

/-- Lists that agree wherever both are defined are one a beginning of the other. -/
theorem prefix_or_prefix_iff {α : Type} (xs ys : List α) :
    (xs <+: ys ∨ ys <+: xs) ↔
      ∀ (i : ℕ) x y, xs[i]? = some x → ys[i]? = some y → x = y := by
  induction xs generalizing ys with
  | nil => simp
  | cons a xs ih =>
    cases ys with
    | nil => simp
    | cons b ys =>
      simp only [List.cons_prefix_cons]
      constructor
      · intro h i x y hx hy
        cases i with
        | zero =>
          simp only [List.getElem?_cons_zero, Option.some.injEq] at hx hy
          grind
        | succ i =>
          simp only [List.getElem?_cons_succ] at hx hy
          exact (ih ys).mp (by tauto) i x y hx hy
      · intro h
        have hab : a = b := h 0 a b rfl rfl
        have htail := (ih ys).mpr fun i x y hx hy => h (i + 1) x y hx hy
        simpa [hab] using htail

/-- The check passes exactly if of any two nodes the history of one continues the
history of the other. -/
theorem consensus_iff_prefixes (c : HTTPClient) (answer : NodeID → Option (List Value)) :
    c.consensus answer = true ↔ ∀ id ∈ c.http, ∀ id' ∈ c.http,
      byteHistory answer id <+: byteHistory answer id' ∨
        byteHistory answer id' <+: byteHistory answer id := by
  simp only [HTTPClient.consensus, List.all_eq_true, List.mem_range, decide_eq_true_eq, not_lt,
    gt_iff_lt, Finset.card_le_one, mem_foldl_collectValue, Finset.notMem_empty, false_or,
    prefix_or_prefix_iff, AList.mem_keys]
  constructor
  · intro h id hid id' hid' i x y hx hy
    have hlength : i < ((answer id).getD []).length := by
      have hi := (List.getElem?_eq_some_iff.mp hx).1
      rwa [byteHistory, List.length_map] at hi
    have hlongest := (@le_foldl_longer (fun id => (answer id).getD []) c.http.keys 0).2 id hid
    exact h i (hlength.trans_le hlongest) x ⟨id, hid, hx⟩ y ⟨id', hid', hy⟩
  · rintro h i - x ⟨id, hid, hx⟩ y ⟨id', hid', hy⟩
    exact h id hid id' hid' i x y hx hy

end Bamboo
