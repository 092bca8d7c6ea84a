import Bamboo.Notarized

/-!
# Reading the notarized chain

The functions that read the chain, with each access as a checked read at the
index that the source computes. `commitRule` and `forkChoice` stay in range.
`votingRule` reads level -1 of an empty chain, and the search for a parent reads
it in a chain of one or two levels that the parent is not in.
-/
namespace Bamboo

namespace Streamlet

/-- `notarizedChain[i]`. -/
def readLevel (chain : List (List Block)) (i : ℤ) : Except Fault (List Block) :=
  if i < 0 then .error .index
  else
    match chain[i.toNat]? with
    | none => .error .index
    | some level => .ok level

/-- `level[0]`. -/
def readFirst : List Block → Except Fault Block
  | [] => .error .index
  | b :: _ => .ok b

def votingRuleReads (chain : List (List Block)) (block : Block) : Except Fault Bool := do
  if block.view ≤ 2 then return true
  else
    let lastBlocks ← readLevel chain (chain.length - 1)
    return lastBlocks.any (block.prevID = ·.id)

/-- The first part of Streamlet's `forkChoice`, which may make a Byzantine replica skip its
turn. -/
def silentReads (s : Streamlet) : Except Fault Bool := do
  if 3 < s.notarizedChain.length ∧ s.isByz = true then
    let lastBlocks ← readLevel s.notarizedChain (s.notarizedChain.length - 1)
    let secondBlocks ← readLevel s.notarizedChain (s.notarizedChain.length - 2)
    if lastBlocks.length = 1 ∧ secondBlocks.length = 1 then
      let lastBlock ← readFirst lastBlocks
      let secondBlock ← readFirst secondBlocks
      return decide (lastBlock.view = secondBlock.view + 1 ∧ lastBlock.view + 1 = s.pm.curView)
    else return false
  else return false

/-- The second part of `forkChoice`: the first block of the last level. -/
def tailReads (genesis : Identifier) (chain : List (List Block)) : Except Fault Identifier := do
  if chain.length = 0 then return genesis
  else
    let level ← readLevel chain (chain.length - 1)
    return (← readFirst level).id

def forkChoiceReads (alg : Notarizer) (genesis : Identifier) (s : Streamlet) :
    Except Fault (Option Identifier) :=
  match alg with
  | .streamlet => do
    if (← s.silentReads) = true then return none
    else return some (← tailReads genesis s.notarizedChain)
  | .lbft => do return some (← tailReads genesis s.notarizedChain)

/-- The level at the index, if it holds one block. -/
def readSingle (chain : List (List Block)) (i : ℤ) : Except Fault (Option Block) := do
  let level ← readLevel chain i
  if level.length ≠ 1 then return none else return some (← readFirst level)

def commitRuleReads (chain : List (List Block)) : Except Fault (Option Block) := do
  if chain.length < 3 then return none
  else
    match ← readSingle chain (chain.length - 1) with
    | none => return none
    | some lastBlock =>
      match ← readSingle chain (chain.length - 2) with
      | none => return none
      | some secondBlock =>
        match ← readSingle chain (chain.length - 3) with
        | none => return none
        | some firstBlock =>
          if firstBlock.view + 1 = secondBlock.view ∧ secondBlock.view + 1 = lastBlock.view then
            return some secondBlock
          else return none

/-- The loop over the levels from `i` down. It looks at every level and perhaps at
level -1, so two turns more than there are levels are enough. -/
def searchReads (chain : List (List Block)) (prevID : Identifier) : ℕ → ℤ → Except Fault Bool
  | 0, _ => .error .spin
  | fuel + 1, i =>
    if 0 ≤ i ∨ chain.length - 3 ≤ i then do
      let lastBlocks ← readLevel chain i
      if lastBlocks.any (·.id = prevID) then return true
      else searchReads chain prevID fuel (i - 1)
    else .ok false

/-! ## The reads of each function -/

theorem readLevel_neg (chain : List (List Block)) {i : ℤ} (h : i < 0) :
    readLevel chain i = .error .index :=
  if_pos h

theorem readLevel_nat (chain : List (List Block)) {i : ℕ} {level : List Block}
    (h : chain[i]? = some level) : readLevel chain i = .ok level := by
  have hnot : ¬ (i : ℤ) < 0 := by omega
  simp [readLevel, hnot, h]

theorem readLevel_last (chain : List (List Block)) (level : List Block) :
    readLevel (chain ++ [level]) (chain.length : ℕ) = .ok level :=
  readLevel_nat _ (by simp)

theorem votingRuleReads_eq (chain : List (List Block)) (block : Block) :
    votingRuleReads chain block = votingRule chain block := by
  unfold votingRuleReads votingRule
  by_cases hview : block.view ≤ 2
  · simp [hview, pure, Except.pure]
  · cases chain using List.reverseRecOn with
    | nil => simp [hview, readLevel, bind, Except.bind]
    | append_singleton chain level =>
      simp [hview, readLevel_last, bind, Except.bind, pure, Except.pure]

theorem readSingle_eq {chain : List (List Block)} {i : ℤ} {level : List Block}
    (h : readLevel chain i = .ok level) :
    readSingle chain i = .ok (if level.length = 1 then level.head? else none) := by
  rcases level with _ | ⟨b, _ | ⟨c, level⟩⟩ <;>
    simp [readSingle, h, readFirst, bind, Except.bind, pure, Except.pure]

/-- The levels counted from the end. -/
theorem readLevel_reverse {levels : List (List Block)} {k : ℕ} {level : List Block}
    (h : levels[k]? = some level) :
    readLevel levels.reverse ((levels.length - 1 - k : ℕ)) = .ok level := by
  have hk := (List.getElem?_eq_some_iff.mp h).1
  apply readLevel_nat
  rw [List.getElem?_reverse (by omega), ← h]
  congr 1
  omega

theorem silentReads_eq (s : Streamlet) : s.silentReads = .ok s.silent := by
  obtain ⟨levels, hlevels⟩ : ∃ levels, s.notarizedChain = levels.reverse :=
    ⟨s.notarizedChain.reverse, s.notarizedChain.reverse_reverse.symm⟩
  unfold silentReads silent
  rw [hlevels, List.reverse_reverse]
  by_cases hlong : 3 < levels.reverse.length ∧ s.isByz = true
  · rw [if_pos hlong]
    obtain ⟨hlen, hbyz⟩ := hlong
    rcases levels with _ | ⟨last, _ | ⟨second, _ | ⟨third, _ | ⟨fourth, rest⟩⟩⟩⟩
    · cases hlen
    · simp at hlen
    · simp at hlen
    · simp at hlen
    have hlength : (last :: second :: third :: fourth :: rest).reverse.length =
        rest.length + 4 := by simp
    have hread : ∀ (k : ℕ) level, (last :: second :: third :: fourth :: rest)[k]? = some level →
        readLevel (last :: second :: third :: fourth :: rest).reverse
          ((rest.length + 3 - k : ℕ)) = .ok level := fun k level h => readLevel_reverse h
    rw [hlength, show ((rest.length + 4 : ℕ) : ℤ) - 1 = (rest.length + 3 - 0 : ℕ) by omega,
      show ((rest.length + 4 : ℕ) : ℤ) - 2 = (rest.length + 3 - 1 : ℕ) by omega,
      hread 0 last rfl, hread 1 second rfl, hbyz]
    rcases last with _ | ⟨b, _ | ⟨c, last⟩⟩
    · rfl
    · rcases second with _ | ⟨b', _ | ⟨c', second⟩⟩
      · rfl
      · rfl
      · rfl
    · rfl
  · rw [if_neg hlong]
    split
    case h_1 lastBlock secondBlock third fourth rest =>
      have hbyz : s.isByz = false := by
        rw [← Bool.not_eq_true]
        exact fun h => hlong ⟨by simp, h⟩
      rw [hbyz]
      rfl
    case h_2 => rfl

theorem tailReads_eq (genesis : Identifier) (s : Streamlet) :
    tailReads genesis s.notarizedChain = s.forkChoice genesis := by
  unfold tailReads forkChoice
  cases s.notarizedChain using List.reverseRecOn with
  | nil => rfl
  | append_singleton chain level =>
    cases level <;> simp [readLevel_last, readFirst, bind, Except.bind, pure, Except.pure]

theorem forkChoiceReads_ok (alg : Notarizer) {genesis prevID : Identifier} {s : Streamlet}
    (h : s.forkChoice genesis = .ok prevID) : ∃ r, s.forkChoiceReads alg genesis = .ok r := by
  cases alg with
  | streamlet =>
    cases hsilent : s.silent <;>
      simp [forkChoiceReads, silentReads_eq, tailReads_eq, h, hsilent, bind, Except.bind, pure,
        Except.pure]
  | lbft => simp [forkChoiceReads, tailReads_eq, h, bind, Except.bind, pure, Except.pure]

theorem commitRuleReads_eq (chain : List (List Block)) :
    commitRuleReads chain = .ok (commitRule chain) := by
  obtain ⟨levels, rfl⟩ : ∃ levels, chain = levels.reverse :=
    ⟨chain.reverse, chain.reverse_reverse.symm⟩
  unfold commitRule
  rw [List.reverse_reverse]
  rcases levels with _ | ⟨last, _ | ⟨second, _ | ⟨first, rest⟩⟩⟩
  · rfl
  · rcases last with _ | ⟨b, _ | ⟨c, last⟩⟩ <;> rfl
  · rcases last with _ | ⟨b, _ | ⟨c, last⟩⟩ <;>
      rcases second with _ | ⟨b', _ | ⟨c', second⟩⟩ <;> rfl
  · have hlength : (last :: second :: first :: rest).reverse.length = rest.length + 3 := by simp
    have hread : ∀ (k : ℕ) level, (last :: second :: first :: rest)[k]? = some level →
        readLevel (last :: second :: first :: rest).reverse ((rest.length + 2 - k : ℕ)) =
          .ok level := fun k level h => readLevel_reverse h
    have hlast := readSingle_eq (hread 0 last rfl)
    have hsecond := readSingle_eq (hread 1 second rfl)
    have hfirst := readSingle_eq (hread 2 first rfl)
    unfold commitRuleReads
    rw [hlength, show ((rest.length + 3 : ℕ) : ℤ) - 1 = (rest.length + 2 - 0 : ℕ) by omega,
      show ((rest.length + 3 : ℕ) : ℤ) - 2 = (rest.length + 2 - 1 : ℕ) by omega,
      show ((rest.length + 3 : ℕ) : ℤ) - 3 = (rest.length + 2 - 2 : ℕ) by omega,
      hlast, hsecond, hfirst, if_neg (by omega)]
    rcases last with _ | ⟨b, _ | ⟨c, last⟩⟩
    · rfl
    · rcases second with _ | ⟨b', _ | ⟨c', second⟩⟩
      · rfl
      · rcases first with _ | ⟨b'', _ | ⟨c'', first⟩⟩
        · rfl
        · simp only [List.length_singleton, if_true, List.head?_cons, bind, Except.bind, pure,
            Except.pure]
          split_ifs <;> rfl
        · rfl
      · rfl
    · rfl

/-- The loop and the search of the model agree, with two turns to spare. -/
theorem searchReads_eq {chain : List (List Block)} (prevID : Identifier) {k : ℕ}
    (hk : k ≤ chain.length) {fuel : ℕ} (hfuel : k + 2 ≤ fuel) :
    searchReads chain prevID fuel (k - 1) = findParent chain prevID k := by
  induction k generalizing fuel with
  | zero =>
    obtain ⟨fuel, rfl⟩ : ∃ m, fuel = m + 1 := ⟨fuel - 1, by omega⟩
    unfold searchReads findParent
    by_cases hlen : chain.length ≤ 2
    · have hcond : (0 : ℤ) ≤ (0 : ℕ) - 1 ∨ (chain.length : ℤ) - 3 ≤ (0 : ℕ) - 1 := by omega
      rw [if_pos hcond, if_pos hlen, readLevel_neg chain (by omega)]
      rfl
    · have hcond : ¬ ((0 : ℤ) ≤ (0 : ℕ) - 1 ∨ (chain.length : ℤ) - 3 ≤ (0 : ℕ) - 1) := by omega
      rw [if_neg hcond, if_neg hlen]
  | succ k ih =>
    obtain ⟨fuel, rfl⟩ : ∃ m, fuel = m + 1 := ⟨fuel - 1, by omega⟩
    have hindex : ((k + 1 : ℕ) : ℤ) - 1 = (k : ℕ) := by omega
    have hread := readLevel_nat chain (List.getElem?_eq_getElem (show k < chain.length by omega))
    have hget : chain.getD k [] = chain[k] := by simp [List.getD, show k < chain.length by omega]
    unfold searchReads findParent
    rw [hindex, if_pos (Or.inl (by omega)), hread, hget]
    by_cases hany : chain[k].any (·.id = prevID)
    · simp [hany, bind, Except.bind, pure, Except.pure]
    · simpa [hany, bind, Except.bind] using ih (by omega) (by omega)

/-- The search stays in range exactly if it finds the parent or has three levels to
go through. -/
theorem findParent_ok_iff (chain : List (List Block)) (prevID : Identifier) (k : ℕ)
    (hk : k ≤ chain.length) :
    (∃ r, findParent chain prevID k = .ok r) ↔
      3 ≤ chain.length ∨ ∃ level ∈ chain.take k, ∃ p ∈ level, p.id = prevID := by
  induction k with
  | zero =>
    unfold findParent
    split_ifs with hlen
    · simp
      omega
    · simp
      omega
  | succ k ih =>
    have hget : chain.getD k [] = chain[k] := by simp [List.getD, show k < chain.length by omega]
    unfold findParent
    rw [List.take_succ_eq_append_getElem (by omega), hget]
    by_cases hany : chain[k].any (·.id = prevID)
    · obtain ⟨p, hp, hid⟩ := List.any_eq_true.mp hany
      refine iff_of_true (by simp [hany]) (Or.inr ⟨chain[k], ?_, p, hp, ?_⟩)
      · exact List.mem_append_right _ (List.mem_singleton.mpr rfl)
      · exact of_decide_eq_true hid
    · have hnone : ∀ p ∈ chain[k], p.id ≠ prevID := by simpa using hany
      rw [if_neg hany, ih (by omega)]
      apply or_congr_right
      constructor
      · rintro ⟨level, hl, h⟩
        exact ⟨level, List.mem_append_left _ hl, h⟩
      · rintro ⟨level, hl, p, hp, hid⟩
        rcases List.mem_append.mp hl with hl | hl
        · exact ⟨level, hl, p, hp, hid⟩
        · rw [List.mem_singleton.mp hl] at hp
          exact absurd hid (hnone p hp)

theorem votingRule_ok_iff (chain : List (List Block)) (block : Block) :
    (∃ r, votingRule chain block = .ok r) ↔ block.view ≤ 2 ∨ chain ≠ [] := by
  unfold votingRule
  by_cases hview : block.view ≤ 2
  · simp [hview]
  · cases chain using List.reverseRecOn with
    | nil => simp [hview]
    | append_singleton chain level => simp [hview]

theorem get_bind_run {α : Type} (f : Streamlet → Exec α) (s : Streamlet) :
    (get >>= f) s = f s s := rfl

theorem set_bind_run {α : Type} (t : Streamlet) (f : PUnit → Exec α) (s : Streamlet) :
    ((set t : Exec PUnit) >>= f) s = f ⟨⟩ t := rfl

theorem call_ok_bind_run {α β : Type} (a : α) (f : α → Exec β) (s : Streamlet) :
    (call (.ok a) >>= f) s = f a s := rfl

theorem call_error_bind_run {α β : Type} (e : Fault) (f : α → Exec β) (s : Streamlet) :
    (call (.error e) >>= f) s = .error e s := rfl

theorem pure_run {α : Type} (a : α) (s : Streamlet) : (pure a : Exec α) s = .ok a s := rfl

theorem updateNotarizedChain_ok_iff (qc : QC) (s : Streamlet) :
    (∃ r t, updateNotarizedChain qc s = .ok r t) ↔
      ∀ block, s.bc.forrest.getVertex qc.blockID = some block →
        s.notarizedChain = [] ∨ 3 ≤ s.notarizedChain.length ∨
          ∃ level ∈ s.notarizedChain, ∃ p ∈ level, p.id = block.prevID := by
  have hparent := findParent_ok_iff s.notarizedChain
  unfold updateNotarizedChain
  rw [get_bind_run]
  cases hb : s.bc.forrest.getVertex qc.blockID with
  | none => simp [BlockChain.getBlockByID, hb, pure_run]
  | some block =>
    simp only [BlockChain.getBlockByID_ok.mpr hb, Option.some.injEq, forall_eq']
    by_cases hempty : s.notarizedChain = []
    · simp only [hempty, List.length_nil, if_true, set_bind_run, pure_run]
      exact iff_of_true ⟨_, _, rfl⟩ (Or.inl trivial)
    · have hiff := hparent block.prevID s.notarizedChain.length le_rfl
      rw [List.take_length] at hiff
      simp only [List.length_eq_zero_iff, hempty, if_false, false_or, ← hiff]
      cases hfind : findParent s.notarizedChain block.prevID s.notarizedChain.length with
      | error e => simp [call_error_bind_run]
      | ok found =>
        rw [call_ok_bind_run]
        cases found
        · exact iff_of_true ⟨_, _, rfl⟩ ⟨_, rfl⟩
        · exact iff_of_true ⟨_, _, rfl⟩ ⟨_, rfl⟩

theorem Grown.forkChoice_ok {s : Streamlet} (h : Grown s.notarizedChain) (genesis : Identifier) :
    ∃ prevID, s.forkChoice genesis = .ok prevID := by
  unfold forkChoice
  cases hlast : s.notarizedChain.getLast? with
  | none => exact ⟨genesis, rfl⟩
  | some level =>
    obtain ⟨b, rfl⟩ := h.singleton (List.mem_of_getLast? hlast)
    exact ⟨b.id, rfl⟩

end Streamlet

/-! ## An honest network -/

inductive StreamletAction
  | deliver (src k : ℕ)
  | timeout
  | newView (payload : List Transaction)
  | background (k : ℕ)
  deriving DecidableEq, Repr

structure StreamletTurn where
  node : ℕ
  action : StreamletAction
  fuel : ℕ
  deriving DecidableEq, Repr

/-- The replicas by their number, and how many entered views each has taken from its
channel. -/
structure StreamletWorld where
  nodes : ℕ → Streamlet
  entered : ℕ → ℕ

namespace StreamletWorld

def init (env : Env) : StreamletWorld :=
  ⟨fun i => Streamlet.new env (newNodeID i) false, fun _ => 0⟩

def received : Msg → Option Streamlet.Input
  | .block b => some (.block b)
  | .vote v => some (.vote v)
  | .tmo t => some (.tmo t)
  | .vmo _ => none

/-- The input an action amounts to. A message is delivered only after it was sent, and a
replica proposes when it takes a view that it leads from its channel. -/
def input (env : Env) (genesis : Identifier) (w : StreamletWorld) (node : ℕ) :
    StreamletAction → Option Streamlet.Input
  | .deliver src k =>
    if 1 ≤ src ∧ src ≤ env.n then
      match (w.nodes src).outbox[k]? with
      | none => none
      | some e =>
        if e.dest = some (newNodeID node) ∨ (e.dest = none ∧ src ≠ node) then received e.msg.wire
        else none
    else none
  | .timeout => some .timeout
  | .newView payload =>
    match (w.nodes node).pm.newViewChan[w.entered node]? with
    | none => none
    | some view =>
      if env.election.isLeader (newNodeID node) view then some (.propose genesis view payload)
      else none
  | .background k => some (.background k)

def step (env : Env) (alg : Notarizer) (genesis : Identifier) (w : StreamletWorld)
    (t : StreamletTurn) : StreamletWorld :=
  if 1 ≤ t.node ∧ t.node ≤ env.n then
    { nodes := match w.input env genesis t.node t.action with
        | none => w.nodes
        | some i => Function.update w.nodes t.node ((w.nodes t.node).step env alg (i, t.fuel))
      entered := match t.action with
        | .newView _ => Function.update w.entered t.node (w.entered t.node + 1)
        | _ => w.entered }
  else w

def after (env : Env) (alg : Notarizer) (genesis : Identifier) (turns : List StreamletTurn) :
    StreamletWorld :=
  turns.foldl (step env alg genesis) (init env)

end StreamletWorld

/-- Nodes 2, 3 and 4 notarize the blocks of views 1 and 2 of leader 4, which then
proposes its third block. Node 1 has received the first two blocks, and no votes. -/
def fourNodes.threeProposals : List StreamletTurn :=
  [⟨4, .newView [], 8⟩, ⟨2, .deliver 4 1, 8⟩, ⟨3, .deliver 4 2, 8⟩, ⟨4, .deliver 2 7, 8⟩,
    ⟨4, .deliver 3 7, 8⟩, ⟨4, .newView [], 8⟩, ⟨2, .deliver 4 9, 8⟩, ⟨3, .deliver 4 10, 8⟩,
    ⟨4, .deliver 2 15, 8⟩, ⟨4, .deliver 3 15, 8⟩, ⟨4, .newView [], 8⟩, ⟨1, .deliver 4 0, 8⟩,
    ⟨1, .deliver 4 8, 8⟩]

/-- In an honest network of Streamlet, node 1 then receives the third block, and votes
for it as to level -1 of its empty chain. Or it receives the votes for the second block
and after them those for the first one, whose parent it looks for down to level -1. -/
theorem notarizedChain_read_out_of_range :
    (let w := StreamletWorld.after fourNodes .streamlet genesisID fourNodes.threeProposals
    (w.nodes 1).crashed = false ∧
      w.input fourNodes genesisID 1 (.deliver 4 16) = some (.block (fourNodes.extension 3 2 4)) ∧
      Streamlet.votingRuleReads (w.nodes 1).notarizedChain (fourNodes.extension 3 2 4) =
        .error .index ∧
      ((w.step fourNodes .streamlet genesisID ⟨1, .deliver 4 16, 8⟩).nodes 1).crashed = true) ∧
    (let w := StreamletWorld.after fourNodes .streamlet genesisID (fourNodes.threeProposals ++
      [⟨1, .deliver 2 12, 8⟩, ⟨1, .deliver 3 12, 8⟩, ⟨1, .deliver 2 4, 8⟩])
    (w.nodes 1).crashed = false ∧
      (w.nodes 1).notarizedChain = [[fourNodes.extension 2 1 4]] ∧
      Streamlet.searchReads (w.nodes 1).notarizedChain genesisID 3 0 = .error .index ∧
      ((w.step fourNodes .streamlet genesisID ⟨1, .deliver 3 4, 8⟩).nodes 1).crashed = true) := by
  decide +kernel

namespace Streamlet

/-- In every state of every run the levels are not empty, and `forkChoice` and `commitRule`
read the chain in range. `votingRule` does so exactly for a block of view 1 or 2 or with a
chain that is not empty. The search for a parent does so exactly if it finds the parent or
the chain has three levels, and `updateNotarizedChain` if it need not search or its search
does. -/
theorem notarizedChain_reads (env : Env) (alg : Notarizer) (id : NodeID) (isByz : Bool)
    (inputs : List (Input × ℕ)) :
    let s := (new env id isByz).run env alg inputs
    (∀ level ∈ s.notarizedChain, level ≠ []) ∧
    (∀ genesis, ∃ r, s.forkChoiceReads alg genesis = .ok r) ∧
    (∃ r, commitRuleReads s.notarizedChain = .ok r) ∧
    (∀ block, (∃ r, votingRuleReads s.notarizedChain block = .ok r) ↔
      block.view ≤ 2 ∨ s.notarizedChain ≠ []) ∧
    (∀ prevID, (∃ r, searchReads s.notarizedChain prevID (s.notarizedChain.length + 2)
        (s.notarizedChain.length - 1) = .ok r) ↔
      3 ≤ s.notarizedChain.length ∨ ∃ level ∈ s.notarizedChain, ∃ p ∈ level, p.id = prevID) ∧
    (∀ qc, (∃ r t, updateNotarizedChain qc s = .ok r t) ↔
      ∀ block, s.bc.forrest.getVertex qc.blockID = some block →
        s.notarizedChain = [] ∨ 3 ≤ s.notarizedChain.length ∨
          ∃ level ∈ s.notarizedChain, ∃ p ∈ level, p.id = block.prevID) := by
  intro s
  have hgrown : Grown s.notarizedChain := grown_run env alg inputs Grown.nil
  refine ⟨fun level hl => ?_, fun genesis => ?_, ⟨_, commitRuleReads_eq _⟩, fun block => ?_,
    fun prevID => ?_, fun qc => updateNotarizedChain_ok_iff qc s⟩
  · obtain ⟨b, rfl⟩ := hgrown.singleton hl
    simp
  · obtain ⟨prevID, hprevID⟩ := hgrown.forkChoice_ok genesis
    exact forkChoiceReads_ok alg hprevID
  · rw [votingRuleReads_eq]
    exact votingRule_ok_iff s.notarizedChain block
  · have hiff := findParent_ok_iff s.notarizedChain prevID s.notarizedChain.length le_rfl
    rwa [List.take_length, ← searchReads_eq prevID le_rfl le_rfl] at hiff

end Streamlet

end Bamboo
