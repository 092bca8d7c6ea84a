import Bamboo.Crypto
import Bamboo.Streamlet

/-!
# What a Streamlet replica has told the others

`ProcessBlock` and `ProcessVote` share one set of ids that have been passed on:
nothing is ever put into the set for votes. `Story` lists what can have been sent
about a block id then, and `Relay` is the invariant that every id has such a story.
-/
namespace Bamboo

namespace Streamlet

/-! ## Copies -/

def isBlock (b : Block) (m : Msg) : Bool := decide (m = .block b)

def blockOf (id : Identifier) : Msg → Bool
  | .block b => decide (b.id = id)
  | _ => false

def voteBy (voter : NodeID) (id : Identifier) : Msg → Bool
  | .vote v => decide (v.voter = voter ∧ v.blockID = id)
  | _ => false

/-- How many messages of a kind have been sent to node `i`. -/
def sent (q : Msg → Bool) (i : ℕ) (outbox : List Envelope) : ℕ :=
  outbox.countP fun e => decide (e.dest = some (newNodeID i)) && q e.msg

/-- Every node has been sent `k` messages of a kind. -/
def Copies (env : Env) (q : Msg → Bool) (k : ℕ) (outbox : List Envelope) : Prop :=
  ∀ i, 1 ≤ i ∧ i ≤ env.n → sent q i outbox = k

/-- One message for each node. -/
def toEach (n : ℕ) (m : Msg) : List Envelope :=
  (List.range' 1 n).map fun i => ⟨some (newNodeID i), m⟩

theorem sent_append (q : Msg → Bool) (i : ℕ) (xs ys : List Envelope) :
    sent q i (xs ++ ys) = sent q i xs + sent q i ys := List.countP_append

theorem sent_toEach (q : Msg → Bool) {n i : ℕ} (hi : 1 ≤ i ∧ i ≤ n) (m : Msg) :
    sent q i (toEach n m) = if q m then 1 else 0 := by
  simp only [sent, toEach, List.countP_map, Function.comp_def, Option.some.injEq,
    newNodeID_injective.eq_iff]
  cases hq : q m with
  | false => simp
  | true =>
    have hmem : i ∈ List.range' 1 n := List.mem_range'_1.mpr (by omega)
    simpa [List.count, beq_eq_decide] using List.count_eq_one_of_mem List.nodup_range' hmem

section Copies

variable {env : Env} {q q' : Msg → Bool} {k : ℕ} {outbox : List Envelope} {m : Msg}

theorem copies_nil (q : Msg → Bool) : Copies env q 0 [] := fun _ _ => rfl

/-- A message of another kind does not count. -/
theorem Copies.skip (h : Copies env q k outbox) (hm : q m = false) :
    Copies env q k (outbox ++ toEach env.n m) := by
  intro i hi
  rw [sent_append, h i hi, sent_toEach q hi, hm]
  simp

theorem Copies.hit (h : Copies env q k outbox) (hm : q m = true) :
    Copies env q (k + 1) (outbox ++ toEach env.n m) := by
  intro i hi
  rw [sent_append, h i hi, sent_toEach q hi, hm]
  simp

/-- Of a narrower kind there are none either. -/
theorem Copies.none_of_imp (h : Copies env q 0 outbox) (hq : ∀ m, q' m = true → q m = true) :
    Copies env q' 0 outbox := by
  intro i hi
  have hzero := h i hi
  simp only [sent, List.countP_eq_zero, Bool.and_eq_true, not_and] at hzero ⊢
  exact fun e he hdest hq' => hzero e he hdest (hq e.msg hq')

theorem Copies.eq (h : Copies env q k outbox) {k' : ℕ} (h' : Copies env q k' outbox)
    (hn : 1 ≤ env.n) : k = k' :=
  (h 1 ⟨le_rfl, hn⟩).symm.trans (h' 1 ⟨le_rfl, hn⟩)

end Copies

/-! ## What has been told about each id -/

/-- The part of the state that the echoes depend on. -/
structure Gossip where
  me : NodeID
  isByz : Bool
  forest : LevelledForest
  echoed : Map Identifier Unit
  outbox : List Envelope

def gossip (s : Streamlet) : Gossip :=
  ⟨s.id, s.isByz, s.bc.forrest, s.echoedBlock, s.outbox⟩

/-- Nothing has been said about an id, or its block was passed on first, or the vote of
somebody else was. A block in flight has been passed on and is about to be stored. -/
inductive Story (env : Env) (heard : Set Vote) (flight : Option Block) (g : Gossip)
    (id : Identifier) : Prop
  | silent (echoed : g.echoed.lookup id = none) (stored : g.forest.getVertex id = none)
      (blocks : Copies env (blockOf id) 0 g.outbox)
      (votes : ∀ voter, Copies env (voteBy voter id) 0 g.outbox)
  | block (b : Block) (hid : b.id = id) (echoed : (g.echoed.lookup id).isSome)
      (stored : g.forest.getVertex id = some b ∨
        (flight = some b ∧ g.forest.getVertex id = none ∧ ∀ v ∈ heard, v.blockID ≠ id))
      (once : Copies env (isBlock b) 1 g.outbox)
      (votes : ∀ voter, voter ≠ g.me → Copies env (voteBy voter id) 0 g.outbox)
  | vote (v : Vote) (mem : v ∈ heard) (foreign : v.voter ≠ g.me) (hid : v.blockID = id)
      (echoed : (g.echoed.lookup id).isSome) (blocks : Copies env (blockOf id) 0 g.outbox)
      (once : Copies env (voteBy v.voter id) 1 g.outbox)
      (votes : ∀ voter, voter ≠ v.voter → voter ≠ g.me → Copies env (voteBy voter id) 0 g.outbox)

/-- What holds while nothing is committed. The own vote for an id of `due` is still to be
sent. -/
structure Relay (env : Env) (heard : Set Vote) (flight : Option Block) (due : Set Identifier)
    (g : Gossip) : Prop where
  sound : g.forest.Sound
  lowest : g.forest.lowestLevel = 0
  story : ∀ id, Story env heard flight g id
  own : ∀ id, Copies env (voteBy g.me id) 0 g.outbox ∨
    ((g.forest.getVertex id).isSome ∧ Copies env (voteBy g.me id) 1 g.outbox)
  heard : ∀ v ∈ heard, (g.echoed.lookup v.blockID).isSome ∧
    (v.voter = g.me → Copies env (voteBy g.me v.blockID) 1 g.outbox)
  due : ∀ id ∈ due, (g.forest.getVertex id).isSome ∧ Copies env (voteBy g.me id) 0 g.outbox

section Relay

variable {env : Env} {heard : Set Vote} {flight : Option Block} {due : Set Identifier} {g : Gossip}

theorem blockOf_of_isBlock {b : Block} {m : Msg} (h : isBlock b m = true) :
    blockOf b.id m = true := by
  obtain rfl := of_decide_eq_true h
  simp [blockOf]

/-- The first message about an id has been passed on before its block is stored. -/
theorem Relay.echoed_of_stored (h : Relay env heard flight due g) {id : Identifier}
    (hid : (g.forest.getVertex id).isSome) : (g.echoed.lookup id).isSome := by
  cases h.story id with
  | silent _ stored => simp [stored] at hid
  | block _ _ echoed => exact echoed
  | vote _ _ _ _ echoed => exact echoed

theorem Relay.mono {due' : Set Identifier} (h : Relay env heard flight due g) (hdue : due' ⊆ due) :
    Relay env heard flight due' g :=
  { h with due := fun id hid => h.due id (hdue hid) }

/-- A message about another id, or the own vote for an id that has been echoed, does not
change who was first. -/
theorem Story.skip {heard' : Set Vote} {flight' : Option Block} {g' : Gossip} {id : Identifier}
    {m : Msg} (h : Story env heard flight g id) (hheard : heard ⊆ heard')
    (hflight : ∀ b, b.id = id → flight ≠ some b) (hme : g'.me = g.me)
    (hechoed : g'.echoed.lookup id = g.echoed.lookup id)
    (hforest : g'.forest.getVertex id = g.forest.getVertex id)
    (houtbox : g'.outbox = g.outbox ++ toEach env.n m) (hblock : blockOf id m = false)
    (hvote : ∀ voter, voteBy voter id m = true → voter = g.me ∧ (g.echoed.lookup id).isSome) :
    Story env heard' flight' g' id := by
  have hforeign : ∀ voter, voter ≠ g.me → voteBy voter id m = false := by
    intro voter hne
    by_contra htrue
    exact hne (hvote voter (by simpa using htrue)).1
  cases h with
  | silent echoed stored blocks votes =>
    have hnone : ∀ voter, voteBy voter id m = false := by
      intro voter
      by_contra htrue
      have hsome := (hvote voter (by simpa using htrue)).2
      simp [echoed] at hsome
    refine .silent (hechoed ▸ echoed) (hforest ▸ stored) ?_ fun voter => ?_
    · rw [houtbox]
      exact blocks.skip hblock
    · rw [houtbox]
      exact (votes voter).skip (hnone voter)
  | block b hid echoed stored once votes =>
    have hstored : g.forest.getVertex id = some b :=
      stored.resolve_right fun hfly => hflight b hid hfly.1
    refine .block b hid (hechoed ▸ echoed) (Or.inl (hforest ▸ hstored)) ?_ fun voter hne => ?_
    · rw [houtbox]
      apply once.skip
      by_contra htrue
      have hof := blockOf_of_isBlock (by simpa using htrue)
      rw [hid, hblock] at hof
      cases hof
    · rw [houtbox]
      exact (votes voter (hme ▸ hne)).skip (hforeign voter (hme ▸ hne))
  | vote v mem foreign hid echoed blocks once votes =>
    refine .vote v (hheard mem) (hme ▸ foreign) hid (hechoed ▸ echoed) ?_ ?_
      fun voter hne hme' => ?_
    · rw [houtbox]
      exact blocks.skip hblock
    · rw [houtbox]
      exact once.skip (hforeign v.voter foreign)
    · rw [houtbox]
      exact (votes voter hne (hme ▸ hme')).skip (hforeign voter (hme ▸ hme'))

theorem blockOf_block_of_ne {b : Block} {id : Identifier} (h : b.id ≠ id) :
    blockOf id (.block b) = false := by simp [blockOf, h]

theorem voteBy_vote_of_ne {v : Vote} {voter : NodeID} {id : Identifier} (h : v.blockID ≠ id) :
    voteBy voter id (.vote v) = false := by simp [voteBy, h]

/-! ### Steps -/

/-- A message goes to everybody and its id is marked. -/
def Gossip.pass (g : Gossip) (n : ℕ) (id : Identifier) (m : Msg) : Gossip :=
  { g with echoed := g.echoed.insert id (), outbox := g.outbox ++ toEach n m }

theorem lookup_pass_of_ne {n : ℕ} {id id' : Identifier} {m : Msg} (h : id' ≠ id) :
    (g.pass n id m).echoed.lookup id' = g.echoed.lookup id' :=
  AList.lookup_insert_ne h

theorem isSome_lookup_pass {n : ℕ} {id id' : Identifier} {m : Msg}
    (h : (g.echoed.lookup id').isSome) : ((g.pass n id m).echoed.lookup id').isSome := by
  by_cases heq : id' = id
  · subst heq
    simp [Gossip.pass]
  · rwa [lookup_pass_of_ne heq]

/-- The block is the first that is heard of its id. -/
theorem Relay.announce (h : Relay env heard none due g) {b : Block}
    (hstored : g.forest.getVertex b.id = none) (hnew : g.echoed.lookup b.id = none) :
    Relay env heard (some b) due (g.pass env.n b.id (.block b)) := by
  have hvote : ∀ voter id, voteBy voter id (.block b) = false := fun _ _ => rfl
  refine ⟨h.sound, h.lowest, fun id => ?_, fun id => ?_, fun v hv => ?_, fun id hid => ?_⟩
  · by_cases hid : id = b.id
    · subst hid
      have hstory := h.story b.id
      cases hstory with
      | silent echoed stored blocks votes =>
        refine .block b rfl (by simp [Gossip.pass]) (Or.inr ⟨rfl, hstored, ?_⟩) ?_ ?_
        · intro v hv heq
          have hsome := (h.heard v hv).1
          rw [heq, hnew] at hsome
          cases hsome
        · exact (blocks.none_of_imp fun m => blockOf_of_isBlock).hit (by simp [isBlock])
        · exact fun voter _ => (votes voter).skip (hvote voter b.id)
      | block _ _ echoed => simp [hnew] at echoed
      | vote _ _ _ _ echoed => simp [hnew] at echoed
    · refine (h.story id).skip subset_rfl (by simp) rfl (lookup_pass_of_ne hid) rfl rfl
        (blockOf_block_of_ne (Ne.symm hid)) fun voter hv => ?_
      simp [hvote] at hv
  · exact (h.own id).imp (·.skip (hvote _ _)) fun hone => ⟨hone.1, hone.2.skip (hvote _ _)⟩
  · obtain ⟨hechoed, hown⟩ := h.heard v hv
    exact ⟨isSome_lookup_pass hechoed, fun hme => (hown hme).skip (hvote _ _)⟩
  · exact ⟨(h.due id hid).1, (h.due id hid).2.skip (hvote _ _)⟩

/-- The block is stored and the own vote for it is due. -/
theorem Relay.land {b : Block} (h : Relay env heard (some b) due g) {forest : LevelledForest}
    (hstored : g.forest.getVertex b.id = none) (hechoed : (g.echoed.lookup b.id).isSome)
    (hadd : g.forest.addVertex b = .ok forest) :
    Relay env heard none (insert b.id due) { g with forest := forest } := by
  obtain ⟨hsound, hlow, hget⟩ := LevelledForest.addVertex_spec h.sound hadd
  have hnew : forest.getVertex b.id = some b := by
    rw [hget, if_pos]
    exact ⟨rfl, h.lowest ▸ UInt64.not_lt_zero, hstored⟩
  have hold : ∀ id, id ≠ b.id → forest.getVertex id = g.forest.getVertex id := by
    intro id hid
    rw [hget, if_neg]
    exact fun hcond => hid hcond.1
  have hmono : ∀ id, (g.forest.getVertex id).isSome → (forest.getVertex id).isSome := by
    intro id hid
    by_cases heq : id = b.id
    · simp [heq, hnew]
    · rwa [hold id heq]
  have hown : Copies env (voteBy g.me b.id) 0 g.outbox := by
    refine (h.own b.id).resolve_right fun hone => ?_
    simp [hstored] at hone
  refine ⟨hsound, hlow.trans h.lowest, fun id => ?_, fun id => ?_, h.heard, fun id hid => ?_⟩
  · cases h.story id with
    | silent echoed stored blocks votes =>
      have hid : id ≠ b.id := by
        rintro rfl
        simp [echoed] at hechoed
      exact .silent echoed ((hold id hid).trans stored) blocks votes
    | block b' hid echoed stored once votes =>
      refine .block b' hid echoed (Or.inl ?_) once votes
      rcases stored with hkept | ⟨hflight, -, -⟩
      · have hne : id ≠ b.id := by
          rintro rfl
          simp [hstored] at hkept
        exact (hold id hne).trans hkept
      · cases hflight
        rw [← hid]
        exact hnew
    | vote v mem foreign hid echoed blocks once votes =>
      exact .vote v mem foreign hid echoed blocks once votes
  · exact (h.own id).imp_right fun hone => ⟨hmono id hone.1, hone.2⟩
  · rcases Set.mem_insert_iff.mp hid with rfl | hid
    · exact ⟨by simp [hnew], hown⟩
    · exact ⟨hmono id (h.due id hid).1, (h.due id hid).2⟩

theorem Relay.takeOff (h : Relay env heard none due g) (b : Block) :
    Relay env heard (some b) due g := by
  refine { h with story := fun id => ?_ }
  cases h.story id with
  | silent echoed stored blocks votes => exact .silent echoed stored blocks votes
  | block b' hid echoed stored once votes =>
    refine .block b' hid echoed (Or.inl (stored.resolve_right ?_)) once votes
    simp
  | vote v mem foreign hid echoed blocks once votes =>
    exact .vote v mem foreign hid echoed blocks once votes

/-- The own vote that was due is sent. -/
theorem Relay.ballot {id : Identifier} (h : Relay env heard none (insert id due) g) {v : Vote}
    (hvoter : v.voter = g.me) (hid : v.blockID = id) (hdue : id ∉ due) :
    Relay env heard none due { g with outbox := g.outbox ++ toEach env.n (.vote v) } := by
  obtain ⟨hstored, hzero⟩ := h.due id (Set.mem_insert id due)
  have hhit : voteBy g.me id (.vote v) = true := by simp [voteBy, hvoter, hid]
  have hskip : ∀ id', id' ≠ id → ∀ voter, voteBy voter id' (.vote v) = false := fun id' hne _ =>
    voteBy_vote_of_ne fun heq => hne (heq.symm.trans hid)
  have hone : ∀ id', id' = id →
      Copies env (voteBy g.me id') 1 (g.outbox ++ toEach env.n (.vote v)) := by
    rintro id' rfl
    exact hzero.hit hhit
  refine ⟨h.sound, h.lowest, fun id' => ?_, fun id' => ?_, fun w hw => ?_, fun id' hid' => ?_⟩
  · refine (h.story id').skip subset_rfl (by simp) rfl rfl rfl rfl rfl fun voter hv => ?_
    obtain ⟨rfl, rfl⟩ : v.voter = voter ∧ v.blockID = id' := by simpa [voteBy] using hv
    exact ⟨hvoter, h.echoed_of_stored (hid ▸ hstored)⟩
  · by_cases heq : id' = id
    · exact Or.inr ⟨heq ▸ hstored, hone id' heq⟩
    · exact (h.own id').imp (·.skip (hskip id' heq _)) fun hw => ⟨hw.1, hw.2.skip (hskip id' heq _)⟩
  · obtain ⟨hechoed, hown⟩ := h.heard w hw
    refine ⟨hechoed, fun hme => ?_⟩
    by_cases heq : w.blockID = id
    · exact hone _ heq
    · exact (hown hme).skip (hskip _ heq _)
  · have hne : id' ≠ id := by
      rintro rfl
      exact hdue hid'
    obtain ⟨hsome, hnone⟩ := h.due id' (Set.mem_insert_of_mem id hid')
    exact ⟨hsome, hnone.skip (hskip id' hne _)⟩

/-- The vote of somebody else is the first that is heard of its block. -/
theorem Relay.passOn (h : Relay env heard none due g) {v : Vote} (hforeign : v.voter ≠ g.me)
    (hnew : g.echoed.lookup v.blockID = none) :
    Relay env (insert v heard) none due (g.pass env.n v.blockID (.vote v)) := by
  have hown : ∀ id, voteBy g.me id (.vote v) = false := by
    intro id
    simp [voteBy, hforeign]
  refine ⟨h.sound, h.lowest, fun id => ?_, fun id => ?_, fun w hw => ?_, fun id hid => ?_⟩
  · by_cases hid : id = v.blockID
    · subst hid
      have hstory := h.story v.blockID
      cases hstory with
      | silent echoed stored blocks votes =>
        refine .vote v (Set.mem_insert v heard) hforeign rfl (by simp [Gossip.pass])
          (blocks.skip rfl) ((votes v.voter).hit (by simp [voteBy])) fun voter hne _ => ?_
        exact (votes voter).skip (by simp [voteBy, Ne.symm hne])
      | block _ _ echoed => simp [hnew] at echoed
      | vote _ _ _ _ echoed => simp [hnew] at echoed
    · refine (h.story id).skip (Set.subset_insert v heard) (by simp) rfl (lookup_pass_of_ne hid) rfl
        rfl rfl fun voter hv => ?_
      rw [voteBy_vote_of_ne (Ne.symm hid)] at hv
      cases hv
  · exact (h.own id).imp (·.skip (hown id)) fun hone => ⟨hone.1, hone.2.skip (hown id)⟩
  · rcases Set.mem_insert_iff.mp hw with rfl | hw
    · exact ⟨by simp [Gossip.pass], fun hme => absurd hme hforeign⟩
    · obtain ⟨hechoed, hone⟩ := h.heard w hw
      exact ⟨isSome_lookup_pass hechoed, fun hme => (hone hme).skip (hown _)⟩
  · exact ⟨(h.due id hid).1, (h.due id hid).2.skip (hown id)⟩

/-- A vote about an id that has been echoed is only noted. -/
theorem Relay.hear (h : Relay env heard none due g) {v : Vote}
    (hechoed : (g.echoed.lookup v.blockID).isSome)
    (hown : v.voter = g.me → Copies env (voteBy g.me v.blockID) 1 g.outbox) :
    Relay env (insert v heard) none due g := by
  refine { h with story := fun id => ?_, heard := fun w hw => ?_ }
  · cases h.story id with
    | silent echoed stored blocks votes => exact .silent echoed stored blocks votes
    | block b hid echoed stored once votes =>
      refine .block b hid echoed (Or.inl (stored.resolve_right ?_)) once votes
      simp
    | vote w mem foreign hid echoed blocks once votes =>
      exact .vote w (Set.mem_insert_of_mem v mem) foreign hid echoed blocks once votes
  · rcases Set.mem_insert_iff.mp hw with rfl | hw
    · exact ⟨hechoed, hown⟩
    · exact h.heard w hw

end Relay

end Streamlet

end Bamboo
