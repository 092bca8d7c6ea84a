import Bamboo.Crypto
import Bamboo.Forest

/-!
# Votes and the block chain of a replica

`Quorum` counts votes by the voter's id as it is written in the vote, and turns
them into a certificate at `2 * ByzNo + 1` of them. `BlockChain` combines it
with the forest; committing a block walks its stored ancestors down to the
lowest retained level and then prunes the forest below the committed view.
-/
namespace Bamboo

/-! ## Quorum -/

/-- The signature may panic when the voter's own id has no key. -/
def makeVote (env : Env) (view : View) (voter : NodeID) (id : Identifier) : Except Fault Vote := do
  return ⟨view, voter, id, ← privSign env id voter⟩

theorem makeVote_ok {env : Env} {view : View} {voter : NodeID} {id : Identifier} {v : Vote}
    (h : makeVote env view voter id = .ok v) :
    v.view = view ∧ v.voter = voter ∧ v.blockID = id ∧
      Verifies env v.signature v.blockID v.voter := by
  unfold makeVote at h
  cases hs : privSign env id voter with
  | error f => rw [hs] at h; cases h
  | ok sig =>
    rw [hs] at h
    cases h
    exact ⟨rfl, rfl, rfl, verifies_privSign hs⟩

structure Quorum where
  total : ℕ
  votes : Map Identifier (Map NodeID Vote)

namespace Quorum

def new (total : ℕ) : Quorum := ⟨total, ∅⟩

/-- The votes recorded for a block, in the order the map stores them. -/
def votesFor (q : Quorum) (blockID : Identifier) : List Vote :=
  ((q.votes.lookup blockID).getD ∅).entries.map Sigma.snd

def size (q : Quorum) (blockID : Identifier) : ℕ := (q.votesFor blockID).length

def superMajority (env : Env) (q : Quorum) (blockID : Identifier) : Bool :=
  decide (env.byzNo * 2 + 1 ≤ q.size blockID)

def record (q : Quorum) (vote : Vote) : Quorum :=
  let voters : Map NodeID Vote := (q.votes.lookup vote.blockID).getD ∅
  { q with votes := q.votes.insert vote.blockID (voters.insert vote.voter vote) }

/-- The certificate made of the recorded votes; its view is that of the vote
which completed it. -/
def makeQC (env : Env) (q : Quorum) (vote : Vote) : QC :=
  let votes := env.order (q.votesFor vote.blockID)
  { leader := "", view := vote.view, blockID := vote.blockID,
    signers := votes.map Vote.voter, aggSig := votes.map Vote.signature, signature := [] }

def add (env : Env) (q : Quorum) (vote : Vote) : Option QC × Quorum :=
  if q.superMajority env vote.blockID then (none, q)
  else
    let q := q.record vote
    if q.superMajority env vote.blockID then (some (q.makeQC env vote), q) else (none, q)

/-! ### Recorded votes -/

/-- The vote recorded for a block under a voter's name. -/
def Recorded (q : Quorum) (blockID : Identifier) (voter : NodeID) (vote : Vote) : Prop :=
  ∃ voters, q.votes.lookup blockID = some voters ∧ voters.lookup voter = some vote

/-- Votes are filed under their own block and voter, and only `good` ones are kept. -/
def Filed (good : Vote → Prop) (q : Quorum) : Prop :=
  ∀ blockID voter vote, q.Recorded blockID voter vote →
    vote.blockID = blockID ∧ vote.voter = voter ∧ good vote

variable {good : Vote → Prop} {q : Quorum}

theorem filed_new (total : ℕ) : (new total).Filed good := by
  rintro blockID voter vote ⟨voters, h, -⟩
  simp [new] at h

theorem Filed.mono {good' : Vote → Prop} (h : ∀ vote, good vote → good' vote) (hq : q.Filed good) :
    q.Filed good' :=
  fun _ _ _ hr => ⟨(hq _ _ _ hr).1, (hq _ _ _ hr).2.1, h _ (hq _ _ _ hr).2.2⟩

theorem recorded_record {vote v : Vote} {blockID : Identifier} {voter : NodeID}
    (h : (q.record vote).Recorded blockID voter v) :
    (blockID = vote.blockID ∧ voter = vote.voter ∧ v = vote) ∨ q.Recorded blockID voter v := by
  obtain ⟨voters, hv, hl⟩ := h
  unfold record at hv
  by_cases hid : blockID = vote.blockID
  · subst hid
    rw [AList.lookup_insert] at hv
    cases hv
    by_cases hvoter : voter = vote.voter
    · subst hvoter
      rw [AList.lookup_insert] at hl
      exact Or.inl ⟨rfl, rfl, (Option.some.inj hl).symm⟩
    · rw [AList.lookup_insert_ne hvoter] at hl
      cases hold : q.votes.lookup vote.blockID with
      | none => simp [hold] at hl
      | some old => exact Or.inr ⟨old, hold, by simpa [hold] using hl⟩
  · rw [AList.lookup_insert_ne hid] at hv
    exact Or.inr ⟨voters, hv, hl⟩

theorem Filed.record {vote : Vote} (hq : q.Filed good) (hv : good vote) :
    (q.record vote).Filed good := by
  intro blockID voter v hr
  rcases recorded_record hr with ⟨rfl, rfl, rfl⟩ | hold
  · exact ⟨rfl, rfl, hv⟩
  · exact hq _ _ _ hold

theorem add_eq (env : Env) (q : Quorum) (vote : Vote) :
    q.add env vote =
      if q.superMajority env vote.blockID then (none, q)
      else if (q.record vote).superMajority env vote.blockID then
        (some ((q.record vote).makeQC env vote), q.record vote)
      else (none, q.record vote) :=
  rfl

theorem Filed.add {env : Env} {vote : Vote} (hq : q.Filed good) (hv : good vote) :
    (q.add env vote).2.Filed good := by
  rw [add_eq]
  split_ifs
  · exact hq
  · exact hq.record hv
  · exact hq.record hv

theorem Filed.erase (hq : q.Filed good) (id : Identifier) :
    Filed good { q with votes := q.votes.erase id } := by
  rintro blockID voter vote ⟨voters, hv, hl⟩
  exact hq _ _ _ ⟨voters, lookup_of_lookup_erase hv, hl⟩

theorem mem_votesFor {blockID : Identifier} {vote : Vote} (h : vote ∈ q.votesFor blockID) :
    ∃ voter, q.Recorded blockID voter vote := by
  unfold votesFor at h
  obtain ⟨⟨voter, v⟩, hmem, rfl⟩ := List.mem_map.mp h
  cases hold : q.votes.lookup blockID with
  | none => simp [hold] at hmem
  | some voters =>
    rw [hold] at hmem
    exact ⟨voter, voters, hold, AList.mem_lookup_iff.mpr hmem⟩

/-- A block's voters are distinct as strings. -/
theorem Filed.nodup_voters (hq : q.Filed good) (blockID : Identifier) :
    ((q.votesFor blockID).map Vote.voter).Nodup := by
  unfold votesFor
  cases hold : q.votes.lookup blockID with
  | none => simp
  | some voters =>
    have hkeys : (voters.entries.map Sigma.snd).map Vote.voter = voters.keys := by
      rw [List.map_map, AList.keys, List.keys]
      refine List.map_congr_left fun e he => ?_
      exact (hq blockID e.1 e.2 ⟨voters, hold, AList.mem_lookup_iff.mpr he⟩).2.1
    rw [Option.getD_some, hkeys]
    exact voters.keys_nodup

/-- A certificate is made of votes for its block by distinct voters, as many as
the threshold asks for. Its view is the view of the last vote. -/
structure Certificate (env : Env) (good : Vote → Prop) (qc : QC) (votes : List Vote) : Prop where
  signers : qc.signers = votes.map Vote.voter
  aggSig : qc.aggSig = votes.map Vote.signature
  nodup : (votes.map Vote.voter).Nodup
  size : env.byzNo * 2 + 1 ≤ votes.length
  vote : ∀ v ∈ votes, v.blockID = qc.blockID ∧ good v

theorem Filed.certificate {env : Env} {q' : Quorum} {vote : Vote} {qc : QC} (hq : q.Filed good)
    (hv : good vote) (h : q.add env vote = (some qc, q')) :
    qc.view = vote.view ∧ qc.blockID = vote.blockID ∧ ∃ votes, Certificate env good qc votes := by
  rw [add_eq] at h
  split_ifs at h with hfull hsize
  · cases h
  · cases h
    have hq' := hq.record hv
    have hperm := env.order_perm ((q.record vote).votesFor vote.blockID)
    refine ⟨rfl, rfl, env.order ((q.record vote).votesFor vote.blockID), rfl, rfl, ?_, ?_, ?_⟩
    · exact (hperm.map Vote.voter).nodup_iff.mpr (hq'.nodup_voters _)
    · rw [hperm.length_eq]
      exact of_decide_eq_true hsize
    · intro v hmem
      obtain ⟨voter, hr⟩ := mem_votesFor (hperm.mem_iff.mp hmem)
      exact ⟨(hq' _ _ _ hr).1, (hq' _ _ _ hr).2.2⟩
  · cases h

end Quorum

/-! ## BlockChain -/

structure BlockChain where
  forrest : LevelledForest
  quorum : Quorum
  highestComitted : View
  committedBlockNo : ℕ
  totalBlockIntervals : Int64
  prunedBlockNo : ℕ

namespace BlockChain

def new (n : ℕ) : BlockChain := ⟨LevelledForest.new, Quorum.new n, 0, 0, 0, 0⟩

def addBlock (bc : BlockChain) (b : Block) : Except Fault BlockChain := do
  return { bc with forrest := ← bc.forrest.addVertex b }

def addVote (env : Env) (bc : BlockChain) (vote : Vote) : Option QC × BlockChain :=
  let (qc, q) := bc.quorum.add env vote
  (qc, { bc with quorum := q })

def getBlockByID (bc : BlockChain) (id : Identifier) : Except Err Block :=
  match bc.forrest.getVertex id with
  | none => .error (.blockMissing id)
  | some b => .ok b

def getParentBlock (bc : BlockChain) (id : Identifier) : Except Fault (Except Err Block) :=
  match bc.forrest.getVertex id with
  | none => .ok (.error (.blockMissing id))
  | some v => do
    let (parentID, _) ← v.parent
    match bc.forrest.getVertex parentID with
    | none => return .error (.parentMissing parentID)
    | some p => return .ok p

/-- The loop of `CommitBlock`: the block and its stored ancestors above the
lowest level, newest first. Only an endless loop visits more blocks than there
are vertices. -/
def committedPath (f : LevelledForest) : ℕ → Block → Except Fault (List Block)
  | 0, _ => .error .spin
  | fuel + 1, block =>
    if f.lowestLevel < block.level then
      match f.getVertex block.prevID with
      | none => .ok [block]
      | some parent => do return block :: (← committedPath f fuel parent)
    else .ok []

/-- What the same loop does to the vote store and to the counters. -/
def countCommitted (view : View) (bc : BlockChain) (block : Block) : BlockChain :=
  { bc with
    quorum := { bc.quorum with votes := bc.quorum.votes.erase block.id }
    committedBlockNo := bc.committedBlockNo + 1
    totalBlockIntervals := bc.totalBlockIntervals + (view - block.view) }

/-- `CommitBlock`, returning the committed and the forked blocks. -/
def commitBlock (bc : BlockChain) (id : Identifier) (view : View) :
    Except Fault (Except Err (List Block × List Block) × BlockChain) :=
  match bc.forrest.getVertex id with
  | none => .ok (.error (.cannotFind id), bc)
  | some block => do
    let committed ← committedPath bc.forrest (bc.forrest.vertices.entries.length + 1) block
    let bc := committed.foldl (countCommitted view) { bc with highestComitted := block.view }
    match ← bc.forrest.pruneUpToLevel block.level with
    | (.error e, f) => return (.error (.cannotPrune e), { bc with forrest := f })
    | (.ok (forked, prunedNo), f) =>
      return (.ok (committed, forked),
        { bc with forrest := f, prunedBlockNo := bc.prunedBlockNo + prunedNo })

/-! ### Lookups and commits -/

theorem getBlockByID_ok {bc : BlockChain} {id : Identifier} {b : Block} :
    bc.getBlockByID id = .ok b ↔ bc.forrest.getVertex id = some b := by
  unfold getBlockByID
  cases bc.forrest.getVertex id <;> simp

/-- The parent of a stored block, stored as well. -/
theorem getParentBlock_ok {bc : BlockChain} {id : Identifier} {p : Block}
    (h : bc.getParentBlock id = .ok (.ok p)) :
    ∃ b, bc.forrest.getVertex id = some b ∧ bc.forrest.getVertex b.prevID = some p := by
  unfold getParentBlock at h
  cases hb : bc.forrest.getVertex id with
  | none => rw [hb] at h; cases h
  | some b =>
    refine ⟨b, rfl, ?_⟩
    cases hqc : b.qc with
    | none => simp [hb, Block.parent, hqc, bind, Except.bind] at h
    | some qc =>
      simp only [hb, Block.parent, hqc, bind, Except.bind] at h
      cases hp : bc.forrest.getVertex b.prevID with
      | none => rw [hp] at h; cases h
      | some p' => rw [hp] at h; cases h; rfl

theorem getParentBlock_of_stored {bc : BlockChain} {id : Identifier} {b p : Block} {qc : QC}
    (hb : bc.forrest.getVertex id = some b) (hqc : b.qc = some qc)
    (hp : bc.forrest.getVertex b.prevID = some p) : bc.getParentBlock id = .ok (.ok p) := by
  simp [getParentBlock, hb, Block.parent, hqc, bind, Except.bind, hp, pure, Except.pure]

theorem addBlock_ok {bc bc' : BlockChain} {b : Block} (h : bc.addBlock b = .ok bc') :
    ∃ f, bc.forrest.addVertex b = .ok f ∧ bc' = { bc with forrest := f } := by
  unfold addBlock at h
  cases hf : bc.forrest.addVertex b with
  | error e => rw [hf] at h; cases h
  | ok f => rw [hf] at h; cases h; exact ⟨f, rfl, rfl⟩

/-- `p` is the stored parent of `b`. -/
def StoredParent (f : LevelledForest) (b p : Block) : Prop := f.getVertex b.prevID = some p

/-- One turn of the walk. -/
theorem committedPath_ok {f : LevelledForest} {fuel : ℕ} {block : Block} {path : List Block}
    (h : committedPath f (fuel + 1) block = .ok path) :
    (¬ f.lowestLevel < block.level ∧ path = []) ∨
      (f.lowestLevel < block.level ∧ ∃ rest, path = block :: rest ∧
        ((f.getVertex block.prevID = none ∧ rest = []) ∨
          ∃ p, f.getVertex block.prevID = some p ∧ committedPath f fuel p = .ok rest)) := by
  unfold committedPath at h
  split_ifs at h with hl
  · refine Or.inr ⟨hl, ?_⟩
    cases hp : f.getVertex block.prevID with
    | none =>
      rw [hp] at h
      cases h
      exact ⟨[], rfl, Or.inl ⟨rfl, rfl⟩⟩
    | some p =>
      simp only [hp, bind, Except.bind] at h
      cases hrest : committedPath f fuel p with
      | error e => rw [hrest] at h; cases h
      | ok rest =>
        rw [hrest] at h
        cases h
        exact ⟨rest, rfl, Or.inr ⟨p, rfl, hrest⟩⟩
  · cases h
    exact Or.inl ⟨hl, rfl⟩

/-- The walk starts at the block, if it is above the lowest level, and goes from
each block to its stored parent. -/
theorem committedPath_isChain {f : LevelledForest} {fuel : ℕ} {block : Block} {path : List Block}
    (h : committedPath f fuel block = .ok path) :
    path = [] ∨ ∃ rest, path = block :: rest ∧ (block :: rest).IsChain (StoredParent f) := by
  induction fuel generalizing block path with
  | zero => cases h
  | succ fuel ih =>
    rcases committedPath_ok h with ⟨-, rfl⟩ | ⟨-, rest, rfl, ⟨-, rfl⟩ | ⟨p, hp, hrest⟩⟩
    · exact Or.inl rfl
    · exact Or.inr ⟨[], rfl, List.isChain_singleton _⟩
    · refine Or.inr ⟨rest, rfl, ?_⟩
      rcases ih hrest with rfl | ⟨rest', rfl, hchain⟩
      · exact List.isChain_singleton _
      · exact List.isChain_cons_cons.mpr ⟨hp, hchain⟩

theorem countCommitted_forrest (view : View) (bc : BlockChain) (path : List Block) :
    (path.foldl (countCommitted view) bc).forrest = bc.forrest := by
  induction path generalizing bc with
  | nil => rfl
  | cons b path ih => exact ih (countCommitted view bc b)

theorem countCommitted_filed {good : Vote → Prop} (view : View) {bc : BlockChain}
    (h : bc.quorum.Filed good) (path : List Block) :
    (path.foldl (countCommitted view) bc).quorum.Filed good := by
  induction path generalizing bc with
  | nil => exact h
  | cons b path ih => exact ih (h.erase b.id)

/-- The state in which a commit that returns leaves a block chain. -/
theorem commitBlock_done {bc bc' : BlockChain} {id : Identifier} {view : View}
    {r : Except Err (List Block × List Block)} (h : bc.commitBlock id view = .ok (r, bc')) :
    (bc.forrest.getVertex id = none ∧ r = .error (.cannotFind id) ∧ bc' = bc) ∨
      ∃ block path res, bc.forrest.getVertex id = some block ∧
        committedPath bc.forrest (bc.forrest.vertices.entries.length + 1) block = .ok path ∧
        bc.forrest.pruneUpToLevel block.level = .ok (res, bc'.forrest) ∧
        ((∃ e, res = .error e ∧ r = .error (.cannotPrune e) ∧
            bc' = { path.foldl (countCommitted view) { bc with highestComitted := block.view } with
              forrest := bc'.forrest }) ∨
          ∃ forked prunedNo, res = .ok (forked, prunedNo) ∧ r = .ok (path, forked) ∧
            bc' = { path.foldl (countCommitted view) { bc with highestComitted := block.view } with
              forrest := bc'.forrest
              prunedBlockNo := (path.foldl (countCommitted view)
                { bc with highestComitted := block.view }).prunedBlockNo + prunedNo }) := by
  unfold commitBlock at h
  cases hb : bc.forrest.getVertex id with
  | none =>
    rw [hb] at h
    cases h
    exact Or.inl ⟨rfl, rfl, rfl⟩
  | some block =>
    simp only [hb, bind, Except.bind] at h
    cases hpath : committedPath bc.forrest (bc.forrest.vertices.entries.length + 1) block with
    | error e => rw [hpath] at h; cases h
    | ok path =>
      simp only [hpath, countCommitted_forrest] at h
      cases hprune : bc.forrest.pruneUpToLevel block.level with
      | error e => rw [hprune] at h; cases h
      | ok r' =>
        obtain ⟨res, f⟩ := r'
        rw [hprune] at h
        refine Or.inr ⟨block, path, res, rfl, hpath, ?_⟩
        cases res with
        | error e =>
          cases h
          exact ⟨hprune, Or.inl ⟨e, rfl, rfl, rfl⟩⟩
        | ok res =>
          cases h
          exact ⟨hprune, Or.inr ⟨res.1, res.2, rfl, rfl, rfl⟩⟩

/-- What a commit that returns has done: nothing for an unknown id, and otherwise
the walk from the block and the pruning up to its level. -/
theorem commitBlock_ok {bc bc' : BlockChain} {id : Identifier} {view : View}
    {r : Except Err (List Block × List Block)} (h : bc.commitBlock id view = .ok (r, bc')) :
    (bc.forrest.getVertex id = none ∧ r = .error (.cannotFind id) ∧ bc' = bc) ∨
      ∃ block path res, bc.forrest.getVertex id = some block ∧
        committedPath bc.forrest (bc.forrest.vertices.entries.length + 1) block = .ok path ∧
        bc.forrest.pruneUpToLevel block.level = .ok (res, bc'.forrest) ∧
        bc'.quorum = (path.foldl (countCommitted view)
          { bc with highestComitted := block.view }).quorum ∧
        ((∃ e, res = .error e ∧ r = .error (.cannotPrune e)) ∨
          ∃ forked prunedNo, res = .ok (forked, prunedNo) ∧ r = .ok (path, forked)) := by
  rcases commitBlock_done h with hnone | ⟨block, path, res, hb, hpath, hprune, hr⟩
  · exact Or.inl hnone
  · refine Or.inr ⟨block, path, res, hb, hpath, hprune, ?_⟩
    rcases hr with ⟨e, hres, hr, hbc⟩ | ⟨forked, prunedNo, hres, hr, hbc⟩
    · exact ⟨by rw [hbc], Or.inl ⟨e, hres, hr⟩⟩
    · exact ⟨by rw [hbc], Or.inr ⟨forked, prunedNo, hres, hr⟩⟩

/-- Whether it succeeds or not, a commit only forgets blocks and votes. -/
theorem commitBlock_forgets {bc bc' : BlockChain} {id : Identifier} {view : View}
    {r : Except Err (List Block × List Block)} (h : bc.commitBlock id view = .ok (r, bc')) :
    LevelledForest.Forgets bc.forrest bc'.forrest ∧
      ∀ good, bc.quorum.Filed good → bc'.quorum.Filed good := by
  rcases commitBlock_ok h with ⟨-, -, rfl⟩ | ⟨block, path, res, -, -, hprune, hq, -⟩
  · exact ⟨LevelledForest.Forgets.refl _, fun _ hg => hg⟩
  · refine ⟨LevelledForest.pruneUpToLevel_forgets hprune, fun good hg => ?_⟩
    rw [hq]
    exact @countCommitted_filed good view { bc with highestComitted := block.view } hg path

/-- The delivered blocks are the walk from the block of that id. -/
theorem commitBlock_path {bc bc' : BlockChain} {id : Identifier} {view : View}
    {committed forked : List Block}
    (h : bc.commitBlock id view = .ok (.ok (committed, forked), bc')) :
    ∃ block, bc.forrest.getVertex id = some block ∧
      committedPath bc.forrest (bc.forrest.vertices.entries.length + 1) block = .ok committed := by
  rcases commitBlock_ok h with ⟨-, hr, -⟩ | ⟨block, path, res, hb, hpath, -, -, hr⟩
  · cases hr
  · rcases hr with ⟨e, -, hr⟩ | ⟨forked', prunedNo, -, hr⟩
    · cases hr
    · cases hr
      exact ⟨block, hb, hpath⟩

/-- A commit either fails and leaves the forest alone, or raises the lowest level
to that of the block. -/
theorem commitBlock_lowestLevel {bc bc' : BlockChain} {id : Identifier} {view : View}
    {r : Except Err (List Block × List Block)} (h : bc.commitBlock id view = .ok (r, bc')) :
    ((∃ e, r = .error e) ∧ bc'.forrest = bc.forrest) ∨
      ((∃ blocks, r = .ok blocks) ∧ ∃ block, bc.forrest.getVertex id = some block ∧
        bc.forrest.lowestLevel ≤ block.level ∧ bc'.forrest.lowestLevel = block.level) := by
  rcases commitBlock_ok h with ⟨-, rfl, rfl⟩ | ⟨block, path, res, hb, -, hprune, -, hr⟩
  · exact Or.inl ⟨⟨_, rfl⟩, rfl⟩
  · rcases LevelledForest.pruneUpToLevel_lowestLevel hprune with
      ⟨⟨e, rfl⟩, hf⟩ | ⟨⟨pruned, rfl⟩, hle, hlow⟩
    · rcases hr with ⟨e', -, rfl⟩ | ⟨forked, prunedNo, hres, -⟩
      · exact Or.inl ⟨⟨_, rfl⟩, hf⟩
      · cases hres
    · rcases hr with ⟨e', hres, -⟩ | ⟨forked, prunedNo, -, rfl⟩
      · cases hres
      · exact Or.inr ⟨⟨_, rfl⟩, block, hb, hle, hlow⟩

end BlockChain

/-- `MakeBlock`: the id is the hash of the contents, signed by the proposer. -/
def makeBlock (env : Env) (view : View) (qc : QC) (prevID : Identifier)
    (payload : List Transaction) (proposer : NodeID) (mali : Bool) (forkNum height : ℤ) :
    Except Fault Block := do
  let raw : RawBlock := ⟨view, some qc, proposer, payload.map Transaction.id, prevID⟩
  let id := env.crypto.makeID raw
  return ⟨view, some qc, proposer, payload, prevID, ← privSign env id proposer, id,
    mali, forkNum, height⟩

theorem makeBlock_ok {env : Env} {view : View} {qc : QC} {prevID : Identifier}
    {payload : List Transaction} {proposer : NodeID} {mali : Bool} {forkNum height : ℤ}
    {b : Block} (h : makeBlock env view qc prevID payload proposer mali forkNum height = .ok b) :
    b.view = view ∧ b.qc = some qc ∧ b.prevID = prevID ∧ b.proposer = proposer ∧
      b.id = env.crypto.makeID b.raw ∧ privSign env b.id proposer = .ok b.sig := by
  unfold makeBlock at h
  simp only [bind, Except.bind] at h
  split at h
  · cases h
  · rename_i sig hsig
    cases h
    exact ⟨rfl, rfl, rfl, rfl, rfl, hsig⟩

end Bamboo
