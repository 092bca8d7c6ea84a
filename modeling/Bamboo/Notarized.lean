import Bamboo.Library.Stepwise
import Bamboo.Network
import Bamboo.Streamlet

/-!
# The notarized chain of Streamlet and Lbft

`updateNotarizedChain` looks for the parent of a notarized block in all levels
but appends the block above the last one. The levels are linked by parent ids as
long as no two notarized blocks have the same parent, and `commitRule`, which
reads views only, then names the middle of three blocks that extend each other.
A fork among the notarized blocks breaks both.
-/
namespace Bamboo

namespace Streamlet

open Stepwise

/-- Each block of a level extends a block of the level below. -/
def Linked (chain : List (List Block)) : Prop :=
  chain.IsChain fun lower upper => ∀ b ∈ upper, ∃ p ∈ lower, b.prevID = p.id

instance (chain : List (List Block)) : Decidable (Linked chain) :=
  inferInstanceAs (Decidable (chain.IsChain _))

/-- No two notarized blocks have the same parent. -/
def Forkless (chain : List (List Block)) : Prop :=
  chain.flatten.Pairwise fun a b => a.prevID ≠ b.prevID

instance (chain : List (List Block)) : Decidable (Forkless chain) :=
  inferInstanceAs (Decidable (chain.flatten.Pairwise _))

/-! ## What the handlers do to the chain -/

/-- A block may be notarized first, or if its parent is somewhere in the chain. -/
def Attached (chain : List (List Block)) (b : Block) : Prop :=
  chain = [] ∨ ∃ level ∈ chain, ∃ p ∈ level, p.id = b.prevID

inductive Growth : Streamlet → Streamlet → Prop
  | other (s s' : Streamlet) (chain : s'.notarizedChain = s.notarizedChain) : Growth s s'
  | notarize (s : Streamlet) (b : Block) (parent : Attached s.notarizedChain b) :
      Growth s (s.notarize b)

theorem findParent_true {chain : List (List Block)} {prevID : Identifier} {i : ℕ}
    (h : findParent chain prevID i = .ok true) : ∃ level ∈ chain, ∃ p ∈ level, p.id = prevID := by
  induction i with
  | zero =>
    unfold findParent at h
    split_ifs at h
    cases h
  | succ i ih =>
    unfold findParent at h
    split_ifs at h with hany
    · obtain ⟨p, hp, hid⟩ := List.any_eq_true.mp hany
      refine ⟨chain.getD i [], ?_, p, hp, of_decide_eq_true hid⟩
      rw [List.getD_eq_getElem?_getD] at hp ⊢
      cases hl : chain[i]? with
      | none => simp [hl] at hp
      | some level => exact List.mem_of_getElem? hl
    · exact ih h

section Handlers

variable {env : Env} {alg : Notarizer} {P : Streamlet → Prop}

/-- A handler that only grows the chain, whatever it starts from. -/
def Grows {α : Type} (m : Exec α) : Prop :=
  Leads Growth (fun _ => True) m fun _ _ => True

theorem leads_call {α : Type} {R : Streamlet → Streamlet → Prop} (e : Except Fault α) :
    Leads R P (call e) fun a s => P s ∧ e = .ok a := by
  cases e with
  | ok a => exact Leads.pure fun s hs => ⟨hs, rfl⟩
  | error f => exact Leads.throw

theorem Grows.bind {α β : Type} {m : Exec α} {f : α → Exec β} (hm : Grows m)
    (hf : ∀ a, Grows (f a)) : Grows (m >>= f) :=
  Leads.bind hm hf

theorem Grows.call {α : Type} (e : Except Fault α) : Grows (call e) :=
  (leads_call e).post fun _ _ _ => trivial

theorem Grows.done {α : Type} (a : α) : Grows (pure a : Exec α) :=
  Leads.done

theorem Grows.ite {α : Type} {c : Prop} [Decidable c] {m m' : Exec α} (hm : Grows m)
    (hm' : Grows m') : Grows (if c then m else m') :=
  Leads.ite (fun _ => hm) fun _ => hm'

theorem Grows.modify {f : Streamlet → Streamlet}
    (chain : ∀ s, (f s).notarizedChain = s.notarizedChain) : Grows (modify f : Exec Unit) :=
  Leads.of_modify_step fun s _ => .other s _ (chain s)

/-- After a read, a state with the same chain may be written back. -/
theorem Grows.get_bind {α : Type} {f : Streamlet → Exec α}
    (h : ∀ s, Leads Growth (fun t => t = s) (f s) fun _ _ => True) : Grows (get >>= f) :=
  Leads.get_bind fun s _ => h s

theorem Grows.from {α : Type} {m : Exec α} (h : Grows m) :
    Leads Growth P m fun _ _ => True :=
  h.pre fun _ _ => trivial

theorem leads_set {s s' : Streamlet} (chain : s'.notarizedChain = s.notarizedChain) :
    Leads Growth (fun t => t = s) (set s' : Exec Unit) fun _ _ => True :=
  Leads.of_set_step fun t ht => by subst ht; exact .other t s' chain

@[simp] theorem pushAll_notarizedChain (s : Streamlet) (nodes : List ℕ) (m : Msg) :
    (s.pushAll nodes m).notarizedChain = s.notarizedChain := by
  induction nodes generalizing s with
  | nil => rfl
  | cons i nodes ih => exact ih _

theorem grows_pushAll (nodes : List ℕ) (m : Msg) :
    Grows (modify fun s => s.pushAll nodes m : Exec Unit) :=
  Grows.modify (by simp)

theorem grows_sendAll (m : Msg) : Grows (sendAll env alg m) := by
  cases alg with
  | streamlet => exact grows_pushAll _ m
  | lbft => exact Grows.modify fun _ => rfl

theorem grows_spread (m : Msg) (isVote : Bool) : Grows (spread env alg m isVote) := by
  unfold spread
  refine Grows.get_bind fun s => Grows.from (Grows.ite ?_ (grows_sendAll m))
  refine Grows.get_bind fun s => Grows.from (Grows.ite (grows_pushAll _ m) ?_)
  exact Grows.ite (grows_pushAll _ m) (grows_pushAll _ m)

theorem grows_echo {id : Identifier} {broadcast : Exec Unit} (h : Grows broadcast) :
    Grows (echo id broadcast) := by
  unfold echo
  refine Grows.get_bind fun s => Grows.from (Grows.ite (Grows.done _) ?_)
  exact Grows.bind (Grows.modify fun _ => rfl) fun _ => h

/-- The only handler that appends to the chain. -/
theorem grows_updateNotarizedChain (qc : QC) : Grows (updateNotarizedChain qc) := by
  unfold updateNotarizedChain
  refine Grows.get_bind fun s => ?_
  cases s.bc.getBlockByID qc.blockID with
  | error e => exact Leads.done
  | ok block =>
    have happend : Attached s.notarizedChain block →
        Leads Growth (fun t => t = s) (set (s.notarize block) : Exec Unit) fun _ _ => True :=
      fun hat => Leads.of_set_step fun t ht => by subst ht; exact .notarize t block hat
    refine Leads.ite (fun hempty => ?_) fun _ => ?_
    · exact Leads.bind (happend (Or.inl (List.length_eq_zero_iff.mp hempty))) fun _ => Leads.done
    · refine Leads.bind (leads_call _) fun found => Leads.assume fun hfound => ?_
      refine Leads.ite (fun htrue => ?_) fun _ => ?_
      · subst htrue
        exact Leads.bind (happend (Or.inr (findParent_true hfound))) fun _ => Leads.done
      · exact Leads.bind (leads_set rfl) fun _ => Leads.done

section Nested

variable {processBlock : Block → Exec (Option Err)} {processCertificate : QC → Exec Unit}

theorem grows_takeUpBlock (hb : ∀ b, Grows (processBlock b)) (id : Identifier) :
    Grows (takeUpBlock processBlock id) := by
  unfold takeUpBlock
  refine Grows.get_bind fun s => Grows.from ?_
  cases s.bufferedBlocks.lookup id with
  | none => exact Grows.done _
  | some b => exact (hb b).bind fun _ => Grows.modify fun _ => rfl

theorem grows_takeUpNotarized (hc : ∀ qc, Grows (processCertificate qc)) (id : Identifier) :
    Grows (takeUpNotarized processCertificate id) := by
  unfold takeUpNotarized
  refine Grows.get_bind fun s => Grows.from ?_
  cases s.bufferedNotarizedBlock.lookup id with
  | none => exact Grows.done _
  | some qc => exact (hc qc).bind fun _ => Grows.modify fun _ => rfl

theorem grows_checkCommit (hb : ∀ b, Grows (processBlock b))
    (hc : ∀ qc, Grows (processCertificate qc)) (qc : QC) :
    Grows (checkCommit processBlock processCertificate qc) := by
  unfold checkCommit
  refine Grows.ite (Grows.done _) (Grows.get_bind fun s => ?_)
  cases commitRule s.notarizedChain with
  | none => exact Leads.done
  | some block =>
    refine Leads.bind (leads_call _) fun r => Leads.assume fun _ => ?_
    obtain ⟨res, bc⟩ := r
    cases res with
    | error e => exact leads_set rfl
    | ok res =>
      refine Leads.bind (leads_set rfl) fun _ => ?_
      exact (grows_takeUpBlock hb qc.blockID).bind fun _ => grows_takeUpNotarized hc qc.blockID

theorem grows_certify (hb : ∀ b, Grows (processBlock b))
    (hc : ∀ qc, Grows (processCertificate qc)) (qc : QC) :
    Grows (certify env alg processBlock processCertificate qc) := by
  unfold certify
  refine Grows.get_bind fun s => Leads.ite (fun _ => Leads.done) fun _ => ?_
  refine Leads.ite (fun _ => leads_set rfl) fun _ => Grows.from ?_
  refine (Grows.call _).bind fun verified => Grows.ite ?_ (Grows.done _)
  refine (grows_updateNotarizedChain qc).bind fun r => ?_
  cases r with
  | error e => exact Grows.done _
  | ok _ =>
    refine Grows.bind ?_ fun _ => grows_checkCommit hb hc qc
    exact Grows.modify fun _ => rfl

theorem grows_processVote (hc : ∀ qc, Grows (processCertificate qc)) (vote : Vote) :
    Grows (processVote env alg processCertificate vote) := by
  unfold processVote
  refine Grows.get_bind fun s => Grows.from ?_
  refine (Grows.call _).bind fun verified => Grows.ite ?_ (Grows.done _)
  refine (grows_echo (grows_sendAll _)).bind fun _ => Grows.get_bind fun s => ?_
  obtain ⟨r, bc⟩ := s.bc.addVote env vote
  cases r with
  | none => exact leads_set rfl
  | some qc => exact Leads.bind (leads_set rfl) fun _ => hc qc

theorem grows_takeUpNextQC (hc : ∀ qc, Grows (processCertificate qc)) (id : Identifier) :
    Grows (takeUpNextQC processCertificate id) := by
  unfold takeUpNextQC
  refine Grows.get_bind fun s => Grows.from ?_
  cases s.bufferedQCs.lookup id with
  | none => exact Grows.done _
  | some qc => exact hc qc

theorem grows_takeUpNextBlock (hb : ∀ b, Grows (processBlock b)) (id : Identifier) :
    Grows (takeUpNextBlock processBlock id) := by
  unfold takeUpNextBlock
  refine Grows.get_bind fun s => Grows.from ?_
  cases s.bufferedBlocks.lookup id with
  | none => exact Grows.done _
  | some b => exact (hb b).bind fun _ => Grows.done _

theorem grows_checkSignature (block : Block) : Grows (checkSignature env block) :=
  Grows.get_bind fun _ => Grows.from
    (Grows.ite ((Grows.call _).bind fun _ => Grows.done _) (Grows.done _))

theorem grows_castVote (hc : ∀ qc, Grows (processCertificate qc)) (block : Block) :
    Grows (castVote env alg processCertificate block) := by
  unfold castVote
  refine Grows.get_bind fun s => Grows.from ((Grows.call _).bind fun vote => ?_)
  exact (grows_processVote hc vote).bind fun _ => grows_spread _ _

theorem grows_accept (hb : ∀ b, Grows (processBlock b))
    (hc : ∀ qc, Grows (processCertificate qc)) (block : Block) :
    Grows (accept env alg processBlock processCertificate block) := by
  unfold accept
  refine (grows_checkSignature block).bind fun _ => ?_
  refine (grows_echo (grows_spread _ _)).bind fun _ => Grows.get_bind fun s => ?_
  refine Leads.bind (leads_call _) fun bc => Leads.assume fun _ => ?_
  refine Leads.bind (leads_set rfl) fun _ => (Grows.call _).bind fun ok => ?_
  refine Grows.ite ?_ (Grows.modify fun _ => rfl)
  refine (grows_castVote hc block).bind fun _ => ?_
  exact (grows_takeUpNextQC hc block.id).bind fun _ => grows_takeUpNextBlock hb block.id

theorem grows_screen (hb : ∀ b, Grows (processBlock b))
    (hc : ∀ qc, Grows (processCertificate qc)) (block : Block) :
    Grows (screen env alg processBlock processCertificate block) := by
  unfold screen
  refine Grows.get_bind fun s => Leads.ite (fun _ => Leads.done) fun _ => ?_
  refine Leads.ite (fun _ => Leads.done) fun _ => ?_
  refine Leads.ite (fun _ => Leads.bind (leads_set rfl) fun _ => Leads.done) fun _ => ?_
  refine Leads.ite (fun _ => Leads.done) fun _ => Grows.from ?_
  exact (grows_accept hb hc block).bind fun _ => Grows.done _

end Nested

theorem grows_handlers (fuel : ℕ) : (∀ b, Grows (processBlock env alg fuel b)) ∧
    ∀ qc, Grows (processCertificate env alg fuel qc) := by
  induction fuel with
  | zero => exact ⟨fun _ => Leads.throw, fun _ => Leads.throw⟩
  | succ fuel ih => exact ⟨grows_screen ih.1 ih.2, grows_certify ih.1 ih.2⟩

theorem grows_processRemoteTmo (tmo : TMO) : Grows (processRemoteTmo tmo) := by
  unfold processRemoteTmo
  refine Grows.get_bind fun s => ?_
  obtain ⟨tc, pm⟩ := s.pm.processRemoteTmo tmo
  cases tc with
  | none => exact leads_set rfl
  | some view => exact Leads.ite (fun _ => leads_set rfl) fun _ => leads_set rfl

theorem grows_makeProposal (genesis : Identifier) (view : View) (payload : List Transaction) :
    Grows (makeProposal env alg genesis view payload) := by
  unfold makeProposal
  refine Grows.get_bind fun s => Grows.from (Grows.ite (Grows.done _) ?_)
  exact (Grows.call _).bind fun _ => (Grows.call _).bind fun _ => Grows.done _

theorem grows_handleInput (fuel : ℕ) (i : Input) : Grows (handleInput env alg fuel i) := by
  cases i with
  | block b => exact ((grows_handlers fuel).1 b).bind fun _ => Grows.done _
  | vote v => exact grows_processVote (grows_handlers fuel).2 v
  | tmo t => exact grows_processRemoteTmo t
  | timeout =>
    refine Grows.get_bind fun s => Grows.from (Grows.get_bind fun s => Grows.from ?_)
    refine Grows.bind ?_ fun _ => grows_processRemoteTmo _
    exact Grows.modify fun _ => rfl
  | propose genesis view payload =>
    refine (grows_makeProposal genesis view payload).bind fun r => ?_
    cases r with
    | none => exact Grows.done _
    | some b =>
      refine Grows.bind (Grows.modify fun s => ?_) fun _ =>
        ((grows_handlers fuel).1 b).bind fun _ => Grows.done _
      split_ifs <;> rfl
  | background k =>
    refine Grows.get_bind fun s => ?_
    cases s.pending[k]? with
    | none => exact Leads.done
    | some view => exact leads_set rfl

end Handlers

/-! ## Runs -/

/-- The chains that notarizing block after block leads to. -/
inductive Grown : List (List Block) → Prop
  | nil : Grown []
  | notarize {chain : List (List Block)} {b : Block} (before : Grown chain)
      (parent : Attached chain b) : Grown (chain ++ [[b]])

theorem Growth.grown {s s' : Streamlet} (h : Growth s s') (hs : Grown s.notarizedChain) :
    Grown s'.notarizedChain := by
  cases h with
  | other _ chain => rwa [chain]
  | notarize b parent => exact hs.notarize parent

theorem grown_step (env : Env) (alg : Notarizer) {s : Streamlet} (i : Input × ℕ)
    (hs : Grown s.notarizedChain) : Grown (s.step env alg i).notarizedChain := by
  unfold step
  split_ifs
  · exact hs
  · have hgrows : Grows (handleInput env alg i.2 i.1) := grows_handleInput i.2 i.1
    have hfinal := invariant (fun _ _ h => h.grown) (hgrows.reaches (s := s) trivial) hs
    unfold final at hfinal
    cases hr : handleInput env alg i.2 i.1 s with
    | ok a s' => rwa [hr] at hfinal
    | error e s' => rwa [hr] at hfinal

theorem grown_run (env : Env) (alg : Notarizer) {s : Streamlet} (inputs : List (Input × ℕ))
    (hs : Grown s.notarizedChain) : Grown (s.run env alg inputs).notarizedChain := by
  induction inputs generalizing s with
  | nil => exact hs
  | cons i inputs ih => exact ih (grown_step env alg i hs)

theorem Grown.singleton {chain : List (List Block)} (h : Grown chain) {level : List Block}
    (hl : level ∈ chain) : ∃ b, level = [b] := by
  induction h with
  | nil => cases hl
  | @notarize chain b _ _ ih =>
    rcases List.mem_append.mp hl with hl | hl
    · exact ih hl
    · exact ⟨b, List.mem_singleton.mp hl⟩

/-- In a linked chain of single blocks, each block below the top has a child. -/
theorem Grown.child {chain : List (List Block)} (h : Grown chain) (hlinked : Linked chain)
    {level : List Block} (hl : level ∈ chain) (hlast : level ∉ chain.getLast?) {p : Block}
    (hp : p ∈ level) : ∃ c ∈ chain.flatten, c.prevID = p.id := by
  obtain ⟨lower, upper, rfl⟩ := List.append_of_mem hl
  cases upper with
  | nil => simp at hlast
  | cons next upper =>
    obtain ⟨c, rfl⟩ := h.singleton (show next ∈ lower ++ level :: next :: upper by simp)
    obtain ⟨q, rfl⟩ := h.singleton hl
    have hstep := (List.isChain_append_cons_cons.mp hlinked).2.1
    obtain ⟨q', hq', hid⟩ := hstep c (List.mem_singleton.mpr rfl)
    rw [List.mem_singleton] at hp hq'
    refine ⟨c, ?_, ?_⟩
    · simp
    · rw [hid, hq', hp]

theorem Grown.linked {chain : List (List Block)} (h : Grown chain) (hfork : Forkless chain) :
    Linked chain := by
  induction h with
  | nil => exact List.isChain_nil
  | @notarize chain b before parent ih =>
    unfold Forkless at hfork
    rw [List.flatten_append, List.pairwise_append] at hfork
    have hlinked := ih hfork.1
    refine List.isChain_append.mpr ⟨hlinked, List.isChain_singleton _, ?_⟩
    intro last hlast upper hupper b' hb'
    simp only [List.head?_cons, Option.mem_some_iff] at hupper
    subst hupper
    rw [List.mem_singleton] at hb'
    subst hb'
    rcases parent with hempty | ⟨level, hl, p, hp, hid⟩
    · simp [hempty] at hlast
    by_cases htop : level ∈ chain.getLast?
    · rw [Option.mem_unique hlast htop]
      exact ⟨p, hp, hid.symm⟩
    · obtain ⟨c, hc, hprev⟩ := before.child hlinked hl htop hp
      exact absurd (hprev.trans hid) (hfork.2.2 c hc b' (by simp))

theorem commitRule_some {chain : List (List Block)} {b : Block} (h : commitRule chain = some b) :
    ∃ rest a c, chain = rest ++ [[a], [b], [c]] ∧ a.view + 1 = b.view ∧ b.view + 1 = c.view := by
  unfold commitRule at h
  split at h
  · rename_i c b' a rest hrev
    split_ifs at h with hviews
    cases h
    refine ⟨rest.reverse, a, c, ?_, hviews⟩
    rw [← List.reverse_reverse chain, hrev]
    simp
  · cases h

theorem Linked.commitRule {chain : List (List Block)} (h : Linked chain) {b : Block}
    (hb : commitRule chain = some b) :
    ∃ a c, [a] ∈ chain ∧ [c] ∈ chain ∧ b.prevID = a.id ∧ c.prevID = b.id ∧
      c.view = b.view + 1 ∧ b.view + 1 = a.view + 2 := by
  obtain ⟨rest, a, c, rfl, hab, hbc⟩ := commitRule_some hb
  have htop := (List.isChain_append.mp h).2.1
  simp at htop
  refine ⟨a, c, by simp, by simp, htop.1, htop.2, hbc.symm, ?_⟩
  rw [← hab, Int64.add_assoc]
  rfl

end Streamlet

/-! ## A node that is sent blocks and votes -/

/-- The votes of some nodes for a block. -/
def fourNodes.ballots (b : Block) (nodes : List ℕ) : List (Streamlet.Input × ℕ) :=
  nodes.map fun i =>
    let sig := idealCrypto.sign i b.id
    (.vote ⟨b.view, newNodeID i, b.id, [sig.1, sig.2]⟩, 8)

/-- A block of these protocols: its certificate only names the parent. -/
def fourNodes.extension (view : View) (parent : Identifier) (proposer : ℕ) : Block :=
  fourNodes.block view { QC.initial with blockID := parent } proposer []

/-- A block and the votes of nodes 2, 3 and 4 for it. -/
def fourNodes.notarization (b : Block) : List (Streamlet.Input × ℕ) :=
  (.block b, 8) :: fourNodes.ballots b [2, 3, 4]

/-- Blocks of views 1 to 3; the second extends the first, and the third either
the first or the second. -/
def fourNodes.three (third : Block → Block → Block) : List Block :=
  let first := fourNodes.extension 1 genesisID 4
  let second := fourNodes.extension 2 first.id 4
  [first, second, fourNodes.extension 3 (third first second).id 4]

def fourNodes.notarized (alg : Notarizer) (third : Block → Block → Block) : Streamlet :=
  (Streamlet.new fourNodes (newNodeID 1) false).run fourNodes alg
    ((fourNodes.three third).flatMap fourNodes.notarization)

namespace Streamlet

/-- In every run, as long as no two notarized blocks have the same parent, the
notarized chain is linked and a block that `commitRule` names lies between two
notarized blocks that it extends and that extend it. -/
theorem notarized_linked (env : Env) (alg : Notarizer) (id : NodeID) (isByz : Bool)
    (inputs : List (Input × ℕ))
    (hfork : Forkless ((new env id isByz).run env alg inputs).notarizedChain) :
    Linked ((new env id isByz).run env alg inputs).notarizedChain ∧
      ∀ b, commitRule ((new env id isByz).run env alg inputs).notarizedChain = some b →
        ∃ a c, [a] ∈ ((new env id isByz).run env alg inputs).notarizedChain ∧
          [c] ∈ ((new env id isByz).run env alg inputs).notarizedChain ∧
          b.prevID = a.id ∧ c.prevID = b.id ∧ c.view = b.view + 1 ∧ b.view + 1 = a.view + 2 := by
  have hgrown := grown_run env alg inputs (s := new env id isByz) Grown.nil
  have hlinked := hgrown.linked hfork
  exact ⟨hlinked, fun b hb => hlinked.commitRule hb⟩

theorem notarized_linked_three_blocks :
    Forkless (fourNodes.notarized .streamlet fun _ second => second).notarizedChain ∧
      Linked (fourNodes.notarized .streamlet fun _ second => second).notarizedChain :=
  have h : Forkless (fourNodes.notarized .streamlet fun _ second => second).notarizedChain := by
    decide +kernel
  ⟨h, (notarized_linked fourNodes .streamlet _ false _ h).1⟩

/-- Block 3 extends block 1 beside block 2: both protocols stack it on block 2 and
commit that one, which nothing notarized extends. -/
theorem notarized_fork_commits :
    (¬ Linked (fourNodes.notarized .streamlet fun first _ => first).notarizedChain ∧
      ∃ b ∈ commitRule (fourNodes.notarized .streamlet fun first _ => first).notarizedChain,
        b ∈ (fourNodes.notarized .streamlet fun first _ => first).committedBlocks ∧
        ∀ c ∈ (fourNodes.notarized .streamlet fun first _ => first).notarizedChain.flatten,
          c.prevID ≠ b.id) ∧
    (¬ Linked (fourNodes.notarized .lbft fun first _ => first).notarizedChain ∧
      ∃ b ∈ commitRule (fourNodes.notarized .lbft fun first _ => first).notarizedChain,
        b ∈ (fourNodes.notarized .lbft fun first _ => first).committedBlocks ∧
        ∀ c ∈ (fourNodes.notarized .lbft fun first _ => first).notarizedChain.flatten,
          c.prevID ≠ b.id) := by
  decide +kernel

end Streamlet

end Bamboo
