import Bamboo.EchoHandlers

/-!
# What a Streamlet replica passes on

The first message about a block id is sent to everybody, be it the block or
somebody's vote for it, and no other message about it is, apart from the
replica's own vote.
-/
namespace Bamboo

namespace Streamlet

open Stepwise

/-! ## Runs -/

/-- The votes among the inputs that `ProcessVote` does not reject. -/
def heardOf (env : Env) (me : NodeID) (inputs : List (Input × ℕ)) : Set Vote :=
  {v | (∃ fuel, (Input.vote v, fuel) ∈ inputs) ∧
    (v.voter = me ∨ Verifies env v.signature v.blockID v.voter)}

/-- A block, or a vote; a vote in the replica's own name, which is not verified, only if
the replica has sent its vote for the block. -/
def Deliverable (env : Env) (s : Streamlet) : Input → Prop
  | .block _ => True
  | .vote v => v.voter = s.id →
      ∃ i ∈ List.range' 1 env.n, sent (voteBy s.id v.blockID) i s.outbox ≠ 0
  | _ => False

/-- Deliveries to a replica that runs. -/
def Delivers (env : Env) (s : Streamlet) : List (Input × ℕ) → Prop
  | [] => True
  | i :: inputs => s.crashed = false ∧ Deliverable env s i.1 ∧
      (s.step env .streamlet i).Delivers env inputs

section Runs

variable {env : Env} {me : NodeID} {heard : Set Vote} {due : Set Identifier}

/-- An own vote that has come back. -/
theorem Fine.hearOwn {s : Streamlet} (hs : Fine env me heard due s) {v : Vote}
    (hme : v.voter = me) (hd : Deliverable env s (.vote v)) :
    Fine env me (insert v heard) due (s.echoOnce env v.blockID (.vote v)) := by
  have hown : s.committedBlocks = [] → (s.echoedBlock.lookup v.blockID).isSome ∧
      Copies env (voteBy s.gossip.me v.blockID) 1 s.gossip.outbox := by
    intro hc
    have hrelay := hs.2.2 hc
    obtain ⟨i, hi, hsent⟩ := hd (hme.trans hs.1.symm)
    rw [List.mem_range'_1] at hi
    obtain ⟨hstored, hone⟩ := (hrelay.own v.blockID).resolve_left fun hzero =>
      hsent (hzero i (by omega))
    exact ⟨hrelay.echoed_of_stored hstored, hone⟩
  have hfine := hs.echoOnce (.vote v) fun hc => (hown hc).1
  refine ⟨hfine.1, hfine.2.1, fun hc => ?_⟩
  rw [committedBlocks_echoOnce] at hc
  have hrelay := hfine.2.2 (by simpa using hc)
  rw [gossip_echoOnce, if_pos (hown hc).1] at hrelay ⊢
  exact hrelay.hear (hown hc).1 fun _ => (hown hc).2

theorem echoOnce_echoOnce (s : Streamlet) (id : Identifier) (m : Msg) :
    (s.echoOnce env id m).echoOnce env id m = s.echoOnce env id m := by
  have hsome : ((s.echoOnce env id m).echoedBlock.lookup id).isSome := by
    unfold echoOnce
    split_ifs with h
    · exact h
    · simp
  rw [echoOnce, if_pos hsome]

theorem bind_run {α β : Type} {m : Exec α} {a : α} {s t : Streamlet} (h : m s = .ok a t)
    (f : α → Exec β) : (m >>= f) s = f a t := by
  change EStateM.bind m f s = _
  rw [EStateM.bind, h]

/-- A vote that passes the check is echoed before anything can fail. -/
theorem processVote_echoOnce {processCertificate : QC → Exec Unit} {vote : Vote} {s : Streamlet}
    (h : vote.voter = s.id ∨ Verifies env vote.signature vote.blockID vote.voter) :
    processVote env .streamlet processCertificate vote s =
      processVote env .streamlet processCertificate vote
        (s.echoOnce env vote.blockID (.vote vote)) := by
  have hcheck : ∀ t : Streamlet, t.id = s.id → (if vote.voter ≠ t.id then
      pubVerify env vote.signature vote.blockID vote.voter else .ok true) = .ok true := by
    intro t ht
    split_ifs with hne
    · rw [ht] at hne
      exact h.resolve_left hne
    · rfl
  have hecho : ∀ t : Streamlet, echo vote.blockID (sendAll env .streamlet (.vote vote)) t =
      .ok () (t.echoOnce env vote.blockID (.vote vote)) := fun t =>
    echo_run fun u _ => sendAll_run (.vote vote) u
  unfold processVote
  rw [get_bind_run, get_bind_run, hcheck s rfl, hcheck _ (id_echoOnce s _ _), call_ok_bind_run,
    call_ok_bind_run, if_pos rfl, bind_run (hecho s), bind_run (hecho _), echoOnce_echoOnce]

theorem heardOf_append (me : NodeID) (xs ys : List (Input × ℕ)) :
    heardOf env me (xs ++ ys) = heardOf env me xs ∪ heardOf env me ys := by
  ext v
  simp only [heardOf, List.mem_append, exists_or, Set.mem_ofPred_eq, Set.mem_union, or_and_right]

theorem heardOf_vote {v : Vote} (fuel : ℕ) :
    heardOf env me [(.vote v, fuel)] =
      {w | w = v ∧ (v.voter = me ∨ Verifies env v.signature v.blockID v.voter)} := by
  ext w
  simp only [heardOf, List.mem_singleton, Prod.mk.injEq, Input.vote.injEq, Set.mem_ofPred_eq]
  constructor
  · rintro ⟨⟨_, rfl, -⟩, h⟩
    exact ⟨rfl, h⟩
  · rintro ⟨rfl, h⟩
    exact ⟨⟨fuel, rfl, rfl⟩, h⟩

/-- One input: where the run of the handler goes through a state in which the input has
been taken note of. -/
theorem exists_noted {s : Streamlet} (hs : Fine env me heard due s) {i : Input × ℕ}
    (hd : Deliverable env s i.1) :
    ∃ t, handleInput env .streamlet i.2 i.1 s = handleInput env .streamlet i.2 i.1 t ∧
      Fine env me (heard ∪ heardOf env me [i]) due t ∧
      Leads (Passes env me (heard ∪ heardOf env me [i])) (fun u => u = t)
        (handleInput env .streamlet i.2 i.1) fun _ =>
        Fine env me (heard ∪ heardOf env me [i]) due := by
  obtain ⟨input, fuel⟩ := i
  cases input with
  | block b =>
    have hnone : heard ∪ heardOf env me [(.block b, fuel)] = heard := by
      simp [heardOf]
    rw [hnone]
    refine ⟨s, rfl, hs, Leads.at_start ?_ hs⟩
    exact ((relays_handlers fuel).1 b).bind (fun _ => Relays.done _) due
  | vote v =>
    by_cases hv : v.voter = s.id ∨ Verifies env v.signature v.blockID v.voter
    · have hinsert : heard ∪ heardOf env me [(.vote v, fuel)] = insert v heard := by
        rw [heardOf_vote, ← hs.1]
        ext w
        simp [hv]
      rw [hinsert]
      have ht : Fine env me (insert v heard) due (s.echoOnce env v.blockID (.vote v)) := by
        by_cases hme : v.voter = me
        · exact hs.hearOwn hme hd
        · exact hs.echoVote hme
      refine ⟨_, processVote_echoOnce hv, ht, ?_⟩
      refine leads_processVote (relays_handlers fuel).2 (fun u hu _ => ?_) fun u hu hnot => ?_
      · rw [hu]
        refine ht.echoOnce _ fun hc => ?_
        exact ((ht.2.2 hc).heard v (Set.mem_insert v heard)).1
      · rw [hu, id_echoOnce] at hnot
        exact absurd hv hnot
    · have hnone : heard ∪ heardOf env me [(.vote v, fuel)] = heard := by
        rw [heardOf_vote, ← hs.1]
        simp [hv]
      rw [hnone]
      refine ⟨s, rfl, hs, ?_⟩
      refine leads_processVote (relays_handlers fuel).2 (fun u hu hyes => ?_) fun u hu _ => hu ▸ hs
      exact absurd (hu ▸ hyes) hv
  | tmo t => exact hd.elim
  | timeout => exact hd.elim
  | propose genesis view payload => exact hd.elim
  | background k => exact hd.elim

theorem step_told {s : Streamlet} (hs : Fine env me heard due s) (hrun : s.crashed = false)
    {i : Input × ℕ} (hd : Deliverable env s i.1) :
    Told env me (heard ∪ heardOf env me [i]) (s.step env .streamlet i) ∧
      ((s.step env .streamlet i).crashed = false →
        Fine env me (heard ∪ heardOf env me [i]) due (s.step env .streamlet i)) := by
  obtain ⟨t, heq, ht, hleads⟩ := exists_noted hs hd
  have hresult := hleads t rfl
  have htold : ∀ u, Relation.ReflTransGen (Passes env me (heard ∪ heardOf env me [i])) t u →
      Told env me (heard ∪ heardOf env me [i]) u := fun u h =>
    invariant (fun _ _ hpass _ => hpass.2) h ht.told
  unfold step
  rw [hrun, if_neg (by simp), heq]
  cases hr : handleInput env .streamlet i.2 i.1 t with
  | ok a u =>
    rw [hr] at hresult
    exact ⟨htold u hresult.1, fun _ => hresult.2⟩
  | error e u =>
    rw [hr] at hresult
    exact ⟨htold u hresult, fun hc => by cases hc⟩

theorem run_told {inputs : List (Input × ℕ)} {s : Streamlet} (hs : Fine env me heard due s)
    (hd : Delivers env s inputs) :
    Told env me (heard ∪ heardOf env me inputs) (s.run env .streamlet inputs) := by
  induction inputs generalizing s heard with
  | nil =>
    have hnone : heard ∪ heardOf env me [] = heard := by simp [heardOf]
    rw [hnone]
    exact hs.told
  | cons i inputs ih =>
    obtain ⟨hrun, hi, hrest⟩ := hd
    obtain ⟨htold, hfine⟩ := step_told hs hrun hi
    have hsplit : heard ∪ heardOf env me (i :: inputs) =
        heard ∪ heardOf env me [i] ∪ heardOf env me inputs := by
      rw [Set.union_assoc, ← heardOf_append]
      rfl
    rw [hsplit]
    cases inputs with
    | nil =>
      have hnone : heardOf env me ([] : List (Input × ℕ)) = ∅ := by simp [heardOf]
      rw [hnone, Set.union_empty]
      exact htold
    | cons j inputs => exact ih (hfine hrest.1) hrest

theorem fine_new (env : Env) (me : NodeID) : Fine env me ∅ ∅ (new env me false) := by
  refine ⟨rfl, rfl, fun _ => ⟨LevelledForest.sound_new, rfl, fun id => ?_, fun id => ?_, ?_, ?_⟩⟩
  · exact .silent rfl rfl (copies_nil _) fun voter => copies_nil _
  · exact Or.inl (copies_nil _)
  · simp
  · simp

end Runs

/-! ## Once -/

/-- Each stored block and each vote that was not rejected has been sent once to each node. -/
structure EchoesOnce (env : Env) (heard : Set Vote) (s : Streamlet) : Prop where
  blocks : ∀ id b, s.bc.forrest.getVertex id = some b → Copies env (isBlock b) 1 s.outbox
  votes : ∀ v ∈ heard, Copies env (voteBy v.voter v.blockID) 1 s.outbox

section Once

variable {env : Env} {heard : Set Vote} {flight : Option Block} {due : Set Identifier}
  {s : Streamlet}

/-- Of two messages about an id only one is passed on. -/
theorem Relay.first_of_echoesOnce (h : Relay env heard flight due s.gossip) (hn : 1 ≤ env.n)
    (honce : EchoesOnce env heard s) {v : Vote} (hv : v ∈ heard) (hforeign : v.voter ≠ s.id) :
    s.bc.forrest.getVertex v.blockID = none ∧
      ∀ w ∈ heard, w.voter ≠ s.id → w.blockID = v.blockID → w.voter = v.voter := by
  have hvotes := honce.votes v hv
  cases h.story v.blockID with
  | silent echoed stored blocks votes =>
    have habsurd := hvotes.eq (votes v.voter) hn
    omega
  | block b hid echoed stored once votes =>
    have habsurd := hvotes.eq (votes v.voter hforeign) hn
    omega
  | vote u mem foreign hid echoed blocks once votes =>
    have hfirst : ∀ w ∈ heard, w.voter ≠ s.id → w.blockID = v.blockID → w.voter = u.voter := by
      intro w hw hwforeign hwid
      by_contra hne
      have hone := honce.votes w hw
      rw [hwid] at hone
      have habsurd := hone.eq (votes w.voter hne hwforeign) hn
      omega
    refine ⟨?_, fun w hw hwforeign hwid => ?_⟩
    · rw [Option.eq_none_iff_forall_ne_some]
      intro b hb
      have hbid : b.id = v.blockID := h.sound.id_of_getVertex hb
      have hzero : Copies env (isBlock b) 0 s.outbox :=
        blocks.none_of_imp fun m hm => hbid ▸ blockOf_of_isBlock hm
      have habsurd := (honce.blocks v.blockID b hb).eq hzero hn
      omega
    · exact (hfirst w hw hwforeign hwid).trans (hfirst v hv hforeign rfl).symm

theorem Relay.block_once (h : Relay env heard flight due s.gossip) {id : Identifier} {b : Block}
    (hb : s.bc.forrest.getVertex id = some b)
    (hnone : ∀ v ∈ heard, v.voter ≠ s.id → v.blockID ≠ id) :
    Copies env (isBlock b) 1 s.outbox := by
  have hb' : s.gossip.forest.getVertex id = some b := hb
  cases h.story id with
  | silent echoed stored blocks votes => simp [stored] at hb'
  | block c hid echoed stored once votes =>
    rcases stored with hsame | ⟨-, hgone, -⟩
    · obtain rfl : c = b := Option.some.inj (hsame.symm.trans hb)
      exact once
    · simp [hgone] at hb'
  | vote u mem foreign hid echoed blocks once votes => exact absurd hid (hnone u mem foreign)

theorem Relay.vote_once (h : Relay env heard flight due s.gossip) {v : Vote} (hv : v ∈ heard)
    (hfirst : v.voter ≠ s.id → s.bc.forrest.getVertex v.blockID = none ∧
      ∀ w ∈ heard, w.voter ≠ s.id → w.blockID = v.blockID → w.voter = v.voter) :
    Copies env (voteBy v.voter v.blockID) 1 s.outbox := by
  obtain ⟨hechoed, hown⟩ := h.heard v hv
  by_cases hme : v.voter = s.id
  · rw [hme]
    exact hown hme
  · obtain ⟨hnone, hsame⟩ := hfirst hme
    cases h.story v.blockID with
    | silent echoed stored blocks votes => simp [echoed] at hechoed
    | block b hid echoed stored once votes =>
      rcases stored with hstored | ⟨-, -, hunheard⟩
      · cases hnone.symm.trans hstored
      · exact absurd rfl (hunheard v hv)
    | vote u mem foreign hid echoed blocks once votes =>
      rw [← hsame u mem foreign hid]
      exact once

theorem Relay.echoesOnce_iff (h : Relay env heard flight due s.gossip)
    (hvalid : ∀ v ∈ heard, v.voter = s.id ∨ Verifies env v.signature v.blockID v.voter) :
    EchoesOnce env heard s ↔ ∀ v ∈ heard, v.voter ≠ s.id →
      s.bc.forrest.getVertex v.blockID = none ∧
        ∀ w ∈ heard, w.voter ≠ s.id → w.blockID = v.blockID → w.voter = v.voter := by
  constructor
  · intro honce v hv hforeign
    have hrange := ((hvalid v hv).resolve_left hforeign).range
    exact h.first_of_echoesOnce (by omega) honce hv hforeign
  · intro hfirst
    refine ⟨fun id b hb => h.block_once hb fun v hv hforeign hid => ?_,
      fun v hv => h.vote_once hv (hfirst v hv)⟩
    have hnone := (hfirst v hv hforeign).1
    rw [hid, hb] at hnone
    cases hnone

end Once

end Streamlet

/-- While a correct replica of Streamlet commits nothing, it passes each block that it stores
and each vote that it accepts on exactly once if and only if no other replica's vote for a
block that is stored arrives, and no votes of two other replicas for the same block. -/
theorem streamlet_echoes_once_iff {env : Env} {id : NodeID}
    {inputs : List (Streamlet.Input × ℕ)}
    (hdelivers : (Streamlet.new env id false).Delivers env inputs)
    (hcommit : ((Streamlet.new env id false).run env .streamlet inputs).committedBlocks = []) :
    Streamlet.EchoesOnce env (Streamlet.heardOf env id inputs)
        ((Streamlet.new env id false).run env .streamlet inputs) ↔
      ∀ v ∈ Streamlet.heardOf env id inputs, v.voter ≠ id →
        ((Streamlet.new env id false).run env .streamlet inputs).bc.forrest.getVertex v.blockID =
          none ∧
        ∀ w ∈ Streamlet.heardOf env id inputs, w.voter ≠ id → w.blockID = v.blockID →
          w.voter = v.voter := by
  have htold := Streamlet.run_told (Streamlet.fine_new env id) hdelivers
  rw [Set.empty_union] at htold
  obtain ⟨hid, hrelay⟩ := htold
  obtain ⟨flight, hrelay⟩ := hrelay hcommit
  have hiff := hrelay.echoesOnce_iff fun v hv => hid.symm ▸ hv.2
  rw [hid] at hiff
  exact hiff

/-- Node 1 after some deliveries. -/
def fourNodes.hears (inputs : List (Streamlet.Input × ℕ)) : Streamlet :=
  (Streamlet.new fourNodes (newNodeID 1) false).run fourNodes .streamlet inputs

/-- The block of the first view, then the replica's own vote for it. -/
def fourNodes.ownVoteBack : List (Streamlet.Input × ℕ) :=
  (.block (fourNodes.chain 0), 8) :: fourNodes.ballots (fourNodes.chain 0) [1]

theorem streamlet_echoes_own_vote :
    Streamlet.EchoesOnce fourNodes
      (Streamlet.heardOf fourNodes (newNodeID 1) fourNodes.ownVoteBack)
      (fourNodes.hears fourNodes.ownVoteBack) := by
  have hdelivers : (Streamlet.new fourNodes (newNodeID 1) false).Delivers fourNodes
      fourNodes.ownVoteBack := by
    refine ⟨rfl, trivial, by decide +kernel, fun _ => ⟨1, by decide, ?_⟩, trivial⟩
    decide +kernel
  have hcommit : (fourNodes.hears fourNodes.ownVoteBack).committedBlocks = [] := by
    decide +kernel
  refine (streamlet_echoes_once_iff hdelivers hcommit).mpr ?_
  rintro v ⟨⟨fuel, hv⟩, -⟩ hforeign
  have hown : ∀ i ∈ fourNodes.ownVoteBack, ∀ v, i.1 = .vote v → v.voter = newNodeID 1 := by
    simp [fourNodes.ownVoteBack, fourNodes.ballots]
  exact absurd (hown _ hv v rfl) hforeign

/-- The block of the first view, then the vote of node 2 for it. -/
def fourNodes.blockFirst : List (Streamlet.Input × ℕ) :=
  (.block (fourNodes.chain 0), 8) :: fourNodes.ballots (fourNodes.chain 0) [2]

/-- The votes of nodes 2 and 3 for the block of the first view, then the block. -/
def fourNodes.votesFirst : List (Streamlet.Input × ℕ) :=
  fourNodes.ballots (fourNodes.chain 0) [2, 3] ++ [(.block (fourNodes.chain 0), 8)]

/-- The signatures of nodes 2 and 3 are good. Behind the block the vote of node 2 is not
passed on. Behind the vote of node 2 neither the vote of node 3 is, nor the block, which is
stored all the same. -/
theorem streamlet_echoes_dropped :
    (∀ i ∈ [2, 3], Verifies fourNodes [(idealCrypto.sign i (fourNodes.chain 0).id).1,
      (idealCrypto.sign i (fourNodes.chain 0).id).2] (fourNodes.chain 0).id (newNodeID i)) ∧
    ((fourNodes.hears fourNodes.blockFirst).crashed = false ∧
      (fourNodes.hears fourNodes.blockFirst).committedBlocks = [] ∧
      Streamlet.sent (Streamlet.voteBy (newNodeID 2) (fourNodes.chain 0).id) 3
        (fourNodes.hears fourNodes.blockFirst).outbox = 0) ∧
    ((fourNodes.hears fourNodes.votesFirst).crashed = false ∧
      (fourNodes.hears fourNodes.votesFirst).committedBlocks = [] ∧
      (fourNodes.hears fourNodes.votesFirst).bc.forrest.getVertex (fourNodes.chain 0).id =
        some (fourNodes.chain 0) ∧
      Streamlet.sent (Streamlet.isBlock (fourNodes.chain 0)) 3
        (fourNodes.hears fourNodes.votesFirst).outbox = 0 ∧
      Streamlet.sent (Streamlet.voteBy (newNodeID 3) (fourNodes.chain 0).id) 4
        (fourNodes.hears fourNodes.votesFirst).outbox = 0) := by
  refine ⟨by decide +kernel, ⟨?_, ?_, ?_⟩, ?_, ?_, ?_, ?_, ?_⟩ <;> decide +kernel

end Bamboo
