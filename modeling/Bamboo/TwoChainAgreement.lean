import Bamboo.Honest

/-!
# Agreement of the two-chain protocols

Tchs and Fhs commit a block when its child is certified in the next view. That is
safe as long as whoever voted for the child afterwards votes only for blocks
whose certificate is at least as high as the child's own. Neither protocol makes
sure of it, so it is what the theorem asks of the blocks that are taken up.
-/
namespace Bamboo

open Relation Stepwise

/-- Proposed blocks with one id agree in what is hashed, and none has the id of
the genesis block. -/
structure CollisionFree (env : Env) (w : World) : Prop where
  inj : ∀ e ∈ w.events env, ∀ b ∈ e.proposed, ∀ e' ∈ w.events env, ∀ b' ∈ e'.proposed,
    b.id = b'.id → b.raw = b'.raw
  genesis : ∀ e ∈ w.events env, ∀ b ∈ e.proposed, b.id ≠ genesisID

/-- A block that was voted for may be followed by another one: they are the same,
or the later one is of a larger view and its certificate not of a lower one. -/
def Follows (b' b : Block) : Prop :=
  b'.id = b.id ∨ (b'.view < b.view ∧ ∃ q' ∈ b'.qc, ∃ q ∈ b.qc, q'.view ≤ q.view)

/-- Every block that is taken up has a certificate of a lower view, and may
follow all blocks the replica has voted for. -/
def TakesUpInOrder (trace : List Event) : Prop :=
  AtEach (fun e past => ∀ b ∈ e.handled, (∃ q ∈ b.qc, q.view < b.view) ∧
    ∀ e' ∈ past, ∀ b' ∈ e'.voted, Follows b' b) trace

/-- What the two-chain commit rule has looked at when it names a block. -/
theorem twoChain_commitRule_some {bc : BlockChain} {qc : QC} {g : Block}
    (h : TwoChain.commitRule bc qc = .ok (.ok (some g))) :
    ∃ p, bc.forrest.getVertex qc.blockID = some p ∧ bc.forrest.getVertex p.prevID = some g ∧
      g.view + 1 = qc.view := by
  unfold TwoChain.commitRule at h
  cases hp : bc.getParentBlock qc.blockID with
  | error f => rw [hp] at h; cases h
  | ok r =>
    cases r with
    | error e => rw [hp] at h; cases h
    | ok g' =>
      simp only [hp, bind, Except.bind] at h
      split_ifs at h with hview
      · cases h
        obtain ⟨p, hstored, hparent⟩ := BlockChain.getParentBlock_ok hp
        exact ⟨p, hstored, hparent, hview⟩
      · cases h

namespace World

variable {env : Env} {alg : Algorithm} {w : World}

/-! ## What ids stand for -/

/-- What is circulating was proposed, up to what the network drops. -/
theorem Circulates.proposed {b : Block} (h : w.Circulates env b) :
    ∃ e ∈ w.events env, ∃ b₀ ∈ e.proposed, b.id = b₀.id ∧ b.raw = b₀.raw := by
  obtain ⟨i, core, b₀, he, hb⟩ := h
  refine ⟨_, mem_events.mpr ⟨i, he⟩, b₀, rfl, ?_⟩
  rcases hb with rfl | hb
  · exact ⟨rfl, rfl⟩
  · cases hb
    exact ⟨rfl, rfl⟩

theorem Circulates.raw_eq (hfree : CollisionFree env w) {b b' : Block} (h : w.Circulates env b)
    (h' : w.Circulates env b') (hid : b.id = b'.id) : b.raw = b'.raw := by
  obtain ⟨e, he, b₀, hb₀, hid₀, hraw₀⟩ := h.proposed
  obtain ⟨e', he', b₁, hb₁, hid₁, hraw₁⟩ := h'.proposed
  rw [hraw₀, hraw₁]
  exact hfree.inj e he b₀ hb₀ e' he' b₁ hb₁ (hid₀.symm.trans (hid.trans hid₁))

theorem Circulates.ne_genesis (hfree : CollisionFree env w) {b : Block} (h : w.Circulates env b) :
    b.id ≠ genesisID := by
  obtain ⟨e, he, b₀, hb₀, hid₀, -⟩ := h.proposed
  rw [hid₀]
  exact hfree.genesis e he b₀ hb₀

/-- The view of the block with this id. -/
noncomputable def viewAt (env : Env) (w : World) (d : Identifier) : ℤ :=
  open Classical in
  if h : ∃ b, w.Circulates env b ∧ b.id = d then h.choose.view.toInt else 0

theorem viewAt_eq (hfree : CollisionFree env w) {b : Block} (h : w.Circulates env b) :
    w.viewAt env b.id = b.view.toInt := by
  have hex : ∃ b', w.Circulates env b' ∧ b'.id = b.id := ⟨b, h, rfl⟩
  obtain ⟨hcirc, hid⟩ := hex.choose_spec
  have hraw := hcirc.raw_eq hfree h hid
  rw [viewAt, dif_pos hex]
  exact congrArg (fun r : RawBlock => r.view.toInt) hraw

/-! ## Certificates and votes -/

/-- The node has voted for the block with this id. -/
def VotedFor (w : World) (i : ℕ) (d : Identifier) : Prop :=
  ∃ e ∈ (w.nodes i).trace, ∃ b ∈ e.voted, b.id = d

/-- A quorum of the nodes has voted for the block with this id. -/
def Certified (env : Env) (w : World) (d : Identifier) : Prop :=
  Chains.Certified (Finset.Icc 1 env.n) ∅ env.byzNo w.VotedFor d

theorem counted_cast {i : ℕ} (hi : 1 ≤ i ∧ i ≤ env.n) {v : Vote}
    (h : Counted env (w.known env) (w.nodes i) v) : ∃ j core b, w.Did env j (.vote core b v) := by
  rcases h.1 with hknown | ⟨core, b, he, -⟩
  · exact hknown
  · exact ⟨i, core, b, hi, he⟩

section

variable (hw : ∀ i, Reachable env alg (w.known env) (newNodeID i) (w.nodes i))
include hw

theorem handled_known {i : ℕ} {core : Core} {b : Block} (h : w.Did env i (.handle core b)) :
    (w.known env).block b := by
  obtain ⟨s, recent, -, -, -, hrec⟩ := (hw i).mem h.2
  exact hrec

/-- A vote is its voter's, for a block that the voter had taken up. -/
theorem vote_cast {i : ℕ} {core : Core} {b : Block} {v : Vote} (h : w.Did env i (.vote core b v)) :
    v.voter = newNodeID i ∧ v.blockID = b.id ∧ v.view = b.view ∧
      ∃ core₀, w.Did env i (.handle core₀ b) := by
  obtain ⟨s, recent, hreach, hsplit, -, ⟨core₀, qc, hguard⟩, hmade⟩ := (hw i).mem h.2
  obtain ⟨hview, hvoter, hid, -⟩ := makeVote_ok hmade
  have hhandle := (suffix_of_split hsplit).subset (inHand_mem hguard.hand)
  exact ⟨hvoter.trans hreach.id_eq, hid, hview, core₀, h.1, hhandle⟩

/-- A certificate other than the initial one stands for votes of a quorum, and
bears the view of the block it is for. -/
theorem Backed.certified {q : QC} (h : w.Backed env q) (hne : q ≠ QC.initial) :
    w.Certified env q.blockID ∧
      ∃ b, (w.known env).block b ∧ b.id = q.blockID ∧ b.view = q.view := by
  obtain ⟨i, core, hi, he⟩ := h.resolve_left hne
  obtain ⟨⟨v, hv, hvid, hvview⟩, votes, hcert⟩ := (hw i).tally.built core q he
  constructor
  · have hnodes : q.signers.toFinset ⊆
        ((Finset.Icc 1 env.n).filter fun j => newNodeID j ∈ q.signers).image newNodeID := by
      intro id hid
      rw [List.mem_toFinset] at hid
      have hid' := hid
      rw [hcert.signers] at hid'
      obtain ⟨u, hu, rfl⟩ := List.mem_map.mp hid'
      obtain ⟨j, core', b, hj⟩ := counted_cast hi (hcert.vote u hu).2
      rw [(vote_cast hw hj).1] at hid ⊢
      apply Finset.mem_image_of_mem
      simp [hj.1, hid]
    refine ⟨(Finset.Icc 1 env.n).filter fun j => newNodeID j ∈ q.signers,
      Finset.filter_subset _ _, ?_, ?_⟩
    · have hcard := (Finset.card_le_card hnodes).trans Finset.card_image_le
      have hlen : q.signers.toFinset.card = votes.length := by
        rw [hcert.signers, List.toFinset_card_of_nodup hcert.nodup, List.length_map]
      have hsize := hcert.size
      omega
    · intro j hj _
      have hmem := (Finset.mem_filter.mp hj).2
      rw [hcert.signers] at hmem
      obtain ⟨u, hu, hvoter⟩ := List.mem_map.mp hmem
      obtain ⟨j', core', b, hj'⟩ := counted_cast hi (hcert.vote u hu).2
      obtain ⟨hname, hid, -, -⟩ := vote_cast hw hj'
      obtain rfl : j' = j := newNodeID_injective (hname.symm.trans hvoter)
      exact ⟨_, hj'.2, b, rfl, hid.symm.trans (hcert.vote u hu).1⟩
  · obtain ⟨j, core', b, hj⟩ := counted_cast hi hv
    obtain ⟨-, hid, hview, core₀, hhandle⟩ := vote_cast hw hj
    exact ⟨b, handled_known hw hhandle, hid.symm.trans hvid, hview.symm.trans hvview⟩

/-! ## Order of votes -/

/-- Of two votes of a node, the later block may follow the earlier one. -/
theorem votes_in_order {i : ℕ} (hcare : TakesUpInOrder (w.nodes i).trace) :
    (w.nodes i).trace.Pairwise fun e e' => ∀ b ∈ e.voted, ∀ b' ∈ e'.voted, Follows b' b := by
  have hvoted : AtEach (fun e past => ∀ b ∈ e.voted, ∀ e' ∈ past, ∀ b' ∈ e'.voted, Follows b' b)
      (w.nodes i).trace := by
    apply (hw i).atEach_voted
    · intro b e hnone _ b' hb'
      rw [hnone] at hb'
      cases hb'
    · refine atEach_iff.mpr fun recent e past hsplit b hb => ?_
      exact (atEach_iff.mp hcare recent e past hsplit b hb).2
  refine AtEach.pairwise (atEach_iff.mpr fun recent e past hsplit e' he' b hb => ?_)
  exact atEach_iff.mp hvoted recent e past hsplit b hb e' he'

/-- Any two blocks a node has voted for are the same or one may follow the other. -/
theorem voted_comparable {i : ℕ} (hcare : TakesUpInOrder (w.nodes i).trace) {e e' : Event}
    (he : e ∈ (w.nodes i).trace) (he' : e' ∈ (w.nodes i).trace) {b b' : Block}
    (hb : b ∈ e.voted) (hb' : b' ∈ e'.voted) : b = b' ∨ Follows b' b ∨ Follows b b' := by
  by_cases heq : e = e'
  · subst heq
    exact Or.inl (Option.some.inj (hb.symm.trans hb'))
  · right
    rcases pairwise_comparable (votes_in_order hw hcare) he he' heq with h | h
    · exact Or.inl (h b hb b' hb')
    · exact Or.inr (h b' hb' b hb)

/-! ## Decided blocks -/

theorem voted_known {i : ℕ} (hi : 1 ≤ i ∧ i ≤ env.n) {e : Event} (he : e ∈ (w.nodes i).trace)
    {b : Block} (hb : b ∈ e.voted) :
    (w.known env).block b ∧ ∃ core, w.Did env i (.handle core b) := by
  cases e with
  | vote core c v =>
    cases hb
    obtain ⟨-, -, -, core₀, hhandle⟩ := vote_cast hw ⟨hi, he⟩
    exact ⟨handled_known hw hhandle, core₀, hhandle⟩
  | _ => cases hb

/-- A circulating block extends the block that its certificate is for. -/
theorem known_certificate {b : Block} (h : (w.known env).block b) :
    ∃ q ∈ b.qc, b.prevID = q.blockID ∧ w.Backed env q := by
  obtain ⟨e, he, b₀, hb₀, -, hraw⟩ := h.1.proposed
  obtain ⟨i, hdid⟩ := mem_events.mp he
  cases e with
  | propose core c =>
    cases hb₀
    obtain ⟨q, hq, hprev, -, -⟩ := (hw i).proposed hdid.2
    have hqc : b.qc = b₀.qc := congrArg RawBlock.qc hraw
    have hparent : b.prevID = b₀.prevID := congrArg RawBlock.prevID hraw
    have hbq : q ∈ b.qc := by rw [hqc]; exact hq
    exact ⟨q, hbq, hparent.trans hprev, h.2 q hbq⟩
  | _ => cases hb₀

/-- A certificate for a circulating block bears its view. -/
theorem Backed.of_block (hfree : CollisionFree env w) {q : QC} {b : Block} (hq : w.Backed env q)
    (hb : w.Circulates env b) (hid : b.id = q.blockID) :
    w.Certified env q.blockID ∧ b.view = q.view := by
  have hne : q ≠ QC.initial := by
    rintro rfl
    exact hb.ne_genesis hfree hid
  obtain ⟨hcert, b', hb', hid', hview'⟩ := hq.certified hw hne
  have hraw := hb.raw_eq hfree hb'.1 (hid.trans hid'.symm)
  have hview : b.view = b'.view := congrArg RawBlock.view hraw
  exact ⟨hcert, hview.trans hview'⟩

variable (hcare : ∀ i, 1 ≤ i ∧ i ≤ env.n → TakesUpInOrder (w.nodes i).trace)
include hcare

theorem onePerView (hfree : CollisionFree env w) :
    Chains.OnePerView (Finset.Icc 1 env.n) ∅ w.VotedFor (w.viewAt env) := by
  rintro i hi - d d' ⟨e, he, b, hb, rfl⟩ ⟨e', he', b', hb', rfl⟩ hview
  rw [Finset.mem_Icc] at hi
  obtain ⟨hknown, -⟩ := voted_known hw hi he hb
  obtain ⟨hknown', -⟩ := voted_known hw hi he' hb'
  rw [viewAt_eq hfree hknown.1, viewAt_eq hfree hknown'.1, Int64.toInt_inj] at hview
  rcases voted_comparable hw (hcare i hi) he he' hb hb' with rfl | hf | hf
  · rfl
  · rcases hf with hid | ⟨hlt, -⟩
    · exact hid.symm
    · rw [hview] at hlt
      exact (Int64.lt_irrefl hlt).elim
  · rcases hf with hid | ⟨hlt, -⟩
    · exact hid
    · rw [hview] at hlt
      exact (Int64.lt_irrefl hlt).elim

/-- Of two blocks a node voted for, the one of the larger view has a certificate
that is not below the other's. -/
theorem certificate_not_below (hfree : CollisionFree env w) {i : ℕ} (hi : 1 ≤ i ∧ i ≤ env.n)
    {e e' : Event} (he : e ∈ (w.nodes i).trace) (he' : e' ∈ (w.nodes i).trace) {p y : Block}
    (hp : p ∈ e.voted) (hy : y ∈ e'.voted) (hlt : p.view < y.view) :
    ∃ q' ∈ p.qc, ∃ q ∈ y.qc, q'.view ≤ q.view := by
  obtain ⟨hpknown, -⟩ := voted_known hw hi he hp
  obtain ⟨hyknown, -⟩ := voted_known hw hi he' hy
  have hne : p.id ≠ y.id := by
    intro hid
    have hview : p.view = y.view :=
      congrArg RawBlock.view (hpknown.1.raw_eq hfree hyknown.1 hid)
    rw [hview] at hlt
    exact Int64.lt_irrefl hlt
  rcases voted_comparable hw (hcare i hi) he he' hp hy with rfl | hf | hf
  · exact absurd rfl hne
  · rcases hf with hid | ⟨hgt, -⟩
    · exact absurd hid.symm hne
    · exact (Int64.lt_irrefl (Int64.lt_trans hlt hgt)).elim
  · rcases hf with hid | ⟨-, hle⟩
    · exact absurd hid hne
    · exact hle

/-- Whoever voted for a block is locked on its parent. -/
theorem locks_parent (hfree : CollisionFree env w) {p g : Block} (hp : (w.known env).block p)
    (hg : w.Circulates env g) (hparent : p.prevID = g.id) (hpos : 1 ≤ g.view) :
    Chains.Locks (Finset.Icc 1 env.n) ∅ env.byzNo w.VotedFor (w.Linked env) (w.viewAt env)
      g.id p.id := by
  rintro i hi - ⟨e, he, p', hp', hid⟩ d ⟨e', he', y, hy, rfl⟩ hlt
  rw [Finset.mem_Icc] at hi
  obtain ⟨hknown, -⟩ := voted_known hw hi he hp'
  obtain ⟨hyknown, core, hyhandle⟩ := voted_known hw hi he' hy
  rw [viewAt_eq hfree hp.1, viewAt_eq hfree hyknown.1, ← Int64.lt_iff_toInt_lt] at hlt
  have hraw : p'.raw = p.raw := hknown.1.raw_eq hfree hp.1 hid
  have hview : p'.view = p.view := congrArg RawBlock.view hraw
  have hqc : p'.qc = p.qc := congrArg RawBlock.qc hraw
  have hfollows := certificate_not_below hw hcare hfree hi he he' hp' hy (hview ▸ hlt)
  obtain ⟨q', hq', q, hq, hle⟩ := hfollows
  rw [hqc] at hq'
  obtain ⟨qp, hqp, hprev, hback⟩ := known_certificate hw hp
  obtain rfl : q' = qp := Option.some.inj (hq'.symm.trans hqp)
  obtain ⟨-, hgview⟩ := hback.of_block hw hfree hg (hparent.symm.trans hprev)
  obtain ⟨qy, hqy, hyprev, hyback⟩ := known_certificate hw hyknown
  obtain rfl : q = qy := Option.some.inj (hq.symm.trans hqy)
  have hgq : g.view ≤ q.view := by rw [hgview]; exact hle
  have hne : q ≠ QC.initial := by
    rintro rfl
    exact absurd (Int64.le_trans hpos hgq) (by decide)
  obtain ⟨hcert, b, hb, hbid, hbview⟩ := hyback.certified hw hne
  obtain ⟨q₀, hq₀, hlow⟩ : ∃ q ∈ y.qc, q.view < y.view := by
    obtain ⟨recent, past, hsplit⟩ := List.mem_iff_append.mp hyhandle.2
    exact (atEach_iff.mp (hcare i hi) recent _ past hsplit y rfl).1
  obtain rfl : q₀ = q := Option.some.inj (hq₀.symm.trans hq)
  have hseen : w.Seen env y := ⟨_, mem_events.mpr ⟨i, hyhandle⟩, Or.inl rfl⟩
  have hpview : w.viewAt env q₀.blockID = q₀.view.toInt := by
    rw [← hbid, viewAt_eq hfree hb.1, hbview]
  refine ⟨q₀.blockID, ⟨y, hseen, rfl, hyprev⟩, hcert, ?_, ?_⟩
  · rw [viewAt_eq hfree hg, hpview]
    exact Int64.le_iff_toInt_le.mp hgq
  · rw [viewAt_eq hfree hyknown.1, hpview]
    exact Int64.lt_iff_toInt_lt.mp hlow

/-- A head that the two-chain rule commits is decided. -/
theorem commit_decided (hn : env.n = 3 * env.byzNo + 1) (hfree : CollisionFree env w)
    (halg : alg ≠ .hotStuff) {i : ℕ} {core : Core} {qc : QC} {head : Block}
    {committed : List Block} (h : w.Did env i (.commit core qc head committed)) :
    Chains.Decided (Finset.Icc 1 env.n) ∅ env.byzNo w.VotedFor (w.Linked env) (w.viewAt env)
      head.id := by
  obtain ⟨s, recent, hreach, hsplit, -, hguard, -⟩ := (hw i).mem h.2
  have hrule : ∃ core b, inHand s.trace = some (core, b) ∧ b.qc = some qc ∧ 2 ≤ qc.view ∧
      qc.view + 1 = b.view ∧ TwoChain.commitRule s.bc qc = .ok (.ok (some head)) := by
    cases alg with
    | hotStuff => exact absurd rfl halg
    | tchs => exact hguard
    | fhs => exact hguard
  obtain ⟨core₀, b, hand, hbqc, htwo, -, hrule⟩ := hrule
  obtain ⟨p, hp, hhead, hviews⟩ := twoChain_commitRule_some hrule
  obtain ⟨hpid, hpknown⟩ := hreach.stored hp
  obtain ⟨hgid, hgknown⟩ := hreach.stored hhead
  have hpseen : w.Seen env p := seen_of_stored h.1 hreach (suffix_of_split hsplit) hp
  have hback : w.Backed env qc := by
    obtain ⟨s₀, -, -, -, -, hbknown⟩ := hreach.mem (inHand_mem hand)
    exact hbknown.2 qc hbqc
  obtain ⟨hpcert, hpview⟩ := hback.of_block hw hfree hpknown.1 hpid
  obtain ⟨qp, -, hprev, hpback⟩ := known_certificate hw hpknown
  obtain ⟨hgcert, -⟩ := hpback.of_block hw hfree hgknown.1 (hgid.trans hprev)
  have hpos : 1 ≤ head.view := by
    have hsucc := toInt_add_one (hviews ▸ htwo)
    have hle := Int64.le_iff_toInt_le.mp htwo
    have hone : (1 : View).toInt = 1 := rfl
    have htwo' : (2 : View).toInt = 2 := rfl
    rw [Int64.le_iff_toInt_le]
    rw [hviews] at hsucc
    omega
  have hlock := locks_parent hw hcare hfree hpknown hgknown.1 hgid.symm hpos
  have hcard : (Finset.Icc 1 env.n).card = 3 * env.byzNo + 1 := by simp [hn]
  have hchain : [p.id, head.id].IsChain fun b a =>
      w.Linked env b a ∧ w.viewAt env b = w.viewAt env a + 1 := by
    have hlink : w.Linked env p.id head.id := ⟨p, hpseen, rfl, hgid.symm⟩
    have hview : w.viewAt env p.id = w.viewAt env head.id + 1 := by
      rw [viewAt_eq hfree hpknown.1, viewAt_eq hfree hgknown.1, hpview, ← hviews]
      exact toInt_add_one (hviews ▸ htwo)
    simp [hlink, hview]
  apply Chains.decided_of_chain hcard (by simp) (onePerView hw hcare hfree) hchain rfl _ hlock
  intro d hd
  rcases List.mem_pair.mp hd with rfl | rfl
  · rw [hpid]
    exact hpcert
  · rw [hgid, hprev]
    exact hgcert

/-- Blocks delivered by any two nodes are on one chain. -/
theorem twoChain_agreement (hn : env.n = 3 * env.byzNo + 1) (hfree : CollisionFree env w)
    (halg : alg ≠ .hotStuff) {i j : ℕ} (hi : 1 ≤ i ∧ i ≤ env.n) (hj : 1 ≤ j ∧ j ≤ env.n)
    {a b : Block} (ha : a ∈ (w.nodes i).committedBlocks) (hb : b ∈ (w.nodes j).committedBlocks) :
    w.OneChain env a b := by
  have hcirc : ∀ c, w.Seen env c → w.Circulates env c := by
    rintro c ⟨e, he, hc | hc⟩
    · obtain ⟨k, hdid⟩ := mem_events.mp he
      cases e with
      | handle core c' => cases hc; exact (handled_known hw hdid).1
      | _ => cases hc
    · obtain ⟨k, hdid⟩ := mem_events.mp he
      cases e with
      | propose core c' => cases hc; exact ⟨k, core, c, hdid, Or.inl rfl⟩
      | _ => cases hc
  have hunique : Relator.RightUnique (w.Linked env) := by
    rintro d p p' ⟨c, hc, hid, rfl⟩ ⟨c', hc', hid', rfl⟩
    have hraw := (hcirc c hc).raw_eq hfree (hcirc c' hc') (hid.trans hid'.symm)
    exact congrArg RawBlock.prevID hraw
  obtain ⟨_, _, head, _, hcommit, hanc⟩ := delivered_ancestor hi (hw i) ha
  obtain ⟨_, _, head', _, hcommit', hanc'⟩ := delivered_ancestor hj (hw j) hb
  have hdecided := commit_decided hw hcare hn hfree halg hcommit
  have hdecided' := commit_decided hw hcare hn hfree halg hcommit'
  exact (hdecided.oneChain hdecided').ancestors hunique hanc hanc'

end

end World

/-- Fast-HotStuff: in an honest run that takes up blocks in order, what any two
nodes deliver is on one chain. -/
theorem fhs_agreement (env : Env) (turns : List Turn) (hn : env.n = 3 * env.byzNo + 1)
    (hfree : CollisionFree env (World.after env .fhs turns))
    (hcare : ∀ i, 1 ≤ i ∧ i ≤ env.n →
      TakesUpInOrder ((World.after env .fhs turns).nodes i).trace) :
    ∀ i j, 1 ≤ i ∧ i ≤ env.n → 1 ≤ j ∧ j ≤ env.n →
      ∀ a ∈ ((World.after env .fhs turns).nodes i).committedBlocks,
        ∀ b ∈ ((World.after env .fhs turns).nodes j).committedBlocks,
          (World.after env .fhs turns).OneChain env a b := by
  intro i j hi hj a ha b hb
  exact World.twoChain_agreement (World.after_reachable env .fhs turns) hcare hn hfree (by decide)
    hi hj ha hb

/-- Two-chain HotStuff: the same. -/
theorem tchs_agreement (env : Env) (turns : List Turn) (hn : env.n = 3 * env.byzNo + 1)
    (hfree : CollisionFree env (World.after env .tchs turns))
    (hcare : ∀ i, 1 ≤ i ∧ i ≤ env.n →
      TakesUpInOrder ((World.after env .tchs turns).nodes i).trace) :
    ∀ i j, 1 ≤ i ∧ i ≤ env.n → 1 ≤ j ∧ j ≤ env.n →
      ∀ a ∈ ((World.after env .tchs turns).nodes i).committedBlocks,
        ∀ b ∈ ((World.after env .tchs turns).nodes j).committedBlocks,
          (World.after env .tchs turns).OneChain env a b := by
  intro i j hi hj a ha b hb
  exact World.twoChain_agreement (World.after_reachable env .tchs turns) hcare hn hfree (by decide)
    hi hj ha hb

instance (env : Env) (w : World) : Decidable (CollisionFree env w) :=
  decidable_of_iff
    ((∀ e ∈ w.events env, ∀ b ∈ e.proposed, ∀ e' ∈ w.events env, ∀ b' ∈ e'.proposed,
      b.id = b'.id → b.raw = b'.raw) ∧ ∀ e ∈ w.events env, ∀ b ∈ e.proposed, b.id ≠ genesisID)
    ⟨fun h => ⟨h.1, h.2⟩, fun h => ⟨h.inj, h.genesis⟩⟩

instance (b' b : Block) : Decidable (Follows b' b) :=
  inferInstanceAs (Decidable (_ ∨ _))

instance (trace : List Event) : Decidable (TakesUpInOrder trace) :=
  AtEach.decidable _ trace

/-- The four nodes go through views 1 to 4. The block of view 4 does not reach
node 2, and only node 3 sees that it gets a quorum. -/
def fourViews : List Turn :=
  -- view 1
  [⟨4, .txn, 8⟩, ⟨4, .newView [], 8⟩] ++ spread 4 0 [4, 1, 2, 3] ++ collect 4 [(1, 0), (2, 0)] ++
  spread 4 1 [1, 2, 3] ++ collect 4 [(1, 1), (2, 1)] ++
  -- view 2
  [⟨4, .newView [], 8⟩] ++ spread 4 2 [4, 1, 2, 3] ++ collect 4 [(1, 2), (2, 2)] ++
  spread 4 3 [1, 2, 3] ++ collect 4 [(1, 3), (2, 3)] ++
  -- view 3, whose votes go to node 3
  [⟨4, .newView [], 8⟩] ++ spread 4 4 [4, 3, 1, 2] ++ collect 3 [(1, 4), (2, 4)] ++
  spread 3 4 [1, 2, 4] ++ collect 3 [(1, 5), (2, 5)] ++
  -- view 4
  List.replicate 4 ⟨3, .newView [], 8⟩ ++ spread 3 5 [3, 1, 4] ++ collect 3 [(1, 6), (4, 7)]

/-- What the run has to be evaluated for. -/
theorem fourViews_agree (alg : Algorithm) {agree : Prop}
    (hrun : ((World.after fourNodes alg fourViews).nodes 3).committedBlocks.map
        Block.view = [1, 2] ∧
      CollisionFree fourNodes (World.after fourNodes alg fourViews) ∧
      ∀ i ∈ Finset.Icc 1 4,
        TakesUpInOrder ((World.after fourNodes alg fourViews).nodes i).trace)
    (hagree : CollisionFree fourNodes (World.after fourNodes alg fourViews) →
      (∀ i, 1 ≤ i ∧ i ≤ 4 →
        TakesUpInOrder ((World.after fourNodes alg fourViews).nodes i).trace) → agree) :
    ((World.after fourNodes alg fourViews).nodes 3).committedBlocks.map
      Block.view = [1, 2] ∧ agree :=
  ⟨hrun.1, hagree hrun.2.1 fun i hi => hrun.2.2 i (Finset.mem_Icc.mpr hi)⟩

theorem fhs_agreement_over_four_views :
    ((World.after fourNodes .fhs fourViews).nodes 3).committedBlocks.map
      Block.view = [1, 2] ∧
    ∀ i j, 1 ≤ i ∧ i ≤ 4 → 1 ≤ j ∧ j ≤ 4 →
      ∀ a ∈ ((World.after fourNodes .fhs fourViews).nodes i).committedBlocks,
        ∀ b ∈ ((World.after fourNodes .fhs fourViews).nodes j).committedBlocks,
          (World.after fourNodes .fhs fourViews).OneChain fourNodes a b :=
  fourViews_agree .fhs (by decide +kernel) (fhs_agreement fourNodes fourViews rfl)

theorem tchs_agreement_over_four_views :
    ((World.after fourNodes .tchs fourViews).nodes 3).committedBlocks.map
      Block.view = [1, 2] ∧
    ∀ i j, 1 ≤ i ∧ i ≤ 4 → 1 ≤ j ∧ j ≤ 4 →
      ∀ a ∈ ((World.after fourNodes .tchs fourViews).nodes i).committedBlocks,
        ∀ b ∈ ((World.after fourNodes .tchs fourViews).nodes j).committedBlocks,
          (World.after fourNodes .tchs fourViews).OneChain fourNodes a b :=
  fourViews_agree .tchs (by decide +kernel) (tchs_agreement fourNodes fourViews rfl)

/-- After view 4 times out, node 3 proposes on its own certificate and commits
the block of view 3; the others time out once more, and node 2, which has not
seen the block of view 4, leads them on from the block of view 2. -/
def forkedViews : List Turn :=
  fourViews ++ [⟨1, .timeout, 8⟩, ⟨2, .timeout, 8⟩, ⟨4, .timeout, 8⟩] ++
  spread 1 7 [2, 3, 4] ++ spread 2 6 [1, 3, 4] ++ spread 4 8 [1, 2, 3] ++
  -- view 5
  [⟨3, .newView [], 8⟩] ++ spread 3 7 [3] ++
  [⟨1, .timeout, 8⟩, ⟨2, .timeout, 8⟩, ⟨4, .timeout, 8⟩] ++
  spread 1 8 [2, 4] ++ spread 2 7 [1, 4] ++ spread 4 9 [1, 2] ++
  -- view 6
  List.replicate 6 ⟨2, .newView [], 8⟩ ++ spread 2 8 [2, 1, 4] ++ collect 2 [(1, 9), (4, 10)] ++
  spread 2 9 [1, 4] ++ collect 2 [(1, 10), (4, 11)] ++
  -- view 7
  [⟨2, .newView [], 8⟩] ++ spread 2 10 [1, 2, 4] ++ collect 1 [(2, 11), (4, 12)] ++
  spread 1 11 [2, 4] ++ collect 1 [(2, 12), (4, 13)] ++
  -- view 8
  List.replicate 8 ⟨1, .newView [], 8⟩ ++ spread 1 12 [1]

/-- The two branches are told apart by their ids, so that one evaluation decides all. -/
theorem forks_of_ids {w : World} (h : CollisionFree fourNodes w ∧
      w.ParentClosed fourNodes [3, 2, 1, 0] ∧ w.ParentClosed fourNodes [6, 2, 1, 0] ∧
      ∃ a ∈ (w.nodes 3).committedBlocks, ∃ b ∈ (w.nodes 1).committedBlocks, a.id = 3 ∧ b.id = 6) :
    CollisionFree fourNodes w ∧ ∃ a ∈ (w.nodes 3).committedBlocks,
      ∃ b ∈ (w.nodes 1).committedBlocks, ¬ w.OneChain fourNodes a b := by
  obtain ⟨hfree, hthree, hsix, a, ha, b, hb, haid, hbid⟩ := h
  refine ⟨hfree, a, ha, b, hb, World.not_oneChain hthree hsix ?_ ?_⟩
  · rw [haid]
    decide
  · rw [hbid]
    decide

/-- Node 3 has delivered the block of view 3, node 1 the block of view 6, which
extends the block of view 2. -/
theorem fhs_forks :
    CollisionFree fourNodes (World.after fourNodes .fhs forkedViews) ∧
    ∃ a ∈ ((World.after fourNodes .fhs forkedViews).nodes 3).committedBlocks,
      ∃ b ∈ ((World.after fourNodes .fhs forkedViews).nodes 1).committedBlocks,
        ¬ (World.after fourNodes .fhs forkedViews).OneChain fourNodes a b :=
  forks_of_ids (by decide +kernel)

theorem tchs_forks :
    CollisionFree fourNodes (World.after fourNodes .tchs forkedViews) ∧
    ∃ a ∈ ((World.after fourNodes .tchs forkedViews).nodes 3).committedBlocks,
      ∃ b ∈ ((World.after fourNodes .tchs forkedViews).nodes 1).committedBlocks,
        ¬ (World.after fourNodes .tchs forkedViews).OneChain fourNodes a b :=
  forks_of_ids (by decide +kernel)

end Bamboo
