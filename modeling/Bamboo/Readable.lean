import Bamboo.CommitRuns
import Bamboo.Library.Settles
import Bamboo.Voting

/-!
# Messages that can be read

A replica reads a message before it has checked anything: the key table at the
number of the sender, the first two parts of a signature, a signature for each
signer, the certificate of a timeout. A message on which all these reads succeed
is readable. As long as everything a replica keeps is readable, and the blocks it
stores are one for each view, the parts of the handlers that do not call back into
`ProcessBlock` return.
-/
namespace Bamboo

/-! ## Messages that can be read -/

/-- A node of the key tables. -/
def Keyed (env : Env) (id : NodeID) : Prop := 1 ≤ id.node ∧ id.node ≤ env.n

/-- A signature that `PubVerify` can look at, whatever it says. -/
def Checkable (env : Env) (sig : Signature) (signer : NodeID) : Prop :=
  Keyed env signer ∧ 2 ≤ sig.length

/-- A certificate in the replica's own name is not looked at. -/
def QC.Readable (env : Env) (me : NodeID) (qc : QC) : Prop :=
  qc.leader ≠ me → qc.signers.length ≤ qc.aggSig.length ∧
    ∀ p ∈ qc.signers.zip qc.aggSig, Checkable env p.2 p.1

/-- A block of the leader of its view, with a certificate, is going to be stored. -/
structure Block.Readable (env : Env) (me : NodeID) (U : Set Block) (b : Block) : Prop where
  signature : b.proposer ≠ me → Checkable env b.sig b.proposer
  qc : ∀ qc, b.qc = some qc → qc.Readable env me
  stored : b.qc.isSome → env.election.isLeader b.proposer b.view = true → b ∈ U

/-- The messages that a replica can read, of which the blocks it accepts belong to `U`. -/
def Msg.Readable (env : Env) (me : NodeID) (U : Set Block) : Msg → Prop
  | .block b => b.Readable env me U
  | .vote v => v.voter ≠ me → Checkable env v.signature v.voter
  | .tmo t => ∃ qc, t.highQC = some qc ∧ qc.Readable env me
  | .vmo _ => True

instance (env : Env) (id : NodeID) : Decidable (Keyed env id) :=
  inferInstanceAs (Decidable (_ ∧ _))

instance (env : Env) (sig : Signature) (signer : NodeID) : Decidable (Checkable env sig signer) :=
  inferInstanceAs (Decidable (_ ∧ _))

instance (env : Env) (me : NodeID) (qc : QC) : Decidable (qc.Readable env me) :=
  inferInstanceAs (Decidable (_ → _))

theorem Block.readable_iff (env : Env) (me : NodeID) (U : Set Block) (b : Block) :
    b.Readable env me U ↔ (b.proposer ≠ me → Checkable env b.sig b.proposer) ∧
      (∀ qc ∈ b.qc, qc.Readable env me) ∧
      (b.qc.isSome → env.election.isLeader b.proposer b.view = true → b ∈ U) :=
  ⟨fun h => ⟨h.signature, h.qc, h.stored⟩, fun h => ⟨h.1, h.2.1, h.2.2⟩⟩

/-- Messages can be checked where `U` is given by a list. -/
instance (env : Env) (me : NodeID) (l : List Block) (m : Msg) :
    Decidable (m.Readable env me {b | b ∈ l}) :=
  match m with
  | .block b =>
    have : Decidable (b ∈ {b | b ∈ l}) := inferInstanceAs (Decidable (b ∈ l))
    decidable_of_iff _ (Block.readable_iff env me _ b).symm
  | .vote v => inferInstanceAs (Decidable (v.voter ≠ me → Checkable env v.signature v.voter))
  | .tmo t => inferInstanceAs (Decidable (∃ qc ∈ t.highQC, qc.Readable env me))
  | .vmo _ => inferInstanceAs (Decidable True)

section Reading

variable {env : Env} {me : NodeID}

theorem Keyed.keyIndex {id : NodeID} (h : Keyed env id) :
    keyIndex env id = .ok id.node.toNat :=
  if_pos h

theorem Keyed.privSign {id : NodeID} (h : Keyed env id) (data : Identifier) :
    ∃ sig, privSign env data id = .ok sig := by
  simp [Bamboo.privSign, h.keyIndex, bind, Except.bind, pure, Except.pure]

theorem Keyed.makeVote {id : NodeID} (h : Keyed env id) (view : View) (blockID : Identifier) :
    ∃ vote, makeVote env view id blockID = .ok vote := by
  obtain ⟨sig, hsig⟩ := h.privSign blockID
  simp [Bamboo.makeVote, hsig, bind, Except.bind, pure, Except.pure]

theorem Keyed.makeBlock {id : NodeID} (h : Keyed env id) (view : View) (qc : QC)
    (prevID : Identifier) (payload : List Transaction) (mali : Bool) (forkNum height : ℤ) :
    ∃ b, makeBlock env view qc prevID payload id mali forkNum height = .ok b := by
  obtain ⟨sig, hsig⟩ := h.privSign
    (env.crypto.makeID ⟨view, some qc, id, payload.map Transaction.id, prevID⟩)
  simp [Bamboo.makeBlock, hsig, bind, Except.bind, pure, Except.pure]

theorem Checkable.pubVerify {sig : Signature} {signer : NodeID} (h : Checkable env sig signer)
    (data : Identifier) : ∃ ok, pubVerify env sig data signer = .ok ok := by
  match sig, h.2 with
  | r :: s :: rest, _ =>
    simp [Bamboo.pubVerify, h.1.keyIndex, bind, Except.bind, pure, Except.pure]

/-- The loop over a certificate, which may stop early. -/
theorem verifyQuorumSignature_returns (blockID : Identifier) (sigs : List Signature)
    (signers : List NodeID) (hlen : signers.length ≤ sigs.length)
    (h : ∀ p ∈ signers.zip sigs, Checkable env p.2 p.1) :
    ∃ ok, verifyQuorumSignature env blockID sigs signers = .ok ok := by
  induction sigs generalizing signers with
  | nil =>
    obtain rfl : signers = [] := List.length_eq_zero_iff.mp (Nat.le_zero.mp hlen)
    exact ⟨true, rfl⟩
  | cons sig sigs ih =>
    cases signers with
    | nil => exact ⟨true, rfl⟩
    | cons signer signers =>
      rw [List.zip_cons_cons, List.forall_mem_cons] at h
      obtain ⟨ok, hok⟩ := h.1.pubVerify blockID
      simp only [verifyQuorumSignature, hok, bind, Except.bind]
      cases ok with
      | false => exact ⟨false, rfl⟩
      | true => exact ih signers (Nat.le_of_succ_le_succ hlen) h.2

theorem QC.Readable.quorumIsVerified {s : Core} {qc : QC} (h : qc.Readable env s.id) :
    ∃ ok, quorumIsVerified env s qc = .ok ok := by
  unfold Bamboo.quorumIsVerified
  by_cases hown : qc.leader ≠ s.id
  · rw [if_pos hown]
    exact verifyQuorumSignature_returns _ _ _ (h hown).1 (h hown).2
  · rw [if_neg hown]
    exact ⟨true, rfl⟩

end Reading

/-! ## The block chain -/

namespace BlockChain

variable {U : Set Block} {bc : BlockChain}

/-- Stored blocks have certificates. -/
theorem getParentBlock_returns (hU : OnePerView U) (hf : bc.forrest.Fits U) (id : Identifier) :
    ∃ r, bc.getParentBlock id = .ok r := by
  unfold getParentBlock
  cases hb : bc.forrest.getVertex id with
  | none => exact ⟨_, rfl⟩
  | some b =>
    obtain ⟨qc, hqc, -⟩ := hU.parent b (hf.mem_of_getVertex hb).1
    cases hp : bc.forrest.getVertex b.prevID <;>
      simp [Block.parent, Option.mem_def.mp hqc, hp, bind, Except.bind, pure, Except.pure]

theorem commitBlock_returns (hU : OnePerView U) (hf : bc.forrest.Fits U) (id : Identifier)
    (view : View) : ∃ r bc', bc.commitBlock id view = .ok (r, bc') ∧ bc'.forrest.Fits U := by
  cases hb : bc.forrest.getVertex id with
  | none => exact ⟨_, bc, commitBlock_missing hb view, hf⟩
  | some b =>
    obtain ⟨committed, forked, bc', hc, -, hfits⟩ := commitBlock_commits hU hf hb view
    exact ⟨_, bc', hc, hfits⟩

theorem addBlock_returns (hU : OnePerView U) (hf : bc.forrest.Fits U) {b : Block} (hb : b ∈ U) :
    ∃ bc', bc.addBlock b = .ok bc' ∧ bc'.forrest.Fits U := by
  obtain ⟨f, hadd, hfits⟩ := hf.addVertex hU.treelike hb
  refine ⟨{ bc with forrest := f }, ?_, hfits⟩
  simp [addBlock, hadd, bind, Except.bind, pure, Except.pure]

end BlockChain

theorem HotStuff.commitRule_returns {U : Set Block} {bc : BlockChain} (hU : OnePerView U)
    (hf : bc.forrest.Fits U) (qc : QC) : ∃ r, HotStuff.commitRule bc qc = .ok r := by
  obtain ⟨r, hr⟩ := BlockChain.getParentBlock_returns hU hf qc.blockID
  unfold HotStuff.commitRule
  rw [hr]
  cases r with
  | error e => exact ⟨_, rfl⟩
  | ok parentBlock =>
    obtain ⟨r, hr⟩ := BlockChain.getParentBlock_returns hU hf parentBlock.id
    simp only [bind, Except.bind, hr]
    cases r with
    | error e => exact ⟨_, rfl⟩
    | ok grandParentBlock =>
      dsimp only
      split_ifs <;> exact ⟨_, rfl⟩

theorem HotStuff.votingRule_returns {U : Set Block} {s : Core} (hU : OnePerView U)
    (hf : s.bc.forrest.Fits U) (block : Block) : ∃ r, HotStuff.votingRule s block = .ok r := by
  obtain ⟨r, hr⟩ := BlockChain.getParentBlock_returns hU hf block.id
  unfold HotStuff.votingRule
  split_ifs
  · exact ⟨_, rfl⟩
  · rw [hr]
    cases r <;> exact ⟨_, rfl⟩

/-! ## The keys of a map -/

def keySet {K V : Type} [DecidableEq K] (m : Map K V) : Finset K := m.keys.toFinset

section KeySet

variable {K V : Type} [DecidableEq K] {m : Map K V} {k : K}

theorem mem_keySet : k ∈ keySet m ↔ k ∈ m := by
  rw [keySet, List.mem_toFinset, AList.mem_keys]

theorem mem_keySet_of_lookup {v : V} (h : m.lookup k = some v) : k ∈ keySet m := by
  rw [mem_keySet, ← AList.lookup_isSome, h]
  rfl

@[simp] theorem keySet_insert (m : Map K V) (k : K) (v : V) :
    keySet (m.insert k v) = insert k (keySet m) := by
  ext x
  rw [Finset.mem_insert, mem_keySet, mem_keySet, AList.mem_insert]

@[simp] theorem keySet_erase (m : Map K V) (k : K) : keySet (m.erase k) = (keySet m).erase k := by
  ext x
  rw [Finset.mem_erase, mem_keySet, mem_keySet, AList.mem_erase]

end KeySet

/-! ## The state between two calls -/

/-- Everything the replica keeps can be read, and messages are kept under the
view before their own. -/
structure Sane (env : Env) (me : NodeID) (U : Set Block) (s : Replica) : Prop where
  running : s.crashed = false
  id : s.id = me
  forest : s.bc.forrest.Fits U
  highQC : s.highQC.Readable env me
  qcs : ∀ id qc, s.bufferedQCs.lookup id = some qc → qc.Readable env me
  blocks : ∀ view b, s.bufferedBlocks.lookup view = some b →
    view = b.view - 1 ∧ b.Readable env me U
  vmos : ∀ view vmo, s.recivedVMO.lookup view = some vmo → view = vmo.view - 1

/-- The views before those of the buffered blocks. -/
def Replica.waiting (s : Replica) : Finset View := keySet s.bufferedBlocks

/-- The replica is as sane as before and has buffered no other block. -/
structure Within (env : Env) (me : NodeID) (U : Set Block) (s t : Replica) : Prop where
  sane : Sane env me U t
  waiting : t.waiting ⊆ s.waiting

/-- The call returns, given enough fuel, and keeps the replica sane. -/
abbrev Returns {α : Type} (env : Env) (me : NodeID) (U : Set Block) (m : ℕ → Exec α)
    (s : Replica) : Prop :=
  Settles m s fun _ => Within env me U s

section Steps

variable {env : Env} {me : NodeID} {U : Set Block} {s t u : Replica} {α β : Type}

theorem Sane.within (h : Sane env me U s) : Within env me U s s := ⟨h, subset_rfl⟩

theorem Within.trans (h : Within env me U s t) (h' : Within env me U t u) : Within env me U s u :=
  ⟨h'.sane, h'.waiting.trans h.waiting⟩

theorem Returns.pure {a : α} (h : Sane env me U s) : Returns env me U (fun _ => pure a) s :=
  Settles.pure h.within

/-- What comes next may assume a sane replica with no more blocks buffered. -/
theorem Returns.bind {m : ℕ → Exec α} {f : ℕ → α → Exec β} (hm : Returns env me U m s)
    (hf : ∀ a t, Within env me U s t → Returns env me U (fun n => f n a) t) :
    Returns env me U (fun n => m n >>= f n) s :=
  Settles.bind hm fun a t ht => (hf a t ht).post fun _ _ hu => ht.trans hu

theorem Settles.call_bind {e : Except Fault α} {a : α} (h : e = .ok a) {f : ℕ → α → Exec β}
    {Q : β → Replica → Prop} (hf : Settles (fun n => f n a) s Q) :
    Settles (fun n => call e >>= f n) s Q := by
  rw [h]
  exact hf

theorem sane_new (isByz : Bool) : Sane env me U (Replica.new env me isByz) where
  running := rfl
  id := rfl
  forest := LevelledForest.fits_new U
  highQC _ := by simp [Replica.new, QC.initial]
  qcs id qc h := by simp [Replica.new] at h
  blocks view b h := by simp [Replica.new] at h
  vmos view vmo h := by simp [Replica.new] at h

theorem Sane.withForest (h : Sane env me U s) {bc : BlockChain} (hf : bc.forrest.Fits U) :
    Sane env me U { s with bc := bc } :=
  { h with forest := hf }

theorem Sane.raiseHighQC (h : Sane env me U s) {qc : QC} (hqc : qc.Readable env me) :
    Sane env me U (s.raiseHighQC qc) where
  __ := h
  highQC := by
    change QC.Readable env me (if s.highQC.view < qc.view then qc else s.highQC)
    split_ifs
    · exact hqc
    · exact h.highQC

theorem Sane.bufferQC (h : Sane env me U s) {qc : QC} (hqc : qc.Readable env me) :
    Sane env me U (s.bufferQC qc) where
  __ := h
  qcs := forall_lookup_insert h.qcs hqc

theorem Sane.buffer (h : Sane env me U s) {b : Block} (hb : b.Readable env me U) :
    Sane env me U { s with bufferedBlocks := s.bufferedBlocks.insert (b.view - 1) b } where
  __ := h
  blocks := forall_lookup_insert h.blocks ⟨rfl, hb⟩

theorem Sane.unbuffer (h : Sane env me U s) (view : View) :
    Sane env me U { s with bufferedBlocks := s.bufferedBlocks.erase view } :=
  { h with blocks := fun v b hl => h.blocks v b (lookup_of_lookup_erase hl) }

theorem Sane.keepVmo (h : Sane env me U s) (vmo : VMO) :
    Sane env me U { s with recivedVMO := s.recivedVMO.insert (vmo.view - 1) vmo } where
  __ := h
  vmos := forall_lookup_insert h.vmos rfl

/-! ## Handlers that do not call back -/

theorem startView_settles {Q : Unit → Replica → Prop}
    (h : ∀ pm : Pacemaker, s.pm.curView ≤ pm.curView → Q () { s with pm := pm }) :
    Settles (fun _ => startView) s Q := by
  unfold startView
  refine Settles.get_bind (Settles.ite (fun hlt => ?_) fun _ => ?_)
  · refine Settles.modify (h _ ?_)
    have hnot : ¬ (0 : View) < s.pm.curView := fun hpos => view_pos_iff.mp hpos hlt
    rw [Pacemaker.advanceView, if_neg hnot]
    exact Int64.le_of_lt hlt
  · exact Settles.pure (h s.pm (Int64.le_refl _))

theorem commit_returns (hU : OnePerView U) (h : Sane env me U s) (qc : QC) (head : Block) :
    Returns env me U (fun _ => commit qc head) s := by
  unfold commit
  refine Settles.get_bind ?_
  obtain ⟨r, bc, hc, hf⟩ := BlockChain.commitBlock_returns hU h.forest head.id s.pm.curView
  refine Settles.call_bind hc ?_
  cases r with
  | error e => exact Settles.of_eq rfl ⟨h.withForest hf, subset_rfl⟩
  | ok blocks => exact Settles.of_eq rfl ⟨{ h with forest := hf }, subset_rfl⟩

theorem HotStuff.checkCommit_returns (hU : OnePerView U) (h : Sane env me U s) (qc : QC) :
    Returns env me U (fun _ => HotStuff.checkCommit qc) s := by
  unfold HotStuff.checkCommit
  refine Settles.ite (fun _ => Returns.pure h) fun _ => Settles.get_bind ?_
  obtain ⟨r, hr⟩ := HotStuff.commitRule_returns hU h.forest qc
  refine Settles.call_bind hr ?_
  match r with
  | .error e => exact Returns.pure h
  | .ok none => exact Returns.pure h
  | .ok (some head) =>
    exact Returns.bind (commit_returns hU h qc head) fun _ t ht => Returns.pure ht.sane

theorem HotStuff.updatePreferredView_returns (hU : OnePerView U) (h : Sane env me U s) (qc : QC) :
    Returns env me U (fun _ => HotStuff.updatePreferredView qc) s := by
  unfold HotStuff.updatePreferredView
  refine Settles.ite (fun _ => Returns.pure h) fun _ => Settles.get_bind ?_
  cases s.bc.getBlockByID qc.blockID with
  | error e => exact Returns.pure h
  | ok _ =>
    obtain ⟨r, hr⟩ := BlockChain.getParentBlock_returns hU h.forest qc.blockID
    refine Settles.call_bind hr ?_
    cases r with
    | error e => exact Returns.pure h
    | ok grandParentBlock => exact Settles.of_eq rfl ⟨{ h with }, subset_rfl⟩

theorem HotStuff.processCertificate_returns (hU : OnePerView U) (h : Sane env me U s) {qc : QC}
    (hqc : qc.Readable env me) :
    Returns env me U (fun _ => HotStuff.processCertificate env qc) s := by
  unfold HotStuff.processCertificate
  obtain ⟨ok, hok⟩ := QC.Readable.quorumIsVerified (s := s.toCore) (h.id.symm ▸ hqc)
  refine Settles.get_bind (Settles.call_bind hok ?_)
  refine Settles.ite (fun _ => ?_) fun _ => Returns.pure h
  refine Returns.bind (HotStuff.updatePreferredView_returns hU h qc) fun r t ht => ?_
  cases r with
  | error e => exact Settles.modify ⟨ht.sane.bufferQC hqc, subset_rfl⟩
  | ok _ =>
    refine Returns.bind (Settles.modify ⟨ht.sane.raiseHighQC hqc, subset_rfl⟩) fun _ u hu => ?_
    exact HotStuff.checkCommit_returns hU hu.sane qc

theorem addBlock_returns (hU : OnePerView U) (h : Sane env me U s) {b : Block} (hb : b ∈ U) :
    Returns env me U (fun _ => addBlock b) s := by
  unfold addBlock
  obtain ⟨bc, hadd, hf⟩ := BlockChain.addBlock_returns hU h.forest hb
  exact Settles.get_bind (Settles.call_bind hadd (Settles.set ⟨h.withForest hf, subset_rfl⟩))

theorem processBlockQC_returns (hU : OnePerView U) (h : Sane env me U s) (block : Block) {qc : QC}
    (hqc : qc.Readable env me) :
    Returns env me U (fun _ => processBlockQC (HotStuff.rules env) block qc) s := by
  unfold processBlockQC
  refine Returns.bind (Settles.modify ⟨h.raiseHighQC hqc, subset_rfl⟩) fun _ t ht => ?_
  refine Settles.get_bind (Settles.ite (fun _ => ?_) fun _ => Returns.pure ht.sane)
  exact HotStuff.processCertificate_returns hU ht.sane hqc

theorem countTmo_returns (h : Sane env me U s) (tmo : TMO) :
    Returns env me U (fun _ => countTmo tmo) s := by
  unfold countTmo
  refine Settles.get_bind ?_
  cases s.pm.processRemoteTmo tmo with
  | mk tc pm =>
    refine Returns.bind (Settles.set ⟨{ h with }, subset_rfl⟩) fun _ t ht => ?_
    cases tc with
    | none => exact Returns.pure ht.sane
    | some view =>
      exact Settles.ite (fun _ => Returns.pure ht.sane)
        fun _ => Settles.modify ⟨{ ht.sane with }, subset_rfl⟩

theorem HotStuff.processRemoteTmo_returns (hU : OnePerView U) (h : Sane env me U s) {tmo : TMO}
    (htmo : (Msg.tmo tmo).Readable env me U) :
    Returns env me U (fun _ => HotStuff.processRemoteTmo env tmo) s := by
  obtain ⟨qc, hqc, hread⟩ := htmo
  simp only [HotStuff.processRemoteTmo, hqc]
  exact Returns.bind (HotStuff.processCertificate_returns hU h hread)
    fun _ t ht => countTmo_returns ht.sane tmo

/-- A certificate made here bears the replica's own name. -/
theorem countVote_settles (h : Sane env me U s) {vote : Vote}
    (hvote : (Msg.vote vote).Readable env me U) :
    Settles (fun _ => countVote env vote) s fun qc t => Within env me U s t ∧
      ∀ q, qc = some q → q.Readable env me := by
  unfold countVote
  refine Settles.get_bind (Settles.ite (fun _ => Settles.pure ⟨h.within, nofun⟩) fun _ => ?_)
  obtain ⟨ok, hok⟩ : ∃ ok, (if vote.voter ≠ s.id then
      pubVerify env vote.signature vote.blockID vote.voter else .ok true) = .ok ok := by
    by_cases hown : vote.voter ≠ s.id
    · rw [if_pos hown]
      exact (hvote (h.id ▸ hown)).pubVerify vote.blockID
    · exact ⟨true, if_neg hown⟩
  refine Settles.call_bind hok (Settles.ite (fun _ => ?_) fun _ => Settles.pure ⟨h.within, nofun⟩)
  cases hadd : s.bc.addVote env vote with
  | mk qc bc =>
    have hf : bc.forrest.Fits U := by
      have hbc : bc = (s.bc.addVote env vote).2 := by rw [hadd]
      rw [hbc]
      exact h.forest
    cases qc with
    | none => exact Settles.of_eq rfl ⟨⟨h.withForest hf, subset_rfl⟩, nofun⟩
    | some qc =>
      refine Settles.of_eq rfl ⟨⟨{ h with forest := hf }, subset_rfl⟩, fun q hq hown => ?_⟩
      obtain rfl := Option.some.inj hq
      exact absurd h.id hown

theorem checkSignature_settles (h : Sane env me U s) {b : Block} (hb : b.Readable env me U) :
    Settles (fun _ => checkSignature env b) s fun _ t => t = s := by
  unfold checkSignature
  refine Settles.get_bind (Settles.ite (fun hown => ?_) fun _ => Settles.pure rfl)
  obtain ⟨ok, hok⟩ := (hb.signature (h.id ▸ hown)).pubVerify b.id
  exact Settles.call_bind hok (Settles.pure rfl)

/-- An early block is buffered, any other one is there to be taken up. -/
theorem isBuffered_settles (h : Sane env me U s) {b : Block} (hb : b.Readable env me U) :
    Settles (fun _ => isBuffered env b) s fun early t => Sane env me U t ∧
      if early then s.pm.curView < b.view ∧ t.waiting = insert (b.view - 1) s.waiting
      else b.view ≤ t.pm.curView ∧ t.waiting = s.waiting := by
  unfold isBuffered
  refine Settles.bind (startView_settles (Q := fun _ t => Sane env me U t ∧
    s.pm.curView ≤ t.pm.curView ∧ t.waiting = s.waiting) fun pm hpm => ⟨{ h with }, hpm, rfl⟩)
    fun _ t ht => ?_
  obtain ⟨ht, hcur, hsame⟩ := ht
  refine Settles.get_bind (Settles.bind (checkSignature_settles ht hb) fun _ u hu => ?_)
  subst hu
  refine Settles.ite (fun hlt => ?_) fun hle => ?_
  · refine Settles.of_eq rfl ⟨ht.buffer hb, Int64.lt_of_le_of_lt hcur hlt, ?_⟩
    rw [← hsame]
    exact keySet_insert ..
  · exact Settles.of_eq rfl ⟨{ ht with }, Int64.not_lt.mp hle, hsame⟩

theorem postBack_settles {Q : Unit → Replica → Prop} (view : View) (vmo : VMO)
    (h : ∀ outbox, Q () { s with outbox := outbox }) :
    Settles (fun _ => postBack env view vmo) s Q := by
  unfold postBack
  exact Settles.get_bind (Settles.ite (fun _ => Settles.modify (h _)) fun _ =>
    Settles.pure (h s.outbox))

theorem HotStuff.keepVmo_settles (h : Sane env me U s) (vmo : VMO) :
    Settles (fun _ => HotStuff.keepVmo vmo) s fun _ t => Within env me U s t ∧
      t.recivedVMO = s.recivedVMO.insert (vmo.view - 1) vmo := by
  unfold HotStuff.keepVmo
  refine Settles.bind (Settles.modify (Q := fun _ t => t = _) rfl) fun _ t ht => ?_
  subst ht
  exact startView_settles fun pm _ => ⟨⟨{ h.keepVmo vmo with }, subset_rfl⟩, rfl⟩

end Steps

end Bamboo
