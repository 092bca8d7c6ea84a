import Bamboo.Readable

/-!
# What a HotStuff replica survives

The handlers call one another in a circle. It ends nevertheless: a call for a
buffered block takes it out of the buffer for good, or goes on to the block of
the next view, and a call for a kept announcement drops it. So a replica that is
given readable messages handles them all.
-/
namespace Bamboo

/-! ## The circle of calls -/

/-- A call for a block of a view that has been reached returns, if fewer than
`n` blocks are buffered. -/
def Handles (env : Env) (me : NodeID) (U : Set Block) (processBlock : ℕ → Block → Exec (Option Err))
    (n : ℕ) : Prop :=
  ∀ t b, Sane env me U t → b.Readable env me U → b.view ≤ t.pm.curView → t.waiting.card < n →
    Returns env me U (fun k => processBlock k b) t

/-- A call for an announcement returns, if at most `n` blocks are buffered. -/
def Heeds (env : Env) (me : NodeID) (U : Set Block) (processBlock : ℕ → Block → Exec (Option Err))
    (n : ℕ) : Prop :=
  ∀ t vmo, Sane env me U t → t.waiting.card ≤ n →
    Returns env me U (fun k => processRemoteVmo env (HotStuff.rules env) (processBlock k) k vmo) t

section Circle

variable {env : Env} {me : NodeID} {U : Set Block} {s t : Replica} {n : ℕ}
  {processBlock : ℕ → Block → Exec (Option Err)}

theorem Within.card_le (h : Within env me U s t) (hn : s.waiting.card ≤ n) :
    t.waiting.card ≤ n :=
  (Finset.card_le_card h.waiting).trans hn

theorem Handles.mono {m : ℕ} (h : Handles env me U processBlock n) (hm : m ≤ n) :
    Handles env me U processBlock m :=
  fun t b ht hb hview hlt => h t b ht hb hview (hlt.trans_le hm)

theorem Handles.of_le (h : Handles env me U processBlock n) {g : ℕ → ℕ} (hg : ∀ k, k ≤ g k) :
    Handles env me U (fun k => processBlock (g k)) n :=
  fun t b ht hb hview hlt => (h t b ht hb hview hlt).of_le hg

/-- The block that is taken out leaves fewer behind. -/
theorem takeUpBuffered_settles (hpb : Handles env me U processBlock n) (h : Sane env me U s)
    (hn : s.waiting.card ≤ n) {view : View} (hview : view ≤ s.pm.curView) :
    Settles (fun k => takeUpBuffered (processBlock k) view) s fun _ t => Within env me U s t ∧
      (t.waiting.card < s.waiting.card ∨ t = s) := by
  unfold takeUpBuffered
  refine Settles.get_bind ?_
  cases hd : s.bufferedBlocks.lookup (view - 1) with
  | none => exact Settles.pure ⟨h.within, Or.inr rfl⟩
  | some d =>
    obtain ⟨hkey, hread⟩ := h.blocks _ d hd
    have hdview : d.view ≤ s.pm.curView := (Int64.sub_left_inj 1).mp hkey ▸ hview
    refine Settles.bind (Settles.modify (Q := fun _ t => t = _) rfl) fun _ t ht => ?_
    have hwaiting : t.waiting = s.waiting.erase (view - 1) := by
      rw [ht]
      exact keySet_erase ..
    have hlt : t.waiting.card < s.waiting.card := by
      rw [hwaiting]
      exact Finset.card_erase_lt_of_mem (mem_keySet_of_lookup hd)
    have hsub : t.waiting ⊆ s.waiting := hwaiting ▸ Finset.erase_subset _ _
    have hcall : Returns env me U (fun k => processBlock k d) t :=
      hpb t d (ht ▸ h.unbuffer _) hread (by rw [ht]; exact hdview) (hlt.trans_le hn)
    refine Settles.bind hcall fun _ u hu => Settles.pure ⟨⟨hu.sane, hu.waiting.trans hsub⟩, ?_⟩
    exact Or.inl ((Finset.card_le_card hu.waiting).trans_lt hlt)

/-- If the view is left, a block has been taken out or the announcement dropped. -/
theorem processVMOAndBlock_settles (hpb : Handles env me U processBlock n) (h : Sane env me U s)
    (hn : s.waiting.card ≤ n) {view : View} (hview : view ≤ s.pm.curView) :
    Settles (fun k => processVMOAndBlock env (processBlock k) view) s fun ok t =>
      Within env me U s t ∧ (ok = true → t.waiting.card < s.waiting.card ∨
        t.recivedVMO = s.recivedVMO.erase (view - 1)) := by
  unfold processVMOAndBlock
  refine Settles.get_bind ?_
  cases s.recivedVMO.lookup (view - 1) with
  | none => exact Settles.pure ⟨h.within, nofun⟩
  | some vmo =>
    refine Settles.bind (takeUpBuffered_settles hpb h hn hview) fun _ t ht => Settles.get_bind ?_
    cases t.recivedBlock.lookup (view - 1) with
    | none => exact Settles.pure ⟨ht.1, nofun⟩
    | some _ =>
      refine Settles.bind (postBack_settles
        (Q := fun _ u => ∃ outbox, u = { t with outbox := outbox }) view vmo
        fun outbox => ⟨outbox, rfl⟩) ?_
      rintro _ _ ⟨outbox, rfl⟩
      have hsane : Sane env me U { t with
          recivedVMO := t.recivedVMO.erase (view - 1)
          recivedBlock := t.recivedBlock.erase (view - 1) } :=
        { ht.1.sane with vmos := fun v w hl => ht.1.sane.vmos v w (lookup_of_lookup_erase hl) }
      refine Settles.of_eq rfl ⟨⟨{ hsane with }, ht.1.waiting⟩, fun _ => ?_⟩
      rcases ht.2 with hlt | rfl
      · exact Or.inl hlt
      · exact Or.inr rfl

/-- The call for the announcement of the next view has fewer blocks buffered, or
as many and fewer announcements kept. -/
theorem processRemoteVmo_returns (hpb : Handles env me U processBlock n) (h : Sane env me U s)
    (hn : s.waiting.card ≤ n) (vmo : VMO) {g : ℕ → ℕ} (hg : ∀ k, k ≤ g k) :
    Returns env me U
      (fun k => processRemoteVmo env (HotStuff.rules env) (processBlock (g k)) k vmo) s := by
  induction n using Nat.strong_induction_on generalizing s vmo g with | _ n ihn
  induction hm : (insert (vmo.view - 1) (keySet s.recivedVMO)).card using Nat.strong_induction_on
    generalizing s vmo g with | _ m ihm
  refine Settles.succ ?_
  unfold processRemoteVmo
  have hg' : ∀ k, k ≤ g (k + 1) := fun k => (Nat.le_succ k).trans (hg (k + 1))
  refine Settles.get_bind (Settles.ite (fun _ => ?_) fun _ => ?_)
  · cases s.pm.processRemoteVmo vmo with
    | mk vc pm =>
      refine Returns.bind (Settles.set ⟨{ h with }, subset_rfl⟩) fun _ t ht => ?_
      cases vc with
      | none => exact Returns.pure ht.sane
      | some view => exact Settles.modify ⟨{ ht.sane with }, subset_rfl⟩
  · refine Settles.bind (HotStuff.keepVmo_settles h vmo) fun _ t ht => ?_
    obtain ⟨ht, hkept⟩ := ht
    refine Settles.get_bind (Settles.ite (fun _ => Settles.pure ht) fun hge => ?_)
    refine Settles.bind (processVMOAndBlock_settles (hpb.of_le hg') ht.sane (ht.card_le hn)
      (Int64.not_lt.mp hge)) fun ok u hu => Settles.ite (fun hok => ?_) fun _ =>
        Settles.pure (ht.trans hu.1)
    refine Settles.get_bind ?_
    cases hnext : u.recivedVMO.lookup vmo.view with
    | none => exact Settles.pure (ht.trans hu.1)
    | some next =>
      suffices hcall : Returns env me U (fun k => processRemoteVmo env (HotStuff.rules env)
          (processBlock (g (k + 1))) k next) u from
        hcall.post fun _ _ hv => (ht.trans hu.1).trans hv
      rcases hu.2 hok with hlt | herase
      · have hlt' : u.waiting.card < n := hlt.trans_le (ht.card_le hn)
        exact ihn _ hlt' (hpb.mono hlt'.le) hu.1.sane le_rfl next hg'
      · have hkeys : keySet u.recivedVMO =
            (insert (vmo.view - 1) (keySet s.recivedVMO)).erase (vmo.view - 1) := by
          rw [herase, hkept, keySet_erase, keySet_insert]
        have hmem : next.view - 1 ∈ keySet u.recivedVMO := by
          rw [← hu.1.sane.vmos _ _ hnext]
          exact mem_keySet_of_lookup hnext
        apply ihm (insert (next.view - 1) (keySet u.recivedVMO)).card _ hu.1.sane
          (hu.1.card_le (ht.card_le hn)) next hg' rfl
        rw [Finset.insert_eq_of_mem hmem, hkeys, ← hm]
        exact Finset.card_erase_lt_of_mem (Finset.mem_insert_self _ _)

theorem Handles.heeds (hpb : Handles env me U processBlock n) : Heeds env me U processBlock n :=
  fun _ vmo ht hn => processRemoteVmo_returns hpb ht hn vmo fun k => le_refl k

theorem processLocalVmo_returns (hv : Heeds env me U processBlock n) (h : Sane env me U s)
    (hn : s.waiting.card ≤ n) (view : View) :
    Returns env me U
      (fun k => processLocalVmo env (HotStuff.rules env) (processBlock k) k view) s := by
  unfold processLocalVmo
  refine Settles.get_bind (Returns.bind (Settles.modify ⟨{ h with }, subset_rfl⟩) fun _ t ht => ?_)
  exact hv t _ ht.sane (ht.card_le hn)

theorem processVote_returns (hU : OnePerView U) (hv : Heeds env me U processBlock n)
    (h : Sane env me U s) (hn : s.waiting.card ≤ n) {vote : Vote}
    (hvote : (Msg.vote vote).Readable env me U) :
    Returns env me U
      (fun k => processVote env (HotStuff.rules env) (processBlock k) k vote) s := by
  unfold processVote
  refine Settles.bind (countVote_settles h hvote) fun qc t ht => ?_
  obtain ⟨ht, hqc⟩ := ht
  suffices hrest : Returns env me U _ t from hrest.post fun _ _ hu => ht.trans hu
  cases qc with
  | none => exact Returns.pure ht.sane
  | some qc =>
    refine Settles.get_bind ?_
    cases t.bc.getBlockByID qc.blockID with
    | error e => exact Settles.modify ⟨ht.sane.bufferQC (hqc qc rfl), subset_rfl⟩
    | ok _ =>
      refine Returns.bind (HotStuff.processCertificate_returns hU ht.sane (hqc qc rfl))
        fun _ u hu => ?_
      change Returns env me U (fun k => getCurView >>= fun view =>
        processLocalVmo env (HotStuff.rules env) (processBlock k) k view) u
      refine Settles.get_bind ?_
      exact processLocalVmo_returns hv hu.sane (hu.card_le (ht.card_le hn)) u.pm.curView

theorem processBufferedQC_returns (hU : OnePerView U) (hv : Heeds env me U processBlock n)
    (h : Sane env me U s) (hn : s.waiting.card ≤ n) (block : Block) :
    Returns env me U
      (fun k => processBufferedQC env (HotStuff.rules env) (processBlock k) k block) s := by
  unfold processBufferedQC
  refine Settles.get_bind ?_
  cases hl : s.bufferedQCs.lookup block.id with
  | none => exact Returns.pure h
  | some qc =>
    refine Returns.bind (HotStuff.processCertificate_returns hU h (h.qcs _ _ hl)) fun _ t ht => ?_
    refine Returns.bind (Settles.modify ⟨{ ht.sane with
      qcs := fun id q hq => ht.sane.qcs id q (lookup_of_lookup_erase hq) }, subset_rfl⟩)
      fun _ u hu => Settles.get_bind (Settles.ite (fun _ => ?_) fun _ => Returns.pure hu.sane)
    exact processLocalVmo_returns hv hu.sane ((ht.trans hu).card_le hn) block.view

theorem castVote_returns (hU : OnePerView U) (hme : Keyed env me)
    (hv : Heeds env me U processBlock n) (h : Sane env me U s) (hn : s.waiting.card ≤ n)
    (block : Block) :
    Returns env me U
      (fun k => castVote env (HotStuff.rules env) (processBlock k) k block) s := by
  unfold castVote
  refine Settles.get_bind ?_
  obtain ⟨vote, hvote⟩ := (h.id.symm ▸ hme : Keyed env s.id).makeVote block.view block.id
  refine Settles.call_bind hvote ?_
  refine Returns.bind (Settles.modify ⟨{ h with }, subset_rfl⟩) fun _ t ht => ?_
  refine Settles.ite (fun _ => ?_) fun _ => Settles.modify ⟨{ ht.sane with }, subset_rfl⟩
  apply processVote_returns hU hv ht.sane (ht.card_le hn)
  intro hown
  exact absurd ((makeVote_ok hvote).2.1.trans h.id) hown

/-- The head of `ProcessBlock`. -/
theorem takeUp_settles (hpb : Handles env me U processBlock n) (h : Sane env me U s)
    (hn : s.waiting.card ≤ n) {b : Block} (hb : b.Readable env me U) :
    Settles (fun k => takeUp env (processBlock k) b) s fun taken t => Sane env me U t ∧
      if taken then t.waiting ⊆ s.waiting
      else s.pm.curView < b.view ∧ t.waiting = insert (b.view - 1) s.waiting := by
  unfold takeUp
  refine Settles.bind (isBuffered_settles h hb) fun early t ht => ?_
  obtain ⟨ht, hearly⟩ := ht
  cases early with
  | true => exact Settles.pure ⟨ht, by simpa using hearly⟩
  | false =>
    obtain ⟨hview, hsame⟩ : b.view ≤ t.pm.curView ∧ t.waiting = s.waiting := by simpa using hearly
    refine Settles.bind (processVMOAndBlock_settles hpb ht (hsame ▸ hn) hview) fun _ u hu => ?_
    exact Settles.of_eq rfl ⟨{ hu.1.sane with }, hsame ▸ hu.1.waiting⟩

theorem HotStuff.takeUpNext_returns (h : Sane env me U s) {view : View}
    (hpb : ∀ d, s.bufferedBlocks.lookup view = some d →
      Returns env me U (fun k => processBlock k d) s) :
    Returns env me U (fun k => HotStuff.takeUpNext (processBlock k) view) s := by
  unfold HotStuff.takeUpNext
  refine Settles.get_bind ?_
  cases hd : s.bufferedBlocks.lookup view with
  | none => exact Returns.pure h
  | some d =>
    refine Returns.bind (hpb d hd) fun _ t ht => Settles.of_eq rfl ⟨ht.sane.unbuffer view, ?_⟩
    exact (keySet_erase t.bufferedBlocks view).subset.trans (Finset.erase_subset _ _)

/-- How far a block can go on to blocks of later views. -/
def Replica.ahead (s : Replica) (b : Block) : ℕ :=
  if 1 ≤ b.view then (s.waiting.filter (b.view ≤ ·)).card else 0

/-- The block of the next view has less ahead of it, also if the view wraps around. -/
theorem ahead_lt {b d : Block} (hb : 1 ≤ b.view) (hd : b.view = d.view - 1)
    (hwait : b.view ∈ t.waiting) (hsub : t.waiting ⊆ s.waiting) : t.ahead d < s.ahead b := by
  have hmem : b.view ∈ s.waiting.filter (b.view ≤ ·) :=
    Finset.mem_filter.mpr ⟨hsub hwait, Int64.le_refl _⟩
  unfold Replica.ahead
  rw [if_pos hb]
  split_ifs with hone
  · apply Finset.card_lt_card
    have hlt : b.view < d.view := by
      have hsub : (d.view - 1).toInt = (d.view.toInt - 1).bmod (2 ^ 64) := Int64.toInt_sub d.view 1
      have hmax : d.view.toInt < 2 ^ 63 := d.view.toInt_lt
      have hpos : 1 ≤ d.view.toInt := Int64.le_iff_toInt_le.mp hone
      rw [Int.bmod_eq_of_le (by omega) (by omega), ← hd] at hsub
      rw [Int64.lt_iff_toInt_lt]
      omega
    rw [Finset.ssubset_iff_of_subset]
    · refine ⟨b.view, hmem, fun h => ?_⟩
      exact Int64.not_lt.mpr (Finset.mem_filter.mp h).2 hlt
    · intro k hk
      obtain ⟨hk, hle⟩ := Finset.mem_filter.mp hk
      exact Finset.mem_filter.mpr ⟨hsub hk, Int64.le_trans (Int64.le_of_lt hlt) hle⟩
  · exact Finset.card_pos.mpr ⟨b.view, hmem⟩

/-- A block is handled whatever is buffered. A buffered block that is brought up
on the way leaves fewer behind, or it is the one of the next view. -/
theorem HotStuff.processBlock_settles (hU : OnePerView U) (hme : Keyed env me)
    (h : Sane env me U s) {b : Block} (hb : b.Readable env me U) :
    Settles (fun k => HotStuff.processBlock env k b) s fun _ t => Sane env me U t ∧
      (b.view ≤ s.pm.curView ∨ b.view - 1 ∈ s.waiting → t.waiting ⊆ s.waiting) := by
  induction hn : s.waiting.card using Nat.strong_induction_on generalizing s b with | _ n ihn
  induction hm : s.ahead b using Nat.strong_induction_on generalizing s b with | _ m ihm
  have hpb : Handles env me U (HotStuff.processBlock env) n := by
    intro t d ht hd hview hlt
    exact (ihn _ hlt ht hd rfl).post fun _ _ hu => ⟨hu.1, hu.2 (Or.inl hview)⟩
  refine Settles.succ ?_
  unfold HotStuff.processBlock
  refine Settles.bind (takeUp_settles hpb h hn.le hb) fun taken t ht => ?_
  obtain ⟨ht, htaken⟩ := ht
  cases taken with
  | false =>
    obtain ⟨hearly, hwaiting⟩ : s.pm.curView < b.view ∧ t.waiting = insert (b.view - 1) s.waiting :=
      by simpa using htaken
    refine Settles.pure ⟨ht, fun hor => ?_⟩
    rcases hor with hle | hmem
    · exact absurd hearly (Int64.not_lt.mpr hle)
    · rw [hwaiting, Finset.insert_eq_of_mem hmem]
  | true =>
    have hsub : t.waiting ⊆ s.waiting := by simpa using htaken
    have hcard : t.waiting.card ≤ n := hn ▸ Finset.card_le_card hsub
    suffices hrest : Returns env me U _ t from
      hrest.post fun _ _ hu => ⟨hu.sane, fun _ => hu.waiting.trans hsub⟩
    refine Settles.ite (fun _ => ?_) fun hno => absurd rfl hno
    cases hqc : b.qc with
    | none => exact Returns.pure ht
    | some qc =>
      refine Returns.bind (processBlockQC_returns hU ht b (hb.qc qc hqc)) fun _ t₁ h₁ => ?_
      refine Settles.ite (fun _ => Returns.pure h₁.sane) fun hleader => ?_
      have hbU : b ∈ U := hb.stored (by simp [hqc]) (by simpa using hleader)
      refine Returns.bind (addBlock_returns hU h₁.sane hbU) fun _ t₂ h₂ => ?_
      have hle₂ : t₂.waiting.card ≤ n := (h₁.trans h₂).card_le hcard
      refine Returns.bind (processBufferedQC_returns hU hpb.heeds h₂.sane hle₂ b) fun _ t₃ h₃ => ?_
      obtain ⟨r, hr⟩ := HotStuff.votingRule_returns (s := t₃.toCore) hU h₃.sane.forest b
      refine Settles.get_bind (Settles.call_bind hr ?_)
      rcases r with e | _ | _
      · exact Returns.pure h₃.sane
      · exact Returns.pure h₃.sane
      · refine Returns.bind (castVote_returns hU hme hpb.heeds h₃.sane (h₃.card_le hle₂) b)
          fun _ t₄ h₄ => ?_
        have hw₄ : Within env me U s t₄ :=
          ⟨h₄.sane, (((h₁.trans h₂).trans h₃).trans h₄).waiting.trans hsub⟩
        refine HotStuff.takeUpNext_returns h₄.sane fun d hd => ?_
        obtain ⟨hkey, hread⟩ := h₄.sane.blocks _ d hd
        have hwait : b.view ∈ t₄.waiting := mem_keySet_of_lookup hd
        suffices hcall : Settles (fun k => HotStuff.processBlock env k d) t₄ fun _ u =>
            Sane env me U u ∧ (d.view ≤ t₄.pm.curView ∨ d.view - 1 ∈ t₄.waiting →
              u.waiting ⊆ t₄.waiting) from
          hcall.post fun _ _ hu => ⟨hu.1, hu.2 (Or.inr (hkey ▸ hwait))⟩
        rcases (hw₄.card_le hn.le).lt_or_eq with hlt | heq
        · exact ihn _ hlt h₄.sane hread rfl
        · have hahead := ahead_lt (hU.positive b hbU) hkey hwait hw₄.waiting
          exact ihm _ (hm ▸ hahead) h₄.sane hread heq rfl

end Circle

/-! ## Runs -/

section Runs

variable {env : Env} {me : NodeID} {U : Set Block} {s : Replica}

theorem processLocalTmo_returns (hU : OnePerView U) (h : Sane env me U s) (view : View) :
    Returns env me U (fun _ => Safety.processLocalTmo env .hotStuff view) s := by
  unfold Safety.processLocalTmo
  refine Settles.get_bind (Returns.bind (Settles.modify ⟨{ h with }, subset_rfl⟩) fun _ t ht => ?_)
  have hread : (Msg.tmo ⟨view, s.id, some s.highQC⟩).Readable env me U := ⟨_, rfl, h.highQC⟩
  exact HotStuff.processRemoteTmo_returns hU ht.sane hread

theorem HotStuff.makeProposal_returns (hme : Keyed env me) (h : Sane env me U s) (view : View)
    (payload : List Transaction) :
    Returns env me U (fun _ => HotStuff.makeProposal env view payload) s := by
  unfold HotStuff.makeProposal
  refine Settles.get_bind ?_
  obtain ⟨b, hb⟩ := (h.id.symm ▸ hme : Keyed env s.id).makeBlock view s.highQC s.highQC.blockID
    payload s.isByz (-1) _
  exact Settles.of_eq (congrArg (fun e => call e s) hb) h.within

theorem processNewView_returns (hme : Keyed env me) (h : Sane env me U s)
    (payload : List Transaction) :
    Returns env me U (fun _ => processNewView env (HotStuff.makeProposal env) payload) s := by
  unfold processNewView proposeBlock
  refine Settles.get_bind ?_
  cases s.pm.newViewChan[s.entered]? with
  | none => exact Returns.pure h
  | some view =>
    refine Returns.bind (Settles.set ⟨{ h with }, subset_rfl⟩) fun _ t ht => ?_
    refine Settles.ite (fun _ => ?_) fun _ => Returns.pure ht.sane
    refine Returns.bind (HotStuff.makeProposal_returns hme ht.sane view payload) fun b u hu => ?_
    exact Settles.of_eq rfl ⟨{ hu.sane with }, subset_rfl⟩

theorem handleTxn_returns (h : Sane env me U s) : Returns env me U (fun _ => handleTxn env) s := by
  unfold handleTxn
  exact Settles.get_bind (Settles.ite (fun _ => Settles.modify ⟨{ h with }, subset_rfl⟩) fun _ =>
    Returns.pure h)

/-- Every input is dealt with, and leaves the replica ready for the next. -/
theorem handleInput_settles (hU : OnePerView U) (hme : Keyed env me) (h : Sane env me U s)
    {i : Input} (hi : ∀ m, i = .deliver m → m.Readable env me U) :
    Settles (fun k => handleInput env .hotStuff k i) s fun _ => Sane env me U := by
  have hblock : ∀ t b, Sane env me U t → b.Readable env me U →
      Settles (fun k => HotStuff.processBlock env k b) t fun _ => Sane env me U :=
    fun t b ht hb => (HotStuff.processBlock_settles hU hme ht hb).post fun _ _ hu => hu.1
  have hheeds : Heeds env me U (HotStuff.processBlock env) s.waiting.card := by
    apply Handles.heeds
    intro t b ht hb hview _
    exact (HotStuff.processBlock_settles hU hme ht hb).post fun _ _ hu => ⟨hu.1, hu.2 (.inl hview)⟩
  match i with
  | .deliver (.block b) =>
    exact Settles.bind (hblock s b h (hi _ rfl)) fun _ t ht => Settles.pure ht
  | .deliver (.vote v) =>
    exact (processVote_returns hU hheeds h le_rfl (hi _ rfl)).post fun _ _ hu => hu.sane
  | .deliver (.tmo t) =>
    exact (HotStuff.processRemoteTmo_returns hU h (hi _ rfl)).post fun _ _ hu => hu.sane
  | .deliver (.vmo v) => exact (hheeds s v h le_rfl).post fun _ _ hu => hu.sane
  | .txn => exact (handleTxn_returns h).post fun _ _ hu => hu.sane
  | .timeout =>
    exact Settles.get_bind ((processLocalTmo_returns hU h s.pm.curView).post fun _ _ hu => hu.sane)
  | .newView payload => exact (processNewView_returns hme h payload).post fun _ _ hu => hu.sane

theorem Replica.run_sane (hU : OnePerView U) (hme : Keyed env me) (h : Sane env me U s)
    {inputs : List Input} (hin : ∀ m, .deliver m ∈ inputs → m.Readable env me U) :
    ∃ t, Sane env me U t ∧ ∃ N, ∀ fuel, N ≤ fuel →
      s.run env .hotStuff (inputs.map fun i => (i, fuel)) = t := by
  induction inputs generalizing s with
  | nil => exact ⟨s, h, 0, fun _ _ => rfl⟩
  | cons i inputs ih =>
    obtain ⟨a, t, ⟨N, hN⟩, ht⟩ := handleInput_settles hU hme h (i := i)
      fun m hm => hin m (hm ▸ List.mem_cons_self)
    obtain ⟨u, hu, N', hN'⟩ := ih ht fun m hm => hin m (List.mem_cons_of_mem i hm)
    refine ⟨u, hu, max N N', fun fuel hfuel => ?_⟩
    have hstep : s.step env .hotStuff (i, fuel) = t := by
      simp [Replica.step, h.running, hN fuel (le_of_max_le_left hfuel)]
    rw [← hN' fuel (le_of_max_le_right hfuel), List.map_cons, Replica.run, List.foldl_cons, hstep]
    rfl

end Runs

end Bamboo
