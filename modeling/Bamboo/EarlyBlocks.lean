import Bamboo.Buffers

/-!
# Early blocks in HotStuff

Having voted for a block, HotStuff processes the buffered block of the next view
and deletes it from the buffer. If the next view has been entered by then, the
block is handled first; if not, it is buffered anew, under the same key, and the
deletion drops it for good. So a buffered block is kept until it is handled as
long as the replica has left the view of every block it votes for while the next
one waits.

The proof follows the calls. What can be buffered during the vote was buffered
before it, so the block that is found after the vote was there when it was cast.
-/
namespace Bamboo

open Relation Stepwise

/-! ## Prompt votes -/

/-- Whenever a block was voted for while one of the next view was waiting, the
view of the block had been left. -/
def Prompt (trace : List Event) : Prop :=
  ∀ e ∈ trace, ∀ c ∈ e.voted, (e.core.bufferedBlocks.lookup c.view).isSome →
    c.view < e.core.pm.curView

/-- The block is buffered where it belongs, or past the test that buffers it. -/
def Kept (b : Block) (s : Replica) : Prop :=
  s.bufferedBlocks.lookup (b.view - 1) = some b ∨ Taken b s

/-- Kept, on the assumption that nothing so far has been against it. -/
def Guarded (D : Msg → Prop) (b : Block) (s : Replica) : Prop :=
  Prompt s.trace → Below D s → Kept b s

/-- No two delivered blocks are of the same view. -/
def DistinctViews (D : Msg → Prop) : Prop :=
  ∀ b c, D (.block b) → D (.block c) → b.view = c.view → b = c

section Steps

variable {env : Env} {alg : Algorithm} {K : Known} {s s' : Replica} {b : Block}

theorem Prompt.anti {past trace : List Event} (h : Prompt trace) (hs : past <:+ trace) :
    Prompt past :=
  fun e he => h e (hs.subset he)

theorem Act.bufferedBlocks (h : Act env alg K s s') :
    s'.bufferedBlocks = s.bufferedBlocks ∨
      ∃ c, K.block c ∧ s'.bufferedBlocks = s.bufferedBlocks.insert (c.view - 1) c := by
  cases h with
  | clerical h => exact Or.inl h.apart.bufferedBlocks
  | buffer c hc _ => exact Or.inr ⟨c, hc, rfl⟩
  | _ => exact Or.inl rfl

theorem Guarded.of_buffer {D : Msg → Prop} (hs : Guarded D b s) (h : Later s s')
    (hb : s.bufferedBlocks.lookup (b.view - 1) = some b →
      s'.bufferedBlocks.lookup (b.view - 1) = some b) : Guarded D b s' := by
  intro hprompt hbelow
  exact (hs (hprompt.anti h.trace) (hbelow.anti h.toGrows)).imp hb fun ht => ht.mono h

theorem Act.guarded (h : Act env alg K s s') (hone : DistinctViews K.msg) (hb : K.block b)
    (hs : Guarded K.msg b s) : Guarded K.msg b s' := by
  refine hs.of_buffer h.later fun hl => ?_
  rcases h.bufferedBlocks with heq | ⟨c, hc, heq⟩
  · rw [heq]
    exact hl
  · rw [heq]
    by_cases hview : b.view = c.view
    · rw [hone b c hb hc hview, AList.lookup_insert]
    · rw [AList.lookup_insert_ne fun hkey => hview ((Int64.sub_left_inj 1).mp hkey)]
      exact hl

theorem Guarded.erase {D : Msg → Prop} {view : View} (hs : Guarded D b s)
    (h : view ≠ b.view - 1) :
    Guarded D b { s with bufferedBlocks := s.bufferedBlocks.erase view } := by
  refine hs.of_buffer (later_unbuffer s view) fun hl => ?_
  change (s.bufferedBlocks.erase view).lookup (b.view - 1) = some b
  rw [AList.lookup_erase_ne h.symm]
  exact hl

theorem Change.curView_le (h : Change env alg K s s') (hst : Steady env alg K s)
    (hbelow : Below K.msg s') : s.pm.curView ≤ s'.pm.curView := by
  rcases h.views hst with hsame | ⟨view, hwhy, hnext⟩
  · exact Int64.le_of_eq hsame.curView.symm
  · rw [hnext.curView]
    apply s.pm.le_advanceView
    rcases hwhy with rfl | hjust
    · decide
    · exact hjust.lt_max hbelow

end Steps

/-! ## The calls -/

section Calls

variable {env : Env} {K : Known} {b : Block} {fuel : ℕ}

/-- A block of a view that has come is taken up. -/
theorem processBlock_takes (hb : K.block b) :
    Leads (Change env .hotStuff K)
      (fun s => Steady env .hotStuff K s ∧ b.view ≤ s.pm.start.curView)
      (HotStuff.processBlock env fuel b)
      fun _ s => Steady env .hotStuff K s ∧ Taken b s := by
  cases fuel with
  | zero => exact Leads.throw
  | succ fuel =>
    have hblocks : ∀ c, K.block c → K.early c →
        Minds env .hotStuff K (Steady env .hotStuff K) (HotStuff.processBlock env fuel c) :=
      fun c hc hearly => (processBlock_minds (fun _ h => h) Steady.act Steady.unbuffer fuel
        hc).pre fun s hs => ⟨hs, Or.inl hearly⟩
    have hJ : ∀ s s', Act env .hotStuff K s s' → Steady env .hotStuff K s ∧ Taken b s →
        Steady env .hotStuff K s' ∧ Taken b s' :=
      fun _ _ ha hs => ⟨ha.steady hs.1, hs.2.mono ha.later⟩
    have hU : ∀ s view, Steady env .hotStuff K s ∧ Taken b s →
        Steady env .hotStuff K { s with bufferedBlocks := s.bufferedBlocks.erase view } ∧
          Taken b { s with bufferedBlocks := s.bufferedBlocks.erase view } :=
      fun s view hs => ⟨hs.1.unbuffer s view, hs.2⟩
    have hboth : ∀ c, K.block c → K.early c → Minds env .hotStuff K
        (fun s => Steady env .hotStuff K s ∧ Taken b s) (HotStuff.processBlock env fuel c) :=
      fun c hc hearly => Minds.beside (fun _ _ h ht => ht.mono h) (hblocks c hc hearly)
    refine hotStuff_processBlock_minds hb (fun _ h => h.1) (fun _ _ hq => hJ _ _ hq.act)
      (fun _ h => h) (Leads.start fun s hs => ?_) ?_
    · refine (takeUp_minds (fun _ h => h) Steady.act (fun view => (takeUpBuffered_minds
        (fun _ h => h) Steady.unbuffer hblocks view).pre fun s hs => hs.1) hb hs.1
        (Or.inr hs.2)).post fun ok t ht => ?_
      obtain ⟨hup, hok⟩ := ht
      rw [if_pos (hok hs.2)] at hup ⊢
      obtain ⟨hsteady, s₁, htaken⟩ := hup
      exact ⟨⟨hsteady, htaken.pending.taken⟩, s₁, htaken⟩
    · exact Leads.bind (castVote_guarded_minds (fun _ h => h.1) hJ hU hboth fuel b) fun _ =>
        hotStuff_takeUpNext_minds (fun _ h => h.1) hU hboth b.view

/-- What is known after the vote for a block in a state. -/
structure Since (D : Msg → Prop) (s : Replica) (c : Block) (t : Replica) : Prop where
  voted : ∃ v, Event.vote s.toCore c v ∈ t.trace
  curView : Below D t → s.pm.curView ≤ t.pm.curView

theorem Since.mono {s t u : Replica} {c : Block} (hs : Since K.msg s c t)
    (h : Change env .hotStuff K t u) (hst : Steady env .hotStuff K t) : Since K.msg s c u where
  voted := hs.voted.imp fun _ he => h.later.trace.subset he
  curView hbelow :=
    Int64.le_trans (hs.curView (hbelow.anti h.later.toGrows)) (h.curView_le hst hbelow)

theorem Since.beside {s : Replica} {c : Block} {J P : Replica → Prop} {α : Type} {m : Exec α}
    (hJ : ∀ t, J t → Steady env .hotStuff K t)
    (h : Leads (Change env .hotStuff K) (fun t => J t ∧ P t) m fun _ => J) :
    Leads (Change env .hotStuff K) (fun t => (J t ∧ Since K.msg s c t) ∧ P t) m
      fun _ t => J t ∧ Since K.msg s c t :=
  (h.carry (J := fun t => Steady env .hotStuff K t ∧ Since K.msg s c t)
    (fun _ _ hm ht => ⟨hm.steady ht.1, ht.2.mono hm ht.1⟩)
    fun t ht => ⟨⟨ht.1.1, ht.2⟩, hJ t ht.1.1, ht.1.2⟩).post fun _ _ ht => ⟨ht.1, ht.2.2⟩

/-- The block of the next view was waiting when the vote was cast. -/
theorem Since.come {D : Msg → Prop} {s t : Replica} {c d : Block} (h : Since D s c t)
    (hs : Steady env .hotStuff K s) (hd : Waiting s d) (hkey : d.view - 1 = c.view)
    (hprompt : Prompt t.trace) (hbelow : Below D t) : d.view ≤ t.pm.start.curView := by
  obtain ⟨v, he⟩ := h.voted
  have hlook : s.bufferedBlocks.lookup c.view = some d := by
    rw [← hkey]
    exact hs.waiting_iff.mp hd
  have hleft : c.view < s.pm.curView := hprompt _ he c rfl (by rw [Event.core, hlook]; rfl)
  have hnow := Int64.le_trans (h.curView hbelow) (Pacemaker.curView_le_start t.pm)
  have hlt := Int64.lt_iff_toInt_lt.mp (Int64.lt_of_lt_of_le hleft hnow)
  have hmax : c.view < Int64.maxValue := by
    rw [Int64.lt_iff_toInt_lt]
    exact lt_of_lt_of_le hlt (Int64.toInt_le _)
  have hview : d.view = c.view + 1 := by grind
  have hsucc := toInt_succ hmax
  rw [hview, Int64.le_iff_toInt_le]
  omega

/-- What is proved of every call. -/
def Keeps (env : Env) (K : Known) (b : Block) (s : Replica) : Prop :=
  Steady env .hotStuff K s ∧ Guarded K.msg b s

variable (hone : DistinctViews K.msg) (hb : K.block b)
include hone hb

theorem Act.keeps (s s' : Replica) (h : Act env .hotStuff K s s') (hs : Keeps env K b s) :
    Keeps env K b s' :=
  ⟨h.steady hs.1, h.guarded hone hb hs.2⟩

section Nested

variable (ih : ∀ c, K.block c → K.early c →
  Minds env .hotStuff K (Keeps env K b) (HotStuff.processBlock env fuel c))
include ih

/-- The block that is taken out is another one, or of a view that has come. -/
theorem takeUpBuffered_keeps (view : View) :
    Leads (Change env .hotStuff K) (fun s => Keeps env K b s ∧ view ≤ s.pm.curView)
      (takeUpBuffered (HotStuff.processBlock env fuel) view) fun _ => Keeps env K b := by
  unfold takeUpBuffered
  refine Leads.get_bind fun s hs => ?_
  cases hl : s.bufferedBlocks.lookup (view - 1) with
  | none => exact Leads.pure fun t ht => ht ▸ hs.1
  | some c =>
    obtain ⟨hkey, hblock, hearly⟩ := hs.1.1.blocks _ _ hl
    have hview : c.view = view := (Int64.sub_left_inj 1).mp hkey
    have hout : Change env .hotStuff K s
        { s with bufferedBlocks := s.bufferedBlocks.erase (view - 1) } := .unbuffer s _
    refine Leads.bind (Leads.of_modify_at hout) fun _ => ?_
    by_cases hc : c = b
    · subst hc
      have hcome : c.view ≤ s.pm.start.curView :=
        Int64.le_trans (hview ▸ hs.2) (Pacemaker.curView_le_start s.pm)
      refine Leads.bind ((processBlock_takes hb).at_start ⟨hout.steady hs.1.1, hcome⟩) fun _ => ?_
      exact Leads.pure fun t ht => ⟨ht.1, fun _ _ => Or.inr ht.2⟩
    · have hother : view - 1 ≠ b.view - 1 := fun heq =>
        hc (hone c b hblock hb (hview.trans ((Int64.sub_left_inj 1).mp heq)))
      exact Leads.bind ((ih c hblock hearly).at_start ⟨hout.steady hs.1.1, hs.1.2.erase hother⟩)
        fun _ => Minds.done

/-- The block found after a vote is handled before it is deleted, if the vote was
prompt; whether it is the one looked at or not, that one is kept. -/
theorem takeUpNext_keeps {s : Replica} {c : Block} (hwait : ∀ d, K.early d → Waiting s d)
    (hs : Steady env .hotStuff K s) :
    Leads (Change env .hotStuff K) (fun t => Keeps env K b t ∧ Since K.msg s c t)
      (HotStuff.takeUpNext (HotStuff.processBlock env fuel) c.view) fun _ => Keeps env K b := by
  unfold HotStuff.takeUpNext
  refine Leads.get_bind fun t ht => ?_
  cases hl : t.bufferedBlocks.lookup c.view with
  | none => exact Leads.pure fun u hu => hu ▸ ht.1
  | some d =>
    obtain ⟨hkey, hblock, hearly⟩ := ht.1.1.blocks _ _ hl
    have herase : ∀ (F : Replica → Prop), (∀ u, F u → Guarded K.msg b
          { u with bufferedBlocks := u.bufferedBlocks.erase c.view }) →
        Leads (Change env .hotStuff K) (fun u => Steady env .hotStuff K u ∧ F u)
          (modify fun s => { s with bufferedBlocks := s.bufferedBlocks.erase c.view } : Exec Unit)
          fun _ => Keeps env K b :=
      fun F hF => Leads.of_modify fun u hu =>
        ⟨.unbuffer u _, Steady.unbuffer u _ hu.1, hF u hu.2⟩
    by_cases hd : d = b
    · subst hd
      by_cases hcome : d.view ≤ t.pm.start.curView
      · refine Leads.bind ((processBlock_takes hb).at_start ⟨ht.1.1, hcome⟩) fun _ => ?_
        exact Leads.bind (herase (Taken d) fun u hu _ _ => Or.inr hu) fun _ => Minds.done
      · -- the vote was not prompt, and stays so
        have hnot : ¬ (Prompt t.trace ∧ Below K.msg t) := fun h =>
          hcome (ht.2.come hs (hwait d hearly) hkey h.1 h.2)
        have hlater : ∀ u u', Later u u' → ¬ (Prompt u.trace ∧ Below K.msg u) →
            ¬ (Prompt u'.trace ∧ Below K.msg u') :=
          fun u u' h hn h' => hn ⟨h'.1.anti h.trace, h'.2.anti h.toGrows⟩
        refine Leads.bind ((Minds.beside hlater (ih d hblock hearly)).at_start ⟨ht.1, hnot⟩)
          fun _ => ?_
        refine Leads.bind ((herase _ fun u hu hp hbelow =>
          absurd ⟨hp, hbelow⟩ (hlater u _ (later_unbuffer u c.view) hu)).pre
          fun u hu => ⟨hu.1.1, hu.2⟩) fun _ => Minds.done
    · have hother : c.view ≠ b.view - 1 := fun heq =>
        hd (hone d b hblock hb ((Int64.sub_left_inj 1).mp (hkey.trans heq)))
      refine Leads.bind ((ih d hblock hearly).at_start ht.1) fun _ => ?_
      exact Leads.bind (herase _ fun u hu => hu.erase hother) fun _ => Minds.done

end Nested

/-- By induction on the fuel, for every choice of the blocks that may come early. -/
theorem processBlock_keeps {c : Block} (hc : K.block c) :
    Leads (Change env .hotStuff K) (fun s => Keeps env K b s ∧ Acceptable K c s)
      (HotStuff.processBlock env fuel c) fun _ => Keeps env K b := by
  induction fuel generalizing K c with
  | zero => exact Leads.throw
  | succ fuel ih =>
    have hnested : ∀ {K : Known}, DistinctViews K.msg → K.block b → ∀ d, K.block d → K.early d →
        Minds env .hotStuff K (Keeps env K b) (HotStuff.processBlock env fuel d) :=
      fun hone hb d hd hearly => (ih hone hb hd).pre fun s hs => ⟨hs, Or.inl hearly⟩
    have hbuf := takeUpBuffered_keeps hone hb (hnested hone hb)
    refine hotStuff_processBlock_minds hc (fun _ h => h.1)
      (fun _ _ hq => Act.keeps hone hb _ _ hq.act) (fun _ h => h) (Leads.start fun s hs => ?_)
      (Leads.start fun s hs => ?_)
    · exact (takeUp_minds (fun _ h => h.1) (Act.keeps hone hb) hbuf hc hs.1 hs.2).post
        fun _ _ h => h.1
    · -- from here on only what waits now can come early
      obtain ⟨⟨hsteady, hguarded⟩, core, qc, hvote⟩ := hs
      have hearly : ∀ d, Waiting s d → K.early d :=
        fun d ⟨view, hd⟩ => (hsteady.blocks view d hd).2.2
      have hone' : DistinctViews (K.narrow (Waiting s)).msg := hone
      have hb' : (K.narrow (Waiting s)).block b := hb
      have hend : Leads (Change env .hotStuff (K.narrow (Waiting s))) (fun t => t = s)
          (castVote env (HotStuff.rules env) (HotStuff.processBlock env fuel) fuel c >>= fun _ =>
            HotStuff.takeUpNext (HotStuff.processBlock env fuel) c.view)
          fun _ => Keeps env (K.narrow (Waiting s)) b := by
        refine Leads.bind (castVote_minds
          (J := fun t => Keeps env (K.narrow (Waiting s)) b t ∧
            Since (K.narrow (Waiting s)).msg s c t)
          (fun _ h => h.1.1)
          (fun t u ha ht => ⟨Act.keeps hone' hb' t u ha ht.1, ht.2.mono (.act ha) ht.1.1⟩)
          (fun view => ?_) (rules_lead _ _ _) fuel (fun t ht => ⟨core, qc, ht ▸ hvote⟩)
          fun t v made ht => ?_) fun _ =>
          takeUpNext_keeps hone' hb' (hnested hone' hb') (fun _ h => h) hsteady.narrow
        · exact Since.beside (fun _ h => h.1)
            (takeUpBuffered_keeps hone' hb' (hnested hone' hb') view)
        · subst ht
          have hact : Act env .hotStuff (K.narrow (Waiting t)) t (t.record (.vote t.toCore c v)) :=
            .vote t core c qc v hvote made
          exact ⟨Act.keeps hone' hb' _ _ hact ⟨hsteady.narrow, hguarded⟩,
            ⟨v, List.mem_cons_self⟩, fun _ => Int64.le_refl _⟩
      have hle : (K.narrow (Waiting s)).Le K := ⟨fun _ h => h, fun _ h => h, hearly⟩
      have hwide : ∀ t, Keeps env (K.narrow (Waiting s)) b t → Keeps env K b t :=
        fun t ht => ⟨ht.1.of_narrow hearly, ht.2⟩
      exact (hend.rel fun _ _ hm => hm.le hle).post fun _ t ht => hwide t ht

/-- A turn that does not propose. -/
theorem handleInput_keeps_change {i : Input} (hopen : ∀ c, K.early c) (hi : Supplied K i)
    (hnot : ∀ payload, i ≠ .newView payload) :
    Minds env .hotStuff K (Keeps env K b) (handleInput env .hotStuff fuel i) := by
  have hblock : ∀ c, K.block c →
      Minds env .hotStuff K (Keeps env K b) (HotStuff.processBlock env fuel c) :=
    fun c hc => (processBlock_keeps hone hb hc).pre fun s hs => ⟨hs, Or.inl (hopen c)⟩
  refine handleInput_minds (fun _ h => h.1) (Act.keeps hone hb) hi hnot
    (takeUpBuffered_keeps hone hb fun c hc _ => hblock c hc) (fun _ h => h)
    (fun c hc => ?_) fun view => Leads.start fun s hs => ?_
  · subst hc
    exact hblock c hi
  · -- a timeout leaves the buffer as it was
    have htmo := (processLocalTmo_leads hs.1.highQC view).carry
      (J := fun t => Steady env .hotStuff K t ∧ Later s t)
      (fun _ _ hm ht => ⟨hm.steady ht.1, ht.2.trans hm.later⟩)
      fun t (ht : t = s) => ⟨ht, ht ▸ hs.1, ht ▸ Later.refl s⟩
    exact htmo.post fun _ t ht => ⟨ht.2.1, hs.2.of_buffer ht.2.2 fun hl =>
      (congrArg _ ht.1.bufferedBlocks).trans hl⟩

/-- Any block may be buffered. -/
theorem handleInput_keeps {i : Input} (hopen : ∀ c, K.early c) (hi : Supplied K i) :
    Leads (Step env .hotStuff K) (Keeps env K b) (handleInput env .hotStuff fuel i)
      fun _ => Keeps env K b := by
  cases i with
  | newView payload =>
    exact processNewView_leads (fun s _ => Act.keeps hone hb s _) (fun s s' hm _ _ hbuf hs =>
      ⟨hm.steady hs.1, hs.2.of_buffer hm.later fun hl => hbuf ▸ hl⟩) payload
  | _ =>
    exact (handleInput_keeps_change hone hb hopen hi fun _ h => nomatch h).rel fun _ _ => .change

end Calls

/-! ## Runs -/

section Runs

variable {env : Env} {alg : Algorithm} {s : Replica} {i : Input × ℕ}

/-- A crash is final. -/
theorem Replica.crashed_of_step (h : (s.step env alg i).crashed = false) : s.crashed = false := by
  cases hcrash : s.crashed with
  | false => rfl
  | true => simp [Replica.step, hcrash] at h

/-- A turn that does not end in a crash is led by its handler to the end. -/
theorem Replica.step_leads {R : Replica → Replica → Prop} {J J' : Replica → Prop}
    (h : Leads R J (handleInput env alg i.2 i.1) fun _ => J') (hs : J s)
    (hok : (s.step env alg i).crashed = false) : J' (s.step env alg i) := by
  have hm := h s hs
  have hcrash := Replica.crashed_of_step hok
  cases hres : handleInput env alg i.2 i.1 s with
  | ok a t =>
    rw [hres] at hm
    simpa [Replica.step, hcrash, hres] using hm.2
  | error f t => simp [Replica.step, hcrash, hres] at hok

variable (env : Env) (id : NodeID)

/-- A block that has been buffered stays where it is until it is handled. -/
theorem early_block_kept (inputs more : List (Input × ℕ)) (b : Block)
    (hone : DistinctViews (deliveredIn (inputs ++ more)))
    (hbuffered : (HotStuff.after env id false inputs).bufferedBlocks.lookup (b.view - 1) = some b)
    (hok : (HotStuff.after env id false (inputs ++ more)).crashed = false)
    (hprompt : Prompt (HotStuff.after env id false (inputs ++ more)).trace)
    (hbelow : Below (deliveredIn (inputs ++ more))
      (HotStuff.after env id false (inputs ++ more))) :
    Kept b (HotStuff.after env id false (inputs ++ more)) := by
  have hsteady := Replica.after_steady env .hotStuff id false inputs more
  have hb : deliveredIn (inputs ++ more) (.block b) := (hsteady.blocks _ _ hbuffered).2.1
  have hrun : ∀ rest, rest <+: more →
      (HotStuff.after env id false (inputs ++ rest)).crashed = false →
      Keeps env (.delivered (inputs ++ more)) b
        (HotStuff.after env id false (inputs ++ rest)) := by
    intro rest
    induction rest using List.reverseRecOn with
    | nil =>
      intro _ _
      rw [List.append_nil]
      exact ⟨hsteady, fun _ _ => Or.inl hbuffered⟩
    | append_singleton rest i ih =>
      intro hrest hok
      have hlast : HotStuff.after env id false (inputs ++ (rest ++ [i])) =
          (HotStuff.after env id false (inputs ++ rest)).step env .hotStuff i := by
        rw [← List.append_assoc]
        exact Replica.run_append ..
      rw [hlast] at hok ⊢
      have hbring : Supplied (.delivered (inputs ++ more)) i.1 :=
        Supplied.delivered (List.mem_append_right _ (hrest.subset (by simp)))
      have hpast := ih ((List.prefix_append rest [i]).trans hrest) (Replica.crashed_of_step hok)
      exact Replica.step_leads (handleInput_keeps hone hb (fun _ => trivial) hbring) hpast hok
  exact (hrun more List.prefix_rfl hok).2 hprompt hbelow

end Runs

theorem fourNodes.secondFirst_distinctViews :
    DistinctViews (deliveredIn fourNodes.secondFirst) := by
  have hkinds : ∀ b, deliveredIn fourNodes.secondFirst (.block b) →
      b = fourNodes.chain 1 ∨ b = fourNodes.chain 0 := by
    rintro b ⟨fuel, hb⟩
    simp [secondFirst, announcement] at hb
    exact hb.imp And.left And.left
  intro b c hb hc hview
  rcases hkinds b hb with rfl | rfl <;> rcases hkinds c hc with rfl | rfl
  · rfl
  · exact absurd hview (by decide)
  · exact absurd hview (by decide)
  · rfl

theorem early_block_kept_second :
    (HotStuff.after fourNodes "1" false fourNodes.secondFirst).bufferedBlocks.lookup 1 = none ∧
    Kept (fourNodes.chain 1) (HotStuff.after fourNodes "1" false fourNodes.secondFirst) :=
  ⟨by decide +kernel, early_block_kept fourNodes "1" (fourNodes.secondFirst.take 1)
    (fourNodes.secondFirst.drop 1) (fourNodes.chain 1) fourNodes.secondFirst_distinctViews
    (by decide +kernel) (by decide +kernel) (by unfold Prompt; decide +kernel)
    (below_of_views (by decide +kernel) (by decide +kernel))⟩

/-- The block of view 2 comes before the one of view 1 and is buffered. The vote
for the other one, in view 1, takes it out of the buffer, and it is never handled. -/
theorem early_block_lost :
    (HotStuff.after fourNodes "1" false (deliverAll [fourNodes.chain 1])).bufferedBlocks.lookup 1 =
      some (fourNodes.chain 1) ∧
    (HotStuff.after fourNodes "1" false
      (deliverAll [fourNodes.chain 1, fourNodes.chain 0])).crashed = false ∧
    (fourNodes.chain 0).view ≠ (fourNodes.chain 1).view ∧
    ¬ Kept (fourNodes.chain 1) (HotStuff.after fourNodes "1" false
      (deliverAll [fourNodes.chain 1, fourNodes.chain 0])) := by
  refine ⟨by decide +kernel, by decide +kernel, by decide, ?_⟩
  have hgone : (HotStuff.after fourNodes "1" false (deliverAll [fourNodes.chain 1,
      fourNodes.chain 0])).bufferedBlocks.lookup 1 = none := by decide +kernel
  have hnever : ∀ e ∈ (HotStuff.after fourNodes "1" false (deliverAll [fourNodes.chain 1,
      fourNodes.chain 0])).trace, e.handled ≠ some (fourNodes.chain 1) := by decide +kernel
  rintro (hkept | ⟨core, he⟩)
  · exact absurd (hgone.symm.trans hkept) (by simp)
  · exact hnever _ he rfl

end Bamboo
