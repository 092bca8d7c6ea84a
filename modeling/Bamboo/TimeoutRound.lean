import Bamboo.GoodRuns
import Bamboo.ViewEnds

/-!
# A round of timeouts

The nodes that are up may have got to the same view in any way, with any messages
lost or still under way. If there are enough of them, each runs into its timeout
and the timeouts reach the others, in any order and perhaps more than once, then
all of them are in the next view.
-/
namespace Bamboo

open Stepwise

/-! ## One timeout -/

section Timeout

variable {env : Env} {alg : Algorithm} {v : View} {K : Msg → Prop} {s s' : Replica}

/-- A timeout changes the view to the one after its own, if at all. -/
theorem Pacemaker.countTmo_next (p : Pacemaker) (tmo : TMO) :
    (p.countTmo tmo).curView = p.curView ∧ (p.countTmo tmo).newViewChan = p.newViewChan ∨
      (p.countTmo tmo).curView = tmo.view + 1 ∧
        (p.countTmo tmo).newViewChan = p.newViewChan ++ [tmo.view + 1] := by
  obtain ⟨hcur, hchan⟩ := Pacemaker.processRemoteTmo_keeps p tmo
  unfold Pacemaker.countTmo
  cases htc : (p.processRemoteTmo tmo).1 with
  | none => exact Or.inl ⟨hcur, hchan⟩
  | some view =>
    have hview : view = tmo.view := by
      unfold Pacemaker.processRemoteTmo at htc
      split_ifs at htc
      exact (Controller.add_eq_some.mp htc).1
    rw [Option.elim_some, Pacemaker.advanceView, hview]
    split_ifs
    · exact Or.inl ⟨hcur, hchan⟩
    · exact Or.inr ⟨rfl, by rw [hchan]⟩

/-- A replica on its way from a view to the next. -/
structure Leaving (env : Env) (v : View) (K : Msg → Prop) (s : Replica) : Prop where
  attentive : Attentive env K (fun _ => False) s
  unwrapped : s.pm.Unwrapped
  view : s.pm.curView = v ∨ s.pm.curView = v + 1

theorem Leaving.narrow {K' : Msg → Prop} (hs : Leaving env v K s) (hK : ∀ m, K' m → K m) :
    Leaving env v K' s :=
  ⟨⟨hs.attentive.abreast, fun m hm => hs.attentive.noted m (hm.imp_left (hK m))⟩, hs.unwrapped,
    hs.view⟩

/-- The timeout of the view has been counted. -/
theorem Leaving.countTmo {tmo : TMO} (hs : Attends env K (fun m => m = .tmo tmo) s)
    (hwrap : s.pm.Unwrapped) (hview : s.pm.curView = v ∨ s.pm.curView = v + 1)
    (htmo : tmo.view = v) (hmax : v + 1 ≠ Int64.minValue)
    (hs' : Apart { s with pm := s.pm.countTmo tmo } s') : Leaving env v K s' := by
  have hpm : s'.pm = s.pm.countTmo tmo := hs'.pm
  have hwrap' : s'.pm.Unwrapped := by
    rw [hpm, Pacemaker.Unwrapped]
    rcases Pacemaker.countTmo_next s.pm tmo with ⟨-, hchan⟩ | ⟨-, hchan⟩
    · rwa [hchan]
    · rw [hchan, List.mem_append, List.mem_singleton, htmo, not_or]
      exact ⟨hwrap, Ne.symm hmax⟩
  refine ⟨(attends_countTmo hs).of_same hs'.id hs'.pm hs'.outbox hwrap', hwrap', ?_⟩
  rw [hpm]
  rcases Pacemaker.countTmo_next s.pm tmo with ⟨hcur, -⟩ | ⟨hcur, -⟩
  · rwa [hcur]
  · rw [hcur, htmo]
    exact Or.inr rfl

theorem Leaving.step_tmo (hs : Leaving env v K s) (hmax : v + 1 ≠ Int64.minValue) {tmo : TMO}
    (htmo : tmo.view = v) {fuel : ℕ}
    (hup : (s.step env alg (.deliver (.tmo tmo), fuel)).crashed = false) :
    Leaving env v (fun m => K m ∨ m = .tmo tmo) (s.step env alg (.deliver (.tmo tmo), fuel)) ∧
      (s.step env alg (.deliver (.tmo tmo), fuel)).outbox = s.outbox ∧
      (s.step env alg (.deliver (.tmo tmo), fuel)).id = s.id := by
  have hstep : Apart { s with pm := s.pm.countTmo tmo }
      (s.step env alg (.deliver (.tmo tmo), fuel)) :=
    Replica.step_leads (i := (.deliver (.tmo tmo), fuel)) (processRemoteTmo_leads
      (K := .anything) (Or.inl trivial) fun _ _ => Or.inl trivial) rfl hup
  have hold : Attends env K (fun _ => False) s := fun _ => hs.attentive
  have hcounted := Leaving.countTmo (Attends.more hold fun _ hm => hm) hs.unwrapped hs.view htmo
    hmax hstep
  exact ⟨hcounted, hstep.outbox, hstep.id⟩

/-- The timeout of a replica that is still in the view. -/
theorem Leaving.step_timeout (hs : Leaving env v K s) (hmax : v + 1 ≠ Int64.minValue)
    (hview : s.pm.curView = v) {fuel : ℕ}
    (hup : (s.step env alg (.timeout, fuel)).crashed = false) :
    Leaving env v K (s.step env alg (.timeout, fuel)) ∧
      (s.step env alg (.timeout, fuel)).outbox =
        s.outbox ++ [⟨none, .tmo ⟨v, s.id, some s.highQC⟩⟩] ∧
      (s.step env alg (.timeout, fuel)).id = s.id := by
  have hstep : Apart { s.push none (.tmo ⟨v, s.id, some s.highQC⟩) with
      pm := s.pm.countTmo ⟨v, s.id, some s.highQC⟩ } (s.step env alg (.timeout, fuel)) := by
    refine Replica.step_leads (R := Change env alg .anything) (J := fun t => t = s) ?_ rfl hup
    refine Leads.bind (Q := fun view t => t = s ∧ view = v) ?_ fun view => ?_
    · exact leads_getCurView.post fun view t ht => ⟨ht.1, by rw [ht.2, ht.1, hview]⟩
    · refine Leads.assume fun heq => ?_
      subst heq
      exact processLocalTmo_leads (Or.inl trivial) view
  have hold : Attends env K (fun _ => False) s := fun _ => hs.attentive
  have hcounted := Leaving.countTmo (Attends.push_tmo hold _) hs.unwrapped hs.view rfl hmax hstep
  exact ⟨hcounted, hstep.outbox, hstep.id⟩

/-- Only HotStuff looks at the certificate of a timeout. -/
theorem processRemoteTmo_settles (halg : alg ≠ .hotStuff) (tmo : TMO) :
    Settles (fun _ => Safety.processRemoteTmo env alg tmo) s fun _ t => t.crashed = s.crashed := by
  have hcount : Settles (fun _ => countTmo tmo) s fun _ t => t.crashed = s.crashed := by
    unfold countTmo
    refine Settles.get_bind ?_
    obtain ⟨tc, pm⟩ := s.pm.processRemoteTmo tmo
    refine Settles.bind (Settles.set (Q := fun _ t => t.crashed = s.crashed) rfl) fun _ t ht => ?_
    cases tc with
    | none => exact Settles.pure ht
    | some view => exact Settles.ite (fun _ => Settles.pure ht) fun _ => Settles.modify ht
  cases alg with
  | hotStuff => exact absurd rfl halg
  | tchs => exact Settles.get_bind (Settles.ite (fun _ => Settles.pure rfl) fun _ => hcount)
  | fhs => exact hcount

theorem Replica.step_tmo_up (halg : alg ≠ .hotStuff) (hup : s.crashed = false) (tmo : TMO)
    (fuel : ℕ) : (s.step env alg (.deliver (.tmo tmo), fuel)).crashed = false :=
  Replica.step_of_settles (Q := fun t => t.crashed = false) hup
    ((processRemoteTmo_settles halg tmo).post fun _ _ ht => ht.trans hup)

theorem Replica.step_timeout_up (halg : alg ≠ .hotStuff) (hup : s.crashed = false) (fuel : ℕ) :
    (s.step env alg (.timeout, fuel)).crashed = false := by
  refine Replica.step_of_settles (Q := fun t => t.crashed = false) hup ?_
  refine Settles.get_bind (Settles.get_bind (Settles.bind (Settles.modify
    (Q := fun _ t => t.crashed = false) hup) fun _ t ht => ?_))
  exact (processRemoteTmo_settles halg _).post fun _ _ hu => hu.trans ht

end Timeout

/-! ## The round -/

namespace World

/-- Some nodes run into their timeouts. -/
def timeOuts (fuel : ℕ) (nodes : List ℕ) : List Turn := nodes.map fun i => ⟨i, .timeout, fuel⟩

/-- The timeouts that nodes have sent after `w` reach others, given by sender and
receiver. -/
def spreadTimeouts (w : World) (fuel : ℕ) (pairs : List (ℕ × ℕ)) : List Turn :=
  pairs.map fun d => ⟨d.2, .deliver d.1 (w.nodes d.1).outbox.length, fuel⟩

/-- The timeout that a node sends next. -/
def timeoutOf (w : World) (i : ℕ) : TMO :=
  ⟨(w.nodes i).pm.curView, (w.nodes i).id, some (w.nodes i).highQC⟩

/-- A crash is final. -/
theorem crashed_of_step {env : Env} {alg : Algorithm} {w : World} {t : Turn} {i : ℕ}
    (h : ((w.step env alg t).nodes i).crashed = false) : (w.nodes i).crashed = false := by
  unfold step at h
  split_ifs at h
  · split at h
    · exact h
    · by_cases heq : i = t.node
      · subst heq
        rw [take_self] at h
        exact Replica.crashed_of_step h
      · rwa [take_ne env alg _ _ heq] at h
  · exact h

end World

section Round

variable {env : Env} {alg : Algorithm} {w₀ w : World} {v : View} {live : List ℕ} {fuel : ℕ}
  {pairs : List (ℕ × ℕ)}

/-- A node that has sent its timeout, and heard of some others. -/
structure World.Warned (env : Env) (w₀ : World) (v : View) (pairs : List (ℕ × ℕ)) (i : ℕ)
    (s : Replica) : Prop where
  leaving : Leaving env v (fun m => ∃ j, (j, i) ∈ pairs ∧ m = .tmo (w₀.timeoutOf j)) s
  outbox : s.outbox = (w₀.nodes i).outbox ++ [⟨none, .tmo (w₀.timeoutOf i)⟩]
  id : s.id = (w₀.nodes i).id

theorem World.Warned.deliver {i j : ℕ} {s : Replica} (hs : w₀.Warned env v pairs i s)
    (hmax : v + 1 ≠ Int64.minValue) (hj : (w₀.nodes j).pm.curView = v)
    (hup : (s.step env alg (.deliver (.tmo (w₀.timeoutOf j)), fuel)).crashed = false) :
    w₀.Warned env v (pairs ++ [(j, i)]) i
      (s.step env alg (.deliver (.tmo (w₀.timeoutOf j)), fuel)) := by
  obtain ⟨hleaving, houtbox, hid⟩ := hs.leaving.step_tmo hmax hj hup
  refine ⟨hleaving.narrow ?_, houtbox.trans hs.outbox, hid.trans hs.id⟩
  rintro m ⟨k, hk, rfl⟩
  rcases List.mem_append.mp hk with hold | hnew
  · exact Or.inl ⟨k, hold, rfl⟩
  · rw [(Prod.mk.inj (List.mem_singleton.mp hnew)).1]
    exact Or.inr rfl

/-- The others are none the wiser. -/
theorem World.Warned.other {i k : ℕ} {j : ℕ} {s : Replica} (hs : w₀.Warned env v pairs i s)
    (hne : i ≠ k) : w₀.Warned env v (pairs ++ [(j, k)]) i s := by
  refine ⟨hs.leaving.narrow ?_, hs.outbox, hs.id⟩
  rintro m ⟨l, hl, rfl⟩
  rcases List.mem_append.mp hl with hold | hnew
  · exact ⟨l, hold, rfl⟩
  · exact absurd (Prod.mk.inj (List.mem_singleton.mp hnew)).2 hne

theorem World.warned_spread (hmax : v + 1 ≠ Int64.minValue)
    (hrange : ∀ i ∈ live, 1 ≤ i ∧ i ≤ env.n) (hview : ∀ i ∈ live, (w₀.nodes i).pm.curView = v)
    (hstart : ∀ i ∈ live, (alg = .hotStuff → (w.nodes i).crashed = false) →
      (w.nodes i).crashed = false ∧ w₀.Warned env v [] i (w.nodes i))
    (hpairs : ∀ d ∈ pairs, d.1 ∈ live ∧ d.2 ∈ live ∧ d.1 ≠ d.2)
    (hup : ∀ i ∈ live, alg = .hotStuff →
      ((w.run env alg (w₀.spreadTimeouts fuel pairs)).nodes i).crashed = false) :
    ∀ i ∈ live, ((w.run env alg (w₀.spreadTimeouts fuel pairs)).nodes i).crashed = false ∧
      w₀.Warned env v pairs i ((w.run env alg (w₀.spreadTimeouts fuel pairs)).nodes i) := by
  induction pairs using List.reverseRecOn with
  | nil => exact fun i hi => hstart i hi (hup i hi)
  | append_singleton pairs d ih =>
    obtain ⟨src, dst⟩ := d
    obtain ⟨hsrc, hdst, hne⟩ := hpairs (src, dst) (by simp)
    have hrun : w.run env alg (w₀.spreadTimeouts fuel (pairs ++ [(src, dst)])) =
        (w.run env alg (w₀.spreadTimeouts fuel pairs)).step env alg
          ⟨dst, .deliver src (w₀.nodes src).outbox.length, fuel⟩ := by
      rw [World.spreadTimeouts, List.map_append, List.map_singleton, World.run_concat]
      rfl
    rw [hrun] at hup ⊢
    have hwarned := ih (fun d hd => hpairs d (by simp [hd])) fun i hi halg =>
      World.crashed_of_step (hup i hi halg)
    have hinput : (w.run env alg (w₀.spreadTimeouts fuel pairs)).input env dst
        (.deliver src (w₀.nodes src).outbox.length) =
          some (.deliver (.tmo (w₀.timeoutOf src))) := by
      simp [World.input, hrange src hsrc, (hwarned src hsrc).2.outbox, hne, Msg.wire]
    rw [World.step_eq _ (hrange dst hdst) hinput] at hup ⊢
    intro i hi
    obtain ⟨hbefore, hs⟩ := hwarned i hi
    by_cases heq : i = dst
    · subst heq
      have hafter := hup i hi
      rw [World.take_self] at hafter ⊢
      have hupi : (((w.run env alg (w₀.spreadTimeouts fuel pairs)).nodes i).step env alg
          (.deliver (.tmo (w₀.timeoutOf src)), fuel)).crashed = false := by
        by_cases halg : alg = .hotStuff
        · exact hafter halg
        · exact Replica.step_tmo_up halg hbefore _ _
      exact ⟨hupi, hs.deliver hmax (hview src hsrc) hupi⟩
    · rw [World.take_ne env alg _ _ heq]
      exact ⟨hbefore, hs.other heq⟩

/-- Every node that is up has sent its timeout and is still leaving the view. -/
theorem World.warned_timeOuts (hmax : v + 1 ≠ Int64.minValue) (hnodup : live.Nodup)
    (hrange : ∀ i ∈ live, 1 ≤ i ∧ i ≤ env.n) (hview : ∀ i ∈ live, (w₀.nodes i).pm.curView = v)
    (hleaving : ∀ i ∈ live, Bamboo.Leaving env v (fun _ => False) (w₀.nodes i))
    (hbefore : ∀ i ∈ live, (w₀.nodes i).crashed = false) {i : ℕ} (hi : i ∈ live)
    (hup : alg = .hotStuff →
      ((w₀.run env alg (World.timeOuts fuel live)).nodes i).crashed = false) :
    ((w₀.run env alg (World.timeOuts fuel live)).nodes i).crashed = false ∧
      w₀.Warned env v [] i ((w₀.run env alg (World.timeOuts fuel live)).nodes i) := by
  have hrun := World.run_each alg w₀ fuel (fun _ => .timeout) (fun _ => .timeout) hnodup hrange
    (fun _ _ _ _ => rfl) i
  rw [if_pos hi] at hrun
  rw [World.timeOuts, hrun] at hup ⊢
  have hupi : ((w₀.nodes i).step env alg (.timeout, fuel)).crashed = false := by
    by_cases halg : alg = .hotStuff
    · exact hup halg
    · exact Replica.step_timeout_up halg (hbefore i hi) fuel
  obtain ⟨hnext, houtbox, hid⟩ := (hleaving i hi).step_timeout hmax (hview i hi) hupi
  refine ⟨hupi, hnext.narrow fun m hm => ?_, ?_, hid⟩
  · obtain ⟨j, hj, -⟩ := hm
    simp at hj
  · rw [houtbox, World.timeoutOf, hview i hi]

/-- Enough of the others' timeouts have arrived. -/
theorem World.Warned.view_eq {i : ℕ} {s : Replica} (hs : w₀.Warned env v pairs i s)
    (hid : ∀ j, (w₀.nodes j).id = newNodeID j) (hview : ∀ j ∈ live, (w₀.nodes j).pm.curView = v)
    (hnodup : live.Nodup) (hmany : 2 * env.n < 3 * live.length)
    (hall : ∀ j ∈ live, j ≠ i → (j, i) ∈ pairs) : s.pm.curView = v + 1 := by
  refine hs.leaving.view.resolve_left fun hstill => ?_
  have hlt : v < s.pm.curView := by
    refine hs.leaving.attentive.view_lt (Or.inl ⟨(live.map newNodeID).toFinset, ?_, ?_⟩)
    · rwa [List.toFinset_card_of_nodup (hnodup.map newNodeID_injective), List.length_map]
    · intro name hname
      obtain ⟨j, hj, rfl⟩ := List.mem_map.mp (List.mem_toFinset.mp hname)
      refine ⟨w₀.timeoutOf j, ?_, hview j hj, hid j⟩
      by_cases heq : j = i
      · subst heq
        exact Or.inr (by simp [hs.outbox])
      · exact Or.inl ⟨j, hall j hj heq, rfl⟩
  rw [hstill] at hlt
  exact Int64.lt_irrefl hlt

end Round

/-- From whatever state an honest network has got into: if more than two thirds of
the nodes are up and in the same view, all of them time out and their timeouts
reach each other, then they are all in the next view. The view is not the largest,
and the views of these nodes have not wrapped around before. In HotStuff this depends
on none of them crashing over a certificate. -/
theorem timeout_round (env : Env) (alg : Algorithm) (turns : List Turn) (live : List ℕ)
    (hnodup : live.Nodup) (hrange : ∀ i ∈ live, 1 ≤ i ∧ i ≤ env.n)
    (hmany : 2 * env.n < 3 * live.length) (v : View) (hmax : v < Int64.maxValue)
    (hbefore : ∀ i ∈ live, ((World.after env alg turns).nodes i).crashed = false ∧
      ((World.after env alg turns).nodes i).pm.curView = v ∧
      Int64.minValue ∉ ((World.after env alg turns).nodes i).pm.newViewChan)
    (fuel : ℕ) (pairs : List (ℕ × ℕ)) (hall : ∀ i ∈ live, ∀ j ∈ live, i ≠ j → (i, j) ∈ pairs)
    (honly : ∀ d ∈ pairs, d.1 ∈ live ∧ d.2 ∈ live ∧ d.1 ≠ d.2)
    (hup : alg = .hotStuff → ∀ i ∈ live, ((World.after env alg (turns ++
      World.timeOuts fuel live ++
      (World.after env alg turns).spreadTimeouts fuel pairs)).nodes i).crashed = false) :
    ∀ i ∈ live, ((World.after env alg (turns ++ World.timeOuts fuel live ++
        (World.after env alg turns).spreadTimeouts fuel pairs)).nodes i).crashed = false ∧
      ((World.after env alg (turns ++ World.timeOuts fuel live ++
        (World.after env alg turns).spreadTimeouts fuel pairs)).nodes i).pm.curView = v + 1 := by
  have hrun : World.after env alg (turns ++ World.timeOuts fuel live ++
      (World.after env alg turns).spreadTimeouts fuel pairs) =
      ((World.after env alg turns).run env alg (World.timeOuts fuel live)).run env alg
        ((World.after env alg turns).spreadTimeouts fuel pairs) := by
    simp [World.after, World.run]
  rw [hrun] at hup ⊢
  have hnext : v + 1 ≠ Int64.minValue := by
    intro heq
    have hsucc := toInt_succ hmax
    have hlo := v.le_toInt
    rw [heq, show Int64.minValue.toInt = -2 ^ 63 from rfl] at hsucc
    omega
  have hview : ∀ i ∈ live, ((World.after env alg turns).nodes i).pm.curView = v :=
    fun i hi => (hbefore i hi).2.1
  have hid : ∀ j, ((World.after env alg turns).nodes j).id = newNodeID j := by
    intro j
    obtain ⟨inputs, hinputs⟩ := World.after_node env alg turns j
    rw [hinputs, Replica.run_id]
  have hleaving : ∀ i ∈ live,
      Leaving env v (fun _ => False) ((World.after env alg turns).nodes i) := by
    intro i hi
    obtain ⟨hrunning, hcur, hwrap⟩ := hbefore i hi
    refine ⟨?_, hwrap, Or.inl hcur⟩
    obtain ⟨inputs, hinputs⟩ := World.after_node env alg turns i
    rw [hinputs] at hrunning hwrap ⊢
    have hwatchful := run_watchful env alg (newNodeID i) false inputs hrunning
    exact Attends.more hwatchful.1 (fun _ hm => hm.elim) hwrap
  have hwarned := World.warned_spread hnext hrange hview (fun i hi => World.warned_timeOuts hnext
    hnodup hrange hview hleaving (fun i hi => (hbefore i hi).1) hi) honly fun i hi halg =>
      hup halg i hi
  intro i hi
  obtain ⟨hstill, hs⟩ := hwarned i hi
  exact ⟨hstill, hs.view_eq hid hview hnodup hmany fun j hj hne => hall j hj i hi hne⟩

/-- Node 4 proposes the first block, which reaches the others, and is not heard of
again. -/
def fourNodes.lastWord : List Turn :=
  [⟨4, .txn, 0⟩, ⟨4, .newView [], 2⟩] ++ spread 4 0 [1, 2, 3]

theorem timeout_round_lastWord :
    let w := World.after fourNodes .hotStuff (fourNodes.lastWord ++ World.timeOuts 0 [1, 2, 3] ++
      (World.after fourNodes .hotStuff fourNodes.lastWord).spreadTimeouts 0
        [(3, 1), (1, 2), (2, 1), (1, 3), (3, 2), (2, 3), (3, 2)])
    (w.nodes 1).pm.curView = 2 ∧ (w.nodes 2).pm.curView = 2 ∧ (w.nodes 3).pm.curView = 2 := by
  have hround := timeout_round fourNodes .hotStuff fourNodes.lastWord [1, 2, 3] (by decide)
    (by decide) (by decide) 1 (by decide) (by decide +kernel) 0
    [(3, 1), (1, 2), (2, 1), (1, 3), (3, 2), (2, 3), (3, 2)] (by decide) (by decide)
    (by decide +kernel)
  exact ⟨(hround 1 (by decide)).2, (hround 2 (by decide)).2, (hround 3 (by decide)).2⟩

end Bamboo
