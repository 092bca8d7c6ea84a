import Bamboo.ForkReports
import Bamboo.HotStuffAgreement
import Bamboo.Survival

/-!
# What a replica reports

A replica uses its block chain through `AddBlock` and `CommitBlock` only, besides the
votes, and passes on what the commits return. So a run of a replica is a session on the
block chain, and what is known of sessions holds of replicas. In an honest network the
blocks of the sessions are those the network shows, one for each view, and no block is
reported twice.
-/
namespace Bamboo

open Relation Stepwise

/-! ## Replicas run sessions -/

namespace BlockChain

/-- What a commit returns depends on the forest only. -/
theorem commitBlock_congr {bc bc₂ bc' : BlockChain} {id : Identifier} {view : View}
    {r : Except Err (List Block × List Block)} (hforest : bc₂.forrest = bc.forrest)
    (h : bc.commitBlock id view = .ok (r, bc')) :
    ∃ bc₂', bc₂.commitBlock id view = .ok (r, bc₂') ∧ bc₂'.forrest = bc'.forrest := by
  unfold commitBlock at h ⊢
  rw [hforest]
  cases hb : bc.forrest.getVertex id with
  | none =>
    rw [hb] at h
    cases h
    exact ⟨bc₂, rfl, hforest⟩
  | some b =>
    simp only [hb, bind, Except.bind] at h ⊢
    cases hpath : committedPath bc.forrest (bc.forrest.vertices.entries.length + 1) b with
    | error f =>
      rw [hpath] at h
      cases h
    | ok path =>
      simp only [hpath] at h ⊢
      rw [countCommitted_forrest] at h ⊢
      cases hprune : bc.forrest.pruneUpToLevel b.level with
      | error f =>
        rw [hprune] at h
        cases h
      | ok pruned =>
        obtain ⟨_ | ⟨forked, prunedNo⟩, f⟩ := pruned
        all_goals
          rw [hprune] at h
          cases h
          exact ⟨_, rfl, rfl⟩

theorem addBlock_congr {bc bc₂ bc' : BlockChain} {b : Block}
    (hforest : bc₂.forrest = bc.forrest) (h : bc.addBlock b = .ok bc') :
    bc₂.addBlock b = .ok { bc₂ with forrest := bc'.forrest } := by
  unfold addBlock at h ⊢
  rw [hforest]
  cases hadd : bc.forrest.addVertex b with
  | error f =>
    rw [hadd] at h
    cases h
  | ok f =>
    rw [hadd] at h
    cases h
    rfl

theorem addVote_forrest {env : Env} {bc bc' : BlockChain} {v : Vote} {r : Option QC}
    (h : bc.addVote env v = (r, bc')) : bc'.forrest = bc.forrest :=
  (congrArg (fun p => p.2.forrest) h).symm

end BlockChain

/-- The session that a replica has run on its block chain. -/
structure InSession (s : Replica) (n : ℕ) (calls : List ChainCall) (t : Session) : Prop where
  run : (Session.new n).run calls = .ok t
  added : ∀ b, .addBlock b ∈ calls → ∃ core, Event.handle core b ∈ s.trace
  forest : t.chain.forrest = s.bc.forrest
  committed : s.committedBlocks = t.commits.reverse.flatMap Commit.committed
  forked : s.forkedBlocks = t.commits.reverse.flatMap Commit.forked
  recorded : ∀ c ∈ t.commits, ∃ core qc head, Event.commit core qc head c.committed ∈ s.trace

namespace InSession

variable {env : Env} {alg : Algorithm} {K : Known} {s s' : Replica} {n : ℕ}
  {calls : List ChainCall} {t t' : Session}

/-- Nothing is done with the forest. -/
theorem same (h : InSession s n calls t) (hforest : s'.bc.forrest = s.bc.forrest)
    (hcommitted : s'.committedBlocks = s.committedBlocks)
    (hforked : s'.forkedBlocks = s.forkedBlocks) (htrace : s.trace <:+ s'.trace) :
    InSession s' n calls t where
  run := h.run
  added b hb := (h.added b hb).imp fun _ he => htrace.subset he
  forest := h.forest.trans hforest.symm
  committed := hcommitted.trans h.committed
  forked := hforked.trans h.forked
  recorded c hc := by
    obtain ⟨core, qc, head, he⟩ := h.recorded c hc
    exact ⟨core, qc, head, htrace.subset he⟩

theorem run_snoc (h : InSession s n calls t) {c : ChainCall} (hcall : t.call c = .ok t') :
    (Session.new n).run (calls ++ [c]) = .ok t' := by
  rw [Session.run_concat, h.run]
  exact hcall

/-- The replica stores the block in hand. -/
theorem store (h : InSession s n calls t) {core : Core} {b : Block} {bc : BlockChain}
    (hand : inHand s.trace = some (core, b)) (hadd : s.bc.addBlock b = .ok bc) :
    InSession { s with bc := bc } n (calls ++ [.addBlock b])
      { t with chain := { t.chain with forrest := bc.forrest } } where
  run := by
    apply h.run_snoc
    simp [Session.call, BlockChain.addBlock_congr h.forest hadd, bind, Except.bind, pure,
      Except.pure]
  added c hc := by
    rcases List.mem_append.mp hc with hold | hnew
    · exact h.added c hold
    · cases List.mem_singleton.mp hnew
      exact ⟨core, inHand_mem hand⟩
  forest := rfl
  committed := h.committed
  forked := h.forked
  recorded := h.recorded

theorem commit (h : InSession s n calls t) {id : Identifier} {view : View}
    {committed forked : List Block} {bc : BlockChain}
    (hdone : s.bc.commitBlock id view = .ok (.ok (committed, forked), bc))
    (hforest : s'.bc.forrest = bc.forrest)
    (hcommitted : s'.committedBlocks = s.committedBlocks ++ committed)
    (hforked : s'.forkedBlocks = s.forkedBlocks ++ forked) (htrace : s.trace <:+ s'.trace)
    (hrecorded : ∃ core qc head, Event.commit core qc head committed ∈ s'.trace) :
    ∃ calls t, InSession s' n calls t := by
  obtain ⟨bc', hdone', hforest'⟩ := BlockChain.commitBlock_congr h.forest hdone
  cases hhead : t.chain.forrest.getVertex id with
  | none =>
    rw [BlockChain.commitBlock_missing hhead] at hdone'
    cases hdone'
  | some head =>
    refine ⟨calls ++ [.commitBlock id view], ⟨bc', ⟨head, committed, forked⟩ :: t.commits⟩,
      h.run_snoc ?_, fun b hb => ?_, hforest'.trans hforest.symm, ?_, ?_, fun c hc => ?_⟩
    · simp [Session.call, hdone', hhead, bind, Except.bind, pure, Except.pure]
    · rcases List.mem_append.mp hb with hold | hnew
      · exact (h.added b hold).imp fun _ he => htrace.subset he
      · cases List.mem_singleton.mp hnew
    · rw [hcommitted, h.committed]
      simp
    · rw [hforked, h.forked]
      simp
    · rcases List.mem_cons.mp hc with rfl | hold
      · exact hrecorded
      · obtain ⟨core, qc, b, he⟩ := h.recorded c hold
        exact ⟨core, qc, b, htrace.subset he⟩

theorem commitFailed (h : InSession s n calls t) {id : Identifier} {view : View} {e : Err}
    {bc : BlockChain} (hfail : s.bc.commitBlock id view = .ok (.error e, bc)) :
    ∃ calls t, InSession { s with bc := bc } n calls t := by
  obtain ⟨bc', hfail', hforest'⟩ := BlockChain.commitBlock_congr h.forest hfail
  refine ⟨calls ++ [.commitBlock id view], { t with chain := bc' }, h.run_snoc ?_, fun b hb => ?_,
    hforest', h.committed, h.forked, h.recorded⟩
  · simp [Session.call, hfail', bind, Except.bind, pure, Except.pure]
  · rcases List.mem_append.mp hb with hold | hnew
    · exact h.added b hold
    · cases List.mem_singleton.mp hnew

theorem clerical (h : InSession s n calls t) (hc : Clerical env alg K s s') :
    ∃ calls t, InSession s' n calls t := by
  have htrace := hc.later.trace
  cases hc with
  | store core b bc hand _ _ hadd => exact ⟨_, _, h.store hand hadd⟩
  | tally v bc _ hadd =>
    exact ⟨calls, t, h.same (BlockChain.addVote_forrest hadd) rfl rfl htrace⟩
  | build v qc bc _ hadd =>
    exact ⟨calls, t, h.same (BlockChain.addVote_forrest hadd) rfl rfl htrace⟩
  | commit qc head committed forked bc _ hdone =>
    exact h.commit hdone rfl rfl rfl htrace ⟨_, qc, head, List.mem_cons_self⟩
  | commitFailed id e bc hfail => exact h.commitFailed hfail
  | _ => exact ⟨calls, t, h.same rfl rfl rfl htrace⟩

theorem step (h : InSession s n calls t) (hstep : Step env alg K s s') :
    ∃ calls t, InSession s' n calls t := by
  have htrace := hstep.later.trace
  rcases hstep with ((hc | _) | _ | _) | _ | _ | _
  · exact h.clerical hc
  all_goals exact ⟨calls, t, h.same rfl rfl rfl htrace⟩

end InSession

theorem Reachable.inSession {env : Env} {alg : Algorithm} {K : Known} {id : NodeID} {s : Replica}
    (h : Reachable env alg K id s) : ∃ calls t, InSession s env.n calls t := by
  refine h.invariant (J := fun s => ∃ calls t, InSession s env.n calls t)
    (fun s s' hstep hs => ?_) ?_
  · obtain ⟨calls, t, hs⟩ := hs
    exact hs.step hstep
  · exact ⟨[], Session.new env.n, rfl, by simp, rfl, rfl, rfl, by simp [Session.new]⟩

/-! ## Only stored blocks are reported -/

theorem LevelledForest.Coherent.forked_stored {f f' : LevelledForest} (hf : f.Coherent)
    {level : UInt64} {forked : List Block} {prunedNo : ℕ}
    (h : f.pruneUpToLevel level = .ok (.ok (forked, prunedNo), f')) :
    ∀ x ∈ forked, ∃ d, f.getVertex d = some x := by
  intro x hx
  rcases pruneUpToLevel_ok hf h with ⟨-, hr, -⟩ | ⟨-, committed, p, -, hp, hr, -⟩
  · cases hr
  · cases hr
    rw [hp.forked] at hx
    obtain ⟨l, -, hl⟩ := List.mem_flatMap.mp hx
    unfold forkedAt at hl
    split_ifs at hl
    · obtain ⟨a, ha, hv⟩ := List.mem_filterMap.mp hl
      obtain ⟨d, -, hd⟩ := (hf.listed l a).mp ha
      exact ⟨d, getVertex_eq_some.mpr ⟨a, hd, hv⟩⟩
    · cases hl

/-- What is stored or has been reported was added before. -/
structure Session.Sourced (calls : List ChainCall) (t : Session) : Prop where
  coherent : t.chain.forrest.Coherent
  stored : ∀ d x, t.chain.forrest.getVertex d = some x → .addBlock x ∈ calls
  reported : ∀ c ∈ t.commits, ∀ x, x ∈ c.committed ∨ x ∈ c.forked → .addBlock x ∈ calls

namespace Session

theorem sourced_new (n : ℕ) : Sourced [] (new n) where
  coherent := LevelledForest.coherent_new
  stored d x h := by
    simp [new, BlockChain.new, LevelledForest.new, LevelledForest.getVertex] at h
  reported := by simp [new]

theorem Sourced.snoc {calls : List ChainCall} {t : Session} (h : Sourced calls t) (c : ChainCall) :
    Sourced (calls ++ [c]) t where
  coherent := h.coherent
  stored d x hx := List.mem_append_left _ (h.stored d x hx)
  reported c hc x hx := List.mem_append_left _ (h.reported c hc x hx)

theorem Sourced.call {calls : List ChainCall} {t t' : Session} (h : Sourced calls t)
    {c : ChainCall} (hcall : t.call c = .ok t') : Sourced (calls ++ [c]) t' := by
  cases c with
  | addBlock b =>
    cases hadd : t.chain.forrest.addVertex b with
    | error f => simp [Session.call, BlockChain.addBlock, hadd, bind, Except.bind] at hcall
    | ok f =>
      simp only [Session.call, BlockChain.addBlock, hadd, bind, Except.bind, pure, Except.pure]
        at hcall
      cases hcall
      obtain ⟨-, -, hget⟩ := LevelledForest.addVertex_spec h.coherent.toSound hadd
      refine ⟨h.coherent.addVertex hadd, fun d x hx => ?_, (h.snoc _).reported⟩
      rw [hget] at hx
      split_ifs at hx
      · cases hx
        exact List.mem_append_right _ (List.mem_singleton_self _)
      · exact (h.snoc _).stored d x hx
  | commitBlock id view =>
    cases hcommit : t.chain.commitBlock id view with
    | error f => simp [Session.call, hcommit, bind, Except.bind] at hcall
    | ok p =>
      obtain ⟨r, bc⟩ := p
      rcases BlockChain.commitBlock_ok hcommit with
        ⟨-, rfl, rfl⟩ | ⟨b, path, res, hb, hpath, hprune, -, hr⟩
      · simp only [Session.call, hcommit, bind, Except.bind, pure, Except.pure] at hcall
        cases hcall
        exact h.snoc _
      · have hcoherent := h.coherent.pruneUpToLevel hprune
        have hstored : ∀ d x, bc.forrest.getVertex d = some x →
            .addBlock x ∈ calls ++ [.commitBlock id view] := fun d x hx =>
          (h.snoc _).stored d x ((LevelledForest.pruneUpToLevel_forgets hprune).getVertex hx)
        rcases hr with ⟨e, rfl, rfl⟩ | ⟨forked, prunedNo, rfl, rfl⟩
        · simp only [Session.call, hcommit, bind, Except.bind, pure, Except.pure] at hcall
          cases hcall
          exact ⟨hcoherent, hstored, (h.snoc _).reported⟩
        · simp only [Session.call, hcommit, hb, bind, Except.bind, pure, Except.pure] at hcall
          cases hcall
          refine ⟨hcoherent, hstored, fun c hc x hx => ?_⟩
          rcases List.mem_cons.mp hc with rfl | hold
          · have hx' : ∃ d, t.chain.forrest.getVertex d = some x := by
              rcases hx with hx | hx
              · rcases committedPath_stored hpath x hx with rfl | hstored
                · exact ⟨id, hb⟩
                · exact hstored
              · exact h.coherent.forked_stored hprune x hx
            obtain ⟨d, hd⟩ := hx'
            exact (h.snoc _).stored d x hd
          · exact (h.snoc _).reported c hold x hx

theorem run_sourced {n : ℕ} {calls : List ChainCall} {t : Session}
    (h : (new n).run calls = .ok t) : Sourced calls t := by
  induction calls using List.reverseRecOn generalizing t with
  | nil =>
    cases h
    exact sourced_new n
  | append_singleton calls c ih =>
    rw [run_concat] at h
    cases hrun : (new n).run calls with
    | error f =>
      rw [hrun] at h
      cases h
    | ok t₀ =>
      rw [hrun] at h
      exact (ih hrun).call h

end Session

/-- What a replica reports was supplied to it. -/
theorem Reachable.reported {env : Env} {alg : Algorithm} {K : Known} {id : NodeID} {s : Replica}
    (h : Reachable env alg K id s) {b : Block}
    (hb : b ∈ s.committedBlocks ∨ b ∈ s.forkedBlocks) : K.block b := by
  obtain ⟨calls, t, hsession⟩ := h.inSession
  have hcommit : ∃ c ∈ t.commits, b ∈ c.committed ∨ b ∈ c.forked := by
    rw [hsession.committed, hsession.forked] at hb
    rcases hb with hb | hb
    · obtain ⟨c, hc, hmem⟩ := List.mem_flatMap.mp hb
      exact ⟨c, List.mem_reverse.mp hc, Or.inl hmem⟩
    · obtain ⟨c, hc, hmem⟩ := List.mem_flatMap.mp hb
      exact ⟨c, List.mem_reverse.mp hc, Or.inr hmem⟩
  obtain ⟨c, hc, hmem⟩ := hcommit
  obtain ⟨core, he⟩ := hsession.added b ((Session.run_sourced hsession.run).reported c hc b hmem)
  obtain ⟨s₁, recent, -, -, -, hrec⟩ := h.mem he
  exact hrec

/-! ## What a session reports -/

/-- The block is the newest that the commit delivers. -/
def Commit.Newest (c : Commit) (x : Block) : Prop :=
  x ∈ c.committed ∧ ∀ y ∈ c.committed, y.level ≤ x.level

namespace Session

/-- Reported blocks are not above the lowest level, those reported as forked are below,
and neither is reported twice. What is reported as both was the newest of a commit. -/
structure Filed (U : Set Block) (s : Session) : Prop extends s.Settled where
  committed_mem : ∀ x ∈ s.committed, x ∈ U
  forked_mem : ∀ x ∈ s.forked, x ∈ U
  forked_lt : ∀ x ∈ s.forked, x.level < s.chain.forrest.lowestLevel
  forked_nodup : s.forked.Nodup
  newest : ∀ x ∈ s.committed, x.level = s.chain.forrest.lowestLevel → ∃ c ∈ s.commits, c.Newest x
  both : ∀ x ∈ s.committed, x ∈ s.forked → ∃ c ∈ s.commits, c.Newest x

theorem filed_new (U : Set Block) (n : ℕ) : Filed U (new n) where
  le_lowest := by simp [new, committed]
  nodup := by simp [new, committed]
  committed_mem := by simp [new, committed]
  forked_mem := by simp [new, forked]
  forked_lt := by simp [new, forked]
  forked_nodup := by simp [new, forked]
  newest := by simp [new, committed]
  both := by simp [new, committed]

variable {U : Set Block} {s s' : Session}

theorem Filed.step (hU : OnePerView U) (hf : s.chain.forrest.Fits U) (h : Filed U s) {c : ChainCall}
    (hs : Step U s c s') : Filed U s' := by
  have hsettled := h.toSettled.step hU hf hs
  cases hs with
  | addBlock mem hlow =>
    exact ⟨hsettled, h.committed_mem, h.forked_mem,
      fun x hx => by simpa only [hlow] using h.forked_lt x hx, h.forked_nodup,
      fun x hx hl => h.newest x hx (by simpa only [hlow] using hl), h.both⟩
  | missing => exact h
  | @commit id view b committed forked bc hb _ hc =>
    have hstored := hf.stored_of_getVertex hb
    have hlowest : ∀ x, s.chain.forrest.Stored x → s.chain.forrest.lowestLevel ≤ x.level := by
      intro x hx
      obtain ⟨-, -, -, -, hle⟩ := hf.atLevel_of_stored hU hx
      exact hle
    have hjoined : ∀ x ∈ committed, s.chain.forrest.Stored x ∧ x.level ≤ b.level := by
      intro x hx
      obtain ⟨hx', hle⟩ := hf.joined hU.treelike hstored ((hc.committed_iff x).mp hx).1
      refine ⟨hx', ?_⟩
      rcases hle with rfl | hlt
      · exact UInt64.le_refl _
      · exact UInt64.le_of_lt hlt
    have hmem : ∀ x, x ∈ Session.committed ⟨bc, ⟨b, committed, forked⟩ :: s.commits⟩ ↔
        x ∈ committed ∨ x ∈ s.committed := by
      simp [Session.committed]
    have hmem' : ∀ x, x ∈ Session.forked ⟨bc, ⟨b, committed, forked⟩ :: s.commits⟩ ↔
        x ∈ forked ∨ x ∈ s.forked := by
      simp [Session.forked]
    -- a report of an earlier commit stays
    have hearlier : ∀ x, (∃ c ∈ s.commits, c.Newest x) →
        ∃ c ∈ ⟨b, committed, forked⟩ :: s.commits, c.Newest x := by
      rintro x ⟨c, hc, hnew⟩
      exact ⟨c, List.mem_cons_of_mem _ hc, hnew⟩
    refine ⟨hsettled, fun x hx => ?_, fun x hx => ?_, fun x hx => ?_, ?_, fun x hx hl => ?_,
      fun x hx hx' => ?_⟩
    · rcases (hmem x).mp hx with hnew | hold
      · exact (hf.mem_of_getVertex (hjoined x hnew).1).1
      · exact h.committed_mem x hold
    · rcases (hmem' x).mp hx with hnew | hold
      · exact (hf.mem_of_getVertex ((hc.forked_iff x).mp hnew).1).1
      · exact h.forked_mem x hold
    · simp only [hc.lowestLevel]
      rcases (hmem' x).mp hx with hnew | hold
      · exact ((hc.forked_iff x).mp hnew).2.2.1
      · exact UInt64.lt_of_lt_of_le (h.forked_lt x hold) (hlowest b hstored)
    · simp only [Session.forked, List.flatMap_cons]
      refine hc.forked_nodup.append h.forked_nodup fun x hx hx' => ?_
      have hle := hlowest x ((hc.forked_iff x).mp hx).1
      exact UInt64.not_lt.mpr hle (h.forked_lt x hx')
    · simp only [hc.lowestLevel] at hl
      rcases (hmem x).mp hx with hnew | hold
      · exact ⟨_, List.mem_cons_self, hnew, fun y hy => by rw [hl]; exact (hjoined y hy).2⟩
      · refine hearlier x (h.newest x hold (UInt64.le_antisymm (h.le_lowest x hold) ?_))
        rw [hl]
        exact hlowest b hstored
    · rcases (hmem x).mp hx with hnew | hold
      · rcases (hmem' x).mp hx' with hnew' | hold'
        · exact absurd ((hc.committed_iff x).mp hnew).1 ((hc.forked_iff x).mp hnew').2.2.2
        · have hlt := UInt64.lt_trans (h.forked_lt x hold') ((hc.committed_iff x).mp hnew).2
          exact absurd hlt (UInt64.lt_irrefl _)
      · rcases (hmem' x).mp hx' with hnew' | hold'
        · have hle := hlowest x ((hc.forked_iff x).mp hnew').1
          exact hearlier x (h.newest x hold (UInt64.le_antisymm (h.le_lowest x hold) hle))
        · exact hearlier x (h.both x hold hold')

end Session

theorem Session.run_filed {U : Set Block} (hU : OnePerView U) {n : ℕ} {calls : List ChainCall}
    (hcalls : ∀ b, .addBlock b ∈ calls → b ∈ U) {t : Session}
    (hrun : (Session.new n).run calls = .ok t) : t.Filed U := by
  obtain ⟨t', hrun', -, hfiled⟩ := Session.run_invariant hU n (J := fun _ t => t.Filed U)
    (filed_new U n) (fun _ _ _ _ _ _ hf hs h => h.step hU hf hs) hcalls
  rw [hrun] at hrun'
  cases hrun'
  exact hfiled

/-! ## Networks -/

namespace World

variable {env : Env} {alg : Algorithm} {w w' : World} {i : ℕ}

/-- What can be given to one node. -/
def knownTo (env : Env) (w : World) (i : ℕ) : Known :=
  .supplying (fun b => b ∈ w.Visible env i ∧ ∀ q ∈ b.qc, w.Backed env q) (w.Backed env)
    (fun v => ∃ j core b, w.Did env j (.vote core b v)) (backed_initial env w)
    fun _ q h hq => h.2 q hq

theorem knownTo_le (h : ∀ i, Later (w.nodes i) (w'.nodes i)) :
    (w.knownTo env i).Le (w'.knownTo env i) := by
  have hknown : (w.known env).Le (w'.known env) := known_le fun j => (h j).trace
  refine Known.supplying_le (fun b hb => ?_) hknown.qc fun v => hknown.msg (.vote v)
  exact ⟨Visible.mono h i hb.1, fun q hq => hknown.qc q (hb.2 q hq)⟩

/-- A block that circulates has a certificate and comes from the leader of its view. -/
theorem Circulates.led (hw : ∀ i, Reachable env alg (w.known env) (newNodeID i) (w.nodes i))
    {b : Block} (h : w.Circulates env b) :
    b.qc.isSome ∧ env.election.isLeader b.proposer b.view = true := by
  obtain ⟨j, core, b₀, hdid, hb⟩ := h
  obtain ⟨s, recent, -, -, -, hprop⟩ := (hw j).mem hdid.2
  have hraw : b.raw = b₀.raw := by
    rcases hb with rfl | hwire
    · rfl
    · cases hwire
      rfl
  have hqc : b.qc = b₀.qc := congrArg RawBlock.qc hraw
  have hproposer : b.proposer = b₀.proposer := congrArg RawBlock.proposer hraw
  have hview : b.view = b₀.view := congrArg RawBlock.view hraw
  rw [hqc, hproposer, hview, hprop.certificate, hprop.proposer]
  exact ⟨rfl, hprop.leader⟩

/-- A reported block was proposed, with its payload, by the node that it names. -/
theorem reported_proposed {turns : List Turn} {b : Block}
    (hb : b ∈ ((after env alg turns).nodes i).committedBlocks ∨
      b ∈ ((after env alg turns).nodes i).forkedBlocks) :
    ∃ j b₀, (1 ≤ j ∧ j ≤ env.n) ∧ b₀ ∈ ((after env alg turns).nodes j).proposals ∧
      b.proposer = newNodeID j ∧ b.payload = b₀.payload := by
  have hw := after_reachable env alg turns
  obtain ⟨⟨j, core, b₀, hdid, heq⟩, -⟩ := (hw i).reported hb
  obtain ⟨s, recent, hreach, -, -, hprop⟩ := (hw j).mem hdid.2
  obtain ⟨hproposer, hpayload⟩ : b.proposer = b₀.proposer ∧ b.payload = b₀.payload := by
    rcases heq with rfl | hwire
    · exact ⟨rfl, rfl⟩
    · cases hwire
      exact ⟨rfl, rfl⟩
  refine ⟨j, b₀, hdid.1, mem_proposals.mpr ⟨core, hdid.2⟩, ?_, hpayload⟩
  rw [hproposer, hprop.proposer, hreach.id_eq]

/-- What the network lets through to a node can be given to it. -/
theorem input_known (hw : ∀ i, Reachable env alg (w.known env) (newNodeID i) (w.nodes i))
    {a : Action} {input : Input} (h : w.input env i a = some input) :
    Supplied (w.knownTo env i) input := by
  have hsup := input_supplied hw h
  cases input with
  | deliver m =>
    cases m with
    | block b =>
      obtain ⟨hqc, hleader⟩ := Circulates.led hw hsup.1
      exact ⟨(input_readable hw h).stored hqc hleader, hsup.2⟩
    | _ => exact hsup
  | _ => trivial

/-- In the end each node has gone through transitions that what could be given to it
allows for. -/
theorem after_reachableTo (turns : List Turn) (i : ℕ) :
    Reachable env alg ((after env alg turns).knownTo env i) (newNodeID i)
      ((after env alg turns).nodes i) := by
  induction turns using List.reverseRecOn with
  | nil => exact .refl
  | append_singleton turns t ih =>
    have hle : ((after env alg turns).knownTo env i).Le
        ((after env alg (turns ++ [t])).knownTo env i) :=
      knownTo_le (after_later turns t)
    refine Reachable.le ?_ hle
    have hw := after_reachable env alg turns
    rw [after_append]
    generalize after env alg turns = w at ih hw
    unfold step
    split_ifs
    · cases hin : w.input env t.node t.action with
      | none => exact ih
      | some input =>
        by_cases heq : i = t.node
        · subst heq
          rw [take_self]
          exact ih.trans (Replica.step_reaches (fun _ => trivial) ih.steady (input_known hw hin))
        · rw [take_ne env alg _ _ heq]
          exact ih
    · exact ih

/-- The session of a node, on the blocks that the network shows to it. -/
theorem after_inSession (alg : Algorithm) (turns : List Turn) (i : ℕ) :
    ∃ calls t, InSession ((after env alg turns).nodes i) env.n calls t ∧
      ∀ b, .addBlock b ∈ calls → b ∈ (after env alg turns).Visible env i := by
  have hreach : Reachable env alg ((after env alg turns).knownTo env i) (newNodeID i) _ :=
    after_reachableTo turns i
  obtain ⟨calls, t, hsession⟩ := hreach.inSession
  refine ⟨calls, t, hsession, fun b hb => ?_⟩
  obtain ⟨core, he⟩ := hsession.added b hb
  obtain ⟨s, recent, -, -, -, hrec⟩ := hreach.mem he
  exact hrec.1

end World

theorem nodup_views {U : Set Block} (hU : OnePerView U) {l : List Block} (h : l.Nodup)
    (hmem : ∀ b ∈ l, b ∈ U) : (l.map Block.view).Nodup :=
  h.map_on fun a ha b hb => hU.views a (hmem a ha) b (hmem b hb)

/-- In an honest network with one leader for each view, in which no ids collide, no views
wrap around and each proposal is above its certificate, no node delivers a block twice as
committed or twice as forked. A block that it delivers as both was the newest of the commit
that delivered it. -/
theorem reported_once (env : Env) (alg : Algorithm) (turns : List Turn) (hone : OneLeader env)
    (hreg : (World.after env alg turns).Regular env) (i : ℕ) :
    let s := (World.after env alg turns).nodes i
    (s.committedBlocks.map Block.view).Nodup ∧ (s.forkedBlocks.map Block.view).Nodup ∧
      ∀ b ∈ s.committedBlocks, b ∈ s.forkedBlocks →
        ∃ core qc head committed, Event.commit core qc head committed ∈ s.trace ∧
          b ∈ committed ∧ ∀ c ∈ committed, c.view ≤ b.view := by
  have hU := World.onePerView_visible hone turns hreg i
  obtain ⟨calls, t, hsession, hcalls⟩ := World.after_inSession alg turns i
  have hfiled := Session.run_filed hU hcalls hsession.run
  -- the session lists its commits newest first
  have hcommitted : ((World.after env alg turns).nodes i).committedBlocks.Perm t.committed := by
    rw [hsession.committed]
    exact List.Perm.flatMap_right _ (List.reverse_perm _)
  have hforked : ((World.after env alg turns).nodes i).forkedBlocks.Perm t.forked := by
    rw [hsession.forked]
    exact List.Perm.flatMap_right _ (List.reverse_perm _)
  refine ⟨?_, ?_, fun b hb hb' => ?_⟩
  · exact nodup_views hU (hcommitted.nodup_iff.mpr hfiled.nodup) fun b hb =>
      hfiled.committed_mem b (hcommitted.mem_iff.mp hb)
  · exact nodup_views hU (hforked.nodup_iff.mpr hfiled.forked_nodup) fun b hb =>
      hfiled.forked_mem b (hforked.mem_iff.mp hb)
  · rw [hcommitted.mem_iff] at hb
    obtain ⟨c, hc, hmem, hmax⟩ := hfiled.both b hb (hforked.mem_iff.mp hb')
    obtain ⟨core, qc, head, he⟩ := hsession.recorded c hc
    refine ⟨core, qc, head, c.committed, he, hmem, fun x hx => ?_⟩
    have hpos : ∀ y ∈ t.committed, 0 ≤ y.view := fun y hy =>
      hU.treelike.view_nonneg (hfiled.committed_mem y hy)
    have hx' : x ∈ t.committed := List.mem_flatMap.mpr ⟨c, hc, hx⟩
    refine Int64.not_lt.mp fun hlt => ?_
    exact UInt64.not_lt.mpr (hmax x hx) ((level_lt_iff (hpos b hb) (hpos x hx')).mpr hlt)

theorem oneLeader_static {env : Env} {master : NodeID} (h : env.election = static master) :
    OneLeader env := by
  intro i _ view hleader
  rw [h] at hleader ⊢
  exact (of_decide_eq_true hleader).symm

/-- Nodes 2, 3 and 4 go through a view, of which there have been some before. -/
def steadyView (views : ℕ) : List Turn :=
  [⟨4, .newView [], 8⟩] ++ spread 4 (2 * views) [4, 2, 3] ++
    collect 4 [(2, 2 * views), (3, 2 * views)] ++ spread 4 (2 * views + 1) [2, 3] ++
    collect 4 [(2, 2 * views + 1), (3, 2 * views + 1)]

/-- Nodes 2, 3 and 4 go through nine views and time out. Node 1 gets their timeouts and
then the blocks, but never those of views 1 and 6. -/
def twoGaps : List Turn :=
  [⟨4, .txn, 8⟩] ++ (List.range 9).flatMap steadyView ++
    [⟨2, .timeout, 8⟩, ⟨3, .timeout, 8⟩, ⟨4, .timeout, 8⟩] ++
    collect 1 [(2, 18), (3, 18), (4, 18), (4, 2), (4, 4), (4, 6), (4, 8), (4, 12), (4, 14), (4, 16)]

/-- Node 1 commits the block of view 2 and later, since the block of view 6 is missing,
reports it as forked, with those after it that the others have committed. -/
theorem reported_once_twoGaps :
    let w := World.after oneMaster .hotStuff twoGaps
    (w.nodes 2).committedBlocks.map Block.view = [1, 2, 3, 4, 5, 6] ∧
      (w.nodes 1).committedBlocks.map Block.view = [2, 7] ∧
      (w.nodes 1).forkedBlocks.map Block.view = [2, 3, 4, 5] ∧
      ((w.nodes 1).committedBlocks.map Block.view).Nodup ∧
      ((w.nodes 1).forkedBlocks.map Block.view).Nodup := by
  -- one evaluation of the run for all that is read off it
  obtain ⟨htwo, hcommitted, hforked, hfree, hlower, hviews⟩ :
      ((World.after oneMaster .hotStuff twoGaps).nodes 2).committedBlocks.map Block.view =
        [1, 2, 3, 4, 5, 6] ∧
      ((World.after oneMaster .hotStuff twoGaps).nodes 1).committedBlocks.map Block.view = [2, 7] ∧
      ((World.after oneMaster .hotStuff twoGaps).nodes 1).forkedBlocks.map Block.view =
        [2, 3, 4, 5] ∧
      CollisionFree oneMaster (World.after oneMaster .hotStuff twoGaps) ∧
      (∀ e ∈ (World.after oneMaster .hotStuff twoGaps).events oneMaster, ∀ b ∈ e.proposed,
        ∀ q ∈ b.qc, q.view < b.view) ∧
      ∀ i ∈ Finset.Icc 1 4, Int64.minValue ∉
        ((World.after oneMaster .hotStuff twoGaps).nodes i).pm.newViewChan := by
    decide +kernel
  have hreg : (World.after oneMaster .hotStuff twoGaps).Regular oneMaster :=
    ⟨hfree, fun i hi => hviews i (Finset.mem_Icc.mpr hi), hlower⟩
  obtain ⟨honce, honce', -⟩ := reported_once oneMaster .hotStuff twoGaps
    (oneLeader_static rfl) hreg 1
  exact ⟨htwo, hcommitted, hforked, honce, honce'⟩

end Bamboo
