import Conveyor.Proofs.Run.Dues
import Conveyor.Proofs.Run.OpenSteps
import Conveyor.Proofs.Run.Reports

/-!
# The event log of a run

`Engine.execute_logs` says what the timeline of every report looks like. Steps start and end in
turn. If the run is completed, all of them are completed, and everything that a map does lies
between its start and its end. If the run is cut off, what is open then is interrupted, and nothing
else is. If it fails, what stays open are branches of the map that failed, and the steps in them:
they go on without it, or they have panicked.
-/

namespace Conveyor

/-! ### Kinds of events -/

section Kinds

variable {α : Type} {count : Nat} {parts : Nat → List α} {l : List α}

theorem Interleaves.exists_mem (h : Interleaves count parts l) {x : α} (hx : x ∈ l) :
    ∃ item < count, x ∈ parts item := by
  obtain ⟨owned, rfl, howners, hparts⟩ := h
  obtain ⟨e, he, rfl⟩ := List.mem_map.mp hx
  refine ⟨e.1, howners e he, ?_⟩
  rw [← hparts e.1 (howners e he)]
  exact List.mem_map_of_mem (List.mem_filter.mpr ⟨he, decide_eq_true rfl⟩)

mutual

theorem Step.Completed.kinds : ∀ (s : Step) (id : String) {marks : List Mark},
    s.Completed id marks → ∀ mark ∈ marks, mark.2 = .started ∨ mark.2 = .completed
  | .pass _, _, _, h, mark, hmark => by
    obtain rfl : _ = [] := h
    cases hmark
  | .task _, _, _, h, mark, hmark => by
    obtain rfl : _ = [] := h
    cases hmark
  | .map _ iterator, id, _, ⟨count, parts, hinner, hparts⟩, mark, hmark => by
    obtain ⟨item, hitem, hmem⟩ := hinner.exists_mem hmark
    obtain ⟨inner, hcompleted, heq⟩ := hparts item hitem
    rw [heq] at hmem
    simp only [List.cons_append, List.mem_cons, List.mem_append, List.not_mem_nil, or_false] at hmem
    rcases hmem with rfl | hmem | rfl
    · exact .inl rfl
    · exact Pipeline.Completed.kinds iterator _ hcompleted mark hmem
    · exact .inr rfl

/-- Everything in a completed pipeline is started and completed. -/
theorem Pipeline.Completed.kinds : ∀ (steps : List Step) (scope : String) {marks : List Mark},
    Pipeline.Completed scope steps marks →
    ∀ mark ∈ marks, mark.2 = .started ∨ mark.2 = .completed
  | [], _, _, h, mark, hmark => by
    obtain rfl : _ = [] := h
    cases hmark
  | s :: steps, scope, _, ⟨inner, rest, hs, hsteps, heq⟩, mark, hmark => by
    subst heq
    simp only [List.cons_append, List.mem_cons, List.mem_append] at hmark
    rcases hmark with rfl | hmark | rfl | hmark
    · exact .inl rfl
    · exact Step.Completed.kinds s _ hs mark hmark
    · exact .inr rfl
    · exact Pipeline.Completed.kinds steps scope hsteps mark hmark

end

end Kinds

/-! ### Logs between steps -/

namespace Machine

variable {σ : Type} {adapter : Adapter σ} {deadline : Option Nat} {m m' : Machine σ}

theorem AtRest.tasks {context : Json} (h : AtRest context m) : m.tasks = [] := by
  rw [h.1]
  rfl

/-- Between two steps of the pipeline at the top nothing is open. -/
theorem Executed.logs {context : Json} {index : Nat} {steps : List Step}
    (hsteps : Executed adapter deadline index steps m m') (hrest : AtRest context m)
    (hw : m.world.Logs []) : m'.world.Logs [] := by
  induction hsteps generalizing context with
  | nil index m => exact hw
  | @cons index s steps m m' context' hs hsteps ih =>
    have hrest' := atRest_runStep hrest hs
    refine ih hrest' ?_
    have hcharted : Charted s (m.runStep adapter deadline index s) :=
      charted_runStep hrest hw index s
    obtain ⟨F, -, hF⟩ := hcharted.framed (by simp [hs])
    have hall : F.all (m.runStep adapter deadline index s) = [] := by
      rw [Frames.all, Frames.members, hrest'.tasks, hF.completed context' hs]
      rfl
    exact hall ▸ hF.logs

end Machine

/-! ### Reports -/

/-- A branch below the step `s` of the pipeline at the top that goes on without it, and its open
steps, the last one first: it has not begun, or it is open, or a step in it too. What it does yet
ends them, unless it panics. -/
def Task.Adrift (s : Step) (t : Task) (opened : List String) : Prop :=
  ∃ id item, Covers (branchId s.name item) id ∧ t.state.Balanced s.Stuck (OpensInside id) opened ∧
    (opened = [] ∧ (∃ a : Activity, t.state = .paused (.activity a) ∧ a.Starts id) ∨
      opened = [id] ∨ ∃ inner, opened = [id ++ "/" ++ inner, id])

/-- The open steps of a branch below the step `s` of the pipeline at the top that has panicked: the
step whose result does not fit, and the branch. -/
inductive Step.Wrecks (s : Step) : List String → Prop
  | intro {head : MapHead} {iterator : Pipeline} {x : Step} {id : String} {item : Nat}
    (hs : s = .map head iterator) (hx : iterator.Holds x) (hfits : ¬ x.resultPath.Fits)
    (hcovers : Covers (branchId s.name item) id) : Wrecks s [id ++ "/" ++ x.name, id]

theorem Step.Wrecks.exists_map {s : Step} {opened : List String} (h : s.Wrecks opened) :
    ∃ head iterator, s = .map head iterator := by
  cases h with
  | intro hs => exact ⟨_, _, hs⟩

/-- The open steps are those of the branches below the step `s` that go on, and of those that have
panicked. -/
def Machine.OpensBelow {σ : Type} (m : Machine σ) (s : Step) (openSteps : List String) : Prop :=
  ∃ (opened : Nat → List String) (wrecks : List (List String)),
    openSteps.Perm ((m.tasks.map Prod.fst).flatMap opened ++ wrecks.flatten) ∧
      (∀ k t, m.tasks.lookup k = some t → t.Adrift s (opened k)) ∧
      ∀ opened ∈ wrecks, s.Wrecks opened

namespace Engine

open Machine

variable {σ : Type}

/-- The timeline of a report is in order, and tells of the steps what the outcome tells of the
run. -/
structure LogsProperly (w : Workflow) (report : Report) (m : Machine σ) : Prop where
  alternates : report.timeline.Alternates
  /-- Everything is started and completed, from the start of a map to its end with all that is below
  it in between. -/
  completed (context : Json) (h : report.outcome = .completed context) :
    report.timeline.openSteps = [] ∧
      (∀ e ∈ report.timeline.events, e.kind = .started ∨ e.kind = .completed) ∧
      Pipeline.Completed "" w.steps report.timeline.marks
  /-- In the end what has been open before is interrupted, and nothing else. -/
  timedOut (index : Nat) (name : String) (budgetMs : Nat) (context : Json)
    (h : report.outcome = .timedOut index name budgetMs context) :
    report.timeline.openSteps = [] ∧
      ∃ before : Timeline, before.openSteps.Nodup ∧ (∀ e ∈ before.events, e.kind ≠ .interrupted) ∧
        report.timeline.events =
          before.events ++ before.openSteps.map (⟨·, .interrupted, report.elapsedMs⟩)
  /-- The open steps are those of the branches that go on and of those that have panicked; without a
  map there are none. -/
  failed (failure : StepFailure) (context : Json) (h : report.outcome = .failed failure context) :
    ∃ s, w.steps[failure.index]? = some s ∧ s.name = failure.name ∧
      m.OpensBelow s report.timeline.openSteps ∧
      ((∀ head iterator, s ≠ .map head iterator) → report.timeline.openSteps = [])

section Logs

variable {w : Workflow} {context : Json} {state : σ}

theorem logs_untouched : (untouched state context).world.Logs [] :=
  ⟨Timeline.ordered_empty, List.Perm.refl _, nofun⟩

section Framed

variable {P : Nat → Nat → (Nat → Activity) → Prop} {m m' : Machine σ} {s : Step} {F : Frames}
  {k : Nat}

/-- A framed machine whose root has ended has branches that are adrift. -/
theorem adrift_of_framed {t : Task} (hm : Proper P m) (hending : m.ending ≠ none)
    (hF : Framed s.Stuck F m) (hroot : F.scope root = s.name) (ht : m.tasks.lookup k = some t) :
    t.Adrift s (F.opened k) := by
  have hk : k ≠ root := by
    rintro rfl
    rw [hm.lookup_root_eq_none hending] at ht
    cases ht
  have hmay : F.may k = OpensInside (F.scope k) := if_neg hk
  have hmem := Frames.mem_members_of_lookup (F := F) ht
  obtain ⟨item, hcovers⟩ := hF.below k hmem hk
  refine ⟨F.scope k, item, hroot ▸ hcovers, hmay ▸ hF.balanced k t ht, ?_⟩
  exact (hF.inside hmem).inside_cases.imp_left fun hnil => ⟨hnil, hF.begun k t ht hk hnil⟩

/-- A branch that has panicked has done so in a step whose result does not fit. -/
theorem wrecks_of_framed (hF : Framed s.Stuck F m) (hroot : F.scope root = s.name)
    (hk : k ∈ F.dead) (hne : k ≠ root) : s.Wrecks (F.opened k) := by
  have hmem : k ∈ F.members m := List.mem_append_right _ hk
  have hinside := hF.inside hmem
  obtain ⟨item, hcovers⟩ := hF.below k hmem hne
  rw [hroot] at hcovers
  obtain ⟨-, hstuck⟩ := hF.wreck k hk
  generalize F.opened k = opened at hinside hstuck
  cases hstuck with
  | top =>
    -- the name of the step at the top is too short for the scope of a branch
    have hscope := (hcovers.trans (hinside.covers List.mem_cons_self).1).length_le
    exact absurd hscope (Nat.not_le.mpr length_branchId)
  | @branch head iterator x scope hs hx hfits =>
    have hscope : scope = F.scope k := by
      rcases hinside.inside_cases with h | h | ⟨inner, h⟩
      · cases h
      · simp at h
      · exact (List.cons.inj (List.cons.inj h).2).1
    subst hscope
    exact .intro hs hx hfits hcovers

/-- The open steps of a failed run of a step. -/
theorem failed_of_charted {failure : StepFailure} (hcharted : Charted s m) (hm : Proper P m)
    (hending : m.ending = some (.finished (.error (.error failure))))
    (hnone : (∀ head iterator, s ≠ .map head iterator) → m.tasks = []) :
    m.world.timeline.Ordered ∧ m.OpensBelow s m.world.timeline.openSteps ∧
      ((∀ head iterator, s ≠ .map head iterator) → m.world.timeline.openSteps = []) := by
  obtain ⟨F, hroot, hF⟩ := hcharted.framed (by simp [hending])
  have hended : m.ending ≠ none := by simp [hending]
  have hwrecks {k : Nat} (hk : k ∈ F.dead) : s.Wrecks (F.opened k) := by
    refine wrecks_of_framed hF hroot hk ?_
    rintro rfl
    obtain ⟨p, hpanic⟩ := hF.root_dead hk
    rw [hending] at hpanic
    cases hpanic
  have hopen : F.all m =
      (m.tasks.map Prod.fst).flatMap F.opened ++ (F.dead.map F.opened).flatten := by
    rw [Frames.all, Frames.members, List.flatMap_append, ← List.flatMap_def]
  refine ⟨hF.logs.ordered, ⟨F.opened, F.dead.map F.opened, hopen ▸ hF.logs.openSteps,
    fun k t ht => adrift_of_framed hm hended hF hroot ht, ?_⟩, fun hmap => ?_⟩
  · rw [List.forall_mem_map]
    exact fun k => hwrecks
  · have hdead : F.dead = [] := by
      refine List.eq_nil_iff_forall_not_mem.mpr fun k hk => ?_
      obtain ⟨head, iterator, hs⟩ := (hwrecks hk).exists_map
      exact hmap head iterator hs
    rw [hnone hmap, hdead] at hopen
    exact (hopen ▸ hF.logs.openSteps).eq_nil

end Framed

/-- The timeline of a run that has stopped at a step. -/
theorem logsProperly_of_stopped {P : Nat → Nat → (Nat → Activity) → Prop} {m m' : Machine σ}
    {budget : Option Nat} {index : Nat} {s : Step} {ending : Ending} {report : Report}
    (hm : Proper P m) (hs : w.steps[index]? = some s) (hat : At index s.name context m)
    (hcharted : Charted s m) (hending : m.ending = some ending)
    (hnot : ∀ context, m.ending ≠ some (.finished (.ok context)))
    (hnone : (∀ head iterator, s ≠ .map head iterator) → m.tasks = [])
    (htasks : m'.tasks = m.tasks) (hreport : resultOf w budget ending m = .ok report) :
    LogsProperly w report m' := by
  obtain ⟨outcome, houtcome, rfl⟩ := Except.map_eq_ok.mp hreport
  rcases ending with ((failure | p) | result) | _
  · obtain rfl := Except.ok.inj houtcome
    obtain ⟨hordered, hopen, hclosed⟩ := failed_of_charted hcharted hm hending hnone
    obtain ⟨hindex, hname⟩ := hat.failure failure hending
    refine ⟨hordered.alternates, fun _ h => Outcome.noConfusion h,
      fun _ _ _ _ h => Outcome.noConfusion h, fun failure' _ h => ?_⟩
    obtain ⟨rfl, -⟩ := Outcome.failed.inj h
    have hopen' : m'.OpensBelow s m.world.timeline.openSteps := by
      unfold OpensBelow
      rw [htasks]
      exact hopen
    exact ⟨s, hindex ▸ hs, hname.symm, hopen', hclosed⟩
  · cases houtcome
  · exact absurd hending (hnot result)
  · obtain rfl := Except.ok.inj houtcome
    obtain ⟨opened, hlogs⟩ := hcharted.logs
    obtain ⟨hordered, hclosed⟩ := hlogs.ordered.interruptOpen m.world.now
    exact ⟨hordered.alternates, fun _ h => Outcome.noConfusion h, fun _ _ _ _ _ => ⟨hclosed,
      m.world.timeline, hlogs.ordered.nodup_openSteps, hlogs.uncut, rfl⟩,
      fun _ _ h => Outcome.noConfusion h⟩

end Logs

/-- **The event log of every run is well formed.** There is a report if all results fit. -/
theorem execute_logs (e : Engine σ) (w : Workflow) (context : Json) (state : σ) :
    ∃ result m, e.execute w context state = some (result, m) ∧
      (Pipeline.Fits w.steps → ∃ report, result = .ok report) ∧
      ∀ report, result = .ok report → LogsProperly w report m := by
  obtain ⟨ending, log, hending, hexec⟩ := e.execute_eq w context state
  have hrest := atRest_untouched state context
  refine ⟨_, _, hexec, fun hfits => ?_, fun report hreport => ?_⟩
  · obtain ⟨report, m, hexec'⟩ := e.exists_report hfits context state
    exact ⟨report, (Prod.mk.inj (Option.some.inj (hexec.symm.trans hexec'))).1⟩
  rcases exists_executed e.adapter (e.budgetFor w) w.steps hrest 0 with
    ⟨m', context', hsteps, hrest'⟩ | ⟨before, s, after, m', context', hsteps, hbefore, hrest', hnot⟩
  · have hm : stepsRun e.adapter (e.budgetFor w) w.steps context state = m' := by
      have hrun := (hsteps.runFrom_append hrest []).1
      rwa [List.append_nil, runFrom_nil hrest'] at hrun
    rw [hm] at hending hreport
    obtain rfl := Option.some.inj (hrest'.ending.symm.trans hending)
    obtain rfl := Except.ok.inj hreport
    have hlogs := hsteps.logs hrest logs_untouched
    obtain ⟨marks, hmarks, hpipeline⟩ := hsteps.exists_marks hrest
    have hmarks : m'.world.timeline.marks = marks := hmarks
    subst hmarks
    refine ⟨hlogs.ordered.alternates,
      fun _ _ => ⟨hlogs.openSteps.eq_nil, fun e he => ?_, hpipeline⟩,
      fun _ _ _ _ h => Outcome.noConfusion h, fun _ _ h => Outcome.noConfusion h⟩
    exact Pipeline.Completed.kinds w.steps "" hpipeline _ (List.mem_map_of_mem he)
  · rw [Nat.zero_add] at hnot
    have hm : stepsRun e.adapter (e.budgetFor w) w.steps context state =
        m'.runStep e.adapter (e.budgetFor w) before.length s := by
      rw [stepsRun, hsteps, (hbefore.runFrom_append hrest _).1, Nat.zero_add,
        runFrom_of_ne hrest' after hnot]
    have hproper : Proper anyFork (m'.runStep e.adapter (e.budgetFor w) before.length s) := by
      rw [← hm]
      exact (proper_start w.steps context state).run
    have hs : w.steps[before.length]? = some s := by simp [hsteps]
    rw [hm] at hending hreport ⊢
    exact logsProperly_of_stopped hproper hs (at_runStep hrest' s)
      (charted_runStep hrest' (hbefore.logs hrest logs_untouched) before.length s) hending hnot
      (fun hmap => tasks_runStep_eq_nil hrest' before.length hmap) rfl hreport

end Engine

end Conveyor
