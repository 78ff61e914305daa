import Conveyor.Proofs.Result
import Conveyor.Proofs.Run.Stepwise
import Conveyor.Run.Engine

/-!
# Steps are committed one by one

`Engine.execute_stepwise` says what a run of a workflow leaves. A run that is completed has executed
each step once and in order. A run that ends early does so at one of the steps: the steps before it
have been executed as they would be without it and without a budget, and their context is the one
that the run reports, unless the step has panicked; then comes what the step does alone; and the
steps after it are not begun, neither by then nor by what goes on after the end.
-/

namespace Conveyor

/-- The name of the step at which a run ended early. -/
def Outcome.stepName : Outcome → Option String
  | .completed _ => none
  | .failed failure _ => some failure.name
  | .timedOut _ name _ _ => some name

/-- The workflow that ends after a number of steps. -/
def Workflow.firstSteps (count : Nat) (w : Workflow) : Workflow :=
  { w with steps := w.steps.take count }

namespace Engine

open Machine

variable {σ : Type}

/-- Runs a workflow without a budget and without a time limit. -/
def executeFreely (e : Engine σ) (w : Workflow) (context : Json) (state : σ) :
    Option (Except Panic Report × Machine σ) :=
  ({ e with budgetMs := none } : Engine σ).execute { w with timeoutSecs := none } context state

/-- The machine before a run, as if it had done steps before. -/
def untouched (state : σ) (context : Json) : Machine σ :=
  resting (.initial state context) (root + 1) context

theorem atRest_untouched (state : σ) (context : Json) : AtRest context (untouched state context) :=
  ⟨rfl, Nat.lt_succ_self _⟩

/-- What the steps of a workflow leave within a budget. -/
def stepsRun (adapter : Adapter σ) (budget : Option Nat) (steps : List Step) (context : Json)
    (state : σ) : Machine σ :=
  (untouched state context).runFrom adapter budget 0 steps

section StepsRun

variable {adapter : Adapter σ} {budget : Option Nat} {context context' : Json} {state : σ}
  {m' : Machine σ}

/-- What executed steps leave is what a run of them leaves. -/
theorem stepsRun_of_executed {steps : List Step}
    (h : Executed adapter budget 0 steps (untouched state context) m') :
    stepsRun adapter budget steps context state = m' ∧ ∃ context', AtRest context' m' := by
  obtain ⟨hrun, context', hrest⟩ := h.runFrom_append (atRest_untouched state context) []
  rw [List.append_nil, runFrom_nil hrest] at hrun
  exact ⟨hrun, context', hrest⟩

/-- A step that does not end well is the last one of a run, whatever steps come after it. -/
theorem stepsRun_of_stopped {before : List Step} {s : Step}
    (hbefore : Executed adapter budget 0 before (untouched state context) m')
    (hrest : AtRest context' m')
    (hnot : ∀ context, (m'.runStep adapter budget before.length s).ending ≠
      some (.finished (.ok context))) (after : List Step) :
    stepsRun adapter budget (before ++ s :: after) context state =
      m'.runStep adapter budget before.length s := by
  rw [stepsRun, (hbefore.runFrom_append (atRest_untouched state context) _).1, Nat.zero_add,
    runFrom_of_ne hrest after hnot]

/-- A run has executed all steps, or it has executed those before the one with which it stops. -/
theorem stepsRun_cases (adapter : Adapter σ) (budget : Option Nat) (steps : List Step)
    (context : Json) (state : σ) :
    (∃ m' context', Executed adapter budget 0 steps (untouched state context) m' ∧
        AtRest context' m' ∧ stepsRun adapter budget steps context state = m') ∨
      ∃ before s after m' context', steps = before ++ s :: after ∧
        Executed adapter budget 0 before (untouched state context) m' ∧ AtRest context' m' ∧
        (∀ context, (m'.runStep adapter budget before.length s).ending ≠
          some (.finished (.ok context))) ∧
        stepsRun adapter budget steps context state =
          m'.runStep adapter budget before.length s := by
  rcases exists_executed adapter budget steps (atRest_untouched state context) 0 with
    ⟨m', c, hsteps, hrest⟩ | ⟨before, s, after, m', c, rfl, hbefore, hrest, hnot⟩
  · exact .inl ⟨m', c, hsteps, hrest, (stepsRun_of_executed hsteps).1⟩
  · rw [Nat.zero_add] at hnot
    exact .inr ⟨before, s, after, m', c, rfl, hbefore, hrest, hnot,
      stepsRun_of_stopped hbefore hrest hnot after⟩

end StepsRun

/-- The report on a run that has ended like this, unless it has panicked. -/
def resultOf (w : Workflow) (budget : Option Nat) (ending : Ending) (m : Machine σ) :
    Except Panic Report :=
  (outcomeOf w budget m.world.reached ending).map fun outcome =>
    ⟨w.name, m.world.now, outcome, (closeTimeline m.world ending).timeline⟩

theorem outcomeOf_of_resultOf {w : Workflow} {budget : Option Nat} {ending : Ending}
    {m : Machine σ} {report : Report} (h : resultOf w budget ending m = .ok report) :
    outcomeOf w budget m.world.reached ending = .ok report.outcome := by
  obtain ⟨outcome, houtcome, rfl⟩ := Except.map_eq_ok.mp h
  exact houtcome

/-- The end of a run changes the timeline and the log only. -/
theorem execute_eq (e : Engine σ) (w : Workflow) (context : Json) (state : σ) :
    ∃ ending log, (stepsRun e.adapter (e.budgetFor w) w.steps context state).ending = some ending ∧
      e.execute w context state =
        let m := stepsRun e.adapter (e.budgetFor w) w.steps context state
        some (resultOf w (e.budgetFor w) ending m,
          m.onWorld fun world => { closeTimeline world ending with log }) := by
  have hproper : Proper anyFork (start state context (w.steps.activity "" context)) :=
    .beginning (Nat.lt_succ_self _) (w.steps.activity_lawful "" context)
  have hstart : (start state context (w.steps.activity "" context)).onWorld
      (.tell [startLine w (e.budgetFor w)]) =
      (start state context (w.steps.activity "" context)).onWorld
        (.withLinesBefore [startLine w (e.budgetFor w)]) := rfl
  have hrun : (Machine.onWorld _ _).run e.adapter (e.budgetFor w) = _ := hproper.run_onWorld
    (World.inert_withLinesBefore e.adapter [startLine w (e.budgetFor w)])
  have hm : (start state context (w.steps.activity "" context)).run e.adapter (e.budgetFor w) =
    stepsRun e.adapter (e.budgetFor w) w.steps context state := rfl
  obtain ⟨ending, hending⟩ := Option.ne_none_iff_exists'.mp
    (hproper.run_ending e.adapter (e.budgetFor w))
  rw [hm] at hrun hending
  unfold execute
  dsimp only
  rw [hstart, hrun]
  generalize stepsRun e.adapter (e.budgetFor w) w.steps context state = m at hending
  -- nothing is logged at the end of a run that has panicked
  refine ⟨ending, [startLine w (e.budgetFor w)] ++ m.world.log ++
    (outcomeOf w (e.budgetFor w) m.world.reached ending).toOption.toList.map (endLine w),
    hending, ?_⟩
  rw [show (m.onWorld _).ending = some ending from hending, Option.map_some]
  rcases ending with ((failure | p) | context) | - <;> try rfl
  unfold report
  dsimp only [outcomeOf, closeTimeline, onWorld, World.withLinesBefore]
  simp only [Except.toOption, Option.toList, List.map_nil, List.append_nil]
  rfl

/-- The outcome of a run that has stopped at a step. -/
theorem outcomeOf_of_at {w : Workflow} {budget : Option Nat} {index : Nat} {s : Step}
    {context : Json} {m : Machine σ} {ending : Ending} {outcome : Outcome}
    (hat : At index s.name context m) (hs : w.steps[index]? = some s)
    (hending : m.ending = some ending)
    (hnot : ∀ context, m.ending ≠ some (.finished (.ok context)))
    (h : outcomeOf w budget m.world.reached ending = .ok outcome) :
    outcome.stepIndex = some index ∧ outcome.stepName = some s.name ∧
      outcome.context = context := by
  rw [hat.reached] at h
  rcases ending with ((failure | p) | context) | -
  · obtain rfl := Except.ok.inj h
    obtain ⟨hindex, hname⟩ := hat.failure failure hending
    exact ⟨congrArg some hindex, congrArg some hname, rfl⟩
  · cases h
  · exact absurd hending (hnot context)
  · obtain rfl := Except.ok.inj h
    refine ⟨rfl, ?_, rfl⟩
    simp only [Outcome.stepName, hs, Option.map_some, Option.getD_some]

/-- A run that is completed, and that has left a machine at rest. -/
theorem execute_of_atRest (e : Engine σ) (w : Workflow) {context context' : Json} {state : σ}
    {m : Machine σ} (hm : stepsRun e.adapter (e.budgetFor w) w.steps context state = m)
    (hrest : AtRest context' m) :
    ∃ report m', e.execute w context state = some (.ok report, m') ∧
      report.outcome = .completed context' ∧ m'.unlogged = m.unlogged := by
  obtain ⟨ending, log, hending, hexec⟩ := e.execute_eq w context state
  rw [hm] at hending hexec
  obtain rfl := Option.some.inj (hrest.ending.symm.trans hending)
  exact ⟨_, _, hexec, rfl, rfl⟩

/-- What a run has left that ended early, at the step `s` with the position `index`. There is a
report on it, unless the step has panicked. -/
structure StoppedAt (e : Engine σ) (w : Workflow) (context : Json) (state : σ)
    (result : Except Panic Report) (m : Machine σ) (index : Nat) (s : Step) : Prop where
  step : w.steps[index]? = some s
  stepIndex : ∀ report, result = .ok report → report.outcome.stepIndex = some index
  stepName : ∀ report, result = .ok report → report.outcome.stepName = some s.name
  /-- Without a budget, the steps before it are completed with the context that is reported. Their
  calls come first, and the others are those of the step alone. -/
  before : ∃ report₀ m₀ context',
    e.executeFreely (w.firstSteps index) context state = some (.ok report₀, m₀) ∧
    report₀.outcome = .completed context' ∧
    (∀ report, result = .ok report → report.outcome.context = context') ∧
    m₀.world.calls <+: m.world.calls ∧
    m.world.calls = (m₀.runStep e.adapter (e.budgetFor w) index s).world.calls
  /-- The run is that of the workflow without the steps after it, also after its end. -/
  after : ∃ result₁ m₁, e.execute (w.firstSteps (index + 1)) context state = some (result₁, m₁) ∧
    result₁.map Report.outcome = result.map Report.outcome ∧
    result₁.map Report.timeline = result.map Report.timeline ∧
    ∀ ms, (m₁.settle e.adapter ms).unlogged = (m.settle e.adapter ms).unlogged

theorem outcomeOf_congr {w w' : Workflow} {budget : Option Nat} {reached : Nat × Json}
    {ending : Ending} (h : w'.steps[reached.1]? = w.steps[reached.1]?) :
    outcomeOf w' budget reached ending = outcomeOf w budget reached ending := by
  unfold outcomeOf
  rw [h]

section StoppedAt

variable {e : Engine σ} {w : Workflow} {context context' : Json} {state : σ}
  {before : List Step} {s : Step} {m m' : Machine σ}

/-- Without a budget, the steps before the last one are executed in the same way. -/
private theorem exists_before (hsteps : (w.firstSteps before.length).steps = before)
    (hbefore : Executed e.adapter (e.budgetFor w) 0 before (untouched state context) m')
    (hrest : AtRest context' m') (hcalls : m.world.calls =
      (m'.runStep e.adapter (e.budgetFor w) before.length s).world.calls) :
    ∃ report₀ m₀,
      e.executeFreely (w.firstSteps before.length) context state = some (.ok report₀, m₀) ∧
        report₀.outcome = .completed context' ∧ m₀.world.calls <+: m.world.calls ∧
        m.world.calls = (m₀.runStep e.adapter (e.budgetFor w) before.length s).world.calls := by
  obtain ⟨hfree, -⟩ :=
    hbefore.of_deadline (atRest_untouched state context) fun limit _ => Nat.zero_le limit
  have hrun : stepsRun e.adapter none before context state = m' := (stepsRun_of_executed hfree).1
  rw [← hsteps] at hrun
  obtain ⟨report₀, m₀, hexec, houtcome, hsame⟩ :=
    execute_of_atRest { e with budgetMs := none }
      { w.firstSteps before.length with timeoutSecs := none } hrun hrest
  have hcalls₀ : m₀.world.calls = m'.world.calls := congrArg (·.world.calls) hsame
  have hstep : (m₀.runStep e.adapter (e.budgetFor w) before.length s).world.calls =
      (m'.runStep e.adapter (e.budgetFor w) before.length s).world.calls :=
    congrArg (·.world.calls) (runStep_unlogged hrest hsame s)
  refine ⟨report₀, m₀, hexec, houtcome, ?_, hcalls.trans hstep.symm⟩
  rw [hcalls₀, hcalls]
  exact (later_runStep hrest s).calls_initial

/-- The run of a workflow that has the same steps up to the last one that is begun. -/
private theorem exists_after (w' : Workflow) {result : Except Panic Report} {index : Nat}
    (hexec : e.execute w context state = some (result, m))
    (hbudget : e.budgetFor w' = e.budgetFor w)
    (hrun : stepsRun e.adapter (e.budgetFor w) w'.steps context state =
      stepsRun e.adapter (e.budgetFor w) w.steps context state)
    (hreached : (stepsRun e.adapter (e.budgetFor w) w.steps context state).world.reached.1 = index)
    (hstep : w'.steps[index]? = w.steps[index]?) :
    ∃ result₁ m₁, e.execute w' context state = some (result₁, m₁) ∧
      result₁.map Report.outcome = result.map Report.outcome ∧
      result₁.map Report.timeline = result.map Report.timeline ∧
      ∀ ms, (m₁.settle e.adapter ms).unlogged = (m.settle e.adapter ms).unlogged := by
  obtain ⟨ending, log, hending, hexec₀⟩ := e.execute_eq w context state
  obtain ⟨ending', log', hending', hexec₁⟩ := e.execute_eq w' context state
  obtain ⟨rfl, rfl⟩ := Prod.mk.inj (Option.some.inj (hexec.symm.trans hexec₀))
  rw [hbudget, hrun] at hending' hexec₁
  obtain rfl := Option.some.inj (hending.symm.trans hending')
  have hproper : Proper anyFork (stepsRun e.adapter (e.budgetFor w) w.steps context state) :=
    .run (.beginning (Nat.lt_succ_self _) (Pipeline.activity_lawful w.steps "" context))
  generalize stepsRun e.adapter (e.budgetFor w) w.steps context state = m at *
  have hnow : (closeTimeline m.world ending).now = m.world.now := by cases ending <;> rfl
  have hclosed : ∀ log, Proper anyFork
      (m.onWorld fun world => { closeTimeline world ending with log }) :=
    fun log => ⟨hproper.sound.withWorld hnow, hproper.lawful⟩
  have houtcome : outcomeOf w' (e.budgetFor w) m.world.reached ending =
      outcomeOf w (e.budgetFor w) m.world.reached ending := outcomeOf_congr (hreached ▸ hstep)
  refine ⟨_, _, hexec₁, ?_, ?_, fun ms => ?_⟩
  · rw [resultOf, resultOf, houtcome]
    cases outcomeOf w (e.budgetFor w) m.world.reached ending <;> rfl
  · rw [resultOf, resultOf, houtcome]
    cases outcomeOf w (e.budgetFor w) m.world.reached ending <;> rfl
  rw [(hclosed _).unlogged_settle, (hclosed log).unlogged_settle]
  rfl

theorem stoppedAt_of_executed {after : List Step} {result : Except Panic Report}
    (hsteps : w.steps = before ++ s :: after)
    (hbefore : Executed e.adapter (e.budgetFor w) 0 before (untouched state context) m')
    (hrest : AtRest context' m')
    (hnot : ∀ context, (m'.runStep e.adapter (e.budgetFor w) before.length s).ending ≠
      some (.finished (.ok context)))
    (hexec : e.execute w context state = some (result, m)) :
    StoppedAt e w context state result m before.length s := by
  have hrun : ∀ after, stepsRun e.adapter (e.budgetFor w) (before ++ s :: after) context state =
      m'.runStep e.adapter (e.budgetFor w) before.length s :=
    stepsRun_of_stopped hbefore hrest hnot
  have hat : At before.length s.name context'
    (m'.runStep e.adapter (e.budgetFor w) before.length s) := at_runStep hrest s
  have hs : w.steps[before.length]? = some s := by simp [hsteps]
  have hrun' : stepsRun e.adapter (e.budgetFor w) w.steps context state =
      m'.runStep e.adapter (e.budgetFor w) before.length s := hsteps ▸ hrun after
  have hreached := congrArg (·.world.reached.1) hrun'
  obtain ⟨ending, log, hending, hexec'⟩ := e.execute_eq w context state
  rw [hrun'] at hending hexec'
  obtain ⟨rfl, hm⟩ := Prod.mk.inj (Option.some.inj (hexec.symm.trans hexec'))
  have hreport (report) (h : resultOf w (e.budgetFor w) ending
      (m'.runStep e.adapter (e.budgetFor w) before.length s) = .ok report) :=
    outcomeOf_of_at hat hs hending hnot (outcomeOf_of_resultOf h)
  refine ⟨hs, fun report h => (hreport report h).1, fun report h => (hreport report h).2.1, ?_, ?_⟩
  · have hcalls : m.world.calls =
        (m'.runStep e.adapter (e.budgetFor w) before.length s).world.calls := by
      rw [hm]
      cases ending <;> rfl
    obtain ⟨report₀, m₀, hfree, houtcome, hcalls⟩ :=
      exists_before (by simp [Workflow.firstSteps, hsteps]) hbefore hrest hcalls
    exact ⟨report₀, m₀, context', hfree, houtcome, fun report h => (hreport report h).2.2, hcalls⟩
  · refine exists_after (w.firstSteps (before.length + 1)) hexec rfl ?_
      (hreached.trans (congrArg Prod.fst hat.reached)) ?_
    · rw [hrun', ← hrun [], Workflow.firstSteps, hsteps, List.take_length_add_append]
      rfl
    · simp [Workflow.firstSteps, hsteps]

end StoppedAt

/-- **Steps are committed one by one.** A run is completed, and then its steps have been executed
once and in order; or it has stopped at a step. -/
theorem execute_stepwise (e : Engine σ) (w : Workflow) (context : Json) (state : σ) :
    ∃ result m, e.execute w context state = some (result, m) ∧
      ((∃ report context' m', result = .ok report ∧ report.outcome = .completed context' ∧
          Executed e.adapter (e.budgetFor w) 0 w.steps (untouched state context) m' ∧
          m'.ending = some (.finished (.ok context')) ∧ m.unlogged = m'.unlogged) ∨
        ∃ index s, StoppedAt e w context state result m index s) := by
  obtain ⟨ending, log, hending, hexec⟩ := e.execute_eq w context state
  have hrest := atRest_untouched state context
  refine ⟨_, _, hexec, ?_⟩
  rcases exists_executed e.adapter (e.budgetFor w) w.steps hrest 0 with
    ⟨m', context', hsteps, hrest'⟩ | ⟨before, s, after, m', context', hsteps, hbefore, hrest', hnot⟩
  · have hm : stepsRun e.adapter (e.budgetFor w) w.steps context state = m' := by
      have hrun := (hsteps.runFrom_append hrest []).1
      rwa [List.append_nil, runFrom_nil hrest'] at hrun
    rw [hm] at hending ⊢
    obtain rfl := Option.some.inj (hrest'.ending.symm.trans hending)
    exact .inl ⟨_, context', m', rfl, rfl, hsteps, hrest'.ending, rfl⟩
  · rw [Nat.zero_add] at hnot
    exact .inr ⟨before.length, s, stoppedAt_of_executed hsteps hbefore hrest' hnot hexec⟩

end Engine

end Conveyor
