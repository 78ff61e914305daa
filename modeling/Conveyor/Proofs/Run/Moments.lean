import Conveyor.Proofs.Run.Commits
import Conveyor.Proofs.Run.StepRules

/-!
# The moments of a run of a workflow

What the world is like at the moments of a run, and at those after its end while branches of an
abandoned map go on. Assertions along the pipeline are met at all of them
(`Engine.Moment.meets`); after the end, the assertion is that of the step at which the run ended
(`Engine.reached_of_stepIndex`).
-/

namespace Conveyor

namespace Engine

open Machine

variable {σ : Type} {e : Engine σ} {w : Workflow} {context : Json} {state : σ} {report : Report}
  {result : Except Panic Report} {m : Machine σ} {A : Nat → σ → Prop} {C : Nat → Json → Prop}
  {world : World σ}

/-- The machine at the beginning of a run of a workflow. -/
def started (e : Engine σ) (w : Workflow) (context : Json) (state : σ) : Machine σ :=
  (Machine.start state context (w.steps.activity "" context)).onWorld
    (.tell [startLine w (e.budgetFor w)])

/-- The worlds at the moments of a run of a workflow and after it. -/
inductive Moment (e : Engine σ) (w : Workflow) (context : Json) (state : σ) : World σ → Prop
  | during {world : World σ} (h : (e.started w context state).Moment e.adapter world) :
    Moment e w context state world
  | after {result : Except Panic Report} {m : Machine σ} {world : World σ}
      (hexec : e.execute w context state = some (result, m)) (h : m.Moment e.adapter world) :
      Moment e w context state world

theorem proper_started : Proper anyFork (e.started w context state) := by
  have hstart : Proper anyFork (Machine.start state context (w.steps.activity "" context)) :=
    .beginning (Nat.lt_succ_self _) (w.steps.activity_lawful "" context)
  exact ⟨hstart.sound.withWorld rfl, hstart.lawful⟩

/-- The report on a run changes the records only. -/
theorem report_machine (w : Workflow) (budget : Option Nat) (ending : Ending) (m : Machine σ) :
    ∃ world, (Engine.report w budget ending m).2 = m.onWorld (fun _ => world) ∧
      world.now = m.world.now ∧ world.reached = m.world.reached ∧ world.state = m.world.state := by
  rcases ending with ((failure | p) | context) | - <;> exact ⟨_, rfl, rfl, rfl, rfl⟩

/-- The machine that comes with a report is the one that the run has led to, but for the records. -/
theorem of_execute (hexec : e.execute w context state = some (result, m)) :
    ∃ m', Leads e.adapter (e.started w context state) m' ∧ Proper anyFork m' ∧ Proper anyFork m ∧
      m.tasks = m'.tasks ∧ m.ending = m'.ending ∧ m.ending ≠ none ∧
      m.world.reached = m'.world.reached ∧ m.world.state = m'.world.state := by
  obtain ⟨ending, hending, heq⟩ := Option.map_eq_some_iff.mp hexec
  have hproper : Proper anyFork ((e.started w context state).run e.adapter (e.budgetFor w)) :=
    proper_started.run
  obtain ⟨world, hm, hnow, hreached, hstate⟩ := report_machine w (e.budgetFor w) ending
    ((e.started w context state).run e.adapter (e.budgetFor w))
  obtain rfl : m = _ := (congrArg Prod.snd heq).symm.trans hm
  exact ⟨_, proper_started.leads_run, hproper, ⟨hproper.sound.withWorld hnow, hproper.lawful⟩, rfl,
    rfl, Option.ne_none_iff_exists'.mpr ⟨ending, hending⟩, hreached, hstate⟩

/-- When each step leads from one assertion to the next, the assertions are met at every moment. -/
theorem Moment.meets (hsteps : Pipeline.Advances e.adapter A C 0 w.steps) (hcontext : C 0 context)
    (hstate : A 0 state) (h : e.Moment w context state world) : world.Meets A := by
  have hstarted : Guarded e.adapter A (e.started w context state) :=
    (guarded_start hsteps hcontext hstate).of_tasks rfl rfl rfl
  cases h with
  | during h => exact h.meets proper_started hstarted
  | after hexec h =>
    obtain ⟨m', hleads, -, hproper, htasks, -, -, hreached, hsame⟩ := of_execute hexec
    exact h.meets hproper ((hstarted.leads proper_started hleads).of_tasks htasks hreached hsame)

/-- Each step of the run leads to a moment of it. -/
theorem Moment.steps (count : Nat) :
    e.Moment w context state
      ((Machine.step e.adapter (e.budgetFor w))^[count] (e.started w context state)).world := by
  have hleads : Leads e.adapter (e.started w context state)
      ((Machine.step e.adapter (e.budgetFor w))^[count] (e.started w context state)) := by
    induction count with
    | zero => exact .refl
    | succ count ih =>
      rw [Function.iterate_succ_apply']
      exact ih.step
  exact .during (.rest hleads)

/-- What is left after the run may go on for any time. -/
theorem Moment.settle (hexec : e.execute w context state = some (result, m)) (ms : Nat) :
    e.Moment w context state (m.settle e.adapter ms).world := by
  obtain ⟨-, -, -, hproper, -⟩ := of_execute hexec
  exact .after hexec (.rest (hproper.leads_settle ms))

/-- A run that has ended early has ended at the step that was reached. -/
theorem reached_of_stepIndex {index : Nat}
    (hexec : e.execute w context state = some (.ok report, m))
    (hindex : report.outcome.stepIndex = some index) : m.world.reached.1 = index := by
  obtain ⟨ending, log, hending, hexec'⟩ := e.execute_eq w context state
  obtain ⟨hreport, rfl⟩ := Prod.mk.inj (Option.some.inj (hexec.symm.trans hexec'))
  have houtcome := outcomeOf_of_resultOf hreport.symm
  have hclosed (world : World σ) : (closeTimeline world ending).reached = world.reached := by
    cases ending <;> rfl
  refine (congrArg Prod.fst (hclosed _)).trans ?_
  rcases stepsRun_cases e.adapter (e.budgetFor w) w.steps context state with
    ⟨m', c, -, hrest, hrun⟩ | ⟨before, s, after, m', c, hsteps, -, hrest, hnot, hrun⟩
  · rw [hrun] at hending
    obtain rfl := Option.some.inj (hrest.ending.symm.trans hending)
    rw [← Except.ok.inj houtcome] at hindex
    cases hindex
  · have hs : w.steps[before.length]? = some s := by simp [hsteps]
    have hat : At before.length s.name c
        (m'.runStep e.adapter (e.budgetFor w) before.length s) := at_runStep hrest s
    rw [hrun] at hending houtcome ⊢
    have hstop : some index = some before.length :=
      hindex.symm.trans (outcomeOf_of_at hat hs hending hnot houtcome).1
    rw [hat.reached]
    exact (Option.some.inj hstop).symm

/-- After the end of a run that has ended early, the step that was reached is the one at which the
run ended. -/
theorem reached_of_moment {index : Nat}
    (hexec : e.execute w context state = some (.ok report, m))
    (hindex : report.outcome.stepIndex = some index) (h : m.Moment e.adapter world) :
    world.reached.1 = index := by
  obtain ⟨-, -, -, hproper, -, -, hending, -, -⟩ := of_execute hexec
  rw [h.reached hproper hending]
  exact reached_of_stepIndex hexec hindex

end Engine

end Conveyor
