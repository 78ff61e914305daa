import Conveyor.Proofs.Run.Cancellation
import Conveyor.Proofs.Run.Commits
import Conveyor.Workflow.Check

/-!
# A budget only cuts a run

`Engine.execute_within_budget` compares a run within a budget with the run without it. If the latter
ends before the budget is spent, they are the same. If it ends later, the former is cut off in the
step that the latter does at that time, with the context that this step began with, after the same
calls, and calls nothing any more.
-/

namespace Conveyor

/-! ### Valid workflows -/

namespace Pipeline

variable {known : Option (List String)} {parent : String} {seen : List String}

theorem mapFree_of_innerProblems {steps : List Step}
    (h : innerProblems known parent seen steps = []) : MapFree steps := by
  induction steps generalizing seen with
  | nil => trivial
  | cons s steps ih =>
    simp only [innerProblems, List.append_eq_nil_iff] at h
    obtain ⟨⟨-, hs⟩, hsteps⟩ := h
    refine ⟨?_, ih hsteps⟩
    cases s with
    | map head iterator => cases hs
    | _ => trivial

/-- In a pipeline without problems, maps have no maps in them. -/
theorem maps_of_stepProblems {steps : List Step} (h : stepProblems known seen steps = []) :
    Maps (fun _ iterator => iterator.MapFree) steps := by
  induction steps generalizing seen with
  | nil => trivial
  | cons s steps ih =>
    simp only [stepProblems, List.append_eq_nil_iff] at h
    obtain ⟨⟨-, hs⟩, hsteps⟩ := h
    refine ⟨?_, ih hsteps⟩
    cases s with
    | map head iterator =>
      simp only [iteratorProblems] at hs
      split at hs
      · cases hs
      · have hfree := mapFree_of_innerProblems hs
        exact ⟨hfree, Maps.mono (fun _ _ h => h.elim) iterator hfree⟩
    | _ => trivial

end Pipeline

theorem Workflow.maps_of_validate {w : Workflow} (h : w.validate = .ok ()) :
    Pipeline.Maps (fun _ iterator => iterator.MapFree) w.steps := by
  unfold validate at h
  split at h
  · rename_i hproblems
    simp only [problems, List.append_eq_nil_iff] at hproblems
    have hsteps := hproblems.2
    split at hsteps
    · cases hsteps
    · exact Pipeline.maps_of_stepProblems hsteps
  · cases h

namespace Machine

variable {P : Nat → Nat → (Nat → Activity) → Prop} {σ : Type} {adapter : Adapter σ}
  {deadline : Option Nat} {m : Machine σ}

/-- A run without a deadline is not cut off. -/
theorem Proper.run_none_ne_timedOut (hm : Proper P m) (hending : m.ending = none) :
    (m.run adapter none).ending ≠ some .timedOut := by
  refine hm.run_preserves (I := fun m => m.ending ≠ some .timedOut) (fun m hm he _ => ?_)
    (by simp [hending])
  refine step_cases (Q := fun m => m.ending ≠ some .timedOut) (fun id ready hready => ?_)
    (fun _ _ => ?_) (fun _ _ _ => by simp [he]) fun time _ _ htime => ?_
  · have hid : id ≠ root := fun h => hm.sound.root_notMem_ready (by simp [hready, h])
    rw [hm.ending_turn (.branch hready) hid, he]
    exact nofun
  · rw [rootTurn_none]
    exact (hm.after_rootPart he).2
  · rw [rootTurn_none]
    exact ((hm.wakeAt (of_nextTime_eq_some htime).1).after_rootPart (wakeAt_ending.trans he)).2

theorem tidy_beginning {w : World σ} {fresh : Nat} {a : Activity} : Tidy (beginning w fresh a) :=
  ⟨fun _ => ⟨intact_beginning, flat_beginning⟩, nofun⟩

theorem Executed.of_append {index : Nat} {before after : List Step} {m' : Machine σ}
    (h : Executed adapter deadline index (before ++ after) m m') :
    ∃ m'', Executed adapter deadline index before m m'' := by
  induction before generalizing index m with
  | nil => exact ⟨m, .nil index m⟩
  | cons s before ih =>
    cases h with
    | cons context hs hsteps => exact (ih hsteps).imp fun _ h => .cons context hs h

end Machine

namespace Engine

open Machine

variable {σ : Type}

/-- Without a budget, the first steps of a workflow are finished, and leave the machine `m`. -/
def Finishes (e : Engine σ) (w : Workflow) (context : Json) (state : σ) (count : Nat)
    (m : Machine σ) : Prop :=
  count ≤ w.steps.length ∧
    Executed e.adapter none 0 (w.steps.take count) (untouched state context) m

theorem proper_start (steps : List Step) (context : Json) (state : σ) :
    Proper anyFork (beginning (.initial state context) (root + 1)
      (pipelineActivity "" 0 steps context .ended)) :=
  .beginning (Nat.lt_succ_self _) (Pipeline.activity_lawful steps "" context)

theorem stepsRun_deadline (adapter : Adapter σ) (limit : Nat) (steps : List Step) (context : Json)
    (state : σ) :
    stepsRun adapter (some limit) steps context state = stepsRun adapter none steps context state ∧
        (stepsRun adapter (some limit) steps context state).world.now ≤ limit ∨
      CutOff limit (stepsRun adapter (some limit) steps context state)
        (stepsRun adapter none steps context state).world :=
  (proper_start steps context state).run_deadline adapter (Nat.zero_le limit) inTime_beginning

/-- Every call is made before the end. -/
theorem time_le_of_mem_calls {adapter : Adapter σ} {budget : Option Nat} {steps : List Step}
    {context : Json} {state : σ} {r : CallRecord}
    (hr : r ∈ (stepsRun adapter budget steps context state).world.calls) :
    r.time ≤ (stepsRun adapter budget steps context state).world.now := by
  have hlater : (World.initial state context).Later
      (stepsRun adapter budget steps context state).world :=
    (proper_start steps context state).run_later inTime_beginning
  obtain ⟨later, hcalls, htimes⟩ := hlater.calls
  rw [hcalls] at hr
  exact (htimes r hr).2

/-- What a run has left that was cut off, at the step with the position `index`, compared with the
run without a budget, which has left `free`. -/
structure CutOffAt (e : Engine σ) (w : Workflow) (context : Json) (state : σ) (limit : Nat)
    (report : Report) (m free : Machine σ) (index : Nat) : Prop where
  /-- Without the budget, the steps before it are finished with the context that is reported. -/
  timedOut : ∃ s committed m', w.steps[index]? = some s ∧
    report.outcome = .timedOut index s.name limit committed ∧
    Finishes e w context state index m' ∧ m'.ending = some (.finished (.ok committed))
  /-- These are the steps that the run without a budget finishes before the limit. -/
  finished : ∀ j m', Finishes e w context state (j + 1) m' →
    (m'.world.now < limit → j < index) ∧ (limit < m'.world.now → index ≤ j)
  calls_before : m.world.calls.filter (·.time < limit) = free.world.calls.filter (·.time < limit)
  /-- Nothing is called later, not even after the end. -/
  calls_after : ∀ ms, (m.settle e.adapter ms).world.calls = m.world.calls ∧
    ∀ r ∈ m.world.calls, r.time ≤ limit

section Stopped

variable {e : Engine σ} {w : Workflow} {context context' : Json} {state : σ} {limit : Nat}
  {before after : List Step} {s : Step} {m m' : Machine σ}
  (hsteps : w.steps = before ++ s :: after)
  (hbefore : Executed e.adapter (some limit) 0 before (untouched state context) m')

include hsteps hbefore

/-- A run that is cut off has finished a step exactly if the run without a budget finishes it before
the limit. -/
private theorem finished_iff_of_stopped (hrest : AtRest context' m')
    (hnot : ∀ context, (m'.runStep e.adapter (some limit) before.length s).ending ≠
      some (.finished (.ok context))) {j : Nat} {last : Machine σ}
    (hlast : Finishes e w context state (j + 1) last) :
    (last.world.now < limit → j < before.length) ∧
      (limit < last.world.now → before.length ≤ j) := by
  obtain ⟨hrun, c, hrestLast⟩ := stepsRun_of_executed hlast.2
  constructor
  · intro hlt
    by_contra hle
    -- then the run without a budget would be cut off as well
    obtain ⟨n, hn⟩ : ∃ n, j + 1 = before.length + (n + 1) := ⟨j - before.length, by omega⟩
    have htake : w.steps.take (j + 1) = before ++ s :: after.take n := by
      rw [hsteps, hn, List.take_length_add_append]
      rfl
    have hstop : stepsRun e.adapter (some limit) (w.steps.take (j + 1)) context state =
        m'.runStep e.adapter (some limit) before.length s := by
      rw [htake, stepsRun_of_stopped hbefore hrest hnot]
    rcases stepsRun_deadline e.adapter limit (w.steps.take (j + 1)) context state with
      ⟨heq, -⟩ | hcut
    · rw [hstop, hrun] at heq
      exact hnot c (heq ▸ hrestLast.ending)
    · obtain ⟨w₀, -, hle, hlater⟩ := hcut.later
      rw [hrun] at hlater
      have := hlater.now_le
      omega
  · intro hlt
    by_contra hle
    have htake : w.steps.take (j + 1) = before.take (j + 1) := by
      rw [hsteps, List.take_append_of_le_length (by omega)]
    rw [← List.take_append_drop (j + 1) before] at hbefore
    obtain ⟨m'', hexec⟩ := hbefore.of_append
    obtain ⟨hfree, hnow⟩ :=
      hexec.of_deadline (atRest_untouched state context) fun limit _ => Nat.zero_le limit
    obtain rfl : m'' = last := by
      rw [← hrun, htake, (stepsRun_of_executed hfree).1]
    exact absurd (hnow limit rfl) (Nat.not_le.mpr hlt)

end Stopped

/-- What the steps of a valid workflow leave. -/
theorem stepsRun_tidy {w : Workflow} (hw : w.validate = .ok ()) (adapter : Adapter σ)
    (budget : Option Nat) (context : Json) (state : σ) :
    Proper flatFork (stepsRun adapter budget w.steps context state) ∧
      Tidy (stepsRun adapter budget w.steps context state) := by
  have hproper : Proper flatFork (beginning (.initial state context) (root + 1)
      (pipelineActivity "" 0 w.steps context .ended)) :=
    .beginning (Nat.lt_succ_self _) (pipelineActivity_lawful gives_flatFork w.steps
      (Workflow.maps_of_validate hw) "" 0 context continues_ended)
  exact ⟨hproper.run, hproper.run_tidy tidy_beginning⟩

/-- A run that is cut off. -/
private theorem exists_cutOffAt {e : Engine σ} {w : Workflow} (hw : w.validate = .ok ())
    {limit : Nat} {context : Json} {state : σ} {log : List LogLine} {m free : Machine σ}
    (hcut : CutOff limit (stepsRun e.adapter (some limit) w.steps context state)
      (stepsRun e.adapter none w.steps context state).world)
    (hm : m = (stepsRun e.adapter (some limit) w.steps context state).onWorld
      fun world => { closeTimeline world .timedOut with log })
    (hfree : free.world.calls = (stepsRun e.adapter none w.steps context state).world.calls) :
    ∃ report index, resultOf w (some limit) .timedOut
        (stepsRun e.adapter (some limit) w.steps context state) = .ok report ∧
      CutOffAt e w context state limit report m free index := by
  rcases stepsRun_cases e.adapter (some limit) w.steps context state with
    ⟨m', c, -, hrest, hrun⟩ | ⟨before, s, after, m', c, hsteps, hbefore, hrest, hnot, hrun⟩
  · have hending := hcut.ending
    rw [hrun, hrest.ending] at hending
    cases hending
  have hreached : (stepsRun e.adapter (some limit) w.steps context state).world.reached =
      (before.length, c) := by
    rw [hrun]
    exact (at_runStep hrest s).reached
  obtain ⟨hproper, htidy⟩ := stepsRun_tidy hw e.adapter (some limit) context state
  have hcalls : m.world.calls =
      (stepsRun e.adapter (some limit) w.steps context state).world.calls := hm ▸ rfl
  have hs : w.steps[before.length]? = some s := by simp [hsteps]
  refine ⟨_, before.length, rfl, ⟨⟨s, c, m', hs, ?_, ⟨?_, ?_⟩, hrest.ending⟩,
    fun j last => finished_iff_of_stopped hsteps hbefore hrest hnot, ?_, fun ms => ⟨?_, ?_⟩⟩⟩
  · simp only [hreached, hs, Option.map_some, Option.getD_some]
  · simp [hsteps]
  · rw [hsteps, List.take_left]
    exact (hbefore.of_deadline (atRest_untouched state context) fun limit _ => Nat.zero_le limit).1
  · obtain ⟨w₀, hcalls₀, hle, hlater⟩ := hcut.later
    rw [hfree, hlater.filter_calls hle, hcalls₀, hcalls]
  · have hclosed : Proper flatFork m := hm ▸ ⟨hproper.sound.withWorld rfl, hproper.lawful⟩
    have hcancelled : AllCancelled m := hm ▸ htidy.cut hcut.ending
    exact hclosed.settle_calls hcancelled ms
  · intro r hr
    rw [hcalls] at hr
    exact (time_le_of_mem_calls hr).trans_eq hcut.now

/-- **A budget only cuts a run.** A run within a budget is the run without it if that ends before
the budget is spent, and is cut off if it ends later. -/
theorem execute_within_budget (e : Engine σ) (w : Workflow) (hw : w.validate = .ok ()) {limit : Nat}
    (hlimit : e.budgetFor w = some limit) (context : Json) (state : σ) :
    ∃ result m free mfree, e.execute w context state = some (result, m) ∧
      e.executeFreely w context state = some (free, mfree) ∧
      (∀ report, free = .ok report → report.elapsedMs = mfree.world.now) ∧
      (mfree.world.now < limit → result = free ∧ m.unlogged = mfree.unlogged) ∧
      (limit < mfree.world.now → ∃ report index, result = .ok report ∧
        CutOffAt e w context state limit report m mfree index) := by
  obtain ⟨ending, log, hending, hexec⟩ := e.execute_eq w context state
  obtain ⟨ending', log', hending', hexec'⟩ :=
    ({ e with budgetMs := none } : Engine σ).execute_eq { w with timeoutSecs := none } context state
  have hfree : Engine.budgetFor { e with budgetMs := none } { w with timeoutSecs := none } = none :=
    rfl
  rw [hlimit] at hending hexec
  rw [hfree] at hending' hexec'
  have hnow' : (closeTimeline (stepsRun e.adapter none w.steps context state).world ending').now =
      (stepsRun e.adapter none w.steps context state).world.now := by
    cases ending' <;> rfl
  refine ⟨_, _, _, _, hexec, hexec', fun report h => ?_, ?_⟩
  · obtain ⟨outcome, -, rfl⟩ := Except.map_eq_ok.mp h
    exact hnow'.symm
  rcases stepsRun_deadline e.adapter limit w.steps context state with ⟨heq, hnow⟩ | hcut
  · refine ⟨fun _ => ?_, fun hlt => ?_⟩
    · rw [heq] at hending ⊢
      obtain rfl := Option.some.inj (hending.symm.trans hending')
      rcases ending with ((failure | p) | context) | - <;> try exact ⟨rfl, rfl⟩
      exact absurd hending ((proper_start w.steps context state).run_none_ne_timedOut rfl)
    · rw [heq] at hnow
      exact absurd hlt (Nat.not_lt.mpr (hnow'.trans_le hnow))
  · refine ⟨fun hlt => ?_, fun _ => ?_⟩
    · obtain ⟨w₀, -, hle, hlater⟩ := hcut.later
      exact absurd hlt (Nat.not_lt.mpr ((hle.trans hlater.now_le).trans_eq hnow'.symm))
    · obtain rfl := Option.some.inj (hcut.ending.symm.trans hending)
      refine exists_cutOffAt hw hcut rfl ?_
      cases ending' <;> rfl

/-- A workflow that calls once, for ten milliseconds, is cut off in the call when its budget is
five. -/
theorem copy_within_budget :
    let e : Engine Unit :=
      ⟨⟨fun _ _ => 10, fun _ _ input state => ((.ok input, []), state)⟩, some 5⟩
    let w : Workflow :=
      .ofSteps "copy" [.task ⟨"copy", none, "copy", none, none, .replace, none⟩]
    w.validate = .ok () ∧ e.budgetFor w = some 5 ∧
      ∃ report m free mfree, e.execute w .null () = some (.ok report, m) ∧
        e.executeFreely w .null () = some (free, mfree) ∧ mfree.world.now = 10 ∧
        CutOffAt e w .null () 5 report m mfree 0 := by
  intro e w
  have hw : w.validate = .ok () := by decide
  have hbudget : e.budgetFor w = some 5 := rfl
  obtain ⟨result, m, free, mfree, hexec, hfree, -, -, hcut⟩ :=
    execute_within_budget e w hw hbudget .null ()
  -- without the budget the call is begun, and its answer comes after ten milliseconds
  have hrun : stepsRun e.adapter none w.steps .null () =
      (step e.adapter none)^[2] (start () .null (w.steps.activity "" .null)) :=
    run_eq_iterate 2 (by decide +kernel +zetaReduce) (by decide +kernel +zetaReduce)
  have hnow : mfree.world.now = 10 := by
    obtain ⟨ending, log, hending, heq⟩ :=
      ({ e with budgetMs := none } : Engine Unit).execute_eq w .null ()
    obtain ⟨-, rfl⟩ := Prod.mk.inj (Option.some.inj (hfree.symm.trans heq))
    have hnone : Engine.budgetFor { e with budgetMs := none } w = none := rfl
    rw [hnone, hrun]
    have hclosed : ∀ world : World Unit, (closeTimeline world ending).now = world.now := by
      cases ending <;> exact fun _ => rfl
    refine (hclosed _).trans ?_
    decide +kernel +zetaReduce
  obtain ⟨report, index, rfl, hcutAt⟩ := hcut (hnow ▸ by decide)
  obtain ⟨s, committed, m', hs, -⟩ := hcutAt.timedOut
  obtain rfl : index = 0 := by
    have := (List.getElem?_eq_some_iff.mp hs).1
    exact Nat.lt_one_iff.mp this
  exact ⟨hw, hbudget, report, m, free, mfree, hexec, hfree, hnow, hcutAt⟩

end Engine

end Conveyor
