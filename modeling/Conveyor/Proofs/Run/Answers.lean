import Conveyor.Proofs.Run.Budgets
import Conveyor.Proofs.Run.Moves
import Conveyor.Proofs.Store.Dispatch
import Conveyor.Proofs.Workflow.Operations

/-!
# Which operations a run calls, and what it fails with

A pipeline calls no other operations than its tasks name, so a run makes no other calls; and if all
errors with which these are answered satisfy a condition `R`, then no run fails because of another
one (`Machine.Obeys.leads`). The condition is carried along what is left to do of every task, over
the pauses before a retry and the results that branches hand to their forks.

With the names of the operations of a service this connects what is checked before a run with what
happens in it: a run of a workflow that is accepted with these names never meets an operation that
there is not (`Workflow.dry_run_sound`).
-/

namespace Conveyor

open Conveyor.Except (FailsWith)

/-! ### Errors -/

/-- If the error comes from a call, that call has failed with an error that satisfies `R`. -/
def StepError.Stems (R : CallError → Prop) (error : StepError) : Prop :=
  ∀ operation e, error.rootCause = .call operation e → R e

/-- If the failure comes from a call, that call has failed with an error that satisfies `R`. -/
abbrev StepFailure.Stems (R : CallError → Prop) (failure : StepFailure) : Prop :=
  failure.error.Stems R

section Stems

variable {R : CallError → Prop} {α : Type}

theorem StepError.Stems.value (error : EvalError) : (StepError.value error).Stems R :=
  nofun

theorem StepError.Stems.call {operation : String} {e : CallError} (h : R e) :
    (StepError.call operation e).Stems R :=
  fun _ _ heq => (StepError.call.inj heq).2 ▸ h

/-- The error of a map comes from where the failure of the branch comes from, and from no call if
the branch has panicked. -/
theorem Collapse.toError_stems {c : Collapse} (h : c.fault.Satisfies (StepFailure.Stems R)) :
    c.toError.Stems R := by
  unfold toError
  split <;> rename_i hfault <;> rw [hfault] at h
  · exact h
  · exact nofun

/-- What is put into a context comes from no call. -/
theorem StepError.stems_of_path (x : Except (Fault PathError) α) :
    FailsWith (Fault.Satisfies (StepError.Stems R)) (x.mapError (.map .ofPath)) :=
  .mapError fun fault => by
    cases fault with
    | error e => exact .value _
    | panic p => trivial

theorem PassStep.apply_stems (s : PassStep) (context : Json) :
    FailsWith (Fault.Satisfies (StepError.Stems R)) (s.apply context) := by
  unfold apply
  split
  · exact .ok _
  · exact .bind (.mapError .value) fun _ => StepError.stems_of_path _

theorem TaskStep.input_stems (s : TaskStep) (context : Json) :
    FailsWith (StepError.Stems R) (s.input context) := by
  unfold input
  split
  · exact .ok _
  · exact .mapError .value

theorem TaskStep.finish_stems (s : TaskStep) (context output : Json) :
    FailsWith (Fault.Satisfies (StepError.Stems R)) (s.finish context output) := by
  unfold finish
  split
  · exact .bind (.ok _) fun _ => StepError.stems_of_path _
  · exact .bind (.mapError .value) fun _ => StepError.stems_of_path _

theorem MapHead.items_stems (s : MapHead) (context : Json) :
    FailsWith (StepError.Stems R) (s.items context) := by
  unfold items
  split
  · exact .ok _
  · exact .error (.value _)
  · exact .error (.value _)

theorem MapHead.finish_stems (s : MapHead) (context : Json) (outputs : List Json) :
    FailsWith (Fault.Satisfies (StepError.Stems R)) (s.finish context outputs) :=
  StepError.stems_of_path _

end Stems

/-! ### The condition -/

section Obeys

/-- If a result is a failure that comes from a call, that call has failed with an error that
satisfies `R`. -/
abbrev ResultStems (R : CallError → Prop) (result : Except (Fault StepFailure) Json) : Prop :=
  FailsWith (Fault.Satisfies (StepFailure.Stems R)) result

/-- The same for the end of a fork. -/
abbrev CollapseStems (R : CallError → Prop) (r : Except Collapse (List Json)) : Prop :=
  FailsWith (fun c => c.fault.Satisfies (StepFailure.Stems R)) r

variable (K : String → Prop) (R : CallError → Prop)

/-- All calls of an activity and its branches are of operations in `K`, and if their errors satisfy
`R`, it does not fail because of another one. -/
def Activity.Obeys : Activity → Prop
  | .done result => ResultStems R result
  | .note _ next => next.Obeys
  | .call operation _ next => K operation ∧ ∀ r, FailsWith R r → (next r).Obeys
  | .pause _ next => next.Obeys
  | .fork _ _ branch next => (∀ item, (branch item).Obeys) ∧
    ∀ r, CollapseStems R r → (next r).Obeys

/-- The condition for what is left to do after a pause. -/
def Resumption.Obeys : Resumption → Prop
  | .activity a => a.Obeys K R
  | .answer _ operation _ next => K operation ∧ ∀ r, FailsWith R r → (next r).Obeys K R

/-- The condition for what is left to do of a fork, with the results that it has received. -/
structure Fork.Obeys (f : Fork) : Prop where
  branch : ∀ item, (f.branch item).Obeys K R
  next : ∀ r, CollapseStems R r → (f.next r).Obeys K R
  ended : ∀ e ∈ f.ended, ResultStems R e.2

/-- The condition for what is left to do of a task. -/
def TaskState.Obeys : TaskState → Prop
  | .paused r => r.Obeys K R
  | .joining f => f.Obeys K R

/-- The condition for what is left to do after a turn. -/
def Halt.Obeys : Halt → Prop
  | .done result => ResultStems R result
  | .asleep _ r => r.Obeys K R
  | .forked f => f.Obeys K R

/-- All calls so far were of operations in `K`. -/
def World.Obeys {σ : Type} (w : World σ) : Prop :=
  ∀ r ∈ w.calls, K r.operation

/-- The condition for a machine. -/
structure Machine.Obeys {σ : Type} (m : Machine σ) : Prop where
  world : m.world.Obeys K
  tasks (k : Nat) (t : Task) (ht : m.tasks.lookup k = some t) : t.state.Obeys K R
  ending (result : Except (Fault StepFailure) Json) (h : m.ending = some (.finished result)) :
    ResultStems R result

/-- The errors of the answers to operations in `K` satisfy `R`. -/
def Adapter.Obeys {σ : Type} (adapter : Adapter σ) : Prop :=
  ∀ number operation input state, K operation →
    FailsWith R (adapter.answer number operation input state).1.1

end Obeys

/-! ### Pipelines -/

section Pipelines

variable {K : String → Prop} {R : CallError → Prop} {α : Type}

/-- What follows a part of a pipeline meets the condition if the part fails in an allowed way. -/
def Follows (K : String → Prop) (R : CallError → Prop)
    (next : Except StepError α → Activity) : Prop :=
  ∀ r, FailsWith (StepError.Stems R) r → (next r).Obeys K R

/-- What follows a step meets the condition, also when the step panics. -/
theorem Follows.onward {next : Except StepError Json → Activity} (h : Follows K R next)
    {result : Except (Fault StepError) Json}
    (hresult : FailsWith (Fault.Satisfies (StepError.Stems R)) result) :
    (Activity.onward next result).Obeys K R := by
  rcases result with (error | p) | context
  · exact h _ (.error (hresult _ rfl))
  · exact FailsWith.error (e := Fault.panic p) trivial
  · exact h _ (.ok context)

theorem Follows.finishWith {next : Except StepError Json → Activity} (h : Follows K R next)
    {finish : α → Except (Fault StepError) Json}
    (hfinish : ∀ a, FailsWith (Fault.Satisfies (StepError.Stems R)) (finish a)) :
    Follows K R (Activity.finishWith finish next) := by
  intro r hr
  cases r with
  | ok a => exact h.onward (hfinish a)
  | error error => exact h _ (.error (hr error rfl))

theorem TaskStep.callActivity_obeys {s : TaskStep} {next : Except StepError Json → Activity}
    (hs : K s.adapter) (h : Follows K R next) (input : Json) (retries attempt : Nat) :
    (s.callActivity input next retries attempt).Obeys K R := by
  induction retries generalizing attempt with
  | zero =>
    unfold callActivity
    refine ⟨hs, fun r hr => ?_⟩
    cases r with
    | ok output => exact h _ (.ok output)
    | error e => exact h _ (.error (.call (hr e rfl)))
  | succ retries ih =>
    unfold callActivity
    refine ⟨hs, fun r hr => ?_⟩
    cases r with
    | ok output => exact h _ (.ok output)
    | error e => exact ih (attempt + 1)

theorem TaskStep.activity_obeys {s : TaskStep} {next : Except StepError Json → Activity}
    (hs : K s.adapter) (h : Follows K R next) (context : Json) :
    (s.activity context next).Obeys K R := by
  have hinput := s.input_stems (R := R) context
  unfold activity
  split
  · rename_i error heq
    exact h _ (.error (hinput error heq))
  · exact callActivity_obeys hs (h.finishWith (s.finish_stems context)) _ _ _

theorem MapHead.activity_obeys {s : MapHead} {id : String} {branch : Nat → Json → Activity}
    {next : Except StepError Json → Activity} (h : Follows K R next)
    (hbranch : ∀ item x, (branch item x).Obeys K R) (context : Json) :
    (s.activity id branch context next).Obeys K R := by
  have hitems := s.items_stems (R := R) context
  have hnext : Follows K R (Activity.finishWith (s.finish context) next) :=
    h.finishWith (s.finish_stems context)
  unfold activity
  split
  · rename_i error heq
    exact h _ (.error (hitems error heq))
  · rename_i items heq
    by_cases hcount : items.length = 0
    · rw [fanOut, if_pos hcount]
      exact hnext _ (.ok [])
    · rw [fanOut_eq hcount]
      refine ⟨fun item => hbranch item _, fun r hr => ?_⟩
      cases r with
      | ok outputs => exact hnext _ (.ok outputs)
      | error c =>
        have hgoes : (Activity.finishWith (s.finish context) next (.error c.toError)).Obeys K R :=
          hnext _ (.error (Collapse.toError_stems (hr c rfl)))
        unfold afterBranches
        dsimp only
        split <;> exact hgoes

mutual

theorem Step.activity_obeys : ∀ (s : Step), (∀ a, Pipeline.Uses [s] a → K a) →
    ∀ (id : String) (context : Json) {next : Except StepError Json → Activity}, Follows K R next →
    (s.activity id context next).Obeys K R
  | .pass s, _, _, context, _, h => by
    unfold Step.activity
    exact h.onward (s.apply_stems context)
  | .task s, hK, _, context, _, h => by
    unfold Step.activity
    exact TaskStep.activity_obeys (hK _ (Pipeline.uses_task.mpr rfl)) h context
  | .map head iterator, hK, id, context, _, h => by
    unfold Step.activity
    refine MapHead.activity_obeys h (fun item x => ?_) context
    refine pipelineActivity_obeys iterator (fun a ha => hK a (Pipeline.uses_map.mpr ha)) _ 0 x
      fun r hr => ?_
    cases r with
    | ok context => exact .ok context
    | error failure => exact .error (hr failure rfl)

/-- A pipeline calls the operations that its tasks name. -/
theorem pipelineActivity_obeys : ∀ (steps : List Step), (∀ a, Pipeline.Uses steps a → K a) →
    ∀ (scope : String) (index : Nat) (context : Json)
      {next : Except StepFailure Json → Activity},
      (∀ r, FailsWith (StepFailure.Stems R) r → (next r).Obeys K R) →
    (pipelineActivity scope index steps context next).Obeys K R
  | [], _, _, _, context, _, h => by
    unfold pipelineActivity
    exact h _ (.ok context)
  | s :: steps, hK, scope, index, context, _, h => by
    unfold pipelineActivity
    refine Step.activity_obeys s (fun a ha => hK a (Pipeline.uses_cons.mpr (.inl ha))) _ context
      fun r hr => ?_
    cases r with
    | ok context =>
      exact pipelineActivity_obeys steps (fun a ha => hK a (Pipeline.uses_cons.mpr (.inr ha)))
        scope (index + 1) context h
    | error error => exact h _ (.error (hr error rfl))

end

end Pipelines

/-! ### Turns -/

section Turns

variable {K : String → Prop} {R : CallError → Prop} {σ : Type} {adapter : Adapter σ}

theorem World.Obeys.note {w : World σ} (hw : w.Obeys K) (top : Bool) (n : Note) :
    (w.note top n).Obeys K := by
  cases n with
  | reached index context => unfold World.note; dsimp only; split <;> exact hw
  | _ => exact hw

theorem World.Obeys.beginCall {w : World σ} (hw : w.Obeys K) {operation : String}
    (h : K operation) (input : Json) : (w.beginCall operation input).Obeys K := by
  intro r hr
  rcases List.mem_append.mp hr with hr | hr
  · exact hw r hr
  · obtain rfl := List.mem_singleton.mp hr
    exact h

/-- A turn makes calls of operations in `K` only, and leaves a part that does. -/
theorem Activity.Obeys.advance (hadapter : adapter.Obeys K R) {a : Activity} (ha : a.Obeys K R)
    (top : Bool) {w : World σ} (hw : w.Obeys K) :
    (a.advance adapter top w).1.Obeys K R ∧ (a.advance adapter top w).2.Obeys K := by
  induction a generalizing w with
  | done result => exact ⟨ha, hw⟩
  | note n next ih => exact ih ha (hw.note top n)
  | pause ms next ih =>
    unfold Activity.advance
    split
    · exact ih ha hw
    · exact ⟨ha, hw⟩
  | call operation input next ih =>
    have hbegun := hw.beginCall ha.1 input
    unfold Activity.advance
    dsimp only
    split
    · exact ih _ (ha.2 _ (hadapter _ _ _ _ ha.1)) hbegun
    · exact ⟨ha, hbegun⟩
  | fork count limit branch next _ ih =>
    unfold Activity.advance
    split
    · exact ih _ (ha.2 _ (.ok [])) hw
    · exact ⟨⟨ha.1, ha.2, fun _ he => absurd he List.not_mem_nil⟩, hw⟩

namespace Machine

variable {P : Nat → Nat → (Nat → Activity) → Prop} {id : Nat} {m m' m₀ m₁ : Machine σ}
  {s : TaskState} {a : Activity} {h : Halt} {t t' : Task}

theorem Resumes.obeys (hadapter : adapter.Obeys K R) (hr : Resumes adapter id m s a m₁)
    (hs : s.Obeys K R) (hw : m.world.Obeys K) : a.Obeys K R ∧ m₁.world.Obeys K := by
  cases hr with
  | pause r =>
    cases r with
    | activity a => exact ⟨hs, hw⟩
    | answer number operation input next => exact ⟨hs.2 _ (hadapter _ _ _ _ hs.1), hw⟩
  | collapse hf =>
    -- the failure is that of a branch whose result was received
    exact ⟨hs.next _ (.error (hs.ended _ (Fork.of_gather_eq_error hf) _ rfl)), hw⟩
  | complete hf hover =>
    obtain ⟨outputs, -, rfl⟩ := Fork.of_gather_eq_ok hf
    exact ⟨hs.next _ (.ok _), hw⟩

theorem Acts.obeys (hadapter : adapter.Obeys K R) (hacts : Acts adapter id m s h m₁)
    (hs : s.Obeys K R) (hw : m.world.Obeys K) : h.Obeys K R ∧ m₁.world.Obeys K := by
  cases hacts with
  | refill hf hover =>
    obtain ⟨outputs, -, rfl⟩ := Fork.of_gather_eq_ok hf
    exact ⟨⟨hs.branch, hs.next, fun _ he => absurd he List.not_mem_nil⟩, hw⟩
  | advance hr =>
    obtain ⟨ha, hw₁⟩ := hr.obeys hadapter hs hw
    exact ha.advance hadapter _ hw₁

theorem obeys_of_mem_results {item : Option Nat} {e : Nat × Except (Fault StepFailure) Json}
    (hh : h.Obeys K R) (he : e ∈ h.results id item) : ResultStems R e.2 := by
  cases h with
  | done result =>
    obtain ⟨i, -, rfl⟩ := List.mem_map.mp he
    refine FailsWith.mapError_of hh fun fault hfault => ?_
    cases fault with
    | error failure => exact hfault
    | panic p => trivial
  | _ => cases he

/-- A fork that has received a result still meets the condition. -/
theorem Kept.obeys {item : Option Nat} (hkept : Kept id item h t t') (hh : h.Obeys K R)
    (ht : t.state.Obeys K R) : t'.state.Obeys K R := by
  cases hs : t.state with
  | paused r => rw [hkept.paused r hs]; exact hs ▸ ht
  | joining f =>
    rw [hs] at ht
    rw [hkept.joining f hs]
    refine ⟨ht.branch, ht.next, fun e he => ?_⟩
    rcases List.mem_append.mp he with he | he
    · exact ht.ended e he
    · exact obeys_of_mem_results hh he

theorem obeys_of_state? (hh : h.Obeys K R) (hs : h.state? = some s) : s.Obeys K R := by
  cases h with
  | done result => cases hs
  | asleep ms r => exact Option.some.inj hs ▸ hh
  | forked f => exact Option.some.inj hs ▸ ⟨hh.branch, hh.next, hh.ended⟩

/-! ### Runs -/

namespace Obeys

theorem beginning {w : World σ} {fresh : Nat} (ha : a.Obeys K R) (hw : w.Obeys K) :
    (beginning w fresh a).Obeys K R where
  world := hw
  tasks k t ht := by
    rw [lookup_beginning, Option.ite_none_right_eq_some] at ht
    exact Option.some.inj ht.2 ▸ ha
  ending := nofun

/-- The tasks, the calls and the ending count, but nothing else that is recorded. -/
theorem of_tasks (hm : m.Obeys K R) (htasks : m'.tasks = m.tasks)
    (hcalls : m'.world.calls = m.world.calls) (hending : m'.ending = m.ending) : m'.Obeys K R where
  world r hr := hm.world r (hcalls ▸ hr)
  tasks k t ht := hm.tasks k t (htasks ▸ ht)
  ending result h := hm.ending result (hending ▸ h)

theorem drop (hm : m.Obeys K R) (hn : (m.tasks.map Prod.fst).Nodup) : (m.drop id).Obeys K R where
  world r hr := hm.world r (by rwa [drop_world] at hr)
  tasks k t ht := by
    obtain ⟨-, t₀, ht₀, rfl⟩ := of_lookup_drop hn ht
    rw [abandoned_state]
    exact hm.tasks k t₀ ht₀
  ending result h := hm.ending result (by rwa [drop_ending] at h)

theorem acted (hadapter : adapter.Obeys K R) (hm : m₀.Obeys K R) (hending : m₀.ending = m.ending)
    (ha : Acting P adapter m id m₀ t h m₁) : (m₁.halt id h).Obeys K R := by
  obtain ⟨hh, hw⟩ := ha.acts.obeys hadapter (hm.tasks id t ha.lookup) hm.world
  refine ⟨ha.halt_world ▸ hw, fun k t' ht' => ?_, fun result hresult => ?_⟩
  · cases ha.after ht' with
    | other hne ht₀ kept => exact kept.obeys hh (hm.tasks k _ ht₀)
    | self _ _ _ hstate => exact obeys_of_state? hh hstate
    | new _ hforked _ hbranch =>
      subst hforked hbranch
      exact hh.branch _
  · rcases ha.ending with ⟨result', rfl, -, hend⟩ | ⟨hend, -⟩
    · obtain rfl := Ending.finished.inj (Option.some.inj (hresult.symm.trans hend))
      exact hh
    · exact hm.ending result (hending.trans (hend.symm.trans hresult))

theorem move (hadapter : adapter.Obeys K R) (hm : m.Obeys K R) (hproper : Proper P m)
    (hmove : Move adapter m m') : m'.Obeys K R := by
  cases hmove with
  | @turn m₀ _ htakes =>
    have hending := htakes.ending
    have hm₀ := hm.of_tasks htakes.tasks (congrArg World.calls htakes.world) hending
    exact hproper.turn_cases htakes (fun _ => hm₀)
      (fun t _ _ hsound => hm₀.drop hsound.keys_nodup)
      fun t h m₁ ha => hm₀.acted hadapter hending ha
  | wakeAt hle => exact hm.of_tasks wakeAt_tasks (by rw [wakeAt_world]) wakeAt_ending
  | cut hending =>
    have hdrop : (m.drop Machine.root).Obeys K R := hm.drop hproper.sound.keys_nodup
    exact ⟨hdrop.world, hdrop.tasks, nofun⟩

/-- The condition holds of everything that a machine which meets it is led to. -/
theorem leads (hadapter : adapter.Obeys K R) (hm : m.Obeys K R) (hproper : Proper P m)
    (h : Leads adapter m m') : m'.Obeys K R := by
  obtain ⟨history, hmoves⟩ := h
  exact hmoves.preserves (I := fun _ m => m.Obeys K R) hproper
    (fun _ _ _ hproper hmove hm => hm.move hadapter hproper hmove) hm

theorem settle (hadapter : adapter.Obeys K R) (hm : m.Obeys K R) (hproper : Proper P m)
    (ms : Nat) : (m.settle adapter ms).Obeys K R :=
  hm.leads hadapter hproper (hproper.leads_settle ms)

end Obeys

end Machine

end Turns

/-! ### Runs of workflows -/

section Execute

variable {K : String → Prop} {R : CallError → Prop} {σ : Type}

open Machine

/-- A run calls the operations of the workflow only, also after its end, and fails because of no
other errors than these are answered with. -/
theorem Engine.execute_obeys {e : Engine σ} (hadapter : e.adapter.Obeys K R) {w : Workflow}
    (hw : ∀ a ∈ w.adapters, K a) (context : Json) (state : σ) :
    ∃ result m, e.execute w context state = some (result, m) ∧
      (∀ ms, (m.settle e.adapter ms).world.Obeys K) ∧
        ∀ report error, result = .ok report → report.outcome.error = some error →
          error.Stems R := by
  obtain ⟨ending, log, hending, hexec⟩ := e.execute_eq w context state
  have hstart : (Machine.start state context (w.steps.activity "" context)).Obeys K R :=
    .beginning (pipelineActivity_obeys w.steps (fun a ha => hw a (Workflow.mem_adapters.mpr ha))
      "" 0 context fun _ h => h.mapError_of fun _ h => h) nofun
  have hproper : Proper anyFork (stepsRun e.adapter (e.budgetFor w) w.steps context state) :=
    (proper_start w.steps context state).run
  have hm : (stepsRun e.adapter (e.budgetFor w) w.steps context state).Obeys K R :=
    hstart.leads hadapter (proper_start w.steps context state)
      (proper_start w.steps context state).leads_run
  refine ⟨_, _, hexec, fun ms => ?_, fun report error hreport herror => ?_⟩
  · have hclose (world : World σ) : (closeTimeline world ending).calls = world.calls ∧
        (closeTimeline world ending).now = world.now := by
      cases ending <;> exact ⟨rfl, rfl⟩
    have hobeys : (onWorld (fun world => { closeTimeline world ending with log })
        (stepsRun e.adapter (e.budgetFor w) w.steps context state)).Obeys K R :=
      hm.of_tasks rfl (hclose _).1 rfl
    exact (hobeys.settle hadapter ⟨hproper.sound.withWorld (hclose _).2, hproper.lawful⟩ ms).world
  · have houtcome := outcomeOf_of_resultOf hreport
    generalize report.outcome = outcome at houtcome herror
    rcases ending with ((failure | p) | context) | - <;> cases houtcome
    · exact Option.some.inj herror ▸ hm.ending _ hending _ rfl
    · cases herror
    · exact Option.some.inj herror ▸ nofun

end Execute

/-! ### Dry runs -/

/-- The errors of a service as an adapter are known for the names of its operations. -/
theorem Service.adapter_obeys {σ : Type} {s : Service σ}
    (hs : s.backend.FailsWith CallError.Known) (describe : Deed → String)
    (delay : String → Json → Nat) :
    Adapter.Obeys (· ∈ Operation.names) CallError.Known { s.adapter describe with delay } :=
  fun number _ input state h => s.adapter_known hs h describe number input state

/-- **What a dry run accepts never meets an unknown operation.** The check with a list of known
operations adds to the check without one that all operations of the workflow are in the list; these
are the operations of its tasks at any depth, sorted and each of them once. So no run of a workflow
that is accepted for a service makes a call that could be answered with an unknown operation, on any
store, and none fails because of one. -/
theorem Workflow.dry_run_sound (w : Workflow) :
    (∀ known, w.quickProblems known = [] ↔
        w.problems none = [] ∧ ∀ a ∈ w.adapters, a ∈ known) ∧
      w.adapters.Pairwise (· < ·) ∧
      (∀ a, a ∈ w.adapters ↔ ∃ s, w.steps.Holds (.task s) ∧ s.adapter = a) ∧
      (w.quickProblems Operation.names = [] →
        ∀ {σ : Type} (s : Service σ), s.backend.FailsWith CallError.Known →
          ∀ describe delay budget context state,
            let e : Engine σ := ⟨{ s.adapter describe with delay }, budget⟩
            ∃ result m, e.execute w context state = some (result, m) ∧
              (∀ ms, ∀ r ∈ (m.settle e.adapter ms).world.calls, ∀ number state operation,
                (e.adapter.answer number r.operation r.input state).1.1 ≠
                  .error (.unknownOperation operation)) ∧
              ∀ report error, result = .ok report → report.outcome.error = some error →
                ∀ operation name, error.rootCause ≠ .call operation (.unknownOperation name)) ∧
      Memory.backend.FailsWith CallError.Known ∧
      ∀ files : FileStore, files.backend.FailsWith CallError.Known := by
  refine ⟨fun known => quickProblems_eq_nil, adapters_sorted, fun a => mem_adapters,
    fun h σ s hs describe delay budget context state => ?_, Memory.backend_known,
    FileStore.backend_known⟩
  have hadapter := s.adapter_obeys hs describe delay
  obtain ⟨result, m, hexec, hcalls, herror⟩ := Engine.execute_obeys
    (e := ⟨{ s.adapter describe with delay }, budget⟩) hadapter (quickProblems_eq_nil.mp h).2
    context state
  refine ⟨result, m, hexec, fun ms r hr number state operation heq => ?_,
    fun report error hreport he operation name heq =>
      herror report error hreport he operation _ heq name rfl⟩
  exact hadapter number r.operation r.input state (hcalls ms r hr) _ heq operation rfl

/-- A map that gets each object of a list is accepted for a store in memory. -/
theorem Workflow.dry_run_sound_get :
    let w : Workflow := .ofSteps "get all" [.map ⟨"objects", none, .root, none, .replace⟩
      [.task ⟨"get", none, "storage:getObject", none, none, .replace, none⟩]]
    let s : Service Memory := ⟨Memory.backend, .allowAll⟩
    let e : Engine Memory := ⟨{ s.adapter (fun _ => "") with delay := fun _ _ => 0 }, none⟩
    w.quickProblems Operation.names = [] ∧ s.backend.FailsWith CallError.Known ∧
      ∃ result m, e.execute w (.array [.null]) .empty = some (result, m) ∧
        (∀ ms, ∀ r ∈ (m.settle e.adapter ms).world.calls, ∀ number state operation,
          (e.adapter.answer number r.operation r.input state).1.1 ≠
            .error (.unknownOperation operation)) ∧
        ∀ report error, result = .ok report → report.outcome.error = some error →
          ∀ operation name, error.rootCause ≠ .call operation (.unknownOperation name) := by
  intro w s e
  have h : w.quickProblems Operation.names = [] := by decide
  exact ⟨h, Memory.backend_known, (dry_run_sound w).2.2.2.1 h s Memory.backend_known
    (fun _ => "") (fun _ _ => 0) none (.array [.null]) .empty⟩

end Conveyor
