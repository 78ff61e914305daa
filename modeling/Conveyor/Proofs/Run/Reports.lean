import Conveyor.Proofs.Expression.Failing
import Conveyor.Proofs.Run.Budgets
import Conveyor.Proofs.Run.Endings
import Conveyor.Proofs.Run.Panics

/-!
# What a report on a failed run tells

`Step.Fails` lists the errors with which a step can fail in a context: a value of it cannot be
computed from the context or put into it, its last call has failed, or a step of its pipeline fails
or panics for an item that the context has. What a step does ends with one of these errors if it
fails at all (`Step.mayEnd_activity`), and a run of steps stops at the first one that fails; so the
report on a failed run of a valid workflow is accurate (`Engine.execute_reports`). Only a position
that no array can have, on the way of a result, makes a run end without a report or with a branch
that has panicked.
-/

namespace Conveyor

open Conveyor.Except (FailsWith)

/-! ### Errors of steps -/

/-- The error tells what the context or an output has or lacks. -/
def StepError.OfDocument (error : StepError) : Prop :=
  ∃ e : EvalError, error = .value e ∧ e.OfDocument

section OfDocument

variable {α : Type}

theorem StepError.ofDocument_of_value {x : Except EvalError α}
    (hx : FailsWith EvalError.OfDocument x) :
    FailsWith StepError.OfDocument (x.mapError .value) :=
  hx.mapError_of fun e he => ⟨e, rfl, he⟩

theorem StepError.satisfies_of_value {x : Except EvalError α}
    (hx : FailsWith EvalError.OfDocument x) :
    FailsWith (Fault.Satisfies StepError.OfDocument) (x.mapError fun e => .error (.value e)) :=
  hx.mapError_of fun e he => ⟨e, rfl, he⟩

theorem StepError.satisfies_of_path {x : Except (Fault PathError) α}
    (hx : FailsWith (Fault.Satisfies PathError.OfDocument) x) :
    FailsWith (Fault.Satisfies StepError.OfDocument) (x.mapError (.map .ofPath)) :=
  hx.mapError_of fun _ h => h.map fun e he => ⟨.path e, rfl, he⟩

theorem PassStep.apply_fails (s : PassStep) (context : Json) :
    FailsWith (Fault.Satisfies StepError.OfDocument) (s.apply context) := by
  unfold apply
  split
  · exact .ok context
  · rename_i payload _
    exact (StepError.satisfies_of_value (payload.resolve_fails context)).bind fun value =>
      StepError.satisfies_of_path (s.resultPath.apply_fails context value)

theorem TaskStep.input_fails (s : TaskStep) (context : Json) :
    FailsWith StepError.OfDocument (s.input context) := by
  unfold input
  split
  · exact .ok context
  · rename_i payload _
    exact StepError.ofDocument_of_value (payload.resolve_fails context)

theorem TaskStep.finish_fails (s : TaskStep) (context output : Json) :
    FailsWith (Fault.Satisfies StepError.OfDocument) (s.finish context output) := by
  have hput (result : Json) :=
    StepError.satisfies_of_path (s.resultPath.apply_fails context result)
  unfold finish
  split
  · exact (FailsWith.ok output).bind hput
  · rename_i selector _
    exact (StepError.satisfies_of_value (selector.resolve_fails output)).bind hput

theorem MapHead.items_fails (s : MapHead) (context : Json) :
    FailsWith StepError.OfDocument (s.items context) := by
  have hread := s.itemsPath.read_fails context
  unfold items
  split
  · exact .ok _
  · exact .error ⟨_, rfl, trivial⟩
  · rename_i error heq
    exact .error ⟨_, rfl, hread error heq⟩

theorem MapHead.finish_fails (s : MapHead) (context : Json) (outputs : List Json) :
    FailsWith (Fault.Satisfies StepError.OfDocument) (s.finish context outputs) :=
  StepError.satisfies_of_path (s.resultPath.apply_fails context _)

end OfDocument

/-- With this error a step can fail in a context. -/
inductive Step.Fails : Step → Json → StepError → Prop
  /-- The value of a pass step cannot be computed, or not be put into the context. -/
  | pass {s : PassStep} {context : Json} {error : StepError}
    (h : s.apply context = .error (.error error)) : Fails (.pass s) context error
  /-- The input of a task cannot be computed. -/
  | input {s : TaskStep} {context : Json} {error : StepError} (h : s.input context = .error error) :
    Fails (.task s) context error
  /-- The last call of a task has failed. -/
  | call (s : TaskStep) (context : Json) (e : CallError) :
    Fails (.task s) context (.call s.adapter e)
  /-- What is made of the output of a task cannot be computed, or not be put into the context. -/
  | output {s : TaskStep} {context output : Json} {error : StepError}
    (h : s.finish context output = .error (.error error)) : Fails (.task s) context error
  /-- The context has no items for a map. -/
  | items {head : MapHead} {iterator : Pipeline} {context : Json} {error : StepError}
    (h : head.items context = .error error) : Fails (.map head iterator) context error
  /-- A step of the pipeline of a map fails for one of the items. -/
  | item {head : MapHead} {iterator : Pipeline} {context : Json} {items : List Json}
    {i index : Nat} {s : Step} {inner : Json} {error : StepError}
    (hitems : head.items context = .ok items) (hi : i < items.length)
    (hs : iterator[index]? = some s) (h : Fails s inner error) :
    Fails (.map head iterator) context (.item i index s.name error)
  /-- A step of the pipeline of a map panics for one of the items; the error tells the number of the
  task. -/
  | aborted {head : MapHead} {iterator : Pipeline} {context : Json} {items : List Json}
    {i index : Nat} {s : Step} {inner : Json} {p : Panic} (hitems : head.items context = .ok items)
    (hi : i < items.length) (hs : iterator[index]? = some s) (h : s.Panics inner p) (task : Nat) :
    Fails (.map head iterator) context (.aborted (Machine.toldPanic task p).message)
  /-- The outputs of a map cannot be put into the context. -/
  | outputs {head : MapHead} {iterator : Pipeline} {context : Json} {outputs : List Json}
    {error : StepError} (h : head.finish context outputs = .error (.error error)) :
    Fails (.map head iterator) context error

/-! ### What steps end with -/

section MayEnd

variable {r : Except (Fault StepFailure) Json}

/-- What follows a step goes on with the context that it has made or with its error, unless it has
panicked. -/
theorem Activity.mayEnd_onward {next : Except StepError Json → Activity}
    {result : Except (Fault StepError) Json} (h : (onward next result).MayEnd r) :
    (∃ context, (next (.ok context)).MayEnd r) ∨
      (∃ error, result = .error (.error error) ∧ (next (.error error)).MayEnd r) ∨
      ∃ p, result = .error (.panic p) ∧ r = .error (.panic p) := by
  rcases result with (error | p) | context
  · exact .inr (.inl ⟨error, rfl, h⟩)
  · exact .inr (.inr ⟨p, rfl, h⟩)
  · exact .inl ⟨context, h⟩

theorem TaskStep.mayEnd_callActivity {s : TaskStep} {input : Json}
    {next : Except StepError Json → Activity} {retries attempt : Nat}
    (h : (s.callActivity input next retries attempt).MayEnd r) :
    (∃ output, (next (.ok output)).MayEnd r) ∨
      ∃ e, (next (.error (.call s.adapter e))).MayEnd r := by
  induction retries generalizing attempt with
  | zero =>
    unfold callActivity at h
    obtain ⟨error | output, h⟩ := h
    · exact .inr ⟨error, h⟩
    · exact .inl ⟨output, h⟩
  | succ retries ih =>
    unfold callActivity at h
    obtain ⟨error | output, h⟩ := h
    · exact ih h
    · exact .inl ⟨output, h⟩

theorem TaskStep.mayEnd_activity {s : TaskStep} {context : Json}
    {next : Except StepError Json → Activity} (h : (s.activity context next).MayEnd r) :
    (∃ context', (next (.ok context')).MayEnd r) ∨
      (∃ error, (Step.task s).Fails context error ∧ (next (.error error)).MayEnd r) ∨
      ∃ p, (Step.task s).Panics context p ∧ r = .error (.panic p) := by
  unfold activity at h
  split at h
  · exact .inr (.inl ⟨_, .input ‹_›, h⟩)
  · rcases mayEnd_callActivity h with ⟨output, h⟩ | ⟨e, h⟩
    · rcases Activity.mayEnd_onward h with h | ⟨error, hfinish, h⟩ | ⟨p, hfinish, hr⟩
      · exact .inl h
      · exact .inr (.inl ⟨error, .output hfinish, h⟩)
      · exact .inr (.inr ⟨p, .output hfinish, hr⟩)
    · exact .inr (.inl ⟨_, .call s context e, h⟩)

theorem MapHead.mayEnd_afterBranches {id : String} {c : Collapse}
    {next : Except StepError (List Json) → Activity}
    (h : (afterBranches id next (.error c)).MayEnd r) : (next (.error c.toError)).MayEnd r := by
  unfold afterBranches at h
  dsimp only at h
  split at h <;> exact h

theorem MapHead.mayEnd_fanOut {s : MapHead} {id : String} {branch : Nat → Json → Activity}
    {items : List Json} {next : Except StepError (List Json) → Activity}
    (h : (s.fanOut id branch items next).MayEnd r) :
    (∃ outputs, (next (.ok outputs)).MayEnd r) ∨
      ∃ i x, items[i]? = some x ∧
        ((∃ failure, (branch i x).MayEnd (.error (.error failure)) ∧
            (next (.error (failure.ofItem i))).MayEnd r) ∨
          ∃ p task, (branch i x).MayEnd (.error (.panic p)) ∧
            (next (.error (.aborted (Machine.toldPanic task p).message))).MayEnd r) := by
  by_cases hcount : items.length = 0
  · rw [fanOut, if_pos hcount] at h
    exact .inl ⟨[], h⟩
  · rw [fanOut_eq hcount] at h
    rcases h with h | ⟨c, hi, ⟨task, fault, hfault, hbranch⟩, h⟩
    · exact .inl h
    · have hx : items.getD c.item .null = items[c.item] := by
        rw [List.getD_eq_getElem?_getD, List.getElem?_eq_getElem hi, Option.getD_some]
      have hnext := mayEnd_afterBranches h
      rw [Collapse.toError, hfault] at hnext
      refine .inr ⟨c.item, _, List.getElem?_eq_getElem hi, ?_⟩
      cases fault with
      | error failure => exact .inl ⟨failure, hx ▸ hbranch, hnext⟩
      | panic p => exact .inr ⟨p, task, hx ▸ hbranch, hnext⟩

mutual

/-- What a step does goes on with a context, or with an error with which the step can fail; or the
step panics. -/
theorem Step.mayEnd_activity : ∀ (s : Step) {id : String} {context : Json}
    {next : Except StepError Json → Activity} {r : Except (Fault StepFailure) Json},
    (s.activity id context next).MayEnd r →
    (∃ context', (next (.ok context')).MayEnd r) ∨
      (∃ error, s.Fails context error ∧ (next (.error error)).MayEnd r) ∨
      ∃ p, s.Panics context p ∧ r = .error (.panic p)
  | .pass s, _, context, next, r, h => by
    unfold Step.activity at h
    rcases Activity.mayEnd_onward h with h | ⟨error, happly, h⟩ | ⟨p, happly, hr⟩
    · exact .inl h
    · exact .inr (.inl ⟨error, .pass happly, h⟩)
    · exact .inr (.inr ⟨p, .pass happly, hr⟩)
  | .task s, _, _, _, _, h => by
    unfold Step.activity at h
    exact TaskStep.mayEnd_activity h
  | .map head iterator, _, context, _, _, h => by
    unfold Step.activity MapHead.activity at h
    split at h
    · exact .inr (.inl ⟨_, .items ‹_›, h⟩)
    · rename_i items hitems
      rcases MapHead.mayEnd_fanOut h with ⟨outputs, h⟩ | ⟨i, x, hx, hitem⟩
      · rcases Activity.mayEnd_onward h with h | ⟨error, hfinish, h⟩ | ⟨p, hfinish, hr⟩
        · exact .inl h
        · exact .inr (.inl ⟨error, .outputs hfinish, h⟩)
        · exact .inr (.inr ⟨p, .outputs hfinish, hr⟩)
      · have hi : i < items.length := (List.getElem?_eq_some_iff.mp hx).1
        rcases hitem with ⟨failure, hbranch, h⟩ | ⟨p, task, hbranch, h⟩
        · rcases mayEnd_pipelineActivity iterator hbranch with
            ⟨context', hok⟩ | ⟨index, s, inner, error, hs, hfails, herror⟩ |
            ⟨_, _, _, _, _, _, hpanic⟩
          · cases hok
          · obtain rfl := Fault.error.inj (Except.error.inj herror)
            rw [Nat.zero_add] at h
            exact .inr (.inl ⟨_, .item hitems hi hs hfails, h⟩)
          · cases hpanic
        · rcases mayEnd_pipelineActivity iterator hbranch with
            ⟨context', hok⟩ | ⟨_, _, _, _, _, _, herror⟩ | ⟨index, s, inner, q, hs, hpanics, hpanic⟩
          · cases hok
          · cases herror
          · obtain rfl := Fault.panic.inj (Except.error.inj hpanic)
            exact .inr (.inl ⟨_, .aborted hitems hi hs hpanics task, h⟩)

/-- What steps from a position on do goes on with a context, or with the failure of one of them; or
one of them panics. -/
theorem mayEnd_pipelineActivity : ∀ (steps : List Step) {scope : String} {index : Nat}
    {context : Json} {next : Except StepFailure Json → Activity}
    {r : Except (Fault StepFailure) Json},
    (pipelineActivity scope index steps context next).MayEnd r →
    (∃ context', (next (.ok context')).MayEnd r) ∨
      (∃ j s inner error, steps[j]? = some s ∧ s.Fails inner error ∧
        (next (.error ⟨index + j, s.name, error⟩)).MayEnd r) ∨
      ∃ (j : Nat) (s : Step) (inner : Json) (p : Panic), steps[j]? = some s ∧ s.Panics inner p ∧
        r = .error (.panic p)
  | [], _, _, context, _, _, h => by
    unfold pipelineActivity at h
    exact .inl ⟨context, h⟩
  | s :: steps, _, index, context, _, _, h => by
    unfold pipelineActivity at h
    rcases s.mayEnd_activity h with ⟨context', h⟩ | ⟨error, hfails, h⟩ | ⟨p, hpanics, hr⟩
    · rcases mayEnd_pipelineActivity steps h with h | ⟨j, s', inner, error, hs, hfails, h⟩ |
        ⟨j, s', inner, p, hs, hpanics, hr⟩
      · exact .inl h
      · exact .inr (.inl ⟨j + 1, s', inner, error, hs, hfails, by rwa [Nat.add_right_comm] at h⟩)
      · exact .inr (.inr ⟨j + 1, s', inner, p, hs, hpanics, hr⟩)
    · exact .inr (.inl ⟨0, s, context, error, rfl, hfails, h⟩)
    · exact .inr (.inr ⟨0, s, context, p, rfl, hpanics, hr⟩)

end

/-- A step that fails alone tells its position and its name. -/
theorem Step.mayEnd_alone {s : Step} {index : Nat} {context : Json} {failure : StepFailure}
    (h : (s.alone index context).MayEnd (.error (.error failure))) :
    failure.index = index ∧ failure.name = s.name ∧ s.Fails context failure.error := by
  unfold Step.alone at h
  simp only [pipelineActivity] at h
  rcases s.mayEnd_activity h with ⟨context', hok⟩ | ⟨error, hfails, herror⟩ | ⟨p, -, hpanic⟩
  · cases hok
  · obtain rfl := Fault.error.inj (Except.error.inj herror)
    exact ⟨rfl, rfl, hfails⟩
  · cases hpanic

end MayEnd

/-! ### What failures tell -/

/-- The error is of a kind that a step can fail with, and if it is about a template, it tells what
the document lacks that the template was to be filled in from. -/
structure StepError.Closed (error : StepError) : Prop where
  kind : error.kind ∉ ["InvalidPath", "TimeoutExceeded"]
  format (template : Template) (cause : PathError)
    (h : error = .value (.format ⟨template, cause⟩)) :
    (∃ path, cause = .notFound path) ∨
      ∃ path expected found, cause = .typeMismatch path expected found

/-- The error is not about a branch of a map. -/
def StepError.Plain (error : StepError) : Prop :=
  error.kind ∉ ["MapItemFailure", "BranchAborted"]

theorem StepError.Plain.ne_item {error : StepError} (h : error.Plain) (item index : Nat)
    (name : String) (cause : StepError) : error ≠ .item item index name cause := by
  rintro rfl
  exact h (by simp [kind])

theorem StepError.OfDocument.closed {error : StepError} (h : error.OfDocument) : error.Closed := by
  obtain ⟨e, rfl, he⟩ := h
  constructor
  case kind =>
    cases e with
    | path e =>
      cases e with
      | malformed => exact he.elim
      | _ => simp [kind]
    | _ => simp [kind]
  case format =>
    rintro template cause herror
    obtain rfl := StepError.value.inj herror
    cases cause with
    | notFound path => exact .inl ⟨path, rfl⟩
    | typeMismatch path expected found => exact .inr ⟨path, expected, found, rfl⟩
    | malformed => exact he.elim

theorem StepError.OfDocument.plain {error : StepError} (h : error.OfDocument) : error.Plain := by
  obtain ⟨e, rfl, -⟩ := h
  cases e with
  | path e => cases e <;> simp [Plain, kind]
  | _ => simp [Plain, kind]

theorem StepError.closed_call (operation : String) (e : CallError) :
    (StepError.call operation e).Closed :=
  ⟨by simp [kind], nofun⟩

theorem StepError.closed_item (item index : Nat) (name : String) (cause : StepError) :
    (StepError.item item index name cause).Closed :=
  ⟨by simp [kind], nofun⟩

theorem StepError.closed_aborted (message : String) : (StepError.aborted message).Closed :=
  ⟨by simp [kind], nofun⟩

theorem Pipeline.Maps.step {Q : MapHead → Pipeline → Prop} {steps : List Step} {index : Nat}
    {s : Step} (h : Pipeline.Maps Q steps) (hs : steps[index]? = some s) : s.Maps Q := by
  induction steps generalizing index with
  | nil => cases hs
  | cons s' steps ih =>
    cases index with
    | zero => exact Option.some.inj hs ▸ h.1
    | succ index => exact ih h.2 hs

namespace Step.Fails

variable {s : Step} {context : Json} {error : StepError}

theorem closed (h : s.Fails context error) : error.Closed := by
  cases h with
  | @pass s _ _ h => exact StepError.OfDocument.closed (s.apply_fails context _ h)
  | @input s _ _ h => exact (s.input_fails context error h).closed
  | call s _ e => exact StepError.closed_call s.adapter e
  | @output s _ output _ h => exact StepError.OfDocument.closed (s.finish_fails context output _ h)
  | @items head _ _ _ h => exact (head.items_fails context error h).closed
  | item => exact StepError.closed_item _ _ _ _
  | aborted => exact StepError.closed_aborted _
  | @outputs head _ _ outputs _ h =>
    exact StepError.OfDocument.closed (head.finish_fails context outputs _ h)

/-- A step that fails with an error about a branch is a map, and for an item that the context has a
step of its pipeline fails or panics. -/
theorem exists_branch (h : s.Fails context error) (hplain : ¬ error.Plain) :
    ∃ head iterator items i index inner c, s = .map head iterator ∧
      head.items context = .ok items ∧ i < items.length ∧ iterator[index]? = some inner ∧
      ((∃ cause, inner.Fails c cause ∧ error = .item i index inner.name cause) ∨
        ∃ p task, inner.Panics c p ∧ error = .aborted (Machine.toldPanic task p).message) := by
  have hnot (hdocument : error.OfDocument) : False := hplain hdocument.plain
  cases h with
  | @pass s _ _ h => exact (hnot (s.apply_fails context _ h)).elim
  | @input s _ _ h => exact (hnot (s.input_fails context _ h)).elim
  | call s _ e => exact absurd (by simp [StepError.Plain, StepError.kind]) hplain
  | @output s _ output _ h => exact (hnot (s.finish_fails context output _ h)).elim
  | @items head _ _ _ h => exact (hnot (head.items_fails context _ h)).elim
  | @outputs head _ _ outputs _ h => exact (hnot (head.finish_fails context outputs _ h)).elim
  | item hitems hi hs h => exact ⟨_, _, _, _, _, _, _, rfl, hitems, hi, hs, .inl ⟨_, h, rfl⟩⟩
  | aborted hitems hi hs h task =>
    exact ⟨_, _, _, _, _, _, _, rfl, hitems, hi, hs, .inr ⟨_, task, h, rfl⟩⟩

/-- Only maps fail with an error about a branch. -/
theorem plain (h : s.Fails context error) (hs : s.Maps fun _ _ => False) : error.Plain := by
  by_contra hplain
  obtain ⟨_, _, _, _, _, _, _, rfl, _⟩ := h.exists_branch hplain
  exact hs.1

/-- A map that fails for an item. -/
theorem of_item {i index : Nat} {name : String} {cause : StepError}
    (h : s.Fails context (.item i index name cause)) :
    ∃ head iterator items inner c, s = .map head iterator ∧ head.items context = .ok items ∧
      i < items.length ∧ iterator[index]? = some inner ∧ inner.name = name ∧
        inner.Fails c cause := by
  obtain ⟨head, iterator, items, _, _, inner, c, hs, hitems, hi, hinner, hbranch⟩ :=
    h.exists_branch fun hplain => hplain.ne_item _ _ _ _ rfl
  rcases hbranch with ⟨cause', hfails, heq⟩ | ⟨p, task, -, heq⟩
  · obtain ⟨rfl, rfl, rfl, rfl⟩ := StepError.item.inj heq
    exact ⟨head, iterator, items, inner, c, hs, hitems, hi, hinner, rfl, hfails⟩
  · cases heq

/-- A map fails because a branch has panicked only if the results in its pipeline do not fit. -/
theorem of_aborted (h : s.Fails context error) (hkind : error.kind = "BranchAborted") :
    ∃ head iterator, s = .map head iterator ∧ ¬ Pipeline.Fits iterator := by
  obtain ⟨head, iterator, _, _, _, _, _, hs, _, _, hinner, hbranch⟩ :=
    h.exists_branch fun hplain => hplain (by simp [hkind])
  rcases hbranch with ⟨cause, -, rfl⟩ | ⟨p, task, hpanics, -⟩
  · simp [StepError.kind] at hkind
  · exact ⟨head, iterator, hs, fun hfits => hpanics.not_fits (hfits.step hinner)⟩

end Step.Fails

theorem MapHead.read_of_items {s : MapHead} {context : Json} {items : List Json}
    (h : s.items context = .ok items) : s.itemsPath.read context = .ok (.array items) := by
  unfold MapHead.items at h
  split at h
  · rename_i heq
    exact Except.ok.inj h ▸ heq
  · cases h
  · cases h

/-- What a failure of a run of a workflow tells, with the context that is reported. -/
structure Workflow.Explains (w : Workflow) (context : Json) (failure : StepFailure) : Prop where
  /-- It gives the position and the name of a step, and an error with which the step can fail in the
  context. -/
  step : ∃ s, w.steps[failure.index]? = some s ∧ s.name = failure.name ∧
    s.Fails context failure.error
  closed : failure.error.Closed
  /-- A branch has panicked only if the step is a map with results that do not fit. -/
  aborted (h : failure.error.kind = "BranchAborted") : ∃ head iterator,
    w.steps[failure.index]? = some (.map head iterator) ∧ ¬ Pipeline.Fits iterator
  /-- If it is the failure for an item, the step is a map; its list of items in the context is
  longer than the position of the item; and the position and the name of a step of its pipeline are
  given, with a cause that is not about an item in turn. -/
  item (i index : Nat) (name : String) (cause : StepError)
    (h : failure.error = .item i index name cause) :
    ∃ head iterator items inner, w.steps[failure.index]? = some (.map head iterator) ∧
      head.itemsPath.read context = .ok (.array items) ∧ i < items.length ∧
      iterator[index]? = some inner ∧ inner.name = name ∧ cause.Closed ∧ cause.Plain

/-- The failure of a step of a valid workflow. -/
theorem Workflow.explains_of_fails {w : Workflow} (hw : w.validate = .ok ()) {context : Json}
    {failure : StepFailure} {s : Step} (hs : w.steps[failure.index]? = some s)
    (hname : s.name = failure.name) (h : s.Fails context failure.error) :
    w.Explains context failure where
  step := ⟨s, hs, hname, h⟩
  closed := h.closed
  aborted hkind := by
    obtain ⟨head, iterator, rfl, hnot⟩ := h.of_aborted hkind
    exact ⟨head, iterator, hs, hnot⟩
  item i index name cause herror := by
    obtain ⟨head, iterator, items, inner, c, rfl, hitems, hi, hinner, hname', hfails⟩ :=
      (herror ▸ h).of_item
    have hfree : Pipeline.MapFree iterator := ((maps_of_validate hw).step hs).1
    exact ⟨head, iterator, items, inner, hs, head.read_of_items hitems, hi, hinner, hname',
      hfails.closed, hfails.plain (hfree.step hinner)⟩

/-! ### Runs -/

namespace Engine

open Machine

variable {σ : Type}

/-- The run of a single step that fails. -/
theorem fails_of_runStep {adapter : Adapter σ} {budget : Option Nat} {index : Nat} {s : Step}
    {context : Json} {m : Machine σ} {failure : StepFailure} (hrest : AtRest context m)
    (h : (m.runStep adapter budget index s).ending = some (.finished (.error (.error failure)))) :
    failure.index = index ∧ failure.name = s.name ∧ s.Fails context failure.error := by
  have hproper : Proper anyFork (beginning m.world m.fresh (s.alone index context)) :=
    .beginning hrest.2 (s.alone_lawful index context)
  unfold runStep at h
  rw [thenRun_of_ok hrest.ending] at h
  exact s.mayEnd_alone (mayEnd_run hproper h)

/-- What is left when steps have been run and have failed. -/
theorem explains_of_ending {adapter : Adapter σ} {budget : Option Nat} {w : Workflow}
    (hw : w.validate = .ok ()) {context : Json} {state : σ} {failure : StepFailure}
    (h : (stepsRun adapter budget w.steps context state).ending =
      some (.finished (.error (.error failure)))) :
    w.Explains (stepsRun adapter budget w.steps context state).world.reached.2 failure := by
  rcases stepsRun_cases adapter budget w.steps context state with
    ⟨m', c, -, hrest, hrun⟩ | ⟨before, s, after, m', c, hsteps, -, hrest, -, hrun⟩
  · -- all steps are done, and none has failed
    rw [hrun] at h
    cases hrest.ending.symm.trans h
  · have hat : At before.length s.name c (m'.runStep adapter budget before.length s) :=
      at_runStep hrest s
    rw [hrun] at h
    rw [hrun, hat.reached]
    obtain ⟨hindex, hname, hfails⟩ := fails_of_runStep hrest h
    exact Workflow.explains_of_fails hw (by simp [hindex, hsteps]) hname.symm hfails

/-- Steps panic only if their results do not fit. -/
theorem not_fits_of_ending {adapter : Adapter σ} {budget : Option Nat} {steps : List Step}
    {context : Json} {state : σ} {p : Panic}
    (h : (stepsRun adapter budget steps context state).ending =
      some (.finished (.error (.panic p)))) : ¬ Pipeline.Fits steps := by
  rcases mayEnd_pipelineActivity steps (mayEnd_run (proper_start steps context state) h) with
    ⟨_, hok⟩ | ⟨_, _, _, _, _, _, herror⟩ | ⟨_, _, _, _, hs, hpanics, -⟩
  · cases hok
  · cases herror
  · exact fun hfits => hpanics.not_fits (hfits.step hs)

/-- A workflow whose results fit does not panic. -/
theorem exists_report (e : Engine σ) {w : Workflow} (hw : Pipeline.Fits w.steps) (context : Json)
    (state : σ) : ∃ report m, e.execute w context state = some (.ok report, m) := by
  obtain ⟨ending, log, hending, hexec⟩ := e.execute_eq w context state
  rcases ending with ((failure | p) | context) | -
  · exact ⟨_, _, hexec⟩
  · exact absurd hw (not_fits_of_ending hending)
  · exact ⟨_, _, hexec⟩
  · exact ⟨_, _, hexec⟩

/-- **Reports on failed runs are accurate.** The run of a valid workflow ends, with a report if its
results fit; and if it fails, its report explains the failure: it tells the step that has failed, an
error with which that step can fail in the context that is reported, and for a map the item and the
step of its pipeline. -/
theorem execute_reports (e : Engine σ) {w : Workflow} (hw : w.validate = .ok ()) (context : Json)
    (state : σ) : ∃ result m, e.execute w context state = some (result, m) ∧
      (Pipeline.Fits w.steps → ∃ report, result = .ok report) ∧
      ∀ report failure context', result = .ok report →
        report.outcome = .failed failure context' → w.Explains context' failure := by
  obtain ⟨ending, log, hending, hexec⟩ := e.execute_eq w context state
  refine ⟨_, _, hexec, fun hfits => ?_, fun report failure context' hreport hfailed => ?_⟩
  · obtain ⟨report, m, hexec'⟩ := e.exists_report hfits context state
    exact ⟨report, (Prod.mk.inj (Option.some.inj (hexec.symm.trans hexec'))).1⟩
  · have houtcome := outcomeOf_of_resultOf hreport
    rw [hfailed] at houtcome
    rcases ending with ((failure | p) | context) | - <;> cases houtcome
    exact explains_of_ending hw hending

/-- The outcome that a report tells can be read off what the steps leave. -/
theorem exists_report_of_outcome (e : Engine σ) (w : Workflow) {context : Json} {state : σ}
    {m : Machine σ} {outcome : Outcome}
    (hm : stepsRun e.adapter (e.budgetFor w) w.steps context state = m)
    (h : (m.ending.bind fun ending =>
      (outcomeOf w (e.budgetFor w) m.world.reached ending).toOption) = some outcome) :
    ∃ report m', e.execute w context state = some (.ok report, m') ∧ report.outcome = outcome := by
  obtain ⟨ending, log, hending, hexec⟩ := e.execute_eq w context state
  rw [hm] at hending hexec
  rw [hending, Option.bind_some, Except.toOption_eq_some] at h
  have hresult : resultOf w (e.budgetFor w) ending m =
      .ok ⟨w.name, m.world.now, outcome, (closeTimeline m.world ending).timeline⟩ := by
    rw [resultOf, h]
    rfl
  dsimp only at hexec
  rw [hresult] at hexec
  exact ⟨_, _, hexec, rfl⟩

/-- A map that looks for a member of its only item, which is no object. -/
theorem look_reports :
    let e : Engine Unit := ⟨⟨fun _ _ => 0, fun _ _ input state => ((.ok input, []), state)⟩, none⟩
    let w : Workflow := .ofSteps "look" [.map ⟨"each", none, .root, none, .replace⟩
      [.pass ⟨"key", none, some (.expression (.path (Path.root.key "key"))), .replace⟩]]
    let failure : StepFailure :=
      ⟨0, "each", .item 0 0 "key" (.ofPath (.typeMismatch (Path.root.key "key") .object .null))⟩
    w.validate = .ok () ∧ ∃ report m, e.execute w (.array [.null]) () = some (.ok report, m) ∧
      report.outcome = .failed failure (.array [.null]) ∧ w.Explains (.array [.null]) failure := by
  intro e w failure
  have hw : w.validate = .ok () := by decide
  -- the root begins the branch, the branch fails, and so does the root
  have hrun : stepsRun e.adapter none w.steps (.array [.null]) () =
      (step e.adapter none)^[3]
        (start () (.array [.null]) (w.steps.activity "" (.array [.null]))) :=
    run_eq_iterate 3 (by decide +kernel +zetaReduce) (by decide +kernel +zetaReduce)
  obtain ⟨report, m, hexec, houtcome⟩ :=
    e.exists_report_of_outcome w hrun (show _ = some (.failed failure (.array [.null])) by
      decide +kernel +zetaReduce)
  obtain ⟨result, m', hexec', -, hexplains⟩ := execute_reports e hw (.array [.null]) ()
  obtain ⟨rfl, rfl⟩ := Prod.mk.inj (Option.some.inj (hexec.symm.trans hexec'))
  exact ⟨hw, report, m, hexec, houtcome, hexplains report _ _ rfl houtcome⟩

/-- A valid workflow whose map writes to the greatest position for its only item: the branch panics,
and the run fails because of it. -/
theorem overstep_aborts :
    let e : Engine Unit := ⟨⟨fun _ _ => 0, fun _ _ input state => ((.ok input, []), state)⟩, none⟩
    let w : Workflow := .ofSteps "overstep" [.map ⟨"each", none, .root, none, .replace⟩
      [.pass ⟨"put", none, some (.literal (.bool true)), .at Path.beyondAll⟩]]
    w.validate = .ok () ∧ ∃ report m failure, e.execute w (.array [.null]) () =
        some (.ok report, m) ∧ report.outcome = .failed failure (.array [.null]) ∧
      failure.error.kind = "BranchAborted" := by
  intro e w
  have hw : w.validate = .ok () := by decide
  have hrun : stepsRun e.adapter none w.steps (.array [.null]) () =
      (step e.adapter none)^[3]
        (start () (.array [.null]) (w.steps.activity "" (.array [.null]))) :=
    run_eq_iterate 3 (by decide +kernel +zetaReduce) (by decide +kernel +zetaReduce)
  obtain ⟨report, m, hexec, houtcome⟩ := e.exists_report_of_outcome w hrun
    (show _ = some (.failed ⟨0, "each", .aborted
        (toldPanic 1 (Json.overflow 18446744073709551615)).message⟩ (.array [.null])) by
      decide +kernel +zetaReduce)
  exact ⟨hw, report, m, _, hexec, houtcome, rfl⟩

end Engine

end Conveyor
