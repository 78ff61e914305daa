import Conveyor.Proofs.Path.Obstacles
import Conveyor.Proofs.Result
import Conveyor.Proofs.Workflow.Operations
import Conveyor.Run.Steps

/-!
# Which steps panic

A step panics only when its result goes to a position that no array can have
(`Step.Panics.oversteps`): no other part of a step can. When all results of a pipeline go to
positions that arrays can have, the pipeline fits, and none of its steps panics.
-/

namespace Conveyor

/-- Every position on the way of a result is one that an array can have. -/
def ResultPath.Fits : ResultPath → Prop
  | .at path => path.Fits
  | _ => True

/-- The results of all steps of a pipeline, at any depth, fit. -/
def Pipeline.Fits (steps : Pipeline) : Prop :=
  ∀ s, steps.Holds s → s.resultPath.Fits

namespace Pipeline

variable {steps : Pipeline} {s : Step}

theorem Fits.step {index : Nat} (h : Fits steps) (hs : steps[index]? = some s) :
    s.resultPath.Fits :=
  h s (.here (List.mem_of_getElem? hs))

theorem fits_cons : Fits (s :: steps) ↔ Fits [s] ∧ Fits steps := by
  have hcons (x : Step) : Holds (s :: steps) x ↔ _ := holds_cons
  simp only [Fits, hcons, or_imp, forall_and]

/-- A single step fits if its result does and what is inside of it, if it is a map. -/
theorem fits_singleton : Fits [s] ↔
    s.resultPath.Fits ∧ ∀ head iterator, s = .map head iterator → Fits iterator := by
  simp only [Fits, holds_singleton]
  constructor
  · refine fun h => ⟨h s (.inl rfl), fun head iterator hs x hx => ?_⟩
    exact h x (.inr ⟨head, iterator, hs, hx⟩)
  · rintro ⟨hs, hinner⟩ x (rfl | ⟨head, iterator, hmap, hx⟩)
    · exact hs
    · exact hinner head iterator hmap x hx

end Pipeline

/-- The panic is about a position on the way of a result that no array can have. -/
def ResultPath.Oversteps (r : ResultPath) (p : Panic) : Prop :=
  ∃ path i, r = .at path ∧ .index i ∈ path.segments ∧ Json.maxItems ≤ i.toNat ∧ p = Json.overflow i

theorem ResultPath.Oversteps.not_fits {r : ResultPath} {p : Panic} (h : r.Oversteps p) :
    ¬ r.Fits := by
  obtain ⟨path, i, rfl, hi, hmax, -⟩ := h
  exact fun hfits => absurd (hfits i hi) (Nat.not_lt.mpr hmax)

theorem ResultPath.oversteps_of_apply {r : ResultPath} {context result : Json} {p : Panic}
    (h : r.apply context result = .error (.panic p)) : r.Oversteps p := by
  cases r with
  | «at» path =>
    obtain ⟨i, hi, hmax, hp⟩ := Path.exists_index_of_write_panic h
    exact ⟨path, i, rfl, hi, hmax, hp⟩
  | _ => cases h

/-- With this panic a step can end in a context. -/
inductive Step.Panics : Step → Json → Panic → Prop
  | pass {s : PassStep} {context : Json} {p : Panic} (h : s.apply context = .error (.panic p)) :
    Panics (.pass s) context p
  | output {s : TaskStep} {context output : Json} {p : Panic}
    (h : s.finish context output = .error (.panic p)) : Panics (.task s) context p
  | outputs {head : MapHead} {iterator : Pipeline} {context : Json} {outputs : List Json}
    {p : Panic} (h : head.finish context outputs = .error (.panic p)) :
    Panics (.map head iterator) context p

/-- A value that is computed and put into the context panics only when it is put there. -/
theorem ResultPath.oversteps_of_bind {r : ResultPath} {context : Json} {p : Panic}
    {x : Except (Fault StepError) Json} (hx : x ≠ .error (.panic p))
    (h : (x >>= fun value => (r.apply context value).mapError (.map .ofPath)) =
      .error (.panic p)) : r.Oversteps p := by
  cases x with
  | error fault => exact absurd h hx
  | ok value =>
    obtain ⟨fault, happly, hfault⟩ := Except.mapError_eq_error.mp h
    exact oversteps_of_apply (Fault.map_eq_panic.mp hfault ▸ happly)

/-- **A step panics only where its result goes to a position that no array can have.** -/
theorem Step.Panics.oversteps {s : Step} {context : Json} {p : Panic} (h : s.Panics context p) :
    s.resultPath.Oversteps p := by
  -- computing a value fails with errors alone
  have hvalue (x : Except EvalError Json) :
      x.mapError (fun e => Fault.error (StepError.value e)) ≠ .error (.panic p) := by
    cases x <;> exact nofun
  cases h with
  | pass h =>
    unfold PassStep.apply at h
    split at h
    · cases h
    · exact ResultPath.oversteps_of_bind (hvalue _) h
  | output h =>
    unfold TaskStep.finish at h
    split at h
    · exact ResultPath.oversteps_of_bind (x := .ok _) nofun h
    · exact ResultPath.oversteps_of_bind (hvalue _) h
  | @outputs head _ context outputs _ h =>
    exact ResultPath.oversteps_of_bind (x := .ok (.array outputs)) nofun h

theorem Step.Panics.not_fits {s : Step} {context : Json} {p : Panic} (h : s.Panics context p) :
    ¬ s.resultPath.Fits :=
  h.oversteps.not_fits

end Conveyor
