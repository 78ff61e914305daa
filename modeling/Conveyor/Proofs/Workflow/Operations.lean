import Conveyor.Proofs.Workflow.WellFormed
import Mathlib.Data.String.Basic

/-!
# The operations of a workflow

`Workflow.adapters` lists the operations that the tasks of a workflow call, at any depth
(`Workflow.mem_adapters`), in order and each of them once (`Workflow.adapters_sorted`). The check
with a list of known operations looks for the same operations, although it does not look into maps
inside maps (`Workflow.quickProblems_eq_nil`).
-/

namespace Conveyor

/-! ### Sorted lists -/

namespace Workflow

variable {a s : String} {l : List String}

theorem mem_insertSorted : a ∈ insertSorted s l ↔ a = s ∨ a ∈ l := by
  induction l with
  | nil => simp [insertSorted]
  | cons t ts ih =>
    unfold insertSorted
    split
    · rename_i heq
      simp [heq]
    · split
      · simp
      · simp only [List.mem_cons, ih]
        exact or_left_comm

theorem insertSorted_sorted (h : l.Pairwise (· < ·)) :
    (insertSorted s l).Pairwise (· < ·) := by
  induction l with
  | nil => exact List.pairwise_singleton _ _
  | cons t ts ih =>
    obtain ⟨hlt, hts⟩ := List.pairwise_cons.mp h
    unfold insertSorted
    split
    · exact h
    · rename_i hne
      split
      · rename_i hst
        refine List.pairwise_cons.mpr ⟨fun u hu => ?_, h⟩
        rcases List.mem_cons.mp hu with rfl | hu
        · exact hst
        · exact hst.trans (hlt u hu)
      · rename_i hst
        refine List.pairwise_cons.mpr ⟨fun u hu => ?_, ih hts⟩
        rcases mem_insertSorted.mp hu with rfl | hu
        · exact lt_of_le_of_ne (not_lt.mp hst) (Ne.symm hne)
        · exact hlt u hu

end Workflow

/-! ### Tasks at any depth -/

namespace Pipeline

variable {steps : Pipeline} {s x : Step} {a : String}

theorem not_holds_nil : ¬ Holds [] x := by
  rintro (h | ⟨h, _⟩) <;> cases h

theorem holds_cons : Holds (s :: steps) x ↔ Holds [s] x ∨ Holds steps x := by
  constructor
  · rintro (h | ⟨h, hx⟩)
    · rcases List.mem_cons.mp h with rfl | h
      · exact .inl (.here List.mem_cons_self)
      · exact .inr (.here h)
    · rcases List.mem_cons.mp h with rfl | h
      · exact .inl (.inside List.mem_cons_self hx)
      · exact .inr (.inside h hx)
  · rintro ((h | ⟨h, hx⟩) | (h | ⟨h, hx⟩))
    · exact .here (List.mem_cons.mpr (.inl (List.mem_singleton.mp h)))
    · exact .inside (List.mem_cons.mpr (.inl (List.mem_singleton.mp h))) hx
    · exact .here (List.mem_cons_of_mem _ h)
    · exact .inside (List.mem_cons_of_mem _ h) hx

/-- Inside a single step stands the step itself, and what is inside it if it is a map. -/
theorem holds_singleton : Holds [s] x ↔
    x = s ∨ ∃ head iterator, s = .map head iterator ∧ Holds iterator x := by
  constructor
  · rintro (h | ⟨h, hx⟩)
    · exact .inl (List.mem_singleton.mp h)
    · exact .inr ⟨_, _, (List.mem_singleton.mp h).symm, hx⟩
  · rintro (rfl | ⟨head, iterator, rfl, hx⟩)
    · exact .here List.mem_cons_self
    · exact .inside List.mem_cons_self hx

/-- Some task of a pipeline, at any depth, calls an operation. -/
def Uses (steps : Pipeline) (a : String) : Prop :=
  ∃ s, steps.Holds (.task s) ∧ s.adapter = a

theorem not_uses_nil : ¬ Uses [] a :=
  fun ⟨_, h, _⟩ => not_holds_nil h

theorem uses_cons : Uses (s :: steps) a ↔ Uses [s] a ∨ Uses steps a := by
  have hcons (t : TaskStep) : Holds (s :: steps) (.task t) ↔ _ := holds_cons
  simp only [Uses, hcons, or_and_right, exists_or]

theorem not_uses_pass {p : PassStep} : ¬ Uses [.pass p] a := by
  simp [Uses, holds_singleton]

theorem uses_task {t : TaskStep} : Uses [.task t] a ↔ a = t.adapter := by
  simp [Uses, holds_singleton, eq_comm]

theorem uses_map {head : MapHead} {iterator : Pipeline} :
    Uses [.map head iterator] a ↔ Uses iterator a := by
  simp [Uses, holds_singleton]

end Pipeline

/-! ### The list of operations -/

namespace Workflow

variable {a : String} {acc known : List String} {w : Workflow}

mutual

theorem mem_addStepAdapters : ∀ {acc : List String} (s : Step),
    a ∈ addStepAdapters s acc ↔ a ∈ acc ∨ Pipeline.Uses [s] a
  | acc, .pass s => by
    simp [addStepAdapters, Pipeline.not_uses_pass]
  | acc, .task s => by
    rw [addStepAdapters, mem_insertSorted, Pipeline.uses_task, or_comm]
  | acc, .map head iterator => by
    rw [addStepAdapters, mem_addAdapters iterator, Pipeline.uses_map]

theorem mem_addAdapters : ∀ {acc : List String} (steps : List Step),
    a ∈ addAdapters steps acc ↔ a ∈ acc ∨ Pipeline.Uses steps a
  | acc, [] => by
    simp [addAdapters, Pipeline.not_uses_nil]
  | acc, s :: steps => by
    rw [addAdapters, mem_addAdapters steps, mem_addStepAdapters s, or_assoc,
      ← Pipeline.uses_cons]

end

mutual

theorem addStepAdapters_sorted : ∀ {acc : List String} (s : Step), acc.Pairwise (· < ·) →
    (addStepAdapters s acc).Pairwise (· < ·)
  | _, .pass s, h => by
    rwa [addStepAdapters]
  | _, .task s, h => by
    rw [addStepAdapters]
    exact insertSorted_sorted h
  | _, .map head iterator, h => by
    rw [addStepAdapters]
    exact addAdapters_sorted iterator h

theorem addAdapters_sorted : ∀ {acc : List String} (steps : List Step), acc.Pairwise (· < ·) →
    (addAdapters steps acc).Pairwise (· < ·)
  | _, [], h => by
    rwa [addAdapters]
  | _, s :: steps, h => by
    rw [addAdapters]
    exact addAdapters_sorted steps (addStepAdapters_sorted s h)

end

/-- The operations of a workflow are those of its tasks at any depth. -/
theorem mem_adapters : a ∈ w.adapters ↔ Pipeline.Uses w.steps a :=
  (mem_addAdapters w.steps).trans (or_iff_right List.not_mem_nil)

theorem adapters_sorted : w.adapters.Pairwise (· < ·) :=
  addAdapters_sorted w.steps List.Pairwise.nil

/-- The check with a list of known operations accepts what the check without one accepts, if the
list has all operations of the workflow. -/
theorem quickProblems_eq_nil :
    w.quickProblems known = [] ↔ w.problems none = [] ∧ ∀ a ∈ w.adapters, a ∈ known := by
  rw [quickProblems, List.map_eq_nil_iff, problems_eq_nil, problems_none_eq_nil]
  refine and_congr_right fun _ => ?_
  simp only [Calls, Option.all_some, List.contains_iff_mem, mem_adapters, Pipeline.Uses]
  exact ⟨fun h a ⟨s, hs, ha⟩ => ha ▸ h s hs, fun h s hs => h _ ⟨s, hs, rfl⟩⟩

end Workflow

end Conveyor
