import Conveyor.Proofs.Run.Stepwise

/-!
# What a pipeline records when it is completed

An activity yields a list of marks if it can end well and then has recorded them, with its calls
answered in some way and the branches of its forks doing their parts in any order
(`Activity.Yields`). What a pipeline yields has the shape of the pipeline
(`pipelineActivity_yields`): each step is started and completed, in order, and between the start and
the end of a map there are the marks of its branches (`Pipeline.Completed`).
-/

namespace Conveyor

/-! ### Marks -/

/-- An event without its time. -/
abbrev Mark := String × EventKind

/-- The events of a timeline without their times. -/
def Timeline.marks (t : Timeline) : List Mark :=
  t.events.map fun e => (e.id, e.kind)

/-- The mark that a note leaves in the timeline. -/
def Note.marks : Note → List Mark
  | .event id kind => [(id, kind)]
  | _ => []

/-- A list is made of those of a number of items, each of which keeps its order. -/
def Interleaves {α : Type} (count : Nat) (parts : Nat → List α) (l : List α) : Prop :=
  ∃ owned : List (Nat × α), owned.map Prod.snd = l ∧ (∀ e ∈ owned, e.1 < count) ∧
    ∀ item < count, (owned.filter (·.1 = item)).map Prod.snd = parts item

section Interleaves

variable {α : Type} {count item : Nat} {parts : Nat → List α} {l : List α}

theorem interleaves_nil (h : ∀ item < count, parts item = []) : Interleaves count parts [] :=
  ⟨[], rfl, nofun, fun item hitem => (h item hitem).symm⟩

/-- An item may go first. -/
theorem Interleaves.append_left (h : Interleaves count parts l) (hitem : item < count)
    (first : List α) :
    Interleaves count (Function.update parts item (first ++ parts item)) (first ++ l) := by
  obtain ⟨owned, rfl, howners, hparts⟩ := h
  refine ⟨first.map (item, ·) ++ owned, ?_, fun e he => ?_, fun item' hitem' => ?_⟩
  · rw [List.map_append, List.map_map]
    exact congrArg (· ++ _) (List.map_id' first)
  · rcases List.mem_append.mp he with he | he
    · obtain ⟨x, -, rfl⟩ := List.mem_map.mp he
      exact hitem
    · exact howners e he
  · rw [List.filter_append, List.map_append, hparts item' hitem']
    by_cases heq : item' = item
    · subst heq
      have hall : (first.map (item', ·)).filter (·.1 = item') = first.map (item', ·) :=
        List.filter_eq_self.mpr fun e he => by
          obtain ⟨x, -, rfl⟩ := List.mem_map.mp he
          exact decide_eq_true rfl
      rw [hall, List.map_map, Function.update_self]
      exact congrArg (· ++ _) (List.map_id' first)
    · have hnone : (first.map (item, ·)).filter (·.1 = item') = [] :=
        List.filter_eq_nil_iff.mpr fun e he => by
          obtain ⟨x, -, rfl⟩ := List.mem_map.mp he
          exact mt of_decide_eq_true (Ne.symm heq)
      rw [hnone, List.map_nil, List.nil_append, Function.update_of_ne heq]

end Interleaves

/-! ### Shapes of completed pipelines -/

mutual

/-- Between its start and its end, a completed step has recorded these marks: the branches of a
map, in whatever order, each from its own start to its own end. -/
def Step.Completed (id : String) : Step → List Mark → Prop
  | .pass _, marks => marks = []
  | .task _, marks => marks = []
  | .map _ iterator, marks => ∃ count parts, Interleaves count parts marks ∧ ∀ item < count,
      ∃ inner, Pipeline.Completed (branchId id item) iterator inner ∧
        parts item = (branchId id item, .started) :: inner ++ [(branchId id item, .completed)]

/-- A completed pipeline has recorded these marks: those of its steps in order, each from its start
to its end. -/
def Pipeline.Completed (scope : String) : List Step → List Mark → Prop
  | [], marks => marks = []
  | s :: steps, marks => ∃ inner rest, Step.Completed (scopedId scope s.name) s inner ∧
      Pipeline.Completed scope steps rest ∧
      marks = (scopedId scope s.name, .started) :: inner ++
        (scopedId scope s.name, .completed) :: rest

end

/-! ### What activities yield -/

/-- An activity can end well, and then it has recorded these marks. -/
def Activity.Yields : Activity → List Mark → Prop
  | .done result, marks => (∃ context, result = .ok context) ∧ marks = []
  | .note n next, marks => ∃ rest, marks = n.marks ++ rest ∧ next.Yields rest
  | .call _ _ next, marks => ∃ answer, (next answer).Yields marks
  | .pause _ next, marks => next.Yields marks
  | .fork count _ branch next, marks => ∃ inner rest parts outputs, marks = inner ++ rest ∧
      Interleaves count parts inner ∧ (∀ item < count, (branch item).Yields (parts item)) ∧
      (next (.ok outputs)).Yields rest

section Yields

variable {ε α : Type} {marks : List Mark} {id scope : String}

/-- What follows a part of a pipeline cannot end well if the part has failed. -/
def Strict (next : Except ε α → Activity) : Prop :=
  ∀ e marks, ¬ (next (.error e)).Yields marks

/-- A step that ends well has not panicked. -/
theorem Strict.exists_onward {next : Except StepError Json → Activity} (h : Strict next)
    {result : Except (Fault StepError) Json} (hr : (Activity.onward next result).Yields marks) :
    ∃ x, (next (.ok x)).Yields marks := by
  rcases result with (error | p) | context
  · exact absurd hr (h error marks)
  · obtain ⟨⟨context, hresult⟩, -⟩ := hr
    cases hresult
  · exact ⟨context, hr⟩

theorem Strict.finishWith {next : Except StepError Json → Activity} (h : Strict next)
    (finish : α → Except (Fault StepError) Json) : Strict (Activity.finishWith finish next) :=
  fun e marks => h e marks

theorem strict_ended : Strict Activity.ended := by
  rintro e marks ⟨⟨context, hresult⟩, -⟩
  cases hresult

theorem Activity.Yields.of_say {a : Activity} {line : LogLine}
    (h : (Activity.say line a).Yields marks) : a.Yields marks := by
  obtain ⟨rest, rfl, hrest⟩ := h
  exact hrest

theorem Activity.Yields.of_mark {a : Activity} {kind : EventKind}
    (h : (Activity.mark id kind a).Yields marks) :
    ∃ rest, marks = (id, kind) :: rest ∧ a.Yields rest :=
  h

theorem TaskStep.callActivity_yields {s : TaskStep} {next : Except StepError Json → Activity}
    (hnext : Strict next) {input : Json} {retries attempt : Nat}
    (h : (s.callActivity input next retries attempt).Yields marks) :
    ∃ output, (next (.ok output)).Yields marks := by
  induction retries generalizing attempt with
  | zero =>
    unfold callActivity at h
    obtain ⟨error | output, h⟩ := h
    · exact absurd h (hnext _ _)
    · exact ⟨output, h.of_say⟩
  | succ retries ih =>
    unfold callActivity at h
    obtain ⟨error | output, h⟩ := h
    · have hretry : (Activity.pause (s.delayAfter attempt)
          (s.callActivity input next retries (attempt + 1))).Yields marks := h.of_say
      exact ih hretry
    · exact ⟨output, h.of_say⟩

theorem TaskStep.activity_yields {s : TaskStep} {next : Except StepError Json → Activity}
    (hnext : Strict next) {context : Json} (h : (s.activity context next).Yields marks) :
    ∃ x, (next (.ok x)).Yields marks := by
  unfold activity at h
  split at h
  · exact absurd h (hnext _ _)
  · obtain ⟨output, h⟩ := callActivity_yields (hnext.finishWith _) h
    exact hnext.exists_onward h

/-- Before a map goes on, its branches have yielded what they yield. -/
theorem MapHead.activity_yields {s : MapHead} {branch : Nat → Json → Activity}
    {next : Except StepError Json → Activity} (hnext : Strict next) {context : Json}
    (h : (s.activity id branch context next).Yields marks) :
    ∃ count parts inner rest x, marks = inner ++ rest ∧ Interleaves count parts inner ∧
      (∀ item < count, ∃ input, (branch item input).Yields (parts item)) ∧
      (next (.ok x)).Yields rest := by
  unfold activity at h
  split at h
  · exact absurd h (hnext _ _)
  · rename_i items _
    by_cases hcount : items.length = 0
    · rw [fanOut, if_pos hcount] at h
      obtain ⟨x, h⟩ := hnext.exists_onward h.of_say
      exact ⟨0, fun _ => [], [], marks, x, rfl, interleaves_nil fun _ _ => rfl,
        fun item hitem => absurd hitem (Nat.not_lt_zero item), h⟩
    · rw [fanOut_eq hcount] at h
      obtain ⟨inner, rest, parts, outputs, hmarks, hinner, hbranch, h⟩ := h.of_say
      obtain ⟨x, h⟩ := hnext.exists_onward h
      exact ⟨items.length, parts, inner, rest, x, hmarks, hinner,
        fun item hitem => ⟨_, hbranch item hitem⟩, h⟩

mutual

/-- Before a step goes on, it has yielded what a completed step has recorded. -/
theorem Step.activity_yields : ∀ (s : Step) (id : String) {context : Json} {marks : List Mark}
    {next : Except StepError Json → Activity}, Strict next →
    (s.activity id context next).Yields marks →
    ∃ inner rest x, marks = inner ++ rest ∧ s.Completed id inner ∧ (next (.ok x)).Yields rest
  | .pass s, id, _, marks, next, hnext, h => by
    unfold Step.activity at h
    obtain ⟨x, h⟩ := hnext.exists_onward h
    exact ⟨[], marks, x, rfl, rfl, h⟩
  | .task s, id, _, marks, next, hnext, h => by
    unfold Step.activity at h
    obtain ⟨x, h⟩ := TaskStep.activity_yields hnext h
    exact ⟨[], marks, x, rfl, rfl, h⟩
  | .map head iterator, id, _, marks, next, hnext, h => by
    unfold Step.activity at h
    obtain ⟨count, parts, inner, rest, x, hmarks, hinner, hbranch, h⟩ :=
      MapHead.activity_yields hnext h
    refine ⟨inner, rest, x, hmarks, ⟨count, parts, hinner, fun item hitem => ?_⟩, h⟩
    obtain ⟨input, hinput⟩ := hbranch item hitem
    obtain ⟨first, hparts, hfirst⟩ := hinput.of_mark
    obtain ⟨steps, last, context, rfl, hsteps, hlast⟩ :=
      pipelineActivity_yields iterator (branchId id item) 0 (fun failure marks hfails => by
        obtain ⟨rest, -, hrest⟩ := hfails.of_mark
        exact strict_ended _ _ hrest) hfirst
    obtain ⟨rest, rfl, -, rfl⟩ := hlast.of_mark
    exact ⟨steps, hsteps, hparts⟩

/-- Before a pipeline goes on, it has yielded what a completed pipeline has recorded. -/
theorem pipelineActivity_yields : ∀ (steps : List Step) (scope : String) (index : Nat)
    {context : Json} {marks : List Mark} {next : Except StepFailure Json → Activity}, Strict next →
    (pipelineActivity scope index steps context next).Yields marks →
    ∃ inner rest x, marks = inner ++ rest ∧ Pipeline.Completed scope steps inner ∧
      (next (.ok x)).Yields rest
  | [], _, _, context, marks, next, _, h => by
    unfold pipelineActivity at h
    exact ⟨[], marks, context, rfl, rfl, h⟩
  | s :: steps, scope, index, _, marks, next, hnext, h => by
    unfold pipelineActivity at h
    obtain ⟨_, rfl, h⟩ := h
    obtain ⟨first, hmarks, h⟩ := h.of_mark
    obtain ⟨own, later, x, rfl, hown, h⟩ := Step.activity_yields s _ (fun error marks hfails => by
      obtain ⟨rest, -, hrest⟩ := hfails.of_mark
      exact hnext _ _ hrest.of_say) h.of_say
    obtain ⟨others, rfl, hothers⟩ := h.of_mark
    obtain ⟨inner, rest, x, rfl, hinner, hrest⟩ :=
      pipelineActivity_yields steps scope (index + 1) hnext hothers.of_say
    refine ⟨_, rest, x, ?_, ⟨own, inner, hown, hinner, rfl⟩, hrest⟩
    rw [hmarks]
    simp

end

/-- When a step of the pipeline at the top can end well, it has recorded what it records when it is
completed. -/
theorem Step.alone_yields {s : Step} {index : Nat} {context : Json}
    (h : (s.alone index context).Yields marks) : Pipeline.Completed "" [s] marks := by
  obtain ⟨inner, rest, x, rfl, hinner, -, rfl⟩ :=
    pipelineActivity_yields [s] "" index strict_ended h
  rwa [List.append_nil]

end Yields

end Conveyor
