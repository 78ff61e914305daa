import Conveyor.Proofs.Run.Termination
import Conveyor.Run.Steps

/-!
# What pipelines do

What a pipeline does is lawful, whatever condition its maps give for their forks. So every machine
that runs a pipeline is proper, and its run ends.
-/

namespace Conveyor

/-! ### Maps of a pipeline -/

mutual

/-- Every map of a step, at any level, satisfies `Q`. -/
def Step.Maps (Q : MapHead → Pipeline → Prop) : Step → Prop
  | .pass _ => True
  | .task _ => True
  | .map head iterator => Q head iterator ∧ Pipeline.Maps Q iterator

/-- Every map of a pipeline, at any level, satisfies `Q`. -/
def Pipeline.Maps (Q : MapHead → Pipeline → Prop) : List Step → Prop
  | [] => True
  | s :: steps => s.Maps Q ∧ Pipeline.Maps Q steps

end

/-- There is no map in a pipeline. -/
abbrev Pipeline.MapFree (steps : Pipeline) : Prop :=
  Pipeline.Maps (fun _ _ => False) steps

section

variable {Q : MapHead → Pipeline → Prop}

mutual

theorem Step.Maps.mono {Q' : MapHead → Pipeline → Prop} (h : ∀ head iterator, Q head iterator →
    Q' head iterator) : ∀ s : Step, s.Maps Q → s.Maps Q'
  | .pass _, _ => trivial
  | .task _, _ => trivial
  | .map head iterator, hs => ⟨h head iterator hs.1, Pipeline.Maps.mono h iterator hs.2⟩

theorem Pipeline.Maps.mono {Q' : MapHead → Pipeline → Prop} (h : ∀ head iterator,
    Q head iterator → Q' head iterator) : ∀ steps : List Step,
    Pipeline.Maps Q steps → Pipeline.Maps Q' steps
  | [], _ => trivial
  | s :: steps, hs => ⟨Step.Maps.mono h s hs.1, Pipeline.Maps.mono h steps hs.2⟩

end

mutual

theorem Step.maps_true : ∀ s : Step, s.Maps fun _ _ => True
  | .pass _ => trivial
  | .task _ => trivial
  | .map _ iterator => ⟨trivial, Pipeline.maps_true iterator⟩

theorem Pipeline.maps_true : ∀ steps : List Step,
    Pipeline.Maps (fun _ _ => True) steps
  | [] => trivial
  | s :: steps => ⟨s.maps_true, Pipeline.maps_true steps⟩

end

end

/-! ### What follows a step -/

section Onward

variable {α : Type} {Q : Activity → Prop} {next : Except StepError Json → Activity}

/-- What holds of what follows a step, and when the step panics, holds when it has returned. -/
theorem Activity.onward_of (goes : ∀ r, Q (next r)) (panics : ∀ p, Q (.done (.error (.panic p))))
    (result : Except (Fault StepError) Json) : Q (.onward next result) := by
  unfold onward
  split
  · exact goes _
  · exact goes _
  · exact panics _

theorem Activity.finishWith_of (goes : ∀ r, Q (next r))
    (panics : ∀ p, Q (.done (.error (.panic p)))) (finish : α → Except (Fault StepError) Json)
    (r : Except StepError α) : Q (.finishWith finish next r) := by
  cases r with
  | ok value => exact onward_of goes panics _
  | error error => exact goes _

/-- What holds of what follows a map, and does when a line is written to the log first, holds of
what follows its branches. -/
theorem MapHead.afterBranches_of {id : String} {next : Except StepError (List Json) → Activity}
    (goes : ∀ r, Q (next r)) (say : ∀ line a, Q a → Q (.say line a))
    (r : Except Collapse (List Json)) : Q (afterBranches id next r) := by
  unfold afterBranches
  split
  · exact goes _
  · split
    · exact say _ _ (goes _)
    · exact goes _

end Onward

/-! ### Lawfulness -/

section Lawful

variable {P : Nat → Nat → (Nat → Activity) → Prop} {ε α : Type}

/-- What follows a part of a pipeline: it goes on lawfully if the part succeeds, and does nothing
but fail if the part fails. -/
structure Continues (P : Nat → Nat → (Nat → Activity) → Prop) (next : Except ε α → Activity) :
    Prop where
  ok : ∀ x, (next (.ok x)).Lawful P
  error : ∀ e, (next (.error e)).Abrupt

theorem Continues.lawful {next : Except ε α → Activity} (h : Continues P next) (r : Except ε α) :
    (next r).Lawful P := by
  cases r with
  | ok x => exact h.ok x
  | error e => exact (h.error e).lawful

theorem Continues.onward {next : Except StepError Json → Activity} (h : Continues P next)
    (result : Except (Fault StepError) Json) : (Activity.onward next result).Lawful P :=
  Activity.onward_of h.lawful (fun _ => trivial) result

theorem Continues.finishWith {next : Except StepError Json → Activity} (h : Continues P next)
    (finish : α → Except (Fault StepError) Json) : Continues P (.finishWith finish next) :=
  ⟨fun x => h.onward (finish x), fun e => h.error e⟩

theorem continues_ended : Continues P .ended :=
  ⟨fun _ => trivial, fun _ => trivial⟩

namespace TaskStep

variable {s : TaskStep} {next : Except StepError Json → Activity}

theorem callActivity_lawful (h : Continues P next) (input : Json) (retries attempt : Nat) :
    (s.callActivity input next retries attempt).Lawful P := by
  induction retries generalizing attempt with
  | zero =>
    unfold callActivity
    rintro (error | output)
    · exact (h.error _).lawful
    · exact h.ok output
  | succ retries ih =>
    unfold callActivity
    rintro (error | output)
    · exact ih (attempt + 1)
    · exact h.ok output

theorem activity_lawful (h : Continues P next) (context : Json) :
    (s.activity context next).Lawful P := by
  unfold activity
  split
  · exact (h.error _).lawful
  · exact callActivity_lawful (h.finishWith _) _ _ _

end TaskStep

namespace MapHead

variable {s : MapHead} {id : String} {branch : Nat → Json → Activity}

theorem limit_pos (count : Nat) : 0 < s.limit count := by
  unfold limit
  split <;> exact Nat.lt_of_lt_of_le Nat.one_pos (Nat.le_max_left _ _)

theorem fanOut_eq {items : List Json} (h : items.length ≠ 0)
    {next : Except StepError (List Json) → Activity} :
    s.fanOut id branch items next = .say (startLine id items.length (s.limit items.length))
      (.fork items.length (s.limit items.length) (fun item => branch item (items.getD item .null))
        (afterBranches id next)) := by
  unfold fanOut
  exact if_neg h

/-- What follows the branches of a map that fails does nothing but fail. -/
theorem afterBranches_abrupt {next : Except StepError (List Json) → Activity}
    (h : ∀ error, (next (.error error)).Abrupt) (c : Collapse) :
    (afterBranches id next (.error c)).Abrupt := by
  unfold afterBranches
  dsimp only
  split <;> exact h _

theorem fanOut_lawful {next : Except StepError (List Json) → Activity} (h : Continues P next)
    (hbranch : ∀ item x, (branch item x).Lawful P) (items : List Json)
    (hP : items ≠ [] →
      P items.length (s.limit items.length) fun item => branch item (items.getD item .null)) :
    (s.fanOut id branch items next).Lawful P := by
  by_cases hcount : items.length = 0
  · rw [fanOut, if_pos hcount]
    exact h.ok []
  · rw [fanOut_eq hcount]
    exact ⟨⟨Nat.pos_of_ne_zero hcount, s.limit_pos _, hP fun hnil => hcount (by simp [hnil])⟩,
      fun item => hbranch item _, fun outputs => h.ok outputs, afterBranches_abrupt h.error⟩

theorem activity_lawful {next : Except StepError Json → Activity} (h : Continues P next)
    (hbranch : ∀ item x, (branch item x).Lawful P) (context : Json)
    (hP : ∀ items : List Json, items ≠ [] →
      P items.length (s.limit items.length) fun item => branch item (items.getD item .null)) :
    (s.activity id branch context next).Lawful P := by
  unfold activity
  split
  · exact (h.error _).lawful
  · exact fanOut_lawful (h.finishWith _) hbranch _ (hP _)

end MapHead

/-- What the branches of a map do. -/
abbrev Pipeline.branch (iterator : Pipeline) (id : String) : Nat → Json → Activity :=
  branchActivity id fun scope context next => pipelineActivity scope 0 iterator context next

/-- The forks of maps that satisfy `Q` satisfy `P`. -/
def Gives (Q : MapHead → Pipeline → Prop) (P : Nat → Nat → (Nat → Activity) → Prop) : Prop :=
  ∀ head iterator, Q head iterator → Pipeline.Maps Q iterator → ∀ id (items : List Json),
    items ≠ [] → P items.length (head.limit items.length) fun item =>
      iterator.branch id item (items.getD item .null)

variable {Q : MapHead → Pipeline → Prop}

mutual

theorem Step.activity_lawful (hP : Gives Q P) : ∀ (s : Step), s.Maps Q →
    ∀ (id : String) (context : Json) {next : Except StepError Json → Activity}, Continues P next →
    (s.activity id context next).Lawful P
  | .pass s, _, _, context, _, h => by
    unfold Step.activity
    exact h.onward _
  | .task s, _, _, context, _, h => by
    unfold Step.activity
    exact TaskStep.activity_lawful h context
  | .map head iterator, hs, id, context, _, h => by
    unfold Step.activity
    refine MapHead.activity_lawful h (fun item x => ?_) context
      (hP head iterator hs.1 hs.2 id)
    exact pipelineActivity_lawful hP iterator hs.2 _ 0 x ⟨fun _ => trivial, fun _ => trivial⟩

/-- What a pipeline does is lawful if its maps give the condition for their forks. -/
theorem pipelineActivity_lawful (hP : Gives Q P) : ∀ (steps : List Step),
    Pipeline.Maps Q steps → ∀ (scope : String) (index : Nat) (context : Json)
    {next : Except StepFailure Json → Activity}, Continues P next →
    (pipelineActivity scope index steps context next).Lawful P
  | [], _, _, _, context, _, h => by
    unfold pipelineActivity
    exact h.ok context
  | s :: steps, hs, scope, index, context, _, h => by
    unfold pipelineActivity
    refine Step.activity_lawful hP s hs.1 _ context ⟨fun context => ?_, fun error => ?_⟩
    · exact pipelineActivity_lawful hP steps hs.2 scope (index + 1) context h
    · exact h.error _

end

end Lawful

/-- Nothing is asked of the forks of an activity. -/
abbrev anyFork : Nat → Nat → (Nat → Activity) → Prop := fun _ _ _ => True

theorem Pipeline.activity_lawful (steps : Pipeline) (scope : String) (context : Json) :
    (steps.activity scope context).Lawful anyFork :=
  pipelineActivity_lawful (Q := fun _ _ => True) (fun _ _ _ _ _ _ _ => trivial) steps
    (Pipeline.maps_true steps) scope 0 context continues_ended

end Conveyor
