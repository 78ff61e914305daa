import Conveyor.Proofs.Run.Assertions

/-!
# Steps and assertions

How the assertions along a pipeline follow from what its steps do. A step has to lead from the
assertion at its position to the one at the next position, and from contexts of a certain form to
contexts of the next form (`Step.Advances`); there is one rule for each kind of step. A pipeline of
such steps upholds the assertions.
-/

namespace Conveyor

section Rules

variable {σ : Type} (adapter : Adapter σ) (A : Nat → σ → Prop) (C : Nat → Json → Prop)

/-- A step at the position `i` keeps the assertion there, and when it ends well it has made the next
one true, with a context of the next form. -/
def Step.Advances (i : Nat) (s : Step) : Prop :=
  ∀ (context : Json) (id : String) (next : Except StepError Json → Activity), C i context →
    (∀ error st, A i st → (next (.error error)).Upholds adapter A i st) →
    (∀ context' st, A i st → A (i + 1) st → C (i + 1) context' →
      (next (.ok context')).Upholds adapter A i st) →
    ∀ st, A i st → (s.activity id context next).Upholds adapter A i st

/-- Each step of a pipeline, of which the first has the position `i`, leads to the next one. -/
def Pipeline.Advances : Nat → List Step → Prop
  | _, [] => True
  | i, s :: steps => s.Advances adapter A C i ∧ Pipeline.Advances (i + 1) steps

end Rules

variable {σ : Type} {adapter : Adapter σ} {A : Nat → σ → Prop} {C : Nat → Json → Prop} {i : Nat}

/-! ### Steps of the pipeline at the top -/

/-- What follows a step upholds the assertions, whether the step fails, panics or ends well. -/
theorem Activity.onward_upholds {next : Except StepError Json → Activity}
    {result : Except (Fault StepError) Json} {st : σ} (hst : A i st)
    (herror : ∀ error, (next (.error error)).Upholds adapter A i st)
    (hok : ∀ c, result = .ok c → (next (.ok c)).Upholds adapter A i st) :
    (Activity.onward next result).Upholds adapter A i st := by
  rcases result with (error | p) | c
  · exact herror error
  · exact hst
  · exact hok c rfl

theorem PassStep.advances {s : PassStep} (hA : ∀ st, A i st → A (i + 1) st)
    (hC : ∀ c c', C i c → s.apply c = .ok c' → C (i + 1) c') :
    (Step.pass s).Advances adapter A C i := by
  intro c id next hc herror hok st hst
  unfold Step.activity
  exact Activity.onward_upholds hst (fun error => herror error st hst)
    fun c' hc' => hok c' st hst (hA st hst) (hC c c' hc hc')

theorem TaskStep.callActivity_upholds {s : TaskStep} {input : Json}
    {next : Except StepError Json → Activity}
    (hcall : ∀ number st, A i st → A i (adapter.answer number s.adapter input st).2)
    (herror : ∀ error st, A i st → (next (.error error)).Upholds adapter A i st)
    (hok : ∀ number st output, A i st →
      (adapter.answer number s.adapter input st).1.1 = .ok output →
      (next (.ok output)).Upholds adapter A i (adapter.answer number s.adapter input st).2)
    (retries attempt : Nat) {st : σ} (hst : A i st) :
    (s.callActivity input next retries attempt).Upholds adapter A i st := by
  induction retries generalizing attempt st with
  | zero =>
    unfold callActivity
    refine ⟨hst, fun number st' hst' => ?_⟩
    cases hanswer : (adapter.answer number s.adapter input st').1.1 with
    | ok output => exact hok number st' output hst' hanswer
    | error error => exact herror _ _ (hcall number st' hst')
  | succ retries ih =>
    unfold callActivity
    refine ⟨hst, fun number st' hst' => ?_⟩
    cases hanswer : (adapter.answer number s.adapter input st').1.1 with
    | ok output => exact hok number st' output hst' hanswer
    | error error => exact ⟨hcall number st' hst', fun _ hst'' => ih (attempt + 1) hst''⟩

theorem TaskStep.advances {s : TaskStep}
    (hcall : ∀ c input number st, C i c → s.input c = .ok input → A i st →
      A i (adapter.answer number s.adapter input st).2 ∧
        ∀ output, (adapter.answer number s.adapter input st).1.1 = .ok output →
          A (i + 1) (adapter.answer number s.adapter input st).2)
    (hC : ∀ c output c', C i c → s.finish c output = .ok c' → C (i + 1) c') :
    (Step.task s).Advances adapter A C i := by
  intro c id next hc herror hok st hst
  unfold Step.activity TaskStep.activity
  cases hinput : s.input c with
  | error error => exact herror error st hst
  | ok input =>
    dsimp only
    refine callActivity_upholds ?_ ?_ ?_ _ _ hst
    · exact fun number st hst => (hcall c input number st hc hinput hst).1
    · exact fun error st hst => herror error st hst
    intro number st output hst hanswer
    obtain ⟨hsame, hnext⟩ := hcall c input number st hc hinput hst
    exact Activity.onward_upholds hsame (fun error => herror error _ hsame)
      fun c' hc' => hok c' _ hsame (hnext output hanswer) (hC c output c' hc hc')

theorem MapHead.advances {head : MapHead} {iterator : Pipeline}
    (hA : ∀ st, A i st → A (i + 1) st)
    (hC : ∀ c outputs c', C i c → head.finish c outputs = .ok c' → C (i + 1) c')
    (hbranch : ∀ c items, C i c → head.items c = .ok items → ∀ item j, i ≤ j →
      ∀ scope next, (∀ r, (next r).Keeps adapter (A j)) →
        (pipelineActivity scope 0 iterator (items.getD item .null) next).Keeps adapter (A j)) :
    (Step.map head iterator).Advances adapter A C i := by
  intro c id next hc herror hok st hst
  -- what follows the items, whether there are any or not
  have hnext : ∀ outputs st, A i st →
      (Activity.finishWith (head.finish c) next (.ok outputs)).Upholds adapter A i st := by
    intro outputs st hst
    exact Activity.onward_upholds hst (fun error => herror error st hst)
      fun c' hc' => hok c' st hst (hA st hst) (hC c outputs c' hc hc')
  unfold Step.activity MapHead.activity
  cases hitems : head.items c with
  | error error => exact herror error st hst
  | ok items =>
    dsimp only
    by_cases hcount : items.length = 0
    · rw [fanOut, if_pos hcount]
      exact hnext [] st hst
    · rw [fanOut_eq hcount]
      refine ⟨hst, fun item j hj => ?_, fun r st hst => ?_⟩
      · refine hbranch c items hc hitems item j hj _ _ fun r => ?_
        cases r <;> trivial
      · cases r with
        | ok outputs => exact hnext outputs st hst
        | error collapse =>
          unfold afterBranches
          dsimp only
          split <;> exact herror _ st hst

/-! ### Branches -/

variable {K : σ → Prop}

theorem TaskStep.activity_keeps {s : TaskStep} {c : Json} {next : Except StepError Json → Activity}
    (hcall : ∀ input number st, s.input c = .ok input → K st →
      K (adapter.answer number s.adapter input st).2)
    (hnext : ∀ r, (next r).Keeps adapter K) (id : String) :
    ((Step.task s).activity id c next).Keeps adapter K := by
  unfold Step.activity TaskStep.activity
  cases hinput : s.input c with
  | error error => exact hnext _
  | ok input =>
    dsimp only
    have hgoes : ∀ r, (Activity.finishWith (s.finish c) next r).Keeps adapter K :=
      Activity.finishWith_of hnext (fun _ => trivial) (s.finish c)
    generalize s.attempts - 1 = retries
    generalize 1 = attempt
    induction retries generalizing attempt with
    | zero =>
      unfold callActivity
      refine ⟨fun number st => hcall input number st hinput, fun r => ?_⟩
      cases r with
      | ok output => exact hgoes _
      | error error => exact hgoes _
    | succ retries ih =>
      unfold callActivity
      refine ⟨fun number st => hcall input number st hinput, fun r => ?_⟩
      cases r with
      | ok output => exact hgoes _
      | error error => exact ih (attempt + 1)

theorem pipelineActivity_keeps_cons {s : Step} {steps : List Step} {c : Json} {scope : String}
    {index : Nat} {next : Except StepFailure Json → Activity}
    (hs : ∀ next', (∀ r, (next' r).Keeps adapter K) →
      (s.activity (scopedId scope s.name) c next').Keeps adapter K)
    (hsteps : ∀ c', (pipelineActivity scope (index + 1) steps c' next).Keeps adapter K)
    (hnext : ∀ r, (next r).Keeps adapter K) :
    (pipelineActivity scope index (s :: steps) c next).Keeps adapter K := by
  simp only [pipelineActivity]
  refine hs _ fun r => ?_
  cases r with
  | ok c' => exact hsteps c'
  | error error => exact hnext _

/-! ### Pipelines -/

theorem pipelineActivity_upholds {steps : List Step} {c : Json}
    (hsteps : Pipeline.Advances adapter A C i steps) (hc : C i c) {j : Nat} (hj : j ≤ i) {st : σ}
    (hst : A j st) (hst' : A i st) :
    (pipelineActivity "" i steps c .ended).Upholds adapter A j st := by
  induction steps generalizing i j c st with
  | nil =>
    simp only [pipelineActivity]
    exact hst
  | cons s steps ih =>
    simp only [pipelineActivity]
    refine ⟨hst, hj, hsteps.1 c _ _ hc ?_ ?_ st hst'⟩
    · exact fun error st hst => hst
    · exact fun c' st hst hnext hc' => ih hsteps.2 hc' (Nat.le_succ i) hst hnext

/-- When each step of a pipeline leads from one assertion to the next, a run of the pipeline meets
them all along. -/
theorem Machine.guarded_start {steps : Pipeline} {c : Json} {st : σ}
    (hsteps : Pipeline.Advances adapter A C 0 steps) (hc : C 0 c) (hst : A 0 st) :
    Machine.Guarded adapter A (Machine.start st c (steps.activity "" c)) := by
  have hupholds : ∀ st, A 0 st → (steps.activity "" c).Upholds adapter A 0 st :=
    fun st hst => pipelineActivity_upholds hsteps hc le_rfl hst hst
  exact Machine.Guarded.beginning (w := .initial st c) (hupholds st hst) hupholds

end Conveyor
