import Conveyor.Workflow.Step

/-!
# Parts of steps

The payloads, the result path and the path to the items are the parts of a step that are written as
texts or documents of their own. `Step.Each` says something of all of them, at any depth.
-/

namespace Conveyor

/-- Something that is said of the parts of steps. -/
structure PartSpec where
  payload : Payload → Prop
  resultPath : ResultPath → Prop
  itemsPath : Path → Prop

mutual

/-- Something is true of all parts of a step. -/
def Step.Each (S : PartSpec) : Step → Prop
  | .pass s => (∀ p ∈ s.parameters, S.payload p) ∧ S.resultPath s.resultPath
  | .task s => (∀ p ∈ s.parameters, S.payload p) ∧ (∀ p ∈ s.resultSelector, S.payload p) ∧
      S.resultPath s.resultPath
  | .map s iterator => S.itemsPath s.itemsPath ∧ S.resultPath s.resultPath ∧ eachStep S iterator

/-- Something is true of all parts of the steps of a pipeline. -/
def eachStep (S : PartSpec) : List Step → Prop
  | [] => True
  | s :: steps => s.Each S ∧ eachStep S steps

end

/-- What is said of a part follows from two other things that are said of it. -/
structure PartSpec.Entailed (S T U : PartSpec) : Prop where
  payload : ∀ p, S.payload p → T.payload p → U.payload p
  resultPath : ∀ r, S.resultPath r → T.resultPath r → U.resultPath r
  itemsPath : ∀ p, S.itemsPath p → T.itemsPath p → U.itemsPath p

variable {S T U : PartSpec}

mutual

theorem Step.Each.mono (h : S.Entailed T U) : ∀ {s : Step}, s.Each S → s.Each T → s.Each U
  | .pass _, ⟨hp, hr⟩, ⟨hp', hr'⟩ =>
    ⟨fun p hm => h.payload p (hp p hm) (hp' p hm), h.resultPath _ hr hr'⟩
  | .task _, ⟨hp, hs, hr⟩, ⟨hp', hs', hr'⟩ =>
    ⟨fun p hm => h.payload p (hp p hm) (hp' p hm), fun p hm => h.payload p (hs p hm) (hs' p hm),
      h.resultPath _ hr hr'⟩
  | .map _ _, ⟨hi, hr, hsteps⟩, ⟨hi', hr', hsteps'⟩ =>
    ⟨h.itemsPath _ hi hi', h.resultPath _ hr hr', eachStep_mono h hsteps hsteps'⟩

theorem eachStep_mono (h : S.Entailed T U) :
    ∀ {steps : List Step}, eachStep S steps → eachStep T steps → eachStep U steps
  | [], _, _ => trivial
  | _ :: _, ⟨hs, hsteps⟩, ⟨hs', hsteps'⟩ =>
    ⟨Step.Each.mono h hs hs', eachStep_mono h hsteps hsteps'⟩

end

theorem eachStep_of_forall_mem {steps : List Step} (h : ∀ s ∈ steps, s.Each S) :
    eachStep S steps := by
  induction steps with
  | nil => trivial
  | cons s steps ih =>
    obtain ⟨hs, hsteps⟩ := List.forall_mem_cons.mp h
    exact ⟨hs, ih hsteps⟩

end Conveyor
