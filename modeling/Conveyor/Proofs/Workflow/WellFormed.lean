import Conveyor.Proofs.Result
import Conveyor.Workflow.Definition

/-!
# What the check of a workflow accepts

`Workflow.WellFormed` says in one place what a workflow has to be like, for steps at every depth.
The check goes through the steps one by one, does not look at the fields of a step without a name,
nor into maps inside maps, and compares a name only with those of the steps before it. None of this
hides anything: there are no problems exactly if the workflow is well-formed and the list of known
operations, if there is one, has what its tasks call (`Workflow.problems_eq_nil`).
-/

namespace Conveyor

/-! ### Well-formed workflows -/

/-- A step stands in a pipeline, or at some depth inside one of its maps. -/
inductive Pipeline.Holds : Pipeline → Step → Prop
  | here {steps : Pipeline} {s : Step} (h : s ∈ steps) : Holds steps s
  | inside {steps iterator : Pipeline} {head : MapHead} {s : Step}
      (h : .map head iterator ∈ steps) (hs : Holds iterator s) : Holds steps s

/-- What is asked of every pipeline, at the top or inside a map. -/
structure Pipeline.Orderly (steps : Pipeline) : Prop where
  ne_nil : steps ≠ []
  names_not_blank : ∀ s ∈ steps, ¬ Text.allBlank s.name
  names_nodup : (steps.map Step.name).Nodup
  adapters_not_blank : ∀ s, .task s ∈ steps → ¬ Text.allBlank s.adapter
  concurrency_ne_zero : ∀ head iterator, .map head iterator ∈ steps → head.maxConcurrency ≠ some 0

/-- What is asked of a workflow. -/
structure Workflow.WellFormed (w : Workflow) : Prop where
  name_not_blank : ¬ Text.allBlank w.name
  timeout_ne_zero : w.timeoutSecs ≠ some 0
  steps : w.steps.Orderly
  iterators : ∀ head iterator, w.steps.Holds (.map head iterator) → Pipeline.Orderly iterator
  flat : ∀ head iterator, w.steps.Holds (.map head iterator) →
    ∀ head' iterator', .map head' iterator' ∉ iterator

/-! ### The fields of a step -/

/-- The fields of a step besides its name are right. -/
def Step.FieldsRight (known : Option (List String)) : Step → Prop
  | .pass _ => True
  | .task s => ¬ Text.allBlank s.adapter ∧ known.all (·.contains s.adapter)
  | .map head _ => head.maxConcurrency ≠ some 0

variable {known : Option (List String)} {parent : String} {seen : List String}

theorem Step.fieldProblems_eq_nil {s : Step} :
    s.fieldProblems known = [] ↔ ¬ Text.allBlank s.name ∧ s.FieldsRight known := by
  unfold fieldProblems
  split
  · simp [*]
  · cases s with
    | pass s => simp_all [FieldsRight]
    | map head iterator => simp_all [FieldsRight]
    | task s =>
      dsimp only
      split
      · simp_all [FieldsRight]
      · split <;> simp_all [FieldsRight]

/-- Among steps with names, the names that come twice are found. -/
theorem Step.nameProblems_eq_nil {s : Step} (hname : ¬ Text.allBlank s.name) :
    s.nameProblems seen = [] ↔ s.name ∉ seen := by
  simp [nameProblems, hname]

/-! ### Pipelines -/

namespace Pipeline

/-- The problems of the steps of a pipeline, with `body` for those of what is inside a step. -/
def problemsWith (known : Option (List String)) (body : Step → List Problem) (seen : List String) :
    List Step → List Problem
  | [] => []
  | s :: steps =>
    s.fieldProblems known ++ s.nameProblems seen ++ body s
      ++ problemsWith known body (s.name :: seen) steps

/-- No step is skipped, and the names are compared with those of all other steps. -/
theorem problemsWith_eq_nil {body : Step → List Problem} {steps : List Step} :
    problemsWith known body seen steps = [] ↔
      (∀ s ∈ steps, ¬ Text.allBlank s.name ∧ s.FieldsRight known ∧ body s = []) ∧
        (steps.map Step.name).Nodup ∧ ∀ s ∈ steps, s.name ∉ seen := by
  induction steps generalizing seen with
  | nil => simp [problemsWith]
  | cons s steps ih =>
    simp only [problemsWith, List.append_eq_nil_iff, Step.fieldProblems_eq_nil, ih,
      List.forall_mem_cons, List.map_cons, List.nodup_cons]
    constructor
    · rintro ⟨⟨⟨⟨hname, hfields⟩, hseen⟩, hbody⟩, hsteps, hnodup, hnotMem⟩
      refine ⟨⟨⟨hname, hfields, hbody⟩, hsteps⟩, ⟨fun hmem => ?_, hnodup⟩,
        (Step.nameProblems_eq_nil hname).mp hseen,
        fun s' hs' hmem => hnotMem s' hs' (List.mem_cons_of_mem _ hmem)⟩
      obtain ⟨s', hs', heq⟩ := List.mem_map.mp hmem
      exact hnotMem s' hs' (heq ▸ List.mem_cons_self)
    · rintro ⟨⟨⟨hname, hfields, hbody⟩, hsteps⟩, ⟨hne, hnodup⟩, hseen, hnotMem⟩
      refine ⟨⟨⟨⟨hname, hfields⟩, (Step.nameProblems_eq_nil hname).mpr hseen⟩, hbody⟩, hsteps,
        hnodup, fun s' hs' hmem => ?_⟩
      rcases List.mem_cons.mp hmem with heq | hmem
      · exact hne (heq ▸ List.mem_map_of_mem hs')
      · exact hnotMem s' hs' hmem

/-- The problem of a map inside another one. -/
def nestingProblems (parent : String) : Step → List Problem
  | .map head _ => [.nestedMap head.name parent]
  | _ => []

/-- The problems of what is inside a step at the top. -/
def bodyProblems (known : Option (List String)) : Step → List Problem
  | .map head iterator => iteratorProblems known head.name iterator
  | _ => []

theorem innerProblems_eq (steps : List Step) :
    innerProblems known parent seen steps =
      problemsWith known (nestingProblems parent) seen steps := by
  induction steps generalizing seen with
  | nil => rfl
  | cons s steps ih =>
    cases s <;> simp only [innerProblems, problemsWith, nestingProblems, ih]

theorem stepProblems_eq (steps : List Step) :
    stepProblems known seen steps = problemsWith known (bodyProblems known) seen steps := by
  induction steps generalizing seen with
  | nil => rfl
  | cons s steps ih =>
    cases s <;> simp only [stepProblems, problemsWith, bodyProblems, ih]

/-- What is asked of a pipeline, step by step. -/
theorem orderly_iff {steps : Pipeline} :
    steps.Orderly ↔ steps ≠ [] ∧ (∀ s ∈ steps, ¬ Text.allBlank s.name ∧ s.FieldsRight none) ∧
      (steps.map Step.name).Nodup := by
  constructor
  · intro h
    refine ⟨h.ne_nil, fun s hs => ⟨h.names_not_blank s hs, ?_⟩, h.names_nodup⟩
    cases s with
    | pass s => trivial
    | task s => exact ⟨h.adapters_not_blank s hs, rfl⟩
    | map head iterator => exact h.concurrency_ne_zero head iterator hs
  · rintro ⟨hne, hsteps, hnodup⟩
    exact ⟨hne, fun s hs => (hsteps s hs).1, hnodup, fun s hs => (hsteps _ hs).2.1,
      fun head iterator hs => (hsteps _ hs).2⟩

/-- The tasks among some steps call operations that are known, if there is a list of these. -/
def Calls (known : Option (List String)) (steps : Pipeline) : Prop :=
  ∀ s, .task s ∈ steps → known.all (·.contains s.adapter)

/-- The list of known operations counts for the tasks only. -/
theorem forall_fieldsRight {steps : List Step} :
    (∀ s ∈ steps, s.FieldsRight known) ↔ (∀ s ∈ steps, s.FieldsRight none) ∧ Calls known steps := by
  constructor
  · intro h
    refine ⟨fun s hs => ?_, fun s hs => (h _ hs).2⟩
    have := h s hs
    cases s with
    | task s => exact ⟨this.1, rfl⟩
    | _ => exact this
  · rintro ⟨h, hcalls⟩ s hs
    have := h s hs
    cases s with
    | task s => exact ⟨this.1, hcalls s hs⟩
    | _ => exact this

theorem problemsWith_eq_nil_iff_orderly {body : Step → List Problem} {steps : Pipeline}
    (hne : steps ≠ []) :
    problemsWith known body [] steps = [] ↔
      steps.Orderly ∧ Calls known steps ∧ ∀ s ∈ steps, body s = [] := by
  have hfields : (∀ s ∈ steps, s.FieldsRight known) ↔ _ := forall_fieldsRight
  simp only [problemsWith_eq_nil, orderly_iff, forall_and, hfields, List.not_mem_nil,
    not_false_eq_true, implies_true, and_true]
  constructor
  · rintro ⟨⟨hnames, ⟨hfields, hcalls⟩, hbodies⟩, hnodup⟩
    exact ⟨⟨hne, ⟨hnames, hfields⟩, hnodup⟩, hcalls, hbodies⟩
  · rintro ⟨⟨-, ⟨hnames, hfields⟩, hnodup⟩, hcalls, hbodies⟩
    exact ⟨⟨hnames, ⟨hfields, hcalls⟩, hbodies⟩, hnodup⟩

theorem nestingProblems_eq_nil {s : Step} :
    nestingProblems parent s = [] ↔ ∀ head iterator, s ≠ .map head iterator := by
  cases s <;> simp [nestingProblems]

/-- A pipeline inside a map has to be orderly and without maps. -/
theorem iteratorProblems_eq_nil {steps : Pipeline} :
    iteratorProblems known parent steps = [] ↔
      steps.Orderly ∧ Calls known steps ∧ ∀ head iterator, .map head iterator ∉ steps := by
  by_cases hne : steps = []
  · subst hne
    exact ⟨nofun, fun h => absurd rfl h.1.ne_nil⟩
  · rw [iteratorProblems, if_neg (by simpa using hne), innerProblems_eq,
      problemsWith_eq_nil_iff_orderly hne]
    simp only [nestingProblems_eq_nil]
    refine and_congr_right fun _ => and_congr_right fun _ => ?_
    exact ⟨fun h head iterator hs => h _ hs head iterator rfl,
      fun h s hs head iterator heq => h head iterator (heq ▸ hs)⟩

theorem bodyProblems_eq_nil {s : Step} :
    bodyProblems known s = [] ↔ ∀ head iterator, s = .map head iterator →
      Orderly iterator ∧ Calls known iterator ∧
        ∀ head' iterator', .map head' iterator' ∉ iterator := by
  cases s with
  | map head iterator => simp [bodyProblems, iteratorProblems_eq_nil]
  | _ => simp [bodyProblems]

/-! ### Steps at any depth -/

/-- In a pipeline whose maps hold no maps, a step stands at the top or right inside a map. -/
theorem holds_iff_of_flat {steps : Pipeline} {s : Step}
    (hflat : ∀ head iterator, .map head iterator ∈ steps →
      ∀ head' iterator', .map head' iterator' ∉ iterator) :
    steps.Holds s ↔ s ∈ steps ∨ ∃ head iterator, .map head iterator ∈ steps ∧ s ∈ iterator := by
  constructor
  · intro h
    cases h with
    | here h => exact .inl h
    | inside h hs =>
      cases hs with
      | here hs => exact .inr ⟨_, _, h, hs⟩
      | inside hs _ => exact absurd hs (hflat _ _ h _ _)
  · rintro (h | ⟨head, iterator, h, hs⟩)
    · exact .here h
    · exact .inside h (.here hs)

theorem holds_map_iff_of_flat {steps : Pipeline} {head : MapHead} {iterator : Pipeline}
    (hflat : ∀ head iterator, .map head iterator ∈ steps →
      ∀ head' iterator', .map head' iterator' ∉ iterator) :
    steps.Holds (.map head iterator) ↔ .map head iterator ∈ steps := by
  rw [holds_iff_of_flat hflat]
  exact or_iff_left fun ⟨_, _, h, hs⟩ => hflat _ _ h _ _ hs

end Pipeline

/-! ### Workflows -/

namespace Workflow

variable {w : Workflow}

/-- The tasks of a workflow at any depth call known operations, if there is a list of these. -/
def Calls (known : Option (List String)) (w : Workflow) : Prop :=
  ∀ s, w.steps.Holds (.task s) → known.all (·.contains s.adapter)

theorem wellFormed_and_calls_iff :
    w.WellFormed ∧ w.Calls known ↔
      ¬ Text.allBlank w.name ∧ w.timeoutSecs ≠ some 0 ∧ w.steps.Orderly ∧
        Pipeline.Calls known w.steps ∧ ∀ s ∈ w.steps, Pipeline.bodyProblems known s = [] := by
  constructor
  · rintro ⟨hw, hcalls⟩
    refine ⟨hw.name_not_blank, hw.timeout_ne_zero, hw.steps, fun s hs => hcalls s (.here hs),
      fun s hs => Pipeline.bodyProblems_eq_nil.mpr ?_⟩
    rintro head iterator rfl
    exact ⟨hw.iterators head iterator (.here hs), fun s' hs' => hcalls s' (.inside hs (.here hs')),
      hw.flat head iterator (.here hs)⟩
  · rintro ⟨hname, htimeout, hsteps, hcalls, hbodies⟩
    have hmaps (head iterator) (h : .map head iterator ∈ w.steps) :=
      Pipeline.bodyProblems_eq_nil.mp (hbodies _ h) head iterator rfl
    have hflat (head iterator) (h : .map head iterator ∈ w.steps) := (hmaps head iterator h).2.2
    refine ⟨⟨hname, htimeout, hsteps, fun head iterator h => ?_, fun head iterator h => ?_⟩,
      fun s h => ?_⟩
    · exact (hmaps head iterator ((Pipeline.holds_map_iff_of_flat hflat).mp h)).1
    · exact hflat head iterator ((Pipeline.holds_map_iff_of_flat hflat).mp h)
    · rcases (Pipeline.holds_iff_of_flat hflat).mp h with h | ⟨head, iterator, h, hs⟩
      · exact hcalls s h
      · exact (hmaps head iterator h).2.1 s hs

/-- A workflow has no problems exactly if it is well-formed and calls known operations. -/
theorem problems_eq_nil : w.problems known = [] ↔ w.WellFormed ∧ w.Calls known := by
  rw [wellFormed_and_calls_iff]
  unfold problems
  by_cases hne : w.steps = []
  · simp only [hne, List.isEmpty_nil, if_true, List.append_eq_nil_iff, List.cons_ne_nil, and_false,
      false_iff]
    exact fun h => h.2.2.1.ne_nil rfl
  · have hempty : w.steps.isEmpty = false := by simpa using hne
    simp only [hempty, Bool.false_eq_true, if_false, List.append_eq_nil_iff,
      Pipeline.stepProblems_eq, Pipeline.problemsWith_eq_nil_iff_orderly hne]
    simp only [ite_eq_right_iff, List.cons_ne_nil, imp_false, and_assoc, ne_eq]

theorem problems_none_eq_nil : w.problems none = [] ↔ w.WellFormed :=
  problems_eq_nil.trans (and_iff_left fun _ _ => rfl)

theorem validate_eq_ok : w.validate = .ok () ↔ w.WellFormed := by
  rw [← problems_none_eq_nil, validate]
  split
  · rename_i hnil
    simp [hnil]
  · rename_i hne
    exact ⟨nofun, fun hnil => absurd hnil hne⟩

end Workflow

/-- A definition is parsed to the workflow that it describes, if the check accepts that. -/
theorem Definition.parse_eq_ok {text : String} {w : Workflow} :
    (parse text).2 = .ok w ↔ Workflow.ofDocument (.ofText text) = .ok w ∧ w.validate = .ok () := by
  unfold parse
  dsimp only
  cases Workflow.ofDocument (.ofText text) with
  | error e => simp
  | ok w' =>
    dsimp only
    rw [Except.map_eq_ok]
    simp only [Except.mapError_eq_ok, Except.ok.injEq]
    constructor
    · rintro ⟨_, hvalid, rfl⟩
      exact ⟨rfl, hvalid⟩
    · rintro ⟨rfl, hvalid⟩
      exact ⟨(), hvalid, rfl⟩

/-- **The check accepts exactly the well-formed workflows.** Of the workflows that can be read from
texts, these are the ones that a definition is parsed to. -/
theorem Workflow.accepted_iff_wellFormed (w : Workflow) :
    (w.problems none = [] ↔ w.WellFormed) ∧ (w.validate = .ok () ↔ w.WellFormed) ∧
      ∀ text, (Definition.parse text).2 = .ok w ↔
        Workflow.ofDocument (.ofText text) = .ok w ∧ w.WellFormed :=
  ⟨problems_none_eq_nil, validate_eq_ok, fun _ =>
    Definition.parse_eq_ok.trans (and_congr_right fun _ => validate_eq_ok)⟩

end Conveyor
