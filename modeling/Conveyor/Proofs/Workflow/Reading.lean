import Conveyor.Proofs.Content.Payloads
import Conveyor.Proofs.Content.Records
import Conveyor.Proofs.Result
import Conveyor.Proofs.Workflow.Parts
import Conveyor.Workflow.Reading

/-!
# Workflows that are read back

The parts of a step that are written as texts of their own are its payloads, its result path and the
path to its items; `Step.Each` says something of all of them, at any depth. If each of them is read
back (`Readable`), so is the workflow (`Workflow.ofContent_toContent`). A payload that is `null` is
not: a null leaves a payload out.

A step is set aside before its fields are read, and what is inside a map is read to the depth of
what was set aside, which is enough for every pipeline that was written.
-/

namespace Conveyor

open Content (Source Reads toOption toText toNatural toRecord field optionalField)

/-- The part is read back. -/
def PartSpec.readable : PartSpec where
  payload p := p ≠ .literal .null ∧ p.toContent.toPayload = .ok p
  resultPath r := ResultPath.parse r.text = .ok r
  itemsPath p := Path.parse p.text = .ok p

/-! ### Values -/

section Values

variable {α : Type} {read : Content → Except ContentError α} {c : Content} {a : α}

theorem Content.toOption_eq (hc : c ≠ .null) (h : read c = .ok a) :
    toOption read c = .ok (some a) := by
  cases c with
  | null => exact absurd rfl hc
  | _ => exact congrArg (Except.map some) h

theorem Content.toNatural_ofNat {bound n : Nat} (name : String) (h : n < bound) :
    toNatural bound name (.integer n) = .ok n := by
  have hrange : (0 : Int) ≤ n ∧ (n : Int) < bound := ⟨Int.natCast_nonneg n, Int.ofNat_lt.mpr h⟩
  exact if_pos hrange

theorem Payload.toContent_ne_null {p : Payload} (h : p ≠ .literal .null) : p.toContent ≠ .null := by
  cases p with
  | literal value =>
    cases value with
    | null => exact absurd rfl h
    | number n => cases n <;> nofun
    | _ => nofun
  | _ => nofun

end Values

theorem RetryPolicy.set_maxAttempts (r : RetryPolicy) (n : UInt32) :
    record.set "max_attempts" (.integer n.toNat) r = .ok { r with maxAttempts := n } := by
  have hread := Content.toNatural_ofNat "u32" n.toNat_lt
  have hset : ∀ c, record.set "max_attempts" c r = (toNatural 0x100000000 "u32" c).map
      fun n => { r with maxAttempts := n.toUInt32 } := fun _ => rfl
  rw [hset, hread, Except.map, Nat.toUInt32, UInt32.ofNat_toNat]

theorem RetryPolicy.set_intervalMs (r : RetryPolicy) (n : UInt64) :
    record.set "interval_ms" (.integer n.toNat) r = .ok { r with intervalMs := n } := by
  have hread := Content.toNatural_ofNat "u64" n.toNat_lt
  have hset : ∀ c, record.set "interval_ms" c r = (toNatural 0x10000000000000000 "u64" c).map
      fun n => { r with intervalMs := n.toUInt64 } := fun _ => rfl
  rw [hset, hread, Except.map, Nat.toUInt64, UInt64.ofNat_toNat]

/-- A retry policy is read back. -/
theorem RetryPolicy.ofContent_toContent (source : Source) (r : RetryPolicy) :
    ofContent source r.toContent = .ok r := by
  have hreads : Reads record source (field "max_attempts" (.integer r.maxAttempts.toNat) ++
      (field "interval_ms" (.integer r.intervalMs.toNat) ++
        (field "backoff_rate" (.real r.backoffRate) ++ []))) [] .standard r :=
    .field rfl (by decide) (set_maxAttempts _ _)
      (.field rfl (by decide) (set_intervalMs _ _)
        (.field rfl (by decide) rfl .nil))
  exact Content.toRecord_mapping hreads rfl

/-! ### Fields of steps -/

section Fields

variable (pipeline : Content → Except ContentError Pipeline) {r : StepFields}

namespace StepFields

theorem set_name (s : String) :
    set pipeline "name" (.string s) r = .ok { r with name := some s } :=
  rfl

theorem set_comment (s : String) :
    set pipeline "comment" (.string s) r = .ok { r with comment := some s } :=
  rfl

theorem set_adapter (s : String) :
    set pipeline "adapter" (.string s) r = .ok { r with adapter := some s } :=
  rfl

theorem set_parameters {p : Payload} (h : PartSpec.readable.payload p) :
    set pipeline "parameters" p.toContent r = .ok { r with parameters := some p } := by
  have hset : ∀ c, set pipeline "parameters" c r = (toOption Content.toPayload c).map
      fun o => { r with parameters := o } := fun _ => rfl
  rw [hset, Content.toOption_eq (Payload.toContent_ne_null h.1) h.2, Except.map]

theorem set_resultSelector {p : Payload} (h : PartSpec.readable.payload p) :
    set pipeline "result_selector" p.toContent r = .ok { r with resultSelector := some p } := by
  have hset : ∀ c, set pipeline "result_selector" c r = (toOption Content.toPayload c).map
      fun o => { r with resultSelector := o } := fun _ => rfl
  rw [hset, Content.toOption_eq (Payload.toContent_ne_null h.1) h.2, Except.map]

theorem set_itemsPath {p : Path} (h : PartSpec.readable.itemsPath p) :
    set pipeline "items_path" (.string p.text) r = .ok { r with itemsPath := some p } := by
  have hset : ∀ s, set pipeline "items_path" (.string s) r =
      ((Path.parse s).mapError .path).map fun p => { r with itemsPath := some p } := fun _ => rfl
  rw [hset, Except.mapError_eq_ok.mpr h, Except.map]

theorem set_maxConcurrency (n : UInt64) :
    set pipeline "max_concurrency" (.integer n.toNat) r =
      .ok { r with maxConcurrency := some n } := by
  have hread := Content.toNatural_ofNat "usize" n.toNat_lt
  have hset : ∀ i, set pipeline "max_concurrency" (.integer i) r =
      ((toNatural 0x10000000000000000 "usize" (.integer i)).map some).map
        fun limit => { r with maxConcurrency := limit.map Nat.toUInt64 } := fun _ => rfl
  rw [hset, hread, Except.map, Except.map, Option.map_some, Nat.toUInt64, UInt64.ofNat_toNat]

theorem set_iterator {c : Content} {steps : Pipeline} (h : pipeline c = .ok steps) :
    set pipeline "iterator" c r = .ok { r with iterator := some steps } := by
  have hset : set pipeline "iterator" c r = (pipeline c).map
      fun steps => { r with iterator := some steps } := rfl
  rw [hset, h, Except.map]

theorem set_resultPath {path : ResultPath} (h : PartSpec.readable.resultPath path) :
    set pipeline "result_path" (.string path.text) r = .ok { r with resultPath := path } := by
  have hset : ∀ s, set pipeline "result_path" (.string s) r =
      ((ResultPath.parse s).mapError .path).map fun path => { r with resultPath := path } :=
    fun _ => rfl
  rw [hset, Except.mapError_eq_ok.mpr h, Except.map]

theorem set_retry (policy : RetryPolicy) :
    set pipeline "retry" policy.toContent r = .ok { r with retry := some policy } := by
  have hset : ∀ c, set pipeline "retry" c r =
      (toOption (RetryPolicy.ofContent .buffered) c).map fun o => { r with retry := o } :=
    fun _ => rfl
  have hne : policy.toContent ≠ .null := by simp [RetryPolicy.toContent]
  rw [hset, Content.toOption_eq hne (RetryPolicy.ofContent_toContent .buffered policy), Except.map]

end StepFields

end Fields

/-! ### Steps -/

/-- The kind of a step. -/
def Step.tag : Step → StepTag
  | .pass _ => .pass
  | .task _ => .task
  | .map .. => .map

theorem StepTag.ofContent_kind (source : Source) (s : Step) :
    ofContent source (.string s.kind) = .ok s.tag := by
  cases s <;> rfl

theorem splitTag_of_forall_ne (source : Source) (tag : StepTag) :
    ∀ {entries : List (Content × Content)} (acc : List (Content × Content)),
      (∀ e ∈ entries, e.1 ≠ .string "type") →
        splitTag source entries (some tag) acc = .ok (tag, acc.reverse ++ entries)
  | [], acc, _ => by rw [splitTag, List.append_nil]
  | (key, value) :: entries, acc, h => by
    obtain ⟨hkey, hrest⟩ := List.forall_mem_cons.mp h
    have hnext : splitTag source ((key, value) :: entries) (some tag) acc =
        splitTag source entries (some tag) ((key, value) :: acc) := by
      rw [splitTag]
      · exact nofun
      · exact fun _ _ _ heq => hkey (Prod.mk.inj heq).1
    rw [hnext, splitTag_of_forall_ne source tag ((key, value) :: acc) hrest, List.reverse_cons,
      List.append_assoc, List.singleton_append]

theorem Content.depth_le_entriesDepth (key : Content) {value : Content} :
    ∀ {entries : List (Content × Content)}, (key, value) ∈ entries →
      value.depth ≤ entriesDepth entries
  | (key', value') :: entries, h => by
    rw [entriesDepth]
    rcases List.mem_cons.mp h with heq | h
    · obtain ⟨rfl, rfl⟩ := Prod.mk.inj heq
      exact Nat.le_max_left _ _
    · exact (depth_le_entriesDepth key h).trans (Nat.le_max_right _ _)

/-- A step is saved as its kind and fields, from which it is read back if maps are read to a depth
that is enough. -/
structure Step.SavedAs (s : Step) (fields : List (Content × Content)) : Prop where
  toContent_eq : s.toContent = .mapping ((.string "type", .string s.kind) :: fields)
  ne_type : ∀ e ∈ fields, e.1 ≠ .string "type"
  read : ∀ depth ≥ Content.entriesDepth fields,
    stepOfFields (bufferedPipeline depth) s.tag (.mapping fields) = .ok s

section Saving

variable {fields : List (Content × Content)}

theorem Step.SavedAs.stepParts_eq {s : Step} (h : s.SavedAs fields) (source : Source) :
    stepParts source s.toContent = .ok (s.tag, .mapping fields) := by
  have hsplit := splitTag_of_forall_ne source s.tag [] h.ne_type
  rw [h.toContent_eq, stepParts, splitTag, StepTag.ofContent_kind]
  simp only [bind, Except.bind, hsplit]
  rfl

theorem Step.SavedAs.lt_depth {s : Step} (h : s.SavedAs fields) :
    Content.entriesDepth fields < s.toContent.depth := by
  rw [h.toContent_eq, Content.depth, Content.entriesDepth]
  exact Nat.lt_succ_of_le (Nat.le_max_right _ _)

theorem ne_type_of_reads {ρ α : Type} {r : Content.Record ρ α} {source : Source}
    {seen : List String} {acc res : ρ} (h : Reads r source fields seen acc res)
    (htype : (r.fields.map Prod.fst).contains "type" = false) :
    ∀ e ∈ fields, e.1 ≠ .string "type" := by
  intro e he heq
  obtain ⟨name, hname, hkey⟩ := h.keys e he
  obtain rfl := Content.string.inj (hkey.symm.trans heq)
  exact Bool.false_ne_true (htype.symm.trans (List.contains_iff_mem.mpr hname))

theorem PassStep.savedAs (s : PassStep) (h : (Step.pass s).Each .readable) :
    ∃ fields, (Step.pass s).SavedAs fields := by
  obtain ⟨hparameters, hresult⟩ := h
  have hreads (pipeline : Content → Except ContentError Pipeline) :
      Reads (record pipeline) .buffered
        (field "name" (.string s.name) ++ (optionalField "comment" .string s.comment ++
          (optionalField "parameters" Payload.toContent s.parameters ++
            (field "result_path" (.string s.resultPath.text) ++ [])))) [] {}
        { name := some s.name, comment := s.comment, parameters := s.parameters,
          resultPath := s.resultPath } :=
    .field rfl (by decide) (StepFields.set_name pipeline s.name) <|
    .optionalField (fun o => { name := some s.name, comment := o }) rfl (by decide)
      (fun c _ => StepFields.set_comment pipeline c) rfl <|
    .optionalField (fun o => { name := some s.name, comment := s.comment, parameters := o })
      rfl (by decide) (fun p hp => StepFields.set_parameters pipeline (hparameters p hp)) rfl <|
    .field rfl (by decide) (StepFields.set_resultPath pipeline hresult) .nil
  refine ⟨_, ?_, ne_type_of_reads (hreads (bufferedPipeline 0)) rfl, fun depth _ => ?_⟩
  · simp only [Step.toContent, List.append_assoc]
    rfl
  · exact Content.toRecord_mapping (hreads _) rfl

theorem TaskStep.savedAs (s : TaskStep) (h : (Step.task s).Each .readable) :
    ∃ fields, (Step.task s).SavedAs fields := by
  obtain ⟨hparameters, hselector, hresult⟩ := h
  have hreads (pipeline : Content → Except ContentError Pipeline) :
      Reads (record pipeline) .buffered
        (field "name" (.string s.name) ++ (optionalField "comment" .string s.comment ++
          (field "adapter" (.string s.adapter) ++
            (optionalField "parameters" Payload.toContent s.parameters ++
              (optionalField "result_selector" Payload.toContent s.resultSelector ++
                (field "result_path" (.string s.resultPath.text) ++
                  (optionalField "retry" RetryPolicy.toContent s.retry ++ []))))))) [] {}
        { name := some s.name, comment := s.comment, adapter := some s.adapter,
          parameters := s.parameters, resultSelector := s.resultSelector,
          resultPath := s.resultPath, retry := s.retry } :=
    .field rfl (by decide) (StepFields.set_name pipeline s.name) <|
    .optionalField (fun o => { name := some s.name, comment := o }) rfl (by decide)
      (fun c _ => StepFields.set_comment pipeline c) rfl <|
    .field rfl (by decide) (StepFields.set_adapter pipeline s.adapter) <|
    .optionalField
      (fun o => { name := some s.name, comment := s.comment, adapter := some s.adapter,
                  parameters := o })
      rfl (by decide) (fun p hp => StepFields.set_parameters pipeline (hparameters p hp)) rfl <|
    .optionalField
      (fun o => { name := some s.name, comment := s.comment, adapter := some s.adapter,
                  parameters := s.parameters, resultSelector := o })
      rfl (by decide) (fun p hp => StepFields.set_resultSelector pipeline (hselector p hp)) rfl <|
    .field rfl (by decide) (StepFields.set_resultPath pipeline hresult) <|
    .optionalField
      (fun o => { name := some s.name, comment := s.comment, adapter := some s.adapter,
                  parameters := s.parameters, resultSelector := s.resultSelector,
                  resultPath := s.resultPath, retry := o })
      rfl (by decide) (fun policy _ => StepFields.set_retry pipeline policy) rfl .nil
  refine ⟨_, ?_, ne_type_of_reads (hreads (bufferedPipeline 0)) rfl, fun depth _ => ?_⟩
  · -- the fields are written in this order
    simp only [Step.toContent, List.append_assoc, List.append_nil]
    rfl
  · exact Content.toRecord_mapping (hreads _) rfl

theorem MapHead.savedAs (s : MapHead) (iterator : Pipeline)
    (h : PartSpec.readable.itemsPath s.itemsPath ∧ PartSpec.readable.resultPath s.resultPath)
    (hiterator : ∀ depth > Content.itemsDepth (pipelineItems iterator),
      bufferedPipeline depth (.sequence (pipelineItems iterator)) = .ok iterator) :
    ∃ fields, (Step.map s iterator).SavedAs fields := by
  obtain ⟨hitems, hresult⟩ := h
  have hreads (pipeline : Content → Except ContentError Pipeline)
      (hpipeline : pipeline (.sequence (pipelineItems iterator)) = .ok iterator) :
      Reads (record pipeline) .buffered
        (field "name" (.string s.name) ++ (optionalField "comment" .string s.comment ++
          (field "items_path" (.string s.itemsPath.text) ++
            (optionalField "max_concurrency" (fun n => .integer n.toNat) s.maxConcurrency ++
              (field "iterator" (.sequence (pipelineItems iterator)) ++
                (field "result_path" (.string s.resultPath.text) ++ [])))))) [] {}
        { name := some s.name, comment := s.comment, itemsPath := some s.itemsPath,
          maxConcurrency := s.maxConcurrency, iterator := some iterator,
          resultPath := s.resultPath } :=
    .field rfl (by decide) (StepFields.set_name pipeline s.name) <|
    .optionalField (fun o => { name := some s.name, comment := o }) rfl (by decide)
      (fun c _ => StepFields.set_comment pipeline c) rfl <|
    .field rfl (by decide) (StepFields.set_itemsPath pipeline hitems) <|
    .optionalField
      (fun o => { name := some s.name, comment := s.comment, itemsPath := some s.itemsPath,
                  maxConcurrency := o })
      rfl (by decide) (fun n _ => StepFields.set_maxConcurrency pipeline n) rfl <|
    .field rfl (by decide) (StepFields.set_iterator pipeline hpipeline) <|
    .field rfl (by decide) (StepFields.set_resultPath pipeline hresult) .nil
  -- which keys there are does not depend on how the pipeline inside is read
  have hany := hreads (fun _ => .ok iterator) rfl
  refine ⟨_, ?_, ne_type_of_reads hany rfl, fun depth hdepth => ?_⟩
  · simp only [Step.toContent, List.append_assoc]
    rfl
  · -- the pipeline inside is one level deeper than its steps
    have hdeep : (Content.sequence (pipelineItems iterator)).depth ≤ depth := by
      refine le_trans (Content.depth_le_entriesDepth (.string "iterator") ?_) hdepth
      simp [field]
    exact Content.toRecord_mapping (hreads _ (hiterator depth hdeep)) rfl

mutual

/-- The content of a step has a kind and fields, from which it is read back. -/
theorem Step.exists_savedAs : ∀ s : Step, s.Each .readable → ∃ fields, s.SavedAs fields
  | .pass s, h => s.savedAs h
  | .task s, h => s.savedAs h
  | .map s iterator, ⟨hitems, hresult, hiterator⟩ =>
    s.savedAs iterator ⟨hitems, hresult⟩ fun depth hdepth => by
      obtain ⟨depth, rfl⟩ := Nat.exists_eq_succ_of_ne_zero (Nat.ne_zero_of_lt hdepth)
      exact bufferedPipeline_pipelineItems iterator hiterator depth (Nat.lt_succ_iff.mp hdepth)

/-- A pipeline is read back if maps are read to a depth that is enough. -/
theorem bufferedPipeline_pipelineItems : ∀ steps : Pipeline, eachStep .readable steps →
    ∀ depth ≥ Content.itemsDepth (pipelineItems steps),
      bufferedPipeline (depth + 1) (.sequence (pipelineItems steps)) = .ok steps
  | [], _, _, _ => rfl
  | s :: steps, ⟨hs, hsteps⟩, depth, hdepth => by
    obtain ⟨fields, hsaved⟩ := Step.exists_savedAs s hs
    rw [pipelineItems, Content.itemsDepth] at hdepth
    have hfirst : stepOfFields (bufferedPipeline depth) s.tag (.mapping fields) = .ok s :=
      hsaved.read depth (hsaved.lt_depth.le.trans ((Nat.le_max_left _ _).trans hdepth))
    have hrest := bufferedPipeline_pipelineItems steps hsteps depth
      ((Nat.le_max_right _ _).trans hdepth)
    refine Except.mapM_cons_eq_ok.mpr ⟨s, steps, ?_, hrest, rfl⟩
    exact Except.bind_eq_ok.mpr ⟨_, hsaved.stepParts_eq .buffered, hfirst⟩

end

/-- A step is read back. -/
theorem Step.ofContent_toContent (s : Step) (h : s.Each .readable) :
    ofContent s.toContent = .ok s := by
  obtain ⟨fields, hsaved⟩ := s.exists_savedAs h
  rw [ofContent, hsaved.stepParts_eq]
  exact hsaved.read _ (by rw [Content.depth]; exact Nat.le_succ _)

theorem Pipeline.ofContent_pipelineItems : ∀ steps : Pipeline, eachStep .readable steps →
    ofContent (.sequence (pipelineItems steps)) = .ok steps
  | [], _ => rfl
  | s :: steps, ⟨hs, hsteps⟩ => by
    have hrest := Pipeline.ofContent_pipelineItems steps hsteps
    exact Except.mapM_cons_eq_ok.mpr ⟨s, steps, s.ofContent_toContent hs, hrest, rfl⟩

end Saving

/-! ### Workflows -/

/-- A workflow is read back from what it is saved as if all parts of its steps are. -/
theorem Workflow.ofContent_toContent (w : Workflow) (h : eachStep .readable w.steps) :
    ofContent w.toContent = .ok w := by
  have hsteps := Pipeline.ofContent_pipelineItems w.steps h
  have htimeout (n : UInt64) (r : WorkflowFields) :
      record.set "timeout_secs" (.integer n.toNat) r = .ok { r with timeoutSecs := some n } := by
    have hread := Content.toNatural_ofNat "u64" n.toNat_lt
    have hset : ∀ i, record.set "timeout_secs" (.integer i) r =
        ((toNatural 0x10000000000000000 "u64" (.integer i)).map some).map
          fun secs => { r with timeoutSecs := secs.map Nat.toUInt64 } := fun _ => rfl
    rw [hset, hread, Except.map, Except.map, Option.map_some, Nat.toUInt64, UInt64.ofNat_toNat]
  have hset (r : WorkflowFields) :
      record.set "steps" (.sequence (pipelineItems w.steps)) r =
        .ok { r with steps := some w.steps } := by
    have hset : record.set "steps" (.sequence (pipelineItems w.steps)) r =
        (Pipeline.ofContent (.sequence (pipelineItems w.steps))).map
          fun steps => { r with steps := some steps } := rfl
    rw [hset, hsteps, Except.map]
  have hreads : Reads record .direct
      (field "name" (.string w.name) ++ (optionalField "comment" .string w.comment ++
        (optionalField "timeout_secs" (fun n => .integer n.toNat) w.timeoutSecs ++
          (field "steps" (.sequence (pipelineItems w.steps)) ++ [])))) [] {}
      { name := some w.name, comment := w.comment, timeoutSecs := w.timeoutSecs,
        steps := some w.steps } :=
    .field rfl (by decide) rfl <|
    .optionalField (fun o => { name := some w.name, comment := o }) rfl (by decide)
      (fun _ _ => rfl) rfl <|
    .optionalField (fun o => { name := some w.name, comment := w.comment, timeoutSecs := o })
      rfl (by decide) (fun n _ => htimeout n _) rfl <|
    .field rfl (by decide) (hset _) .nil
  have hcontent := Content.toRecord_mapping hreads rfl
  rw [toContent, ofContent]
  simp only [List.append_assoc]
  exact hcontent

end Conveyor
