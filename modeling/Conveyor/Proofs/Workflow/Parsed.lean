import Conveyor.Proofs.Content.Documents
import Conveyor.Proofs.Path.Reading
import Conveyor.Proofs.Workflow.Parts
import Conveyor.Workflow.Reading

/-!
# Parts of workflows that have been read

Every payload and every result path of a step that has been read has itself been read, from a sorted
document or from a text (`Step.each_of_ofFields`). A record is read field by field, each field sets
one part, and what a map has inside is read in the same way, to the depth that its content has.
-/

namespace Conveyor

open Content (Source Record toRecord readEntries readItems toOption)

/-! ### Records -/

namespace Content

section Records

variable {ρ α : Type} {r : Record ρ α} {source : Source} {P : ρ → Prop}

theorem readEntries_induct
    (hset : ∀ name c acc acc', P acc → r.set name c acc = .ok acc' → P acc') :
    ∀ {entries : List (Content × Content)} {seen : List String} {acc res : ρ}, P acc →
      readEntries r source entries seen acc = .ok res → P res
  | [], _, _, _, hacc, h => Except.ok.inj h ▸ hacc
  | (key, value) :: entries, seen, acc, res, hacc, h => by
    rw [readEntries] at h
    obtain ⟨name, -, h⟩ := Except.bind_eq_ok.mp h
    cases name with
    | none => exact readEntries_induct hset hacc h
    | some name =>
      dsimp only at h
      split at h
      · cases h
      · obtain ⟨acc', hacc', h⟩ := Except.bind_eq_ok.mp h
        exact readEntries_induct hset (hset name value acc acc' hacc hacc') h

theorem readItems_induct (hset : ∀ name c acc acc', P acc → r.set name c acc = .ok acc' → P acc')
    {length : Nat} : ∀ {fields : List (String × Bool)} {items : List Content} {position : Nat}
      {acc res : ρ}, P acc → readItems r source length fields items position acc = .ok res → P res
  | [], [], _, _, _, hacc, h => Except.ok.inj h ▸ hacc
  | [], _ :: _, _, _, _, _, h => by cases h
  | (name, _) :: fields, item :: items, position, acc, res, hacc, h => by
    rw [readItems] at h
    obtain ⟨acc', hacc', h⟩ := Except.bind_eq_ok.mp h
    exact readItems_induct hset (hset name item acc acc' hacc hacc') h
  | (_, false) :: _, [], _, _, _, hacc, h => by
    rw [readItems] at h
    exact readItems_induct hset hacc h
  | (_, true) :: _, [], _, _, _, _, h => by cases h

/-- What the fields of a record keep is so of the record that is completed. -/
theorem toRecord_induct (hset : ∀ name c acc acc', P acc → r.set name c acc = .ok acc' → P acc')
    (hstart : P r.start) {c : Content} {a : α} (h : toRecord r source c = .ok a) :
    ∃ res, P res ∧ r.finish res = .ok a := by
  unfold toRecord at h
  split at h
  · obtain ⟨res, hres, h⟩ := Except.bind_eq_ok.mp h
    exact ⟨res, readEntries_induct hset hstart hres, h⟩
  · obtain ⟨res, hres, h⟩ := Except.bind_eq_ok.mp h
    exact ⟨res, readItems_induct hset hstart hres, h⟩
  · cases h

end Records

end Content

/-! ### Steps -/

/-- The part has been read from a text or a document. -/
def PartSpec.parsed : PartSpec where
  payload p := ∃ doc : Json, doc.Sorted ∧ Payload.ofJson doc = .ok p
  resultPath r := ∃ text, ResultPath.parse text = .ok r
  itemsPath _ := True

/-- Something is true of all parts of a step that have been read. -/
structure StepFields.Each (S : PartSpec) (r : StepFields) : Prop where
  parameters : ∀ p ∈ r.parameters, S.payload p
  resultSelector : ∀ p ∈ r.resultSelector, S.payload p
  itemsPath : ∀ p ∈ r.itemsPath, S.itemsPath p
  iterator : ∀ steps ∈ r.iterator, eachStep S steps
  resultPath : S.resultPath r.resultPath

theorem Content.parsed_of_toPayload {c : Content} {o : Option Payload}
    (h : toOption Content.toPayload c = .ok o) : ∀ p ∈ o, PartSpec.parsed.payload p := by
  rintro p rfl
  unfold toOption at h
  split at h
  · cases h
  · obtain ⟨p', hp', heq⟩ := Except.map_eq_ok.mp h
    obtain rfl := Option.some.inj heq
    obtain ⟨doc, hdoc, hp⟩ := Except.bind_eq_ok.mp hp'
    exact ⟨doc, Content.sorted_toJson hdoc, Except.mapError_eq_ok.mp hp⟩

theorem Content.parsed_of_toResultPath {c : Content} {r : ResultPath}
    (h : c.toResultPath = .ok r) : PartSpec.parsed.resultPath r := by
  obtain ⟨text, -, h⟩ := Except.bind_eq_ok.mp h
  exact ⟨text, Except.mapError_eq_ok.mp h⟩

/-- Without a result path the result replaces the context, as with the path to all of it. -/
theorem StepFields.each_start : ({} : StepFields).Each .parsed :=
  ⟨nofun, nofun, nofun, nofun, ResultPath.replace.text, ResultPath.parse_replace⟩

section Steps

variable {pipeline : Content → Except ContentError Pipeline}

theorem StepFields.Each.set
    (hpipeline : ∀ c steps, pipeline c = .ok steps → eachStep .parsed steps)
    (name : String) (c : Content) (r r' : StepFields) (hr : r.Each .parsed)
    (h : StepFields.set pipeline name c r = .ok r') : r'.Each .parsed := by
  unfold StepFields.set at h
  split at h
  -- each field sets its own part only
  all_goals
    obtain ⟨a, ha, h⟩ := Except.bind_eq_ok.mp h
    obtain rfl := Except.ok.inj h
  case h_4 => exact { hr with parameters := Content.parsed_of_toPayload ha }
  case h_5 => exact { hr with resultSelector := Content.parsed_of_toPayload ha }
  case h_6 => exact { hr with itemsPath := fun _ _ => trivial }
  case h_8 => exact { hr with iterator := by rintro _ ⟨⟩; exact hpipeline c a ha }
  case h_9 => exact { hr with resultPath := Content.parsed_of_toResultPath ha }
  all_goals exact { hr with }

theorem required_eq_ok {name : String} {o : Option α} {a : α}
    (h : Content.required name o = .ok a) : o = some a := by
  cases o with
  | some b => exact congrArg some (Except.ok.inj h)
  | none => cases h

theorem each_of_stepOfFields
    (hpipeline : ∀ c steps, pipeline c = .ok steps → eachStep .parsed steps) {tag : StepTag}
    {c : Content} {s : Step} (h : stepOfFields pipeline tag c = .ok s) : s.Each .parsed := by
  cases tag with
  | pass =>
    obtain ⟨r, hr, h⟩ := Content.toRecord_induct (StepFields.Each.set hpipeline)
      StepFields.each_start h
    obtain ⟨name, -, h⟩ := Except.bind_eq_ok.mp h
    obtain rfl := Except.ok.inj h
    exact ⟨hr.parameters, hr.resultPath⟩
  | task =>
    obtain ⟨r, hr, h⟩ := Content.toRecord_induct (StepFields.Each.set hpipeline)
      StepFields.each_start h
    obtain ⟨name, -, h⟩ := Except.bind_eq_ok.mp h
    obtain ⟨adapter, -, h⟩ := Except.bind_eq_ok.mp h
    obtain rfl := Except.ok.inj h
    exact ⟨hr.parameters, hr.resultSelector, hr.resultPath⟩
  | map =>
    obtain ⟨r, hr, h⟩ := Content.toRecord_induct (StepFields.Each.set hpipeline)
      StepFields.each_start h
    obtain ⟨name, -, h⟩ := Except.bind_eq_ok.mp h
    obtain ⟨itemsPath, hitems, h⟩ := Except.bind_eq_ok.mp h
    obtain ⟨iterator, hiterator, h⟩ := Except.bind_eq_ok.mp h
    obtain rfl := Except.ok.inj h
    exact ⟨hr.itemsPath _ (required_eq_ok hitems), hr.resultPath,
      hr.iterator _ (required_eq_ok hiterator)⟩

end Steps

theorem eachStep_of_mapM {f : Content → Except ContentError Step}
    (hf : ∀ c s, f c = .ok s → s.Each .parsed) : ∀ {items : List Content} {steps : List Step},
      items.mapM f = .ok steps → eachStep .parsed steps
  | [], _, h => Except.ok.inj h ▸ trivial
  | item :: items, _, h => by
    obtain ⟨s, steps, hs, hsteps, rfl⟩ := Except.mapM_cons_eq_ok.mp h
    exact ⟨hf item s hs, eachStep_of_mapM hf hsteps⟩

theorem eachStep_of_bufferedPipeline : ∀ (depth : Nat) (c : Content) (steps : Pipeline),
    bufferedPipeline depth c = .ok steps → eachStep .parsed steps
  | 0, _, _, h => by cases h
  | depth + 1, c, steps, h => by
    cases c with
    | sequence items =>
      refine eachStep_of_mapM (fun item s hs => ?_) h
      obtain ⟨⟨tag, fields⟩, -, hs⟩ := Except.bind_eq_ok.mp hs
      exact each_of_stepOfFields (eachStep_of_bufferedPipeline depth) hs
    | _ => cases h

/-- All parts of a step that has been read have been read. -/
theorem Step.each_of_ofFields {tag : StepTag} {c : Content} {s : Step}
    (h : ofFields tag c = .ok s) : s.Each .parsed :=
  each_of_stepOfFields (eachStep_of_bufferedPipeline c.depth) h

end Conveyor
