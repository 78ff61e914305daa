import Conveyor.Proofs.Store.Trees
import Conveyor.Proofs.Workflow.Accepted
import Conveyor.Proofs.Workflow.Reading

/-!
# Workflows that are saved and loaded again

A workflow that has been accepted is read back from what it is saved as if it is legible
(`Definition.load_save`): its texts name the paths, keys and templates that they were written from.
Texts that are not legible exist, since a key may hold any character. The key `a` with a tab at its
end counts as plain, and the tab is trimmed when the path is read again
(`Definition.reload_tabbed`).
-/

namespace Conveyor

/-! ### Legible workflows -/

/-- What makes sure that a part that has been read is read back. -/
def PartSpec.legible : PartSpec where
  payload p := p ≠ .literal .null ∧ ∀ e ∈ p.expressions, e.Legible
  resultPath r := r.Legible
  itemsPath p := p.Legible

theorem Payload.toPayload_toContent {p : Payload} {doc : Json} (hsorted : doc.Sorted)
    (hdoc : Payload.ofJson doc = .ok p) (hlegible : ∀ e ∈ p.expressions, e.Legible) :
    p.toContent.toPayload = .ok p := by
  have hexpressions : ∀ e ∈ p.expressions, Expression.parse e.text = .ok e := by
    intro e he
    obtain ⟨text, hread⟩ := Payload.exists_parse_eq hdoc he
    exact (hlegible e he).parse_text hread
  obtain ⟨hsorted', hread⟩ := Payload.ofJson_toJson hsorted hdoc hexpressions
  exact Except.bind_eq_ok.mpr
    ⟨p.toJson, Content.toJson_ofJson hsorted', Except.mapError_eq_ok.mpr hread⟩

/-- Legible parts that have been read are read back. -/
theorem PartSpec.readable_of_legible : PartSpec.parsed.Entailed .legible .readable where
  payload := fun _ ⟨_, hsorted, hdoc⟩ ⟨hne, hlegible⟩ =>
    ⟨hne, Payload.toPayload_toContent hsorted hdoc hlegible⟩
  resultPath := fun _ ⟨_, hread⟩ hlegible => hlegible.parse_text hread
  itemsPath := fun _ _ hlegible => hlegible.parse_text

/-! ### Saving and loading -/

/-- The text written from content is read as the workflow that the content is read as. -/
def Content.WrittenFaithfully (c : Content) : Prop :=
  ∀ w, Workflow.ofContent c = .ok w → Workflow.ofDocument (.ofText (Yaml.write c)) = .ok w

namespace Definition

variable {text : String} {w : Workflow}

theorem validate_of_parse (h : (parse text).2 = .ok w) : w.validate = .ok () := by
  unfold parse at h
  dsimp only at h
  split at h
  · cases h
  · obtain ⟨⟨⟩, hvalid, rfl⟩ := Except.map_eq_ok.mp h
    exact Except.mapError_eq_ok.mp hvalid

theorem parse_of_ofDocument (h : Workflow.ofDocument (.ofText text) = .ok w)
    (hvalid : w.validate = .ok ()) : (parse text).2 = .ok w := by
  simp only [parse, h, hvalid]
  rfl

theorem load_of_save {tree tree' : Tree} {path : String} {route : Route}
    (h : (save tree path route w).2 = .ok tree') :
    (load tree' path route).2 = (parse (write w)).2 := by
  unfold save at h
  split at h
  · cases h
  · rename_i tree₁ hwrite
    obtain rfl := Except.ok.inj h
    rw [load, Tree.readText_write hwrite]

/-- A legible workflow that has been accepted is read back from the content that it is saved as.
So it is loaded again from the file in which it has been saved, if its text is read as that
content is. -/
theorem load_save (h : (parse text).2 = .ok w) (hlegible : eachStep .legible w.steps) :
    Workflow.ofContent w.toContent = .ok w ∧
      (w.toContent.WrittenFaithfully → ∀ tree path route tree',
        (save tree path route w).2 = .ok tree' → (load tree' path route).2 = .ok w) := by
  have hreadable : eachStep .readable w.steps :=
    eachStep_mono PartSpec.readable_of_legible (parsed_of_parse h) hlegible
  have hread := w.ofContent_toContent hreadable
  refine ⟨hread, fun hfaithful tree path route tree' hsave => ?_⟩
  -- what is loaded is valid, since it is the workflow that was valid when it was parsed
  rw [load_of_save hsave]
  exact parse_of_ofDocument (hfaithful w hread) (validate_of_parse h)

/-- A definition with a key that is written between quotes, in the call of a function. -/
def quotedText : String :=
  "name: w\nsteps:\n- type: pass\n  name: a\n  parameters:\n" ++
  "    b.$: States.Format('$\x7b\x7d', $['it\\'s'])\n  result_path: $.c\n"

/-- The workflow that it defines. -/
def quoted : Workflow :=
  .ofSteps "w" [.pass ⟨"a", none,
    some (.object [("b", .expression (.format ⟨[.literal "$", .ref ⟨[.key "it's"]⟩]⟩))]),
    .at ⟨[.key "c"]⟩⟩]

theorem legible_quoted : eachStep .legible quoted.steps := by
  have hkey : Path.Legible ⟨[.key "it's"]⟩ := by
    constructor <;> simp [Path.KeysClose, Path.EndsFirmly, Path.isPlainKey, Text.isBlank]
  have hresult : Path.Legible ⟨[.key "c"]⟩ := by
    constructor <;> simp [Path.KeysClose, Path.EndsFirmly, Path.isPlainKey, Text.isBlank]
  have hexpression : Expression.Legible (.format ⟨[.literal "$", .ref ⟨[.key "it's"]⟩]⟩) := by
    refine ⟨fun p hp => ?_, fun t ht p hp => ?_⟩
    · obtain rfl := List.mem_singleton.mp hp
      exact hkey
    · obtain rfl := Expression.format.inj ht
      obtain rfl := List.mem_singleton.mp hp
      rw [if_neg (by decide)]
      rintro name hname
      obtain rfl : name = "it's" := by simpa using hname
      decide
  refine ⟨⟨?_, ?_⟩, trivial⟩
  · rintro p ⟨⟩
    refine ⟨Payload.noConfusion, fun e he => ?_⟩
    obtain rfl := List.mem_singleton.mp he
    exact hexpression
  · rintro path ⟨⟩
    exact hresult

/-- The quoted key survives, in the content and in a file. -/
theorem load_save_quoted :
    ((parse quotedText).2 = .ok quoted ∧ eachStep .legible quoted.steps ∧
        quoted.toContent.WrittenFaithfully) ∧
      Workflow.ofContent quoted.toContent = .ok quoted ∧
      ∃ tree, (save .empty "w.yaml" ⟨[], ["w.yaml"], false⟩ quoted).2 = .ok tree ∧
        (load tree "w.yaml" ⟨[], ["w.yaml"], false⟩).2 = .ok quoted := by
  have hparse : (parse quotedText).2 = .ok quoted :=
    Except.toOption_eq_some.mp (by decide +kernel)
  obtain ⟨hread, hload⟩ := load_save hparse legible_quoted
  have hfaithful : quoted.toContent.WrittenFaithfully := by
    intro w hw
    obtain rfl := Except.ok.inj (hread.symm.trans hw)
    exact Except.toOption_eq_some.mp (by decide +kernel)
  have hsave : (save .empty "w.yaml" ⟨[], ["w.yaml"], false⟩ quoted).2 =
      .ok (Tree.empty.withFile ["w.yaml"] (write quoted).toUTF8) := rfl
  exact ⟨⟨hparse, legible_quoted, hfaithful⟩, hread, _, hsave, hload hfaithful _ _ _ _ hsave⟩

/-- A definition with a key that ends in a tab. -/
def tabbedText : String :=
  "name: w\nsteps:\n- type: pass\n  name: a\n  result_path: \"$['a\\t']\"\n"

/-- A workflow whose result goes to a key. -/
def resultAt (key : String) : Workflow :=
  .ofSteps "w" [.pass ⟨"a", none, none, .at ⟨[.key key]⟩⟩]

/-- A tab at the end of a key is lost when the workflow is read back. -/
theorem reload_tabbed :
    (parse tabbedText).2 = .ok (resultAt "a\t") ∧
      Workflow.ofContent (resultAt "a\t").toContent = .ok (resultAt "a") ∧
      resultAt "a" ≠ resultAt "a\t" :=
  ⟨Except.toOption_eq_some.mp (by decide +kernel), Except.toOption_eq_some.mp (by decide +kernel),
    by decide⟩

end Definition

end Conveyor
