import Conveyor.Payload
import Conveyor.Proofs.Result
import Mathlib.Control.Monad.Basic

/-!
# The paths that a payload refers to

A computation from a document consults paths (`Consults`) if nothing but the parts at these paths
decides its result, be it a value or an error, and it has a value only if all of the parts are
there. What runs one after another consults the paths of each in turn, and so a payload consults the
paths that it refers to (`Payload.resolve_consults`): it leaves none of them out
(`Payload.references_complete`).
-/

namespace Conveyor

variable {ε ε' α β : Type}

/-- The result of a computation is decided by what documents have at the paths, and there is a value
only if all of the paths can be read. -/
structure Consults (f : Json → Except ε α) (paths : List Path) : Prop where
  eq_of_agree : ∀ d₁ d₂, (∀ path ∈ paths, path.read d₁ = path.read d₂) → f d₁ = f d₂
  readable : ∀ d a, f d = .ok a → ∀ path ∈ paths, ∃ part, path.read d = .ok part

namespace Consults

variable {f : Json → Except ε α} {paths paths' : List Path}

theorem const (x : Except ε α) : Consults (fun _ => x) [] :=
  ⟨fun _ _ _ => rfl, fun _ _ _ => nofun⟩

theorem read (path : Path) : Consults path.read [path] where
  eq_of_agree _ _ h := h path List.mem_cons_self
  readable _ a h := List.forall_mem_singleton.mpr ⟨a, h⟩

theorem bind {g : α → Json → Except ε β} (hf : Consults f paths)
    (hg : ∀ a, Consults (g a) paths') :
    Consults (fun d => f d >>= fun a => g a d) (paths ++ paths') where
  eq_of_agree d₁ d₂ h := by
    obtain ⟨hfirst, hrest⟩ := List.forall_mem_append.mp h
    have hsame : (g · d₁) = (g · d₂) := funext fun a => (hg a).eq_of_agree d₁ d₂ hrest
    show f d₁ >>= (g · d₁) = f d₂ >>= (g · d₂)
    rw [hf.eq_of_agree d₁ d₂ hfirst, hsame]
  readable d b h := by
    obtain ⟨a, ha, hb⟩ := Except.bind_eq_ok.mp h
    exact List.forall_mem_append.mpr ⟨hf.readable d a ha, (hg a).readable d b hb⟩

/-- What follows does not look at the document again. -/
theorem bind_const (hf : Consults f paths) (g : α → Except ε β) :
    Consults (fun d => f d >>= g) paths := by
  have h := hf.bind fun a => const (g a)
  rwa [List.append_nil] at h

theorem map (hf : Consults f paths) (g : α → β) : Consults (fun d => (f d).map g) paths where
  eq_of_agree d₁ d₂ h := congrArg (Except.map g) (hf.eq_of_agree d₁ d₂ h)
  readable d _ h :=
    have ⟨a, ha, _⟩ := Except.map_eq_ok.mp h
    hf.readable d a ha

theorem mapError (hf : Consults f paths) (g : ε → ε') :
    Consults (fun d => (f d).mapError g) paths where
  eq_of_agree d₁ d₂ h := congrArg (Except.mapError g) (hf.eq_of_agree d₁ d₂ h)
  readable d a h := hf.readable d a (Except.mapError_eq_ok.mp h)

end Consults

theorem Template.fillParts_consults (parts : List TemplatePart) :
    Consults (fun d => fillParts d parts) (parts.filterMap partPath?) := by
  induction parts with
  | nil => exact .const (.ok "")
  | cons part parts ih =>
    cases part with
    | literal text => exact ih.bind_const fun rest => .ok (text ++ rest)
    | ref path =>
      exact (Consults.read path).bind fun value =>
        ih.bind_const fun rest => .ok (value.text ++ rest)

theorem Expression.evaluate_consults (e : Expression) :
    Consults (fun d => e.evaluate d) e.references := by
  have hread (path : Path) : Consults (fun d => (path.read d).mapError EvalError.path) [path] :=
    (Consults.read path).mapError EvalError.path
  cases e with
  | path path => exact hread path
  | format template =>
    have hformat : Consults template.format template.references :=
      (Template.fillParts_consults template.parts).mapError (FormatError.mk template)
    exact (hformat.map Json.string).mapError EvalError.format
  | stringToJson path => exact (hread path).bind_const _
  | jsonToString path => exact (hread path).bind_const _

namespace Payload

mutual

/-- The value of a payload consults the paths that the payload refers to. -/
theorem resolve_consults : ∀ p : Payload, Consults (fun d => p.resolve d) p.references
  | .literal value => .const (.ok value)
  | .expression e => e.evaluate_consults
  | .array items => (resolveItems_consults items).map Json.array
  | .object fields => (resolveFields_consults fields []).map Json.object

theorem resolveItems_consults : ∀ items : List Payload,
    Consults (fun d => resolveItems d items) (itemReferences items)
  | [] => .const (.ok [])
  | item :: items =>
    (resolve_consults item).bind fun value =>
      (resolveItems_consults items).bind_const fun values => .ok (value :: values)

theorem resolveFields_consults : ∀ (fields : List (String × Payload)) (acc : List (String × Json)),
    Consults (fun d => resolveFields d fields acc) (fieldReferences fields)
  | [], acc => .const (.ok acc)
  | (key, field) :: fields, acc =>
    (resolve_consults field).bind fun value =>
      resolveFields_consults fields (Json.insert key value acc)

end

/-- Two documents that have the same at every path that a payload refers to give it the same value
or the same error, and where it has a value all of these paths can be read. -/
theorem references_complete (p : Payload) :
    (∀ d₁ d₂, (∀ path ∈ p.references, path.read d₁ = path.read d₂) →
      p.resolve d₁ = p.resolve d₂) ∧
    ∀ d value, p.resolve d = .ok value → ∀ path ∈ p.references, ∃ part, path.read d = .ok part :=
  ⟨p.resolve_consults.eq_of_agree, p.resolve_consults.readable⟩

/-- A payload with an expression of each form. -/
def summary : Payload :=
  .object [("a", .array [.expression (.path ⟨[.key "x"]⟩), .literal .null]),
    ("b", .expression (.format ⟨[.literal "n", .ref ⟨[.key "y", .index 1]⟩]⟩)),
    ("c", .expression (.stringToJson ⟨[.key "z"]⟩)),
    ("d", .expression (.jsonToString ⟨[.key "y"]⟩))]

/-- A document that it has a value on if `z` can be read; it does not refer to `w`. -/
def summarized (w z : String) : Json :=
  .object [("w", .string w), ("x", .bool true), ("y", .array [.null, .string "1"]),
    ("z", .string z)]

/-- Where it has no value the error is the same whatever `w` is; where it has one its paths can be
read. -/
theorem references_complete_summary :
    ((∀ path ∈ summary.references,
        path.read (summarized "u" "[") = path.read (summarized "v" "[")) ∧
      summary.resolve (summarized "u" "[") = summary.resolve (summarized "v" "[") ∧
      ∀ value, summary.resolve (summarized "u" "[") ≠ .ok value) ∧
    summary.resolve (summarized "u" "[2]") =
      .ok (.object [("a", .array [.bool true, .null]), ("b", .string "n1"),
        ("c", .array [.number (.integer 2 (by decide))]), ("d", .string "[null,\"1\"]")]) ∧
    ∀ path ∈ summary.references, ∃ part, path.read (summarized "u" "[2]") = .ok part := by
  have hagree : ∀ path ∈ summary.references,
      path.read (summarized "u" "[") = path.read (summarized "v" "[") := by
    decide +kernel
  have hnone : (summary.resolve (summarized "u" "[")).toOption = none := by decide +kernel
  have hvalue : summary.resolve (summarized "u" "[2]") =
      .ok (.object [("a", .array [.bool true, .null]), ("b", .string "n1"),
        ("c", .array [.number (.integer 2 (by decide))]), ("d", .string "[null,\"1\"]")]) :=
    Except.toOption_eq_some.mp (by decide +kernel)
  refine ⟨⟨hagree, summary.references_complete.1 _ _ hagree, fun value h => ?_⟩, hvalue,
    summary.references_complete.2 _ _ hvalue⟩
  rw [h] at hnone
  cases hnone

end Payload

end Conveyor
