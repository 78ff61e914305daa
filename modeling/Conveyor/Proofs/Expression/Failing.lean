import Conveyor.Payload
import Conveyor.Proofs.Result
import Conveyor.Workflow.ResultPath

/-!
# Why a value cannot be computed

Paths, templates and expressions are read before a document is there. So the value of a payload can
fail to be computed only because of the document (`Payload.resolve_fails`): it has nothing at a
path, or a part of another kind on the way, or at the path no text of a document; and so can a
result be put into it, unless that panics (`ResultPath.apply_fails`).
-/

namespace Conveyor

open Conveyor.Except (FailsWith)

/-- The error tells what a document has or lacks at a path. -/
def PathError.OfDocument : PathError → Prop
  | .notFound _ => True
  | .typeMismatch .. => True
  | .malformed .. => False

/-- The error tells what a document has or lacks at a path that a value is computed from. -/
def EvalError.OfDocument : EvalError → Prop
  | .path error => error.OfDocument
  | .format error => error.cause.OfDocument
  | .stringToJson .. => True

theorem Obstacle.toError_ofDocument (path : Path) (o : Obstacle) :
    (o.toError path).OfDocument := by
  cases o <;> trivial

namespace Path

theorem read_fails (path : Path) (doc : Json) :
    FailsWith PathError.OfDocument (path.read doc) :=
  .mapError (Obstacle.toError_ofDocument path)

theorem write_fails (path : Path) (value doc : Json) :
    FailsWith (Fault.Satisfies PathError.OfDocument) (path.write value doc) :=
  .mapError fun fault => by
    cases fault with
    | error o => exact Obstacle.toError_ofDocument path o
    | panic p => trivial

end Path

theorem ResultPath.apply_fails (r : ResultPath) (context result : Json) :
    FailsWith (Fault.Satisfies PathError.OfDocument) (r.apply context result) := by
  cases r with
  | replace => exact .ok result
  | «at» path => exact path.write_fails result context
  | discard => exact .ok context

theorem Template.fillParts_fails (doc : Json) (parts : List TemplatePart) :
    FailsWith PathError.OfDocument (fillParts doc parts) := by
  induction parts with
  | nil => exact .ok ""
  | cons part parts ih =>
    cases part with
    | literal text => exact ih.bind fun _ => .ok _
    | ref path => exact (path.read_fails doc).bind fun _ => ih.bind fun _ => .ok _

theorem Expression.evaluate_fails (e : Expression) (doc : Json) :
    FailsWith EvalError.OfDocument (e.evaluate doc) := by
  have hread (path : Path) :
      FailsWith EvalError.OfDocument ((path.read doc).mapError EvalError.path) :=
    (path.read_fails doc).mapError_of fun _ h => h
  cases e with
  | path path => exact hread path
  | format template =>
    have hformat : FailsWith (fun error => error.cause.OfDocument) (template.format doc) :=
      (Template.fillParts_fails doc template.parts).mapError_of fun _ h => h
    exact hformat.map.mapError_of fun _ h => h
  | stringToJson path =>
    refine (hread path).bind fun value => ?_
    cases value with
    | string text => exact .mapError fun _ => trivial
    | _ => exact .error trivial
  | jsonToString path => exact (hread path).bind fun _ => .ok _

namespace Payload

mutual

/-- The value of a payload fails to be computed only because of the document. -/
theorem resolve_fails (doc : Json) : ∀ p : Payload,
    FailsWith EvalError.OfDocument (resolve doc p)
  | .literal value => .ok value
  | .expression e => e.evaluate_fails doc
  | .array items => (resolveItems_fails doc items).map
  | .object fields => (resolveFields_fails doc fields []).map

theorem resolveItems_fails (doc : Json) : ∀ items : List Payload,
    FailsWith EvalError.OfDocument (resolveItems doc items)
  | [] => .ok []
  | item :: items =>
    (resolve_fails doc item).bind fun _ => (resolveItems_fails doc items).bind fun _ => .ok _

theorem resolveFields_fails (doc : Json) :
    ∀ (fields : List (String × Payload)) (acc : List (String × Json)),
    FailsWith EvalError.OfDocument (resolveFields doc fields acc)
  | [], acc => .ok acc
  | (_, field) :: fields, _ =>
    (resolve_fails doc field).bind fun _ => resolveFields_fails doc fields _

end

end Payload

end Conveyor
