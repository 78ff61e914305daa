import Conveyor.Expression.Parser

/-!
# Payloads

A payload is a document with expressions in it: a member whose key ends in `.$` holds the text of an
expression, and stands for a member with the rest of the key and the value of the expression.
`Payload.ofJson` reads a document as a payload, `toJson` gives the document back, and `resolve`
computes the value on a document.
-/

namespace Conveyor

/-- A document with expressions in it. -/
inductive Payload where
  | literal (value : Json)
  | expression (expr : Expression)
  | array (items : List Payload)
  | object (fields : List (String × Payload))
  deriving Repr

namespace Payload

/-- The end of a key that announces an expression. -/
def mark : List Char := ['.', '$']

/-- The rest of a key that ends in the mark. -/
def unmarked? (key : String) : Option String :=
  (Text.beforeEnd? mark key.toList).map String.ofList

/-- A key with the mark. -/
def marked (key : String) : String :=
  String.ofList (key.toList ++ mark)

/-! ### Equality -/

mutual

/-- Whether two payloads are equal. -/
def beq : Payload → Payload → Bool
  | .literal a, .literal b => a == b
  | .expression a, .expression b => a == b
  | .array as, .array bs => beqItems as bs
  | .object as, .object bs => beqFields as bs
  | _, _ => false

/-- Whether two lists of payloads are equal. -/
def beqItems : List Payload → List Payload → Bool
  | [], [] => true
  | a :: as, b :: bs => beq a b && beqItems as bs
  | _, _ => false

/-- Whether two lists of members are equal. -/
def beqFields : List (String × Payload) → List (String × Payload) → Bool
  | [], [] => true
  | (k, a) :: as, (l, b) :: bs => k == l && beq a b && beqFields as bs
  | _, _ => false

end

mutual

theorem beq_iff : ∀ a b : Payload, beq a b = true ↔ a = b
  | .literal _, b => by cases b <;> simp [beq]
  | .expression _, b => by cases b <;> simp [beq]
  | .array as, b => by cases b <;> simp [beq, beqItems_iff as]
  | .object as, b => by cases b <;> simp [beq, beqFields_iff as]

theorem beqItems_iff : ∀ as bs : List Payload, beqItems as bs = true ↔ as = bs
  | [], bs => by cases bs <;> simp [beqItems]
  | a :: as, bs => by
    cases bs with
    | nil => simp [beqItems]
    | cons b bs => simp [beqItems, beq_iff a, beqItems_iff as]

theorem beqFields_iff : ∀ as bs : List (String × Payload), beqFields as bs = true ↔ as = bs
  | [], bs => by cases bs <;> simp [beqFields]
  | (k, a) :: as, bs => by
    cases bs with
    | nil => simp [beqFields]
    | cons b bs => simp [beqFields, beq_iff a, beqFields_iff as, Prod.ext_iff]

end

instance : DecidableEq Payload := fun a b => decidable_of_iff _ (beq_iff a b)

/-! ### Documents as payloads -/

/-- Reads the value of a marked member. -/
def parseMember (key : String) : Json → Except PathError Expression
  | .string text => Expression.parse text
  | _ => .error (.malformed key .expressionNotText)

mutual

/-- Reads a document as a payload. -/
def ofJson : Json → Except PathError Payload
  | .array items => (ofItems items).map .array
  | .object fields => (ofFields fields).map .object
  | scalar => .ok (.literal scalar)

/-- Reads the items of an array as payloads. -/
def ofItems : List Json → Except PathError (List Payload)
  | [] => .ok []
  | item :: items => do return (← ofJson item) :: (← ofItems items)

/-- Reads the members of an object as payloads. -/
def ofFields : List (String × Json) → Except PathError (List (String × Payload))
  | [] => .ok []
  | (key, value) :: fields => do
    let field ← match unmarked? key with
      | some name => (parseMember key value).map fun e => (name, Payload.expression e)
      | none => (ofJson value).map fun p => (key, p)
    return field :: (← ofFields fields)

end

mutual

/-- The document that a payload is read from. -/
def toJson : Payload → Json
  | .literal value => value
  | .expression e => .string e.text
  | .array items => .array (toItems items)
  | .object fields => .object (toFields fields [])

/-- The documents that payloads are read from. -/
def toItems : List Payload → List Json
  | [] => []
  | item :: items => toJson item :: toItems items

/-- Adds the members that payloads are read from to those of an object. -/
def toFields : List (String × Payload) → List (String × Json) → List (String × Json)
  | [], acc => acc
  | (key, .expression e) :: fields, acc =>
    toFields fields (Json.insert (marked key) (.string e.text) acc)
  | (key, field) :: fields, acc => toFields fields (Json.insert key (toJson field) acc)

end

/-! ### Meaning -/

mutual

/-- The value of a payload on a document. -/
def resolve (doc : Json) : Payload → Except EvalError Json
  | .literal value => .ok value
  | .expression e => e.evaluate doc
  | .array items => (resolveItems doc items).map .array
  | .object fields => (resolveFields doc fields []).map .object

/-- The values of payloads on a document. -/
def resolveItems (doc : Json) : List Payload → Except EvalError (List Json)
  | [] => .ok []
  | item :: items => do return (← resolve doc item) :: (← resolveItems doc items)

/-- Adds the values of members to those of an object. -/
def resolveFields (doc : Json) :
    List (String × Payload) → List (String × Json) → Except EvalError (List (String × Json))
  | [], acc => .ok acc
  | (key, field) :: fields, acc => do
    let value ← resolve doc field
    resolveFields doc fields (Json.insert key value acc)

end

mutual

/-- The paths that a payload refers to, in order. -/
def references : Payload → List Path
  | .literal _ => []
  | .expression e => e.references
  | .array items => itemReferences items
  | .object fields => fieldReferences fields

/-- The paths that payloads refer to, in order. -/
def itemReferences : List Payload → List Path
  | [] => []
  | item :: items => references item ++ itemReferences items

/-- The paths that members refer to, in order. -/
def fieldReferences : List (String × Payload) → List Path
  | [] => []
  | (_, field) :: fields => references field ++ fieldReferences fields

end

end Payload

end Conveyor
