import Conveyor.Decimal.Binary64

/-!
# JSON documents

The documents that steps pass on. An object is its list of members; `insert` keeps the members
sorted by key and never repeats a key, so that objects with the same members are equal. `Sorted`
says that all objects of a document are in that order.
-/

namespace Conveyor

/-- A number of a document: a whole number that fits a signed or an unsigned word, or a finite
floating-point number. The two are different documents, `1` and `1.0`. -/
inductive Number where
  | integer (value : Int) (inRange : -0x8000000000000000 ≤ value ∧ value < 0x10000000000000000)
  | real (value : Binary64) (finite : value.isFinite)
  deriving DecidableEq, Repr

/-- A JSON document. -/
inductive Json where
  | null
  | bool (value : Bool)
  | number (value : Number)
  | string (value : String)
  | array (items : List Json)
  | object (fields : List (String × Json))
  deriving Repr, Inhabited

/-- The kinds of document. -/
inductive Kind where
  | null
  | boolean
  | number
  | string
  | array
  | object
  deriving DecidableEq, Repr

/-- The name of a kind in messages. -/
def Kind.name : Kind → String
  | .null => "null"
  | .boolean => "boolean"
  | .number => "number"
  | .string => "string"
  | .array => "array"
  | .object => "object"

/-- The number of an integer, when it fits a word. -/
def Number.ofInt? (i : Int) : Option Number :=
  if h : -0x8000000000000000 ≤ i ∧ i < 0x10000000000000000 then some (.integer i h) else none

/-- The number of a floating-point number, when it is finite. -/
def Number.ofBinary64? (x : Binary64) : Option Number :=
  if h : x.isFinite then some (.real x h) else none

namespace Json

/-! ### Equality -/

mutual

/-- Whether two documents are equal. -/
def beq : Json → Json → Bool
  | .null, .null => true
  | .bool a, .bool b => a == b
  | .number a, .number b => a == b
  | .string a, .string b => a == b
  | .array as, .array bs => beqItems as bs
  | .object as, .object bs => beqFields as bs
  | _, _ => false

/-- Whether two lists of documents are equal. -/
def beqItems : List Json → List Json → Bool
  | [], [] => true
  | a :: as, b :: bs => beq a b && beqItems as bs
  | _, _ => false

/-- Whether two lists of members are equal. -/
def beqFields : List (String × Json) → List (String × Json) → Bool
  | [], [] => true
  | (k, a) :: as, (l, b) :: bs => k == l && beq a b && beqFields as bs
  | _, _ => false

end

mutual

theorem beq_iff : ∀ a b : Json, beq a b = true ↔ a = b
  | .null, b => by cases b <;> simp [beq]
  | .bool _, b => by cases b <;> simp [beq]
  | .number _, b => by cases b <;> simp [beq]
  | .string _, b => by cases b <;> simp [beq]
  | .array as, b => by cases b <;> simp [beq, beqItems_iff as]
  | .object as, b => by cases b <;> simp [beq, beqFields_iff as]

theorem beqItems_iff : ∀ as bs : List Json, beqItems as bs = true ↔ as = bs
  | [], bs => by cases bs <;> simp [beqItems]
  | a :: as, bs => by
    cases bs with
    | nil => simp [beqItems]
    | cons b bs => simp [beqItems, beq_iff a, beqItems_iff as]

theorem beqFields_iff : ∀ as bs : List (String × Json), beqFields as bs = true ↔ as = bs
  | [], bs => by cases bs <;> simp [beqFields]
  | (k, a) :: as, bs => by
    cases bs with
    | nil => simp [beqFields]
    | cons b bs => simp [beqFields, beq_iff a, beqFields_iff as, Prod.ext_iff]

end

instance : DecidableEq Json := fun a b => decidable_of_iff _ (beq_iff a b)

/-! ### Parts of documents -/

/-- The kind of a document. -/
def kind : Json → Kind
  | .null => .null
  | .bool _ => .boolean
  | .number _ => .number
  | .string _ => .string
  | .array _ => .array
  | .object _ => .object

/-- The value of the member with a key. -/
def lookup (key : String) : List (String × Json) → Option Json
  | [] => none
  | (k, v) :: fields => if k = key then some v else lookup key fields

/-- Sets the member with a key: its value is replaced, or the member is added before the first one
with a greater key. -/
def insert (key : String) (value : Json) : List (String × Json) → List (String × Json)
  | [] => [(key, value)]
  | (k, v) :: fields =>
    if k = key then (key, value) :: fields
    else if key < k then (key, value) :: (k, v) :: fields
    else (k, v) :: insert key value fields

/-- The object of a list of members; of several with one key the last counts. -/
def ofFields (fields : List (String × Json)) : Json :=
  .object (fields.foldl (fun acc (k, v) => insert k v acc) [])

/-- The member of an object; other documents have none. -/
def member? (key : String) : Json → Option Json
  | .object fields => lookup key fields
  | _ => none

/-- The text of a string. -/
def string? : Json → Option String
  | .string s => some s
  | _ => none

/-- The document of a natural number that fits a word. -/
def ofNat (n : Nat) : Json :=
  match Number.ofInt? n with
  | some word => .number word
  | none => .null

mutual

/-- All objects list their members by strictly increasing keys. -/
def Sorted : Json → Prop
  | .array items => SortedItems items
  | .object fields => (fields.map Prod.fst).Pairwise (· < ·) ∧ SortedFields fields
  | _ => True

/-- All objects in a list of documents are sorted. -/
def SortedItems : List Json → Prop
  | [] => True
  | item :: items => Sorted item ∧ SortedItems items

/-- All objects in the values of members are sorted. -/
def SortedFields : List (String × Json) → Prop
  | [] => True
  | (_, value) :: fields => Sorted value ∧ SortedFields fields

end

end Json

end Conveyor
