import Conveyor.Payload
import Conveyor.Proofs.Content.Documents
import Conveyor.Proofs.Expression.Reading

/-!
# Payloads that are read back

The document of a payload has the members of the document that the payload was read from, in the
same order and with the same keys: an expression goes back under the key with the mark. Only the
texts of the expressions are written anew (`Payload.respell`). So the payload is read back from it
if and only if each of its expressions is read back from its text (`Payload.toJson_preserves`).
-/

namespace Conveyor

namespace Payload

variable {key name : String} {doc : Json} {p : Payload}

/-! ### Expressions of a payload -/

mutual

/-- The expressions in a payload, at any depth. -/
def expressions : Payload → List Expression
  | .literal _ => []
  | .expression e => [e]
  | .array items => itemExpressions items
  | .object fields => fieldExpressions fields

/-- The expressions in payloads. -/
def itemExpressions : List Payload → List Expression
  | [] => []
  | item :: items => expressions item ++ itemExpressions items

/-- The expressions in the values of members. -/
def fieldExpressions : List (String × Payload) → List Expression
  | [] => []
  | (_, field) :: fields => expressions field ++ fieldExpressions fields

end

/-! ### Marks -/

theorem marked_of_unmarked? (h : unmarked? key = some name) : marked name = key := by
  obtain ⟨cs, hcs, rfl⟩ := Option.map_eq_some_iff.mp h
  rw [marked, String.toList_ofList, ← Text.eq_append_of_beforeEnd? hcs, String.ofList_toList]

/-- An expression is read from a marked member only. -/
theorem ofJson_ne_expression {e : Expression} : ofJson doc ≠ .ok (.expression e) := by
  cases doc with
  | array items =>
    intro h
    obtain ⟨ps, -, hp⟩ := Except.map_eq_ok.mp h
    cases hp
  | object fields =>
    intro h
    obtain ⟨ps, -, hp⟩ := Except.map_eq_ok.mp h
    cases hp
  | _ => nofun

theorem toFields_cons (hp : ∀ e, p ≠ .expression e) (fields : List (String × Payload))
    (acc : List (String × Json)) :
    toFields ((key, p) :: fields) acc = toFields fields (Json.insert key p.toJson acc) := by
  cases p with
  | expression e => exact absurd rfl (hp e)
  | _ =>
    rw [toFields]
    nofun

/-! ### Members -/

section Members

variable {value : Json} {fields : List (String × Json)} {ps : List (String × Payload)}
  {e : Expression}

theorem ofFields_marked_iff (hmark : unmarked? key = some name) :
    ofFields ((key, value) :: fields) = .ok ((name, .expression e) :: ps) ↔
      parseMember key value = .ok e ∧ ofFields fields = .ok ps := by
  simp only [ofFields, hmark, Except.bind_eq_ok, Except.map_eq_ok]
  constructor
  · rintro ⟨_, ⟨e', he', rfl⟩, ps', hps', hok⟩
    obtain ⟨hfield, rfl⟩ := List.cons.inj (Except.ok.inj hok)
    obtain rfl := Payload.expression.inj (Prod.mk.inj hfield).2
    exact ⟨he', hps'⟩
  · rintro ⟨he, hps⟩
    exact ⟨_, ⟨e, he, rfl⟩, ps, hps, rfl⟩

theorem ofFields_unmarked_iff (hmark : unmarked? key = none) :
    ofFields ((key, value) :: fields) = .ok ((key, p) :: ps) ↔
      ofJson value = .ok p ∧ ofFields fields = .ok ps := by
  simp only [ofFields, hmark, Except.bind_eq_ok, Except.map_eq_ok]
  constructor
  · rintro ⟨_, ⟨p', hp', rfl⟩, ps', hps', hok⟩
    obtain ⟨hfield, rfl⟩ := List.cons.inj (Except.ok.inj hok)
    obtain rfl := (Prod.mk.inj hfield).2
    exact ⟨hp', hps'⟩
  · rintro ⟨hp, hps⟩
    exact ⟨_, ⟨p, hp, rfl⟩, ps, hps, rfl⟩

/-- A member is read as an expression or as a payload, depending on its key. -/
theorem ofFields_cases (h : ofFields ((key, value) :: fields) = .ok ps) :
    (∃ name e ps', unmarked? key = some name ∧ parseMember key value = .ok e ∧
      ofFields fields = .ok ps' ∧ ps = (name, .expression e) :: ps') ∨
    ∃ p ps', unmarked? key = none ∧ ofJson value = .ok p ∧ ofFields fields = .ok ps' ∧
      ps = (key, p) :: ps' := by
  rw [ofFields] at h
  cases hmark : unmarked? key with
  | some name =>
    simp only [hmark] at h
    obtain ⟨field, hfield, hrest⟩ := Except.bind_eq_ok.mp h
    obtain ⟨ps', hps', hok⟩ := Except.bind_eq_ok.mp hrest
    obtain ⟨e, he, rfl⟩ := Except.map_eq_ok.mp hfield
    exact .inl ⟨name, e, ps', rfl, he, hps', (Except.ok.inj hok).symm⟩
  | none =>
    simp only [hmark] at h
    obtain ⟨field, hfield, hrest⟩ := Except.bind_eq_ok.mp h
    obtain ⟨ps', hps', hok⟩ := Except.bind_eq_ok.mp hrest
    obtain ⟨p, hp, rfl⟩ := Except.map_eq_ok.mp hfield
    exact .inr ⟨p, ps', rfl, hp, hps', (Except.ok.inj hok).symm⟩

end Members

/-! ### Reading -/

mutual

/-- The expressions of a payload that has been read have been read themselves. -/
theorem exists_parse_eq : ∀ {doc : Json} {p : Payload} {e : Expression}, ofJson doc = .ok p →
    e ∈ p.expressions → ∃ text, Expression.parse text = .ok e
  | .null, p, e, h, he | .bool _, p, e, h, he | .number _, p, e, h, he
  | .string _, p, e, h, he => by
    obtain rfl := Except.ok.inj h
    cases he
  | .array items, p, e, h, he => by
    obtain ⟨ps, hps, rfl⟩ := Except.map_eq_ok.mp h
    exact exists_parse_eq_of_items hps he
  | .object fields, p, e, h, he => by
    obtain ⟨ps, hps, rfl⟩ := Except.map_eq_ok.mp h
    exact exists_parse_eq_of_fields hps he

theorem exists_parse_eq_of_items : ∀ {items : List Json} {ps : List Payload} {e : Expression},
    ofItems items = .ok ps → e ∈ itemExpressions ps → ∃ text, Expression.parse text = .ok e
  | [], ps, e, h, he => by
    obtain rfl := Except.ok.inj h
    cases he
  | item :: items, ps, e, h, he => by
    obtain ⟨p, hp, hrest⟩ := Except.bind_eq_ok.mp h
    obtain ⟨ps', hps', hok⟩ := Except.bind_eq_ok.mp hrest
    obtain rfl := Except.ok.inj hok
    rcases List.mem_append.mp he with he | he
    · exact exists_parse_eq hp he
    · exact exists_parse_eq_of_items hps' he

theorem exists_parse_eq_of_fields : ∀ {fields : List (String × Json)} {ps : List (String × Payload)}
    {e : Expression}, ofFields fields = .ok ps → e ∈ fieldExpressions ps →
      ∃ text, Expression.parse text = .ok e
  | [], ps, e, h, he => by
    obtain rfl := Except.ok.inj h
    cases he
  | (key, value) :: fields, ps, e, h, he => by
    rcases ofFields_cases h with ⟨name, e', ps', -, hmember, hps', rfl⟩ | ⟨p, ps', -, hp, hps', rfl⟩
    · rcases List.mem_append.mp he with he | he
      · obtain rfl := List.mem_singleton.mp he
        cases value with
        | string text => exact ⟨text, hmember⟩
        | _ => cases hmember
      · exact exists_parse_eq_of_fields hps' he
    · rcases List.mem_append.mp he with he | he
      · exact exists_parse_eq hp he
      · exact exists_parse_eq_of_fields hps' he

end

/-! ### Texts written anew -/

/-- The value of a marked member, with the text of its expression written anew. -/
def respellMember (key : String) (value : Json) : Json :=
  match parseMember key value with
  | .ok e => .string e.text
  | .error _ => value

mutual

/-- A document with the texts of its expressions written anew, and everything else as it was. -/
def respell : Json → Json
  | .array items => .array (respellItems items)
  | .object fields => .object (respellFields fields)
  | scalar => scalar

/-- Documents with the texts of their expressions written anew. -/
def respellItems : List Json → List Json
  | [] => []
  | item :: items => respell item :: respellItems items

/-- Members with the texts of their expressions written anew. -/
def respellFields : List (String × Json) → List (String × Json)
  | [] => []
  | (key, value) :: fields =>
    (key, match unmarked? key with
      | some _ => respellMember key value
      | none => respell value) :: respellFields fields

end

section Respell

variable {value : Json} {fields : List (String × Json)} {e : Expression}

theorem respellFields_marked (hmark : unmarked? key = some name)
    (hmember : parseMember key value = .ok e) :
    respellFields ((key, value) :: fields) = (key, .string e.text) :: respellFields fields := by
  simp only [respellFields, hmark, respellMember, hmember]

theorem respellFields_unmarked (hmark : unmarked? key = none) :
    respellFields ((key, value) :: fields) = (key, respell value) :: respellFields fields := by
  simp only [respellFields, hmark]

theorem map_fst_respellFields : (respellFields fields).map Prod.fst = fields.map Prod.fst := by
  induction fields with
  | nil => rfl
  | cons e fields ih => rw [respellFields, List.map_cons, List.map_cons, ih]

end Respell

mutual

theorem sorted_respell : ∀ {doc : Json}, doc.Sorted → (respell doc).Sorted
  | .null, _ | .bool _, _ | .number _, _ | .string _, _ => trivial
  | .array _, h => sortedItems_respellItems h
  | .object fields, h => by
    refine ⟨?_, sortedFields_respellFields h.2⟩
    rw [map_fst_respellFields]
    exact h.1

theorem sortedItems_respellItems : ∀ {items : List Json}, Json.SortedItems items →
    Json.SortedItems (respellItems items)
  | [], _ => trivial
  | _ :: _, h => ⟨sorted_respell h.1, sortedItems_respellItems h.2⟩

theorem sortedFields_respellFields : ∀ {fields : List (String × Json)}, Json.SortedFields fields →
    Json.SortedFields (respellFields fields)
  | [], _ => trivial
  | (key, value) :: fields, h => by
    refine ⟨?_, sortedFields_respellFields h.2⟩
    cases unmarked? key with
    | none => exact sorted_respell h.1
    | some name =>
      show (respellMember key value).Sorted
      rw [respellMember]
      split
      · trivial
      · exact h.1

end

mutual

/-- The document of a payload is the one that it was read from, but for the texts of expressions. -/
theorem toJson_eq_respell : ∀ {doc : Json} {p : Payload}, doc.Sorted → ofJson doc = .ok p →
    p.toJson = respell doc
  | .null, p, _, h | .bool _, p, _, h | .number _, p, _, h | .string _, p, _, h => by
    obtain rfl := Except.ok.inj h
    rfl
  | .array items, p, hsorted, h => by
    obtain ⟨ps, hps, rfl⟩ := Except.map_eq_ok.mp h
    exact congrArg Json.array (toItems_eq_respellItems hsorted hps)
  | .object fields, p, hsorted, h => by
    obtain ⟨ps, hps, rfl⟩ := Except.map_eq_ok.mp h
    exact congrArg Json.object
      (toFields_eq_append hsorted.1 hsorted.2 hps fun _ he => absurd he List.not_mem_nil)

theorem toItems_eq_respellItems : ∀ {items : List Json} {ps : List Payload},
    Json.SortedItems items → ofItems items = .ok ps → toItems ps = respellItems items
  | [], ps, _, h => by
    obtain rfl := Except.ok.inj h
    rfl
  | item :: items, ps, hsorted, h => by
    obtain ⟨p, hp, hrest⟩ := Except.bind_eq_ok.mp h
    obtain ⟨ps', hps', hok⟩ := Except.bind_eq_ok.mp hrest
    obtain rfl := Except.ok.inj hok
    rw [toItems, respellItems, toJson_eq_respell hsorted.1 hp,
      toItems_eq_respellItems hsorted.2 hps']

/-- The members are added one after another at the end, since each has the greatest key so far. -/
theorem toFields_eq_append : ∀ {fields acc : List (String × Json)} {ps : List (String × Payload)},
    (fields.map Prod.fst).Pairwise (· < ·) → Json.SortedFields fields → ofFields fields = .ok ps →
    (∀ e ∈ acc, ∀ k ∈ fields.map Prod.fst, e.1 < k) →
      toFields ps acc = acc ++ respellFields fields
  | [], acc, ps, _, _, h, _ => by
    obtain rfl := Except.ok.inj h
    rw [toFields, respellFields, List.append_nil]
  | (key, value) :: fields, acc, ps, hkeys, hsorted, h, hacc => by
    obtain ⟨hfirst, hlater⟩ := List.pairwise_cons.mp hkeys
    -- under the mark or without it, the member goes back under the key that it had
    have happend {value' : Json} {ps' : List (String × Payload)}
        (hps' : ofFields fields = .ok ps') :
        toFields ps' (Json.insert key value' acc) =
          acc ++ (key, value') :: respellFields fields := by
      obtain ⟨hlast, hacc'⟩ := Json.insert_greatest value' hfirst hacc
      rw [hlast, toFields_eq_append hlater hsorted.2 hps' hacc', List.append_assoc,
        List.singleton_append]
    rcases ofFields_cases h with
      ⟨name, e, ps', hmark, hmember, hps', rfl⟩ | ⟨p, ps', hmark, hp, hps', rfl⟩
    · rw [toFields, marked_of_unmarked? hmark, happend hps', respellFields_marked hmark hmember]
    · have hne : ∀ e, p ≠ .expression e := by
        rintro e rfl
        exact ofJson_ne_expression hp
      rw [toFields_cons hne, happend hps', respellFields_unmarked hmark,
        toJson_eq_respell hsorted.1 hp]

end

mutual

/-- A payload is read back from its document if and only if its expressions are read back. -/
theorem ofJson_respell_iff : ∀ {doc : Json} {p : Payload}, ofJson doc = .ok p →
    (ofJson (respell doc) = .ok p ↔ ∀ e ∈ p.expressions, Expression.parse e.text = .ok e)
  | .null, p, h | .bool _, p, h | .number _, p, h | .string _, p, h => by
    obtain rfl := Except.ok.inj h
    exact ⟨fun _ => nofun, fun _ => rfl⟩
  | .array items, p, h => by
    obtain ⟨ps, hps, rfl⟩ := Except.map_eq_ok.mp h
    exact (Except.map_eq_ok_iff fun _ _ => Payload.array.inj).trans (ofItems_respellItems_iff hps)
  | .object fields, p, h => by
    obtain ⟨ps, hps, rfl⟩ := Except.map_eq_ok.mp h
    exact (Except.map_eq_ok_iff fun _ _ => Payload.object.inj).trans
      (ofFields_respellFields_iff hps)

theorem ofItems_respellItems_iff : ∀ {items : List Json} {ps : List Payload},
    ofItems items = .ok ps →
    (ofItems (respellItems items) = .ok ps ↔
      ∀ e ∈ itemExpressions ps, Expression.parse e.text = .ok e)
  | [], ps, h => by
    obtain rfl := Except.ok.inj h
    exact ⟨fun _ => nofun, fun _ => rfl⟩
  | item :: items, ps, h => by
    obtain ⟨p, hp, hrest⟩ := Except.bind_eq_ok.mp h
    obtain ⟨ps', hps', hok⟩ := Except.bind_eq_ok.mp hrest
    obtain rfl := Except.ok.inj hok
    rw [itemExpressions, List.forall_mem_append, ← ofJson_respell_iff hp,
      ← ofItems_respellItems_iff hps', respellItems, ofItems]
    simp only [Except.bind_eq_ok]
    constructor
    · rintro ⟨q, hq, qs, hqs, hok⟩
      obtain ⟨rfl, rfl⟩ := List.cons.inj (Except.ok.inj hok)
      exact ⟨hq, hqs⟩
    · rintro ⟨hq, hqs⟩
      exact ⟨p, hq, ps', hqs, rfl⟩

theorem ofFields_respellFields_iff : ∀ {fields : List (String × Json)}
    {ps : List (String × Payload)}, ofFields fields = .ok ps →
    (ofFields (respellFields fields) = .ok ps ↔
      ∀ e ∈ fieldExpressions ps, Expression.parse e.text = .ok e)
  | [], ps, h => by
    obtain rfl := Except.ok.inj h
    exact ⟨fun _ => nofun, fun _ => rfl⟩
  | (key, value) :: fields, ps, h => by
    rcases ofFields_cases h with
      ⟨name, e, ps', hmark, hmember, hps', rfl⟩ | ⟨p, ps', hmark, hp, hps', rfl⟩
    · have hparse : parseMember key (.string e.text) = Expression.parse e.text := rfl
      rw [respellFields_marked hmark hmember, ofFields_marked_iff hmark, hparse,
        ofFields_respellFields_iff hps', fieldExpressions, expressions, List.singleton_append,
        List.forall_mem_cons]
    · rw [respellFields_unmarked hmark, ofFields_unmarked_iff hmark, ofJson_respell_iff hp,
        ofFields_respellFields_iff hps', fieldExpressions, List.forall_mem_append]

end

/-- A payload that has been read is read back from its document, which is sorted again. -/
theorem ofJson_toJson (hsorted : doc.Sorted) (h : ofJson doc = .ok p)
    (hread : ∀ e ∈ p.expressions, Expression.parse e.text = .ok e) :
    p.toJson.Sorted ∧ ofJson p.toJson = .ok p := by
  rw [toJson_eq_respell hsorted h]
  exact ⟨sorted_respell hsorted, (ofJson_respell_iff h).mpr hread⟩

/-- The document of a payload is the one that it was read from with the texts of its expressions
written anew, and the payload is read back from it if and only if each expression is from its
text. -/
theorem toJson_preserves (hsorted : doc.Sorted) (h : ofJson doc = .ok p) :
    p.toJson = respell doc ∧
      (ofJson p.toJson = .ok p ↔ ∀ e ∈ p.expressions, Expression.parse e.text = .ok e) := by
  rw [toJson_eq_respell hsorted h]
  exact ⟨rfl, ofJson_respell_iff h⟩

/-- A document with members whose keys differ in marks only, in which not all expressions are
written as they would be. -/
def markedKeys : Json :=
  .object [("a", .null), ("a.$", .string " $.x"), ("a.$.$", .string "$.y"),
    ("b", .array [.object [("c.$", .string "States.Format('z')")]])]

/-- The payload that it is read as. -/
def markedPayload : Payload :=
  .object [("a", .literal .null), ("a", .expression (.path ⟨[.key "x"]⟩)),
    ("a.$", .expression (.path ⟨[.key "y"]⟩)),
    ("b", .array [.object [("c", .expression (.format ⟨[.literal "z"]⟩))]])]

/-- All its members survive, and the payload is read back. -/
theorem toJson_markedPayload :
    (markedKeys.Sorted ∧ ofJson markedKeys = .ok markedPayload) ∧
      markedPayload.toJson = .object [("a", .null), ("a.$", .string "$.x"),
        ("a.$.$", .string "$.y"), ("b", .array [.object [("c.$", .string "z")]])] ∧
      ofJson markedPayload.toJson = .ok markedPayload := by
  have hinner : Json.Sorted (.object [("c.$", .string "States.Format('z')")]) :=
    ⟨List.pairwise_singleton _ _, trivial, trivial⟩
  have hsorted : markedKeys.Sorted :=
    ⟨by decide, trivial, trivial, trivial, ⟨hinner, trivial⟩, trivial⟩
  have hread : ofJson markedKeys = .ok markedPayload :=
    Except.toOption_eq_some.mp (by decide +kernel)
  obtain ⟨hdocument, hiff⟩ := toJson_preserves hsorted hread
  refine ⟨⟨hsorted, hread⟩, ?_, hiff.mpr ?_⟩
  · rw [hdocument]
    decide +kernel
  · decide +kernel

end Payload

end Conveyor
