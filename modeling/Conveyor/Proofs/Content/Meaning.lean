import Conveyor.Proofs.Content.Payloads

/-!
# The meaning of payloads

The value of a payload is the document that it was read from with each marked member replaced by one
that holds the value of its expression (`Payload.filled`). Such a member takes the place of a member
that has the same key without a mark. The expressions are evaluated in the order in which they stand
in the document, so the first of them that has no value tells why the payload has none
(`Payload.resolve_meaning`).
-/

namespace Conveyor

/-! ### Members that are set in turn -/

namespace Json

variable {name key : String} {a b : Json} {fields added : List (String × Json)}

/-- Members with others set one after another. -/
def overlay (fields added : List (String × Json)) : List (String × Json) :=
  added.foldl (fun acc (k, v) => insert k v acc) fields

theorem overlay_insert (h : name ∉ added.map Prod.fst) :
    overlay (insert name a fields) added = insert name a (overlay fields added) := by
  induction added generalizing fields with
  | nil => rfl
  | cons e added ih =>
    obtain ⟨k, v⟩ := e
    obtain ⟨hne, hrest⟩ := not_or.mp (mt List.mem_cons.mpr h)
    have hcomm : insert k v (insert name a fields) = insert name a (insert k v fields) :=
      insert_comm (Ne.symm hne)
    show overlay (insert k v (insert name a fields)) added = _
    rw [hcomm, ih hrest]
    rfl

theorem overlay_of_forall_lt (hkeys : (added.map Prod.fst).Pairwise (· < ·))
    (h : ∀ e ∈ fields, ∀ k ∈ added.map Prod.fst, e.1 < k) :
    overlay fields added = fields ++ added := by
  induction added generalizing fields with
  | nil => exact (List.append_nil fields).symm
  | cons e added ih =>
    obtain ⟨k, v⟩ := e
    obtain ⟨hfirst, hlater⟩ := List.pairwise_cons.mp hkeys
    obtain ⟨hlast, hfields⟩ := insert_greatest v hfirst h
    show overlay (insert k v fields) added = _
    rw [hlast, ih hlater hfields, List.append_assoc, List.singleton_append]

/-- Members in order are what setting them one after another comes to. -/
theorem overlay_nil (hkeys : (added.map Prod.fst).Pairwise (· < ·)) : overlay [] added = added :=
  overlay_of_forall_lt hkeys fun _ he => absurd he List.not_mem_nil

end Json

namespace Payload

variable {key name : String} {doc v : Json} {p : Payload} {value : Expression → Json}

/-! ### Expressions of a document -/

mutual

/-- The expressions in a document, in the order in which they stand there. -/
def expressionsIn : Json → List Expression
  | .array items => itemExpressionsIn items
  | .object fields => memberExpressionsIn fields
  | _ => []

/-- The expressions in documents. -/
def itemExpressionsIn : List Json → List Expression
  | [] => []
  | item :: items => expressionsIn item ++ itemExpressionsIn items

/-- The expressions in members: that of a marked member, and those in the value of another one. -/
def memberExpressionsIn : List (String × Json) → List Expression
  | [] => []
  | (key, v) :: fields =>
    (match unmarked? key with
      | some _ => (parseMember key v).toOption.toList
      | none => expressionsIn v) ++ memberExpressionsIn fields

end

/-! ### Documents filled in -/

/-- The members that the marked members stand for. -/
def computedMembers (value : Expression → Json) (fields : List (String × Json)) :
    List (String × Json) :=
  fields.filterMap fun (key, v) => do
    let name ← unmarked? key
    let e ← (parseMember key v).toOption
    return (name, value e)

mutual

/-- A document with the values of its expressions filled in. A computed member takes the place of a
literal one. -/
def filled (value : Expression → Json) : Json → Json
  | .array items => .array (filledItems value items)
  | .object fields =>
    .object (Json.overlay (literalMembers value fields) (computedMembers value fields))
  | scalar => scalar

/-- Documents with the values of their expressions filled in. -/
def filledItems (value : Expression → Json) : List Json → List Json
  | [] => []
  | item :: items => filled value item :: filledItems value items

/-- The members without a mark, filled in. -/
def literalMembers (value : Expression → Json) : List (String × Json) → List (String × Json)
  | [] => []
  | (key, v) :: fields =>
    match unmarked? key with
    | some _ => literalMembers value fields
    | none => (key, filled value v) :: literalMembers value fields

end

section Members

variable {fields : List (String × Json)} {e : Expression}

theorem memberExpressionsIn_marked (hmark : unmarked? key = some name)
    (hmember : parseMember key v = .ok e) :
    memberExpressionsIn ((key, v) :: fields) = e :: memberExpressionsIn fields := by
  simp only [memberExpressionsIn, hmark, hmember]
  rfl

theorem memberExpressionsIn_unmarked (hmark : unmarked? key = none) :
    memberExpressionsIn ((key, v) :: fields) = expressionsIn v ++ memberExpressionsIn fields := by
  simp only [memberExpressionsIn, hmark]

theorem computedMembers_marked (hmark : unmarked? key = some name)
    (hmember : parseMember key v = .ok e) :
    computedMembers value ((key, v) :: fields) =
      (name, value e) :: computedMembers value fields := by
  simp only [computedMembers, List.filterMap_cons, hmark, hmember]
  rfl

theorem computedMembers_unmarked (hmark : unmarked? key = none) :
    computedMembers value ((key, v) :: fields) = computedMembers value fields := by
  simp only [computedMembers, List.filterMap_cons, hmark]
  rfl

theorem literalMembers_marked (hmark : unmarked? key = some name) :
    literalMembers value ((key, v) :: fields) = literalMembers value fields := by
  simp only [literalMembers, hmark]

theorem literalMembers_unmarked (hmark : unmarked? key = none) :
    literalMembers value ((key, v) :: fields) =
      (key, filled value v) :: literalMembers value fields := by
  simp only [literalMembers, hmark]

theorem map_fst_literalMembers_sublist :
    ((literalMembers value fields).map Prod.fst).Sublist (fields.map Prod.fst) := by
  induction fields with
  | nil => exact .slnil
  | cons e fields ih =>
    obtain ⟨key, v⟩ := e
    cases hmark : unmarked? key with
    | some name =>
      rw [literalMembers_marked hmark]
      exact ih.cons key
    | none =>
      rw [literalMembers_unmarked hmark]
      exact ih.cons_cons key

theorem lt_of_unmarked? (h : unmarked? key = some name) : name < key := by
  rw [← marked_of_unmarked? h, String.lt_iff_toList_lt, marked, String.toList_ofList]
  conv_lhs => rw [← List.append_nil name.toList]
  exact List.append_left_lt (by decide)

end Members

/-! ### Values -/

mutual

/-- The value of a payload is its document filled in, if each expression in it has a value; if not,
the first one that has none tells why. -/
theorem resolve_eq (doc : Json) : ∀ {v : Json} {p : Payload}, v.Sorted → ofJson v = .ok p →
    (∀ e ∈ expressionsIn v, ∀ x, e.evaluate doc = .ok x → value e = x) →
      p.resolve doc = ((expressionsIn v).mapM (Expression.evaluate doc)).map fun _ => filled value v
  | .null, p, _, h, _ | .bool _, p, _, h, _ | .number _, p, _, h, _ | .string _, p, _, h, _ => by
    obtain rfl := Except.ok.inj h
    rfl
  | .array items, p, hsorted, h, hvalue => by
    obtain ⟨ps, hps, rfl⟩ := Except.map_eq_ok.mp h
    rw [resolve, resolveItems_eq doc hsorted hps hvalue, expressionsIn]
    cases (itemExpressionsIn items).mapM (Expression.evaluate doc) <;> rfl
  | .object fields, p, hsorted, h, hvalue => by
    obtain ⟨ps, hps, rfl⟩ := Except.map_eq_ok.mp h
    have hliteral : Json.overlay [] (literalMembers value fields) = literalMembers value fields :=
      Json.overlay_nil (hsorted.1.sublist map_fst_literalMembers_sublist)
    rw [resolve, resolveFields_eq doc hsorted.1 hsorted.2 hps hvalue, expressionsIn, hliteral]
    cases (memberExpressionsIn fields).mapM (Expression.evaluate doc) <;> rfl

theorem resolveItems_eq (doc : Json) : ∀ {items : List Json} {ps : List Payload},
    Json.SortedItems items → ofItems items = .ok ps →
    (∀ e ∈ itemExpressionsIn items, ∀ x, e.evaluate doc = .ok x → value e = x) →
      resolveItems doc ps = ((itemExpressionsIn items).mapM (Expression.evaluate doc)).map
        fun _ => filledItems value items
  | [], ps, _, h, _ => by
    obtain rfl := Except.ok.inj h
    rfl
  | item :: items, ps, hsorted, h, hvalue => by
    obtain ⟨p, hp, hrest⟩ := Except.bind_eq_ok.mp h
    obtain ⟨ps', hps', hok⟩ := Except.bind_eq_ok.mp hrest
    obtain rfl := Except.ok.inj hok
    obtain ⟨hvalue₁, hvalue₂⟩ := List.forall_mem_append.mp hvalue
    rw [resolveItems, resolve_eq doc hsorted.1 hp hvalue₁,
      resolveItems_eq doc hsorted.2 hps' hvalue₂, itemExpressionsIn, List.mapM_append]
    cases (expressionsIn item).mapM (Expression.evaluate doc) with
    | error => rfl
    | ok => cases (itemExpressionsIn items).mapM (Expression.evaluate doc) <;> rfl

/-- The literal members are set before the computed ones, as though they stood first. -/
theorem resolveFields_eq (doc : Json) : ∀ {fields acc : List (String × Json)}
    {ps : List (String × Payload)},
    (fields.map Prod.fst).Pairwise (· < ·) → Json.SortedFields fields → ofFields fields = .ok ps →
    (∀ e ∈ memberExpressionsIn fields, ∀ x, e.evaluate doc = .ok x → value e = x) →
      resolveFields doc ps acc = ((memberExpressionsIn fields).mapM (Expression.evaluate doc)).map
        fun _ => Json.overlay (Json.overlay acc (literalMembers value fields))
          (computedMembers value fields)
  | [], acc, ps, _, _, h, _ => by
    obtain rfl := Except.ok.inj h
    rfl
  | (key, v) :: fields, acc, ps, hkeys, hsorted, h, hvalue => by
    obtain ⟨hfirst, hlater⟩ := List.pairwise_cons.mp hkeys
    rcases ofFields_cases h with
      ⟨name, e, ps', hmark, hmember, hps', rfl⟩ | ⟨p, ps', hmark, hp, hps', rfl⟩
    · rw [memberExpressionsIn_marked hmark hmember] at hvalue ⊢
      obtain ⟨hvalue₁, hvalue₂⟩ := List.forall_mem_cons.mp hvalue
      rw [resolveFields, resolve, computedMembers_marked hmark hmember, literalMembers_marked hmark,
        List.mapM_cons]
      cases hx : e.evaluate doc with
      | error => rfl
      | ok x =>
        -- the keys of the members that follow are greater than that of the computed one
        have hname : name ∉ (literalMembers value fields).map Prod.fst := fun hmem =>
          lt_irrefl name ((lt_of_unmarked? hmark).trans
            (hfirst name (map_fst_literalMembers_sublist.subset hmem)))
        have hset : Json.overlay (Json.overlay (Json.insert name x acc)
              (literalMembers value fields)) (computedMembers value fields) =
            Json.overlay (Json.overlay acc (literalMembers value fields))
              ((name, value e) :: computedMembers value fields) := by
          rw [Json.overlay_insert hname, hvalue₁ x hx]
          rfl
        rw [← hset]
        refine (resolveFields_eq doc hlater hsorted.2 hps' hvalue₂).trans ?_
        cases (memberExpressionsIn fields).mapM (Expression.evaluate doc) <;> rfl
    · rw [memberExpressionsIn_unmarked hmark] at hvalue ⊢
      obtain ⟨hvalue₁, hvalue₂⟩ := List.forall_mem_append.mp hvalue
      rw [resolveFields, resolve_eq doc hsorted.1 hp hvalue₁, computedMembers_unmarked hmark,
        literalMembers_unmarked hmark, List.mapM_append]
      cases (expressionsIn v).mapM (Expression.evaluate doc) with
      | error => rfl
      | ok =>
        refine (resolveFields_eq doc hlater hsorted.2 hps' hvalue₂).trans ?_
        cases (memberExpressionsIn fields).mapM (Expression.evaluate doc) <;> rfl

end

/-! ### Documents without marks -/

mutual

/-- No key has the mark, at any depth. -/
def Unmarked : Json → Prop
  | .array items => UnmarkedItems items
  | .object fields => UnmarkedFields fields
  | _ => True

/-- No key in documents has the mark. -/
def UnmarkedItems : List Json → Prop
  | [] => True
  | item :: items => Unmarked item ∧ UnmarkedItems items

/-- No key of members has the mark, and none in their values. -/
def UnmarkedFields : List (String × Json) → Prop
  | [] => True
  | (key, v) :: fields => unmarked? key = none ∧ Unmarked v ∧ UnmarkedFields fields

end

mutual

/-- There is nothing to fill in a document without marks. -/
theorem filled_of_unmarked : ∀ {v : Json}, Unmarked v → expressionsIn v = [] ∧ filled value v = v
  | .null, _ | .bool _, _ | .number _, _ | .string _, _ => ⟨rfl, rfl⟩
  | .array _, h => (filledItems_of_unmarked h).imp id (congrArg Json.array)
  | .object _, h => by
    obtain ⟨hexpressions, hliteral, hcomputed⟩ := members_of_unmarked h
    refine ⟨hexpressions, ?_⟩
    rw [filled, hliteral, hcomputed]
    rfl

theorem filledItems_of_unmarked : ∀ {items : List Json}, UnmarkedItems items →
    itemExpressionsIn items = [] ∧ filledItems value items = items
  | [], _ => ⟨rfl, rfl⟩
  | _ :: _, h => by
    obtain ⟨hfirst, hfilled⟩ := filled_of_unmarked h.1
    obtain ⟨hrest, hitems⟩ := filledItems_of_unmarked h.2
    rw [itemExpressionsIn, filledItems, hfirst, hfilled, hrest, hitems]
    exact ⟨rfl, rfl⟩

theorem members_of_unmarked : ∀ {fields : List (String × Json)}, UnmarkedFields fields →
    memberExpressionsIn fields = [] ∧ literalMembers value fields = fields ∧
      computedMembers value fields = []
  | [], _ => ⟨rfl, rfl, rfl⟩
  | _ :: _, h => by
    obtain ⟨hmark, hv, hfields⟩ := h
    obtain ⟨hfirst, hfilled⟩ := filled_of_unmarked hv
    obtain ⟨hrest, hliteral, hcomputed⟩ := members_of_unmarked hfields
    rw [memberExpressionsIn_unmarked hmark, literalMembers_unmarked hmark,
      computedMembers_unmarked hmark, hfirst, hfilled, hrest, hliteral, hcomputed]
    exact ⟨rfl, rfl, rfl⟩

end

/-- A payload has a value if and only if each expression in its document has one, and the value is
the document filled in. Otherwise the error is that of the first expression, in the order of the
document, that has none. A document without marks is its own value. -/
theorem resolve_meaning (hsorted : v.Sorted) (h : ofJson v = .ok p) (doc : Json) :
    ((∃ w, p.resolve doc = .ok w) ↔ ∀ e ∈ expressionsIn v, ∃ x, e.evaluate doc = .ok x) ∧
    (∀ value : Expression → Json, (∀ e ∈ expressionsIn v, e.evaluate doc = .ok (value e)) →
      p.resolve doc = .ok (filled value v)) ∧
    (∀ error, p.resolve doc = .error error ↔ ∃ before e after,
      expressionsIn v = before ++ e :: after ∧ (∀ e' ∈ before, ∃ x, e'.evaluate doc = .ok x) ∧
        e.evaluate doc = .error error) ∧
    (Unmarked v → p.resolve doc = .ok v) := by
  -- whatever is filled in for expressions without a value, it does not show
  obtain ⟨value, hvalue⟩ : ∃ value : Expression → Json, ∀ e ∈ expressionsIn v, ∀ x,
      e.evaluate doc = .ok x → value e = x := by
    refine ⟨fun e => (e.evaluate doc).toOption.getD .null, fun e _ x hx => ?_⟩
    simp only [hx]
    rfl
  have heq := resolve_eq doc hsorted h hvalue
  have hfilled : ∀ value : Expression → Json, (∀ e ∈ expressionsIn v,
      e.evaluate doc = .ok (value e)) → p.resolve doc = .ok (filled value v) := by
    intro value hvalue
    obtain ⟨xs, hxs⟩ := Except.exists_mapM_eq_ok_iff.mpr fun e he => ⟨value e, hvalue e he⟩
    rw [resolve_eq doc hsorted h fun e he x hx => Except.ok.inj ((hvalue e he).symm.trans hx), hxs]
    rfl
  refine ⟨?_, hfilled, fun error => ?_, fun hplain => ?_⟩
  · rw [← Except.exists_mapM_eq_ok_iff, heq]
    cases (expressionsIn v).mapM (Expression.evaluate doc) <;> simp [Except.map]
  · rw [← Except.mapM_eq_error_iff, heq]
    cases (expressionsIn v).mapM (Expression.evaluate doc) <;> simp [Except.map]
  · obtain ⟨hnone, hself⟩ : expressionsIn v = [] ∧ filled value v = v := filled_of_unmarked hplain
    have hok := hfilled value (hnone ▸ nofun)
    rwa [hself] at hok

/-- A document in which a computed member takes the place of a literal one. -/
def overridden : Json :=
  .object [("a", .null), ("a.$", .string "$.x"),
    ("b", .array [.object [("c.$", .string "\x7b$.y\x7d.txt")]]), ("d", .bool false)]

/-- The payload that it is read as. -/
def overriddenPayload : Payload :=
  .object [("a", .literal .null), ("a", .expression (.path ⟨[.key "x"]⟩)),
    ("b", .array [.object
      [("c", .expression (.format ⟨[.ref ⟨[.key "y"]⟩, .literal ".txt"]⟩))]]),
    ("d", .literal (.bool false))]

/-- Its value on a document, and why there is none on the empty one. -/
theorem resolve_overridden :
    (overridden.Sorted ∧ ofJson overridden = .ok overriddenPayload) ∧
      overriddenPayload.resolve (.object [("x", .bool true), ("y", .string "z")]) =
        .ok (.object [("a", .bool true), ("b", .array [.object [("c", .string "z.txt")]]),
          ("d", .bool false)]) ∧
      overriddenPayload.resolve (.object []) = .error (.path (.notFound ⟨[.key "x"]⟩)) := by
  have hinner : Json.Sorted (.object [("c.$", .string "\x7b$.y\x7d.txt")]) :=
    ⟨List.pairwise_singleton _ _, trivial, trivial⟩
  have hsorted : overridden.Sorted :=
    ⟨by decide, trivial, trivial, ⟨hinner, trivial⟩, trivial, trivial⟩
  have hread : ofJson overridden = .ok overriddenPayload :=
    Except.toOption_eq_some.mp (by decide +kernel)
  have hexpressions : expressionsIn overridden =
      [.path ⟨[.key "x"]⟩, .format ⟨[.ref ⟨[.key "y"]⟩, .literal ".txt"]⟩] := by
    decide +kernel
  refine ⟨⟨hsorted, hread⟩, ?_, ?_⟩
  · -- the values of the two expressions
    let value : Expression → Json := fun e =>
      if e = .path ⟨[.key "x"]⟩ then .bool true else .string "z.txt"
    have hvalue := (resolve_meaning hsorted hread
      (.object [("x", .bool true), ("y", .string "z")])).2.1 value (by decide +kernel)
    rw [hvalue]
    decide +kernel
  · have hfails := (resolve_meaning hsorted hread (.object [])).2.2.1
    exact (hfails _).mpr ⟨[], _, _, hexpressions, nofun, by decide +kernel⟩

end Payload

end Conveyor
