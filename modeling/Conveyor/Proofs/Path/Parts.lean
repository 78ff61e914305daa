import Conveyor.Path.Access
import Conveyor.Proofs.Content.Documents
import Conveyor.Proofs.Json.Members
import Conveyor.Proofs.Result

/-!
# Parts one segment down

`Json.part?` is the part of a document that a segment leads to, and `Json.setPart` is the document
with that part set. Reading and writing along a path take one such step for each segment
(`Json.follow_cons`, `Json.install_cons`), and what holds of reading and writing follows from how a
part that is set shows in the parts of the new document: it is the part that its own segment leads
to (`Json.part?_setPart_self`), and the other parts are as they were, but that the positions before
a new one hold `null` (`Json.part?_setPart_of_ne`). There is room for every part that is there, and
a part that is set leaves room for the same parts as before (`Json.overflow?_setPart`).
-/

namespace Conveyor

/-- The kind of document that a segment goes into. -/
def Segment.container : Segment → Kind
  | .key _ => .object
  | .index _ => .array

/-- The first of two segments is an earlier position in an array than the second one. -/
def Segment.Before : Segment → Segment → Prop
  | .index j, .index i => j < i
  | _, _ => False

namespace Segment

variable {s t : Segment}

theorem container_ne_null (s : Segment) : s.container ≠ .null := by
  cases s <;> nofun

theorem Before.container_eq (h : s.Before t) : s.container = t.container := by
  cases s with
  | key name => cases h
  | index j =>
    cases t with
    | key name => cases h
    | index i => rfl

/-- Different segments into one document are two keys or two positions. -/
theorem cases_of_ne (hst : s ≠ t) (h : s.container = t.container) :
    (∃ name other, s = .key name ∧ t = .key other ∧ other ≠ name) ∨
      ∃ i j, s = .index i ∧ t = .index j ∧ j.toNat ≠ i.toNat := by
  cases s with
  | key name =>
    cases t with
    | key other => exact .inl ⟨name, other, rfl, rfl, fun heq => hst (heq ▸ rfl)⟩
    | index j => cases h
  | index i =>
    cases t with
    | key other => cases h
    | index j =>
      exact .inr ⟨i, j, rfl, rfl, fun heq => hst (congrArg _ (UInt64.toNat_inj.mp heq).symm)⟩

end Segment

namespace Json

variable {doc child a b : Json} {s t : Segment}

/-! ### Items that are set -/

section Items

variable {items : List Json} {i j : Nat}

theorem getElem?_setItem : (setItem i a items)[j]? =
    if j = i then some a else items[j]?.or (if j < i then some .null else none) := by
  induction i generalizing items j with
  | zero => cases items <;> cases j <;> simp [setItem]
  | succ i ih => cases items <;> cases j <;> simp [setItem, ih]

theorem setItem_setItem_self : setItem i b (setItem i a items) = setItem i b items := by
  refine List.ext_getElem? fun j => ?_
  simp only [getElem?_setItem]
  by_cases hj : j = i
  · simp [hj]
  · by_cases hlt : j < i <;> simp [hj, hlt]

theorem setItem_of_getElem? (h : items[i]? = some child) : setItem i child items = items := by
  refine List.ext_getElem? fun j => ?_
  rw [getElem?_setItem]
  by_cases hj : j = i
  · rw [if_pos hj, hj, h]
  · have hlen : i < items.length := (List.getElem?_eq_some_iff.mp h).1
    by_cases hlt : j < i
    · rw [if_neg hj, List.getElem?_eq_getElem (hlt.trans hlen), Option.some_or]
    · rw [if_neg hj, if_neg hlt, Option.or_none]

theorem setItem_comm (h : i ≠ j) :
    setItem i a (setItem j b items) = setItem j b (setItem i a items) := by
  refine List.ext_getElem? fun k => ?_
  simp only [getElem?_setItem]
  by_cases hi : k = i
  · simp [hi, h]
  · by_cases hj : k = j
    · simp [hj, h.symm]
    · cases items[k]? with
      | some item => simp [hi, hj]
      | none => by_cases hki : k < i <;> by_cases hkj : k < j <;> simp [hi, hj, hki, hkj]

end Items

/-! ### The part that a segment leads to -/

/-- The members of an object; other documents have none. -/
def fields : Json → List (String × Json)
  | .object fields => fields
  | _ => []

/-- The items of an array; other documents have none. -/
def items : Json → List Json
  | .array items => items
  | _ => []

/-- The part of a document that a segment leads to. -/
def part? (doc : Json) : Segment → Option Json
  | .key name => doc.member? name
  | .index i => doc.items[i.toNat]?

/-- The document with the part that a segment leads to set. -/
def setPart (doc : Json) (s : Segment) (child : Json) : Json :=
  match s with
  | .key name => .object (insert name child doc.fields)
  | .index i => .array (setItem i.toNat child doc.items)

/-- There can be such a part as a segment leads to: the document is of the right kind, or `null`,
which becomes of any kind. -/
def Admits (doc : Json) (s : Segment) : Prop :=
  doc.kind = .null ∨ doc.kind = s.container

instance : Decidable (doc.Admits s) :=
  inferInstanceAs (Decidable (_ ∨ _))

/-- The panic of setting the part that a segment leads to, if there is no room for it. -/
def overflow? (doc : Json) : Segment → Option Panic
  | .key _ => none
  | .index i => if hasRoom i doc.items then none else some (overflow i)

/-- What is in the way of a segment in a document without such a part. -/
def obstacle (doc : Json) (s : Segment) : Obstacle :=
  if doc.kind = s.container then .absent else .wrongKind 0 s.container doc.kind

theorem member?_eq_lookup {name : String} : doc.member? name = lookup name doc.fields := by
  cases doc <;> rfl

theorem kind_setPart : (doc.setPart s child).kind = s.container := by
  cases s <;> rfl

theorem admits_setPart_iff : (doc.setPart s child).Admits t ↔ s.container = t.container := by
  rw [Admits, kind_setPart]
  exact or_iff_right s.container_ne_null

theorem Admits.of_container_eq (h : doc.Admits s) (heq : s.container = t.container) :
    doc.Admits t := by
  rwa [Admits, ← heq]

theorem kind_eq_container_of_part? (h : doc.part? s = some child) : doc.kind = s.container := by
  cases s with
  | key name =>
    cases doc with
    | object fields => rfl
    | _ => cases h
  | index i =>
    cases doc with
    | array items => rfl
    | _ => cases h

theorem part?_eq_none (h : doc.kind ≠ s.container) : doc.part? s = none :=
  Option.eq_none_iff_forall_ne_some.mpr fun _ hpart => h (kind_eq_container_of_part? hpart)

theorem part?_setPart_self : (doc.setPart s child).part? s = some child := by
  cases s with
  | key name => exact lookup_insert_self
  | index i => exact getElem?_setItem.trans (if_pos rfl)

theorem setPart_setPart_self : (doc.setPart s a).setPart s b = doc.setPart s b := by
  cases s with
  | key name => exact congrArg Json.object insert_insert_self
  | index i => exact congrArg Json.array setItem_setItem_self

/-- Another part of the new document is the one that was there, or `null` at a position that was not
there and comes before the new one. -/
theorem part?_setPart_of_ne (hdoc : doc.Admits s) (h : s ≠ t) :
    (doc.setPart s a).part? t = some b ↔
      doc.part? t = some b ∨ b = .null ∧ t.Before s ∧ doc.part? t = none := by
  by_cases hcontainer : s.container = t.container
  · obtain ⟨name, other, rfl, rfl, hne⟩ | ⟨i, j, rfl, rfl, hne⟩ := Segment.cases_of_ne h hcontainer
    · have hmember : (doc.setPart (.key name) a).part? (.key other) = doc.part? (.key other) :=
        (lookup_insert_of_ne hne).trans member?_eq_lookup.symm
      simp [hmember, Segment.Before]
    · have hitem : (doc.setPart (.index i) a).part? (.index j) =
          (doc.part? (.index j)).or (if j.toNat < i.toNat then some .null else none) :=
        getElem?_setItem.trans (if_neg hne)
      rw [hitem, Option.or_eq_some_iff, Segment.Before, UInt64.lt_iff_toNat_lt]
      by_cases hlt : j.toNat < i.toNat <;> simp [hlt, and_comm, eq_comm]
  · -- neither document has anything where the other segment leads to
    have hnew : (doc.setPart s a).part? t = none := part?_eq_none fun heq =>
      hcontainer (kind_setPart.symm.trans heq)
    have hold : doc.part? t = none := part?_eq_none fun heq =>
      hdoc.elim (fun hnull => t.container_ne_null (heq.symm.trans hnull))
        fun hkind => hcontainer (hkind.symm.trans heq)
    have hbefore : ¬ t.Before s := fun hlt => hcontainer hlt.container_eq.symm
    simp [hnew, hold, hbefore]

/-- What is not there counts as `null`, so a position that is filled up counts as it did. -/
theorem getD_part?_setPart_of_ne (hdoc : doc.Admits s) (h : s ≠ t) :
    ((doc.setPart s a).part? t).getD .null = (doc.part? t).getD .null := by
  cases hpart : (doc.setPart s a).part? t with
  | some b =>
    rcases (part?_setPart_of_ne hdoc h).mp hpart with hold | ⟨rfl, -, hnone⟩
    · rw [hold]
    · rw [hnone, Option.getD_some, Option.getD_none]
  | none =>
    cases hold : doc.part? t with
    | some b => cases hpart.symm.trans ((part?_setPart_of_ne hdoc h).mpr (.inl hold))
    | none => rfl

theorem setPart_comm (hst : s ≠ t) (h : s.container = t.container) :
    (doc.setPart s a).setPart t b = (doc.setPart t b).setPart s a := by
  obtain ⟨name, other, rfl, rfl, hne⟩ | ⟨i, j, rfl, rfl, hne⟩ := Segment.cases_of_ne hst h
  · exact congrArg Json.object (insert_comm hne)
  · exact congrArg Json.array (setItem_comm hne)

/-! ### Room for parts -/

theorem hasRoom_iff {i : UInt64} {items : List Json} :
    hasRoom i items ↔ i.toNat < items.length ∨ i.toNat < maxItems := by
  rw [hasRoom, Bool.or_eq_true, decide_eq_true_iff, decide_eq_true_iff]

theorem overflow?_eq_some {p : Panic} : doc.overflow? s = some p ↔
    ∃ i, s = .index i ∧ maxItems ≤ i.toNat ∧ doc.part? s = none ∧ p = overflow i := by
  cases s with
  | key name => exact ⟨nofun, fun ⟨_, h, _⟩ => nomatch h⟩
  | index i =>
    have hnone : doc.part? (.index i) = none ↔ doc.items.length ≤ i.toNat :=
      List.getElem?_eq_none_iff
    rw [overflow?, hnone]
    by_cases hroom : hasRoom i doc.items
    · rw [if_pos hroom]
      refine ⟨nofun, ?_⟩
      rintro ⟨_, ⟨⟩, hmax, hlen, -⟩
      rcases hasRoom_iff.mp hroom with h | h <;> omega
    · rw [if_neg hroom]
      rw [hasRoom_iff, not_or] at hroom
      constructor
      · intro h
        exact ⟨i, rfl, by omega, by omega, (Option.some.inj h).symm⟩
      · rintro ⟨_, ⟨⟩, -, -, rfl⟩
        rfl

theorem overflow?_of_part? (h : doc.part? s = some child) : doc.overflow? s = none := by
  refine Option.eq_none_iff_forall_ne_some.mpr fun p hp => ?_
  obtain ⟨-, -, -, hnone, -⟩ := overflow?_eq_some.mp hp
  cases h.symm.trans hnone

/-- A part that is set leaves room for the same parts as before: a position that is now filled was
one for which there was room. -/
theorem overflow?_setPart (hdoc : doc.Admits s) (hroom : doc.overflow? s = none) :
    (doc.setPart s a).overflow? t = doc.overflow? t := by
  have hiff (p : Panic) : (doc.setPart s a).overflow? t = some p ↔ doc.overflow? t = some p := by
    simp only [overflow?_eq_some]
    refine exists_congr fun j => and_congr_right fun ht => and_congr_right fun hmax =>
      and_congr_left fun _ => ?_
    subst ht
    by_cases hst : s = .index j
    · subst hst
      have hpart : doc.part? (.index j) ≠ none := fun hnone =>
        nomatch hroom.symm.trans (overflow?_eq_some.mpr ⟨j, rfl, hmax, hnone, rfl⟩)
      simp [part?_setPart_self, hpart]
    · constructor
      · intro hnone
        refine Option.eq_none_iff_forall_ne_some.mpr fun b hb => ?_
        cases hnone.symm.trans ((part?_setPart_of_ne hdoc hst).mpr (.inl hb))
      · intro hnone
        refine Option.eq_none_iff_forall_ne_some.mpr fun b hb => ?_
        rcases (part?_setPart_of_ne hdoc hst).mp hb with hold | ⟨-, hbefore, -⟩
        · cases hnone.symm.trans hold
        · -- a position that has been filled up to comes before one for which there was room
          cases s with
          | key name => exact hbefore
          | index i =>
            have hlt : j.toNat < i.toNat := UInt64.lt_iff_toNat_lt.mp hbefore
            have hnone' : doc.part? (.index i) = none :=
              List.getElem?_eq_none (by
                have := List.getElem?_eq_none_iff.mp hnone
                omega)
            exact nomatch hroom.symm.trans
              (overflow?_eq_some.mpr ⟨i, rfl, hmax.trans hlt.le, hnone', rfl⟩)
  exact Option.ext hiff

/-! ### Parts of sorted documents -/

theorem sorted_of_part? (hdoc : doc.Sorted) (h : doc.part? s = some child) : child.Sorted := by
  cases s with
  | key name =>
    cases doc with
    | object fields =>
      have hmem : (name, child) ∈ fields := Keyed.mem_of_lookup (lookup_eq.symm.trans h)
      exact sortedFields_iff.mp hdoc.2 _ hmem
    | _ => cases h
  | index i =>
    cases doc with
    | array items => exact sortedItems_iff.mp hdoc child (List.mem_of_getElem? h)
    | _ => cases h

/-- Setting a part to what it is changes nothing. -/
theorem setPart_of_part? (hdoc : doc.Sorted) (h : doc.part? s = some child) :
    doc.setPart s child = doc := by
  cases s with
  | key name =>
    cases doc with
    | object fields => exact congrArg Json.object (insert_of_lookup hdoc.1 h)
    | _ => cases h
  | index i =>
    cases doc with
    | array items => exact congrArg Json.array (setItem_of_getElem? h)
    | _ => cases h

/-! ### Reading and writing step by step -/

section Steps

variable {segments : List Segment} {value doc' : Json}

theorem follow_cons : follow (s :: segments) doc =
    match doc.part? s with
    | some child => (follow segments child).mapError .earlier
    | none => .error (doc.obstacle s) := by
  cases s with
  | key name =>
    cases doc with
    | object fields =>
      rw [follow, part?, member?]
      cases lookup name fields <;> rfl
    | _ => rfl
  | index i =>
    cases doc with
    | array items =>
      rw [follow, part?, Json.items]
      cases items[i.toNat]? <;> rfl
    | _ => rfl

theorem install_cons : install (s :: segments) value doc =
    if doc.Admits s then
      match doc.overflow? s with
      | none => ((install segments value ((doc.part? s).getD .null)).mapError (.map .earlier)).map
          (doc.setPart s)
      | some p => .error (.panic p)
    else .error (.error (doc.obstacle s)) := by
  have hmap (x : Except (Fault Obstacle) Json) : (do let child ← x; return doc.setPart s child) =
      x.map (doc.setPart s) := bind_pure_comp _ _
  cases s with
  | key name =>
    cases doc with
    | null | object => exact hmap _
    | _ => rfl
  | index i =>
    have hroom (x : Except (Fault Obstacle) Json) :
        (if hasRoom i doc.items then do let child ← x; return doc.setPart (.index i) child
          else .error (.panic (overflow i))) =
          match doc.overflow? (.index i) with
          | none => x.map (doc.setPart (.index i))
          | some p => .error (.panic p) := by
      rw [overflow?, hmap]
      cases hasRoom i doc.items <;> rfl
    cases doc with
    | null | array => exact hroom _
    | _ => rfl

theorem follow_cons_eq_ok : follow (s :: segments) doc = .ok value ↔
    ∃ child, doc.part? s = some child ∧ follow segments child = .ok value := by
  rw [follow_cons]
  cases doc.part? s with
  | some child => simp [Except.mapError_eq_ok]
  | none => simp

theorem install_cons_eq_ok : install (s :: segments) value doc = .ok doc' ↔
    (doc.Admits s ∧ doc.overflow? s = none) ∧
      ∃ child, install segments value ((doc.part? s).getD .null) = .ok child ∧
        doc.setPart s child = doc' := by
  rw [install_cons]
  by_cases h : doc.Admits s
  · rw [if_pos h]
    cases doc.overflow? s with
    | none => simp only [h, true_and, Except.map_eq_ok, Except.mapError_eq_ok]
    | some p => simp
  · simp [h]

end Steps

end Json

end Conveyor
