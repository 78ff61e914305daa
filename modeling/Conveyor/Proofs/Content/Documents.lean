import Conveyor.Content.Reading
import Conveyor.Proofs.Json.Members
import Conveyor.Proofs.Result
import Mathlib.Data.String.Basic

/-!
# Documents as content

A document that is read from content has the members of its objects in order
(`Content.sorted_toJson`), and such a document is read back from its own content
(`Content.toJson_ofJson`).
-/

namespace Conveyor

/-! ### Members in order -/

namespace Json

variable {key k : String} {value v : Json} {fields : List (String × Json)}

theorem insert_cons_of_lt (h : k < key) :
    insert key value ((k, v) :: fields) = (k, v) :: insert key value fields := by
  rw [insert, if_neg (ne_of_lt h), if_neg (lt_asymm h)]

theorem insert_of_lt_head (h : ∀ e ∈ fields.head?, key < e.1) :
    insert key value fields = (key, value) :: fields := by
  cases fields with
  | nil => rfl
  | cons e fields =>
    obtain ⟨k, v⟩ := e
    have hlt : key < k := h _ rfl
    rw [insert, if_neg (ne_of_gt hlt), if_pos hlt]

theorem insert_of_forall_lt (h : ∀ e ∈ fields, e.1 < key) :
    insert key value fields = fields ++ [(key, value)] := by
  induction fields with
  | nil => rfl
  | cons e fields ih =>
    obtain ⟨k, v⟩ := e
    rw [insert_cons_of_lt (h _ List.mem_cons_self),
      ih fun e he => h e (List.mem_cons_of_mem _ he), List.cons_append]

/-- A member whose key is greater than those of the members so far is set at the end, and the keys
to come are greater still. -/
theorem insert_greatest {keys : List String} (value : Json) (hfirst : ∀ k ∈ keys, key < k)
    (h : ∀ e ∈ fields, ∀ k ∈ key :: keys, e.1 < k) :
    insert key value fields = fields ++ [(key, value)] ∧
      ∀ e ∈ fields ++ [(key, value)], ∀ k ∈ keys, e.1 < k := by
  refine ⟨insert_of_forall_lt fun e he => h e he key List.mem_cons_self, fun e he k hk => ?_⟩
  rcases List.mem_append.mp he with he | he
  · exact h e he k (List.mem_cons_of_mem key hk)
  · obtain rfl := List.mem_singleton.mp he
    exact hfirst k hk

/-- Setting a member to what it is changes nothing. -/
theorem insert_of_lookup (hkeys : (fields.map Prod.fst).Pairwise (· < ·))
    (h : lookup key fields = some value) : insert key value fields = fields := by
  induction fields with
  | nil => cases h
  | cons e fields ih =>
    obtain ⟨k, v⟩ := e
    obtain ⟨hfirst, hlater⟩ := List.pairwise_cons.mp hkeys
    by_cases hkey : k = key
    · obtain rfl : v = value := by simpa [lookup, hkey] using h
      simp [insert, hkey]
    · have hlookup : lookup key fields = some value := by simpa [lookup, hkey] using h
      have hmem : key ∈ fields.map Prod.fst := by
        rw [← Keyed.isSome_lookup_iff, ← lookup_eq, hlookup]
        rfl
      rw [insert_cons_of_lt (hfirst key hmem), ih hlater hlookup]

/-- The order in which two members are set does not matter. -/
theorem insert_comm (h : key ≠ k) :
    insert key value (insert k v fields) = insert k v (insert key value fields) := by
  wlog hlt : key < k generalizing key k value v
  · exact (this h.symm (lt_of_le_of_ne (not_lt.mp hlt) h.symm)).symm
  induction fields with
  | nil =>
    have hhead : insert key value [(k, v)] = [(key, value), (k, v)] :=
      insert_of_lt_head fun e he => Option.some.inj he ▸ hlt
    have hnext : insert k v [(key, value)] = [(key, value), (k, v)] := insert_cons_of_lt hlt
    exact hhead.trans hnext.symm
  | cons e fields ih =>
    obtain ⟨l, w⟩ := e
    rcases lt_trichotomy l key with hl | rfl | hl
    · rw [insert_cons_of_lt (hl.trans hlt), insert_cons_of_lt hl, insert_cons_of_lt hl,
        insert_cons_of_lt (hl.trans hlt), ih]
    · rw [insert_cons_of_lt hlt, insert, if_pos rfl, insert, if_pos rfl, insert_cons_of_lt hlt]
    · -- the member with the smaller key comes first, whatever follows
      have hhead : ∀ e ∈ ((l, w) :: fields).head?, key < e.1 :=
        fun e he => Option.some.inj he ▸ hl
      have hinsert : ∀ e ∈ (insert k v ((l, w) :: fields)).head?, key < e.1 := by
        intro e he
        rw [insert] at he
        split at he
        · exact Option.some.inj he ▸ hlt
        · split at he
          · exact Option.some.inj he ▸ hlt
          · exact Option.some.inj he ▸ hl
      rw [insert_of_lt_head hinsert, insert_of_lt_head hhead, insert_cons_of_lt hlt]

theorem mem_insert {e : String × Json} (h : e ∈ insert key value fields) :
    e = (key, value) ∨ e ∈ fields := by
  induction fields with
  | nil => exact .inl (List.mem_singleton.mp h)
  | cons d fields ih =>
    obtain ⟨k, v⟩ := d
    rw [insert] at h
    split at h
    · exact (List.mem_cons.mp h).imp id (List.mem_cons_of_mem _)
    · split at h
      · exact List.mem_cons.mp h
      · rcases List.mem_cons.mp h with rfl | h
        · exact .inr List.mem_cons_self
        · exact (ih h).imp id (List.mem_cons_of_mem _)

theorem pairwise_insert (h : (fields.map Prod.fst).Pairwise (· < ·)) :
    ((insert key value fields).map Prod.fst).Pairwise (· < ·) := by
  induction fields with
  | nil => exact List.pairwise_singleton _ _
  | cons e fields ih =>
    obtain ⟨k, v⟩ := e
    obtain ⟨hfirst, hrest⟩ := List.pairwise_cons.mp h
    rw [insert]
    split
    · rename_i hkey
      exact List.pairwise_cons.mpr ⟨hkey ▸ hfirst, hrest⟩
    · rename_i hne
      split
      · rename_i hlt
        refine List.pairwise_cons.mpr ⟨fun l hl => ?_, h⟩
        rcases List.mem_cons.mp hl with rfl | hl
        · exact hlt
        · exact String.lt_trans hlt (hfirst l hl)
      · rename_i hnot
        refine List.pairwise_cons.mpr ⟨fun l hl => ?_, ih hrest⟩
        obtain ⟨e, he, rfl⟩ := List.mem_map.mp hl
        rcases mem_insert he with rfl | he
        · exact (lt_trichotomy k key).resolve_right fun h => h.elim hne hnot
        · exact hfirst _ (List.mem_map_of_mem he)

theorem sortedItems_iff {items : List Json} : SortedItems items ↔ ∀ item ∈ items, item.Sorted := by
  induction items with
  | nil => simp [SortedItems]
  | cons item items ih => simp [SortedItems, ih]

theorem sortedFields_iff : SortedFields fields ↔ ∀ e ∈ fields, e.2.Sorted := by
  induction fields with
  | nil => simp [SortedFields]
  | cons e fields ih =>
    obtain ⟨k, v⟩ := e
    simp [SortedFields, ih]

theorem sortedFields_insert (h : SortedFields fields) (hvalue : value.Sorted) :
    SortedFields (insert key value fields) := by
  rw [sortedFields_iff] at h ⊢
  intro e he
  rcases mem_insert he with rfl | he
  · exact hvalue
  · exact h e he

end Json

/-! ### Documents that are read -/

namespace Content

mutual

/-- A document that is read is sorted. -/
theorem sorted_toJson : ∀ {c : Content} {doc : Json}, c.toJson = .ok doc → doc.Sorted
  | .null, doc, h => by cases h; trivial
  | .bool b, doc, h => by cases h; trivial
  | .string s, doc, h => by cases h; trivial
  | .integer i, doc, h => by
    obtain rfl := Except.ok.inj h
    cases Number.ofInt? i <;> trivial
  | .real x, doc, h => by
    obtain rfl := Except.ok.inj h
    cases Number.ofBinary64? x <;> trivial
  | .sequence items, doc, h => by
    obtain ⟨docs, hdocs, rfl⟩ := Except.map_eq_ok.mp h
    exact sortedItems_toItems hdocs
  | .mapping entries, doc, h => by
    obtain ⟨fields, hfields, rfl⟩ := Except.map_eq_ok.mp h
    exact sorted_toFields List.Pairwise.nil (show Json.SortedFields [] from trivial) hfields

theorem sortedItems_toItems : ∀ {items : List Content} {docs : List Json},
    toItems items = .ok docs → Json.SortedItems docs
  | [], docs, h => by cases h; trivial
  | item :: items, docs, h => by
    obtain ⟨doc, hdoc, hrest⟩ := Except.bind_eq_ok.mp h
    obtain ⟨docs', hdocs', hok⟩ := Except.bind_eq_ok.mp hrest
    obtain rfl := Except.ok.inj hok
    exact ⟨sorted_toJson hdoc, sortedItems_toItems hdocs'⟩

theorem sorted_toFields : ∀ {entries : List (Content × Content)}
    {acc fields : List (String × Json)},
    (acc.map Prod.fst).Pairwise (· < ·) → Json.SortedFields acc →
      toFields entries acc = .ok fields → (Json.object fields).Sorted
  | [], acc, fields, hkeys, hvalues, h => by
    obtain rfl := Except.ok.inj h
    exact ⟨hkeys, hvalues⟩
  | (.string key, value) :: entries, acc, fields, hkeys, hvalues, h => by
    obtain ⟨doc, hdoc, hrest⟩ := Except.bind_eq_ok.mp h
    exact sorted_toFields (Json.pairwise_insert hkeys)
      (Json.sortedFields_insert hvalues (sorted_toJson hdoc)) hrest
  | (.null, _) :: _, _, _, _, _, h | (.bool _, _) :: _, _, _, _, _, h
  | (.integer _, _) :: _, _, _, _, _, h | (.real _, _) :: _, _, _, _, _, h
  | (.sequence _, _) :: _, _, _, _, _, h | (.mapping _, _) :: _, _, _, _, _, h => by cases h

end

mutual

/-- A sorted document is read back from its content. -/
theorem toJson_ofJson : ∀ {doc : Json}, doc.Sorted → (ofJson doc).toJson = .ok doc
  | .null, _ => rfl
  | .bool _, _ => rfl
  | .string _, _ => rfl
  | .number (.integer i h), _ => by
    have hword : Number.ofInt? i = some (.integer i h) := dif_pos h
    simp only [ofJson, toJson, hword]
    rfl
  | .number (.real x h), _ => by
    have hreal : Number.ofBinary64? x = some (.real x h) := dif_pos h
    simp only [ofJson, toJson, hreal]
    rfl
  | .array items, h => by
    simp only [ofJson, toJson, toItems_ofItems h]
    rfl
  | .object fields, h => by
    have hfields : toFields (ofFields fields) [] = .ok ([] ++ fields) :=
      toFields_ofFields h.1 h.2 fun _ he => absurd he List.not_mem_nil
    simp only [ofJson, toJson, hfields]
    rfl

theorem toItems_ofItems : ∀ {items : List Json}, Json.SortedItems items →
    toItems (ofItems items) = .ok items
  | [], _ => rfl
  | item :: items, h => by
    simp only [ofItems, toItems, toJson_ofJson h.1, toItems_ofItems h.2]
    rfl

theorem toFields_ofFields : ∀ {fields acc : List (String × Json)},
    (fields.map Prod.fst).Pairwise (· < ·) → Json.SortedFields fields →
      (∀ e ∈ acc, ∀ k ∈ fields.map Prod.fst, e.1 < k) →
      toFields (ofFields fields) acc = .ok (acc ++ fields)
  | [], acc, _, _, _ => by rw [ofFields, toFields, List.append_nil]
  | (key, value) :: fields, acc, hkeys, hvalues, hacc => by
    obtain ⟨hfirst, hrest⟩ := List.pairwise_cons.mp hkeys
    obtain ⟨hinsert, hacc'⟩ := Json.insert_greatest value hfirst hacc
    have hfields := toFields_ofFields hrest hvalues.2 hacc'
    rw [List.append_assoc, List.singleton_append, ← hinsert] at hfields
    simp only [ofFields, toFields, toJson_ofJson hvalues.1]
    exact hfields

end

end Content

end Conveyor
