import Conveyor.Keyed
import Mathlib.Data.List.Nodup

/-!
# Looking up keys

How `List.lookup` sees the changes of a list of entries: changed values, new and removed keys.
-/

namespace Conveyor

namespace Keyed

variable {κ α β : Type} [BEq κ] [LawfulBEq κ] {entries : List (κ × α)} {key k : κ} {value : α}

theorem mem_of_lookup (h : entries.lookup k = some value) : (k, value) ∈ entries := by
  obtain ⟨l₁, l₂, rfl, -⟩ := List.lookup_eq_some_iff.mp h
  simp

theorem lookup_of_mem (hn : (entries.map Prod.fst).Nodup) (h : (k, value) ∈ entries) :
    entries.lookup k = some value := by
  induction entries with
  | nil => simp at h
  | cons e entries ih =>
    obtain ⟨j, v⟩ := e
    simp only [List.map_cons, List.nodup_cons] at hn
    rcases List.mem_cons.mp h with heq | hmem
    · obtain ⟨rfl, rfl⟩ := Prod.mk.inj heq
      exact List.lookup_cons_self
    · have hne : k ≠ j := fun hk => hn.1 (hk ▸ List.mem_map_of_mem hmem)
      rw [List.lookup_cons, beq_false_of_ne hne]
      exact ih hn.2 hmem

/-- With distinct keys, the entries are what is found at the keys. -/
theorem mem_iff_lookup (hn : (entries.map Prod.fst).Nodup) :
    (k, value) ∈ entries ↔ entries.lookup k = some value :=
  ⟨lookup_of_mem hn, mem_of_lookup⟩

theorem isSome_lookup_iff : (entries.lookup k).isSome ↔ k ∈ entries.map Prod.fst := by
  simp only [List.lookup_isSome_iff, List.mem_map, beq_iff_eq]
  exact ⟨fun ⟨e, he, hk⟩ => ⟨e, he, hk.symm⟩, fun ⟨e, he, hk⟩ => ⟨e, he, hk.symm⟩⟩

theorem lookup_map (f : κ → α → β) :
    (entries.map fun e => (e.1, f e.1 e.2)).lookup k = (entries.lookup k).map (f k) := by
  induction entries with
  | nil => rfl
  | cons e entries ih =>
    rw [List.map_cons, List.lookup_cons, List.lookup_cons]
    by_cases h : k = e.1
    · subst h; simp
    · simp only [beq_false_of_ne h, ih]

theorem lookup_cons_eq [DecidableEq κ] {j : κ} {v : α} :
    ((j, v) :: entries).lookup k = if k = j then some v else entries.lookup k := by
  rw [List.lookup_cons]
  by_cases h : k = j
  · simp [h]
  · simp only [beq_false_of_ne h, if_neg h]

/-- The entries need not be sorted for this. -/
theorem lookup_insert [DecidableEq κ] [LT κ] [DecidableLT κ] :
    (insert key value entries).lookup k = if k = key then some value else entries.lookup k := by
  induction entries with
  | nil => exact lookup_cons_eq
  | cons e entries ih =>
    obtain ⟨j, v⟩ := e
    simp only [insert]
    split
    · rename_i hj
      subst hj
      simp only [lookup_cons_eq]
      split <;> rfl
    · rename_i hj
      split
      · exact lookup_cons_eq
      · simp only [lookup_cons_eq, ih]
        -- the new entry comes after one with another key
        by_cases hk : k = j
        · rw [if_pos hk, if_pos hk, if_neg fun h => hj (hk.symm.trans h)]
        · rw [if_neg hk, if_neg hk]

theorem mem_keys_insert [DecidableEq κ] [LT κ] [DecidableLT κ] :
    k ∈ (insert key value entries).map Prod.fst ↔ k = key ∨ k ∈ entries.map Prod.fst := by
  rw [← isSome_lookup_iff, lookup_insert, ← isSome_lookup_iff]
  split
  · exact iff_of_true rfl (.inl ‹_›)
  · exact (or_iff_right ‹_›).symm

theorem lookup_erase [DecidableEq κ] :
    (erase key entries).lookup k = if k = key then none else entries.lookup k := by
  induction entries with
  | nil => simp [erase]
  | cons e entries ih =>
    obtain ⟨j, v⟩ := e
    unfold erase at ih ⊢
    by_cases hj : j = key
    · rw [List.filter_cons_of_neg (by simpa using hj), ih, List.lookup_cons]
      by_cases hk : k = key
      · simp [hk]
      · rw [if_neg hk, if_neg hk, beq_false_of_ne (fun h => hk (h.trans hj))]
    · rw [List.filter_cons_of_pos (by simpa using hj), List.lookup_cons, List.lookup_cons, ih]
      by_cases hk : k = j
      · subst hk; simp [hj]
      · simp only [beq_false_of_ne hk]

theorem mem_keys_erase [DecidableEq κ] :
    k ∈ (erase key entries).map Prod.fst ↔ k ≠ key ∧ k ∈ entries.map Prod.fst := by
  rw [← isSome_lookup_iff, lookup_erase, ← isSome_lookup_iff]
  split
  · simp [*]
  · exact (and_iff_right ‹_›).symm

/-- With distinct keys, only the entry that is found is erased. -/
theorem erase_of_lookup [DecidableEq κ] (hn : (entries.map Prod.fst).Nodup)
    (h : entries.lookup k = some value) :
    ∃ l₁ l₂, entries = l₁ ++ (k, value) :: l₂ ∧ erase k entries = l₁ ++ l₂ := by
  obtain ⟨l₁, l₂, rfl, -⟩ := List.lookup_eq_some_iff.mp h
  rw [List.map_append, List.map_cons, List.nodup_append] at hn
  obtain ⟨-, hn₂, hdisj⟩ := hn
  have h₁ : ∀ e ∈ l₁, e.1 ≠ k := fun e he heq =>
    hdisj _ (List.mem_map_of_mem he) _ List.mem_cons_self heq
  have h₂ : ∀ e ∈ l₂, e.1 ≠ k := fun e he heq =>
    (List.nodup_cons.mp hn₂).1 (List.mem_map.mpr ⟨e, he, heq⟩)
  refine ⟨l₁, l₂, rfl, ?_⟩
  rw [erase, List.filter_append, List.filter_cons_of_neg (by simp),
    List.filter_eq_self.mpr (by simpa using h₁), List.filter_eq_self.mpr (by simpa using h₂)]

omit [BEq κ] [LawfulBEq κ] in
theorem erase_sublist [DecidableEq κ] : (erase key entries).Sublist entries :=
  List.filter_sublist

end Keyed

end Conveyor
