import Conveyor.Content.Reading
import Conveyor.Workflow.Writing

/-!
# Records that are read back

The fields of a record that is written are read one after another (`Content.Reads`): a field that is
there sets its value, and one that is left out leaves the record as it was.
-/

namespace Conveyor

namespace Content

variable {ρ α β : Type} {r : Record ρ α} {source : Source} {entries rest : List (Content × Content)}
  {seen : List String} {acc acc' res : ρ} {name : String} {c : Content}

/-- The entries are fields of a record, and are read whichever of the fields `seen` have been read
before. -/
structure Reads (r : Record ρ α) (source : Source) (entries : List (Content × Content))
    (seen : List String) (acc res : ρ) : Prop where
  keys : ∀ e ∈ entries, ∃ name ∈ r.fields.map Prod.fst, e.1 = .string name
  read : ∀ seen' ⊆ seen, readEntries r source entries seen' acc = .ok res

namespace Reads

theorem nil : Reads r source [] seen acc acc :=
  ⟨nofun, fun _ _ => rfl⟩

theorem field (hname : (r.fields.map Prod.fst).contains name = true) (hnew : name ∉ seen)
    (hset : r.set name c acc = .ok acc') (h : Reads r source rest (name :: seen) acc' res) :
    Reads r source (Content.field name c ++ rest) seen acc res := by
  have hmem : name ∈ r.fields.map Prod.fst := List.contains_iff_mem.mp hname
  refine ⟨List.forall_mem_cons.mpr ⟨⟨name, hmem, rfl⟩, h.keys⟩, fun seen' hseen => ?_⟩
  have hnew' : seen'.contains name = false := by
    simpa using fun hmem => hnew (hseen hmem)
  have hkey : fieldOfKey source (r.fields.map Prod.fst) (.string name) = .ok (some name) := by
    rw [fieldOfKey, if_pos hname]
  have hrest := h.read (name :: seen') (List.cons_subset_cons name hseen)
  rw [Content.field, List.singleton_append, readEntries, hkey]
  simp only [bind, Except.bind, hnew', hset, hrest]
  rfl

/-- A field that may be left out; `update` is what it does to the record. -/
theorem optionalField {write : β → Content} {o : Option β} (update : Option β → ρ)
    (hname : (r.fields.map Prod.fst).contains name = true) (hnew : name ∉ seen)
    (hset : ∀ b ∈ o, r.set name (write b) acc = .ok (update (some b))) (hnone : update none = acc)
    (h : Reads r source rest (name :: seen) (update o) res) :
    Reads r source (Content.optionalField name write o ++ rest) seen acc res := by
  cases o with
  | some b => exact field hname hnew (hset b rfl) h
  | none =>
    rw [hnone] at h
    exact ⟨h.keys, fun seen' hseen => h.read seen' (List.subset_cons_of_subset name hseen)⟩

end Reads

/-- A record that is written as a mapping is read back from it. -/
theorem toRecord_mapping {a : α} (h : Reads r source entries [] r.start res)
    (hfinish : r.finish res = .ok a) : toRecord r source (.mapping entries) = .ok a := by
  rw [toRecord, h.read [] (List.Subset.refl [])]
  exact hfinish

end Content

end Conveyor
