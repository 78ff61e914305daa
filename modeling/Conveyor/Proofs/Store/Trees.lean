import Conveyor.Proofs.Keyed
import Conveyor.Proofs.Result
import Conveyor.Store.Tree

/-!
# Files that are read after they were written

A file that has been written at a route is what is read at that route (`Tree.readText_write`). The
folders on the way are those that the file was written through, since a new file takes the place of
no folder.
-/

namespace Conveyor

namespace Tree

variable {t t' : Tree} {place folder folder' : Place} {body : ByteArray} {name : String}
  {names : List String} {r : Route}

theorem lookup_setFile (files : List (Place × ByteArray)) :
    (setFile place body files).lookup place = some body := by
  induction files with
  | nil => exact List.lookup_cons_self
  | cons file files ih =>
    obtain ⟨p, b⟩ := file
    rw [setFile]
    by_cases hp : p = place
    · rw [if_pos hp, List.lookup_cons_self]
    · rw [if_neg hp, List.lookup_cons, beq_false_of_ne (Ne.symm hp)]
      exact ih

theorem entry?_eq_folder_iff : t.entry? place = some .folder ↔ place = [] ∨ place ∈ t.folders := by
  rw [ entry?]
  split
  · exact iff_of_true rfl ‹_›
  · refine iff_of_false (fun h => ?_) ‹_›
    obtain ⟨_, -, hfile⟩ := Option.map_eq_some_iff.mp h
    cases hfile

theorem entry?_withFile (h : t.entry? place ≠ some .folder) :
    Tree.entry? (t.withFile place body) place = some (.file body) := by
  have hplace : ¬(place = [] ∨ place ∈ t.folders) := mt entry?_eq_folder_iff.mpr h
  have hlookup : (t.withFile place body).files.lookup place = some body := lookup_setFile t.files
  rw [ entry?, hlookup]
  exact if_neg hplace

/-- A route that ends in a folder still does after a file has been written. -/
theorem follow_withFile (h : t.follow folder names = .ok (folder', .folder)) :
    (t.withFile place body).follow folder names = .ok (folder', .folder) := by
  fun_induction follow t folder names with
  | case1 folder =>
    rw [follow]
    exact h
  | case2 folder names ih | case3 folder names ih =>
    rw [follow]
    exact ih h
  | case4 | case5 => cases h
  | case6 folder name names hdot hdots hlong hfolder ih =>
    -- whether a folder stands somewhere does not depend on the files
    have hplace := entry?_eq_folder_iff.mp hfolder
    have hfolder' : Tree.entry? (t.withFile place body) (folder ++ [name]) = some .folder :=
      entry?_eq_folder_iff.mpr hplace
    rw [follow, if_neg hlong, hfolder']
    · exact ih h
    · exact hdot
    · exact hdots
  | case7 | case8 => cases h

theorem follow_concat (h : t.follow folder names = .ok (folder', .folder)) :
    t.follow folder (names ++ [name]) = t.follow folder' [name] := by
  fun_induction follow t folder names with
  | case1 folder =>
    obtain ⟨rfl, -⟩ := Prod.mk.inj (Except.ok.inj h)
    rfl
  | case2 folder names ih | case3 folder names ih =>
    rw [List.cons_append, follow]
    exact ih h
  | case4 | case5 => cases h
  | case6 folder name names hdot hdots hlong hfolder ih =>
    rw [List.cons_append, follow, if_neg hlong, hfolder]
    · exact ih h
    · exact hdot
    · exact hdots
  | case7 | case8 => cases h

/-- A file is written in a folder where the names before the last one lead. -/
theorem target_cases (h : t.target r = .ok place) :
    Route.hasNul r.names = false ∧ r.slash = false ∧ ∃ names name folder,
      r.names = names ++ [name] ∧ name ≠ "." ∧ name ≠ ".." ∧ isLongName name = false ∧
      t.follow r.start names = .ok (folder, .folder) ∧ place = folder ++ [name] ∧
      t.entry? place ≠ some .folder := by
  unfold target at h
  cases hnul : Route.hasNul r.names with
  | true =>
    rw [hnul] at h
    cases h
  | false =>
    rw [hnul, if_neg Bool.false_ne_true] at h
    rcases List.eq_nil_or_concat r.names with hnil | ⟨names, name, hnames⟩
    · rw [hnil] at h
      cases h
    · rw [List.concat_eq_append] at hnames
      rw [hnames, List.getLast?_concat, List.dropLast_concat] at h
      obtain ⟨folder, hfolder, h⟩ := Except.bind_eq_ok.mp h
      have hfollow : t.follow r.start names = .ok (folder, .folder) := by
        obtain ⟨⟨place', entry⟩, hplace', hentry⟩ := Except.bind_eq_ok.mp hfolder
        cases entry with
        | folder => exact Except.ok.inj hentry ▸ hplace'
        | file body => cases hentry
      -- what remains are the checks of the last name
      dsimp only at h
      split at h
      · cases h
      · rename_i hname
        split at h
        · cases h
        · rename_i hlong
          split at h
          · cases h
          · rename_i hkind
            obtain rfl := Except.ok.inj h
            simp only [Bool.or_eq_true, decide_eq_true_eq, not_or] at hname
            refine ⟨rfl, Bool.eq_false_iff.mpr hname.1.1, names, name, folder, hnames, hname.1.2,
              hname.2, Bool.eq_false_iff.mpr hlong, hfollow, rfl, fun hfolder => hkind ?_⟩
            rw [hfolder]
            rfl

/-- A file that has been written is read with the same body. -/
theorem read_write (h : t.write r body = .ok t') : t'.read r = .ok body := by
  obtain ⟨place, hplace, hok⟩ := Except.bind_eq_ok.mp h
  obtain rfl := Except.ok.inj hok
  obtain ⟨hnul, hslash, names, name, folder, hnames, hdot, hdots, hlong, hfollow, rfl, hfolder⟩ :=
    target_cases hplace
  have hlast : (t.withFile (folder ++ [name]) body).follow r.start r.names =
      .ok (folder ++ [name], .file body) := by
    rw [hnames, follow_concat (follow_withFile hfollow), follow, if_neg (by simp [hlong]),
      entry?_withFile hfolder]
    · rfl
    · exact hdot
    · exact hdots
  have hfind : (t.withFile (folder ++ [name]) body).find r =
      .ok (folder ++ [name], .file body) := by
    have hblank : r.isBlank = false := by simp [Route.isBlank, hnames]
    rw [find, hnul, hblank, hslash, hlast]
    rfl
  rw [read, hfind]
  rfl

/-- A text that has been written is read again. -/
theorem readText_write {text : String} (h : t.write r text.toUTF8 = .ok t') :
    t'.readText r = .ok text := by
  have htext : String.fromUTF8? text.toUTF8 = some text := dif_pos text.isValidUTF8
  rw [readText, read_write h]
  simp only [bind, Except.bind, htext]
  rfl

end Tree

end Conveyor
