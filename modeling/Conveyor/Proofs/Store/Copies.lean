import Conveyor.Proofs.Store.Confinement
import Conveyor.Proofs.Store.Memory

/-!
# Copies

A copy leaves the bytes of its source at its destination, tells how many they are, and changes
nothing else. In memory this holds of every two references.

On files the destination is emptied before the source is read, so an object that is copied to the
file where it is loses its bytes: `FileStore.copy_copies` says what both references hold afterwards
for every tree and every two references, however they spell the places of their files. The folders
that are made for the destination may be the first ones on the way to the source, so the source is
looked up in the tree where they are there already.
-/

namespace Conveyor

namespace Tree

variable {t t' : Tree} {folder place : Place} {names : List String} {r origin : Route}
  {body held : ByteArray}

theorem file?_eq_some : t.file? place = some body ↔ t.entry? place = some (.file body) := by
  unfold file?
  split
  · rename_i body' hfile
    rw [hfile, Option.some.injEq, Option.some.injEq, Entry.file.injEq]
  · rename_i hfile
    exact iff_of_false (fun h => nomatch h) (hfile body)

/-- A way to a file is still one in a tree that has the same folders and a file at its end. -/
theorem follow_kept (hkept : ∀ p, t.entry? p = some .folder → t'.entry? p = some .folder)
    (hlast : t'.entry? place = some (.file held))
    (h : t.follow folder names = .ok (place, .file body)) :
    t'.follow folder names = .ok (place, .file held) := by
  fun_induction follow t folder names with
  | case1 => cases h
  | case2 folder names ih | case3 folder names ih =>
    rw [follow]
    exact ih h
  | case4 | case5 | case8 => cases h
  | case6 folder name names hdot hdots hlong hfolder ih =>
    -- every name but the last one goes through a folder
    rw [follow_name hdot hdots, if_neg hlong, hkept _ hfolder]
    exact ih h
  | case7 folder name names hdot hdots hlong body' hfile hnil =>
    obtain ⟨rfl, -⟩ := Prod.mk.inj (Except.ok.inj h)
    rw [follow_name hdot hdots, if_neg hlong, hlast]
    exact if_pos hnil

theorem find_eq_file_iff : t.find r = .ok (place, .file body) ↔
    Route.hasNul r.names = false ∧ r.isBlank = false ∧ r.slash = false ∧
      t.follow r.start r.names = .ok (place, .file body) := by
  unfold find
  cases Route.hasNul r.names with
  | true => exact iff_of_false nofun nofun
  | false =>
    cases r.isBlank with
    | true => exact iff_of_false nofun nofun
    | false =>
      simp only [Bool.false_eq_true, if_false, true_and, Except.bind_eq_ok]
      constructor
      · rintro ⟨found, hfollow, h⟩
        split at h
        · cases h
        · rename_i hslash
          obtain rfl := Except.ok.inj h
          exact ⟨by simpa [Entry.isFolder] using hslash, hfollow⟩
      · rintro ⟨hslash, hfollow⟩
        refine ⟨_, hfollow, ?_⟩
        rw [hslash]
        rfl

theorem find_kept (hkept : ∀ p, t.entry? p = some .folder → t'.entry? p = some .folder)
    (hlast : t'.entry? place = some (.file held)) (h : t.find r = .ok (place, .file body)) :
    t'.find r = .ok (place, .file held) := by
  obtain ⟨hnul, hblank, hslash, hfollow⟩ := find_eq_file_iff.mp h
  exact find_eq_file_iff.mpr ⟨hnul, hblank, hslash, follow_kept hkept hlast hfollow⟩

theorem read_of_find (h : t.find r = .ok (place, .file body)) : t.read r = .ok body := by
  rw [read, h]
  rfl

theorem find_file (h : t.find r = .ok (place, .file body)) :
    place = r.leadsTo ∧ t.entry? place = some (.file body) := by
  obtain ⟨-, -, -, hfollow⟩ := find_eq_file_iff.mp h
  exact ⟨follow_place hfollow, follow_file hfollow⟩

/-- A copy writes the bytes of its source, or none where they come from. -/
theorem copy_cases {size : Nat} (h : t.copy origin r = .ok (size, t')) :
    ∃ body held, t.find origin = .ok (origin.leadsTo, .file body) ∧
      held = (if r.leadsTo = origin.leadsTo then .empty else body) ∧ size = held.size ∧
      t.write r held = .ok t' := by
  obtain ⟨⟨place, entry⟩, hfind, h⟩ := Except.bind_eq_ok.mp h
  cases entry with
  | folder => cases h
  | file body =>
    obtain ⟨place', htarget, h⟩ := Except.bind_eq_ok.mp h
    obtain rfl := (find_file hfind).1
    obtain rfl := (target_place htarget).1
    obtain ⟨rfl, rfl⟩ := Prod.mk.inj (Except.ok.inj h)
    refine ⟨body, _, hfind, rfl, rfl, ?_⟩
    rw [write, htarget]
    rfl

theorem entry?_write (h : t.write r body = .ok t') :
    t'.entry? r.leadsTo = some (.file body) := by
  obtain ⟨place, htarget, hok⟩ := Except.bind_eq_ok.mp h
  obtain ⟨rfl, hfolder⟩ := target_place htarget
  obtain rfl := Except.ok.inj hok
  exact entry?_withFile hfolder

end Tree

namespace FileStore

variable {s : FileStore} {source destination object : ObjectRef} {route : Route} {t t' : Tree}
  {size : Nat} {body : ByteArray}

theorem get_eq (h : s.locate object = .ok route) :
    s.get object t = ((t.read route).mapError (objectFault object), t) :=
  congrFun (Call.ofExcept_bind_of_ok h) t

/-- A copy makes the folders for its destination, and then copies the file. -/
theorem copy_eq_ok (h : s.copy source destination t = (.ok size, t')) :
    ∃ origin target, s.locate source = .ok origin ∧ s.locate destination = .ok target ∧
      (t.makeParents target).2.copy origin target = .ok (size, t') := by
  obtain ⟨origin, t₁, hfirst, h₁⟩ := Call.bind_eq_ok.mp h
  obtain ⟨target, t₂, hsecond, h₂⟩ := Call.bind_eq_ok.mp h₁
  obtain ⟨_, t₃, hthird, hlast⟩ := Call.bind_eq_ok.mp h₂
  obtain ⟨horigin, rfl⟩ := Prod.mk.inj hfirst
  obtain ⟨htarget, rfl⟩ := Prod.mk.inj hsecond
  obtain ⟨-, rfl⟩ := Prod.mk.inj hthird
  exact ⟨origin, target, horigin, htarget, Except.mapError_eq_ok.mp (Call.ofUpdate_eq_ok.mp hlast)⟩

/-- Both references of a copy hold the bytes of the source afterwards, and the answer is how many
they are; no other object and no other file is changed. On files, the source has to be elsewhere
than the destination for this: a file that is copied to its own place is empty afterwards. -/
theorem copy_copies (source destination : ObjectRef) (size : Nat) :
    (∀ m m' : Memory,
      Memory.backend.copy source destination m = (.ok size, m') →
        ∃ body, m.object? source = some body ∧ size = body.size ∧
          m'.object? source = some body ∧ m'.object? destination = some body ∧
          (∀ other, other ≠ destination → m'.object? other = m.object? other) ∧
          m'.tables = m.tables) ∧
      ∀ (s : FileStore) (t t' : Tree),
        s.backend.copy source destination t = (.ok size, t') →
          ∃ body, t.file? (s.fileOf source) = some body ∧
            let held := if s.fileOf destination = s.fileOf source then .empty else body
            size = held.size ∧
              t'.file? (s.fileOf source) = some held ∧ (s.get source t').1 = .ok held ∧
              t'.file? (s.fileOf destination) = some held ∧ (s.get destination t').1 = .ok held ∧
              ∀ p, p ≠ s.fileOf destination → t'.file? p = t.file? p := by
  constructor
  · intro m m' h
    rw [Memory.copy_eq] at h
    cases hsource : m.object? source with
    | none =>
      rw [hsource] at h
      cases h
    | some body =>
      rw [hsource] at h
      obtain ⟨hsize, rfl⟩ := Prod.mk.inj h
      refine ⟨body, rfl, (Except.ok.inj hsize).symm, ?_, ?_, fun other hother => ?_, rfl⟩
      · rw [Memory.object?_setObject, hsource, ite_self]
      · rw [Memory.object?_setObject, if_pos rfl]
      · rw [Memory.object?_setObject, if_neg hother]
  · intro s t t' h
    obtain ⟨origin, target, horigin, htarget, hcopy⟩ := copy_eq_ok h
    have hsource := (leadsTo_of_locate horigin).place
    have hdestination := (leadsTo_of_locate htarget).place
    obtain ⟨body, held, hfind, hheld, hsize, hwrite⟩ := Tree.copy_cases hcopy
    -- from here on the tree is the one in which the folders for the destination are made
    have hmade := t.makeParents_changes target
    have hwritten := Tree.write_changes hwrite
    have hafter := Tree.entry?_write hwrite
    rw [hsource] at hfind
    rw [hdestination] at hwritten hafter
    rw [hsource, hdestination] at hheld
    have hbefore := Tree.file?_eq_some.mpr (Tree.find_file hfind).2
    have hother (p : Place) (hp : p ≠ s.fileOf destination) : t'.file? p = t.file? p :=
      (hwritten.files p hp).trans (hmade.files p fun h => h)
    have hlast : t'.entry? (s.fileOf source) = some (.file held) := by
      by_cases heq : s.fileOf destination = s.fileOf source
      · exact heq ▸ hafter
      · -- the source is another file, so it is as it was
        rw [if_neg heq] at hheld
        subst hheld
        exact Tree.file?_eq_some.mp ((hwritten.files _ (Ne.symm heq)).trans hbefore)
    have hget : (s.get source t').1 = .ok held := by
      rw [get_eq horigin, Tree.read_of_find (Tree.find_kept hwritten.kept hlast hfind)]
      rfl
    have hget' : (s.get destination t').1 = .ok held := by
      rw [get_eq htarget, Tree.read_write hwrite]
      rfl
    refine ⟨body, (hmade.files _ fun h => h).symm.trans hbefore, ?_⟩
    rw [← hheld]
    exact ⟨hsize, Tree.file?_eq_some.mpr hlast, hget, Tree.file?_eq_some.mpr hafter, hget', hother⟩

/-- A copy over another object, in memory and on files. -/
theorem copy_copies_over :
    let s : FileStore := ⟨⟨[], ["objects"], false⟩, ⟨[], ["tables"], false⟩, []⟩
    let source : ObjectRef := ⟨"a", "x"⟩
    let destination : ObjectRef := ⟨"b", "x"⟩
    let m := (Memory.empty.setObject source "body".toUTF8).setObject destination "text".toUTF8
    let m' := (Memory.backend.copy source destination m).2
    let t := (s.put destination "text".toUTF8 (s.put source "body".toUTF8 .empty).2).2
    let t' := (s.copy source destination t).2
    Memory.backend.copy source destination m = (.ok 4, m') ∧
      m'.object? destination = some "body".toUTF8 ∧
      s.backend.copy source destination t = (.ok 4, t') ∧
      (s.get destination t').1 = .ok "body".toUTF8 := by
  intro s source destination m m' t t'
  have hmemory : Memory.backend.copy source destination m = (.ok 4, m') := Prod.ext (by decide) rfl
  have hfiles : s.backend.copy source destination t = (.ok 4, t') := Prod.ext (by decide) rfl
  obtain ⟨hcopied, hcopied'⟩ := copy_copies source destination 4
  obtain ⟨body, hbody, -, -, hcopied, -⟩ := hcopied m m' hmemory
  obtain ⟨text, htext, -, -, -, -, hget, -⟩ := hcopied' s t t' hfiles
  have hm : m.object? source = some "body".toUTF8 := by decide
  have ht : t.file? (s.fileOf source) = some "body".toUTF8 := by decide
  obtain rfl := Option.some.inj (hm.symm.trans hbody)
  obtain rfl := Option.some.inj (ht.symm.trans htext)
  rw [if_neg (by decide)] at hget
  exact ⟨hmemory, hcopied, hfiles, hget⟩

/-- An object that is copied to itself is lost, also where its container and its key are told apart
in another way. -/
theorem copy_onto_itself :
    let s : FileStore := ⟨⟨[], ["objects"], false⟩, ⟨[], ["tables"], false⟩, []⟩
    let source : ObjectRef := ⟨"a", "b/x"⟩
    let destination : ObjectRef := ⟨"a/b", "x"⟩
    let t := (s.put source "body".toUTF8 .empty).2
    let same := s.copy source source t
    let other := s.copy source destination t
    (s.get source t).1 = .ok "body".toUTF8 ∧
      same.1 = .ok 0 ∧ (s.get source same.2).1 = .ok .empty ∧
      other.1 = .ok 0 ∧ (s.get source other.2).1 = .ok .empty ∧
      (s.get destination other.2).1 = .ok .empty := by
  intro s source destination t same other
  exact ⟨by decide, by decide, by decide, by decide, by decide, by decide⟩

end FileStore

end Conveyor
