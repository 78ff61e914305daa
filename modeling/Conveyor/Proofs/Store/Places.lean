import Conveyor.Proofs.Store.Folders
import Mathlib.Data.List.Induction

/-!
# Where routes lead

A route leads to one place at most, whatever stands in the tree: `Route.leadsTo` follows its names
as if all of them were folders. What is found at a route, written or removed is at this place, and
the folders that are made on the way are places that the names pass.

So what an operation changes is known from its routes (`Tree.Changes`), and what it finds out is
known from the folders of the tree and from the files at its routes (`Tree.Alike`).
-/

namespace Conveyor

/-! ### Names and places -/

namespace Route

/-- Where names lead from a folder if all of them are folders. -/
def walk (folder : Place) : List String → Place
  | [] => folder
  | "." :: names => walk folder names
  | ".." :: names => walk folder.dropLast names
  | name :: names => walk (folder ++ [name]) names

/-- Where a route leads if all of its names are folders. -/
def leadsTo (r : Route) : Place :=
  walk r.start r.names

/-- A place that is passed when names are followed from a folder. -/
def Passed (folder : Place) (names : List String) (p : Place) : Prop :=
  ∃ first, first <+: names ∧ p = walk folder first

variable {folder place p : Place} {name : String} {names more : List String} {r : Route}

theorem walk_cons (hdot : name ≠ ".") (hdots : name ≠ "..") :
    walk folder (name :: names) = walk (folder ++ [name]) names := by
  rw [walk]
  · exact hdot
  · exact hdots

theorem walk_append : walk folder (names ++ more) = walk (walk folder names) more := by
  fun_induction walk folder names with
  | case1 folder => rfl
  | case2 folder names ih | case3 folder names ih =>
    rw [List.cons_append, walk]
    exact ih
  | case4 folder name names hdot hdots ih =>
    rw [List.cons_append, walk_cons hdot hdots]
    exact ih

/-- Without `..` names lead down only, and a `.` leads nowhere. -/
theorem walk_eq_append (h : ".." ∉ names) :
    walk folder names = folder ++ names.filter (· ≠ ".") := by
  fun_induction walk folder names with
  | case1 folder => simp
  | case2 folder names ih => simpa using ih fun hmem => h (List.mem_cons_of_mem _ hmem)
  | case3 folder names ih => exact absurd List.mem_cons_self h
  | case4 folder name names hdot hdots ih =>
    have hdot : name ≠ "." := hdot
    rw [ih fun hmem => h (List.mem_cons_of_mem _ hmem)]
    simp [hdot]

theorem Passed.cons (hwalk : walk folder [name] = place) (h : Passed place names p) :
    Passed folder (name :: names) p := by
  obtain ⟨first, hfirst, rfl⟩ := h
  refine ⟨name :: first, (List.prefix_cons_inj name).mpr hfirst, ?_⟩
  rw [← hwalk, ← walk_append]
  rfl

theorem Passed.dot (h : Passed folder names p) : Passed folder ("." :: names) p :=
  .cons rfl h

theorem Passed.dots (h : Passed folder.dropLast names p) : Passed folder (".." :: names) p :=
  .cons rfl h

theorem Passed.step (hdot : name ≠ ".") (hdots : name ≠ "..")
    (h : Passed (folder ++ [name]) names p) : Passed folder (name :: names) p :=
  h.cons (walk_cons hdot hdots)

theorem passed_first (hdot : name ≠ ".") (hdots : name ≠ "..") :
    Passed folder (name :: names) (folder ++ [name]) :=
  ⟨[name], (List.prefix_cons_inj name).mpr List.nil_prefix, by rw [walk_cons hdot hdots, walk]⟩

/-- Where further names lead down, what is passed on the way to them comes first. -/
theorem passed_append (h : ".." ∉ more) (hp : Passed folder (names ++ more) p) :
    Passed folder names p ∨
      ∃ first, first <+: more ∧ p = walk folder names ++ first.filter (· ≠ ".") := by
  obtain ⟨first, hfirst, rfl⟩ := hp
  rcases List.prefix_or_prefix_of_prefix hfirst (List.prefix_append names more) with
    hbefore | ⟨rest, rfl⟩
  · exact .inl ⟨first, hbefore, rfl⟩
  · have hrest : rest <+: more := (List.prefix_append_right_inj names).mp hfirst
    refine .inr ⟨rest, hrest, ?_⟩
    rw [walk_append, walk_eq_append fun hmem => h (hrest.subset hmem)]

/-- The folders in which a file is written are passed before the last name that counts. -/
theorem exists_parentNames {start : Place} {slash : Bool} (h : ∃ name ∈ more, name ≠ ".") :
    ∃ first last, parentNames ⟨start, names ++ more, slash⟩ = names ++ first ∧
      more = first ++ last ∧ ∃ name ∈ last, name ≠ "." := by
  induction more using List.reverseRecOn with
  | nil => exact absurd h (by simp)
  | append_singleton more name ih =>
    by_cases hdot : name = "."
    · -- a `.` at the end does not count
      subst hdot
      obtain ⟨first, last, hparents, rfl, hlast⟩ := ih (by simpa using h)
      refine ⟨first, last ++ ["."], ?_, by simp, ?_⟩
      · rw [← hparents]
        simp [parentNames]
      · obtain ⟨name, hname, hne⟩ := hlast
        exact ⟨name, List.mem_append_left _ hname, hne⟩
    · have hmem : name ∈ [name] := List.mem_singleton_self name
      exact ⟨more, [name], by simp [parentNames, hdot], rfl, name, hmem, hdot⟩

end Route

namespace Tree

open Route (walk Passed passed_first)

variable {t t' t₁ t₂ t₃ : Tree} {places ways seen : Place → Prop} {folder p place : Place}
  {entry : Entry} {names : List String} {r origin : Route} {body : ByteArray}

/-! ### Where operations act -/

/-- The body of the file that stands at a place. -/
def file? (t : Tree) (p : Place) : Option ByteArray :=
  match t.entry? p with
  | some (.file body) => some body
  | _ => none

theorem file?_congr (h : t.entry? p = t'.entry? p) : t.file? p = t'.file? p := by
  rw [file?, file?, h]

/-- Names lead nowhere else than where they lead if all of them are folders. -/
theorem follow_place (h : t.follow folder names = .ok (place, entry)) :
    place = walk folder names := by
  fun_induction follow t folder names with
  | case1 folder => exact (Prod.mk.inj (Except.ok.inj h)).1.symm
  | case2 folder names ih | case3 folder names ih => exact ih h
  | case4 | case5 => cases h
  | case6 folder name names hdot hdots hlong hfolder ih =>
    rw [Route.walk_cons hdot hdots]
    exact ih h
  | case7 folder name names hdot hdots hlong body hfile hnil =>
    obtain rfl : names = [] := List.isEmpty_iff.mp hnil
    rw [Route.walk_cons hdot hdots]
    exact (Prod.mk.inj (Except.ok.inj h)).1.symm
  | case8 => cases h

theorem target_place (h : t.target r = .ok place) :
    place = r.leadsTo ∧ t.entry? place ≠ some .folder := by
  obtain ⟨-, -, names, name, folder, hnames, hdot, hdots, -, hfollow, rfl, hfolder⟩ :=
    target_cases h
  refine ⟨?_, hfolder⟩
  rw [Route.leadsTo, hnames, Route.walk_append, ← follow_place hfollow,
    Route.walk_cons hdot hdots]
  rfl

/-- Whether a folder stands at a place, if anything does. -/
def kind? (t : Tree) (p : Place) : Option Bool :=
  (t.entry? p).map Entry.isFolder

theorem kind?_eq_folder : t.kind? p = some true ↔ t.entry? p = some .folder := by
  unfold kind?
  cases t.entry? p with
  | none => simp
  | some entry => cases entry <;> simp [Entry.isFolder]

theorem kind?_eq_file : t.kind? p = some false ↔ ∃ body, t.entry? p = some (.file body) := by
  unfold kind?
  cases t.entry? p with
  | none => simp
  | some entry => cases entry <;> simp [Entry.isFolder]

theorem kind?_eq_none : t.kind? p = none ↔ t.entry? p = none :=
  Option.map_eq_none_iff

theorem folderAt_place (h : t.folderAt folder names = .ok place) : place = walk folder names := by
  obtain ⟨⟨found, entry⟩, hfollow, hentry⟩ := Except.bind_eq_ok.mp h
  cases entry with
  | folder => exact Except.ok.inj hentry ▸ follow_place hfollow
  | file body => cases hentry

/-- A file is written in a folder, where no folder stands. -/
theorem target_concat (hnames : r.names = names ++ [name]) :
    t.target r =
      if Route.hasNul r.names then .error .nulInName
      else
        match t.folderAt r.start names with
        | .error fault => .error fault
        | .ok folder =>
          if r.slash || name = "." || name = ".." then .error .isFolder
          else if isLongName name then .error .nameTooLong
          else if t.kind? (folder ++ [name]) = some true then .error .isFolder
          else .ok (folder ++ [name]) := by
  unfold target kind?
  rw [hnames, List.getLast?_concat, List.dropLast_concat]
  cases Route.hasNul (names ++ [name]) with
  | true => rfl
  | false =>
    cases t.folderAt r.start names with
    | error fault => rfl
    | ok folder =>
      dsimp only [bind, Except.bind]
      generalize (r.slash || name = "." || name = "..") = leadsAway
      generalize isLongName name = long
      cases leadsAway <;> cases long <;>
        rcases t.entry? (folder ++ [name]) with - | ⟨- | body⟩ <;> rfl

/-- A file is removed from a folder. -/
theorem remove_concat (hnames : r.names = names ++ [name]) :
    t.remove r =
      if Route.hasNul r.names then .error .nulInName
      else
        match t.folderAt r.start names with
        | .error fault => .error fault
        | .ok folder =>
          if name = "." || name = ".." then .error .isFolder
          else if isLongName name then .error .nameTooLong
          else
            match t.kind? (folder ++ [name]) with
            | none => .error .missing
            | some true => .error .isFolder
            | some false =>
              if r.slash then .error .notFolder
              else .ok { t with files := t.files.filter (·.1 ≠ folder ++ [name]) } := by
  unfold remove kind?
  rw [hnames, List.getLast?_concat, List.dropLast_concat]
  cases Route.hasNul (names ++ [name]) with
  | true => rfl
  | false =>
    cases t.folderAt r.start names with
    | error fault => rfl
    | ok folder =>
      dsimp only [bind, Except.bind]
      generalize (decide (name = ".") || decide (name = "..")) = leadsAway
      generalize isLongName name = long
      cases leadsAway <;> cases long <;> cases r.slash <;>
        rcases t.entry? (folder ++ [name]) with - | ⟨- | body⟩ <;> rfl

/-- Without names there is nothing that could be removed. -/
theorem remove_nil (hnil : r.names = []) : t.remove r = .error .isFolder := by
  unfold remove
  rw [hnil]
  rfl

/-- What is removed is a file, and stands where the route leads. -/
theorem remove_cases (h : t.remove r = .ok t') :
    (∃ body, t.entry? r.leadsTo = some (.file body)) ∧
      t' = { t with files := t.files.filter (·.1 ≠ r.leadsTo) } := by
  rcases List.eq_nil_or_concat r.names with hnil | ⟨names, name, hnames⟩
  · rw [remove_nil hnil] at h
    cases h
  · rw [List.concat_eq_append] at hnames
    rw [remove_concat hnames] at h
    split at h
    · cases h
    · split at h
      · cases h
      · rename_i folder hfolder
        split at h
        · cases h
        · rename_i hname
          simp only [Bool.or_eq_true, decide_eq_true_eq, not_or] at hname
          have hplace : r.leadsTo = folder ++ [name] := by
            rw [Route.leadsTo, hnames, Route.walk_append, ← folderAt_place hfolder,
              Route.walk_cons hname.1 hname.2]
            rfl
          rw [hplace]
          split at h
          · cases h
          · split at h
            · cases h
            · cases h
            · rename_i hkind
              split at h
              · cases h
              · exact ⟨kind?_eq_file.mp hkind, (Except.ok.inj h).symm⟩

/-! ### Changes -/

/-- From one tree to another, files change at `places` only, all folders stay, and new ones are
among the `ways`. -/
structure Changes (places ways : Place → Prop) (t t' : Tree) : Prop where
  files (p : Place) (h : ¬ places p) : t'.file? p = t.file? p
  kept (p : Place) (h : t.entry? p = some .folder) : t'.entry? p = some .folder
  made (p : Place) (h : t'.entry? p = some .folder) : t.entry? p = some .folder ∨ ways p

namespace Changes

variable {places' ways' : Place → Prop}

theorem refl (t : Tree) : t.Changes places ways t where
  files _ _ := rfl
  kept _ h := h
  made _ h := .inl h

theorem trans (h : t₁.Changes places ways t₂) (h' : t₂.Changes places ways t₃) :
    t₁.Changes places ways t₃ where
  files p hp := (h'.files p hp).trans (h.files p hp)
  kept p hp := h'.kept p (h.kept p hp)
  made p hp := (h'.made p hp).elim (h.made p) .inr

theorem mono (h : t.Changes places ways t') (hplaces : ∀ p, places p → places' p)
    (hways : ∀ p, ways p → ways' p) : t.Changes places' ways' t' where
  files p hp := h.files p fun hplace => hp (hplaces p hplace)
  kept := h.kept
  made p hp := (h.made p hp).imp_right (hways p)

/-- A change of what stands at one place, where no folder stands before or after. -/
theorem of_place (new : Option Entry) (hbefore : t.entry? place ≠ some .folder)
    (hafter : new ≠ some .folder)
    (hchange : ∀ p, t'.entry? p = if p = place then new else t.entry? p) :
    t.Changes (· = place) (fun _ => False) t' where
  files p hp := file?_congr (by rw [hchange, if_neg hp])
  kept p hp := by
    have hp' : p ≠ place := by
      rintro rfl
      exact hbefore hp
    rw [hchange, if_neg hp', hp]
  made p hp := by
    rw [hchange] at hp
    split at hp
    · exact absurd hp hafter
    · exact .inl hp

theorem addFolder (h : t.entry? place = none) :
    t.Changes (fun _ => False) (· = place) { t with folders := t.folders ++ [place] } where
  files p _ := by
    rw [file?, file?, entry?_addFolder]
    by_cases hp : p = place
    · rw [if_pos hp, hp, h]
    · rw [if_neg hp]
  kept p hp := by
    rw [ entry?_addFolder, hp, ite_self]
  made p hp := by
    rw [ entry?_addFolder] at hp
    split at hp
    · exact .inr ‹_›
    · exact .inl hp

end Changes

/-- Folders are made where names pass, and files stay. -/
theorem makeFolders_changes (t : Tree) (folder : Place) (names : List String) :
    t.Changes (fun _ => False) (Passed folder names) (t.makeFolders folder names).2 := by
  fun_induction makeFolders t folder names with
  | case1 | case4 | case6 => exact .refl _
  | case2 t folder names ih => exact ih.mono (fun _ => id) fun _ => .dot
  | case3 t folder names ih => exact ih.mono (fun _ => id) fun _ => .dots
  | case5 t folder name names hdot hdots hlong place hfolder ih =>
    exact ih.mono (fun _ => id) fun _ => .step hdot hdots
  | case7 t folder name names hdot hdots hlong place hnone ih =>
    exact .trans ((Changes.addFolder hnone).mono (fun _ => id)
        fun p (hp : p = place) => hp ▸ passed_first hdot hdots)
      (ih.mono (fun _ => id) fun _ => .step hdot hdots)

theorem makeParents_changes (t : Tree) (r : Route) :
    t.Changes (fun _ => False) (Passed r.start r.parentNames) (t.makeParents r).2 := by
  unfold makeParents
  split
  · exact .refl t
  · exact makeFolders_changes t r.start r.parentNames

theorem withFile_changes (h : t.target r = .ok place) :
    t.Changes (· = r.leadsTo) (fun _ => False) (t.withFile place body) := by
  obtain ⟨rfl, hfolder⟩ := target_place h
  exact .of_place (some (.file body)) hfolder (by simp) fun p => entry?_withFile_eq hfolder

theorem write_changes (h : t.write r body = .ok t') :
    t.Changes (· = r.leadsTo) (fun _ => False) t' := by
  obtain ⟨place, hplace, hok⟩ := Except.bind_eq_ok.mp h
  exact Except.ok.inj hok ▸ withFile_changes hplace

theorem copy_changes {size : Nat} (h : t.copy origin r = .ok (size, t')) :
    t.Changes (· = r.leadsTo) (fun _ => False) t' := by
  obtain ⟨⟨source, entry⟩, -, h⟩ := Except.bind_eq_ok.mp h
  cases entry with
  | folder => cases h
  | file body =>
    obtain ⟨place, hplace, hok⟩ := Except.bind_eq_ok.mp h
    obtain ⟨-, rfl⟩ := Prod.mk.inj (Except.ok.inj hok)
    exact withFile_changes hplace

theorem remove_changes (h : t.remove r = .ok t') :
    t.Changes (· = r.leadsTo) (fun _ => False) t' := by
  obtain ⟨⟨body, hfile⟩, rfl⟩ := remove_cases h
  have hfolder : t.entry? r.leadsTo ≠ some .folder := by simp [hfile]
  exact .of_place none hfolder nofun fun p => entry?_filter hfolder

/-! ### What operations see -/

/-- Two trees have the same at the places that are `seen`, and the same kinds of things at those
that are `passed`. -/
structure Alike (passed seen : Place → Prop) (t t' : Tree) : Prop where
  kinds (p : Place) (h : passed p) : t.kind? p = t'.kind? p
  entries (p : Place) (h : seen p) : t.entry? p = t'.entry? p

theorem follow_file (h : t.follow folder names = .ok (place, .file body)) :
    t.entry? place = some (.file body) := by
  fun_induction follow t folder names with
  | case1 | case4 | case5 | case8 => cases h
  | case2 folder names ih | case3 folder names ih => exact ih h
  | case6 folder name names hdot hdots hlong hfolder ih => exact ih h
  | case7 folder name names hdot hdots hlong body hfile hnil =>
    obtain ⟨rfl, hentry⟩ := Prod.mk.inj (Except.ok.inj h)
    rw [hfile, hentry]

/-- A place and the kind of what stands there. -/
def kindFound (found : Place × Entry) : Place × Bool :=
  (found.1, found.2.isFolder)

/-- A name that is neither `.` nor `..` is followed to what stands there. -/
theorem follow_name (hdot : name ≠ ".") (hdots : name ≠ "..") :
    t.follow folder (name :: names) =
      if isLongName name then .error .nameTooLong
      else
        match t.entry? (folder ++ [name]) with
        | none => .error .missing
        | some .folder => t.follow (folder ++ [name]) names
        | some (.file body) =>
          if names.isEmpty then .ok (folder ++ [name], .file body) else .error .notFolder := by
  rw [follow]
  all_goals first | rfl | exact hdot | exact hdots

/-- At a name that is neither `.` nor `..` a folder is made if nothing stands there. -/
theorem makeFolders_name (hdot : name ≠ ".") (hdots : name ≠ "..") :
    t.makeFolders folder (name :: names) =
      if isLongName name then (.error .nameTooLong, t)
      else
        match t.entry? (folder ++ [name]) with
        | some .folder => t.makeFolders (folder ++ [name]) names
        | some (.file _) => (.error (if names.isEmpty then .alreadyThere else .notFolder), t)
        | none => Tree.makeFolders { t with folders := t.folders ++ [folder ++ [name]] }
            (folder ++ [name]) names := by
  rw [makeFolders]
  all_goals first | rfl | exact hdot | exact hdots

section Kinds

variable (h : ∀ p, Passed folder names p → t.kind? p = t'.kind? p)

include h

theorem follow_kinds :
    (t.follow folder names).map kindFound = (t'.follow folder names).map kindFound := by
  fun_induction follow t folder names with
  | case1 folder => rfl
  | case2 folder names ih =>
    rw [follow]
    exact ih fun p hp => h p hp.dot
  | case3 folder names ih =>
    rw [follow]
    exact ih fun p hp => h p hp.dots
  | case4 folder name names hdot hdots hlong =>
    rw [follow_name hdot hdots, if_pos hlong]
  | case5 folder name names hdot hdots hlong hnone =>
    have hnone' := kind?_eq_none.mp ((h _ (passed_first hdot hdots)).symm.trans
      (kind?_eq_none.mpr hnone))
    rw [follow_name hdot hdots, if_neg hlong, hnone']
  | case6 folder name names hdot hdots hlong hfolder ih =>
    have hfolder' := kind?_eq_folder.mp ((h _ (passed_first hdot hdots)).symm.trans
      (kind?_eq_folder.mpr hfolder))
    rw [follow_name hdot hdots, if_neg hlong, hfolder']
    exact ih fun p hp => h p (hp.step hdot hdots)
  | case7 folder name names hdot hdots hlong body hfile hnil =>
    obtain ⟨body', hfile'⟩ := kind?_eq_file.mp ((h _ (passed_first hdot hdots)).symm.trans
      (kind?_eq_file.mpr ⟨body, hfile⟩))
    rw [follow_name hdot hdots, if_neg hlong, hfile']
    simp only [hnil, if_true]
    rfl
  | case8 folder name names hdot hdots hlong body hfile hnil =>
    obtain ⟨body', hfile'⟩ := kind?_eq_file.mp ((h _ (passed_first hdot hdots)).symm.trans
      (kind?_eq_file.mpr ⟨body, hfile⟩))
    rw [follow_name hdot hdots, if_neg hlong, hfile']
    simp only [hnil]
    rfl

theorem folderAt_kinds : t.folderAt folder names = t'.folderAt folder names := by
  have hkinds := follow_kinds h
  unfold folderAt
  rcases hfollow : t.follow folder names with fault | ⟨place, entry⟩ <;>
    rcases hfollow' : t'.follow folder names with fault' | ⟨place', entry'⟩ <;>
    rw [hfollow, hfollow'] at hkinds
  · rw [Except.error.inj hkinds]
  · cases hkinds
  · cases hkinds
  · obtain ⟨hplace, hkind⟩ := Prod.mk.inj (Except.ok.inj hkinds)
    obtain rfl : place = place' := hplace
    cases entry <;> cases entry' <;> first | rfl | cases hkind

end Kinds

section Routes

variable (h : ∀ p, Passed r.start r.names p → t.kind? p = t'.kind? p)

include h

/-- Before a last name the same is found, and what stands at the last name is of one kind. -/
theorem last_kinds {name : String} (hnames : r.names = names ++ [name]) :
    t.folderAt r.start names = t'.folderAt r.start names ∧
      (name ≠ "." → name ≠ ".." → ∀ folder, t.folderAt r.start names = .ok folder →
        t.kind? (folder ++ [name]) = t'.kind? (folder ++ [name])) := by
  rw [hnames] at h
  refine ⟨folderAt_kinds fun p ⟨first, hfirst, hp⟩ =>
    h p ⟨first, hfirst.trans (List.prefix_append _ _), hp⟩, fun hdot hdots folder hfolder => ?_⟩
  refine h _ ⟨names ++ [name], List.prefix_rfl, ?_⟩
  rw [folderAt_place hfolder, Route.walk_append, Route.walk_cons hdot hdots]
  rfl

/-- Where a file may be written depends only on the kinds of what stands on the way. -/
theorem target_kinds : t.target r = t'.target r := by
  rcases List.eq_nil_or_concat r.names with hnil | ⟨names, name, hnames⟩
  · unfold target
    rw [hnil]
    rfl
  · rw [List.concat_eq_append] at hnames
    obtain ⟨hfolders, hkinds⟩ := last_kinds h hnames
    rw [target_concat hnames, target_concat hnames, ← hfolders]
    cases hfolder : t.folderAt r.start names with
    | error fault => rfl
    | ok folder =>
      by_cases hname : r.slash || name = "." || name = ".."
      · simp only [if_pos hname]
      · simp only [if_neg hname]
        simp only [Bool.or_eq_true, decide_eq_true_eq, not_or] at hname
        rw [hkinds hname.1.2 hname.2 folder hfolder]

/-- Whether a file can be removed depends only on the kinds of what stands on the way. -/
theorem remove_kinds : (t.remove r).map (fun _ => ()) = (t'.remove r).map fun _ => () := by
  rcases List.eq_nil_or_concat r.names with hnil | ⟨names, name, hnames⟩
  · rw [remove_nil hnil, remove_nil hnil]
  · rw [List.concat_eq_append] at hnames
    obtain ⟨hfolders, hkinds⟩ := last_kinds h hnames
    rw [remove_concat hnames, remove_concat hnames, ← hfolders]
    cases hfolder : t.folderAt r.start names with
    | error fault => rfl
    | ok folder =>
      by_cases hname : decide (name = ".") || decide (name = "..")
      · simp only [if_pos hname]
      · simp only [if_neg hname]
        simp only [Bool.or_eq_true, decide_eq_true_eq, not_or] at hname
        rw [hkinds hname.1 hname.2 folder hfolder]
        cases Route.hasNul r.names <;> cases isLongName name <;> cases r.slash <;>
          rcases t'.kind? (folder ++ [name]) with - | ⟨- | -⟩ <;> rfl

end Routes

namespace Alike

/-- A file that is neither passed nor seen does not count. -/
theorem of_unseen (hplace : t.entry? place ≠ some .folder) (hpassed : ¬ passed place)
    (hseen : ¬ seen place) : t.Alike passed seen (t.withFile place body) where
  kinds p hp := by
    have hne : p ≠ place := fun heq => hpassed (heq ▸ hp)
    rw [kind?, kind?, entry?_withFile_eq hplace, if_neg hne]
  entries p hp := by
    have hne : p ≠ place := fun heq => hseen (heq ▸ hp)
    rw [ entry?_withFile_eq hplace, if_neg hne]

variable (h : t.Alike passed seen t')

include h

/-- What is the same is also of the same kind. -/
theorem also_seen : t.Alike (fun p => passed p ∨ seen p) seen t' where
  kinds p hp := hp.elim (h.kinds p) fun hseen => congrArg (Option.map _) (h.entries p hseen)
  entries := h.entries

theorem withFile (hbefore : t.entry? place ≠ some .folder)
    (hbefore' : t'.entry? place ≠ some .folder) :
    Alike passed seen (t.withFile place body) (t'.withFile place body) where
  kinds p hp := by
    rw [kind?, kind?, entry?_withFile_eq hbefore, entry?_withFile_eq hbefore',
      apply_ite (Option.map _), apply_ite (Option.map _)]
    split
    · rfl
    · exact h.kinds p hp
  entries p hp := by
    rw [ entry?_withFile_eq hbefore, entry?_withFile_eq hbefore', h.entries p hp]

theorem filter (hbefore : t.entry? place ≠ some .folder)
    (hbefore' : t'.entry? place ≠ some .folder) :
    Alike passed seen { t with files := t.files.filter (·.1 ≠ place) }
      { t' with files := t'.files.filter (·.1 ≠ place) } where
  kinds p hp := by
    rw [kind?, kind?, entry?_filter hbefore, entry?_filter hbefore', apply_ite (Option.map _),
      apply_ite (Option.map _)]
    split
    · rfl
    · exact h.kinds p hp
  entries p hp := by
    rw [ entry?_filter hbefore, entry?_filter hbefore', h.entries p hp]

theorem addFolder :
    Alike passed seen { t with folders := t.folders ++ [place] }
      { t' with folders := t'.folders ++ [place] } where
  kinds p hp := by
    rw [kind?, kind?, entry?_addFolder, entry?_addFolder, apply_ite (Option.map _),
      apply_ite (Option.map _)]
    split
    · rfl
    · exact h.kinds p hp
  entries p hp := by
    rw [ entry?_addFolder, entry?_addFolder, h.entries p hp]

/-- Folders are made alike. -/
theorem makeFolders (hpassed : ∀ p, Passed folder names p → passed p) :
    (t.makeFolders folder names).1 = (t'.makeFolders folder names).1 ∧
      Alike passed seen (t.makeFolders folder names).2 (t'.makeFolders folder names).2 := by
  revert t'
  fun_induction Tree.makeFolders t folder names with
  | case1 t folder => exact fun h => ⟨rfl, h⟩
  | case2 t folder names ih => exact fun h => ih (fun p hp => hpassed p hp.dot) h
  | case3 t folder names ih => exact fun h => ih (fun p hp => hpassed p hp.dots) h
  | case4 t folder name names hdot hdots hlong =>
    intro t' h
    rw [makeFolders_name hdot hdots, if_pos hlong]
    exact ⟨rfl, h⟩
  | case5 t folder name names hdot hdots hlong place hfolder ih =>
    intro t' h
    have hkind := h.kinds _ (hpassed _ (passed_first hdot hdots))
    have hfolder' := kind?_eq_folder.mp (hkind.symm.trans (kind?_eq_folder.mpr hfolder))
    rw [makeFolders_name hdot hdots, if_neg hlong, hfolder']
    exact ih (fun p hp => hpassed p (hp.step hdot hdots)) h
  | case6 t folder name names hdot hdots hlong place body hfile =>
    intro t' h
    have hkind := h.kinds _ (hpassed _ (passed_first hdot hdots))
    obtain ⟨body', hfile'⟩ := kind?_eq_file.mp
      (hkind.symm.trans (kind?_eq_file.mpr ⟨body, hfile⟩))
    rw [makeFolders_name hdot hdots, if_neg hlong, hfile']
    exact ⟨rfl, h⟩
  | case7 t folder name names hdot hdots hlong place hnone ih =>
    intro t' h
    have hkind := h.kinds _ (hpassed _ (passed_first hdot hdots))
    have hnone' := kind?_eq_none.mp (hkind.symm.trans (kind?_eq_none.mpr hnone))
    rw [makeFolders_name hdot hdots, if_neg hlong, hnone']
    exact ih (fun p hp => hpassed p (hp.step hdot hdots)) h.addFolder

theorem makeParents (hpassed : ∀ p, Passed r.start r.parentNames p → passed p) :
    (t.makeParents r).1 = (t'.makeParents r).1 ∧
      Alike passed seen (t.makeParents r).2 (t'.makeParents r).2 := by
  unfold Tree.makeParents
  split
  · exact ⟨rfl, h⟩
  · exact h.makeFolders hpassed

variable (hpassed : ∀ p, Passed r.start r.names p → passed p)

include hpassed

theorem target_eq : t.target r = t'.target r :=
  target_kinds fun p hp => h.kinds p (hpassed p hp)

/-- A file is removed from both trees or from none. -/
theorem remove :
    (∃ fault, t.remove r = .error fault ∧ t'.remove r = .error fault) ∨
      ∃ after after', t.remove r = .ok after ∧ t'.remove r = .ok after' ∧
        Alike passed seen after after' := by
  have hkinds := remove_kinds fun p hp => h.kinds p (hpassed p hp)
  cases hremove : t.remove r with
  | error fault =>
    cases hremove' : t'.remove r with
    | ok after' =>
      rw [hremove, hremove'] at hkinds
      cases hkinds
    | error fault' =>
      rw [hremove, hremove'] at hkinds
      exact .inl ⟨fault, rfl, by rw [Except.error.inj hkinds]⟩
  | ok after =>
    cases hremove' : t'.remove r with
    | error fault' =>
      rw [hremove, hremove'] at hkinds
      cases hkinds
    | ok after' =>
      obtain ⟨⟨body, hfile⟩, rfl⟩ := remove_cases hremove
      obtain ⟨⟨body', hfile'⟩, rfl⟩ := remove_cases hremove'
      exact .inr ⟨_, _, rfl, rfl, h.filter (by simp [hfile]) (by simp [hfile'])⟩

/-- The same is found where both trees have the same. -/
theorem find_eq (hseen : seen r.leadsTo) : t.find r = t'.find r := by
  have hkinds : (t.follow r.start r.names).map kindFound =
      (t'.follow r.start r.names).map kindFound :=
    follow_kinds fun p hp => h.kinds p (hpassed p hp)
  have hfollow : t.follow r.start r.names = t'.follow r.start r.names := by
    rcases hfound : t.follow r.start r.names with fault | ⟨place, entry⟩ <;>
      rcases hfound' : t'.follow r.start r.names with fault' | ⟨place', entry'⟩ <;>
      rw [hfound, hfound'] at hkinds
    · rw [Except.error.inj hkinds]
    · cases hkinds
    · cases hkinds
    · obtain ⟨hplace, hkind⟩ := Prod.mk.inj (Except.ok.inj hkinds)
      obtain rfl : place = place' := hplace
      cases entry <;> cases entry' <;> first | rfl | cases hkind
      -- the bodies of files are compared where the names lead
      rw [← Option.some.inj ((follow_file hfound).symm.trans ((h.entries _ ?_).trans
        (follow_file hfound')))]
      exact follow_place hfound ▸ hseen
  unfold find
  rw [hfollow]

end Alike

end Tree

end Conveyor
