import Conveyor.Proofs.Store.Folders
import Conveyor.Proofs.Store.Memory

/-!
# A store in memory and one on files that hold the same

`FileStore.Mirrors` says that the files of a tree hold what a store in memory holds, as far as one
sees from the places of the tree: below the folder of the objects stand the files of the objects and
folders on the way to objects that are ever named, and each table stands in its file or has neither
items nor a file. Deleted objects and copies that failed leave folders behind; these do no harm
because no object is ever named whose file would stand on the way to another one.

The objects and the tables are followed apart from each other. What is done below one folder spares
the places below the other one (`Tree.Spares`), and this is all that the other part needs.
-/

namespace Conveyor

/-! ### Changes elsewhere -/

/-- Nothing is changed below a place; on the way there folders may be new, but no files. -/
structure Tree.Spares (place : Place) (t t' : Tree) : Prop where
  folder (p : Place) (h : t.entry? p = some .folder) : t'.entry? p = some .folder
  file (p : Place) (body : ByteArray) (hp : p <+: place) (h : t'.entry? p = some (.file body)) :
    t.entry? p = some (.file body)
  below (p : Place) (hp : place <+: p) (hne : p ≠ place) : t'.entry? p = t.entry? p

namespace Tree

variable {t t' : Tree} {place folder p q : Place} {names : List String} {body : ByteArray}

theorem Spares.clear {start : Place} (h : Tree.Spares (start ++ names) t t')
    (hclear : t.Clear start names) : t'.Clear start names :=
  fun p hp body hfile => hclear p hp body (h.file p body hp.2.2 hfile)

theorem Spares.paved (h : Tree.Spares place t t') {start : Place} (hpaved : t.Paved start names) :
    t'.Paved start names :=
  fun p hp => h.folder p (hpaved p hp)

/-- Folders that are made spare a place if none of them is below it. -/
theorem Spares.of_paved (hpaved : t'.Paved folder names)
    (hsame : ∀ p, ¬ Along folder names p → t'.entry? p = t.entry? p)
    (hapart : ¬ place <+: folder ++ names) : Tree.Spares place t t' where
  folder p h := by
    by_cases hp : Along folder names p
    · exact hpaved p hp
    · exact (hsame p hp).trans h
  file p body _ h := by
    by_cases hp : Along folder names p
    · cases (hpaved p hp).symm.trans h
    · exact (hsame p hp).symm.trans h
  below p hp _ := hsame p fun halong => hapart (hp.trans halong.2.2)

/-- A change at one place spares another one if it is no folder and neither is below the other. -/
theorem Spares.of_ne {entry : Option Entry} (hq : t.entry? q ≠ some .folder)
    (hchange : ∀ p, t'.entry? p = if p = q then entry else t.entry? p) (h : ¬ q <+: place)
    (h' : ¬ place <+: q) : Tree.Spares place t t' where
  folder p hp := by
    have hne : p ≠ q := fun heq => hq (heq ▸ hp)
    rw [hchange, if_neg hne, hp]
  file p body hp hfile := by
    have hne : p ≠ q := fun heq => h (heq ▸ hp)
    rwa [hchange, if_neg hne] at hfile
  below p hp _ := by
    have hne : p ≠ q := fun heq => h' (heq ▸ hp)
    rw [hchange, if_neg hne]

/-- A paved way stays so when something changes where no folder stands. -/
theorem Paved.of_ne {entry : Option Entry} (hpaved : t.Paved folder names)
    (hq : t.entry? q ≠ some .folder)
    (hchange : ∀ p, t'.entry? p = if p = q then entry else t.entry? p) : t'.Paved folder names := by
  intro p hp
  have hne : p ≠ q := fun heq => hq (heq ▸ hpaved p hp)
  rw [hchange, if_neg hne, hpaved p hp]

end Tree

namespace FileStore

/-- The objects and the tables stand in folders of their own, which ordinary names lead to. -/
structure Separate (s : FileStore) : Prop where
  objects : ∀ name ∈ s.objects.names, Route.Ordinary name
  tables : ∀ name ∈ s.tables.names, Route.Ordinary name
  objects_apart : ¬ s.objects.place <+: s.tables.place
  tables_apart : ¬ s.tables.place <+: s.objects.place

/-- Objects that may be named together: no file stands on the way to another one. -/
structure Compatible (s : FileStore) (K : ObjectRef → Prop) : Prop where
  ordinary : ∀ r, K r → r.Ordinary
  eq_of_prefix : ∀ r r', K r → K r' → s.placeOf r <+: s.placeOf r' → r = r'

variable {s : FileStore} {K : ObjectRef → Prop} {t t' : Tree} {r : ObjectRef} {body : ByteArray}

/-- The names that lead to the folder of an object. -/
def way (s : FileStore) (r : ObjectRef) : List String :=
  s.objects.names ++ (objectNames r).dropLast

/-- The file of an object stands under the last of its names. -/
theorem exists_route (hs : s.Separate) (hr : r.Ordinary) :
    ∃ name, s.locate r = .ok ⟨s.objects.start, s.way r ++ [name], false⟩ ∧
      s.placeOf r = s.objects.start ++ (s.way r ++ [name]) ∧
      ∀ other ∈ s.way r ++ [name], Route.Ordinary other := by
  have hne : objectNames r ≠ [] := List.cons_ne_nil _ _
  have hnames : s.way r ++ [(objectNames r).getLast hne] = s.objects.names ++ objectNames r := by
    rw [way, List.append_assoc, List.dropLast_append_getLast]
  refine ⟨(objectNames r).getLast hne, ?_, ?_, ?_⟩ <;> rw [hnames]
  · exact locate_eq hr
  · rw [placeOf, Route.place, List.append_assoc]
  · exact fun other hother => (List.mem_append.mp hother).elim (hs.objects other)
      (objectNames_ordinary hr other)

/-- The places on the way to an object, seen from the folder of the objects. -/
theorem along_way {p : Place} (h : Along s.objects.start (s.way r) p) :
    Along s.objects.start s.objects.names p ∨
      s.objects.place <+: p ∧ p ≠ s.objects.place ∧ p <+: s.placeOf r ∧ p ≠ s.placeOf r := by
  have hwhole : s.objects.start ++ s.way r = s.objects.place ++ (objectNames r).dropLast :=
    (List.append_assoc _ _ _).symm
  obtain ⟨hne, hstart, hp⟩ := h
  rw [hwhole] at hp
  by_cases hshort : p <+: s.objects.place
  · exact .inl ⟨hne, hstart, hshort⟩
  · have hlong := (List.prefix_or_prefix_of_prefix hp (List.prefix_append _ _)).resolve_left hshort
    refine .inr ⟨hlong, fun heq => hshort (heq ▸ List.prefix_rfl), ?_, fun heq => ?_⟩
    · exact hp.trans ((List.prefix_append_right_inj _).mpr (List.dropLast_prefix _))
    · have hlength := hp.length_le
      rw [heq, placeOf] at hlength
      simp [objectNames] at hlength

theorem placeOf_ne : s.placeOf r ≠ s.objects.place := by
  simp [placeOf, objectNames]

theorem place_prefix_placeOf : s.objects.place <+: s.placeOf r :=
  List.prefix_append _ _

/-! ### The objects -/

/-- The files of a tree hold the objects that are found by `object?`, out of those in `K`. -/
structure ShowsObjects (s : FileStore) (K : ObjectRef → Prop)
    (object? : ObjectRef → Option ByteArray) (t : Tree) : Prop where
  clear : t.Clear s.objects.start s.objects.names
  known (r : ObjectRef) (h : (object? r).isSome) : K r
  file (p : Place) (body : ByteArray) (hp : s.objects.place <+: p) :
    t.entry? p = some (.file body) ↔ ∃ r, s.placeOf r = p ∧ object? r = some body
  /-- The folders are on the way to objects. -/
  folder (p : Place) (hp : s.objects.place <+: p) (hne : p ≠ s.objects.place)
    (h : t.entry? p = some .folder) : ∃ r, K r ∧ p <+: s.placeOf r ∧ p ≠ s.placeOf r
  /-- The folders of a file are there. -/
  paved (r : ObjectRef) (h : (object? r).isSome) : t.Paved s.objects.start (s.way r)

namespace ShowsObjects

variable {object? : ObjectRef → Option ByteArray} (h : s.ShowsObjects K object? t)
  (hK : s.Compatible K) (hr : K r)

include h

/-- What happens elsewhere does not matter. -/
theorem spares (hspares : Tree.Spares s.objects.place t t') : s.ShowsObjects K object? t' where
  clear := hspares.clear h.clear
  known := h.known
  file p body hp := by
    by_cases hne : p = s.objects.place
    · -- at the folder itself there is no file before and after
      refine iff_of_false (fun hfile => ?_) fun ⟨r, hr, _⟩ => placeOf_ne (hr.trans hne)
      have hbefore := hspares.file p body (hne ▸ List.prefix_rfl) hfile
      obtain ⟨r, hr, -⟩ := (h.file p body hp).mp hbefore
      exact placeOf_ne (hr.trans hne)
    · rw [hspares.below p hp hne]
      exact h.file p body hp
  folder p hp hne hfolder := h.folder p hp hne (hspares.below p hp hne ▸ hfolder)
  paved r hr := hspares.paved (h.paved r hr)

theorem entry?_eq_file (hbody : object? r = some body) :
    t.entry? (s.placeOf r) = some (.file body) :=
  (h.file _ body place_prefix_placeOf).mpr ⟨r, rfl, hbody⟩

include hK hr

theorem entry?_ne_folder : t.entry? (s.placeOf r) ≠ some .folder := by
  intro hfolder
  obtain ⟨r', hr', hway, hne⟩ := h.folder _ place_prefix_placeOf placeOf_ne hfolder
  exact hne (congrArg s.placeOf (hK.eq_of_prefix r r' hr hr' hway))

theorem entry?_eq_none (hnone : object? r = none) : t.entry? (s.placeOf r) = none := by
  cases hentry : t.entry? (s.placeOf r) with
  | none => rfl
  | some entry =>
    cases entry with
    | folder => exact absurd hentry (h.entry?_ne_folder hK hr)
    | file body =>
      obtain ⟨r', hplace, hbody⟩ := (h.file _ body place_prefix_placeOf).mp hentry
      have hr' := h.known r' (Option.isSome_of_eq_some hbody)
      rw [hK.eq_of_prefix r' r hr' hr (hplace ▸ List.prefix_rfl), hnone] at hbody
      cases hbody

/-- No file stands on the way to an object that may be named. -/
theorem clear_way : t.Clear s.objects.start (s.way r) := by
  intro p hp body hfile
  rcases along_way hp with hp | ⟨hbelow, -, hway, hne⟩
  · exact h.clear p hp body hfile
  · obtain ⟨r', rfl, hbody⟩ := (h.file p body hbelow).mp hfile
    have hr' := h.known r' (Option.isSome_of_eq_some hbody)
    exact hne (congrArg s.placeOf (hK.eq_of_prefix r' r hr' hr hway))

/-- The folders of an object have been made. -/
theorem makeFolders (hpaved : t'.Paved s.objects.start (s.way r))
    (hsame : ∀ p, ¬ Along s.objects.start (s.way r) p → t'.entry? p = t.entry? p) :
    s.ShowsObjects K object? t' where
  clear p hp body hfile := by
    by_cases halong : Along s.objects.start (s.way r) p
    · cases (hpaved p halong).symm.trans hfile
    · exact h.clear p hp body (hsame p halong ▸ hfile)
  known := h.known
  file p body hp := by
    by_cases halong : Along s.objects.start (s.way r) p
    · refine iff_of_false (fun hfile => ?_) fun ⟨r', hplace, hbody⟩ => ?_
      · cases (hpaved p halong).symm.trans hfile
      · exact h.clear_way hK hr p halong body ((h.file p body hp).mpr ⟨r', hplace, hbody⟩)
    · rw [hsame p halong]
      exact h.file p body hp
  folder p hp hne hfolder := by
    by_cases halong : Along s.objects.start (s.way r) p
    · rcases along_way halong with hshort | ⟨-, -, hway, hne'⟩
      · exact absurd (hshort.2.2.eq_of_length_le hp.length_le) hne
      · exact ⟨r, hr, hway, hne'⟩
    · exact h.folder p hp hne (hsame p halong ▸ hfolder)
  paved r' hr' p hp := by
    by_cases halong : Along s.objects.start (s.way r) p
    · exact hpaved p halong
    · rw [hsame p halong, h.paved r' hr' p hp]

/-- The entry at the place of an object has become a file or none. -/
theorem setEntry {entry : Option ByteArray} {object?' : ObjectRef → Option ByteArray}
    (hpaved : entry.isSome → t.Paved s.objects.start (s.way r))
    (hchange : ∀ p, t'.entry? p = if p = s.placeOf r then entry.map .file else t.entry? p)
    (hobject : ∀ r', object?' r' = if r' = r then entry else object? r') :
    s.ShowsObjects K object?' t' := by
  have hfolder := h.entry?_ne_folder hK hr
  have hentry : t'.entry? (s.placeOf r) = entry.map .file := by rw [hchange, if_pos rfl]
  have hself : object?' r = entry := by rw [hobject, if_pos rfl]
  have hother {r' : ObjectRef} (hne : r' ≠ r) : object?' r' = object? r' := by
    rw [hobject, if_neg hne]
  constructor
  case clear =>
    intro p hp body hfile
    have hne : p ≠ s.placeOf r := by
      -- the file of an object is below the folder, and not on the way there
      rintro rfl
      exact placeOf_ne (hp.2.2.eq_of_length_le place_prefix_placeOf.length_le)
    rw [hchange, if_neg hne] at hfile
    exact h.clear p hp body hfile
  case known =>
    intro r' hr'
    by_cases heq : r' = r
    · exact heq ▸ hr
    · exact h.known r' (hother heq ▸ hr')
  case file =>
    intro p body hp
    by_cases heq : p = s.placeOf r
    · subst heq
      have honly {r' : ObjectRef} (hplace : s.placeOf r' = s.placeOf r)
          (hbody : object?' r' = some body) : r' = r := by
        by_contra hne
        have hr' := h.known r' (Option.isSome_of_eq_some ((hother hne).symm.trans hbody))
        exact hne (hK.eq_of_prefix r' r hr' hr (hplace ▸ List.prefix_rfl))
      rw [hentry, Option.map_eq_some_iff]
      constructor
      · rintro ⟨body', hbody, hfile⟩
        exact ⟨r, rfl, (hself.trans hbody).trans (congrArg some (Entry.file.inj hfile))⟩
      · rintro ⟨r', hplace, hbody⟩
        exact ⟨body, hself.symm.trans (honly hplace hbody ▸ hbody), rfl⟩
    · rw [hchange, if_neg heq, h.file p body hp]
      refine exists_congr fun r' => and_congr_right fun hplace => ?_
      rw [hother fun hr' => heq (hr' ▸ hplace.symm)]
  case folder =>
    intro p hp hne hp'
    rw [hchange] at hp'
    split at hp'
    · obtain ⟨_, -, hfile⟩ := Option.map_eq_some_iff.mp hp'
      cases hfile
    · exact h.folder p hp hne hp'
  case paved =>
    intro r' hr'
    refine Tree.Paved.of_ne ?_ hfolder hchange
    by_cases heq : r' = r
    · exact heq ▸ hpaved (hself ▸ heq ▸ hr')
    · exact h.paved r' (hother heq ▸ hr')

end ShowsObjects

/-! ### The tables -/

/-- The place of the file of a table. -/
def tablePlace (s : FileStore) (name : String) : Place :=
  s.tables.place ++ [name ++ ".json"]

theorem tablePlace_injective {name name' : String} (h : s.tablePlace name = s.tablePlace name') :
    name = name' := by
  have hfile : name ++ ".json" = name' ++ ".json" := by simpa [tablePlace] using h
  have hchars := congrArg String.toList hfile
  simp only [String.toList_append] at hchars
  exact String.toList_inj.mp (List.append_cancel_right hchars)

/-- The files of a tree hold the tables of a store in memory. -/
structure ShowsTables (s : FileStore) (m : Memory) (t : Tree) : Prop where
  clear : t.Clear s.tables.start s.tables.names
  schema (name : String) : s.schemas.lookup name = m.partitionKey? name
  ordinary (name : String) (table : Table) (h : m.tables.lookup name = some table) :
    Route.Ordinary (name ++ ".json")
  sorted (name : String) (table : Table) (h : m.tables.lookup name = some table) :
    (table.rows.map Prod.fst).Pairwise (· < ·)
  /-- A table has neither items nor a file, or a file with its items. -/
  file (name : String) (table : Table) (h : m.tables.lookup name = some table) :
    t.entry? (s.tablePlace name) = none ∧ table.rows = [] ∨
      t.entry? (s.tablePlace name) = some (.file (tableText table.rows).toUTF8) ∧
        t.Paved s.tables.start s.tables.names

end FileStore

namespace Keyed

variable {α : Type} {key : String} {value : α} {entries rows : List (String × α)}

theorem insert_of_lt (h : ∀ k ∈ entries.map Prod.fst, k < key) :
    insert key value entries = entries ++ [(key, value)] := by
  induction entries with
  | nil => rfl
  | cons e entries ih =>
    obtain ⟨k, v⟩ := e
    obtain ⟨hk, hentries⟩ := List.forall_mem_cons.mp h
    rw [insert, if_neg hk.ne, if_neg hk.asymm, ih hentries, List.cons_append]

theorem insert_sorted (h : (entries.map Prod.fst).Pairwise (· < ·)) :
    ((insert key value entries).map Prod.fst).Pairwise (· < ·) := by
  induction entries with
  | nil => exact List.pairwise_singleton _ _
  | cons e entries ih =>
    obtain ⟨k, v⟩ := e
    obtain ⟨hlt, hentries⟩ := List.pairwise_cons.mp h
    unfold insert
    split
    · rename_i hk
      exact hk ▸ h
    · rename_i hne
      split
      · rename_i hkey
        refine List.pairwise_cons.mpr ⟨fun other hother => ?_, h⟩
        rcases List.mem_cons.mp hother with rfl | hother
        · exact hkey
        · exact hkey.trans (hlt other hother)
      · rename_i hkey
        refine List.pairwise_cons.mpr ⟨fun other hother => ?_, ih hentries⟩
        rcases mem_keys_insert.mp hother with rfl | hother
        · exact lt_of_le_of_ne (not_lt.mp hkey) hne
        · exact hlt other hother

theorem foldl_insert_sorted (h : (entries.map Prod.fst).Pairwise (· < ·)) :
    ((rows.foldl (fun acc e => insert e.1 e.2 acc) entries).map Prod.fst).Pairwise (· < ·) := by
  induction rows generalizing entries with
  | nil => exact h
  | cons e rows ih => exact ih (insert_sorted h)

/-- Entries that are put one after another into a list without entries stay as they are if they are
in order. -/
theorem foldl_insert (h : (rows.map Prod.fst).Pairwise (· < ·)) :
    rows.foldl (fun acc e => insert e.1 e.2 acc) [] = rows := by
  have happend (acc : List (String × α)) (h : ((acc ++ rows).map Prod.fst).Pairwise (· < ·)) :
      rows.foldl (fun acc e => insert e.1 e.2 acc) acc = acc ++ rows := by
    induction rows generalizing acc with
    | nil => simp
    | cons e rows ih =>
      have hlast : ∀ k ∈ acc.map Prod.fst, k < e.1 := by
        rw [List.map_append, List.pairwise_append] at h
        exact fun k hk => h.2.2 k hk e.1 (by simp)
      have hrows : (rows.map Prod.fst).Pairwise (· < ·) := by
        rw [List.map_append, List.pairwise_append] at h
        exact (List.pairwise_cons.mp h.2.1).2
      rw [List.foldl_cons, insert_of_lt hlast, ih hrows _ (by simpa using h)]
      simp
  exact happend [] h

end Keyed

namespace FileStore

namespace ShowsTables

variable {s : FileStore} {m m' : Memory} {t t' : Tree} {name : String} {table : Table}
  (h : s.ShowsTables m t)

include h

/-- What happens elsewhere does not matter. -/
theorem spares (hspares : Tree.Spares s.tables.place t t') : s.ShowsTables m t' where
  clear := hspares.clear h.clear
  schema := h.schema
  ordinary := h.ordinary
  sorted := h.sorted
  file name table hname := by
    have hsame : t'.entry? (s.tablePlace name) = t.entry? (s.tablePlace name) :=
      hspares.below _ (List.prefix_append _ _) (by simp [tablePlace])
    rw [hsame]
    exact (h.file name table hname).imp_right (And.imp_right hspares.paved)

theorem of_tables (htables : m'.tables = m.tables) : s.ShowsTables m' t where
  clear := h.clear
  schema name := (h.schema name).trans (by simp only [Memory.partitionKey?, htables])
  ordinary name table hname := h.ordinary name table (htables ▸ hname)
  sorted name table hname := h.sorted name table (htables ▸ hname)
  file name table hname := h.file name table (htables ▸ hname)

theorem entry?_ne_folder (hname : m.tables.lookup name = some table) :
    t.entry? (s.tablePlace name) ≠ some .folder := by
  rcases h.file name table hname with ⟨hnone, -⟩ | ⟨hfile, -⟩
  · simp [hnone]
  · simp [hfile]

variable (hs : s.Separate)

include hs

theorem ordinary_route (hname : m.tables.lookup name = some table) :
    ∀ other ∈ s.tables.names ++ [name ++ ".json"], Route.Ordinary other := by
  intro other hother
  rcases List.mem_append.mp hother with hother | hother
  · exact hs.tables other hother
  · exact List.mem_singleton.mp hother ▸ h.ordinary name table hname

/-- The items of a table are loaded from its file, if they can be read back. -/
theorem load_eq (hname : m.tables.lookup name = some table)
    (hread : Json.readObjects (tableText table.rows) = .ok table.rows) :
    s.load name t = .ok table.rows := by
  have hroute := h.ordinary_route hs hname
  have hplace : s.tables.start ++ (s.tables.names ++ [name ++ ".json"]) = s.tablePlace name :=
    (List.append_assoc _ _ _).symm
  rw [load, tableRoute_eq (h.ordinary name table hname)]
  rcases h.file name table hname with ⟨hnone, hrows⟩ | ⟨hfile, hpaved⟩
  · have hfind := Tree.find_eq_missing hroute h.clear (hplace ▸ hnone)
    have hmissing : t.readText ⟨s.tables.start, s.tables.names ++ [name ++ ".json"], false⟩ =
        .error .missing := by
      simp only [Tree.readText, Tree.read, hfind, bind, Except.bind]
    rw [hmissing, hrows]
  · have hfind := Tree.find_eq_file hroute hpaved (hplace ▸ hfile)
    have htext : String.fromUTF8? (tableText table.rows).toUTF8 = some (tableText table.rows) :=
      dif_pos (tableText table.rows).isValidUTF8
    have hreadText : t.readText ⟨s.tables.start, s.tables.names ++ [name ++ ".json"], false⟩ =
        .ok (tableText table.rows) := by
      simp only [Tree.readText, Tree.read, hfind, bind, Except.bind, pure, Except.pure, htext]
    rw [hreadText]
    dsimp only
    rw [hread]
    exact congrArg Except.ok (Keyed.foldl_insert (h.sorted name table hname))

/-- The folder of the tables can be made, and what is elsewhere is spared. -/
theorem makeTables_eq : ∃ t', s.makeTables t = (.ok (), t') ∧
    t'.Paved s.tables.start s.tables.names ∧ s.ShowsTables m t' ∧
    Tree.Spares s.objects.place t t' := by
  obtain ⟨t', hmake, hpaved, hsame⟩ := Tree.makeFolders_eq hs.tables h.clear
  refine ⟨t', ?_, hpaved, ⟨hpaved.clear, h.schema, h.ordinary, h.sorted, ?_⟩,
    .of_paved hpaved hsame hs.objects_apart⟩
  · simp only [makeTables, Route.hasNul_eq_false hs.tables, Bool.false_eq_true, if_false, hmake]
    rfl
  · intro name table hname
    -- the files of the tables are behind the folders that are made
    have hbehind : ¬ Along s.tables.start s.tables.names (s.tablePlace name) := by
      intro halong
      have hlength := halong.2.2.length_le
      simp [tablePlace, Route.place] at hlength
    rw [hsame _ hbehind]
    exact (h.file name table hname).imp_right fun hfile => ⟨hfile.1, hpaved⟩

/-- The file of a table has been written. -/
theorem setItem (hname : m.tables.lookup name = some table) (key : String) (item : Item)
    (hpaved : t.Paved s.tables.start s.tables.names)
    (hchange : ∀ p, t'.entry? p = if p = s.tablePlace name then
      some (.file (tableText (Keyed.insert key item table.rows)).toUTF8) else t.entry? p) :
    s.ShowsTables (m.setItem name table key item) t' ∧ Tree.Spares s.objects.place t t' := by
  have hfolder := h.entry?_ne_folder hname
  have hpaved' : t'.Paved s.tables.start s.tables.names := hpaved.of_ne hfolder hchange
  have hlookup {other : String} {table' : Table}
      (hother : (m.setItem name table key item).tables.lookup other = some table') :
      other = name ∧ table'.rows = Keyed.insert key item table.rows ∨
        other ≠ name ∧ m.tables.lookup other = some table' := by
    rw [Memory.lookup_setItem] at hother
    split at hother
    · exact .inl ⟨‹_›, Option.some.inj hother ▸ rfl⟩
    · exact .inr ⟨‹_›, hother⟩
  have hsub : s.tables.place <+: s.tablePlace name := List.prefix_append _ _
  constructor
  · constructor
    case clear => exact hpaved'.clear
    case schema =>
      intro other
      rw [Memory.partitionKey?_setItem hname, h.schema]
    case ordinary =>
      intro other table' hother
      rcases hlookup hother with ⟨rfl, -⟩ | ⟨-, hother⟩
      · exact h.ordinary other table hname
      · exact h.ordinary other table' hother
    case sorted =>
      intro other table' hother
      rcases hlookup hother with ⟨rfl, hrows⟩ | ⟨-, hother⟩
      · exact hrows ▸ Keyed.insert_sorted (h.sorted other table hname)
      · exact h.sorted other table' hother
    case file =>
      intro other table' hother
      rcases hlookup hother with ⟨rfl, hrows⟩ | ⟨hne, hother⟩
      · exact .inr ⟨by rw [hchange, if_pos rfl, hrows], hpaved'⟩
      · have hplace : s.tablePlace other ≠ s.tablePlace name := mt tablePlace_injective hne
        rw [hchange, if_neg hplace]
        exact (h.file other table' hother).imp_right fun hfile => ⟨hfile.1, hpaved'⟩
  · refine .of_ne hfolder hchange (fun hp => hs.tables_apart (hsub.trans hp)) fun hp => ?_
    -- the folder of the objects is not below that of the tables, and not one of their files
    rcases List.prefix_concat_iff.mp hp with heq | hp
    · exact hs.tables_apart (heq ▸ hsub)
    · exact hs.objects_apart hp

end ShowsTables

end FileStore

end Conveyor
