import Conveyor.Proofs.Store.Mirrors
import Conveyor.Proofs.Store.Nesting

/-!
# Tables in files of their own

A table whose name has no slash has a file of its own directly in the folder of the tables. Putting
an item into it rewrites this file and changes no other one, and every other such table is loaded as
before (`FileStore.putItem_isolated`).

The name of a table is written into a path as it is. With slashes it is followed like any other
path, so that two names may stand for one file, and a file may be elsewhere.
-/

namespace Conveyor

namespace Tree

variable {t t' : Tree} {folder folder' : Place} {names : List String}

/-- Names that can be followed are short enough. -/
theorem short_of_follow (h : t.follow folder names = .ok (folder', .folder)) :
    ∀ name ∈ names, isLongName name = false := by
  fun_induction follow t folder names with
  | case1 => simp
  | case2 folder names ih | case3 folder names ih =>
    exact List.forall_mem_cons.mpr ⟨by decide, ih h⟩
  | case4 | case5 => cases h
  | case6 folder name names hdot hdots hlong hfolder ih =>
    exact List.forall_mem_cons.mpr ⟨Bool.eq_false_iff.mpr hlong, ih h⟩
  | case7 | case8 => cases h

end Tree

namespace FileStore

variable {s : FileStore} {table other : String} {item : Item} {stored : Stored} {t t' : Tree}
  {rows : List (String × Item)} {body : ByteArray}

/-! ### The file of a table -/

/-- The place of the file of a table whose name has no slash. -/
def fileOfTable (s : FileStore) (table : String) : Place :=
  s.tables.leadsTo ++ [table ++ ".json"]

theorem fileOfTable_injective (h : s.fileOfTable table = s.fileOfTable other) : table = other := by
  have hfile : table ++ ".json" = other ++ ".json" := by simpa [fileOfTable] using h
  exact (String.append_left_inj ".json").mp hfile

theorem slash_notMem_file (h : '/' ∉ table.toList) : '/' ∉ (table ++ ".json").toList := by
  simpa using h

theorem file_ne (suffix : String) (hshort : suffix.length < 5) : table ++ ".json" ≠ suffix := by
  intro heq
  have hlength := congrArg String.length heq
  rw [String.length_append] at hlength
  have : ".json".length = 5 := rfl
  omega

theorem tableRoute_of_slash (h : '/' ∉ table.toList) :
    s.tableRoute table = ⟨s.tables.start, s.tables.names ++ [table ++ ".json"], false⟩ := by
  have hslash := slash_notMem_file h
  have hnames := Route.namesOf_eq_singleton (file_ne "" (by decide)) hslash
  have hhead : (table ++ ".json").toList.head? ≠ some '/' :=
    fun heq => hslash (List.mem_of_head? heq)
  have hlast : (table ++ ".json").toList.getLast? ≠ some '/' :=
    fun heq => hslash (List.mem_of_getLast? heq)
  simp only [tableRoute, Route.join, Route.ofText, if_neg hhead, hnames, decide_eq_false hlast,
    List.isEmpty_cons, Bool.and_false, Bool.or_false]

theorem leadsTo_of_slash (h : '/' ∉ table.toList) :
    (s.tableRoute table).leadsTo = s.fileOfTable table := by
  rw [tableRoute_of_slash h, Route.leadsTo, Route.walk_append,
    Route.walk_cons (file_ne "." (by decide)) (file_ne ".." (by decide))]
  rfl

/-- What putting an item into a table does, one after another. -/
theorem putItem_eq_ok (h : s.putItem table item t = (.ok stored, t')) :
    ∃ partitionKey rows, s.schemas.lookup table = some partitionKey ∧
      item.key partitionKey = .ok stored.key ∧ s.load table t = .ok rows ∧
      stored.replaced = (rows.lookup stored.key).isSome ∧
      (t.makeFolders s.tables.start s.tables.names).2.write (s.tableRoute table)
          (tableText (Keyed.insert stored.key item rows)).toUTF8 = .ok t' := by
  unfold putItem at h
  cases hdeclared : s.schemas.lookup table with
  | none =>
    rw [hdeclared] at h
    cases h
  | some partitionKey =>
    rw [hdeclared] at h
    obtain ⟨key, t₁, hfirst, h₁⟩ := Call.bind_eq_ok.mp h
    obtain ⟨rows, t₂, hsecond, h₂⟩ := Call.bind_eq_ok.mp h₁
    obtain ⟨_, t₃, hthird, h₃⟩ := Call.bind_eq_ok.mp h₂
    obtain ⟨_, t₄, hfourth, hlast⟩ := Call.bind_eq_ok.mp h₃
    obtain ⟨hkey, rfl⟩ := Prod.mk.inj hfirst
    obtain ⟨hrows, rfl⟩ := Prod.mk.inj hsecond
    obtain ⟨hstored, rfl⟩ := Prod.mk.inj hlast
    obtain rfl := Except.ok.inj hstored
    obtain ⟨t₅, hwrite, heq⟩ :=
      Except.map_eq_ok.mp (Except.mapError_eq_ok.mp (Call.ofUpdate_eq_ok.mp hfourth))
    obtain ⟨-, rfl⟩ := Prod.mk.inj heq
    unfold makeTables at hthird
    split at hthird
    · cases hthird
    · obtain ⟨-, rfl⟩ := Prod.mk.inj hthird
      exact ⟨partitionKey, rows, rfl, hkey, hrows, rfl, hwrite⟩

/-! ### The other tables -/

/-- The names on the way to the tables are short if a file has been written in their folder. -/
theorem short_of_write (hslash : '/' ∉ table.toList)
    (h : t.write (s.tableRoute table) body = .ok t') :
    ∀ name ∈ s.tables.names, isLongName name = false := by
  obtain ⟨place, htarget, -⟩ := Except.bind_eq_ok.mp h
  obtain ⟨-, -, names, name, folder, hnames, -, -, -, hfollow, -⟩ := Tree.target_cases htarget
  rw [tableRoute_of_slash hslash] at hnames hfollow
  obtain ⟨rfl, -⟩ := List.append_inj' hnames rfl
  exact Tree.short_of_follow hfollow

/-- On the way to the file of another table all that happens is that folders are made. -/
theorem Founded.paves (h : s.Founded t)
    (hchanges : t.Changes (· = s.fileOfTable table)
      (Route.Passed s.tables.start s.tables.names) t')
    (hshort : ∀ name ∈ s.tables.names ++ [other ++ ".json"], isLongName name = false)
    (hne : other ≠ table) :
    t.Paves t' s.tables.start (s.tables.names ++ [other ++ ".json"]) := by
  have hdots : ".." ∉ [other ++ ".json"] := by
    simpa using (file_ne ".." (by decide)).symm
  have hplace : Route.walk s.tables.start (s.tables.names ++ [other ++ ".json"]) =
      s.fileOfTable other := by
    rw [Route.walk_append, Route.walk_cons (file_ne "." (by decide)) (file_ne ".." (by decide))]
    rfl
  have hapart : s.fileOfTable other ≠ s.fileOfTable table :=
    fun heq => hne (fileOfTable_injective heq)
  have hfile (p : Place) (hp : p <+: s.tables.leadsTo) : p ≠ s.fileOfTable other ∧
      p ≠ s.fileOfTable table := by
    have hlength := hp.length_le
    constructor <;>
    · rintro rfl
      simp [fileOfTable] at hlength
  -- what is passed on the way to the tables stands already or is above their folder
  have hway (p : Place) (hp : Route.Passed s.tables.start s.tables.names p) :
      t.entry? p = some .folder ∨ p <+: s.tables.leadsTo := by
    rcases Route.passed_above_or_left hp with habove | ⟨first, hfirst, rfl⟩
    · exact .inr habove
    · exact .inl (h.left first hfirst)
  refine ⟨hshort, fun first hfirst => h.left first (Route.left_of_append hdots hfirst),
    fun p hp => ?_, ?_⟩
  · obtain ⟨first, hfirst, rfl⟩ := hp
    rcases List.prefix_concat_iff.mp hfirst with rfl | hfirst
    · rw [hplace]
      exact hchanges.same_or_made hapart
    · rcases hway _ ⟨first, hfirst, rfl⟩ with hfolder | habove
      · exact .inl ((hchanges.kept _ hfolder).trans hfolder.symm)
      · exact hchanges.same_or_made (hfile _ habove).2
  · rw [hplace]
    refine (hchanges.same_or_made hapart).resolve_right ?_
    rintro ⟨hnone, hfolder⟩
    rcases hchanges.made _ hfolder with hstood | hpassed
    · cases hnone.symm.trans hstood
    · rcases hway _ hpassed with hstood | habove
      · cases hnone.symm.trans hstood
      · exact (hfile _ habove).1 rfl

theorem load_congr (h : t'.find (s.tableRoute table) = t.find (s.tableRoute table)) :
    s.load table t' = s.load table t := by
  unfold load Tree.readText Tree.read
  rw [h]

/-! ### The rows of the table -/

theorem sorted_of_load (h : s.load table t = .ok rows) :
    (rows.map Prod.fst).Pairwise (· < ·) := by
  unfold load at h
  split at h
  · split at h
    · obtain rfl := Except.ok.inj h
      exact Keyed.foldl_insert_sorted List.Pairwise.nil
    · cases h
  · obtain rfl := Except.ok.inj h
    exact List.Pairwise.nil
  · cases h

/-- Rows in order are loaded as they were written, if their text is read back. -/
theorem load_of_write (hsorted : (rows.map Prod.fst).Pairwise (· < ·))
    (hread : Json.readObjects (tableText rows) = .ok rows)
    (h : t.write (s.tableRoute table) (tableText rows).toUTF8 = .ok t') :
    s.load table t' = .ok rows := by
  unfold load
  rw [Tree.readText_write h]
  dsimp only
  rw [hread]
  exact congrArg Except.ok (Keyed.foldl_insert hsorted)

/-- Tables are isolated whose names have no slash: after any requests, putting an item into a table
writes the file of this table, which is directly in the folder of the tables, and no other one. The
table then has the rows that it had and the item under its key, and every other such table has what
it had. -/
theorem putItem_isolated (s : FileStore) (policy : AccessPolicy) {t₀ : Tree} (h₀ : s.Founded t₀)
    (requests : List Request) (table : String) (hslash : '/' ∉ table.toList) (item : Item)
    (stored : Stored) (t' : Tree) :
    let t := (Service.requestAll ⟨s.backend, policy⟩ requests t₀).2
    s.backend.putItem table item t = (.ok stored, t') →
      ∃ partitionKey rows, s.schemas.lookup table = some partitionKey ∧
        item.key partitionKey = .ok stored.key ∧ s.load table t = .ok rows ∧
        stored.replaced = (rows.lookup stored.key).isSome ∧
        let rows' := Keyed.insert stored.key item rows
        t'.file? (s.tables.leadsTo ++ [table ++ ".json"]) = some (tableText rows').toUTF8 ∧
        (∀ p, p ≠ s.tables.leadsTo ++ [table ++ ".json"] → t'.file? p = t.file? p) ∧
        (Json.readObjects (tableText rows') = .ok rows' → s.load table t' = .ok rows') ∧
        ∀ other, other ≠ table → '/' ∉ other.toList → isLongName (other ++ ".json") = false →
          s.load other t' = s.load other t := by
  intro t h
  have hfounded : s.Founded t := h₀.requestAll requests
  obtain ⟨partitionKey, rows, hdeclared, hkey, hrows, hreplaced, hwrite⟩ := putItem_eq_ok h
  have hmade := t.makeFolders_changes s.tables.start s.tables.names
  have hwritten := Tree.write_changes hwrite
  have hafter := Tree.entry?_write hwrite
  rw [leadsTo_of_slash hslash] at hwritten hafter
  refine ⟨partitionKey, rows, hdeclared, hkey, hrows, hreplaced, Tree.file?_eq_some.mpr hafter,
    fun p hp => ?_, fun hread => ?_, fun other hne hother hlong => ?_⟩
  · exact (hwritten.files p hp).trans (hmade.files p fun h => h)
  · exact load_of_write (Keyed.insert_sorted (sorted_of_load hrows)) hread hwrite
  · have hchanges : t.Changes (· = s.fileOfTable table)
        (Route.Passed s.tables.start s.tables.names) t' :=
      (hmade.mono (fun _ => False.elim) fun _ => id).trans
        (hwritten.mono (fun _ => id) fun _ => False.elim)
    have hshort : ∀ name ∈ s.tables.names ++ [other ++ ".json"], isLongName name = false :=
      List.forall_mem_append.mpr ⟨short_of_write hslash hwrite, by simpa using hlong⟩
    refine load_congr ?_
    rw [tableRoute_of_slash hother]
    exact (hfounded.paves hchanges hshort hne).find_eq hfounded.nested

/-- An item is put into one of two tables, after one has been put into the other one. -/
theorem putItem_isolated_pair :
    let s : FileStore :=
      ⟨⟨[], ["objects"], false⟩, ⟨[], ["tables"], false⟩, [("t", "id"), ("u", "id")]⟩
    let requests : List Request := [.invoke "table:putItem"
      (.object [("Item", .object [("id", .string "1")]), ("TableName", .string "u")])]
    let item : Item := [("id", .string "2")]
    let t := (Service.requestAll ⟨s.backend, .allowAll⟩ requests .empty).2
    let t' := (s.putItem "t" item t).2
    s.Founded .empty ∧ '/' ∉ "t".toList ∧
      s.backend.putItem "t" item t = (.ok ⟨"2", false⟩, t') ∧
      s.load "t" t' = .ok [("2", item)] ∧ s.load "u" t' = s.load "u" t := by
  intro s requests item t t'
  have hfounded : s.Founded .empty :=
    ⟨Tree.nested_of_parents (by decide) (by decide), by rfl, by rfl,
      fun first hfirst => absurd (hfirst.subset (by simp)) (by decide : ".." ∉ s.tables.names)⟩
  have hslash : '/' ∉ "t".toList := by decide
  have hput : s.backend.putItem "t" item t = (.ok ⟨"2", false⟩, t') :=
    Prod.ext (by decide +kernel) rfl
  obtain ⟨-, rows, -, -, hrows, -, -, -, hload, hother⟩ :=
    putItem_isolated s .allowAll hfounded requests "t" hslash item ⟨"2", false⟩ t' hput
  have hnone : s.load "t" t = .ok [] := by decide +kernel
  obtain rfl := Except.ok.inj (hnone.symm.trans hrows)
  exact ⟨hfounded, hslash, hput, hload (by decide +kernel),
    hother "u" (by decide) (by decide) (by decide)⟩

/-- Two names with slashes stand for the file of another table and for that of an object. -/
theorem putItem_elsewhere :
    let s : FileStore := ⟨⟨[], ["objects"], false⟩, ⟨[], ["tables"], false⟩,
      [("t", "id"), ("./t", "id"), ("../objects/a/b", "id")]⟩
    let item (key : String) : Item := [("id", .string key)]
    let t := (s.putItem "t" (item "1") (s.put ⟨"a", "x"⟩ "body".toUTF8 .empty).2).2
    let beside := s.putItem "./t" (item "2") t
    let above := s.putItem "../objects/a/b" (item "3") t
    (s.load "t" t = .ok [("1", item "1")] ∧ beside.1 = .ok ⟨"2", false⟩ ∧
        s.load "t" beside.2 = .ok [("1", item "1"), ("2", item "2")]) ∧
      (s.has ⟨"a", "b.json"⟩ t).1 = .ok false ∧ above.1 = .ok ⟨"3", false⟩ ∧
        (s.has ⟨"a", "b.json"⟩ above.2).1 = .ok true := by
  intro s item t beside above
  exact ⟨⟨by decide +kernel, by decide +kernel, by decide +kernel⟩,
    by decide +kernel, by decide +kernel, by decide +kernel⟩

end FileStore

end Conveyor
