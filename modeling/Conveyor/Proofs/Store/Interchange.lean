import Conveyor.Proofs.Store.Agreement
import Mathlib.Data.List.Induction
import Mathlib.Data.List.Infix

/-!
# Memory and files are interchangeable

A store in memory and a store on files that begin empty, with the same tables and the same policy,
give the same answers to the same requests and hold the same after each of them
(`Service.interchangeable`), as long as the objects that are named could be files side by side.
-/

namespace Conveyor

/-! ### Stores that begin empty -/

/-- A store in memory with tables, without objects and items. -/
def Memory.declaring (declared : List (String × String)) : Memory :=
  declared.foldl (fun m (name, key) => m.declare name key) .empty

/-- A store on files with tables. -/
def FileStore.declaring (objects tables : Route) (declared : List (String × String)) : FileStore :=
  declared.foldl (fun s (name, key) => s.declare name key) ⟨objects, tables, []⟩

theorem FileStore.declaring_eq (objects tables : Route) (declared : List (String × String)) :
    declaring objects tables declared = ⟨objects, tables, declared.reverse⟩ := by
  induction declared using List.reverseRecOn with
  | nil => rfl
  | append_singleton declared d ih =>
    have hstep : declaring objects tables (declared ++ [d]) =
        (declaring objects tables declared).declare d.1 d.2 := List.foldl_concat ..
    rw [hstep, ih, declare, List.reverse_concat]

namespace Memory

variable {declared : List (String × String)} {d : String × String} {name : String} {table : Table}

theorem declaring_concat : declaring (declared ++ [d]) = (declaring declared).declare d.1 d.2 :=
  List.foldl_concat ..

theorem declaring_objects : (declaring declared).objects = [] := by
  induction declared using List.reverseRecOn with
  | nil => rfl
  | append_singleton declared d ih =>
    rw [declaring_concat, declare, ih]

/-- A table is as it was declared last. -/
theorem lookup_declaring : (declaring declared).tables.lookup name =
    (declared.reverse.lookup name).map fun key => ⟨key, []⟩ := by
  induction declared using List.reverseRecOn with
  | nil => rfl
  | append_singleton declared d ih =>
    rw [declaring_concat, declare, Keyed.lookup_insert, ih, List.reverse_concat,
      Keyed.lookup_cons_eq]
    split <;> rfl

theorem declared_of_lookup (h : (declaring declared).tables.lookup name = some table) :
    (name, table.partitionKey) ∈ declared ∧ table.rows = [] := by
  rw [lookup_declaring, Option.map_eq_some_iff] at h
  obtain ⟨key, hlookup, rfl⟩ := h
  exact ⟨List.mem_reverse.mp (Keyed.mem_of_lookup hlookup), rfl⟩

end Memory

namespace FileStore

variable {s : FileStore} {t : Tree} {K : ObjectRef → Prop} {objects tables : Route}
  {declared : List (String × String)}

/-- Nothing is stored yet, and no file stands on the way to what is going to be stored. -/
structure Vacant (s : FileStore) (t : Tree) : Prop where
  objects_clear : t.Clear s.objects.start s.objects.names
  tables_clear : t.Clear s.tables.start s.tables.names
  /-- The folder of the objects may be there already, but nothing is in it. -/
  objects (p : Place) (hp : s.objects.place <+: p) :
    t.entry? p = none ∨ p = s.objects.place ∧ t.entry? p = some .folder
  tables (p : Place) (hp : s.tables.place <+: p) (hne : p ≠ s.tables.place) : t.entry? p = none

/-- The tree without files is such a tree. -/
theorem vacant_empty (hobjects : s.objects.place ≠ []) : s.Vacant .empty := by
  have hentry (p : Place) (hne : p ≠ []) : Tree.empty.entry? p = none := by
    simp [Tree.entry?, Tree.empty, hne]
  have hclear (start : Place) (names : List String) : Tree.empty.Clear start names := by
    intro p hp body hfile
    by_cases hne : p = []
    · simp [Tree.entry?, hne] at hfile
    · simp [hentry p hne] at hfile
  refine ⟨hclear _ _, hclear _ _, fun p hp => .inl (hentry p ?_), fun p hp hne => hentry p ?_⟩
  · rintro rfl
    exact hobjects (List.prefix_nil.mp hp)
  · rintro rfl
    exact hne (List.prefix_nil.mp hp).symm

/-- Stores that begin empty mirror each other. -/
theorem Vacant.mirrors (h : (declaring objects tables declared).Vacant t)
    (htables : ∀ d ∈ declared, Route.Ordinary (d.1 ++ ".json")) :
    (declaring objects tables declared).Mirrors K (Memory.declaring declared) t := by
  have hnone (r : ObjectRef) : (Memory.declaring declared).object? r = none := by
    rw [Memory.object?, Memory.declaring_objects]
    rfl
  refine ⟨⟨h.objects_clear, fun r hr => ?_, fun p body hp => iff_of_false (fun hfile => ?_) ?_,
    fun p hp hne hfolder => ?_, fun r hr => ?_⟩,
    ⟨h.tables_clear, fun name => ?_, fun name table hname => ?_, fun name table hname => ?_,
      fun name table hname => .inl ⟨?_, (Memory.declared_of_lookup hname).2⟩⟩⟩
  · simp [hnone] at hr
  · rcases h.objects p hp with hentry | ⟨-, hentry⟩ <;> cases hentry.symm.trans hfile
  · rintro ⟨r, -, hbody⟩
    cases (hnone r).symm.trans hbody
  · rcases h.objects p hp with hentry | ⟨heq, -⟩
    · cases hentry.symm.trans hfolder
    · exact absurd heq hne
  · simp [hnone] at hr
  · simp [declaring_eq, Memory.partitionKey?, Memory.lookup_declaring, Function.comp_def]
  · exact htables _ (Memory.declared_of_lookup hname).1
  · rw [(Memory.declared_of_lookup hname).2]
    exact .nil
  · exact h.tables _ (List.prefix_append _ _) (by simp [tablePlace])

/-! ### What is stored -/

/-- The objects in memory are the files below the folder of the objects, and each table in memory is
what its file contains. -/
structure Shows (s : FileStore) (m : Memory) (t : Tree) : Prop where
  objects (p : Place) (body : ByteArray) (hp : s.objects.place <+: p) :
    t.entry? p = some (.file body) ↔ ∃ r, s.placeOf r = p ∧ m.object? r = some body
  tables (name : String) (h : (m.partitionKey? name).isSome) : s.load name t = .ok (m.rows name)

theorem Tracks.shows (hs : s.Separate) {m : Memory} (h : s.Tracks K m t) : s.Shows m t where
  objects := h.objects.file
  tables name hname := by
    rw [Memory.partitionKey?, Option.isSome_map] at hname
    obtain ⟨table, htable⟩ := Option.isSome_iff_exists.mp hname
    have hread := h.legible (name, table) (Keyed.mem_of_lookup htable)
    rw [h.tables.load_eq hs htable hread, Memory.rows, htable]
    rfl

end FileStore

/-! ### The stores side by side -/

/-- Each container that is named and each part of a key between slashes could be a file, no key goes
on from another one of the same container, and no object is copied to itself. -/
structure Request.SideBySide (requests : List Request) : Prop where
  ordinary (q : Request) (hq : q ∈ requests) (r : ObjectRef) (hr : r ∈ q.objects) : r.Ordinary
  apart (q q' : Request) (hq : q ∈ requests) (hq' : q' ∈ requests) (r r' : ObjectRef)
    (hr : r ∈ q.objects) (hr' : r' ∈ q'.objects) (h : r.container = r'.container) :
    ¬ (r.key ++ "/").toList <+: r'.key.toList
  copies (q : Request) (hq : q ∈ requests) : ¬ q.CopiesToItself

theorem Request.SideBySide.compatible {requests : List Request} (s : FileStore)
    (h : Request.SideBySide requests) :
    s.Compatible fun r => ∃ q ∈ requests, r ∈ q.objects where
  ordinary := fun r ⟨q, hq, hr⟩ => h.ordinary q hq r hr
  eq_of_prefix := by
    rintro r r' ⟨q, hq, hr⟩ ⟨q', hq', hr'⟩ hbelow
    have heq := FileStore.eq_or_key_eq_of_prefix (h.ordinary q hq r hr) (h.ordinary q' hq' r' hr')
      hbelow
    rcases heq with heq | ⟨hcontainer, rest, hkey⟩
    · exact heq
    · refine absurd ?_ (h.apart q q' hq hq' r r' hr hr' hcontainer)
      rw [hkey, String.toList_append (s := r.key ++ "/")]
      exact List.prefix_append _ _

namespace Service

/-- A store in memory and one on files that begin empty give the same answers, and hold the same
after each of the requests. -/
theorem interchangeable (policy : AccessPolicy) (declared : List (String × String))
    (objects tables : Route) (requests : List Request) (t : Tree)
    (hs : (FileStore.declaring objects tables declared).Separate)
    (ht : (FileStore.declaring objects tables declared).Vacant t)
    (htables : ∀ d ∈ declared, Route.Ordinary (d.1 ++ ".json"))
    (hrequests : Request.SideBySide requests)
    (hread : ∀ before, before <+: requests →
      (requestAll ⟨Memory.backend, policy⟩ before (Memory.declaring declared)).2.Legible) :
    let memory : Service Memory := ⟨Memory.backend, policy⟩
    let files : Service Tree := ⟨(FileStore.declaring objects tables declared).backend, policy⟩
    (memory.requestAll requests (Memory.declaring declared)).1 = (files.requestAll requests t).1 ∧
      ∀ before, before <+: requests → (FileStore.declaring objects tables declared).Shows
        (memory.requestAll before (Memory.declaring declared)).2
        (files.requestAll before t).2 := by
  obtain ⟨hanswers, hstates⟩ := requestAll_agree hs (hrequests.compatible _) policy
    (fun q hq r hr => ⟨q, hq, hr⟩) hrequests.copies (ht.mirrors htables) hread
  exact ⟨hanswers, fun before hbefore => (hstates before hbefore).shows hs⟩

/-- An object is written, copied and deleted, and an item is stored. -/
theorem interchangeable_files :
    let objects : Route := ⟨[], ["store", "objects"], false⟩
    let tables : Route := ⟨[], ["store", "tables"], false⟩
    let declared := [("files", "id")]
    let requests : List Request :=
      [.put ⟨"in", "a/b"⟩ "text".toUTF8,
        .invoke "storage:copyObject" (.object [("Bucket", .string "out"), ("Key", .string "b"),
          ("CopySource", .string "in/a/b")]),
        .invoke "table:putItem" (.object [("TableName", .string "files"),
          ("Item", .object [("id", .object [("S", .string "b")])])]),
        .delete ⟨"in", "a/b"⟩, .get ⟨"in", "a/b"⟩, .has ⟨"out", "b"⟩]
    let s := FileStore.declaring objects tables declared
    let memory : Service Memory := ⟨Memory.backend, .allowAll⟩
    let files : Service Tree := ⟨s.backend, .allowAll⟩
    (s.Separate ∧ s.Vacant .empty ∧ (∀ d ∈ declared, Route.Ordinary (d.1 ++ ".json")) ∧
      Request.SideBySide requests ∧ ∀ before, before <+: requests →
        (memory.requestAll before (Memory.declaring declared)).2.Legible) ∧
      (memory.requestAll requests (Memory.declaring declared)).1 =
          (files.requestAll requests .empty).1 ∧
        ∀ before, before <+: requests →
          s.Shows (memory.requestAll before (Memory.declaring declared)).2
            (files.requestAll before .empty).2 := by
  intro objects tables declared requests s memory files
  have hname (name : String) (h : name ∈ ["store", "objects", "tables", "in", "out", "a", "b",
      "files.json"]) : Route.Ordinary name := by
    constructor <;> revert name <;> decide
  have hs : s.Separate := by
    constructor
    · exact fun name h => hname name (by revert name; decide)
    · exact fun name h => hname name (by revert name; decide)
    · decide
    · decide
  have ht : s.Vacant .empty := FileStore.vacant_empty (List.cons_ne_nil _ _)
  have htables : ∀ d ∈ declared, Route.Ordinary (d.1 ++ ".json") :=
    fun d hd => hname _ (by revert d; decide)
  have hobjects : ∀ q ∈ requests, ∀ r ∈ q.objects, r = ⟨"in", "a/b"⟩ ∨ r = ⟨"out", "b"⟩ := by
    decide
  have hrequests : Request.SideBySide requests := by
    refine ⟨fun q hq r hr => ?_, fun q q' hq hq' r r' hr hr' => ?_, ?_⟩
    · rcases hobjects q hq r hr with rfl | rfl
      · exact ⟨hname _ (by decide), ["a", "b"], List.cons_ne_nil _ _,
          fun name h => hname name (by revert name; decide), by decide⟩
      · exact ⟨hname _ (by decide), ["b"], List.cons_ne_nil _ _,
          fun name h => hname name (by revert name; decide), by decide⟩
    · rcases hobjects q hq r hr with rfl | rfl <;>
        rcases hobjects q' hq' r' hr' with rfl | rfl <;> decide
    · simp only [requests, List.forall_mem_cons, Request.CopiesToItself]
      refine ⟨not_false, ?_, ?_, not_false, not_false, not_false, List.forall_mem_nil _⟩
      · rintro ⟨-, r, hr, hr'⟩
        have hdestination := hr.symm.trans (by decide : _ = Except.ok ⟨"out", "b"⟩)
        have hsource := hr'.symm.trans (by decide : _ = Except.ok ⟨"in", "a/b"⟩)
        exact absurd (hdestination.symm.trans hsource) (by decide)
      · exact fun h => absurd h.1 (by decide)
  have hread : ∀ before, before <+: requests →
      (memory.requestAll before (Memory.declaring declared)).2.Legible := by
    have hall : ∀ before ∈ requests.inits,
        (memory.requestAll before (Memory.declaring declared)).2.Legible := by
      decide +kernel
    exact fun before hbefore => hall before ((List.mem_inits _ _).mpr hbefore)
  exact ⟨⟨hs, ht, htables, hrequests, hread⟩,
    interchangeable .allowAll declared objects tables requests .empty hs ht htables hrequests hread⟩

end Service

end Conveyor
