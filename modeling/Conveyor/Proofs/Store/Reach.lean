import Conveyor.Proofs.Store.Confinement
import Conveyor.Proofs.Store.Mirrors
import Conveyor.Proofs.Store.Noninterference

/-!
# What grants reach in a store on files

A grant names a container, while a file is named by a container and a key together. The key may go
on where another container ends: the object `c` of the container `a/b` has the same file as the
object `b/c` of the container `a`, so that whoever may write to `a` can delete it
(`FileStore.reaches_nested`). A granted container reaches an object only if the names that lead to
the one begin with those that lead to the other; an object that nothing granted reaches is found,
read and missed as before, whatever has been called (`FileStore.grants_confine_writes`). This is so
for each object without a grant where every container is one ordinary name
(`FileStore.outOfReach_of_ordinary`).

Nothing is written or removed on the way to an object out of reach, but folders may be made there.
They do no harm: where a folder was missing nothing stood below it, and nothing does afterwards.
-/

namespace Conveyor

/-! ### Folders that are new on the way -/

namespace Route

variable {folder p : Place} {first names more : List String}

/-- A way that is not left again by further names is left by the first ones only. -/
theorem left_of_append (hdots : ".." ∉ more) (h : first ++ [".."] <+: names ++ more) :
    first ++ [".."] <+: names := by
  rcases List.prefix_or_prefix_of_prefix h (List.prefix_append _ _) with hinside | ⟨rest, hrest⟩
  · exact hinside
  · rw [← hrest, List.prefix_append_right_inj] at h
    rcases List.eq_nil_or_concat rest with rfl | ⟨init, last, rfl⟩
    · rw [← hrest, List.append_nil]
    · rw [List.concat_eq_append, ← List.append_assoc] at hrest
      obtain rfl : last = ".." := by simpa using (List.append_inj' hrest rfl).2
      exact absurd (h.subset (by simp)) hdots

/-- What names pass is above the place where they lead, unless they leave it again by `..`. -/
theorem passed_above_or_left (h : Passed folder names p) :
    p <+: walk folder names ∨ ∃ first, first ++ [".."] <+: names ∧ p = walk folder first := by
  obtain ⟨first, ⟨rest, rfl⟩, rfl⟩ := h
  induction rest using List.reverseRecOn with
  | nil =>
    rw [List.append_nil]
    exact .inl List.prefix_rfl
  | append_singleton rest name ih =>
    have hwalk : walk folder (first ++ rest ++ [name]) =
        walk (walk folder (first ++ rest)) [name] := walk_append
    rw [← List.append_assoc, hwalk]
    rcases ih with habove | ⟨before, hbefore, hleft⟩
    · by_cases hdot : name = "."
      · subst hdot
        exact .inl habove
      by_cases hdots : name = ".."
      · subst hdots
        obtain ⟨more, hmore⟩ := habove
        by_cases hnil : more = []
        · -- here the names are back where they were, and go up
          rw [hnil, List.append_nil] at hmore
          exact .inr ⟨first ++ rest, List.prefix_rfl, hmore⟩
        · refine .inl ⟨more.dropLast, ?_⟩
          rw [walk, walk, ← hmore, List.dropLast_append_of_ne_nil hnil]
      · rw [walk_cons hdot hdots]
        exact .inl (habove.trans (List.prefix_append _ _))
    · exact .inr ⟨before, hbefore.trans (List.prefix_append _ _), hleft⟩

end Route

namespace Tree

open Route (walk Passed passed_first)

variable {t t' : Tree} {folder : Place} {names : List String} {r : Route}

/-- What stands somewhere stands in a folder. -/
def Nested (t : Tree) : Prop :=
  ∀ p name, t.entry? (p ++ [name]) ≠ none → t.entry? p = some .folder

/-- Each file and folder stands in a folder if the places of their folders are among the folders. -/
theorem nested_of_parents (hfolders : ∀ p ∈ t.folders, p.dropLast ∈ [] :: t.folders)
    (hfiles : ∀ file ∈ t.files, file.1.dropLast ∈ [] :: t.folders) : t.Nested := by
  intro p name hstands
  have hparent (h : (p ++ [name]).dropLast ∈ [] :: t.folders) : t.entry? p = some .folder := by
    rw [List.dropLast_concat] at h
    exact entry?_eq_folder_iff.mpr (List.mem_cons.mp h)
  cases hentry : t.entry? (p ++ [name]) with
  | none => exact absurd hentry hstands
  | some entry =>
    cases entry with
    | folder =>
      have hmem := (entry?_eq_folder_iff.mp hentry).resolve_left (by simp)
      exact hparent (hfolders _ hmem)
    | file body =>
      rw [ entry?] at hentry
      split at hentry
      · cases hentry
      · obtain ⟨body', hlookup, -⟩ := Option.map_eq_some_iff.mp hentry
        exact hparent (hfiles _ (Keyed.mem_of_lookup hlookup))

/-- What is changed at a place where no file is written or removed is that a folder is made. -/
theorem Changes.same_or_made {places ways : Place → Prop} {p : Place}
    (h : t.Changes places ways t') (hp : ¬ places p) :
    t'.entry? p = t.entry? p ∨ t.entry? p = none ∧ t'.entry? p = some .folder := by
  have hfile := h.files p hp
  unfold file? at hfile
  rcases hbefore : t.entry? p with - | - | body
  · rw [hbefore] at hfile
    rcases hafter : t'.entry? p with - | - | body
    · exact .inl rfl
    · exact .inr ⟨rfl, rfl⟩
    · rw [hafter] at hfile
      cases hfile
  · exact .inl (h.kept p hbefore)
  · rw [hbefore] at hfile
    rcases hafter : t'.entry? p with - | - | body' <;> rw [hafter] at hfile
    · cases hfile
    · cases hfile
    · rw [Option.some.inj hfile]
      exact .inl rfl

/-- Along names that can be followed, all that is different in another tree is that folders stand
where nothing stood, and none of them stands where the names lead. -/
structure Paves (t t' : Tree) (folder : Place) (names : List String) : Prop where
  short : ∀ name ∈ names, isLongName name = false
  left : ∀ first, first ++ [".."] <+: names → t.entry? (walk folder first) = some .folder
  passed : ∀ p, Passed folder names p →
    t'.entry? p = t.entry? p ∨ t.entry? p = none ∧ t'.entry? p = some .folder
  last : t'.entry? (walk folder names) = t.entry? (walk folder names)

namespace Paves

variable {name : String}

theorem dot (h : t.Paves t' folder ("." :: names)) : t.Paves t' folder names where
  short other hother := h.short other (List.mem_cons_of_mem _ hother)
  left first hfirst := h.left ("." :: first) ((List.prefix_cons_inj _).mpr hfirst)
  passed p hp := h.passed p hp.dot
  last := h.last

theorem dots (h : t.Paves t' folder (".." :: names)) : t.Paves t' folder.dropLast names where
  short other hother := h.short other (List.mem_cons_of_mem _ hother)
  left first hfirst := h.left (".." :: first) ((List.prefix_cons_inj _).mpr hfirst)
  passed p hp := h.passed p hp.dots
  last := h.last

theorem step (hdot : name ≠ ".") (hdots : name ≠ "..") (h : t.Paves t' folder (name :: names)) :
    t.Paves t' (folder ++ [name]) names where
  short other hother := h.short other (List.mem_cons_of_mem _ hother)
  left first hfirst := by
    rw [← Route.walk_cons hdot hdots]
    exact h.left (name :: first) ((List.prefix_cons_inj _).mpr hfirst)
  passed p hp := h.passed p (hp.step hdot hdots)
  last := by
    have hlast := h.last
    rwa [Route.walk_cons hdot hdots] at hlast

/-- Below a folder that was missing the other tree has nothing but folders on the way. -/
theorem follow_of_missing (ht : t.Nested) (h : t.Paves t' folder names)
    (hmissing : t.entry? folder = none) (hmade : t'.entry? folder = some .folder) :
    t'.follow folder names = .error .missing := by
  fun_induction follow t' folder names with
  | case1 folder => cases hmade.symm.trans (h.last.trans hmissing)
  | case2 folder names ih => exact ih h.dot hmissing hmade
  | case3 folder names ih =>
    cases hmissing.symm.trans (h.left [] ((List.prefix_cons_inj _).mpr List.nil_prefix))
  | case4 folder name names hdot hdots hlong =>
    cases (h.short name List.mem_cons_self).symm.trans hlong
  | case5 => rfl
  | case6 folder name names hdot hdots hlong hfolder ih =>
    refine ih (h.step hdot hdots) ?_ hfolder
    by_contra hstands
    cases hmissing.symm.trans (ht folder name hstands)
  | case7 folder name names hdot hdots hlong body hfile
  | case8 folder name names hdot hdots hlong body hfile =>
    -- a file stands in both trees or in none
    rcases h.passed _ (passed_first hdot hdots) with hsame | ⟨-, hmade'⟩
    · have hstands : t.entry? (folder ++ [name]) ≠ none := by simp [← hsame, hfile]
      cases hmissing.symm.trans (ht folder name hstands)
    · cases hfile.symm.trans hmade'

theorem follow_eq (ht : t.Nested) (h : t.Paves t' folder names) :
    t'.follow folder names = t.follow folder names := by
  fun_induction follow t folder names with
  | case1 folder => rfl
  | case2 folder names ih =>
    rw [follow]
    exact ih h.dot
  | case3 folder names ih =>
    rw [follow]
    exact ih h.dots
  | case4 folder name names hdot hdots hlong =>
    cases (h.short name List.mem_cons_self).symm.trans hlong
  | case5 folder name names hdot hdots hlong hnone =>
    rw [follow_name hdot hdots, if_neg hlong]
    rcases h.passed _ (passed_first hdot hdots) with hsame | ⟨-, hmade⟩
    · rw [hsame, hnone]
    · rw [hmade]
      exact (h.step hdot hdots).follow_of_missing ht hnone hmade
  | case6 folder name names hdot hdots hlong hfolder ih =>
    rw [follow_name hdot hdots, if_neg hlong]
    rcases h.passed _ (passed_first hdot hdots) with hsame | ⟨hnone, -⟩
    · rw [hsame, hfolder]
      exact ih (h.step hdot hdots)
    · cases hnone.symm.trans hfolder
  | case7 folder name names hdot hdots hlong body hfile hnil
  | case8 folder name names hdot hdots hlong body hfile hnil =>
    rw [follow_name hdot hdots, if_neg hlong]
    rcases h.passed _ (passed_first hdot hdots) with hsame | ⟨hnone, -⟩
    · rw [hsame, hfile]
      simp only [hnil]
      rfl
    · cases hnone.symm.trans hfile

/-- The same is found in both trees. -/
theorem find_eq (ht : t.Nested) (h : t.Paves t' r.start r.names) : t'.find r = t.find r := by
  unfold find
  rw [h.follow_eq ht]

end Paves

end Tree

/-! ### What calls change -/

namespace FileStore

open Conveyor.Tree (Changes)
open Service (Writable Fillable)

variable {s : FileStore} {policy : AccessPolicy} {r g : ObjectRef} {table : String} {p : Place}

/-- The files that calls may write or remove under a policy: those of objects in containers that may
be written to, and of tables into which items may be put. -/
def Written (s : FileStore) (policy : AccessPolicy) (p : Place) : Prop :=
  s.FilesOf (fun g => Writable policy g.container) p ∨
    ∃ table, Fillable policy table ∧ (s.schemas.lookup table).isSome ∧
      p = (s.tableRoute table).leadsTo

/-- The folders that calls may make under a policy. -/
def Made (s : FileStore) (policy : AccessPolicy) (p : Place) : Prop :=
  s.FoldersOf (fun g => Writable policy g.container) p ∨
    ∃ table, Fillable policy table ∧ (s.schemas.lookup table).isSome ∧
      Route.Passed s.tables.start s.tables.names p

theorem putItem_changes (htable : Fillable policy table) (item : Item) :
    (s.putItem table item).Stays (Changes (s.Written policy) (s.Made policy)) := by
  unfold putItem
  cases hdeclared : s.schemas.lookup table with
  | none => exact .const .refl (.error (.resourceNotFound table))
  | some partitionKey =>
    have hsome : (s.schemas.lookup table).isSome := by rw [hdeclared]; rfl
    have hfolders : s.makeTables.Stays (Changes (s.Written policy) (s.Made policy)) := by
      intro t
      unfold makeTables
      split
      · exact .refl t
      · exact (Tree.makeFolders_changes t _ _).mono (fun _ => False.elim)
          fun _ hp => .inr ⟨table, htable, hsome, hp⟩
    refine .check .refl fun key _ => .bind .trans (fun t => .refl t) fun rows =>
      .bind .trans hfolders fun _ => .bind .trans (.ofUpdate .refl fun t (_, t') h => ?_) fun _ =>
        .const .refl _
    obtain ⟨t'', hwrite, heq⟩ := Except.map_eq_ok.mp (Except.mapError_eq_ok.mp h)
    obtain ⟨-, rfl⟩ := Prod.mk.inj heq
    exact (Tree.write_changes hwrite).mono (fun _ hp => .inr ⟨table, htable, hsome, hp⟩)
      fun _ => False.elim

/-- Whatever an operation is given, it changes only what the policy lets it change. -/
theorem apply_stays (input : Json) (operation : Operation) :
    (Service.apply ⟨s.backend, policy⟩ input operation).Stays
      (Changes (s.Written policy) (s.Made policy)) := by
  have hobjects {α : Type} {c : Call Tree α}
      (h : c.Stays (Changes (s.FilesOf fun g => Writable policy g.container)
        (s.FoldersOf fun g => Writable policy g.container))) :
      c.Stays (Changes (s.Written policy) (s.Made policy)) :=
    fun t => (h t).mono (fun _ => .inl) fun _ => .inl
  cases operation with
  | copyObject =>
    exact .check .refl fun destination _ => .check .refl fun source _ => .check .refl fun _ _ =>
      .check .refl fun _ hwrite =>
        .bind .trans (hobjects (copy_changes (AccessPolicy.allows_of_check hwrite))) fun _ =>
          .const .refl _
  | getObject =>
    refine .check .refl fun object _ => .check .refl fun _ _ =>
      .bind .trans (hobjects (get_changes object)) fun body => ?_
    cases String.fromUTF8? body with
    | some text => exact .const .refl _
    | none => exact .const .refl _
  | deleteObject =>
    exact .check .refl fun object _ => .check .refl fun _ hwrite =>
      .bind .trans (hobjects (delete_changes (AccessPolicy.allows_of_check hwrite))) fun _ =>
        .const .refl _
  | putItem =>
    exact .check .refl fun table _ => .check .refl fun item _ => .check .refl fun _ htable =>
      .bind .trans (putItem_changes (AccessPolicy.allows_of_check htable) item) fun _ =>
        .const .refl _

theorem invokeAll_changes (calls : List (String × Json)) (t : Tree) :
    t.Changes (s.Written policy) (s.Made policy)
      (Service.invokeAll ⟨s.backend, policy⟩ calls t).2 := by
  induction calls generalizing t with
  | nil => exact .refl t
  | cons call calls ih =>
    obtain ⟨operation, input⟩ := call
    have hinvoke : (Service.invoke ⟨s.backend, policy⟩ operation input).Stays
        (Changes (s.Written policy) (s.Made policy)) := by
      refine .bind .trans ?_ fun _ => .const .refl _
      unfold Service.perform
      cases Operation.ofName? operation with
      | some op => exact apply_stays input op
      | none => exact .const .refl (.error (.unknownOperation operation))
    exact (hinvoke t).trans (ih _)

/-! ### Objects out of reach -/

/-- The names that count from the folder of the containers to the file of an object. -/
def trail (r : ObjectRef) : List String :=
  components r.container ++ components r.key

/-- Nothing that a policy lets calls write to leads to the file of an object or through it. -/
structure OutOfReach (s : FileStore) (policy : AccessPolicy) (r : ObjectRef) : Prop where
  containers (c : String) (h : Writable policy c) (hc : leadsDown c = true) :
    ¬ components c <+: trail r ∧ ¬ trail r <+: components c
  tables (table : String) (h : Fillable policy table)
    (hdeclared : (s.schemas.lookup table).isSome) :
    ¬ (s.tableRoute table).leadsTo <+: s.fileOf r ∧
      ¬ Route.Passed s.tables.start s.tables.names (s.fileOf r)

/-- Each folder that the way to the containers leaves again by `..` is there. -/
def Passable (s : FileStore) (t : Tree) : Prop :=
  ∀ first, first ++ [".."] <+: s.objects.names →
    t.entry? (Route.walk s.objects.start first) = some .folder

theorem passable_of_notMem {t : Tree} (h : ".." ∉ s.objects.names) : s.Passable t :=
  fun _ hfirst => absurd (hfirst.subset (by simp)) h

theorem components_ordinary {name : String} (h : Route.Ordinary name) :
    components name = [name] := by
  rw [components, Route.namesOf_eq_singleton h.ne_empty h.slash_notMem]
  simp [h.ne_dot]

/-- Ordinary names lead to the place of a route. -/
theorem leadsTo_ordinary {route : Route} (h : ∀ name ∈ route.names, Route.Ordinary name) :
    route.leadsTo = route.place := by
  have hdots : ".." ∉ route.names := fun hmem => (h _ hmem).ne_dots rfl
  have hall : route.names.filter (· ≠ ".") = route.names :=
    List.filter_eq_self.mpr fun name hname => by simpa using (h name hname).ne_dot
  rw [Route.leadsTo, Route.walk_eq_append hdots, hall, Route.place]

/-- Where each container has a folder of its own and the tables have another one, only a grant for
the container of an object reaches it. -/
theorem outOfReach_of_ordinary (hs : s.Separate) (hr : r.Ordinary)
    (hdenied : policy.allows (.write r.container) = false)
    (hcontainers : ∀ c, Writable policy c → leadsDown c = true → Route.Ordinary c)
    (htables : ∀ table, Fillable policy table → (s.schemas.lookup table).isSome →
      Route.Ordinary (table ++ ".json")) : s.OutOfReach policy r := by
  have hroot : s.root = s.objects.place := leadsTo_ordinary hs.objects
  have hbelow : s.objects.place <+: s.fileOf r := hroot ▸ root_prefix_fileOf r
  have hkey : components r.key ≠ [] := by
    obtain ⟨names, hne, hnames, hkey⟩ := hr.key
    exact (components_spec (hkey ▸ leadsDown_intercalate hne hnames)).1
  have htrail : trail r = r.container :: components r.key := by
    rw [trail, components_ordinary hr.container, List.singleton_append]
  refine ⟨fun c hwrite hc => ?_, fun table hfill hdeclared => ?_⟩
  · rw [components_ordinary (hcontainers c hwrite hc), htrail]
    refine ⟨fun hprefix => ?_, fun hprefix => ?_⟩
    · obtain rfl := (List.cons_prefix_cons.mp hprefix).1
      cases hdenied.symm.trans hwrite
    · exact hkey (List.prefix_nil.mp (List.cons_prefix_cons.mp hprefix).2)
  · have hname := htables table hfill hdeclared
    have hfile : (s.tableRoute table).leadsTo = s.tables.place ++ [table ++ ".json"] := by
      have hnames : ∀ name ∈ s.tables.names ++ [table ++ ".json"], Route.Ordinary name :=
        List.forall_mem_append.mpr ⟨hs.tables, by simpa using hname⟩
      rw [tableRoute_eq hname, leadsTo_ordinary hnames, Route.place, Route.place, List.append_assoc]
    refine ⟨fun hprefix => ?_, fun hpassed => ?_⟩
    · rw [hfile] at hprefix
      rcases List.prefix_or_prefix_of_prefix ((List.prefix_append _ _).trans hprefix) hbelow with
        hleft | hright
      · exact hs.tables_apart hleft
      · exact hs.objects_apart hright
    · have hdots : ".." ∉ s.tables.names := fun hmem => (hs.tables _ hmem).ne_dots rfl
      have habove := (Route.passed_above_or_left hpassed).resolve_right fun hleft => by
        obtain ⟨first, hfirst, -⟩ := hleft
        exact hdots (hfirst.subset (by simp))
      have htables : s.tables.leadsTo = s.tables.place := leadsTo_ordinary hs.tables
      rw [← Route.leadsTo, htables] at habove
      exact hs.objects_apart (hbelow.trans habove)

theorem fileOf_not_prefix_root (hr : Refers r) : ¬ s.fileOf r <+: s.root := by
  intro h
  have hlength := h.length_le
  have hpos := List.length_pos_iff.mpr (components_spec hr.1).1
  rw [fileOf, List.length_append, List.length_append] at hlength
  omega

section OutOfReach

variable {t t' : Tree} {calls : List (String × Json)} (h : s.OutOfReach policy r)
  (hr : Refers r) (hway : s.Passable t)

include h

/-- Neither the file of an object out of reach is written or removed nor one above it. -/
theorem OutOfReach.not_written (hp : p <+: s.fileOf r) : ¬ s.Written policy p := by
  rintro (⟨g, hwrite, hrefers, rfl⟩ | ⟨table, hfill, hdeclared, rfl⟩)
  · have htrail : trail g <+: trail r := (List.prefix_append_right_inj _).mp hp
    exact (h.containers _ hwrite hrefers.1).1 ((List.prefix_append _ _).trans htrail)
  · exact (h.tables table hfill hdeclared).1 hp

include hr hway

/-- A folder that is made at the file of an object out of reach was there before. -/
theorem OutOfReach.stands_of_made (hmade : s.Made policy (s.fileOf r)) :
    t.entry? (s.fileOf r) = some .folder := by
  rcases hmade with ⟨g, hwrite, hrefers, hpassed | ⟨-, hbelow, -⟩⟩ |
    ⟨table, hfill, hdeclared, hpassed⟩
  · obtain ⟨first, hfirst, heq⟩ :=
      (Route.passed_above_or_left hpassed).resolve_left (fileOf_not_prefix_root hr)
    rw [heq]
    exact hway first hfirst
  · have htrail : trail r <+: trail g := (List.prefix_append_right_inj _).mp hbelow
    obtain ⟨hnot, hnot'⟩ := h.containers _ hwrite hrefers.1
    rcases List.prefix_or_prefix_of_prefix htrail (List.prefix_append _ _) with hleft | hright
    · exact absurd hleft hnot'
    · exact absurd hright hnot
  · exact absurd hpassed (h.tables table hfill hdeclared).2

/-- On the way to an object out of reach all that happens is that folders are made. -/
theorem OutOfReach.paves (hchanges : t.Changes (s.Written policy) (s.Made policy) t')
    (hshort : ∀ name ∈ s.objects.names ++ writtenNames r, isLongName name = false) :
    t.Paves t' s.objects.start (s.objects.names ++ writtenNames r) := by
  have hdots := names_ne_dots hr
  have hlast : Route.walk s.objects.start (s.objects.names ++ writtenNames r) = s.fileOf r :=
    @leadsTo_eq s r hr false
  -- a place on the way is above the file, or a folder that stands
  have hplace (p : Place)
      (hp : Route.Passed s.objects.start (s.objects.names ++ writtenNames r) p) :
      p <+: s.fileOf r ∨ t.entry? p = some .folder := by
    rcases passed_cases hr hp with rfl | hpassed | ⟨-, habove, -⟩
    · exact .inl List.prefix_rfl
    · rcases Route.passed_above_or_left hpassed with habove | ⟨first, hfirst, rfl⟩
      · exact .inl (habove.trans (root_prefix_fileOf r))
      · exact .inr (hway first hfirst)
    · exact .inl habove
  have hstep (p : Place) (hp : Route.Passed s.objects.start (s.objects.names ++ writtenNames r) p) :
      t'.entry? p = t.entry? p ∨ t.entry? p = none ∧ t'.entry? p = some .folder := by
    rcases hplace p hp with habove | hfolder
    · exact hchanges.same_or_made (h.not_written habove)
    · exact .inl ((hchanges.kept p hfolder).trans hfolder.symm)
  refine ⟨hshort, fun first hfirst => hway first (Route.left_of_append hdots hfirst), hstep, ?_⟩
  rw [hlast]
  refine (hchanges.same_or_made (h.not_written List.prefix_rfl)).resolve_right ?_
  rintro ⟨hnone, hfolder⟩
  have hstood : t.entry? (s.fileOf r) = some .folder :=
    (hchanges.made _ hfolder).elim id (h.stands_of_made hr hway)
  cases hnone.symm.trans hstood

end OutOfReach

/-- Grants confine what is written: whatever is called, an object out of the reach of what may be
written to is found, read and missed as before. -/
theorem grants_confine_writes (s : FileStore) (policy : AccessPolicy)
    (calls : List (String × Json)) {t : Tree} {r : ObjectRef} (ht : t.Nested) (hway : s.Passable t)
    (hshort : ∀ name ∈ s.objects.names ++ writtenNames r, isLongName name = false)
    (hreach : s.OutOfReach policy r) :
    let t' := (Service.invokeAll ⟨s.backend, policy⟩ calls t).2
    (s.get r t').1 = (s.get r t).1 ∧ (s.has r t').1 = (s.has r t).1 := by
  intro t'
  by_cases hr : Refers r
  · obtain ⟨slash, hlocate⟩ := locate_of_refers (s := s) hr
    have hfind : t'.find ⟨s.objects.start, s.objects.names ++ writtenNames r, slash⟩ =
        t.find ⟨s.objects.start, s.objects.names ++ writtenNames r, slash⟩ :=
      (hreach.paves hr hway (invokeAll_changes calls t) hshort).find_eq ht
    have hget : s.get r = _ := Call.ofExcept_bind_of_ok hlocate
    have hhas : s.has r = _ := Call.ofExcept_bind_of_ok hlocate
    rw [hget, hhas]
    simp only [Call.ofRead, Tree.read, Tree.has, hfind, and_self]
  · have hrefused : s.locate r = _ := locate_of_not_refers hr
    have hget : s.get r = _ := Call.ofExcept_bind_of_error hrefused
    have hhas : s.has r = _ := Call.ofExcept_bind_of_error hrefused
    rw [hget, hhas]
    exact ⟨rfl, rfl⟩

/-- An object is copied out of a container that may only be read, then it is to be deleted, and an
item is put into a table. -/
theorem grants_confine_copy :
    let s : FileStore := ⟨⟨[], ["objects"], false⟩, ⟨[], ["tables"], false⟩, [("t", "id")]⟩
    let policy : AccessPolicy := .ofGrants [.read "a", .write "b", .table "t"]
    let calls : List (String × Json) := [
      ("storage:copyObject", .object [("Bucket", .string "b"), ("Key", .string "x"),
        ("CopySource", .string "a/x")]),
      ("storage:deleteObject", .object [("Bucket", .string "a"), ("Key", .string "x")]),
      ("table:putItem", .object [("Item", .object [("id", .string "1")]),
        ("TableName", .string "t")])]
    let t : Tree := ⟨[["objects"], ["objects", "a"]], [(["objects", "a", "x"], "body".toUTF8)]⟩
    let r : ObjectRef := ⟨"a", "x"⟩
    let t' := (Service.invokeAll ⟨s.backend, policy⟩ calls t).2
    t.Nested ∧ s.Passable t ∧
      (∀ name ∈ s.objects.names ++ writtenNames r, isLongName name = false) ∧
      s.OutOfReach policy r ∧ (s.get r t').1 = (s.get r t).1 ∧ (s.has r t').1 = (s.has r t).1 := by
  intro s policy calls t r t'
  have ht : t.Nested := Tree.nested_of_parents (by decide) (by decide)
  have hway : s.Passable t := passable_of_notMem (by decide)
  have hshort : ∀ name ∈ s.objects.names ++ writtenNames r, isLongName name = false := by decide
  have hordinary {name : String} (hname : name ∈ ["objects", "tables", "a", "b", "x", "t.json"]) :
      Route.Ordinary name := by
    simp only [List.mem_cons, List.not_mem_nil, or_false] at hname
    rcases hname with rfl | rfl | rfl | rfl | rfl | rfl <;>
      exact ⟨by decide, by decide, by decide, by decide, by decide, by decide⟩
  have hreach : s.OutOfReach policy r := by
    refine outOfReach_of_ordinary ⟨?_, ?_, by decide, by decide⟩ ⟨hordinary (by decide), ?_⟩
      (by decide) ?_ ?_
    · exact fun name hname => hordinary (by simp_all [s])
    · exact fun name hname => hordinary (by simp_all [s])
    · exact ⟨["x"], by decide, fun name hname => hordinary (by simp_all), by decide⟩
    · intro c hwrite _
      have hmem := AccessPolicy.allows_ofGrants.mp hwrite
      exact hordinary (by simp_all)
    · intro table hfill _
      have hmem := AccessPolicy.allows_ofGrants.mp hfill
      obtain rfl : table = "t" := by simpa using hmem
      exact hordinary (by decide)
  exact ⟨ht, hway, hshort, hreach, grants_confine_writes s policy calls ht hway hshort hreach⟩

/-- A grant reaches into a container whose name goes on where that of the granted one ends: the
object `c` of the container `a/b` is deleted as the object `b/c` of the container `a`. -/
theorem reaches_nested :
    let s : FileStore := ⟨⟨[], ["objects"], false⟩, ⟨[], ["tables"], false⟩, []⟩
    let grants : List Grant := [.read "a", .write "a"]
    let calls : List (String × Json) := [
      ("storage:deleteObject", .object [("Bucket", .string "a"), ("Key", .string "b/c")])]
    let t : Tree := ⟨[["objects"], ["objects", "a"], ["objects", "a", "b"]],
      [(["objects", "a", "b", "c"], "body".toUTF8)]⟩
    let r : ObjectRef := ⟨"a/b", "c"⟩
    let t' := (Service.invokeAll ⟨s.backend, .ofGrants grants⟩ calls t).2
    t.Nested ∧ Refers r ∧ .write r.container ∉ grants ∧
      (s.has r t).1 = .ok true ∧ (s.has r t').1 = .ok false ∧
      (s.get r t).1 = .ok "body".toUTF8 ∧ (s.get r t').1 = .error r.notFound := by
  intro s grants calls t r t'
  have ht : t.Nested := Tree.nested_of_parents (by decide) (by decide)
  exact ⟨ht, ⟨by decide, by decide⟩, by decide, by decide, by decide, by decide, by decide⟩

end FileStore

end Conveyor
