import Conveyor.Store.Files
import Mathlib.Data.String.Basic

/-!
# Routes of ordinary names

A name is ordinary if a file can have it and it leads nowhere else than to that file. A route
through ordinary names is followed just as it is written, and a text of ordinary names between
slashes is taken apart into these names (`Route.namesOf_intercalate`).
-/

namespace Conveyor

/-! ### Ordinary names -/

/-- A name that stands for one file or folder. -/
structure Route.Ordinary (name : String) : Prop where
  ne_empty : name ≠ ""
  slash_notMem : '/' ∉ name.toList
  nul_notMem : '\x00' ∉ name.toList
  ne_dot : name ≠ "."
  ne_dots : name ≠ ".."
  short : isLongName name = false

/-- An object that is named by one container and a key of ordinary names between slashes. -/
structure ObjectRef.Ordinary (r : ObjectRef) : Prop where
  container : Route.Ordinary r.container
  key : ∃ names, names ≠ [] ∧ (∀ name ∈ names, Route.Ordinary name) ∧ r.key = "/".intercalate names

namespace Route

variable {name : String} {names : List String} {r : Route}

theorem hasNul_eq_false (h : ∀ name ∈ names, Ordinary name) : hasNul names = false := by
  simp only [hasNul, List.any_eq_false, List.contains_iff_mem]
  exact fun name hname => (h name hname).nul_notMem

/-- A text of ordinary names between slashes is taken apart into these names. -/
theorem namesOf_intercalate (hne : names ≠ []) (h : ∀ name ∈ names, Ordinary name) :
    namesOf ("/".intercalate names).toList = names := by
  have hsplit : (("/".intercalate names).toList).splitOnP (· == '/') = names.map String.toList := by
    rw [String.toList_intercalate]
    refine List.splitOn_intercalate '/' (fun cs hcs => ?_) (by simpa using hne)
    obtain ⟨name, hname, rfl⟩ := List.mem_map.mp hcs
    exact (h name hname).slash_notMem
  have hfilter : (names.map String.toList).filter (!·.isEmpty) = names.map String.toList := by
    refine List.filter_eq_self.mpr fun cs hcs => ?_
    obtain ⟨name, hname, rfl⟩ := List.mem_map.mp hcs
    simpa using (h name hname).ne_empty
  rw [namesOf, hsplit, hfilter, List.map_map]
  exact List.map_id'' (fun _ => String.ofList_toList) names

theorem intercalate_singleton : "/".intercalate [name] = name :=
  String.toList_inj.mp (by simp)

/-- A text of ordinary names has no slash at its ends. -/
theorem intercalate_ends (hne : names ≠ []) (h : ∀ name ∈ names, Ordinary name) :
    ("/".intercalate names).toList.head? ≠ some '/' ∧
      ("/".intercalate names).toList.getLast? ≠ some '/' := by
  rw [String.toList_intercalate]
  induction names with
  | nil => exact absurd rfl hne
  | cons name names ih =>
    have hname := h name List.mem_cons_self
    have hchars : name.toList ≠ [] := fun hnil => hname.ne_empty (String.toList_eq_nil_iff.mp hnil)
    have hfirst : name.toList.head? ≠ some '/' :=
      fun heq => hname.slash_notMem (List.mem_of_head? heq)
    have hlast : name.toList.getLast? ≠ some '/' :=
      fun heq => hname.slash_notMem (List.mem_of_getLast? heq)
    cases names with
    | nil => simpa using ⟨hfirst, hlast⟩
    | cons next names =>
      have ih := ih (List.cons_ne_nil _ _) fun name hname => h name (List.mem_cons_of_mem _ hname)
      rw [List.map_cons, List.map_cons, List.intercalate_cons_cons, ← List.map_cons]
      have hrest : (List.intercalate "/".toList ((next :: names).map String.toList)) ≠ [] := by
        intro hnil
        have hnext := h next (by simp)
        cases names <;> simp_all [List.intercalate_cons_cons, hnext.ne_empty]
      rw [List.append_assoc, List.head?_append_of_ne_nil _ hchars, List.getLast?_append_of_ne_nil,
        List.getLast?_append_of_ne_nil _ hrest]
      · exact ⟨hfirst, ih.2⟩
      · simp

theorem intercalate_append {more : List String} (hne : names ≠ []) (hmore : more ≠ []) :
    "/".intercalate (names ++ more) = "/".intercalate names ++ "/" ++ "/".intercalate more := by
  apply String.toList_inj.mp
  simp only [String.toList_append, String.toList_intercalate, List.map_append]
  obtain ⟨last, more, rfl⟩ := List.exists_cons_of_ne_nil hmore
  induction names with
  | nil => exact absurd rfl hne
  | cons name names ih =>
    cases names with
    | nil => simp [List.intercalate_cons_cons]
    | cons next names =>
      have ih := ih (List.cons_ne_nil _ _)
      simp only [List.map_cons, List.cons_append, List.intercalate_cons_cons] at ih ⊢
      rw [ih]
      simp only [List.append_assoc]

/-! ### Joined routes -/

/-- Where a route of ordinary names leads. -/
def place (r : Route) : Place :=
  r.start ++ r.names

theorem join_intercalate (hne : names ≠ []) (h : ∀ name ∈ names, Ordinary name) :
    r.join ("/".intercalate names) = ⟨r.start, r.names ++ names, false⟩ := by
  obtain ⟨hfirst, hlast⟩ := intercalate_ends hne h
  have hempty : names.isEmpty = false := by simpa using hne
  simp only [join, ofText, if_neg hfirst, namesOf_intercalate hne h, hempty, Bool.and_false,
    Bool.or_false, decide_eq_false hlast]

theorem join_ordinary (h : Ordinary name) :
    r.join name = ⟨r.start, r.names ++ [name], false⟩ := by
  have hone : r.join ("/".intercalate [name]) = _ := join_intercalate (List.cons_ne_nil name [])
    fun other hother => List.mem_singleton.mp hother ▸ h
  rwa [intercalate_singleton] at hone

/-- The folders on the way to a file. -/
theorem parentNames_concat {start : Place} {slash : Bool} (h : Ordinary name) :
    parentNames ⟨start, names ++ [name], slash⟩ = names := by
  have hdot : (name == ".") = false := beq_false_of_ne h.ne_dot
  simp [parentNames, hdot]

end Route

/-! ### The files of a store -/

namespace ObjectRef.Ordinary

variable {r : ObjectRef} (h : r.Ordinary)

include h

theorem key_eq : r.key = "/".intercalate (Route.namesOf r.key.toList) := by
  obtain ⟨names, hne, hnames, hkey⟩ := h.key
  rw [hkey, Route.namesOf_intercalate hne hnames]

theorem names_ne_nil : Route.namesOf r.key.toList ≠ [] := by
  obtain ⟨names, hne, hnames, hkey⟩ := h.key
  rwa [hkey, Route.namesOf_intercalate hne hnames]

theorem names_ordinary : ∀ name ∈ Route.namesOf r.key.toList, Route.Ordinary name := by
  obtain ⟨names, hne, hnames, hkey⟩ := h.key
  rwa [hkey, Route.namesOf_intercalate hne hnames]

end ObjectRef.Ordinary

namespace FileStore

variable {s : FileStore} {r r' : ObjectRef}

/-- The names from the folder of the objects to the file of an object. -/
def objectNames (r : ObjectRef) : List String :=
  r.container :: Route.namesOf r.key.toList

/-- The place of the file of an object. -/
def placeOf (s : FileStore) (r : ObjectRef) : Place :=
  s.objects.place ++ objectNames r

theorem objectNames_ordinary (h : r.Ordinary) : ∀ name ∈ objectNames r, Route.Ordinary name :=
  fun _ hname => (List.mem_cons.mp hname).elim (· ▸ h.container) (h.names_ordinary _)

theorem leadsDown_intercalate {names : List String} (hne : names ≠ [])
    (h : ∀ name ∈ names, Route.Ordinary name) : leadsDown ("/".intercalate names) = true := by
  have hfirst := (Route.intercalate_ends hne h).1
  have hdots : ".." ∉ names := fun hmem => (h _ hmem).ne_dots rfl
  have hdot : names.head? ≠ some "." := fun heq => (h _ (List.mem_of_head? heq)).ne_dot rfl
  unfold leadsDown
  rw [Route.namesOf_intercalate hne h]
  generalize ("/".intercalate names).toList = text at hfirst
  simp [hne, hdots, hdot, hfirst]

theorem leadsDown_ordinary {name : String} (h : Route.Ordinary name) : leadsDown name = true := by
  have hone := leadsDown_intercalate (List.cons_ne_nil name [])
    fun other hother => List.mem_singleton.mp hother ▸ h
  rwa [Route.intercalate_singleton] at hone

theorem locate_eq (h : r.Ordinary) :
    s.locate r = .ok ⟨s.objects.start, s.objects.names ++ objectNames r, false⟩ := by
  have hcontainer := leadsDown_ordinary h.container
  have hkey : leadsDown r.key = true := by
    rw [h.key_eq]
    exact leadsDown_intercalate h.names_ne_nil h.names_ordinary
  have hjoin (route : Route) :
      route.join r.key = ⟨route.start, route.names ++ Route.namesOf r.key.toList, false⟩ := by
    have := Route.join_intercalate (r := route) h.names_ne_nil h.names_ordinary
    rwa [← h.key_eq] at this
  rw [locate, hcontainer, hkey, Route.join_ordinary h.container, hjoin, List.append_assoc]
  rfl

/-- Objects with the same file are the same. -/
theorem placeOf_injective (h : r.Ordinary) (h' : r'.Ordinary) (heq : s.placeOf r = s.placeOf r') :
    r = r' := by
  have hnames := List.append_cancel_left heq
  obtain ⟨hcontainer, hkeys⟩ := List.cons.inj hnames
  have hkey : r.key = r'.key := by rw [h.key_eq, h'.key_eq, hkeys]
  obtain ⟨container, key⟩ := r
  obtain ⟨container', key'⟩ := r'
  exact congrArg₂ ObjectRef.mk hcontainer hkey

/-- A file stands on the way to another one only if its key goes on to the key of that. -/
theorem eq_or_key_eq_of_prefix (h : r.Ordinary) (h' : r'.Ordinary)
    (hbelow : s.placeOf r <+: s.placeOf r') :
    r = r' ∨ r.container = r'.container ∧ ∃ rest, r'.key = r.key ++ "/" ++ rest := by
  have hnames : objectNames r <+: objectNames r' := (List.prefix_append_right_inj _).mp hbelow
  obtain ⟨hcontainer, more, hmore⟩ := List.cons_prefix_cons.mp hnames
  by_cases hnil : more = []
  · rw [hnil, List.append_nil] at hmore
    refine .inl (placeOf_injective (s := s) h h' ?_)
    simp only [placeOf, objectNames, hcontainer, hmore]
  · refine .inr ⟨hcontainer, "/".intercalate more, ?_⟩
    rw [h'.key_eq, ← hmore, Route.intercalate_append h.names_ne_nil hnil, ← h.key_eq]

/-- The file of a table. -/
theorem tableRoute_eq {table : String} (h : Route.Ordinary (table ++ ".json")) :
    s.tableRoute table = ⟨s.tables.start, s.tables.names ++ [table ++ ".json"], false⟩ :=
  Route.join_ordinary h

end FileStore

end Conveyor
