import Conveyor.Proofs.Store.Routes
import Conveyor.Proofs.Store.Trees

/-!
# What stands in a tree

A tree is known by what stands at its places: each change of it is described by `Tree.entry?` at
all places. Along ordinary names, what an operation does depends only on what stands on the way: if
there is no file, the folders on the way can be made (`Tree.makeFolders_eq`) and a file that is not
there is missing (`Tree.find_eq_missing`); if there are folders, a file that is there is found
(`Tree.find_eq_file`) and can be written or removed.
-/

namespace Conveyor

/-! ### Places on the way -/

/-- A place that is passed when names are followed from a folder, the last one included. -/
def Along (folder : Place) (names : List String) (p : Place) : Prop :=
  p ≠ folder ∧ folder <+: p ∧ p <+: folder ++ names

theorem not_along_nil {folder p : Place} : ¬ Along folder [] p := by
  rintro ⟨hne, hfolder, hp⟩
  rw [List.append_nil] at hp
  exact hne (hp.eq_of_length_le hfolder.length_le)

theorem along_cons {folder p : Place} {name : String} {names : List String} :
    Along folder (name :: names) p ↔ p = folder ++ [name] ∨ Along (folder ++ [name]) names p := by
  have happend : folder ++ name :: names = (folder ++ [name]) ++ names := by simp
  unfold Along
  rw [happend]
  constructor
  · rintro ⟨hne, ⟨more, rfl⟩, hp⟩
    -- the place goes on from the folder with the first name
    cases more with
    | nil => exact absurd (List.append_nil folder) hne
    | cons first more =>
      have hfirst : first = name := by
        rw [List.append_assoc, List.prefix_append_right_inj] at hp
        exact (List.cons_prefix_cons.mp hp).1
      subst hfirst
      by_cases hnil : more = []
      · exact .inl (hnil ▸ rfl)
      · refine .inr ⟨fun heq => hnil ?_, ⟨more, by simp⟩, hp⟩
        simpa using heq
  · rintro (rfl | ⟨-, ⟨more, rfl⟩, hp⟩)
    · exact ⟨by simp, List.prefix_append _ _, List.prefix_append _ _⟩
    · refine ⟨fun heq => ?_, ⟨name :: more, by simp⟩, hp⟩
      have hlength := congrArg List.length heq
      simp at hlength

theorem along_concat {folder p : Place} {name : String} {names : List String} :
    Along folder (names ++ [name]) p ↔
      Along folder names p ∨ p = folder ++ (names ++ [name]) := by
  induction names generalizing folder with
  | nil => simp [along_cons, not_along_nil]
  | cons first names ih =>
    rw [List.cons_append, along_cons, along_cons, ih, or_assoc]
    simp

namespace Tree

variable {t : Tree} {folder p place : Place} {name : String} {names : List String} {r : Route}
  {body : ByteArray}

/-- No file stands on the way. -/
def Clear (t : Tree) (folder : Place) (names : List String) : Prop :=
  ∀ p, Along folder names p → ∀ body, t.entry? p ≠ some (.file body)

/-- Folders stand all along the way. -/
def Paved (t : Tree) (folder : Place) (names : List String) : Prop :=
  ∀ p, Along folder names p → t.entry? p = some .folder

theorem Paved.clear (h : t.Paved folder names) : t.Clear folder names :=
  fun p hp body hfile => by cases (h p hp).symm.trans hfile

theorem paved_cons : t.Paved folder (name :: names) ↔
    t.entry? (folder ++ [name]) = some .folder ∧ t.Paved (folder ++ [name]) names := by
  simp only [Paved, along_cons, forall_eq_or_imp]

theorem clear_cons : t.Clear folder (name :: names) ↔
    (∀ body, t.entry? (folder ++ [name]) ≠ some (.file body)) ∧
      t.Clear (folder ++ [name]) names := by
  simp only [Clear, along_cons, forall_eq_or_imp]

/-! ### Following names -/

section Follow

variable (h : ∀ name ∈ names, Route.Ordinary name)

/-- One ordinary name is followed to what stands there. -/
theorem follow_cons (hname : Route.Ordinary name) :
    t.follow folder (name :: names) =
      match t.entry? (folder ++ [name]) with
      | none => .error .missing
      | some .folder => t.follow (folder ++ [name]) names
      | some (.file body) =>
        if names.isEmpty then .ok (folder ++ [name], .file body) else .error .notFolder := by
  rw [follow, if_neg (by simp [hname.short])]
  all_goals first | rfl | exact hname.ne_dot | exact hname.ne_dots

include h

theorem follow_paved (hpaved : t.Paved folder names) :
    t.follow folder names = .ok (folder ++ names, .folder) := by
  induction names generalizing folder with
  | nil => simp [follow]
  | cons name names ih =>
    obtain ⟨hname, hnames⟩ := List.forall_mem_cons.mp h
    obtain ⟨hfolder, hrest⟩ := paved_cons.mp hpaved
    rw [follow_cons hname, hfolder]
    simpa using ih hnames hrest

/-- Where no file stands on the way, the names lead to a folder or to nothing. -/
theorem follow_clear (hclear : t.Clear folder names) :
    t.follow folder names = .ok (folder ++ names, .folder) ∧ t.Paved folder names ∨
      t.follow folder names = .error .missing := by
  induction names generalizing folder with
  | nil => exact .inl ⟨by simp [follow], fun p hp => absurd hp not_along_nil⟩
  | cons name names ih =>
    obtain ⟨hname, hnames⟩ := List.forall_mem_cons.mp h
    obtain ⟨hfirst, hrest⟩ := clear_cons.mp hclear
    rw [follow_cons hname]
    cases hentry : t.entry? (folder ++ [name]) with
    | none => exact .inr rfl
    | some entry =>
      cases entry with
      | file body => exact absurd hentry (hfirst body)
      | folder =>
        refine (ih hnames hrest).imp (fun hfollow => ?_) id
        exact ⟨by simpa using hfollow.1, paved_cons.mpr ⟨hentry, hfollow.2⟩⟩

end Follow

/-! ### Changes of a tree -/

theorem lookup_setFile_of_ne (files : List (Place × ByteArray)) (h : p ≠ place) :
    (setFile place body files).lookup p = files.lookup p := by
  induction files with
  | nil => simp only [setFile, List.lookup_cons, beq_false_of_ne h]
  | cons file files ih =>
    obtain ⟨q, b⟩ := file
    rw [setFile]
    by_cases hq : q = place
    · rw [if_pos hq, List.lookup_cons, List.lookup_cons, hq]
      simp only [beq_false_of_ne h]
    · rw [if_neg hq, List.lookup_cons, List.lookup_cons, ih]

/-- A new file stands at its place, and all else stays. -/
theorem entry?_withFile_eq (h : t.entry? place ≠ some .folder) :
    Tree.entry? (t.withFile place body) p =
      if p = place then some (.file body) else t.entry? p := by
  split
  · rename_i hp
    exact hp ▸ entry?_withFile (hp ▸ h)
  · rename_i hp
    have hlookup : (t.withFile place body).files.lookup p = t.files.lookup p :=
      lookup_setFile_of_ne t.files hp
    rw [ entry?, entry?, hlookup]
    rfl

/-- Nothing stands at the place of a file that has been removed, and all else stays. -/
theorem entry?_filter (h : t.entry? place ≠ some .folder) :
    Tree.entry? { t with files := t.files.filter (·.1 ≠ place) } p =
      if p = place then none else t.entry? p := by
  have hlookup : (t.files.filter (·.1 ≠ place)).lookup p =
      if p = place then none else t.files.lookup p := Keyed.lookup_erase
  rw [ entry?, entry?]
  dsimp only
  rw [hlookup]
  by_cases hp : p = place
  · have hplace : ¬(p = [] ∨ p ∈ t.folders) := hp ▸ mt entry?_eq_folder_iff.mpr h
    rw [if_neg hplace, if_pos hp, if_pos hp, Option.map_none]
  · rw [if_neg hp, if_neg hp]

/-- A new folder stands at its place, and all else stays. -/
theorem entry?_addFolder :
    Tree.entry? { t with folders := t.folders ++ [place] } p =
      if p = place then some .folder else t.entry? p := by
  rw [ entry?, entry?]
  simp only [List.mem_append, List.mem_singleton]
  by_cases hp : p = place
  · rw [if_pos hp, if_pos (.inr (.inr hp))]
  · simp only [hp, or_false, if_false]

/-- The folders on the way can be made if no file stands there. -/
theorem makeFolders_eq (h : ∀ name ∈ names, Route.Ordinary name) (hclear : t.Clear folder names) :
    ∃ t' : Tree, t.makeFolders folder names = (.ok (), t') ∧ t'.Paved folder names ∧
      ∀ p, ¬ Along folder names p → t'.entry? p = t.entry? p := by
  induction names generalizing folder t with
  | nil => exact ⟨t, rfl, fun p hp => absurd hp not_along_nil, fun _ _ => rfl⟩
  | cons name names ih =>
    obtain ⟨hname, hnames⟩ := List.forall_mem_cons.mp h
    obtain ⟨hfirst, hrest⟩ := clear_cons.mp hclear
    -- the first name leads to a folder, be it new or not
    have hgo (t₁ : Tree) (hmake : t.makeFolders folder (name :: names) =
          t₁.makeFolders (folder ++ [name]) names)
        (hfolder : t₁.entry? (folder ++ [name]) = some .folder)
        (hother : ∀ p, p ≠ folder ++ [name] → t₁.entry? p = t.entry? p) :
        ∃ t' : Tree, t.makeFolders folder (name :: names) = (.ok (), t') ∧
          t'.Paved folder (name :: names) ∧
          ∀ p, ¬ Along folder (name :: names) p → t'.entry? p = t.entry? p := by
      have hself : ¬ Along (folder ++ [name]) names (folder ++ [name]) := fun h => h.1 rfl
      obtain ⟨t', hmake', hpaved, hsame⟩ := ih hnames (t := t₁) fun p hp body hfile =>
        hrest p hp body (hother p hp.1 ▸ hfile)
      refine ⟨t', hmake.trans hmake', paved_cons.mpr ⟨(hsame _ hself).trans hfolder, hpaved⟩,
        fun p hp => ?_⟩
      obtain ⟨hne, hp⟩ := not_or.mp (mt along_cons.mpr hp)
      exact (hsame p hp).trans (hother p hne)
    have hlong : ¬ isLongName name = true := by simp [hname.short]
    cases hentry : t.entry? (folder ++ [name]) with
    | none =>
      let t₁ : Tree := { t with folders := t.folders ++ [folder ++ [name]] }
      have hmake : t.makeFolders folder (name :: names) =
          t₁.makeFolders (folder ++ [name]) names := by
        rw [makeFolders, if_neg hlong]
        · simp only [hentry, t₁]
        · exact hname.ne_dot
        · exact hname.ne_dots
      refine hgo t₁ hmake ?_ fun p hp => ?_
      · rw [ entry?_addFolder, if_pos rfl]
      · rw [ entry?_addFolder, if_neg hp]
    | some entry =>
      cases entry with
      | file body => exact absurd hentry (hfirst body)
      | folder =>
        refine hgo t ?_ hentry fun _ _ => rfl
        rw [makeFolders, if_neg hlong]
        · simp only [hentry]
        · exact hname.ne_dot
        · exact hname.ne_dots

/-! ### Files at routes of ordinary names -/

section Files

variable {start : Place} (h : ∀ other ∈ names ++ [name], Route.Ordinary other)

include h

private theorem ordinary_split :
    (∀ other ∈ names, Route.Ordinary other) ∧ Route.Ordinary name :=
  ⟨fun other hother => h other (List.mem_append_left _ hother), h name (by simp)⟩

/-- On a paved way a file is found. -/
theorem find_eq_file (hpaved : t.Paved start names)
    (hfile : t.entry? (start ++ (names ++ [name])) = some (.file body)) :
    t.find ⟨start, names ++ [name], false⟩ = .ok (start ++ (names ++ [name]), .file body) := by
  obtain ⟨hnames, hname⟩ := ordinary_split h
  have hfollow :
      t.follow start (names ++ [name]) = .ok (start ++ (names ++ [name]), .file body) := by
    rw [← List.append_assoc] at hfile ⊢
    rw [follow_concat (follow_paved hnames hpaved), follow_cons hname, hfile]
    rfl
  simp only [find, Route.hasNul_eq_false h, Route.isBlank, hfollow]
  simp [bind, Except.bind, pure, Except.pure]

/-- On a clear way a file that is not there is missing. -/
theorem find_eq_missing (hclear : t.Clear start names)
    (hnone : t.entry? (start ++ (names ++ [name])) = none) :
    t.find ⟨start, names ++ [name], false⟩ = .error .missing := by
  have hall : t.Clear start (names ++ [name]) := fun p hp body hfile => by
    rcases along_concat.mp hp with hp | rfl
    · exact hclear p hp body hfile
    · cases hnone.symm.trans hfile
  have hfollow : t.follow start (names ++ [name]) = .error .missing := by
    refine (follow_clear h hall).resolve_left fun ⟨_, hpaved⟩ => ?_
    cases hnone.symm.trans (hpaved _ (along_concat.mpr (.inr rfl)))
  simp only [find, Route.hasNul_eq_false h, Route.isBlank, hfollow]
  simp [bind, Except.bind]

/-- On a paved way a file can be written where no folder stands. -/
theorem target_eq (hpaved : t.Paved start names)
    (hfolder : t.entry? (start ++ (names ++ [name])) ≠ some .folder) :
    t.target ⟨start, names ++ [name], false⟩ = .ok (start ++ (names ++ [name])) := by
  obtain ⟨hnames, hname⟩ := ordinary_split h
  have hplace : (t.entry? (start ++ (names ++ [name]))).any Entry.isFolder = false := by
    cases hentry : t.entry? (start ++ (names ++ [name])) with
    | none => rfl
    | some entry =>
      cases entry with
      | folder => exact absurd hentry hfolder
      | file body => rfl
  simp only [target, Route.hasNul_eq_false h, List.getLast?_concat, List.dropLast_concat, folderAt,
    follow_paved hnames hpaved]
  simp [bind, Except.bind, pure, Except.pure, hname.ne_dot, hname.ne_dots, hname.short, hplace]

/-- On a paved way a file can be removed. -/
theorem remove_eq_file (hpaved : t.Paved start names)
    (hfile : t.entry? (start ++ (names ++ [name])) = some (.file body)) :
    t.remove ⟨start, names ++ [name], false⟩ =
      .ok { t with files := t.files.filter (·.1 ≠ start ++ (names ++ [name])) } := by
  obtain ⟨hnames, hname⟩ := ordinary_split h
  simp only [remove, Route.hasNul_eq_false h, List.getLast?_concat, List.dropLast_concat, folderAt,
    follow_paved hnames hpaved]
  simp [bind, Except.bind, pure, Except.pure, hname.ne_dot, hname.ne_dots, hname.short, hfile]

/-- On a clear way a file that is not there cannot be removed, because it is missing. -/
theorem remove_eq_missing (hclear : t.Clear start names)
    (hnone : t.entry? (start ++ (names ++ [name])) = none) :
    t.remove ⟨start, names ++ [name], false⟩ = .error .missing := by
  obtain ⟨hnames, hname⟩ := ordinary_split h
  -- the folder may be missing or not
  rcases follow_clear hnames hclear with ⟨hfollow, -⟩ | hfollow
  · simp only [remove, Route.hasNul_eq_false h, List.getLast?_concat, List.dropLast_concat,
      folderAt, hfollow]
    simp [bind, Except.bind, pure, Except.pure, hname.ne_dot, hname.ne_dots, hname.short, hnone]
    rfl
  · simp only [remove, Route.hasNul_eq_false h, List.getLast?_concat, List.dropLast_concat,
      folderAt, hfollow]
    simp [bind, Except.bind]

/-- On a clear way the folders in which a file is to be written can be made. -/
theorem makeParents_eq (hclear : t.Clear start names) :
    ∃ t' : Tree, t.makeParents ⟨start, names ++ [name], false⟩ = (.ok (), t') ∧
      t'.Paved start names ∧ ∀ p, ¬ Along start names p → t'.entry? p = t.entry? p := by
  obtain ⟨hnames, hname⟩ := ordinary_split h
  obtain ⟨t', hmake, hafter⟩ := makeFolders_eq hnames hclear
  refine ⟨t', ?_, hafter⟩
  rw [makeParents, Route.parentNames_concat hname, Route.hasNul_eq_false hnames]
  exact hmake

end Files

end Tree

end Conveyor
