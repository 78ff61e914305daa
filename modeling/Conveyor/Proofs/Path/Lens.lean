import Conveyor.Proofs.Path.Parts

/-!
# Reading what was written

A path reads and writes a document as a lens does (`Path.write_lawful`): what is written is read
back, a second write makes the first one void, and writing what is there already changes nothing.
Whether a value can be written depends on the document alone: what is in the way of a write is what
is in the way of reading, but for what is absent or `null` (`Json.install_eq_error_iff`), and there
is room for the same parts whatever is put there.

That writing what is there changes nothing supposes that the document lists its members in order, as
every document does that has been read.
-/

namespace Conveyor

/-- Writing does not get past the obstacle: it is a document of a wrong kind, and not `null`. -/
def Obstacle.Blocks : Obstacle → Prop
  | .absent => False
  | .wrongKind _ _ found => found ≠ .null

theorem Obstacle.blocks_earlier_iff {o : Obstacle} : o.earlier.Blocks ↔ o.Blocks := by
  cases o <;> rfl

namespace Json

variable {s : Segment} {segments : List Segment} {value doc doc' : Json}

theorem follow_null_eq_ok : follow segments .null = .ok value ↔ segments = [] ∧ value = .null := by
  cases segments with
  | nil => simp [follow, eq_comm]
  | cons t segments => cases t <;> simp [follow]

/-- What is not there can be read no more than `null` can, where there is a segment left. -/
theorem follow_getD_part? (hne : segments ≠ []) :
    follow segments ((doc.part? s).getD .null) = .ok value ↔
      follow (s :: segments) doc = .ok value := by
  rw [follow_cons_eq_ok]
  cases doc.part? s with
  | some child => simp
  | none => simp [follow_null_eq_ok, hne]

theorem follow_install (h : install segments value doc = .ok doc') :
    follow segments doc' = .ok value := by
  induction segments generalizing doc doc' with
  | nil => exact congrArg Except.ok (Except.ok.inj h).symm
  | cons s segments ih =>
    obtain ⟨-, child, hchild, rfl⟩ := install_cons_eq_ok.mp h
    exact follow_cons_eq_ok.mpr ⟨child, part?_setPart_self, ih hchild⟩

theorem install_install (h : install segments value doc = .ok doc') (other : Json) :
    install segments other doc' = install segments other doc := by
  induction segments generalizing doc doc' with
  | nil => rfl
  | cons s segments ih =>
    obtain ⟨⟨hdoc, hroom⟩, child, hchild, rfl⟩ := install_cons_eq_ok.mp h
    have hdoc' : (doc.setPart s child).Admits s := admits_setPart_iff.mpr rfl
    have hset : (doc.setPart s child).setPart s = doc.setPart s :=
      funext fun _ => setPart_setPart_self
    -- the second write goes down into the part that the first one has set
    rw [install_cons, if_pos hdoc', overflow?_setPart hdoc hroom, part?_setPart_self,
      Option.getD_some, ih hchild, hset, install_cons, if_pos hdoc]

theorem install_of_follow (hdoc : doc.Sorted) (h : follow segments doc = .ok value) :
    install segments value doc = .ok doc := by
  induction segments generalizing doc with
  | nil => exact congrArg Except.ok (Except.ok.inj h).symm
  | cons s segments ih =>
    obtain ⟨child, hpart, hchild⟩ := follow_cons_eq_ok.mp h
    have hadmits : doc.Admits s := .inr (kind_eq_container_of_part? hpart)
    refine install_cons_eq_ok.mpr
      ⟨⟨hadmits, overflow?_of_part? hpart⟩, child, ?_, setPart_of_part? hdoc hpart⟩
    rw [hpart]
    exact ih (sorted_of_part? hdoc hpart) hchild

theorem blocks_obstacle_iff : (doc.obstacle s).Blocks ↔ ¬ doc.Admits s := by
  rw [obstacle, Admits, not_or]
  by_cases hkind : doc.kind = s.container
  · simp [hkind, Obstacle.Blocks]
  · rw [if_neg hkind]
    exact (and_iff_left hkind).symm

/-- Nothing that blocks is in the way in `null`. -/
theorem not_blocks_of_follow_null {o : Obstacle} (h : follow segments .null = .error o) :
    ¬ o.Blocks := by
  cases segments with
  | nil => cases h
  | cons s segments =>
    have hpart : part? .null s = none := part?_eq_none s.container_ne_null.symm
    rw [follow_cons, hpart] at h
    obtain rfl := Except.error.inj h
    exact fun hblocks => blocks_obstacle_iff.mp hblocks (.inl rfl)

/-- What is in the way of writing is what is in the way of reading, if it blocks. -/
theorem install_eq_error_iff {o : Obstacle} : install segments value doc = .error (.error o) ↔
    follow segments doc = .error o ∧ o.Blocks := by
  induction segments generalizing doc o with
  | nil => exact ⟨nofun, fun h => nomatch h.1⟩
  | cons s segments ih =>
    have hbelow {x : Except (Fault Obstacle) Json} :
        x.mapError (Fault.map Obstacle.earlier) = .error (.error o) ↔
          ∃ o', x = .error (.error o') ∧ o'.earlier = o := by
      rw [Except.mapError_eq_error]
      simp [Fault.map_eq_error]
    rw [install_cons, follow_cons]
    cases hpart : doc.part? s with
    | some child =>
      have hadmits : doc.Admits s := .inr (kind_eq_container_of_part? hpart)
      rw [if_pos hadmits, overflow?_of_part? hpart, Option.getD_some]
      simp only [Except.map_eq_error, hbelow, Except.mapError_eq_error, ih]
      constructor
      · rintro ⟨o, ⟨ho, hblocks⟩, rfl⟩
        exact ⟨⟨o, ho, rfl⟩, Obstacle.blocks_earlier_iff.mpr hblocks⟩
      · rintro ⟨⟨o, ho, rfl⟩, hblocks⟩
        exact ⟨o, ⟨ho, Obstacle.blocks_earlier_iff.mp hblocks⟩, rfl⟩
    | none =>
      by_cases hadmits : doc.Admits s
      · -- the part is made of `null`, and neither that nor its absence blocks
        have hblocks : ¬ (doc.obstacle s).Blocks := fun h => blocks_obstacle_iff.mp h hadmits
        rw [if_pos hadmits, Option.getD_none]
        cases doc.overflow? s with
        | some p =>
          refine ⟨nofun, ?_⟩
          rintro ⟨⟨⟩, h⟩
          exact absurd h hblocks
        | none =>
          simp only [Except.map_eq_error, hbelow, ih, Except.error.injEq]
          constructor
          · rintro ⟨o, ⟨ho, hblocks⟩, -⟩
            exact absurd hblocks (not_blocks_of_follow_null ho)
          · rintro ⟨rfl, h⟩
            exact absurd h hblocks
      · rw [if_neg hadmits, Except.error.injEq, Except.error.injEq, Fault.error.injEq]
        refine iff_self_and.mpr fun ho => ?_
        subst ho
        exact blocks_obstacle_iff.mpr hadmits

theorem exists_install (h : install segments value doc = .ok doc') (other : Json) :
    ∃ doc'', install segments other doc = .ok doc'' := by
  induction segments generalizing doc doc' with
  | nil => exact ⟨other, rfl⟩
  | cons s segments ih =>
    obtain ⟨hdoc, child, hchild, -⟩ := install_cons_eq_ok.mp h
    obtain ⟨child', hchild'⟩ := ih hchild
    exact ⟨_, install_cons_eq_ok.mpr ⟨hdoc, child', hchild', rfl⟩⟩

end Json

namespace Path

variable {p : Path} {value doc doc' : Json}

theorem read_eq_ok : p.read doc = .ok value ↔ Json.follow p.segments doc = .ok value :=
  Except.mapError_eq_ok

theorem write_eq_ok : p.write value doc = .ok doc' ↔
    Json.install p.segments value doc = .ok doc' :=
  Except.mapError_eq_ok

/-! ### Members -/

section Members

variable {name inner other : String} {child : Json}

theorem read_key (h : doc.member? name = some value) : (root.key name).read doc = .ok value :=
  read_eq_ok.mpr (Json.follow_cons_eq_ok.mpr ⟨value, h, rfl⟩)

theorem read_key_key (h : doc.member? name = some child)
    (hchild : child.member? inner = some value) :
    ((root.key name).key inner).read doc = .ok value :=
  read_eq_ok.mpr (Json.follow_cons_eq_ok.mpr
    ⟨child, h, Json.follow_cons_eq_ok.mpr ⟨value, hchild, rfl⟩⟩)

theorem write_key {fields : List (String × Json)} :
    (root.key name).write value (.object fields) = .ok (.object (Json.insert name value fields)) :=
  rfl

/-- Writing one member of an object leaves the others. -/
theorem member?_write (h : doc.member? other = some child) (hne : other ≠ name)
    (hwrite : (root.key name).write value doc = .ok doc') : doc'.member? other = some child := by
  obtain ⟨⟨hdoc, -⟩, part, -, rfl⟩ := Json.install_cons_eq_ok.mp (write_eq_ok.mp hwrite)
  have hother : Segment.key name ≠ .key other := fun heq => hne (Segment.key.inj heq).symm
  exact (Json.part?_setPart_of_ne hdoc hother).mpr (.inl h)

end Members

/-! ### Laws -/

/-- A value that is written is read back, and what is written after it is written as though it had
not been. Writing the value that is there already changes nothing. Whether a value can be written
does not depend on the value. -/
theorem write_lawful (p : Path) (doc : Json) :
    (∀ value doc', p.write value doc = .ok doc' →
      p.read doc' = .ok value ∧ ∀ other, p.write other doc' = p.write other doc) ∧
    (doc.Sorted → ∀ value, p.read doc = .ok value → p.write value doc = .ok doc) ∧
    ∀ value other,
      (∃ doc', p.write value doc = .ok doc') ↔ ∃ doc', p.write other doc = .ok doc' := by
  have hother {value other : Json} (h : ∃ doc', p.write value doc = .ok doc') :
      ∃ doc', p.write other doc = .ok doc' := by
    obtain ⟨doc', hwrite⟩ := h
    obtain ⟨doc'', hinstall⟩ := Json.exists_install (write_eq_ok.mp hwrite) other
    exact ⟨doc'', write_eq_ok.mpr hinstall⟩
  refine ⟨fun value doc' h => ⟨?_, fun other => ?_⟩, fun hdoc value h => ?_, fun _ _ =>
    ⟨hother, hother⟩⟩
  · exact read_eq_ok.mpr (Json.follow_install (write_eq_ok.mp h))
  · exact congrArg (Except.mapError _) (Json.install_install (write_eq_ok.mp h) other)
  · exact write_eq_ok.mpr (Json.install_of_follow hdoc (read_eq_ok.mp h))

/-- A path to a member of an item. -/
def memberOfItem : Path := ⟨[.key "a", .index 1, .key "b"]⟩

/-- A document with nothing there. -/
def unfilled : Json :=
  .object [("a", .null), ("c", .bool true)]

/-- The document with the member made. -/
def filledUp (member : Json) : Json :=
  .object [("a", .array [.null, .object [("b", member)]]), ("c", .bool true)]

/-- The member is made, read back, replaced and written once more. -/
theorem write_lawful_memberOfItem :
    (memberOfItem.write (.string "x") unfilled = .ok (filledUp (.string "x")) ∧
      memberOfItem.read (filledUp (.string "x")) = .ok (.string "x") ∧
      memberOfItem.write .null (filledUp (.string "x")) = memberOfItem.write .null unfilled) ∧
    (((filledUp .null).Sorted ∧ memberOfItem.read (filledUp .null) = .ok .null) ∧
      memberOfItem.write .null (filledUp .null) = .ok (filledUp .null)) ∧
    ∃ doc', memberOfItem.write .null unfilled = .ok doc' := by
  have hwrite : memberOfItem.write (.string "x") unfilled = .ok (filledUp (.string "x")) := rfl
  have hread : memberOfItem.read (filledUp .null) = .ok .null := rfl
  have hsorted : (filledUp .null).Sorted :=
    ⟨by decide, ⟨trivial, ⟨List.pairwise_singleton _ _, trivial, trivial⟩, trivial⟩, trivial,
      trivial⟩
  obtain ⟨hback, hvoid⟩ := (write_lawful memberOfItem unfilled).1 _ _ hwrite
  exact ⟨⟨hwrite, hback, hvoid .null⟩,
    ⟨⟨hsorted, hread⟩, (write_lawful memberOfItem (filledUp .null)).2.1 hsorted _ hread⟩,
    ((write_lawful memberOfItem unfilled).2.2 (.string "x") .null).mp ⟨_, hwrite⟩⟩

end Path

end Conveyor
