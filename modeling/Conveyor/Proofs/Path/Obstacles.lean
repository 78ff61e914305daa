import Conveyor.Proofs.Path.Lens

/-!
# What is in the way of a path

Reading stops at the first segment that leads to nothing. If the part of the document that has been
reached is of the kind that the segment goes into, the path is not found; if it is of another kind,
the error tells the path up to this segment and both kinds (`Path.read_eq_error_iff`). Writing makes
what is missing, and what is `null`; it stops where reading does in all other cases, with the same
error (`Path.write_fails_as_read`). But an array is not filled up for a position that no array can
have: there writing panics. So it does not on a path with smaller positions (`Path.Fits`).
-/

namespace Conveyor

namespace Json

variable {s : Segment} {segments : List Segment} {doc : Json} {o : Obstacle}

/-- What is in the way is in the way of the first segment that leads to nothing. -/
theorem follow_eq_error_iff : follow segments doc = .error o ↔ ∃ before s after part,
    segments = before ++ s :: after ∧ follow before doc = .ok part ∧ part.part? s = none ∧
      Obstacle.earlier^[before.length] (part.obstacle s) = o := by
  induction segments generalizing doc o with
  | nil => exact ⟨nofun, fun ⟨before, s, after, _, h, _⟩ => absurd h.symm (by simp)⟩
  | cons s segments ih =>
    rw [follow_cons]
    cases hpart : doc.part? s with
    | none =>
      constructor
      · intro h
        exact ⟨[], s, segments, doc, rfl, rfl, hpart, Except.error.inj h⟩
      · rintro ⟨before, t, after, part, hsegments, hread, -, rfl⟩
        cases before with
        | nil =>
          obtain ⟨rfl, -⟩ := List.cons.inj hsegments
          obtain rfl := Except.ok.inj hread
          rfl
        | cons b before =>
          -- nothing is read beyond a segment that leads to nothing
          obtain ⟨rfl, -⟩ := List.cons.inj hsegments
          obtain ⟨child, hchild, -⟩ := follow_cons_eq_ok.mp hread
          cases hpart.symm.trans hchild
    | some child =>
      simp only [Except.mapError_eq_error, ih]
      constructor
      · rintro ⟨_, ⟨before, t, after, part, rfl, hread, hnone, rfl⟩, rfl⟩
        have hread' : follow (s :: before) doc = .ok part :=
          follow_cons_eq_ok.mpr ⟨child, hpart, hread⟩
        exact ⟨s :: before, t, after, part, rfl, hread', hnone, Function.iterate_succ_apply' _ _ _⟩
      · rintro ⟨before, t, after, part, hsegments, hread, hnone, rfl⟩
        cases before with
        | nil =>
          obtain ⟨rfl, -⟩ := List.cons.inj hsegments
          obtain rfl := Except.ok.inj hread
          cases hpart.symm.trans hnone
        | cons b before =>
          obtain ⟨rfl, rfl⟩ := List.cons.inj hsegments
          obtain ⟨child', hchild', hread⟩ := follow_cons_eq_ok.mp hread
          obtain rfl := Option.some.inj (hpart.symm.trans hchild')
          exact ⟨_, ⟨before, t, after, part, rfl, hread, hnone, rfl⟩,
            (Function.iterate_succ_apply' _ _ _).symm⟩

end Json

namespace Obstacle

variable {n : Nat} {p : Path} {expected found : Kind}

theorem iterate_earlier_wrongKind :
    earlier^[n] (.wrongKind 0 expected found) = .wrongKind n expected found := by
  induction n with
  | zero => rfl
  | succ n ih => rw [Function.iterate_succ_apply', ih, earlier]

theorem blocks_iff {o : Obstacle} : o.Blocks ↔
    ∃ q expected found, o.toError p = .typeMismatch q expected found ∧ found ≠ .null := by
  cases o with
  | absent => simp [Blocks, toError]
  | wrongKind passed expected found => simp [Blocks, toError]

end Obstacle

namespace Path

variable {p : Path} {value doc : Json} {e : PathError}

/-- Reading fails at the first segment that leads to nothing. The part of the document that has been
reached has no such part, though it is of the right kind, or it is of another kind. -/
theorem read_eq_error_iff : p.read doc = .error e ↔ ∃ before s after part,
    p.segments = before ++ s :: after ∧ (⟨before⟩ : Path).read doc = .ok part ∧
      part.part? s = none ∧
      e = if part.kind = s.container then .notFound p
        else .typeMismatch ⟨before ++ [s]⟩ s.container part.kind := by
  have herror {before after : List Segment} {s : Segment} {part : Json}
      (h : p.segments = before ++ s :: after) :
      (Obstacle.earlier^[before.length] (part.obstacle s)).toError p =
        if part.kind = s.container then .notFound p
        else .typeMismatch ⟨before ++ [s]⟩ s.container part.kind := by
    have htake : p.take (before.length + 1) = ⟨before ++ [s]⟩ := by
      rw [take, h, List.append_cons, List.take_left' (by simp)]
    rw [Json.obstacle]
    split
    · rw [Function.iterate_fixed rfl, Obstacle.toError]
    · rw [Obstacle.iterate_earlier_wrongKind, Obstacle.toError, htake]
  rw [read, Except.mapError_eq_error]
  simp only [Json.follow_eq_error_iff, read_eq_ok]
  constructor
  · rintro ⟨_, ⟨before, s, after, part, h, hread, hnone, rfl⟩, rfl⟩
    exact ⟨before, s, after, part, h, hread, hnone, herror h⟩
  · rintro ⟨before, s, after, part, h, hread, hnone, rfl⟩
    exact ⟨_, ⟨before, s, after, part, h, hread, hnone, rfl⟩, herror h⟩

/-- The error of reading tells that the path is not found, or that something is of a wrong kind. -/
theorem eq_notFound_or_typeMismatch (h : p.read doc = .error e) :
    e = .notFound p ∨ ∃ q expected found, e = .typeMismatch q expected found := by
  obtain ⟨before, s, after, part, -, -, -, rfl⟩ := read_eq_error_iff.mp h
  split
  · exact .inl rfl
  · exact .inr ⟨_, _, _, rfl⟩

theorem write_eq_error_iff : p.write value doc = .error (.error e) ↔
    p.read doc = .error e ∧ ∃ q expected found, e = .typeMismatch q expected found ∧
      found ≠ .null := by
  simp only [write, read, Except.mapError_eq_error, Fault.map_eq_error]
  constructor
  · rintro ⟨_, hinstall, o, rfl, rfl⟩
    obtain ⟨ho, hblocks⟩ := Json.install_eq_error_iff.mp hinstall
    exact ⟨⟨o, ho, rfl⟩, Obstacle.blocks_iff.mp hblocks⟩
  · rintro ⟨⟨o, ho, rfl⟩, hblocks⟩
    exact ⟨_, Json.install_eq_error_iff.mpr ⟨ho, Obstacle.blocks_iff.mpr hblocks⟩, o, rfl, rfl⟩

/-! ### Positions without room -/

/-- After these segments a document has nothing at a position, and no array can have it. -/
def NoRoom (doc : Json) (before : List Segment) (i : UInt64) : Prop :=
  Json.maxItems ≤ i.toNat ∧ ∀ part, (⟨before ++ [.index i]⟩ : Path).read doc ≠ .ok part

/-- The first position on a path for which a document has no room. -/
def Oversteps (p : Path) (doc : Json) (i : UInt64) : Prop :=
  ∃ before after, p.segments = before ++ .index i :: after ∧ NoRoom doc before i ∧
    ∀ earlier j later, before = earlier ++ .index j :: later → ¬ NoRoom doc earlier j

section NoRoom

variable {s : Segment} {before segments : List Segment} {i : UInt64} {panic : Panic}

theorem noRoom_nil_iff : NoRoom doc [] i ↔ doc.overflow? (.index i) = some (Json.overflow i) := by
  have hread (part : Json) : (⟨[] ++ [.index i]⟩ : Path).read doc = .ok part ↔
      doc.part? (.index i) = some part := by
    rw [read_eq_ok]
    simp [Json.follow_cons_eq_ok, Json.follow]
  rw [NoRoom, Json.overflow?_eq_some]
  simp only [Ne, hread, ← Option.eq_none_iff_forall_ne_some]
  constructor
  · rintro ⟨hmax, hnone⟩
    exact ⟨i, rfl, hmax, hnone, rfl⟩
  · rintro ⟨_, ⟨⟩, hmax, hnone, -⟩
    exact ⟨hmax, hnone⟩

theorem noRoom_cons_iff :
    NoRoom doc (s :: before) i ↔ NoRoom ((doc.part? s).getD .null) before i := by
  have hread (part : Json) : (⟨before ++ [.index i]⟩ : Path).read ((doc.part? s).getD .null) =
      .ok part ↔ (⟨s :: before ++ [.index i]⟩ : Path).read doc = .ok part := by
    rw [read_eq_ok, read_eq_ok]
    exact Json.follow_getD_part? (by simp)
  simp only [NoRoom, Ne, hread]

theorem oversteps_cons_of_overflow? (h : doc.overflow? s = some panic) :
    (⟨s :: segments⟩ : Path).Oversteps doc i ↔ s = .index i := by
  obtain ⟨k, rfl, -, -, rfl⟩ := Json.overflow?_eq_some.mp h
  have hnone : NoRoom doc [] k := noRoom_nil_iff.mpr h
  constructor
  · rintro ⟨before, after, hsegments, -, hfirst⟩
    cases before with
    | nil => exact (List.cons.inj hsegments).1
    | cons _ before =>
      obtain ⟨rfl, -⟩ := List.cons.inj hsegments
      exact absurd hnone (hfirst [] k before rfl)
  · intro hk
    obtain rfl := Segment.index.inj hk
    exact ⟨[], segments, rfl, hnone, fun _ _ _ hnil => absurd hnil (by simp)⟩

theorem oversteps_cons_of_room (h : doc.overflow? s = none) :
    (⟨s :: segments⟩ : Path).Oversteps doc i ↔
      (⟨segments⟩ : Path).Oversteps ((doc.part? s).getD .null) i := by
  have hhere {j : UInt64} (hs : s = .index j) : ¬ NoRoom doc [] j := fun hno => by
    cases h.symm.trans (hs ▸ noRoom_nil_iff.mp hno)
  constructor
  · rintro ⟨before, after, hsegments, hno, hfirst⟩
    cases before with
    | nil => exact absurd hno (hhere (List.cons.inj hsegments).1)
    | cons _ before =>
      obtain ⟨rfl, rfl⟩ := List.cons.inj hsegments
      refine ⟨before, after, rfl, noRoom_cons_iff.mp hno, fun earlier j later hbefore hno' => ?_⟩
      exact hfirst (s :: earlier) j later (congrArg _ hbefore) (noRoom_cons_iff.mpr hno')
  · rintro ⟨before, after, hsegments, hno, hfirst⟩
    refine ⟨s :: before, after, congrArg (s :: ·) hsegments, noRoom_cons_iff.mpr hno, ?_⟩
    rintro earlier j later hbefore hno'
    cases earlier with
    | nil => exact hhere (List.cons.inj hbefore).1 hno'
    | cons _ earlier =>
      obtain ⟨rfl, rfl⟩ := List.cons.inj hbefore
      exact hfirst earlier j later rfl (noRoom_cons_iff.mp hno')

theorem install_eq_panic_iff : Json.install segments value doc = .error (.panic panic) ↔
    (∀ o, Json.install segments value doc ≠ .error (.error o)) ∧
      ∃ i, (⟨segments⟩ : Path).Oversteps doc i ∧ panic = Json.overflow i := by
  induction segments generalizing doc with
  | nil => exact ⟨nofun, fun ⟨_, _, ⟨before, _, h, _⟩, _⟩ => absurd h.symm (by simp)⟩
  | cons s segments ih =>
    rw [Json.install_cons]
    by_cases hadmits : doc.Admits s
    · rw [if_pos hadmits]
      cases hroom : doc.overflow? s with
      | some p =>
        obtain ⟨k, rfl, -, -, rfl⟩ := Json.overflow?_eq_some.mp hroom
        simp [oversteps_cons_of_overflow? hroom, eq_comm]
      | none =>
        simp only [oversteps_cons_of_room hroom, Ne, Except.map_eq_error, Except.mapError_eq_error,
          Fault.map_eq_panic, Fault.map_eq_error, exists_eq_right, ih]
        refine and_congr_left fun _ => ⟨fun h o => ?_, fun h o ho => ?_⟩
        · rintro ⟨_, ho, o', rfl, rfl⟩
          exact h o' ho
        · exact h _ ⟨_, ho, o, rfl, rfl⟩
    · simp [hadmits]

/-- Writing panics at the first position for which there is no room, unless something is in its
way. -/
theorem write_eq_panic_iff : p.write value doc = .error (.panic panic) ↔
    (∀ e, p.write value doc ≠ .error (.error e)) ∧
      ∃ i, p.Oversteps doc i ∧ panic = Json.overflow i := by
  simp only [write, Ne, Except.mapError_eq_error, Fault.map_eq_panic, Fault.map_eq_error,
    exists_eq_right, install_eq_panic_iff]
  refine and_congr_left fun _ => ⟨fun h e => ?_, fun h o ho => ?_⟩
  · rintro ⟨_, ho, o, rfl, rfl⟩
    exact h o ho
  · exact h _ ⟨_, ho, o, rfl, rfl⟩

end NoRoom

/-- A path that can be read has no position without room. -/
theorem not_oversteps_of_read (h : p.read doc = .ok value) (i : UInt64) : ¬ p.Oversteps doc i := by
  obtain ⟨segments⟩ := p
  induction segments generalizing doc with
  | nil => exact fun ⟨before, _, hsegments, _⟩ => absurd hsegments.symm (by simp)
  | cons s segments ih =>
    obtain ⟨child, hpart, hchild⟩ := Json.follow_cons_eq_ok.mp (read_eq_ok.mp h)
    rw [oversteps_cons_of_room (Json.overflow?_of_part? hpart), hpart]
    exact ih (read_eq_ok.mpr hchild)

/-- There is nothing at a path, or only `null` is in its way. -/
def Missing (p : Path) (doc : Json) : Prop :=
  p.read doc = .error (.notFound p) ∨
    ∃ q expected, p.read doc = .error (.typeMismatch q expected .null)

theorem read_cases (p : Path) (doc : Json) : (∃ part, p.read doc = .ok part) ∨ p.Missing doc ∨
    ∃ q expected found, p.read doc = .error (.typeMismatch q expected found) ∧ found ≠ .null := by
  cases hread : p.read doc with
  | ok part => exact .inl ⟨part, rfl⟩
  | error e =>
    rcases eq_notFound_or_typeMismatch hread with rfl | ⟨q, expected, found, rfl⟩
    · exact .inr (.inl (.inl hread))
    · by_cases hnull : found = .null
      · exact .inr (.inl (.inr ⟨q, expected, hnull ▸ hread⟩))
      · exact .inr (.inr ⟨q, expected, found, rfl, hnull⟩)

theorem Missing.write_ne_error (h : p.Missing doc) (e : PathError) :
    p.write value doc ≠ .error (.error e) := by
  intro hwrite
  obtain ⟨hread, q, expected, found, rfl, hnull⟩ := write_eq_error_iff.mp hwrite
  rcases h with h | ⟨q', expected', h⟩
  · cases h.symm.trans hread
  · obtain ⟨-, -, rfl⟩ := PathError.typeMismatch.inj (Except.error.inj (h.symm.trans hread))
    exact hnull rfl

/-- **Reading and writing fail alike.** Writing fails with an error if and only if reading does and
the error tells of a part of a wrong kind that is not `null`. So what is missing, or what only
`null` is in the way of, can be written, unless the path has a position for which there is no room:
then writing panics. -/
theorem write_fails_as_read (p : Path) (value doc : Json) :
    (∀ e, p.write value doc = .error (.error e) ↔
      p.read doc = .error e ∧ ∃ q expected found, e = .typeMismatch q expected found ∧
        found ≠ .null) ∧
    ((∃ doc', p.write value doc = .ok doc') ↔
      (∃ part, p.read doc = .ok part) ∨ p.Missing doc ∧ ∀ i, ¬ p.Oversteps doc i) ∧
    ∀ panic, p.write value doc = .error (.panic panic) ↔
      p.Missing doc ∧ ∃ i, p.Oversteps doc i ∧ panic = Json.overflow i := by
  refine ⟨fun e => write_eq_error_iff, ?_, fun panic => ?_⟩
  · constructor
    · rintro ⟨doc', hwrite⟩
      rcases p.read_cases doc with hread | hmissing | ⟨q, expected, found, hread, hnull⟩
      · exact .inl hread
      · refine .inr ⟨hmissing, fun i hi => ?_⟩
        have hpanic : p.write value doc = .error (.panic (Json.overflow i)) :=
          write_eq_panic_iff.mpr ⟨hmissing.write_ne_error, i, hi, rfl⟩
        cases hwrite.symm.trans hpanic
      · have hfails : p.write value doc = .error (.error (.typeMismatch q expected found)) :=
          write_eq_error_iff.mpr ⟨hread, q, expected, found, rfl, hnull⟩
        cases hwrite.symm.trans hfails
    · intro hread
      cases hwrite : p.write value doc with
      | ok doc' => exact ⟨doc', rfl⟩
      | error fault =>
        cases fault with
        | error e =>
          rcases hread with ⟨part, hread⟩ | ⟨hmissing, -⟩
          · cases hread.symm.trans (write_eq_error_iff.mp hwrite).1
          · exact absurd hwrite (hmissing.write_ne_error e)
        | panic panic =>
          obtain ⟨-, i, hi, -⟩ := write_eq_panic_iff.mp hwrite
          rcases hread with ⟨part, hread⟩ | ⟨-, hroom⟩
          · exact absurd hi (not_oversteps_of_read hread i)
          · exact absurd hi (hroom i)
  · rw [write_eq_panic_iff]
    constructor
    · rintro ⟨hnever, i, hi, hpanic⟩
      refine ⟨?_, i, hi, hpanic⟩
      rcases p.read_cases doc with ⟨part, hread⟩ | hmissing | ⟨q, expected, found, hread, hnull⟩
      · exact absurd hi (not_oversteps_of_read hread i)
      · exact hmissing
      · exact absurd (write_eq_error_iff.mpr ⟨hread, q, expected, found, rfl, hnull⟩) (hnever _)
    · rintro ⟨hmissing, hover⟩
      exact ⟨hmissing.write_ne_error, hover⟩

/-- The greatest position. -/
def beyondAll : Path := ⟨[.index 18446744073709551615]⟩

/-- There is no such item in an empty array, and it cannot be written. -/
theorem write_beyondAll : beyondAll.read (.array []) = .error (.notFound beyondAll) ∧
    beyondAll.write (.bool true) (.array []) =
      .error (.panic ⟨"attempt to add with overflow"⟩) := by
  decide +kernel

/-! ### Paths that fit -/

/-- Every position on a path is one that an array can have. -/
def Fits (p : Path) : Prop :=
  ∀ i, .index i ∈ p.segments → i.toNat < Json.maxItems

/-- A panic is about a position on the path that no array can have. -/
theorem exists_index_of_write_panic {panic : Panic}
    (h : p.write value doc = .error (.panic panic)) :
    ∃ i, .index i ∈ p.segments ∧ Json.maxItems ≤ i.toNat ∧ panic = Json.overflow i := by
  obtain ⟨-, i, ⟨before, after, hsegments, ⟨hmax, -⟩, -⟩, hpanic⟩ := write_eq_panic_iff.mp h
  exact ⟨i, by simp [hsegments], hmax, hpanic⟩

end Path

end Conveyor
