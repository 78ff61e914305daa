import Conveyor.Proofs.Path.Lens

/-!
# Writing along one path and reading along another

Two paths are apart if neither is the beginning of the other, so that after a common beginning they
go on with different segments (`Path.Fork`). Writing along one leaves what can be read along the
other; what can be read only afterwards is `null`, at a position that an array has been filled up to
(`Path.read_write_of_apart`). So two writes along paths that are apart can change places
(`Path.write_write_comm`).
-/

namespace Conveyor

namespace Path

/-- Neither of two paths is the beginning of the other. -/
def Apart (p q : Path) : Prop :=
  ¬ p.segments <+: q.segments ∧ ¬ q.segments <+: p.segments

instance (p q : Path) : Decidable (p.Apart q) :=
  inferInstanceAs (Decidable (_ ∧ _))

/-- The second list of segments ends at a position of an array in which the first one goes on with a
later position. -/
def LeadsPast (ps qs : List Segment) : Prop :=
  ∃ before i j after, ps = before ++ .index i :: after ∧ qs = before ++ [.index j] ∧ j < i

/-- Two lists of segments go on with different segments after a common beginning. -/
inductive Fork : List Segment → List Segment → Prop
  | here {s t : Segment} {ps qs : List Segment} (h : s ≠ t) : Fork (s :: ps) (t :: qs)
  | later {s : Segment} {ps qs : List Segment} (h : Fork ps qs) : Fork (s :: ps) (s :: qs)

variable {s t : Segment} {ps qs : List Segment} {p q : Path}

theorem fork_of_not_prefix (hpq : ¬ ps <+: qs) (hqp : ¬ qs <+: ps) : Fork ps qs := by
  induction ps generalizing qs with
  | nil => exact absurd List.nil_prefix hpq
  | cons s ps ih =>
    cases qs with
    | nil => exact absurd List.nil_prefix hqp
    | cons t qs =>
      by_cases h : s = t
      · subst h
        exact .later (ih (fun hprefix => hpq (List.cons_prefix_cons.mpr ⟨rfl, hprefix⟩))
          fun hprefix => hqp (List.cons_prefix_cons.mpr ⟨rfl, hprefix⟩))
      · exact .here h

theorem Apart.symm (h : p.Apart q) : q.Apart p :=
  ⟨h.2, h.1⟩

theorem Apart.fork (h : p.Apart q) : Fork p.segments q.segments :=
  fork_of_not_prefix h.1 h.2

theorem leadsPast_cons_self : LeadsPast (s :: ps) (s :: qs) ↔ LeadsPast ps qs := by
  constructor
  · rintro ⟨before, i, j, after, hps, hqs, hlt⟩
    cases before with
    | nil =>
      obtain ⟨rfl, -⟩ := List.cons.inj hps
      obtain rfl := Segment.index.inj (List.cons.inj hqs).1
      exact absurd hlt (UInt64.lt_irrefl i)
    | cons _ before =>
      exact ⟨before, i, j, after, (List.cons.inj hps).2, (List.cons.inj hqs).2, hlt⟩
  · rintro ⟨before, i, j, after, rfl, rfl, hlt⟩
    exact ⟨s :: before, i, j, after, rfl, rfl, hlt⟩

theorem leadsPast_cons_of_ne (h : s ≠ t) :
    LeadsPast (s :: ps) (t :: qs) ↔ t.Before s ∧ qs = [] := by
  constructor
  · rintro ⟨before, i, j, after, hps, hqs, hlt⟩
    cases before with
    | nil =>
      obtain ⟨rfl, -⟩ := List.cons.inj hps
      obtain ⟨rfl, rfl⟩ := List.cons.inj hqs
      exact ⟨hlt, rfl⟩
    | cons u before => exact absurd ((List.cons.inj hps).1.trans (List.cons.inj hqs).1.symm) h
  · rintro ⟨hbefore, rfl⟩
    cases s with
    | key name => cases t <;> exact hbefore.elim
    | index i =>
      cases t with
      | key name => exact hbefore.elim
      | index j => exact ⟨[], i, j, ps, rfl, rfl, hbefore⟩

end Path

namespace Json

open Conveyor.Path (Fork LeadsPast)

variable {s t : Segment} {ps qs : List Segment} {value other part doc doc' : Json}

/-! ### Reading after a write -/

/-- Below another segment than the one whose part is set the same can be read, and in addition the
`null` of a position that has been filled up to. -/
theorem follow_setPart_of_ne (hdoc : doc.Admits s) (hne : s ≠ t) :
    follow (t :: qs) (doc.setPart s value) = .ok part ↔ follow (t :: qs) doc = .ok part ∨
      part = .null ∧ (t.Before s ∧ qs = []) ∧ ∀ old, follow (t :: qs) doc ≠ .ok old := by
  rw [follow_cons_eq_ok]
  simp only [part?_setPart_of_ne hdoc hne]
  cases hpart : doc.part? t with
  | some old =>
    have hfollow (x : Json) : follow (t :: qs) doc = .ok x ↔ follow qs old = .ok x := by
      simp [follow_cons_eq_ok, hpart]
    simp only [Ne, hfollow]
    constructor
    · rintro ⟨child, hold | ⟨-, -, hnone⟩, hread⟩
      · obtain rfl := Option.some.inj hold
        exact .inl hread
      · cases hnone
    · rintro (hread | ⟨-, ⟨-, rfl⟩, hnever⟩)
      · exact ⟨old, .inl rfl, hread⟩
      · exact absurd rfl (hnever old)
  | none =>
    have hnever (x : Json) : follow (t :: qs) doc ≠ .ok x := by
      simp [follow_cons_eq_ok, hpart]
    constructor
    · rintro ⟨child, hold | ⟨rfl, hbefore, -⟩, hread⟩
      · cases hold
      · -- nothing goes on from `null`, so the position is where the segments end
        obtain ⟨rfl, rfl⟩ := follow_null_eq_ok.mp hread
        exact .inr ⟨rfl, ⟨hbefore, rfl⟩, hnever⟩
    · rintro (hread | ⟨rfl, ⟨hbefore, rfl⟩, -⟩)
      · exact absurd hread (hnever part)
      · exact ⟨.null, .inr ⟨rfl, hbefore, rfl⟩, rfl⟩

/-- What a write along the one list adds to what can be read along the other. -/
theorem follow_install_of_fork (hfork : Fork ps qs) (h : install ps value doc = .ok doc') :
    follow qs doc' = .ok part ↔ follow qs doc = .ok part ∨
      part = .null ∧ LeadsPast ps qs ∧ ∀ old, follow qs doc ≠ .ok old := by
  induction hfork generalizing doc doc' with
  | here hne =>
    obtain ⟨⟨hdoc, -⟩, child, -, rfl⟩ := install_cons_eq_ok.mp h
    rw [Path.leadsPast_cons_of_ne hne]
    exact follow_setPart_of_ne hdoc hne
  | @later s ps qs hfork ih =>
    obtain ⟨-, child, hchild, rfl⟩ := install_cons_eq_ok.mp h
    -- there is a segment left, and so a part that was made of `null` could not be read before
    have hqs : qs ≠ [] := by
      rintro rfl
      cases hfork
    have hnew : follow (s :: qs) (doc.setPart s child) = .ok part ↔ follow qs child = .ok part := by
      rw [← follow_getD_part? hqs, part?_setPart_self, Option.getD_some]
    have hold (old : Json) : follow qs ((doc.part? s).getD .null) = .ok old ↔
        follow (s :: qs) doc = .ok old := follow_getD_part? hqs
    rw [hnew, ih hchild, Path.leadsPast_cons_self]
    simp only [Ne, hold]

/-! ### Two writes -/

/-- The second of two writes could have come first, and the other one after it. -/
theorem install_install_of_fork (hfork : Fork ps qs) {mid : Json}
    (hfirst : install ps value doc = .ok mid) (hsecond : install qs other mid = .ok doc') :
    ∃ mid', install qs other doc = .ok mid' ∧ install ps value mid' = .ok doc' := by
  induction hfork generalizing doc mid doc' with
  | @here s t ps qs hne =>
    obtain ⟨⟨hdoc, hroom⟩, a, ha, rfl⟩ := install_cons_eq_ok.mp hfirst
    obtain ⟨⟨hmid, hroom'⟩, b, hb, rfl⟩ := install_cons_eq_ok.mp hsecond
    have hcontainer : s.container = t.container := admits_setPart_iff.mp hmid
    have hdoc' : doc.Admits t := hdoc.of_container_eq hcontainer
    -- either write finds below its own segment what it would have found alone
    rw [getD_part?_setPart_of_ne hdoc hne] at hb
    rw [overflow?_setPart hdoc hroom] at hroom'
    have hadmits : (doc.setPart t b).Admits s := admits_setPart_iff.mpr hcontainer.symm
    have hroom'' : (doc.setPart t b).overflow? s = none :=
      (overflow?_setPart hdoc' hroom').trans hroom
    refine ⟨doc.setPart t b, install_cons_eq_ok.mpr ⟨⟨hdoc', hroom'⟩, b, hb, rfl⟩,
      install_cons_eq_ok.mpr ⟨⟨hadmits, hroom''⟩, a, ?_, ?_⟩⟩
    · rwa [getD_part?_setPart_of_ne hdoc' hne.symm]
    · exact setPart_comm hne.symm hcontainer.symm
  | @later s ps qs hfork ih =>
    obtain ⟨⟨hdoc, hroom⟩, a, ha, rfl⟩ := install_cons_eq_ok.mp hfirst
    obtain ⟨-, b, hb, rfl⟩ := install_cons_eq_ok.mp hsecond
    rw [part?_setPart_self, Option.getD_some] at hb
    obtain ⟨c, hc, hbc⟩ := ih ha hb
    have hroom' : (doc.setPart s c).overflow? s = none :=
      (overflow?_setPart hdoc hroom).trans hroom
    refine ⟨doc.setPart s c, install_cons_eq_ok.mpr ⟨⟨hdoc, hroom⟩, c, hc, rfl⟩,
      install_cons_eq_ok.mpr ⟨⟨admits_setPart_iff.mpr rfl, hroom'⟩, b, ?_, ?_⟩⟩
    · rwa [part?_setPart_self, Option.getD_some]
    · rw [setPart_setPart_self, setPart_setPart_self]

end Json

namespace Path

variable {p q : Path} {value doc doc' : Json}

/-- Along a path that is apart from the one written along, the same can be read before and after. In
addition a position that was not there can be read as `null`, if the write has filled up an array
past it. -/
theorem read_write_of_apart (hapart : p.Apart q) (h : p.write value doc = .ok doc') (part : Json) :
    q.read doc' = .ok part ↔ q.read doc = .ok part ∨
      part = .null ∧ LeadsPast p.segments q.segments ∧ ∀ old, q.read doc ≠ .ok old := by
  simp only [Ne, read_eq_ok]
  exact Json.follow_install_of_fork hapart.fork (write_eq_ok.mp h)

/-- An item of a list. -/
def listItem (i : UInt64) : Path := ⟨[.key "a", .index i]⟩

/-- A list with one item. -/
def oneItem : Json :=
  .object [("a", .array [.bool true])]

/-- The list with an item put at position 3. -/
def fourItems : Json :=
  .object [("a", .array [.bool true, .null, .null, .string "x"])]

/-- The first item is left, and the second one is filled in. -/
theorem read_write_of_apart_listItem :
    ((listItem 3).Apart (listItem 0) ∧ (listItem 3).Apart (listItem 1) ∧
      (listItem 3).write (.string "x") oneItem = .ok fourItems) ∧
    (listItem 0).read fourItems = .ok (.bool true) ∧
    (listItem 1).read fourItems = .ok .null ∧ ∀ old, (listItem 1).read oneItem ≠ .ok old := by
  have hfirst : (listItem 3).Apart (listItem 0) := by decide
  have hsecond : (listItem 3).Apart (listItem 1) := by decide
  have hwrite : (listItem 3).write (.string "x") oneItem = .ok fourItems := rfl
  have hpast : LeadsPast (listItem 3).segments (listItem 1).segments :=
    ⟨[.key "a"], 3, 1, [], rfl, rfl, by decide⟩
  have hnever (old : Json) : (listItem 1).read oneItem ≠ .ok old := nofun
  exact ⟨⟨hfirst, hsecond, hwrite⟩, (read_write_of_apart hfirst hwrite _).mpr (.inl rfl),
    (read_write_of_apart hsecond hwrite _).mpr (.inr ⟨rfl, hpast, hnever⟩), hnever⟩

/-- Two writes along paths that are apart succeed in one order if and only if they do in the other,
and come to the same document. -/
theorem write_write_comm (hapart : p.Apart q) (value other doc doc' : Json) :
    (p.write value doc >>= q.write other) = .ok doc' ↔
      (q.write other doc >>= p.write value) = .ok doc' := by
  have hswap {p q : Path} {value other : Json} (hapart : p.Apart q)
      (h : (p.write value doc >>= q.write other) = .ok doc') :
      (q.write other doc >>= p.write value) = .ok doc' := by
    obtain ⟨mid, hfirst, hsecond⟩ := Except.bind_eq_ok.mp h
    obtain ⟨mid', hfirst', hsecond'⟩ := Json.install_install_of_fork hapart.fork
      (write_eq_ok.mp hfirst) (write_eq_ok.mp hsecond)
    exact Except.bind_eq_ok.mpr ⟨mid', write_eq_ok.mpr hfirst', write_eq_ok.mpr hsecond'⟩
  exact ⟨hswap hapart, hswap hapart.symm⟩

/-- A member of the first item of a list. -/
def firstMember : Path := ⟨[.key "a", .index 0, .key "b"]⟩

/-- The list that both are written to. -/
def bothWritten : Json :=
  .object [("a", .array [.object [("b", .bool true)], .null, .string "x"])]

/-- Either write makes the list, and the other one finds it made. -/
theorem write_write_comm_firstMember :
    ((listItem 2).Apart firstMember ∧
      ((listItem 2).write (.string "x") .null >>= firstMember.write (.bool true)) =
        .ok bothWritten) ∧
    (firstMember.write (.bool true) .null >>= (listItem 2).write (.string "x")) =
      .ok bothWritten := by
  have hapart : (listItem 2).Apart firstMember := by decide
  have hwrites : ((listItem 2).write (.string "x") .null >>= firstMember.write (.bool true)) =
      .ok bothWritten := rfl
  exact ⟨⟨hapart, hwrites⟩, (write_write_comm hapart _ _ _ _).mp hwrites⟩

end Path

end Conveyor
