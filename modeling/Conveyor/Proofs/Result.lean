import Conveyor.Fault

/-!
# Results

When computations that may fail succeed one after another, and with which errors they fail; and what
becomes of errors that are no panics.
-/

namespace Conveyor

namespace Fault

variable {ε ε' : Type} {f : ε → ε'} {x : Fault ε}

theorem map_eq_error {e' : ε'} : x.map f = .error e' ↔ ∃ e, x = .error e ∧ f e = e' := by
  cases x with
  | error e =>
    exact ⟨fun h => ⟨e, rfl, error.inj h⟩, fun ⟨_, h, hf⟩ => error.inj h ▸ hf ▸ rfl⟩
  | panic p => exact ⟨nofun, nofun⟩

theorem map_eq_panic {p : Panic} : x.map f = .panic p ↔ x = .panic p := by
  cases x with
  | error e => exact ⟨nofun, nofun⟩
  | panic q => exact ⟨fun h => congrArg _ (panic.inj h), fun h => panic.inj h ▸ rfl⟩

/-- The fault is a panic, or an error that satisfies `R`. -/
def Satisfies (R : ε → Prop) : Fault ε → Prop
  | .error e => R e
  | .panic _ => True

theorem Satisfies.map {R : ε → Prop} {R' : ε' → Prop} (hx : x.Satisfies R)
    (h : ∀ e, R e → R' (f e)) : (x.map f).Satisfies R' := by
  cases x with
  | error e => exact h e hx
  | panic p => trivial

end Fault

namespace Except

variable {ε ε' α β : Type} {x : Except ε α} {a : α} {b : β}

theorem bind_eq_ok {f : α → Except ε β} : x >>= f = .ok b ↔ ∃ a, x = .ok a ∧ f a = .ok b := by
  cases x with
  | ok a => exact ⟨fun h => ⟨a, rfl, h⟩, fun ⟨_, h, hf⟩ => Except.ok.inj h ▸ hf⟩
  | error e => exact ⟨nofun, nofun⟩

theorem map_eq_ok {f : α → β} : x.map f = .ok b ↔ ∃ a, x = .ok a ∧ f a = b := by
  cases x with
  | ok a =>
    exact ⟨fun h => ⟨a, rfl, Except.ok.inj h⟩, fun ⟨_, h, hf⟩ => Except.ok.inj h ▸ hf ▸ rfl⟩
  | error e => exact ⟨nofun, nofun⟩

theorem map_eq_ok_iff {f : α → β} (hf : f.Injective) : x.map f = .ok (f a) ↔ x = .ok a :=
  map_eq_ok.trans ⟨fun ⟨_, hx, hfa⟩ => hf hfa ▸ hx, fun hx => ⟨a, hx, rfl⟩⟩

theorem mapError_eq_ok {f : ε → ε'} : x.mapError f = .ok a ↔ x = .ok a := by
  cases x with
  | ok a' => exact ⟨fun h => congrArg Except.ok (Except.ok.inj h), fun h => Except.ok.inj h ▸ rfl⟩
  | error e => exact ⟨nofun, nofun⟩

theorem map_eq_error {f : α → β} {e : ε} : x.map f = .error e ↔ x = .error e := by
  cases x with
  | ok a => exact ⟨nofun, nofun⟩
  | error e' => exact ⟨fun h => congrArg _ (Except.error.inj h), fun h => Except.error.inj h ▸ rfl⟩

theorem mapError_eq_error {f : ε → ε'} {e' : ε'} :
    x.mapError f = .error e' ↔ ∃ e, x = .error e ∧ f e = e' := by
  cases x with
  | ok a => exact ⟨nofun, nofun⟩
  | error e =>
    exact ⟨fun h => ⟨e, rfl, Except.error.inj h⟩, fun ⟨_, h, hf⟩ => Except.error.inj h ▸ hf ▸ rfl⟩

theorem toOption_eq_some : x.toOption = some a ↔ x = .ok a := by
  cases x with
  | ok b => exact ⟨fun h => congrArg Except.ok (Option.some.inj h), fun h => Except.ok.inj h ▸ rfl⟩
  | error e => exact ⟨nofun, nofun⟩

theorem mapM_cons_eq_ok {f : α → Except ε β} {as : List α} {bs : List β} :
    (a :: as).mapM f = .ok bs ↔ ∃ b bs', f a = .ok b ∧ as.mapM f = .ok bs' ∧ b :: bs' = bs := by
  simp only [List.mapM_cons, bind_eq_ok]
  constructor
  · rintro ⟨b, hb, bs', hbs', hok⟩
    exact ⟨b, bs', hb, hbs', Except.ok.inj hok⟩
  · rintro ⟨b, bs', hb, hbs', rfl⟩
    exact ⟨b, hb, bs', hbs', rfl⟩

theorem mapM_eq_ok_self {f : α → Except ε α} {as : List α} :
    as.mapM f = .ok as ↔ ∀ a ∈ as, f a = .ok a := by
  induction as with
  | nil => exact ⟨fun _ => nofun, fun _ => rfl⟩
  | cons a as ih =>
    rw [mapM_cons_eq_ok, List.forall_mem_cons, ← ih]
    constructor
    · rintro ⟨b, bs, hb, hbs, heq⟩
      obtain ⟨rfl, rfl⟩ := List.cons.inj heq
      exact ⟨hb, hbs⟩
    · rintro ⟨ha, has⟩
      exact ⟨a, as, ha, has, rfl⟩

theorem exists_mapM_eq_ok_iff {f : α → Except ε β} {as : List α} :
    (∃ bs, as.mapM f = .ok bs) ↔ ∀ a ∈ as, ∃ b, f a = .ok b := by
  induction as with
  | nil => exact ⟨fun _ => nofun, fun _ => ⟨[], rfl⟩⟩
  | cons a as ih =>
    rw [List.forall_mem_cons, ← ih]
    simp only [mapM_cons_eq_ok]
    constructor
    · rintro ⟨_, b, bs, hb, hbs, -⟩
      exact ⟨⟨b, hb⟩, bs, hbs⟩
    · rintro ⟨⟨b, hb⟩, bs, hbs⟩
      exact ⟨_, b, bs, hb, hbs, rfl⟩

/-- The error is that of the first computation that fails. -/
theorem mapM_eq_error_iff {f : α → Except ε β} {as : List α} {e : ε} :
    as.mapM f = .error e ↔ ∃ before a after, as = before ++ a :: after ∧
      (∀ b ∈ before, ∃ c, f b = .ok c) ∧ f a = .error e := by
  induction as with
  | nil => exact ⟨nofun, fun ⟨before, _, _, h, _⟩ => absurd h.symm (by simp)⟩
  | cons a as ih =>
    rw [List.mapM_cons]
    cases ha : f a with
    | error e' =>
      constructor
      · intro h
        obtain rfl := Except.error.inj h
        exact ⟨[], a, as, rfl, nofun, ha⟩
      · rintro ⟨before, c, after, has, hbefore, hc⟩
        cases before with
        | nil =>
          obtain ⟨rfl, rfl⟩ := List.cons.inj has
          exact congrArg _ (Except.error.inj (ha.symm.trans hc))
        | cons b before =>
          obtain ⟨rfl, -⟩ := List.cons.inj has
          obtain ⟨d, hd⟩ := hbefore a List.mem_cons_self
          cases ha.symm.trans hd
    | ok b =>
      have hrest : ((do let bs ← as.mapM f; pure (b :: bs)) : Except ε (List β)) = .error e ↔
          as.mapM f = .error e := by
        cases as.mapM f <;> simp [bind, Except.bind, pure, Except.pure]
      refine hrest.trans (ih.trans ⟨?_, ?_⟩)
      · rintro ⟨before, c, after, rfl, hbefore, hc⟩
        exact ⟨a :: before, c, after, rfl, List.forall_mem_cons.mpr ⟨⟨b, ha⟩, hbefore⟩, hc⟩
      · rintro ⟨before, c, after, has, hbefore, hc⟩
        cases before with
        | nil =>
          obtain ⟨rfl, -⟩ := List.cons.inj has
          cases ha.symm.trans hc
        | cons b before =>
          obtain ⟨-, rfl⟩ := List.cons.inj has
          exact ⟨before, c, after, rfl, (List.forall_mem_cons.mp hbefore).2, hc⟩

/-! ### Errors -/

section FailsWith

variable {R : ε → Prop}

/-- The error of a result satisfies `R`, if there is one. -/
def FailsWith (R : ε → Prop) (x : Except ε α) : Prop :=
  ∀ e, x = .error e → R e

theorem FailsWith.ok (a : α) : FailsWith R (.ok a : Except ε α) :=
  nofun

theorem FailsWith.error {e : ε} (h : R e) : FailsWith R (.error e : Except ε α) :=
  fun _ he => Except.error.inj he ▸ h

theorem FailsWith.bind {f : α → Except ε β} (hx : FailsWith R x) (hf : ∀ a, FailsWith R (f a)) :
    FailsWith R (x >>= f) := by
  cases x with
  | ok a => exact hf a
  | error e => exact .error (hx e rfl)

theorem FailsWith.mapError_of {R' : ε' → Prop} {x : Except ε' α} {f : ε' → ε}
    (hx : FailsWith R' x) (h : ∀ e, R' e → R (f e)) : FailsWith R (x.mapError f) := by
  cases x with
  | ok a => exact .ok a
  | error e => exact .error (h e (hx e rfl))

theorem FailsWith.mapError {x : Except ε' α} {f : ε' → ε} (h : ∀ e, R (f e)) :
    FailsWith R (x.mapError f) :=
  have hx : FailsWith (fun _ => True) x := fun _ _ => trivial
  hx.mapError_of fun e _ => h e

theorem FailsWith.map {f : α → β} (hx : FailsWith R x) : FailsWith R (x.map f) := by
  cases x with
  | ok a => exact .ok (f a)
  | error e => exact .error (hx e rfl)

end FailsWith

end Except

end Conveyor
