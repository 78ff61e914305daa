import Conveyor.Store.Backend

/-!
# Calls and their parts

What holds of a call as soon as it holds of its parts: that on states that look alike it gives
answers that look alike and leaves states that do (`Call.Alike`), and that it changes a state in an
allowed way only (`Call.Stays`).
-/

namespace Conveyor

namespace Call

variable {σ α β γ δ : Type} {c : Call σ α} {f : α → Call σ γ} {d : Call σ β} {g : β → Call σ δ}
  {R F : σ → σ → Prop} {m m' : σ}

/-! ### One call after another -/

theorem bind_of_ok {a : α} (h : c m = (.ok a, m')) : (c >>= f) m = f a m' := by
  simp only [bind, ExceptT.bind, ExceptT.mk, StateT.bind, h]
  rfl

theorem bind_of_error {e : CallError} (h : c m = (.error e, m')) :
    (c >>= f) m = (.error e, m') := by
  simp only [bind, ExceptT.bind, ExceptT.mk, StateT.bind, h]
  rfl

/-- Of a call that succeeds, both parts do. -/
theorem bind_eq_ok {b : γ} : (c >>= f) m = (.ok b, m') ↔
    ∃ a m₁, c m = (.ok a, m₁) ∧ f a m₁ = (.ok b, m') := by
  constructor
  · intro h
    rcases hc : c m with ⟨e | a, m₁⟩
    · cases (bind_of_error hc).symm.trans h
    · exact ⟨a, m₁, rfl, (bind_of_ok hc).symm.trans h⟩
  · rintro ⟨a, m₁, hc, hf⟩
    exact (bind_of_ok hc).trans hf

theorem ofUpdate_eq_ok {update : σ → Except CallError (α × σ)} {a : α} :
    ofUpdate update m = (.ok a, m') ↔ update m = .ok (a, m') := by
  unfold ofUpdate
  cases update m with
  | error e => exact iff_of_false (fun h => nomatch h) fun h => nomatch h
  | ok result =>
    constructor
    · rintro ⟨⟩
      rfl
    · rintro ⟨⟩
      rfl

/-- A check that succeeds is passed over. -/
theorem ofExcept_bind_of_ok {r : Except CallError α} {a : α} (h : r = .ok a) :
    (ofExcept r >>= f) = f a :=
  funext fun _ => bind_of_ok (h ▸ rfl)

theorem ofExcept_bind_of_error {r : Except CallError α} {e : CallError} (h : r = .error e) :
    (ofExcept r >>= f) = fun m => (.error e, m) :=
  funext fun _ => bind_of_error (h ▸ rfl)

/-! ### Two calls on states that look alike -/

/-- Two answers look alike: both are the same error, or values in a relation. -/
inductive AnswersAlike (Q : α → β → Prop) : Except CallError α → Except CallError β → Prop where
  | ok {a : α} {b : β} (h : Q a b) : AnswersAlike Q (.ok a) (.ok b)
  | error (e : CallError) : AnswersAlike Q (.error e) (.error e)

theorem AnswersAlike.eq {r r' : Except CallError α} (h : AnswersAlike (· = ·) r r') : r = r' := by
  cases h with
  | ok h => rw [h]
  | error e => rfl

theorem AnswersAlike.refl (r : Except CallError α) : AnswersAlike (· = ·) r r := by
  cases r with
  | ok a => exact .ok rfl
  | error e => exact .error e

/-- On states that look alike two calls give answers that look alike, and leave such states. -/
def Alike (R : σ → σ → Prop) (Q : α → β → Prop) (c : Call σ α) (d : Call σ β) : Prop :=
  ∀ m n, R m n → AnswersAlike Q (c m).1 (d n).1 ∧ R (c m).2 (d n).2

namespace Alike

variable {Q : α → β → Prop} {P : γ → δ → Prop}

theorem pure {a : α} {b : β} (h : Q a b) : Alike R Q (Pure.pure a) (Pure.pure b) :=
  fun _ _ hstates => ⟨.ok h, hstates⟩

theorem throw (e : CallError) :
    Alike R Q (MonadExcept.throw e : Call σ α) (MonadExcept.throw e : Call σ β) :=
  fun _ _ hstates => ⟨.error e, hstates⟩

theorem bind (hc : Alike R Q c d) (hf : ∀ a b, Q a b → Alike R P (f a) (g b)) :
    Alike R P (c >>= f) (d >>= g) := by
  intro m n h
  obtain ⟨hanswer, hstate⟩ := hc m n h
  rcases hm : c m with ⟨r, m'⟩
  rcases hn : d n with ⟨r', n'⟩
  rw [hm, hn] at hanswer hstate
  cases hanswer with
  | ok hab =>
    rw [bind_of_ok hm, bind_of_ok hn]
    exact hf _ _ hab m' n' hstate
  | error e =>
    rw [bind_of_error hm, bind_of_error hn]
    exact ⟨.error e, hstate⟩

/-- What comes after a check only counts if the check succeeds. -/
theorem check {r : Except CallError α} {f : α → Call σ γ} {g : α → Call σ δ}
    (h : ∀ a, r = .ok a → Alike R P (f a) (g a)) :
    Alike R P (ofExcept r >>= f) (ofExcept r >>= g) := by
  cases r with
  | ok a =>
    rw [ofExcept_bind_of_ok rfl, ofExcept_bind_of_ok rfl]
    exact h a rfl
  | error e =>
    rw [ofExcept_bind_of_error rfl, ofExcept_bind_of_error rfl]
    exact throw e

end Alike

/-! ### Allowed changes -/

/-- A call changes every state in an allowed way only. -/
def Stays (F : σ → σ → Prop) (c : Call σ α) : Prop :=
  ∀ m, F m (c m).2

namespace Stays

theorem const (hrefl : ∀ m, F m m) (r : Except CallError α) : Stays F (ofExcept r) :=
  fun m => hrefl m

theorem bind (htrans : ∀ {m₁ m₂ m₃}, F m₁ m₂ → F m₂ m₃ → F m₁ m₃) (hc : Stays F c)
    (hf : ∀ a, Stays F (f a)) : Stays F (c >>= f) := by
  intro m
  have hm' := hc m
  rcases hm : c m with ⟨r, m'⟩
  rw [hm] at hm'
  cases r with
  | ok a =>
    rw [bind_of_ok hm]
    exact htrans hm' (hf a m')
  | error e =>
    rw [bind_of_error hm]
    exact hm'

theorem check (hrefl : ∀ m, F m m) {r : Except CallError α} (hf : ∀ a, r = .ok a → Stays F (f a)) :
    Stays F (ofExcept r >>= f) := by
  cases r with
  | ok a => exact ofExcept_bind_of_ok rfl ▸ hf a rfl
  | error e => exact ofExcept_bind_of_error rfl ▸ const hrefl (.error e)

/-- An update changes the state only if it succeeds. -/
theorem ofUpdate (hrefl : ∀ m, F m m) {update : σ → Except CallError (α × σ)}
    (h : ∀ m r, update m = .ok r → F m r.2) : Stays F (ofUpdate update) := by
  intro m
  unfold Call.ofUpdate
  split
  · rename_i hm
    exact h m _ hm
  · exact hrefl m

end Stays

end Call

end Conveyor
