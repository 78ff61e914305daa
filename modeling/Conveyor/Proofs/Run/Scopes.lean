import Conveyor.Proofs.Text.Basic
import Conveyor.Run.Steps
import Mathlib.Data.List.Infix

/-!
# Scopes

The names in the timeline that belong to a branch go on from the name of the branch, its scope
(`Covers`). The scopes of the branches of a map do not go on from each other, whatever the steps are
called, since a number ends with its bracket (`apart_branchId`); so what happens in one of them is
not taken for what happens in another one.
-/

namespace Conveyor

/-! ### Names that go on from scopes -/

/-- A scope covers itself, and the names that go on from it. -/
def Covers (scope id : String) : Prop :=
  scope.toList <+: id.toList

/-- Neither of two scopes covers the other. -/
def Apart (scope scope' : String) : Prop :=
  ¬ Covers scope scope' ∧ ¬ Covers scope' scope

variable {scope scope' id id' name : String} {item item' : Nat} {opened : List String}

theorem Covers.refl : Covers id id :=
  List.prefix_rfl

theorem Covers.trans (h : Covers scope scope') (h' : Covers scope' id) : Covers scope id :=
  List.IsPrefix.trans h h'

theorem Covers.length_le (h : Covers scope id) : scope.toList.length ≤ id.toList.length :=
  List.IsPrefix.length_le h

theorem Apart.symm (h : Apart scope scope') : Apart scope' scope :=
  ⟨h.2, h.1⟩

/-- Scopes that are apart cover no name together. -/
theorem Apart.not_covers (h : Apart scope scope') (hid : Covers scope id) : ¬ Covers scope' id :=
  fun hid' => (List.prefix_or_prefix_of_prefix hid hid').elim h.1 h.2

theorem Apart.of_covers (h : Apart scope scope') (hid : Covers scope id)
    (hid' : Covers scope' id') : Apart id id' :=
  ⟨fun hcovers => h.not_covers (hid.trans hcovers) hid',
    fun hcovers => h.not_covers hid (hid'.trans hcovers)⟩

theorem branchId_toList :
    (branchId id item).toList = id.toList ++ '[' :: (Decimal.digits item ++ [']']) := by
  simp [branchId, Decimal.text]

theorem covers_branchId : Covers id (branchId id item) := by
  unfold Covers
  rw [branchId_toList]
  exact List.prefix_append _ _

theorem length_branchId : id.toList.length < (branchId id item).toList.length := by
  rw [branchId_toList]
  simp

theorem inner_toList : (scope ++ "/" ++ name).toList = scope.toList ++ '/' :: name.toList := by
  simp

theorem covers_inner : Covers scope (scope ++ "/" ++ name) := by
  unfold Covers
  rw [inner_toList]
  exact List.prefix_append _ _

theorem length_inner : scope.toList.length < (scope ++ "/" ++ name).toList.length := by
  rw [inner_toList]
  simp

/-- The branches of a map cover no names together. -/
theorem apart_branchId (hne : item ≠ item') : Apart (branchId id item) (branchId id item') := by
  have hdigits {n n' : Nat} (h : Covers (branchId id n) (branchId id n')) : n = n' := by
    unfold Covers at h
    rw [branchId_toList, branchId_toList, List.prefix_append_right_inj, List.cons_prefix_cons] at h
    -- the digits of a number are what comes before the first bracket
    have htake {rest : List Char} {n : Nat} :
        (Decimal.digits n ++ ']' :: rest).takeWhile Char.isDigit = Decimal.digits n := by
      rw [List.takeWhile_append_of_pos fun c hc => Decimal.isDigit_of_mem_digits hc]
      simp
    have hvalue (n : Nat) : Nat.ofDigitChars 10 (Decimal.digits n) 0 = n :=
      Nat.ofDigitChars_toDigits (by decide) (by decide)
    obtain ⟨rest, hrest⟩ := h.2
    have heq := congrArg (List.takeWhile Char.isDigit) hrest
    rw [List.append_assoc, List.singleton_append, htake, htake] at heq
    rw [← hvalue n, heq, hvalue]
  exact ⟨fun h => hne (hdigits h), fun h => hne (hdigits h).symm⟩

theorem branchId_ne_empty : (branchId id item).isEmpty = false := by
  have hlength : id.toList.length < (branchId id item).toList.length := length_branchId
  rw [String.isEmpty_eq_false_iff]
  rintro hempty
  simp [hempty] at hlength

theorem scopedId_branchId :
    scopedId (branchId id item) name = branchId id item ++ "/" ++ name := by
  rw [scopedId, branchId_ne_empty]
  rfl

/-! ### Open steps of a scope -/

/-- A step of the pipeline at the top may be opened under the name `scope` if no other is open. -/
def OpensAlone (scope : String) (opened : List String) (id : String) : Prop :=
  opened = [] ∧ id = scope

/-- A branch may be opened under the name `scope`, and inside it one step at a time. -/
def OpensInside (scope : String) (opened : List String) (id : String) : Prop :=
  opened = [] ∧ id = scope ∨ opened = [scope] ∧ ∃ name, id = scope ++ "/" ++ name

/-- Open steps that have been opened one after another, the last one first. -/
inductive Grown (may : List String → String → Prop) : List String → Prop
  | nil : Grown may []
  | cons {id : String} {opened : List String} (h : may opened id) (hopened : Grown may opened) :
    Grown may (id :: opened)

theorem OpensAlone.inside (h : OpensAlone scope opened id) : OpensInside scope opened id :=
  .inl h

theorem OpensInside.covers (h : OpensInside scope opened id) : Covers scope id := by
  rcases h with ⟨-, rfl⟩ | ⟨-, name, rfl⟩
  · exact .refl
  · exact covers_inner

theorem OpensInside.notMem (h : OpensInside scope opened id) : id ∉ opened := by
  rcases h with ⟨rfl, -⟩ | ⟨rfl, name, rfl⟩
  · exact List.not_mem_nil
  · intro hmem
    have hlength : scope.toList.length < (scope ++ "/" ++ name).toList.length := length_inner
    rw [List.mem_singleton.mp hmem] at hlength
    exact hlength.false

namespace Grown

variable {may may' : List String → String → Prop}

theorem mono (h : ∀ opened id, may opened id → may' opened id) (hg : Grown may opened) :
    Grown may' opened := by
  induction hg with
  | nil => exact .nil
  | cons hid _ ih => exact .cons (h _ _ hid) ih

theorem tail (h : Grown may (id :: opened)) : Grown may opened := by
  cases h with
  | cons _ hopened => exact hopened

/-- In a branch, nothing is open, or the branch, or a step of it too. -/
theorem inside_cases (h : Grown (OpensInside scope) opened) :
    opened = [] ∨ opened = [scope] ∨ ∃ name, opened = [scope ++ "/" ++ name, scope] := by
  cases h with
  | nil => exact .inl rfl
  | cons hid hopened =>
    rcases hid with ⟨rfl, rfl⟩ | ⟨rfl, name, rfl⟩
    · exact .inr (.inl rfl)
    · exact .inr (.inr ⟨name, rfl⟩)

theorem alone_eq (h : Grown (OpensAlone scope) (id :: opened)) : id = scope := by
  cases h with
  | cons hid => exact hid.2

/-- The scope covers what is open, and what is open covers the step that was opened last. -/
theorem covers (h : Grown (OpensInside scope) (id :: opened)) (hid' : id' ∈ id :: opened) :
    Covers scope id' ∧ Covers id' id := by
  rcases h.inside_cases with h | h | ⟨name, h⟩
  · cases h
  · obtain ⟨rfl, rfl⟩ := List.cons.inj h
    obtain rfl := List.mem_singleton.mp hid'
    exact ⟨.refl, .refl⟩
  · obtain ⟨rfl, rfl⟩ := List.cons.inj h
    rcases List.mem_cons.mp hid' with rfl | hid'
    · exact ⟨covers_inner, .refl⟩
    · obtain rfl := List.mem_singleton.mp hid'
      exact ⟨.refl, covers_inner⟩

end Grown

end Conveyor
