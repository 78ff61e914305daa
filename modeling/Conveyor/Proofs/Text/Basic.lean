import Conveyor.Decimal.Digits
import Conveyor.Text.Blank
import Conveyor.Text.Cut
import Mathlib.Data.List.Basic
import Mathlib.Data.List.TakeWhile

/-!
# Texts that are read back

Trimming leaves a text alone that has no blanks at its ends, a text is cut again where it was put
together, and a numeral is read as the number that it was written for.
-/

namespace Conveyor

/-! ### Trimming and cutting -/

namespace Text

variable {cs : List Char} {c : Char}

theorem trim_eq_self (hhead : ∀ c ∈ cs.head?, isBlank c = false)
    (hlast : ∀ c ∈ cs.getLast?, isBlank c = false) : trim cs = cs := by
  have hdrop {l : List Char} (h : ∀ c ∈ l.head?, isBlank c = false) : l.dropWhile isBlank = l := by
    cases l with
    | nil => rfl
    | cons c l => exact List.dropWhile_cons_of_neg (by simp [h c rfl])
  rw [trim, trimStart, hdrop hhead, trimEnd, hdrop fun c hc => hlast c (by simpa using hc),
    List.reverse_reverse]

/-- A text is what trimming leaves of it, followed by blanks. -/
theorem exists_trimEnd_append (cs : List Char) :
    ∃ blanks, (∀ c ∈ blanks, isBlank c) ∧ trimEnd cs ++ blanks = cs := by
  refine ⟨(cs.reverse.takeWhile isBlank).reverse, fun c hc => ?_, ?_⟩
  · exact List.mem_takeWhile_imp (List.mem_reverse.mp hc)
  · rw [trimEnd, ← List.reverse_append, List.takeWhile_append_dropWhile, List.reverse_reverse]

theorem trimEnd_append_blanks {blanks : List Char} (h : ∀ c ∈ blanks, isBlank c) :
    trimEnd (cs ++ blanks) = trimEnd cs := by
  rw [trimEnd, List.reverse_append, List.dropWhile_append_of_pos, trimEnd]
  exact fun c hc => h c (List.mem_reverse.mp hc)

theorem trim_append_blanks {blanks : List Char} (h : ∀ c ∈ blanks, isBlank c) :
    trim (cs ++ blanks) = trim cs := by
  have hnil : blanks.dropWhile isBlank = [] := List.dropWhile_eq_nil_iff.mpr h
  rw [trim, trim, trimStart, trimStart, List.dropWhile_append, hnil]
  split
  · rename_i hempty
    rw [List.isEmpty_iff.mp hempty]
  · exact trimEnd_append_blanks h

theorem trimEnd_trimEnd (cs : List Char) : trimEnd (trimEnd cs) = trimEnd cs := by
  obtain ⟨blanks, hblanks, heq⟩ := exists_trimEnd_append cs
  conv_rhs => rw [← heq, trimEnd_append_blanks hblanks]

theorem not_isBlank_of_getLast?_trimEnd (h : c ∈ (trimEnd cs).getLast?) : isBlank c = false := by
  rw [trimEnd, List.getLast?_reverse] at h
  have hhead := List.head?_dropWhile_not isBlank cs.reverse
  rw [h] at hhead
  simpa using hhead

/-- Nothing is trimmed before the last character that is no blank. -/
theorem trimEnd_append_cons (before : List Char) (hc : isBlank c = false) (after : List Char) :
    trimEnd (before ++ c :: after) = before ++ c :: trimEnd after := by
  have hstop : (c :: before.reverse).dropWhile isBlank = c :: before.reverse :=
    List.dropWhile_cons_of_neg (by simp [hc])
  have hreverse : (before ++ c :: after).reverse = after.reverse ++ c :: before.reverse := by simp
  rw [trimEnd, hreverse, List.dropWhile_append, hstop, trimEnd]
  split
  · rename_i hempty
    rw [List.isEmpty_iff.mp hempty]
    simp
  · simp

theorem trim_cons (hc : isBlank c = false) (after : List Char) :
    trim (c :: after) = c :: trimEnd after := by
  rw [trim, trimStart, List.dropWhile_cons_of_neg (by simp [hc])]
  exact trimEnd_append_cons [] hc after

theorem trim_blank_cons (hc : isBlank c) (after : List Char) : trim (c :: after) = trim after := by
  rw [trim, trimStart, List.dropWhile_cons_of_pos hc, trim, trimStart]

/-- Trimming adds nothing. -/
theorem trim_subset : trim cs ⊆ cs := by
  intro c hc
  have hstart : c ∈ trimStart cs := by
    obtain ⟨blanks, -, heq⟩ := exists_trimEnd_append (trimStart cs)
    exact heq ▸ List.mem_append_left blanks hc
  exact (List.dropWhile_suffix isBlank).subset hstart

theorem takeWhile_ne_append (h : c ∉ cs) (after : List Char) :
    (cs ++ c :: after).takeWhile (· != c) = cs := by
  have hbefore : ∀ d ∈ cs, (d != c) = true := fun d hd => bne_iff_ne.mpr fun heq => h (heq ▸ hd)
  rw [List.takeWhile_append_of_pos hbefore, List.takeWhile_cons_of_neg (by simp), List.append_nil]

theorem dropWhile_ne_append (h : c ∉ cs) (after : List Char) :
    (cs ++ c :: after).dropWhile (· != c) = c :: after := by
  have hbefore : ∀ d ∈ cs, (d != c) = true := fun d hd => bne_iff_ne.mpr fun heq => h (heq ▸ hd)
  rw [List.dropWhile_append_of_pos hbefore, List.dropWhile_cons_of_neg (by simp)]

/-- A text is cut off within the part of it in which the character stands. -/
theorem takeWhile_ne_append_of_mem (h : c ∈ cs) (after : List Char) :
    (cs ++ after).takeWhile (· != c) = cs.takeWhile (· != c) := by
  rw [List.takeWhile_append, if_neg]
  intro hlength
  have heq := (List.takeWhile_prefix (· != c)).eq_of_length hlength
  have hne := List.takeWhile_eq_self_iff.mp heq c h
  simp at hne

theorem afterStart?_append {α : Type} [BEq α] [LawfulBEq α] (start text : List α) :
    afterStart? start (start ++ text) = some text := by
  induction start with
  | nil => rfl
  | cons a start ih => simpa [afterStart?] using ih

theorem eq_append_of_afterStart? {α : Type} [BEq α] [LawfulBEq α] {start text rest : List α}
    (h : afterStart? start text = some rest) : text = start ++ rest := by
  induction start generalizing text with
  | nil => simpa [afterStart?] using h
  | cons a start ih =>
    cases text with
    | nil => cases h
    | cons b text =>
      rw [afterStart?] at h
      split at h
      · rename_i hab
        rw [ih h, eq_of_beq hab, List.cons_append]
      · cases h

theorem beforeEnd?_append {α : Type} [BEq α] [LawfulBEq α] (tail text : List α) :
    beforeEnd? tail (text ++ tail) = some text := by
  simp [beforeEnd?, afterStart?_append]

theorem eq_append_of_beforeEnd? {α : Type} [BEq α] [LawfulBEq α] {tail text start : List α}
    (h : beforeEnd? tail text = some start) : text = start ++ tail := by
  obtain ⟨rest, hrest, rfl⟩ := Option.map_eq_some_iff.mp h
  have hreverse := congrArg List.reverse (eq_append_of_afterStart? hrest)
  simpa using hreverse

end Text

/-! ### Numerals -/

namespace Decimal

variable {cs : List Char} {c : Char}

theorem isDigit_iff : c.isDigit ↔ 48 ≤ c.toNat ∧ c.toNat ≤ 57 := by
  simp [Char.isDigit, UInt32.le_iff_toNat_le]

theorem digitValue?_of_isDigit (h : c.isDigit) :
    digitValue? 10 c = some (c.toNat - '0'.toNat) := by
  have hrange : '0'.toNat ≤ c.toNat ∧ c.toNat ≤ '9'.toNat := isDigit_iff.mp h
  have hlt : c.toNat - '0'.toNat < 10 := by
    have h9 : '9'.toNat = '0'.toNat + 9 := rfl
    omega
  simp only [digitValue?, if_pos hrange, if_pos hlt]

theorem readDigits?_eq (h : ∀ c ∈ cs, c.isDigit) (value : Nat) :
    readDigits? 10 value cs = some (Nat.ofDigitChars 10 cs value) := by
  induction cs generalizing value with
  | nil => rfl
  | cons c cs ih =>
    rw [readDigits?, digitValue?_of_isDigit (h c List.mem_cons_self), Nat.ofDigitChars_cons,
      Nat.mul_comm]
    exact ih (fun d hd => h d (List.mem_cons_of_mem c hd)) _

theorem isDigit_of_mem_digits {n : Nat} (h : c ∈ digits n) : c.isDigit :=
  Nat.isDigit_of_mem_toDigits (by decide) (by decide) h

theorem digits_ne_nil (n : Nat) : digits n ≠ [] :=
  Nat.toDigits_ne_nil

/-- A numeral is no sign, quote or bracket, and no blank. -/
theorem exists_digits_eq (n : Nat) : ∃ d ds, digits n = d :: ds ∧ d.isDigit := by
  obtain ⟨d, ds, h⟩ := List.exists_cons_of_ne_nil (digits_ne_nil n)
  exact ⟨d, ds, h, isDigit_of_mem_digits (h ▸ List.mem_cons_self)⟩

theorem readWord?_digits (i : UInt64) : readWord? (digits i.toNat) = some i := by
  obtain ⟨d, ds, hd, hdigit⟩ := exists_digits_eq i.toNat
  have hread : read? 10 (digits i.toNat) = some i.toNat := by
    have hvalue : Nat.ofDigitChars 10 (digits i.toNat) 0 = i.toNat :=
      Nat.ofDigitChars_toDigits (by decide) (by decide)
    rw [← hvalue, ← readDigits?_eq fun c hc => isDigit_of_mem_digits hc, hvalue, hd]
    rfl
  have hplus : d ≠ '+' := by
    rintro rfl
    exact absurd hdigit (by decide)
  have hbelow : readBelow? 0x10000000000000000 10 (digits i.toNat) = some i.toNat := by
    have hunsigned : readBelow? 0x10000000000000000 10 (digits i.toNat) =
        (read? 10 (digits i.toNat)).filter (· < 0x10000000000000000) := by
      unfold readBelow?
      split
      · rename_i heq
        exact absurd (List.cons.inj (hd.symm.trans heq)).1 hplus
      · rfl
    rw [hunsigned, hread, Option.filter_some, if_pos (by simpa using i.toNat_lt)]
  rw [readWord?, hbelow, Option.map_some]
  simp

theorem trim_digits (n : Nat) : Text.trim (digits n) = digits n := by
  have hblank {c : Char} (h : c ∈ digits n) : Text.isBlank c = false := by
    obtain ⟨hlower, hupper⟩ := isDigit_iff.mp (isDigit_of_mem_digits h)
    simp only [Text.isBlank, Bool.or_eq_false_iff, Bool.and_eq_false_iff, decide_eq_false_iff_not,
      beq_eq_false_iff_ne]
    omega
  exact Text.trim_eq_self (fun c hc => hblank (List.mem_of_mem_head? hc))
    fun c hc => hblank (List.mem_of_mem_getLast? hc)

end Decimal

end Conveyor
