import Conveyor.Proofs.Path.ReadBack
import Conveyor.Proofs.Result
import Conveyor.Template

/-!
# Templates that are read back

The parts of a template that has been read alternate: no literal part is empty, and none follows
another one (`Template.Normal`). A template is read back from its text, in which a brace of a
literal part is written twice, if and only if its parts are such parts, its paths are read back and
none of them has a key with a closing brace in it, at which the reference would end
(`Template.parse_text_iff_normal_and_references`).
-/

namespace Conveyor

namespace Template

variable {input : String} {acc cs rest : List Char} {parts : List TemplatePart} {p : Path}

/-! ### Normal parts -/

/-- Whether a part is a literal one. -/
def IsLiteral : TemplatePart → Prop
  | .literal _ => True
  | .ref _ => False

/-- No literal part is empty, and none follows another one. -/
def Normal : List TemplatePart → Prop
  | [] => True
  | .ref _ :: parts => Normal parts
  | .literal text :: parts => text ≠ "" ∧ (∀ part ∈ parts.head?, ¬IsLiteral part) ∧ Normal parts

theorem normal_literalPart_append (hparts : Normal parts)
    (hhead : ∀ part ∈ parts.head?, ¬IsLiteral part) : Normal (literalPart acc ++ parts) := by
  cases acc with
  | nil => exact hparts
  | cons c acc =>
    refine ⟨fun h => ?_, hhead, hparts⟩
    have hlist := congrArg String.toList h
    simp at hlist

/-- What is read is normal. -/
theorem normal_of_parseParts (h : parseParts input acc cs = .ok parts) : Normal parts := by
  fun_induction parseParts input acc cs generalizing parts with
  | case1 acc =>
    obtain rfl := Except.ok.inj h
    have hlast : Normal (literalPart acc ++ []) := normal_literalPart_append trivial nofun
    rwa [List.append_nil] at hlast
  | case2 acc rest ih | case3 acc rest ih | case7 acc c rest _ _ _ _ ih => exact ih h
  | case4 | case6 => cases h
  | case5 acc rest _ _ rest' _ ih =>
    obtain ⟨p, -, hrest⟩ := Except.bind_eq_ok.mp h
    obtain ⟨parts', hparts', hparts⟩ := Except.bind_eq_ok.mp hrest
    obtain rfl := Except.ok.inj hparts
    have hnormal : Normal parts' := ih hparts'
    refine normal_literalPart_append hnormal fun part hpart => ?_
    obtain rfl := Option.some.inj hpart
    exact not_false

theorem normal_of_parse {text : String} {t : Template} (h : parse text = .ok t) :
    Normal t.parts := by
  obtain ⟨parts, hparts, rfl⟩ := Except.map_eq_ok.mp h
  exact normal_of_parseParts hparts

/-! ### Reading -/

/-- A literal part is read character by character. -/
theorem parseParts_literal (text : List Char) :
    parseParts input acc (text.flatMap doubleBrace ++ rest) =
      parseParts input (text.reverse ++ acc) rest := by
  induction text generalizing acc with
  | nil => rfl
  | cons c text ih =>
    have hstep : parseParts input acc (doubleBrace c ++ (text.flatMap doubleBrace ++ rest)) =
        parseParts input (c :: acc) (text.flatMap doubleBrace ++ rest) := by
      by_cases hopen : c = '{'
      · subst hopen
        exact parseParts.eq_2 _ _ _
      · by_cases hclose : c = '}'
        · subst hclose
          exact parseParts.eq_3 _ _ _
        · rw [doubleBrace, if_neg (not_or.mpr ⟨hopen, hclose⟩), List.singleton_append,
            parseParts] <;> intros <;> contradiction
    rw [List.flatMap_cons, List.append_assoc, hstep, ih, List.reverse_cons, List.append_assoc,
      List.singleton_append]

/-- A reference is read up to the next closing brace. -/
theorem parseParts_open (hhead : rest.head? ≠ some '{') (hbrace : '}' ∈ rest) :
    parseParts input acc ('{' :: rest) = do
      let p ← Path.parse (String.ofList (rest.takeWhile (· != '}')))
      let parts ← parseParts input [] (rest.dropWhile (· != '}')).tail
      return literalPart acc ++ .ref p :: parts := by
  rw [parseParts]
  · split
    · rename_i hnil
      have hnone := List.dropWhile_eq_nil_iff.mp hnil '}' hbrace
      simp at hnone
    · rename_i c rest' hcons
      rw [hcons, List.tail_cons]
  · rintro rest' rfl
    exact hhead rfl

theorem partChars_ref_append : partChars (.ref p) ++ rest = '{' :: (p.chars ++ '}' :: rest) := by
  simp [partChars]

/-- The reference to a path without a closing brace is read from the text of the path. -/
theorem parseParts_ref (hbrace : '}' ∉ p.chars) :
    parseParts input acc (partChars (.ref p) ++ rest) = do
      let q ← Path.parse p.text
      let parts ← parseParts input [] rest
      return literalPart acc ++ .ref q :: parts := by
  -- the text of a path begins with a dollar sign, and not with another brace
  rw [partChars_ref_append, parseParts_open (by simp [Path.chars]) (by simp),
    Text.takeWhile_ne_append hbrace, Text.dropWhile_ne_append hbrace, List.tail_cons, Path.text]

/-- A text that is cut off before a closing brace is not read as a path with the brace in a key. -/
theorem parse_cut_ne (hbrace : '}' ∈ p.chars) :
    Path.parse (String.ofList (p.chars.takeWhile (· != '}'))) ≠ .ok p := by
  intro h
  obtain ⟨name, hname, hkey⟩ : ∃ name, .key name ∈ p.segments ∧ '}' ∈ name.toList := by
    simpa using mt Path.not_mem_chars_brace_iff.mpr (not_not.mpr hbrace)
  have hmem : '}' ∈ p.chars.takeWhile (· != '}') :=
    Path.mem_of_parseChars (Path.parse_ofList_eq_ok.mp h) hname hkey
  have hne := List.mem_takeWhile_imp hmem
  simp at hne

/-- A reference is read back together with what follows if and only if both are read back. -/
theorem parseParts_ref_iff :
    parseParts input acc (partChars (.ref p) ++ rest) = .ok (literalPart acc ++ .ref p :: parts) ↔
      (Path.parse p.text = .ok p ∧ '}' ∉ p.chars) ∧ parseParts input [] rest = .ok parts := by
  by_cases hbrace : '}' ∈ p.chars
  · refine ⟨fun h => absurd ?_ (parse_cut_ne hbrace), fun h => absurd hbrace h.1.2⟩
    rw [partChars_ref_append, parseParts_open (by simp [Path.chars]) (by simp),
      Text.takeWhile_ne_append_of_mem hbrace] at h
    obtain ⟨q, hq, hrest⟩ := Except.bind_eq_ok.mp h
    obtain ⟨parts', -, hok⟩ := Except.bind_eq_ok.mp hrest
    obtain ⟨hpart, -⟩ := List.cons.inj (List.append_cancel_left (Except.ok.inj hok))
    obtain rfl := TemplatePart.ref.inj hpart
    exact hq
  · rw [parseParts_ref hbrace]
    simp only [Except.bind_eq_ok]
    constructor
    · rintro ⟨q, hq, parts', hparts', hok⟩
      obtain ⟨hpart, rfl⟩ := List.cons.inj (List.append_cancel_left (Except.ok.inj hok))
      obtain rfl := TemplatePart.ref.inj hpart
      exact ⟨⟨hq, hbrace⟩, hparts'⟩
    · rintro ⟨⟨hp, -⟩, hparts⟩
      exact ⟨p, hp, parts, hparts, rfl⟩

/-- Normal parts are read back if and only if the paths are that they refer to. -/
theorem parseParts_chars_iff (hparts : Normal parts)
    (hacc : acc = [] ∨ ∀ part ∈ parts.head?, ¬IsLiteral part) :
    parseParts input acc (parts.flatMap partChars) = .ok (literalPart acc ++ parts) ↔
      ∀ p, .ref p ∈ parts → Path.parse p.text = .ok p ∧ '}' ∉ p.chars := by
  induction parts generalizing acc with
  | nil =>
    rw [List.flatMap_nil, parseParts, List.append_nil]
    exact ⟨fun _ p hp => absurd hp List.not_mem_nil, fun _ => rfl⟩
  | cons part parts ih =>
    rw [List.flatMap_cons]
    cases part with
    | ref p =>
      have hrest := @ih [] hparts (.inl rfl)
      rw [parseParts_ref_iff]
      refine (and_congr_right' hrest).trans ⟨fun h q hq => ?_, fun h => ?_⟩
      · rcases List.mem_cons.mp hq with heq | hq
        · exact TemplatePart.ref.inj heq ▸ h.1
        · exact h.2 q hq
      · exact ⟨h p List.mem_cons_self, fun q hq => h q (List.mem_cons_of_mem _ hq)⟩
    | literal text =>
      -- the literal part is read into what is held for it, and ends before a reference
      obtain ⟨hne, hhead, hparts⟩ := hparts
      obtain rfl : acc = [] := hacc.resolve_right fun h => h _ rfl trivial
      have hempty : text.toList.reverse.isEmpty = false := by simpa using hne
      have hliteral : literalPart [] ++ .literal text :: parts =
          literalPart text.toList.reverse ++ parts := by
        simp [literalPart, hempty]
      rw [hliteral, partChars, parseParts_literal, List.append_nil, ih hparts (.inr hhead)]
      exact forall_congr' fun p => by simp

theorem mem_references {t : Template} : p ∈ t.references ↔ .ref p ∈ t.parts := by
  refine List.mem_filterMap.trans ⟨fun ⟨part, hpart, hp⟩ => ?_, fun h => ⟨.ref p, h, rfl⟩⟩
  cases part with
  | literal => cases hp
  | ref q => exact Option.some.inj hp ▸ hpart

/-- A normal template is read back from its text if and only if its paths are from theirs, and none
of them has a closing brace in it. -/
theorem parse_text_iff {t : Template} (ht : Normal t.parts) :
    parse t.text = .ok t ↔
      ∀ p ∈ t.references, Path.parse p.text = .ok p ∧ '}' ∉ p.chars := by
  have hparts : parseParts t.text [] (t.parts.flatMap partChars) = .ok t.parts ↔
      ∀ p, .ref p ∈ t.parts → Path.parse p.text = .ok p ∧ '}' ∉ p.chars :=
    parseParts_chars_iff ht (.inl rfl)
  have hmk : Function.Injective Template.mk := fun _ _ => Template.mk.inj
  simp only [mem_references]
  rw [← hparts, parse, text, String.toList_ofList]
  exact Except.map_eq_ok_iff hmk

/-- **Which templates are read back.** A template, of whatever parts, is read back from its text if
and only if no literal part is empty or follows another one, and each path that it refers to is read
back from its own text and has no key with a closing brace in it. What the literal parts are made of
does not matter. -/
theorem parse_text_iff_normal_and_references (t : Template) :
    parse t.text = .ok t ↔ Normal t.parts ∧ ∀ p ∈ t.references,
      Path.parse p.text = .ok p ∧ ∀ name, .key name ∈ p.segments → '}' ∉ name.toList := by
  simp only [← Path.not_mem_chars_brace_iff]
  constructor
  · intro h
    have hnormal : Normal t.parts := normal_of_parse h
    exact ⟨hnormal, (parse_text_iff hnormal).mp h⟩
  · rintro ⟨hnormal, hpaths⟩
    exact (parse_text_iff hnormal).mpr hpaths

end Template

end Conveyor
