import Conveyor.Proofs.Expression.Call

/-!
# Expressions that are read back

An expression that has been read is read back from its text if its paths are legible and their keys
do not get in the way of the form in which it is written (`Expression.Legible`): a closing brace
would end a reference of a template, and a quote that follows a backslash would end the key for the
splitting of the arguments of a call. If there are no backslashes in keys, these are the only
obstacles (`Expression.parse_text_iff_of_no_backslash`).
-/

namespace Conveyor

namespace Expression

open Template (Normal)

variable {e : Expression} {t : Template} {p : Path} {text : String} {cs : List Char}

/-- What makes sure that an expression is read back from its text. -/
structure Legible (e : Expression) : Prop where
  paths : ∀ p ∈ e.references, p.Legible
  keys : ∀ t, e = .format t → ∀ p ∈ t.references,
    if isShortForm t.chars then ∀ name, .key name ∈ p.segments → '}' ∉ name.toList else p.Separable

/-! ### Forms -/

theorem startsWith_append (start : String) (rest : List Char) :
    startsWith start (start.toList ++ rest) :=
  List.isPrefixOf_iff_prefix.mpr (List.prefix_append _ _)

/-- Only a text that begins with the name of a function is a call. -/
theorem callArgument?_eq_none {name : String} (h : startsWith name cs = false) :
    callArgument? name cs = none := by
  cases hafter : Text.afterStart? name.toList cs with
  | none =>
    simp only [callArgument?, hafter]
    rfl
  | some rest =>
    rw [Text.eq_append_of_afterStart? hafter, startsWith_append] at h
    cases h

theorem startsWith_of_functionStart {name : String} {rest : List Char}
    (hname : name.toList = functionStart.toList ++ rest) (h : startsWith functionStart cs = false) :
    startsWith name cs = false := by
  rw [startsWith, Bool.eq_false_iff, ne_eq, List.isPrefixOf_iff_prefix] at h ⊢
  exact fun hprefix => h ((hname ▸ List.prefix_append _ _).trans hprefix)

/-! ### Reading -/

theorem normal_of_parse (h : parse text = .ok (.format t)) : Normal t.parts := by
  unfold parse at h
  dsimp only at h
  split at h
  · obtain ⟨p, -, hp⟩ := Except.map_eq_ok.mp h
    cases hp
  · split at h
    · obtain ⟨t', ht', heq⟩ := Except.map_eq_ok.mp h
      obtain rfl := Expression.format.inj heq
      exact normal_of_parseFormat ht'
    · split at h
      · obtain ⟨p, -, hp⟩ := Except.map_eq_ok.mp h
        cases hp
      · split at h
        · obtain ⟨p, -, hp⟩ := Except.map_eq_ok.mp h
          cases hp
        · split at h
          · cases h
          · obtain ⟨t', ht', heq⟩ := Except.map_eq_ok.mp h
            obtain rfl := Expression.format.inj heq
            exact Template.normal_of_parse ht'

theorem parse_path_iff (hkeys : Path.KeysClose p.segments) :
    parse (path p).text = .ok (.path p) ↔ p.EndsFirmly := by
  have hstart : startsWith "$" (Text.trim p.chars) = true := by
    rw [Path.trim_chars]
    exact startsWith_append "$" _
  have hparse : parse (path p).text =
      (Path.parse (String.ofList (Text.trim p.chars))).map .path := by
    simp only [parse, text, String.toList_ofList, chars, hstart, if_true]
  rw [hparse, Except.map_eq_ok_iff fun _ _ => path.inj, Path.parse_trim_chars_iff hkeys]

/-- When a template in its short form is read back. -/
theorem parse_shortForm_iff (ht : Normal t.parts) (hshort : isShortForm t.chars)
    (hkeys : ∀ p ∈ t.references, Path.KeysClose p.segments) :
    parse t.text = .ok (.format t) ↔ ∀ p ∈ t.references, p.EndsFirmly ∧ '}' ∉ p.chars := by
  simp only [isShortForm, Bool.and_eq_true, beq_iff_eq, Bool.not_eq_true'] at hshort
  obtain ⟨⟨htrim, hdollar⟩, hfunction⟩ := hshort
  have hcs : Text.trim t.text.toList = t.chars := by
    rw [Template.text, String.toList_ofList, htrim]
  -- a text in the short form does not begin as a call of any function
  have hcall (name : String) (rest : List Char)
      (hname : name.toList = functionStart.toList ++ rest) : callArgument? name t.chars = none :=
    callArgument?_eq_none (startsWith_of_functionStart hname hfunction)
  have hparse : parse t.text = (Template.parse t.text).map .format := by
    simp only [parse, hcs, hdollar, hfunction, hcall formatName "Format".toList rfl,
      hcall stringToJsonName "StringToJson".toList rfl,
      hcall jsonToStringName "JsonToString".toList rfl]
    rfl
  rw [hparse, Except.map_eq_ok_iff fun _ _ => format.inj, Template.parse_text_iff ht]
  exact forall₂_congr fun p hp => and_congr_left' (Path.parse_chars_iff (hkeys p hp))

/-- A call has no blanks at its ends. -/
theorem trim_call {name : String} {c : Char} {cs : List Char} (hname : name.toList = c :: cs)
    (hc : Text.isBlank c = false) (inside : List Char) :
    Text.trim (name.toList ++ '(' :: (inside ++ [')'])) =
      name.toList ++ '(' :: (inside ++ [')']) := by
  refine Text.trim_eq_self (fun d hd => ?_) fun d hd => ?_
  · rw [hname] at hd
    exact Option.some.inj hd ▸ hc
  · rw [← List.cons_append, ← List.append_assoc, List.getLast?_append] at hd
    obtain rfl : ')' = d := Option.some.inj hd
    decide

/-- When a template in the form of a call is read back, whether it is written in that form or
not. -/
theorem parse_formatCall_iff (ht : Normal t.parts)
    (hpaths : ∀ p ∈ t.references, Path.KeysClose p.segments ∧ p.Separable) :
    parse (String.ofList (formatCallChars t)) = .ok (.format t) ↔
      ∀ p ∈ t.references, p.EndsFirmly := by
  obtain ⟨inside, hinside⟩ : ∃ inside, inside = '\'' :: (t.parts.flatMap formatPartChars ++ '\'' ::
    t.references.flatMap fun q => [',', ' '] ++ q.chars) := ⟨_, rfl⟩
  have hchars : formatCallChars t = formatName.toList ++ '(' :: (inside ++ [')']) := by
    rw [formatCallChars, hinside]
    simp
  have hcs : Text.trim (String.ofList (formatCallChars t)).toList =
      formatName.toList ++ '(' :: (inside ++ [')']) := by
    rw [String.toList_ofList, hchars, trim_call rfl (by decide)]
  -- the argument begins with a quote, and blanks are trimmed after the last path only
  have htrim : Text.trim inside = '\'' :: (t.parts.flatMap formatPartChars ++ '\'' ::
      Text.trimEnd (t.references.flatMap fun q => [',', ' '] ++ q.chars)) := by
    rw [hinside, Text.trim_cons (by decide), Text.trimEnd_append_cons _ (by decide)]
  have hdollar : startsWith "$" (formatName.toList ++ '(' :: (inside ++ [')'])) = false := rfl
  simp only [parse, hcs, hdollar, callArgument?_call, htrim]
  rw [if_neg Bool.false_ne_true, Except.map_eq_ok_iff fun _ _ => format.inj,
    parseFormat_template_iff ht hpaths]

theorem callChars_eq (name : String) (p : Path) :
    callChars name p = name.toList ++ '(' :: (p.chars ++ [')']) := by
  simp [callChars]

theorem callArgument?_callChars (name : String) (p : Path) :
    callArgument? name (callChars name p) = some (Text.trim p.chars) := by
  rw [callChars_eq, callArgument?_call]

theorem parse_stringToJson_iff (hkeys : Path.KeysClose p.segments) :
    parse (stringToJson p).text = .ok (.stringToJson p) ↔ p.EndsFirmly := by
  have hcs : Text.trim (stringToJson p).text.toList = callChars stringToJsonName p := by
    rw [text, String.toList_ofList, chars, callChars_eq, trim_call rfl (by decide)]
  have hdollar : startsWith "$" (callChars stringToJsonName p) = false := rfl
  have hformat : callArgument? formatName (callChars stringToJsonName p) = none := rfl
  simp only [parse, hcs, hdollar, hformat, callArgument?_callChars]
  rw [if_neg Bool.false_ne_true, Except.map_eq_ok_iff fun _ _ => stringToJson.inj,
    Path.parse_trim_chars_iff hkeys]

theorem parse_jsonToString_iff (hkeys : Path.KeysClose p.segments) :
    parse (jsonToString p).text = .ok (.jsonToString p) ↔ p.EndsFirmly := by
  have hcs : Text.trim (jsonToString p).text.toList = callChars jsonToStringName p := by
    rw [text, String.toList_ofList, chars, callChars_eq, trim_call rfl (by decide)]
  have hdollar : startsWith "$" (callChars jsonToStringName p) = false := rfl
  have hformat : callArgument? formatName (callChars jsonToStringName p) = none := rfl
  have hstringToJson : callArgument? stringToJsonName (callChars jsonToStringName p) = none := rfl
  simp only [parse, hcs, hdollar, hformat, hstringToJson, callArgument?_callChars]
  rw [if_neg Bool.false_ne_true, Except.map_eq_ok_iff fun _ _ => jsonToString.inj,
    Path.parse_trim_chars_iff hkeys]

/-! ### When expressions are read back -/

/-- When a template is read back in the form in which it is written. -/
theorem parse_format_iff (ht : Normal t.parts)
    (hkeys : ∀ p ∈ t.references, Path.KeysClose p.segments)
    (hquotes : isShortForm t.chars = false → ∀ p ∈ t.references, p.Separable) :
    parse (format t).text = .ok (.format t) ↔ (∀ p ∈ t.references, p.EndsFirmly) ∧
      (isShortForm t.chars → ∀ p ∈ t.references, ∀ name, .key name ∈ p.segments →
        '}' ∉ name.toList) := by
  cases hshort : isShortForm t.chars with
  | true =>
    have htext : text (format t) = t.text := congrArg String.ofList (if_pos hshort)
    rw [htext, parse_shortForm_iff ht hshort hkeys, forall₂_and]
    simp only [Path.not_mem_chars_brace_iff, true_imp_iff]
  | false =>
    have htext : text (format t) = String.ofList (formatCallChars t) :=
      congrArg String.ofList (if_neg (hshort ▸ Bool.false_ne_true))
    rw [htext, parse_formatCall_iff ht fun p hp => ⟨hkeys p hp, hquotes hshort p hp⟩]
    exact ⟨fun h => ⟨h, nofun⟩, And.left⟩

/-- When an expression that has been read is read back from its text. -/
theorem parse_text_iff (hread : parse text = .ok e)
    (hkeys : ∀ p ∈ e.references, Path.KeysClose p.segments)
    (hquotes : ∀ t, e = .format t → isShortForm t.chars = false →
      ∀ p ∈ t.references, p.Separable) :
    parse e.text = .ok e ↔ (∀ p ∈ e.references, p.EndsFirmly) ∧
      ∀ t, e = .format t → isShortForm t.chars → ∀ p ∈ t.references, ∀ name,
        .key name ∈ p.segments → '}' ∉ name.toList := by
  cases e with
  | path p =>
    rw [parse_path_iff (hkeys p List.mem_cons_self)]
    simp [references]
  | stringToJson p =>
    rw [parse_stringToJson_iff (hkeys p List.mem_cons_self)]
    simp [references]
  | jsonToString p =>
    rw [parse_jsonToString_iff (hkeys p List.mem_cons_self)]
    simp [references]
  | format t =>
    rw [parse_format_iff (normal_of_parse hread) hkeys (hquotes t rfl)]
    refine and_congr_right' ⟨fun h t' ht' => ?_, fun h => h t rfl⟩
    obtain rfl := format.inj ht'
    exact h

/-- A legible expression that has been read is read back from its text. -/
theorem Legible.parse_text (h : e.Legible) (hread : parse text = .ok e) : parse e.text = .ok e := by
  refine (parse_text_iff hread (fun p hp => (h.paths p hp).keys) ?_).mpr
    ⟨fun p hp => (h.paths p hp).last, ?_⟩
  · intro t ht hshort p hp
    have hkey := h.keys t ht p hp
    rwa [hshort, if_neg Bool.false_ne_true] at hkey
  · intro t ht hshort p hp
    have hkey := h.keys t ht p hp
    rwa [hshort, if_pos rfl] at hkey

theorem keysClose_of_no_backslash
    (h : ∀ name, .key name ∈ p.segments → '\\' ∉ name.toList) : Path.KeysClose p.segments :=
  fun name hname _ hlast => h name hname (List.mem_of_getLast? hlast)

theorem separable_of_no_backslash
    (h : ∀ name, .key name ∈ p.segments → '\\' ∉ name.toList) : p.Separable :=
  fun name hname hpart => h name hname (hpart.subset List.mem_cons_self)

/-- An expression without backslashes in its keys is read back if and only if no path ends in a
plain key that ends in a blank, and no key in a template in its short form has a closing brace. It
does not depend on the form in which a template is written whether it is the same template that is
read, and the literal parts do not matter. -/
theorem parse_text_iff_of_no_backslash (hread : parse text = .ok e)
    (hkeys : ∀ p ∈ e.references, ∀ name, .key name ∈ p.segments → '\\' ∉ name.toList) :
    (parse e.text = .ok e ↔ (∀ p ∈ e.references, p.EndsFirmly) ∧
      ∀ t, e = .format t → isShortForm t.chars → ∀ p ∈ t.references, ∀ name,
        .key name ∈ p.segments → '}' ∉ name.toList) ∧
    ∀ t, e = .format t → (∀ p ∈ t.references, p.EndsFirmly) →
      parse (String.ofList (formatCallChars t)) = .ok e ∧
        (isShortForm t.chars →
          (∀ p ∈ t.references, ∀ name, .key name ∈ p.segments → '}' ∉ name.toList) →
            parse t.text = .ok e) := by
  have hclose : ∀ p ∈ e.references, Path.KeysClose p.segments :=
    fun p hp => keysClose_of_no_backslash (hkeys p hp)
  have hquotes : ∀ p ∈ e.references, p.Separable :=
    fun p hp => separable_of_no_backslash (hkeys p hp)
  refine ⟨parse_text_iff hread hclose fun t ht _ => ?_, fun t ht hends => ⟨?_, ?_⟩⟩
  · subst ht
    exact hquotes
  · subst ht
    exact (parse_formatCall_iff (normal_of_parse hread)
      fun p hp => ⟨hclose p hp, hquotes p hp⟩).mpr hends
  · intro hshort hbraces
    subst ht
    exact (parse_shortForm_iff (normal_of_parse hread) hshort hclose).mpr
      fun p hp => ⟨hends p hp, Path.not_mem_chars_brace_iff.mpr (hbraces p hp)⟩

/-- A template with a blank, quotes and braces in its literal parts, and a brace in a key. -/
def braced : Expression :=
  .format ⟨[.literal " it's \x7b", .ref ⟨[.key "a\x7db"]⟩, .literal "$"]⟩

/-- A call that it is read from. -/
def bracedText : String :=
  "States.Format(' it\\'s \\\x7b\x7b\x7d$', $['a\x7db'])"

/-- It is written as a call, and read back. -/
theorem parse_text_braced :
    (parse bracedText = .ok braced ∧
      ∀ p ∈ braced.references, ∀ name, .key name ∈ p.segments → '\\' ∉ name.toList) ∧
    parse braced.text = .ok braced := by
  have hread : parse bracedText = .ok braced := Except.toOption_eq_some.mp (by decide +kernel)
  have hone : ∀ p ∈ braced.references, p = ⟨[.key "a\x7db"]⟩ := fun _ => List.mem_singleton.mp
  have hkeys : ∀ p ∈ braced.references, ∀ name, .key name ∈ p.segments →
      '\\' ∉ name.toList := by
    intro p hp name hname
    obtain rfl := hone p hp
    obtain rfl := Segment.key.inj (List.mem_singleton.mp hname)
    decide
  refine ⟨⟨hread, hkeys⟩, (parse_text_iff_of_no_backslash hread hkeys).1.mpr ⟨?_, ?_⟩⟩
  · intro p hp name hname hplain
    obtain rfl := hone p hp
    obtain rfl := Segment.key.inj (Option.some.inj hname)
    exact absurd hplain (by decide)
  · intro t ht hshort
    obtain rfl := format.inj ht
    exact absurd hshort (by decide)

end Expression

end Conveyor
