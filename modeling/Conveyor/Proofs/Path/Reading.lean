import Conveyor.Path.Parser
import Conveyor.Proofs.Result
import Conveyor.Proofs.Text.Basic
import Conveyor.Workflow.ResultPath

/-!
# Paths that are read back

A path is read back from its text if each key in it is (`Path.Legible`): a key between quotes must
not end in a backslash, which would take away the meaning of the closing quote, and a key after a
point must not end in a blank at the end of the path, where it would be trimmed.

The text of a segment is read as that segment whatever follows it, as long as that is the text of
further segments, which begins with a point or a bracket.
-/

namespace Conveyor

namespace Path

/-! ### Legible paths -/

/-- No key between quotes ends in a backslash. -/
def KeysClose (segments : List Segment) : Prop :=
  ∀ name, .key name ∈ segments → isPlainKey name.toList = false → name.toList.getLast? ≠ some '\\'

/-- A key at the end of a path that is written after a point does not end in a blank. -/
def EndsFirmly (p : Path) : Prop :=
  ∀ name, p.segments.getLast? = some (.key name) → isPlainKey name.toList →
    ∀ c ∈ name.toList.getLast?, Text.isBlank c = false

/-- What makes sure that a path is read back from its text. -/
structure Legible (p : Path) : Prop where
  keys : KeysClose p.segments
  last : p.EndsFirmly

variable {cs rest : List Char} {name : String} {s : Segment} {segments segments' : List Segment}
  {p : Path} {c : Char}

theorem KeysClose.mono (h : KeysClose segments) (hsub : segments' ⊆ segments) :
    KeysClose segments' :=
  fun name hname => h name (hsub hname)

/-! ### Keys -/

theorem isPlainKey_iff : isPlainKey cs ↔ cs ≠ [] ∧ ∀ c ∈ cs, c ∉ reserved := by
  simp [isPlainKey]

/-- The characters of a key are read as they were written, up to one that is no quote after a
backslash. -/
theorem quotedKey?_escape_cons (acc rest : List Char) {d : Char}
    (hlast : d = '\'' → cs.getLast? ≠ some '\\') :
    quotedKey? '\'' acc (cs.flatMap escapeQuote ++ d :: rest) =
      quotedKey? '\'' (cs.reverse ++ acc) (d :: rest) := by
  induction cs generalizing acc with
  | nil => rfl
  | cons c cs ih =>
    have htail : d = '\'' → cs.getLast? ≠ some '\\' := by
      intro hd h
      refine hlast hd ?_
      rw [List.getLast?_cons, h]
      rfl
    rw [List.reverse_cons, List.append_assoc, List.singleton_append, ← ih (c :: acc) htail]
    by_cases hquote : c = '\''
    · subst hquote
      simp [escapeQuote, quotedKey?]
    · -- the next character is no quote that a backslash could stand before
      obtain ⟨e, rest', hnext, he⟩ : ∃ e rest',
          cs.flatMap escapeQuote ++ d :: rest = e :: rest' ∧ (c = '\\' → e ≠ '\'') := by
        cases cs with
        | nil => exact ⟨d, rest, rfl, fun hc hd => hlast hd (congrArg some hc)⟩
        | cons e cs =>
          by_cases he : e = '\''
          · subst he
            exact ⟨'\\', '\'' :: (cs.flatMap escapeQuote ++ d :: rest), rfl, fun _ => by decide⟩
          · exact ⟨e, cs.flatMap escapeQuote ++ d :: rest, by simp [escapeQuote, he], fun _ => he⟩
      rw [List.flatMap_cons, escapeQuote, if_neg hquote, List.append_assoc, hnext,
        List.singleton_append, quotedKey?, if_neg fun h => he h.1 h.2, if_neg hquote]

/-- A key between quotes is read up to its closing quote. -/
theorem quotedKey?_escape (acc rest : List Char) (hlast : cs.getLast? ≠ some '\\') :
    quotedKey? '\'' acc (cs.flatMap escapeQuote ++ '\'' :: ']' :: rest) =
      some (acc.reverse ++ cs, ']' :: rest) := by
  rw [quotedKey?_escape_cons acc _ fun _ => hlast]
  simp [quotedKey?]

/-! ### Segments -/

/-- What may follow a segment: nothing, or the text of another one. -/
def SegmentStart (cs : List Char) : Prop :=
  ∀ c ∈ cs.head?, endsKey c

theorem segmentStart_nil : SegmentStart [] := by
  intro c hc
  cases hc

theorem segmentStart_append (hstart : SegmentStart rest) :
    SegmentStart (segments.flatMap segmentChars ++ rest) := by
  cases segments with
  | nil => exact hstart
  | cons s segments =>
    cases s with
    | index i =>
      rintro c hc
      obtain rfl : c = '[' := by simpa [segmentChars] using hc.symm
      rfl
    | key name =>
      rintro c hc
      by_cases hplain : isPlainKey name.toList
      · obtain rfl : c = '.' := by simpa [segmentChars, hplain] using hc.symm
        rfl
      · obtain rfl : c = '[' := by simpa [segmentChars, hplain] using hc.symm
        rfl

theorem parseSegments_plain (hplain : isPlainKey name.toList) (hstart : SegmentStart rest) :
    parseSegments (segmentChars (.key name) ++ rest) =
      (parseSegments rest).map (.key name :: ·) := by
  obtain ⟨hne, hreserved⟩ := isPlainKey_iff.mp hplain
  have hkey : ∀ c ∈ name.toList, (!endsKey c) = true := by
    intro c hc
    have hnot := hreserved c hc
    simp only [reserved, List.mem_cons, not_or] at hnot
    simp [endsKey, hnot.1, hnot.2.1]
  -- the key ends where the text of the key does
  have hhead : rest.takeWhile (!endsKey ·) = [] ∧ rest.dropWhile (!endsKey ·) = rest := by
    cases rest with
    | nil => exact ⟨rfl, rfl⟩
    | cons c rest =>
      have hc : ¬(!endsKey c) = true := by simpa using hstart c rfl
      exact ⟨List.takeWhile_cons_of_neg hc, List.dropWhile_cons_of_neg hc⟩
  have htake : (name.toList ++ rest).takeWhile (!endsKey ·) = name.toList := by
    rw [List.takeWhile_append_of_pos hkey, hhead.1, List.append_nil]
  have hdrop : (name.toList ++ rest).dropWhile (!endsKey ·) = rest := by
    rw [List.dropWhile_append_of_pos hkey, hhead.2]
  have hchars : segmentChars (.key name) ++ rest = '.' :: (name.toList ++ rest) := by
    simp [segmentChars, hplain]
  have hempty : name.toList.isEmpty = false := by simpa using hne
  rw [hchars, parseSegments]
  simp only [htake, hdrop, hempty, String.ofList_toList]
  rfl

theorem parseSegments_quoted (hplain : isPlainKey name.toList = false)
    (hlast : name.toList.getLast? ≠ some '\\') :
    parseSegments (segmentChars (.key name) ++ rest) =
      (parseSegments rest).map (.key name :: ·) := by
  have hchars : segmentChars (.key name) ++ rest =
      '[' :: '\'' :: (name.toList.flatMap escapeQuote ++ '\'' :: ']' :: rest) := by
    simp [segmentChars, hplain]
  have hquoted : quotedKey? '\'' [] (name.toList.flatMap escapeQuote ++ '\'' :: ']' :: rest) =
      some (name.toList, ']' :: rest) := quotedKey?_escape [] rest hlast
  rw [hchars, parseSegments, if_pos (.inl rfl)]
  split
  · rename_i hnone
    cases hnone.symm.trans hquoted
  · rename_i key rest' hsome
    obtain ⟨rfl, hrest⟩ := Prod.mk.inj (Option.some.inj (hsome.symm.trans hquoted))
    obtain rfl := (List.cons.inj hrest).2
    rw [String.ofList_toList]
    rfl
  · rename_i key rest' hne hsome
    obtain ⟨rfl, rfl⟩ := Prod.mk.inj (Option.some.inj (hsome.symm.trans hquoted))
    exact absurd rfl (hne rest)

theorem parseSegments_index {i : UInt64} :
    parseSegments (segmentChars (.index i) ++ rest) = (parseSegments rest).map (.index i :: ·) := by
  obtain ⟨d, ds, hd, hdigit⟩ := Decimal.exists_digits_eq i.toNat
  -- no digit is taken for a quote or for the closing bracket
  have hother {c : Char} (hc : c ∈ Decimal.digits i.toNat) : c ≠ '\'' ∧ c ≠ '"' ∧ c ≠ ']' := by
    have hdigit := Decimal.isDigit_of_mem_digits hc
    refine ⟨?_, ?_, ?_⟩ <;> rintro rfl <;> exact absurd hdigit (by decide)
  have hbefore : ']' ∉ d :: ds := fun h => (hother (hd ▸ h)).2.2 rfl
  have hchars : segmentChars (.index i) ++ rest = '[' :: d :: (ds ++ ']' :: rest) := by
    simp [segmentChars, hd]
  have htake : (d :: (ds ++ ']' :: rest)).takeWhile (· != ']') = d :: ds :=
    Text.takeWhile_ne_append hbefore rest
  have hdrop : (d :: (ds ++ ']' :: rest)).dropWhile (· != ']') = ']' :: rest :=
    Text.dropWhile_ne_append hbefore rest
  have hword : Decimal.readWord? (Text.trim (d :: ds)) = some i := by
    rw [← hd, Decimal.trim_digits, Decimal.readWord?_digits]
  have hquote : ¬(d = '\'' ∨ d = '"') := by
    obtain ⟨hsingle, hdouble, -⟩ := hother (hd ▸ List.mem_cons_self)
    exact not_or.mpr ⟨hsingle, hdouble⟩
  rw [hchars, parseSegments, if_neg hquote]
  split
  · rename_i hnil
    cases hnil.symm.trans hdrop
  · rename_i c rest' hcons
    obtain ⟨rfl, rfl⟩ := List.cons.inj (hcons.symm.trans hdrop)
    simp only [htake, hword]
    rfl

/-! ### Paths -/

/-- The text of segments is read as these segments, whatever follows. -/
theorem parseSegments_append (hkeys : KeysClose segments) (hstart : SegmentStart rest) :
    parseSegments (segments.flatMap segmentChars ++ rest) =
      (parseSegments rest).map (segments ++ ·) := by
  induction segments with
  | nil => cases h : parseSegments rest <;> simp [h, Except.map]
  | cons s segments ih =>
    have hrest := ih (hkeys.mono (List.subset_cons_self s segments))
    have hmap : (parseSegments (segments.flatMap segmentChars ++ rest)).map (s :: ·) =
        (parseSegments rest).map (s :: segments ++ ·) := by
      rw [hrest]
      cases parseSegments rest <;> rfl
    rw [List.flatMap_cons, List.append_assoc, ← hmap]
    cases s with
    | index i => exact parseSegments_index
    | key name =>
      cases hplain : isPlainKey name.toList with
      | true => exact parseSegments_plain hplain (segmentStart_append hstart)
      | false => exact parseSegments_quoted hplain (hkeys name List.mem_cons_self hplain)

theorem parseSegments_chars (hkeys : KeysClose segments) :
    parseSegments (segments.flatMap segmentChars) = .ok segments := by
  have hnil : parseSegments [] = .ok [] := by rw [parseSegments]
  have happend : parseSegments (segments.flatMap segmentChars ++ []) =
      (parseSegments []).map (segments ++ ·) := parseSegments_append hkeys segmentStart_nil
  rw [List.append_nil, hnil] at happend
  rw [happend, Except.map, List.append_nil]

/-- The text of a segment ends in a bracket, unless it is that of a plain key. -/
theorem exists_getLast?_segmentChars (s : Segment) :
    ∃ c, (segmentChars s).getLast? = some c ∧
      (c = ']' ∨
        ∃ name, s = .key name ∧ isPlainKey name.toList ∧ name.toList.getLast? = some c) := by
  cases s with
  | index i =>
    refine ⟨']', ?_, .inl rfl⟩
    rw [segmentChars, List.getLast?_append]
    rfl
  | key name =>
    cases hplain : isPlainKey name.toList with
    | true =>
      have hne : name.toList ≠ [] := (isPlainKey_iff.mp hplain).1
      have hlast := List.getLast?_eq_getLast_of_ne_nil hne
      refine ⟨name.toList.getLast hne, ?_, .inr ⟨name, rfl, hplain, hlast⟩⟩
      simp only [segmentChars, hplain, if_true]
      rw [List.getLast?_cons, hlast]
      rfl
    | false =>
      refine ⟨']', ?_, .inl rfl⟩
      simp only [segmentChars, hplain]
      rw [if_neg Bool.false_ne_true, List.getLast?_append]
      rfl

theorem Legible.not_isBlank_of_getLast? (h : p.Legible) (hc : c ∈ p.chars.getLast?) :
    Text.isBlank c = false := by
  rcases List.eq_nil_or_concat p.segments with hnil | ⟨init, s, hinit⟩
  · obtain rfl : c = '$' := by simpa [chars, hnil] using hc.symm
    decide
  · obtain ⟨d, hd, hcases⟩ := exists_getLast?_segmentChars s
    rw [chars, hinit, List.concat_eq_append, List.flatMap_append, List.flatMap_singleton,
      ← List.cons_append, List.getLast?_append, hd] at hc
    obtain rfl : d = c := by simpa using hc
    rcases hcases with rfl | ⟨name, rfl, hplain, hlast⟩
    · decide
    · have hsegment : p.segments.getLast? = some (.key name) := by simp [hinit]
      exact h.last name hsegment hplain d hlast

theorem Legible.trim_chars (h : p.Legible) : Text.trim p.chars = p.chars := by
  refine Text.trim_eq_self (fun c hc => ?_) fun c hc => h.not_isBlank_of_getLast? hc
  obtain rfl : c = '$' := by simpa [chars] using hc.symm
  decide

theorem Legible.parseChars_chars (h : p.Legible) : parseChars p.chars = .ok p := by
  rw [parseChars, h.trim_chars]
  simp only [chars, parseSegments_chars h.keys]
  rfl

theorem Legible.parse_ofList_chars (h : p.Legible) : parse (String.ofList p.chars) = .ok p := by
  rw [parse, String.toList_ofList, h.parseChars_chars]
  rfl

/-- A legible path is read back from its text. -/
theorem Legible.parse_text (h : p.Legible) : parse p.text = .ok p :=
  h.parse_ofList_chars

/-! ### Blanks at the end -/

theorem parse_ofList_eq_ok : parse (String.ofList cs) = .ok p ↔ parseChars cs = .ok p := by
  rw [parse, String.toList_ofList]
  exact Except.mapError_eq_ok

theorem trim_chars (p : Path) :
    Text.trim p.chars = '$' :: Text.trimEnd (p.segments.flatMap segmentChars) :=
  Text.trim_cons (by decide) _

/-- Blanks around the text of a path do not count. -/
theorem parseChars_trim : parseChars (Text.trim p.chars) = parseChars p.chars := by
  have htrim : Text.trim (Text.trim p.chars) = Text.trim p.chars := by
    rw [trim_chars, Text.trim_cons (by decide), Text.trimEnd_trimEnd]
  rw [parseChars, parseChars, htrim]

/-- A key after a point reaches up to the next segment. -/
theorem name_of_parseSegments (h : parseSegments ('.' :: cs) = .ok (.key name :: segments)) :
    name.toList = cs.takeWhile (!endsKey ·) := by
  rw [parseSegments] at h
  split at h
  · cases h
  · obtain ⟨rest, -, hok⟩ := Except.bind_eq_ok.mp h
    obtain rfl := Segment.key.inj (List.cons.inj (Except.ok.inj hok)).1
    exact String.toList_ofList

/-- What is read back ends firmly: a key that ends in a blank would be read without it. -/
theorem endsFirmly_of_parseChars (hkeys : KeysClose p.segments)
    (h : parseChars p.chars = .ok p) : p.EndsFirmly := by
  intro name hlast hplain c hc
  obtain ⟨init, hinit⟩ := List.getLast?_eq_some_iff.mp hlast
  have hchars : p.chars = '$' :: (init.flatMap segmentChars ++ '.' :: name.toList) := by
    simp [chars, hinit, segmentChars, hplain]
  have htrim : Text.trim p.chars =
      '$' :: (init.flatMap segmentChars ++ '.' :: Text.trimEnd name.toList) := by
    rw [hchars, Text.trim_cons (by decide), Text.trimEnd_append_cons _ (by decide)]
  have hstart : SegmentStart ('.' :: Text.trimEnd name.toList) := by
    rintro c hc
    obtain rfl := Option.some.inj hc
    rfl
  have hinside : KeysClose init := hkeys.mono (hinit ▸ List.subset_append_left _ _)
  rw [parseChars, htrim] at h
  obtain ⟨segments, hread, rfl⟩ := Except.map_eq_ok.mp h
  rw [parseSegments_append hinside hstart] at hread
  obtain ⟨last, hend, rfl⟩ := Except.map_eq_ok.mp hread
  obtain rfl := List.append_cancel_left hinit
  -- the last key is read from what trimming leaves of it
  obtain ⟨blanks, -, hblanks⟩ := Text.exists_trimEnd_append name.toList
  have hall : ∀ c ∈ Text.trimEnd name.toList, (!endsKey c) = true := by
    intro c hc
    have hmem : c ∈ name.toList := hblanks ▸ List.mem_append_left blanks hc
    have hnot := (isPlainKey_iff.mp hplain).2 c hmem
    simp only [reserved, List.mem_cons, not_or] at hnot
    simp [endsKey, hnot.1, hnot.2.1]
  have hname : name.toList = Text.trimEnd name.toList := by
    have hname := name_of_parseSegments hend
    rwa [List.takeWhile_eq_self_iff.mpr hall] at hname
  rw [hname] at hc
  exact Text.not_isBlank_of_getLast?_trimEnd hc

/-- Whether a path is read back, if no key between quotes ends in a backslash. -/
theorem parseChars_chars_iff (hkeys : KeysClose p.segments) :
    parseChars p.chars = .ok p ↔ p.EndsFirmly :=
  ⟨endsFirmly_of_parseChars hkeys, fun hlast => Legible.parseChars_chars ⟨hkeys, hlast⟩⟩

theorem parse_chars_iff (hkeys : KeysClose p.segments) :
    parse (String.ofList p.chars) = .ok p ↔ p.EndsFirmly :=
  parse_ofList_eq_ok.trans (parseChars_chars_iff hkeys)

theorem parse_trim_chars_iff (hkeys : KeysClose p.segments) :
    parse (String.ofList (Text.trim p.chars)) = .ok p ↔ p.EndsFirmly := by
  rw [parse_ofList_eq_ok, parseChars_trim, parseChars_chars_iff hkeys]

/-! ### Characters of paths -/

/-- A character that paths are not made up with is in no path but for its keys. -/
theorem not_mem_chars (hplain : c ∉ ['$', '.', '[', ']', '\'', '\\']) (hdigit : c.isDigit = false)
    (hkeys : ∀ name, .key name ∈ p.segments → c ∉ name.toList) : c ∉ p.chars := by
  simp only [List.mem_cons, List.not_mem_nil, or_false, not_or] at hplain
  obtain ⟨hdollar, hpoint, hopen, hclose, hquote, hbackslash⟩ := hplain
  intro hc
  -- a character of a path belongs to a segment, and there to a key or to what is written around it
  rcases List.mem_cons.mp hc with rfl | hc
  · exact hdollar rfl
  · obtain ⟨s, hs, hc⟩ := List.mem_flatMap.mp hc
    cases s with
    | index i =>
      have hnot : c ∉ Decimal.digits i.toNat := fun h =>
        Bool.false_ne_true (hdigit.symm.trans (Decimal.isDigit_of_mem_digits h))
      simp [segmentChars, hopen, hclose, hnot] at hc
    | key name =>
      have hnot := hkeys name hs
      have hescape : c ∉ name.toList.flatMap escapeQuote := by
        intro h
        obtain ⟨d, hd, hcd⟩ := List.mem_flatMap.mp h
        by_cases hd' : d = '\''
        · simp [escapeQuote, hd', hbackslash, hquote] at hcd
        · obtain rfl : c = d := by simpa [escapeQuote, hd'] using hcd
          exact hnot hd
      cases hplain : isPlainKey name.toList with
      | true => simp [segmentChars, hplain, hpoint, hnot] at hc
      | false => simp [segmentChars, hplain, hopen, hclose, hquote, hescape] at hc

/-- The characters of the keys of a path are in its text. -/
theorem mem_chars_of_key (hname : .key name ∈ p.segments) (hc : c ∈ name.toList) : c ∈ p.chars := by
  refine List.mem_cons_of_mem _ (List.mem_flatMap.mpr ⟨.key name, hname, ?_⟩)
  cases hplain : isPlainKey name.toList with
  | true => simp [segmentChars, hplain, hc]
  | false =>
    have hescape : c ∈ name.toList.flatMap escapeQuote := by
      refine List.mem_flatMap.mpr ⟨c, hc, ?_⟩
      by_cases hquote : c = '\'' <;> simp [escapeQuote, hquote]
    simp [segmentChars, hplain, hescape]

/-- Only a closing brace in a key makes one in the text of a path. -/
theorem not_mem_chars_brace_iff :
    '}' ∉ p.chars ↔ ∀ name, .key name ∈ p.segments → '}' ∉ name.toList :=
  ⟨fun h _ hname hmem => h (mem_chars_of_key hname hmem), not_mem_chars (by decide) (by decide)⟩

theorem legible_root : root.Legible :=
  ⟨nofun, nofun⟩

end Path

/-! ### Result paths -/

namespace ResultPath

variable {r : ResultPath} {text : String}

/-- What makes sure that a result path is read back from its text. -/
def Legible (r : ResultPath) : Prop :=
  ∀ path, r = .at path → path.Legible

theorem parse_text_of_legible {p : Path} (h : p.Legible) :
    parse p.text = .ok (if p.isRoot then .replace else .at p) := by
  have hne : Text.trim p.text.toList ≠ discardWord := by
    rw [Path.text, String.toList_ofList, h.trim_chars]
    exact fun heq => absurd (List.cons.inj heq).1 (by decide)
  rw [parse, if_neg hne, h.parse_text]
  rfl

theorem parse_replace : parse replace.text = .ok .replace := by
  have htext : replace.text = Path.root.text := by decide
  rw [htext]
  exact parse_text_of_legible Path.legible_root

/-- The path to the whole context is read as replacing it. -/
theorem isRoot_eq_false {path : Path} (h : parse text = .ok (.at path)) : path.isRoot = false := by
  rw [parse] at h
  split at h
  · cases h
  · obtain ⟨p, -, hp⟩ := Except.map_eq_ok.mp h
    split at hp
    · cases hp
    · rename_i hroot
      obtain rfl := ResultPath.at.inj hp
      exact Bool.eq_false_iff.mpr hroot

/-- A legible result path that has been read is read back from its text. -/
theorem Legible.parse_text (h : r.Legible) (hread : parse text = .ok r) : parse r.text = .ok r := by
  cases r with
  | replace => exact parse_replace
  | «at» path =>
    have hparse := parse_text_of_legible (h path rfl)
    rwa [isRoot_eq_false hread] at hparse
  | discard => exact if_pos (by decide)

end ResultPath

end Conveyor
