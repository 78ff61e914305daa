import Conveyor.Expression.Parser
import Conveyor.Proofs.Expression.Template

/-!
# Format calls that are read back

A template that is written as a call of `States.Format` is read in two halves. The text of the
format gives the pieces around the empty braces (`formatPieces_parts`), and the list of arguments is
split into the paths (`splitArguments_paths`), of which the quoted keys are passed over as a whole
as long as no quote in them follows a backslash. Pieces and paths are joined to the parts again
(`joinPieces_pieces`). So the template is read back if and only if the paths are, from what trimming
leaves of them (`parseFormat_template_iff`).
-/

namespace Conveyor

/-- No quote in a key follows a backslash, after which it would seem to end the key for
the splitting of arguments. -/
def Path.Separable (p : Path) : Prop :=
  ∀ name, .key name ∈ p.segments → ¬['\\', '\''] <:+: name.toList

namespace Expression

open Template (Normal IsLiteral literalPart)

variable {acc rest cs : List Char} {parts : List TemplatePart} {p : Path} {paths : List Path}
  {input : String}

/-! ### The text of the format -/

/-- The pieces around the references, for the characters of the first piece before the parts. -/
def pieces (acc : List Char) : List TemplatePart → List String
  | [] => [String.ofList acc.reverse]
  | .literal text :: parts => pieces (text.toList.reverse ++ acc) parts
  | .ref _ :: parts => String.ofList acc.reverse :: pieces [] parts

theorem formatPieces_literal (text : List Char) :
    formatPieces acc (text.flatMap escapeFormat ++ rest) =
      formatPieces (text.reverse ++ acc) rest := by
  induction text generalizing acc with
  | nil => rfl
  | cons c text ih =>
    have hstep : formatPieces acc (escapeFormat c ++ (text.flatMap escapeFormat ++ rest)) =
        formatPieces (c :: acc) (text.flatMap escapeFormat ++ rest) := by
      by_cases hescape : c = '\\' ∨ c = '\'' ∨ c = '{' ∨ c = '}'
      · rw [escapeFormat, if_pos hescape]
        exact formatPieces.eq_3 _ _ _
      · rw [escapeFormat, if_neg hescape, List.singleton_append]
        simp only [not_or] at hescape
        obtain ⟨hbackslash, hquote, hopen, hclose⟩ := hescape
        rw [formatPieces] <;> intros <;> contradiction
    rw [List.flatMap_cons, List.append_assoc, hstep, ih, List.reverse_cons, List.append_assoc,
      List.singleton_append]

/-- The text of a format is read up to its closing quote. -/
theorem formatPieces_parts :
    formatPieces acc (parts.flatMap formatPartChars ++ '\'' :: rest) =
      .ok (pieces acc parts, rest) := by
  induction parts generalizing acc with
  | nil => rfl
  | cons part parts ih =>
    rw [List.flatMap_cons, List.append_assoc]
    cases part with
    | literal text => rw [formatPartChars, formatPieces_literal, ih, pieces]
    | ref p =>
      rw [formatPartChars, List.cons_append, List.cons_append, List.nil_append, formatPieces.eq_5,
        ih, pieces]
      rfl

/-- The paths of parts, in order. -/
def partPaths (parts : List TemplatePart) : List Path :=
  parts.filterMap Template.partPath?

theorem length_pieces : (pieces acc parts).length = (partPaths parts).length + 1 := by
  induction parts generalizing acc with
  | nil => rfl
  | cons part parts ih =>
    cases part with
    | literal text => exact ih
    | ref p => exact congrArg Nat.succ ih

theorem literalPart_piece (piece : String) :
    (if piece.isEmpty then [] else [TemplatePart.literal piece]) =
      literalPart piece.toList.reverse := by
  by_cases h : piece = "" <;> simp [literalPart, h]

/-- The pieces and the paths make the parts. -/
theorem joinPieces_pieces (hparts : Normal parts)
    (hacc : acc = [] ∨ ∀ part ∈ parts.head?, ¬IsLiteral part) :
    joinPieces (pieces acc parts) (partPaths parts) = literalPart acc ++ parts := by
  have hliteral (acc : List Char) :
      (if (String.ofList acc.reverse).isEmpty then []
        else [TemplatePart.literal (String.ofList acc.reverse)]) = literalPart acc := by
    rw [literalPart_piece, String.toList_ofList, List.reverse_reverse]
  induction parts generalizing acc with
  | nil =>
    simp only [pieces, partPaths, List.filterMap_nil, joinPieces, hliteral]
  | cons part parts ih =>
    cases part with
    | ref p =>
      have hrest : joinPieces (pieces [] parts) (partPaths parts) = parts := ih hparts (.inl rfl)
      have hpaths : partPaths (.ref p :: parts) = p :: partPaths parts := rfl
      rw [pieces, hpaths, joinPieces]
      simp only [hliteral, hrest]
    | literal text =>
      obtain ⟨hne, hhead, hparts⟩ := hparts
      obtain rfl : acc = [] := hacc.resolve_right fun h => h _ rfl trivial
      have hrest : joinPieces (pieces text.toList.reverse parts) (partPaths parts) =
          literalPart text.toList.reverse ++ parts := ih hparts (.inr hhead)
      have hempty : text.toList.reverse.isEmpty = false := by simpa using hne
      have hpaths : partPaths (.literal text :: parts) = partPaths parts := rfl
      rw [pieces, List.append_nil, hpaths, hrest]
      simp [literalPart, hempty]

theorem partPaths_literalPart_append :
    partPaths (literalPart acc ++ parts) = partPaths parts := by
  cases acc <;> rfl

/-- The paths are among the parts again, one for each place between the pieces. -/
theorem partPaths_joinPieces {pieces : List String} (h : pieces.length - 1 = paths.length) :
    partPaths (joinPieces pieces paths) = paths := by
  induction pieces generalizing paths with
  | nil => exact (List.length_eq_zero_iff.mp h.symm).symm
  | cons piece pieces ih =>
    cases paths with
    | nil =>
      obtain rfl : pieces = [] := List.length_eq_zero_iff.mp h
      simp only [joinPieces, literalPart_piece, partPaths_literalPart_append]
      rfl
    | cons p paths =>
      have hrest : partPaths (joinPieces pieces paths) = paths := ih (congrArg (· - 1) h)
      simp only [joinPieces, literalPart_piece, partPaths_literalPart_append]
      exact congrArg (p :: ·) hrest

theorem normal_joinPieces {pieces : List String} (h : pieces.length - 1 = paths.length) :
    Normal (joinPieces pieces paths) := by
  induction pieces generalizing paths with
  | nil => trivial
  | cons piece pieces ih =>
    cases paths with
    | nil =>
      obtain rfl : pieces = [] := List.length_eq_zero_iff.mp h
      simp only [joinPieces, literalPart_piece]
      exact Template.normal_literalPart_append trivial nofun
    | cons p paths =>
      have hrest : Normal (joinPieces pieces paths) := ih (congrArg (· - 1) h)
      simp only [joinPieces, literalPart_piece]
      refine Template.normal_literalPart_append hrest fun part hpart => ?_
      obtain rfl := Option.some.inj hpart
      exact not_false

/-! ### The arguments -/

theorem splitArguments_cons {state : ArgumentState} {c : Char} (h : state = .outside → c ≠ ',') :
    splitArguments state acc (c :: rest) = splitArguments (state.next c) (c :: acc) rest := by
  rw [splitArguments]
  exact h

theorem splitArguments_quoted_cons {quote c : Char} :
    splitArguments (.quoted quote) acc (c :: rest) =
      splitArguments (ArgumentState.next c (.quoted quote)) (c :: acc) rest :=
  splitArguments_cons nofun

theorem splitArguments_escaped_cons {quote c : Char} :
    splitArguments (.escaped quote) acc (c :: rest) =
      splitArguments (.quoted quote) (c :: acc) rest :=
  splitArguments_cons nofun

/-- A quote of a key stands behind a backslash, which takes its meaning away here as well. -/
theorem splitArguments_quoted_quote :
    splitArguments (.quoted '\'') acc ('\\' :: '\'' :: rest) =
      splitArguments (.quoted '\'') ('\'' :: '\\' :: acc) rest :=
  splitArguments_quoted_cons.trans splitArguments_escaped_cons

theorem splitArguments_quoted_plain {c : Char} (hquote : c ≠ '\'') (hbackslash : c ≠ '\\') :
    splitArguments (.quoted '\'') acc (c :: rest) =
      splitArguments (.quoted '\'') (c :: acc) rest := by
  have hnext : ArgumentState.next c (.quoted '\'') = .quoted '\'' := by
    simp [ArgumentState.next, hbackslash, hquote]
  rw [splitArguments_quoted_cons, hnext]

/-- A text without quotes and commas is passed over outside of quotes. -/
theorem splitArguments_outside {text : List Char} (h : ∀ c ∈ text, c ∉ ['\'', '"', ',']) :
    splitArguments .outside acc (text ++ rest) =
      splitArguments .outside (text.reverse ++ acc) rest := by
  induction text generalizing acc with
  | nil => rfl
  | cons c text ih =>
    have hc := h c List.mem_cons_self
    simp only [List.mem_cons, List.not_mem_nil, or_false, not_or] at hc
    obtain ⟨hsingle, hdouble, hcomma⟩ := hc
    have hstate : ArgumentState.outside.next c = .outside :=
      if_neg (not_or.mpr ⟨hsingle, hdouble⟩)
    rw [List.cons_append, splitArguments_cons fun _ => hcomma, hstate,
      ih fun d hd => h d (List.mem_cons_of_mem c hd), List.reverse_cons, List.append_assoc,
      List.singleton_append]

/-- A key in which no quote follows a backslash is passed over between its quotes. -/
theorem splitArguments_quoted {text : List Char} (hlast : text.getLast? ≠ some '\\')
    (hquotes : ¬['\\', '\''] <:+: text) :
    splitArguments (.quoted '\'') acc (text.flatMap Path.escapeQuote ++ '\'' :: rest) =
      splitArguments .outside ('\'' :: (text.flatMap Path.escapeQuote).reverse ++ acc) rest := by
  -- after a backslash of the key the next character has no meaning, but it is no quote either
  suffices h : splitArguments (.quoted '\'') acc (text.flatMap Path.escapeQuote ++ '\'' :: rest) =
        splitArguments .outside ('\'' :: (text.flatMap Path.escapeQuote).reverse ++ acc) rest ∧
      ∀ c ∈ text.head?, c ≠ '\'' →
        splitArguments (.escaped '\'') acc (text.flatMap Path.escapeQuote ++ '\'' :: rest) =
          splitArguments .outside ('\'' :: (text.flatMap Path.escapeQuote).reverse ++ acc) rest from
    h.1
  induction text generalizing acc with
  | nil => exact ⟨splitArguments_quoted_cons, nofun⟩
  | cons c text ih =>
    have htail : text.getLast? ≠ some '\\' := by
      intro h
      refine hlast ?_
      rw [List.getLast?_cons, h]
      rfl
    have hquotes' : ¬['\\', '\''] <:+: text := fun h =>
      hquotes (h.trans (List.suffix_cons c text).isInfix)
    rw [List.flatMap_cons, List.append_assoc]
    by_cases hquote : c = '\''
    · subst hquote
      refine ⟨?_, fun c hc hne => absurd (Option.some.inj hc).symm hne⟩
      refine splitArguments_quoted_quote.trans ((ih htail hquotes').1.trans ?_)
      simp [Path.escapeQuote]
    · rw [Path.escapeQuote, if_neg hquote, List.singleton_append]
      obtain ⟨hplain, hescaped⟩ := @ih (c :: acc) htail hquotes'
      refine ⟨?_, fun _ _ _ => ?_⟩
      · by_cases hbackslash : c = '\\'
        · subst hbackslash
          obtain ⟨d, text, rfl⟩ : ∃ d text', text = d :: text' :=
            List.exists_cons_of_ne_nil fun h => hlast (h ▸ rfl)
          have hd : d ≠ '\'' := by
            rintro rfl
            exact hquotes (List.prefix_append ['\\', '\''] text).isInfix
          refine splitArguments_quoted_cons.trans ((hescaped d rfl hd).trans ?_)
          simp
        · rw [splitArguments_quoted_plain hquote hbackslash, hplain]
          simp
      · rw [splitArguments_escaped_cons, hplain]
        simp

theorem splitArguments_segment {s : Segment}
    (hlast : ∀ name, s = .key name → Path.isPlainKey name.toList = false →
      name.toList.getLast? ≠ some '\\')
    (hquotes : ∀ name, s = .key name → ¬['\\', '\''] <:+: name.toList) :
    splitArguments .outside acc (Path.segmentChars s ++ rest) =
      splitArguments .outside ((Path.segmentChars s).reverse ++ acc) rest := by
  cases s with
  | index i =>
    refine splitArguments_outside fun c hc => ?_
    have hcases : c = '[' ∨ c ∈ Decimal.digits i.toNat ∨ c = ']' := by
      simpa [Path.segmentChars] using hc
    rcases hcases with rfl | hdigit | rfl
    · decide
    · have hc := Decimal.isDigit_of_mem_digits hdigit
      simp only [List.mem_cons, List.not_mem_nil, or_false]
      rintro (rfl | rfl | rfl) <;> exact absurd hc (by decide)
    · decide
  | key name =>
    cases hplain : Path.isPlainKey name.toList with
    | true =>
      refine splitArguments_outside fun c hc => ?_
      have hcases : c = '.' ∨ c ∈ name.toList := by
        simpa [Path.segmentChars, hplain] using hc
      rcases hcases with rfl | hmem
      · decide
      · have hnot := (Path.isPlainKey_iff.mp hplain).2 c hmem
        simp only [Path.reserved, List.mem_cons, List.not_mem_nil, or_false, not_or] at hnot ⊢
        exact ⟨hnot.2.2.2.1, hnot.2.2.2.2.1, hnot.2.2.2.2.2.2.2.2.1⟩
    | false =>
      have hchars : Path.segmentChars (.key name) =
          '[' :: '\'' :: (name.toList.flatMap Path.escapeQuote ++ ['\'', ']']) := by
        simp [Path.segmentChars, hplain]
      have hbefore : splitArguments .outside acc
          ('[' :: '\'' :: (name.toList.flatMap Path.escapeQuote ++ '\'' :: (']' :: rest))) =
          splitArguments (.quoted '\'') ('\'' :: '[' :: acc)
            (name.toList.flatMap Path.escapeQuote ++ '\'' :: (']' :: rest)) :=
        (splitArguments_cons fun _ => by decide).trans (splitArguments_cons fun _ => by decide)
      rw [hchars]
      simp only [List.cons_append, List.append_assoc, List.nil_append]
      refine hbefore.trans ?_
      refine (splitArguments_quoted (hlast name rfl hplain) (hquotes name rfl)).trans ?_
      refine (splitArguments_cons fun _ => by decide).trans ?_
      simp [ArgumentState.next]

theorem splitArguments_path (hkeys : Path.KeysClose p.segments) (hquotes : p.Separable) :
    splitArguments .outside acc (p.chars ++ rest) =
      splitArguments .outside (p.chars.reverse ++ acc) rest := by
  have hsegments (segments : List Segment) (hsub : segments ⊆ p.segments) (acc : List Char) :
      splitArguments .outside acc (segments.flatMap Path.segmentChars ++ rest) =
        splitArguments .outside ((segments.flatMap Path.segmentChars).reverse ++ acc) rest := by
    induction segments generalizing acc with
    | nil => rfl
    | cons s segments ih =>
      obtain ⟨hs, hsub⟩ := List.cons_subset.mp hsub
      have hsegment (acc rest : List Char) :
          splitArguments .outside acc (Path.segmentChars s ++ rest) =
            splitArguments .outside ((Path.segmentChars s).reverse ++ acc) rest :=
        splitArguments_segment (fun name hname => hkeys name (hname ▸ hs))
          fun name hname => hquotes name (hname ▸ hs)
      rw [List.flatMap_cons, List.append_assoc, hsegment, ih hsub]
      simp
  rw [Path.chars, List.cons_append, splitArguments_cons fun _ => by decide]
  exact (hsegments p.segments (List.Subset.refl _) _).trans (by simp)

/-- The list of arguments is split at the commas between the paths. -/
theorem splitArguments_paths
    (hpaths : ∀ q ∈ p :: paths, Path.KeysClose q.segments ∧ q.Separable) :
    splitArguments .outside [] (' ' :: (p.chars ++ paths.flatMap fun q => [',', ' '] ++ q.chars)) =
      (p :: paths).map fun q => ' ' :: q.chars := by
  induction paths generalizing p with
  | nil =>
    obtain ⟨hp, hquotes⟩ := hpaths p List.mem_cons_self
    rw [splitArguments_cons fun _ => by decide, List.flatMap_nil]
    refine (splitArguments_path hp hquotes).trans ?_
    simp [splitArguments]
  | cons q paths ih =>
    obtain ⟨hp, hquotes⟩ := hpaths p List.mem_cons_self
    have hrest := ih (p := q) fun r hr => hpaths r (List.mem_cons_of_mem p hr)
    rw [splitArguments_cons fun _ => by decide]
    refine (splitArguments_path hp hquotes).trans ?_
    rw [List.flatMap_cons, List.append_assoc, List.cons_append, List.singleton_append,
      splitArguments.eq_2, hrest]
    simp

/-- Blanks after the arguments are not part of them. -/
theorem map_trim_splitArguments {state : ArgumentState} {blanks : List Char}
    (h : ∀ c ∈ blanks, Text.isBlank c) :
    (splitArguments state acc (cs ++ blanks)).map Text.trim =
      (splitArguments state acc cs).map Text.trim := by
  fun_induction splitArguments state acc cs with
  | case1 state acc =>
    -- blanks are no commas, so they all go to the last argument, even within quotes
    have hsplit (state : ArgumentState) (acc : List Char) :
        splitArguments state acc blanks = [acc.reverse ++ blanks] := by
      induction blanks generalizing state acc with
      | nil => rw [splitArguments, List.append_nil]
      | cons c blanks ih =>
        have hcomma : c ≠ ',' := by
          rintro rfl
          exact absurd (h ',' List.mem_cons_self) (by decide)
        rw [splitArguments_cons fun _ => hcomma, ih fun d hd => h d (List.mem_cons_of_mem c hd)]
        simp
    rw [List.nil_append, hsplit, List.map_singleton, List.map_singleton,
      Text.trim_append_blanks h]
  | case2 acc rest ih =>
    rw [List.cons_append, splitArguments.eq_2, List.map_cons, List.map_cons, ih]
  | case3 state acc c rest hstate ih =>
    rw [List.cons_append, splitArguments_cons hstate, ih]

/-- The arguments are read from what trimming leaves of each path. -/
theorem formatArguments_paths
    (hpaths : ∀ q ∈ paths, Path.KeysClose q.segments ∧ q.Separable) :
    formatArguments input (Text.trimEnd (paths.flatMap fun q => [',', ' '] ++ q.chars)) =
      paths.mapM fun q => Path.parse (String.ofList (Text.trim q.chars)) := by
  cases paths with
  | nil => rfl
  | cons p paths =>
    obtain ⟨list, hlist⟩ : ∃ list,
        list = ' ' :: (p.chars ++ paths.flatMap fun q => [',', ' '] ++ q.chars) := ⟨_, rfl⟩
    have hchars : ((p :: paths).flatMap fun q => [',', ' '] ++ q.chars) = ',' :: list := by
      simp [hlist]
    have htrim : Text.trim (Text.trimEnd (',' :: list)) = ',' :: Text.trimEnd list := by
      have hcomma : Text.trimEnd (',' :: list) = ',' :: Text.trimEnd list :=
        Text.trimEnd_append_cons [] (by decide) list
      rw [hcomma, Text.trim_cons (by decide), Text.trimEnd_trimEnd]
    have hsplit : (splitArguments .outside [] (Text.trimEnd list)).map Text.trim =
        (p :: paths).map fun q => Text.trim q.chars := by
      obtain ⟨blanks, hblanks, happend⟩ := Text.exists_trimEnd_append list
      rw [← map_trim_splitArguments hblanks, happend, hlist, splitArguments_paths hpaths,
        List.map_map]
      exact List.map_congr_left fun q _ => Text.trim_blank_cons (by decide) q.chars
    have hkeep : ((p :: paths).map fun q => Text.trim q.chars).filter (fun cs => !cs.isEmpty) =
        (p :: paths).map fun q => Text.trim q.chars := by
      rw [List.filter_eq_self]
      intro cs hcs
      obtain ⟨q, -, rfl⟩ := List.mem_map.mp hcs
      rw [Path.trim_chars]
      rfl
    rw [hchars, formatArguments, htrim]
    simp only [hsplit, hkeep, List.mapM_map, Function.comp_def]

/-! ### The call -/

theorem parseFormat_template {t : Template}
    (hpaths : ∀ q ∈ t.references, Path.KeysClose q.segments ∧ q.Separable) :
    parseFormat input ('\'' :: (t.parts.flatMap formatPartChars ++ '\'' ::
        Text.trimEnd (t.references.flatMap fun q => [',', ' '] ++ q.chars))) =
      ((t.references.mapM fun q => Path.parse (String.ofList (Text.trim q.chars))) >>= fun paths =>
        if t.references.length = paths.length then .ok ⟨joinPieces (pieces [] t.parts) paths⟩
        else .error (.malformed input
          (.placeholderCount t.references.length paths.length))) := by
  have hcount : (pieces [] t.parts).length - 1 = t.references.length :=
    congrArg (· - 1) length_pieces
  have harguments : formatArguments input
      (Text.trimEnd (t.references.flatMap fun q => [',', ' '] ++ q.chars)) =
        t.references.mapM fun q => Path.parse (String.ofList (Text.trim q.chars)) :=
    formatArguments_paths hpaths
  rw [← harguments, parseFormat, formatPieces_parts, ← hcount]
  rfl

/-- A template is read back from the argument of its call if and only if no blank at the end of a
path is trimmed. -/
theorem parseFormat_template_iff {t : Template} (ht : Normal t.parts)
    (hpaths : ∀ q ∈ t.references, Path.KeysClose q.segments ∧ q.Separable) :
    parseFormat input ('\'' :: (t.parts.flatMap formatPartChars ++ '\'' ::
      Text.trimEnd (t.references.flatMap fun q => [',', ' '] ++ q.chars))) = .ok t ↔
      ∀ q ∈ t.references, q.EndsFirmly := by
  have harguments : (t.references.mapM fun q => Path.parse (String.ofList (Text.trim q.chars))) =
      .ok t.references ↔ ∀ q ∈ t.references, q.EndsFirmly :=
    Except.mapM_eq_ok_self.trans
      (forall₂_congr fun q hq => Path.parse_trim_chars_iff (hpaths q hq).1)
  rw [parseFormat_template hpaths, ← harguments, Except.bind_eq_ok]
  constructor
  · -- the paths that were read are found among the parts, so they are the ones written
    rintro ⟨paths, hread, hok⟩
    split at hok
    · rename_i hlength
      have hplaces : (pieces [] t.parts).length - 1 = paths.length :=
        (congrArg (· - 1) length_pieces).trans hlength
      have hreferences : t.references = paths := by
        rw [← Except.ok.inj hok]
        exact partPaths_joinPieces hplaces
      rw [hread, hreferences]
    · cases hok
  · intro hread
    have hjoin : joinPieces (pieces [] t.parts) t.references = t.parts :=
      joinPieces_pieces ht (.inl rfl)
    exact ⟨t.references, hread, by rw [if_pos rfl, hjoin]⟩

/-- What is read from a call is normal. -/
theorem normal_of_parseFormat {t : Template} (h : parseFormat input cs = .ok t) :
    Normal t.parts := by
  unfold parseFormat at h
  split at h
  · obtain ⟨⟨pieces, after⟩, -, hrest⟩ := Except.bind_eq_ok.mp h
    obtain ⟨paths, -, hrest⟩ := Except.bind_eq_ok.mp hrest
    split at hrest
    · rename_i hcount
      obtain rfl := Except.ok.inj hrest
      exact normal_joinPieces hcount
    · cases hrest
  · cases h

theorem callArgument?_call (name : String) (inside : List Char) :
    callArgument? name (name.toList ++ '(' :: (inside ++ [')'])) = some (Text.trim inside) := by
  have hopen : Text.trimStart ('(' :: (inside ++ [')'])) = '(' :: (inside ++ [')']) := rfl
  have hafter : Text.afterStart? ['('] ('(' :: (inside ++ [')'])) = some (inside ++ [')']) :=
    Text.afterStart?_append ['('] _
  simp only [callArgument?, Text.afterStart?_append, hopen, hafter, Text.beforeEnd?_append, bind,
    Option.bind]
  rfl

end Expression

end Conveyor
