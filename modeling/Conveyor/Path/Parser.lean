import Conveyor.Path.Basic
import Conveyor.Text.Blank

/-!
# Reading paths

`Path.parse` reads the text of a path. Blanks around it are left out. A key after a point ends at
the next point or bracket; a key between quotes of either kind may hold anything, its own quote
after a backslash.
-/

namespace Conveyor

namespace Path

/-- Whether a character ends a key after a point. -/
def endsKey (c : Char) : Bool :=
  c = '.' || c = '['

/-- Reads a key up to its closing quote, for the characters of it read so far; gives the key and
what follows the quote. -/
def quotedKey? (quote : Char) (acc : List Char) : List Char → Option (List Char × List Char)
  | [] => none
  | [c] => if c = quote then some (acc.reverse, []) else none
  | c :: d :: rest =>
    if c = '\\' ∧ d = quote then quotedKey? quote (quote :: acc) rest
    else if c = quote then some (acc.reverse, d :: rest)
    else quotedKey? quote (c :: acc) (d :: rest)

/-- What follows a quoted key is shorter than what was read. -/
theorem length_lt_of_quotedKey? {quote : Char} {acc cs key rest : List Char}
    (h : quotedKey? quote acc cs = some (key, rest)) : rest.length < cs.length := by
  fun_induction quotedKey? quote acc cs with
  | case1 | case3 => simp at h
  | case2 | case5 => simp only [Option.some.injEq, Prod.mk.injEq] at h; simp [← h.2]
  | case4 _ _ _ _ _ ih | case6 _ _ _ _ _ _ ih =>
    have := ih h
    simp only [List.length_cons] at *
    omega

theorem length_dropWhile_le (f : α → Bool) (cs : List α) :
    (cs.dropWhile f).length ≤ cs.length :=
  (List.dropWhile_suffix f).length_le

/-- Reads the segments of a path. -/
def parseSegments : List Char → Except SyntaxFault (List Segment)
  | [] => .ok []
  | '.' :: rest =>
    let name := rest.takeWhile (!endsKey ·)
    if name.isEmpty then .error .emptyKey
    else do
      let segments ← parseSegments (rest.dropWhile (!endsKey ·))
      return .key (String.ofList name) :: segments
  | '[' :: c :: rest =>
    if c = '\'' ∨ c = '"' then
      match _h : quotedKey? c [] rest with
      | none => .error .unterminatedKey
      | some (name, ']' :: rest') => do
        let segments ← parseSegments rest'
        return .key (String.ofList name) :: segments
      | some (_, _) => .error .unclosedKey
    else
      match _h : (c :: rest).dropWhile (· != ']') with
      | [] => .error .unterminatedIndex
      | _ :: rest' =>
        match Decimal.readWord? (Text.trim ((c :: rest).takeWhile (· != ']'))) with
        | none => .error .invalidIndex
        | some i => do
          let segments ← parseSegments rest'
          return .index i :: segments
  | ['['] => .error .unterminatedIndex
  | _ :: _ => .error .strayText
termination_by cs => cs.length
decreasing_by
  · have := length_dropWhile_le (!endsKey ·) rest
    simp only [List.length_cons]; omega
  · have := length_lt_of_quotedKey? _h
    simp only [List.length_cons] at *; omega
  · have := length_dropWhile_le (· != ']') (c :: rest)
    rw [_h] at this
    simp only [List.length_cons] at *; omega

/-- Reads a path from characters. -/
def parseChars (cs : List Char) : Except SyntaxFault Path :=
  match Text.trim cs with
  | '$' :: rest => (parseSegments rest).map Path.mk
  | _ => .error .missingRoot

/-- Reads the text of a path. -/
def parse (text : String) : Except PathError Path :=
  (parseChars text.toList).mapError (.malformed text)

end Path

end Conveyor
