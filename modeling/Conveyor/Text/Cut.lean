/-!
# Cutting texts

Taking a known beginning or end off a text, and cutting a text at the first place where a
character stands.
-/

namespace Conveyor

namespace Text

/-- What follows `start` in a text that begins with it. -/
def afterStart? [BEq α] : (start text : List α) → Option (List α)
  | [], text => some text
  | _ :: _, [] => none
  | a :: start, b :: text => if a == b then afterStart? start text else none

/-- What precedes `tail` in a text that ends with it. -/
def beforeEnd? [BEq α] (tail text : List α) : Option (List α) :=
  (afterStart? tail.reverse text.reverse).map List.reverse

/-- The two parts around the first place where `c` stands. -/
def cutAt? (c : Char) : List Char → Option (List Char × List Char)
  | [] => none
  | d :: text =>
    if d == c then some ([], text)
    else (cutAt? c text).map fun (before, after) => (d :: before, after)

end Text

end Conveyor
