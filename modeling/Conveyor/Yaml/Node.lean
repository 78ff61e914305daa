import Conveyor.Yaml.Token

/-!
# Documents of YAML

A document is a tree of nodes. A text with an error is read as far as it goes: the tree is then cut
at a node `broken`, behind which nothing counts, and the error is kept with the tree.
-/

namespace Conveyor.Yaml

/-- What stands before a node. -/
structure Header where
  /-- The place where the node begins. -/
  mark : Mark
  /-- The number of its anchor. -/
  anchor : Option Nat
  /-- The full name of its tag. -/
  tag : Option String
  deriving DecidableEq, Repr

/-- A header with a place only. -/
def Header.at (mark : Mark) : Header := ⟨mark, none, none⟩

/-- A node of a document. -/
inductive Node where
  | scalar (header : Header) (text : String) (style : ScalarStyle)
  /-- Stands for the node with an anchor. -/
  | alias (mark : Mark) (anchor : Nat)
  | sequence (header : Header) (items : List Node)
  | mapping (header : Header) (entries : List (Node × Node))
  /-- The text is cut here. -/
  | broken
  deriving Repr

namespace Node

/-- A scalar that is not written. -/
def empty (header : Header) : Node :=
  .scalar header "" .plain

/-- The number of the anchor of a node, and the node. -/
def anchored (header : Header) (node : Node) : List (Nat × Node) :=
  (header.anchor.map fun n => (n, node)).toList

mutual

/-- The nodes with anchors inside a node and itself, in the order of the text. -/
def anchors : Node → List (Nat × Node)
  | node@(.scalar header _ _) => anchored header node
  | .alias _ _ => []
  | node@(.sequence header items) => anchored header node ++ itemAnchors items
  | node@(.mapping header entries) => anchored header node ++ entryAnchors entries
  | .broken => []

/-- The nodes with anchors inside the items of a sequence. -/
def itemAnchors : List Node → List (Nat × Node)
  | [] => []
  | item :: items => anchors item ++ itemAnchors items

/-- The nodes with anchors inside the entries of a mapping. -/
def entryAnchors : List (Node × Node) → List (Nat × Node)
  | [] => []
  | (key, value) :: entries => anchors key ++ anchors value ++ entryAnchors entries

end

mutual

/-- The number of beginnings and ends of nodes; a scalar counts once. -/
def size : Node → Nat
  | .scalar .. => 1
  | .alias .. => 1
  | .sequence _ items => itemsSize items + 2
  | .mapping _ entries => entriesSize entries + 2
  | .broken => 0

/-- The size of the items of a sequence. -/
def itemsSize : List Node → Nat
  | [] => 0
  | item :: items => size item + itemsSize items

/-- The size of the entries of a mapping. -/
def entriesSize : List (Node × Node) → Nat
  | [] => 0
  | (key, value) :: entries => size key + size value + entriesSize entries

end

mutual

/-- Whether the text is not cut inside a node. -/
def isWhole : Node → Bool
  | .scalar .. => true
  | .alias .. => true
  | .sequence _ items => itemsWhole items
  | .mapping _ entries => entriesWhole entries
  | .broken => false

/-- Whether the text is not cut inside the items of a sequence. -/
def itemsWhole : List Node → Bool
  | [] => true
  | item :: items => isWhole item && itemsWhole items

/-- Whether the text is not cut inside the entries of a mapping. -/
def entriesWhole : List (Node × Node) → Bool
  | [] => true
  | (key, value) :: entries => isWhole key && isWhole value && entriesWhole entries

end

end Node

/-- The first document of a text. -/
structure Document where
  /-- The outermost node; none if the text holds nothing. -/
  root : Option Node
  /-- The place where a text that holds nothing ends. -/
  stop : Mark
  /-- What is wrong with the document. -/
  error : Option SyntaxError
  /-- Whether something follows that is not the end of the text. -/
  more : Bool
  deriving Repr

end Conveyor.Yaml
