import IndexedCodebook.Yaml.Token

/-!
# YAML nodes

A node is a scalar, a sequence, a mapping, or an alias of another node. Anchors give nodes numbers,
and an alias holds a number. A name that is given for the first time takes the next number; so does
a name that is given again, but then the number is not used up, and the next new name takes it too.

Source: the nodes and anchors of `serde_yaml`, read by `quant/config` 200.
-/

namespace IndexedCodebook.Yaml

/-- A scalar with its full tag. -/
structure Scalar where
  style : ScalarStyle
  tag : Option (List Char)
  text : List Char
  deriving DecidableEq, Repr

/-- A node of a document. -/
inductive Node where
  | scalar (s : Scalar)
  | sequence (items : List Node)
  | mapping (pairs : List (Node × Node))
  | alias (number : Nat)
  deriving Repr

namespace Node

/-- The node of an empty place. -/
def empty : Node := .scalar ⟨.plain, none, []⟩

end Node

/-- The anchors of a text so far. -/
structure Anchors where
  /-- The number of each name. -/
  numbers : List (List Char × Nat) := []
  /-- The nodes by number, the latest first; a collection is not told apart from others. -/
  nodes : List (Nat × Option Scalar) := []

namespace Anchors

/-- Give a node its name, if it has one. -/
def add (a : Anchors) (name : Option (List Char)) (node : Option Scalar) : Anchors :=
  match name with
  | none => a
  | some name =>
      let number := a.numbers.length
      ⟨(name, number) :: a.numbers.filter (·.1 ≠ name), (number, node) :: a.nodes⟩

/-- The alias of a name, if the name is known. -/
def alias? (a : Anchors) (name : List Char) : Option Node := .alias <$> a.numbers.lookup name

end Anchors

/-- What tag handles stand for. -/
abbrev Handles := List (List Char × List Char)

namespace Handles

/-- The handles that stand for something without a directive. -/
def standard : Handles := [("!".toList, "!".toList), ("!!".toList, "tag:yaml.org,2002:".toList)]

/-- The handles of a document with the given directives. The version may be stated once and is 1.1
or 1.2, and a handle may be stated once. -/
def ofDirectives? (directives : List Directive) : Option Handles :=
  let versions := directives.filterMap fun
    | .version major minor => some (major, minor)
    | .handle .. => none
  let handles := directives.filterMap fun
    | .version .. => none
    | .handle name expansion => some (name, expansion)
  if 1 < versions.length ∨ !versions.all (fun v ↦ v == (1, 1) || v == (1, 2)) then none
  else if (handles.map (·.1)).Nodup then some (handles ++ standard)
  else none

/-- The full tag of a node; a handle that was not stated refuses the text. -/
def fullTag? (handles : Handles) : Option Tag → Option (Option (List Char))
  | none => some none
  | some t =>
      if t.handle.isEmpty then some (some t.suffix)
      else do return some ((← handles.lookup t.handle) ++ t.suffix)

end Handles

end IndexedCodebook.Yaml
