import IndexedCodebook.Yaml.Node
import IndexedCodebook.Yaml.Scan

/-!
# YAML trees

A document is one node, with the nodes that its aliases mean: an alias means the node that was last
given its number, wherever in the document that is. `Tree.parse?` reads a text of at most one
document.

Source: the texts that `serde_yaml` reads for `quant/config` 200.
-/

namespace IndexedCodebook.Yaml

/-- Anchor and tag in front of a node. -/
structure Properties where
  anchor : Option (List Char) := none
  tag : Option Tag := none

namespace Properties

/-- The properties at the start of some tokens, in either order, and the tokens after them. -/
def ofTokens : List Token → Properties × List Token
  | .anchor name :: .tag t :: rest => (⟨some name, some t⟩, rest)
  | .tag t :: .anchor name :: rest => (⟨some name, some t⟩, rest)
  | .anchor name :: rest => (⟨some name, none⟩, rest)
  | .tag t :: rest => (⟨none, some t⟩, rest)
  | tokens => (⟨none, none⟩, tokens)

end Properties

namespace Node

/-- Where a node stands: in block context or not, and whether the items of a sequence may stand
there without more indentation. -/
inductive Place where
  | flow
  | block
  | blockValue
  deriving DecidableEq, Repr

/-- A place is empty if one of some tokens follows. -/
def isEmptyPlace (ends : List Token) (tokens : List Token) : Bool := tokens.head?.any ends.contains

/-- The place after part of a document: the anchors before it and the tokens that follow. -/
abbrev State := Anchors × List Token

/-- Tokens that show an item of an unindented sequence or a value of a block mapping to be empty. -/
def afterBlockPlace : List Token := [.key, .value, .blockEnd]

mutual

/-- The node at the start of some tokens. -/
def ofTokens (handles : Handles) : Nat → Place → Anchors → List Token → Option (Node × State)
  | 0, _, _, _ => none
  | _ + 1, _, anchors, .alias name :: rest => do return (← anchors.alias? name, anchors, rest)
  | fuel + 1, place, anchors, tokens => do
      let (p, tokens) := Properties.ofTokens tokens
      let tag ← handles.fullTag? p.tag
      let inside := anchors.add p.anchor none
      match tokens with
      | .scalar style text :: rest =>
          let s : Scalar := ⟨style, tag, text⟩
          return (.scalar s, anchors.add p.anchor s, rest)
      | .flowSequenceStart :: rest => do
          let (items, state) ← flowItems handles fuel true inside rest
          return (.sequence items, state)
      | .flowMappingStart :: rest => do
          let (pairs, state) ← flowPairs handles fuel true inside rest
          return (.mapping pairs, state)
      | .blockSequenceStart :: rest =>
          if place = .flow then none
          else do
            let (items, state) ← blockItems handles fuel inside rest
            return (.sequence items, state)
      | .blockMappingStart :: rest =>
          if place = .flow then none
          else do
            let (pairs, state) ← blockPairs handles fuel inside rest
            return (.mapping pairs, state)
      | tokens =>
          if place = .blockValue ∧ tokens.head? = some .blockEntry then do
            let (items, state) ← unindentedItems handles fuel inside tokens
            return (.sequence items, state)
          else if p.anchor.isSome ∨ p.tag.isSome then
            let s : Scalar := ⟨.plain, tag, []⟩
            return (.scalar s, anchors.add p.anchor s, tokens)
          else none

/-- A node, or an empty one before one of some tokens. -/
def orEmpty (handles : Handles) :
    Nat → Place → List Token → Anchors → List Token → Option (Node × State)
  | 0, _, _, _, _ => none
  | fuel + 1, place, ends, anchors, tokens =>
      if isEmptyPlace ends tokens then some (empty, anchors, tokens)
      else ofTokens handles fuel place anchors tokens

/-- The items of a block sequence. -/
def blockItems (handles : Handles) : Nat → Anchors → List Token → Option (List Node × State)
  | fuel + 1, anchors, .blockEntry :: rest => do
      let (item, anchors, rest) ← orEmpty handles fuel .block [.blockEntry, .blockEnd] anchors rest
      let (items, state) ← blockItems handles fuel anchors rest
      return (item :: items, state)
  | _ + 1, anchors, .blockEnd :: rest => some ([], anchors, rest)
  | _, _, _ => none

/-- The items of a sequence that is not indented more than the mapping it is a value of; it ends
before anything that is not an item. -/
def unindentedItems (handles : Handles) : Nat → Anchors → List Token → Option (List Node × State)
  | 0, _, _ => none
  | fuel + 1, anchors, .blockEntry :: rest => do
      let (item, anchors, rest) ←
        orEmpty handles fuel .block (.blockEntry :: afterBlockPlace) anchors rest
      let (items, state) ← unindentedItems handles fuel anchors rest
      return (item :: items, state)
  | _ + 1, anchors, tokens => some ([], anchors, tokens)

/-- The pairs of a block mapping. -/
def blockPairs (handles : Handles) :
    Nat → Anchors → List Token → Option (List (Node × Node) × State)
  | fuel + 1, anchors, .key :: rest => do
      let (key, anchors, rest) ← orEmpty handles fuel .blockValue afterBlockPlace anchors rest
      let (value, anchors, rest) ← match rest with
        | .value :: rest => orEmpty handles fuel .blockValue afterBlockPlace anchors rest
        | rest => some (empty, anchors, rest)
      let (pairs, state) ← blockPairs handles fuel anchors rest
      return ((key, value) :: pairs, state)
  | _ + 1, anchors, .blockEnd :: rest => some ([], anchors, rest)
  | _, _, _ => none

/-- The items of a flow sequence; but for the first, a comma stands before each. An item with a key
mark or a colon is a mapping of one pair, and its empty key takes up the token after the mark. -/
def flowItems (handles : Handles) : Nat → Bool → Anchors → List Token → Option (List Node × State)
  | _ + 1, _, anchors, .flowSequenceEnd :: rest => some ([], anchors, rest)
  | fuel + 1, isFirst, anchors, tokens => do
      let tokens ← match isFirst, tokens with
        | true, tokens => some tokens
        | false, .flowEntry :: rest => some rest
        | false, _ => none
      match tokens with
      | .flowSequenceEnd :: rest => return ([], anchors, rest)
      | .key :: rest => do
          let ends : List Token := [.flowEntry, .flowSequenceEnd]
          let (key, anchors, rest) ←
            if isEmptyPlace (.value :: ends) rest then some (empty, anchors, rest.tail)
            else ofTokens handles fuel .flow anchors rest
          let (value, anchors, rest) ← match rest with
            | .value :: rest => orEmpty handles fuel .flow ends anchors rest
            | rest => some (empty, anchors, rest)
          let (items, state) ← flowItems handles fuel false anchors rest
          return (.mapping [(key, value)] :: items, state)
      | tokens => do
          let (item, anchors, rest) ← ofTokens handles fuel .flow anchors tokens
          let (items, state) ← flowItems handles fuel false anchors rest
          return (item :: items, state)
  | 0, _, _, _ => none

/-- The pairs of a flow mapping; but for the first, a comma stands before each. A key without a mark
or a colon has an empty value. -/
def flowPairs (handles : Handles) :
    Nat → Bool → Anchors → List Token → Option (List (Node × Node) × State)
  | _ + 1, _, anchors, .flowMappingEnd :: rest => some ([], anchors, rest)
  | fuel + 1, isFirst, anchors, tokens => do
      let tokens ← match isFirst, tokens with
        | true, tokens => some tokens
        | false, .flowEntry :: rest => some rest
        | false, _ => none
      match tokens with
      | .flowMappingEnd :: rest => return ([], anchors, rest)
      | .key :: rest => do
          let ends : List Token := [.flowEntry, .flowMappingEnd]
          let (key, anchors, rest) ← orEmpty handles fuel .flow (.value :: ends) anchors rest
          let (value, anchors, rest) ← match rest with
            | .value :: rest => orEmpty handles fuel .flow ends anchors rest
            | rest => some (empty, anchors, rest)
          let (pairs, state) ← flowPairs handles fuel false anchors rest
          return ((key, value) :: pairs, state)
      | tokens => do
          let (key, anchors, rest) ← ofTokens handles fuel .flow anchors tokens
          let (pairs, state) ← flowPairs handles fuel false anchors rest
          return ((key, empty) :: pairs, state)
  | 0, _, _, _ => none

end

end Node

/-- A document: its root, and the nodes with a number, the latest first. -/
structure Tree where
  root : Node
  nodes : List (Nat × Option Scalar)

namespace Tree

/-- The scalar that a node of the tree is or means. -/
def scalar? (t : Tree) : Node → Option Scalar
  | .scalar s => some s
  | .alias number => (t.nodes.lookup number).join
  | _ => none

/-- The tree of a node that some tokens begin with, and the tokens after it. Every two tokens take
three steps at most. -/
def ofContent? (handles : Handles) (tokens : List Token) : Option (Tree × List Token) := do
  let (root, anchors, rest) ← Node.ofTokens handles (3 * tokens.length + 3) .block {} tokens
  return (⟨root, anchors.nodes⟩, rest)

/-- The tree of an empty document. -/
def empty : Tree := ⟨.empty, []⟩

/-- The document at the start of some tokens, and the tokens after it. A text without tokens is an
empty document, and so is a start marker that no node follows. -/
def ofTokens? (tokens : List Token) : Option (Tree × List Token) := do
  let (stated, rest) := Directive.ofTokens tokens
  let handles ← Handles.ofDirectives? stated
  match rest with
  | .documentStart :: rest =>
      if rest.isEmpty ∨ rest.head?.any Token.isFrame then return (empty, rest)
      else ofContent? handles rest
  | [] => if stated.isEmpty then return (empty, []) else none
  | rest => if stated.isEmpty then ofContent? handles rest else none

/-- The tree of a text of at most one document; only end markers may follow it. -/
def parse? (text : List Char) : Option Tree := do
  let (tree, rest) ← ofTokens? (← tokens? text)
  if rest.all (· == .documentEnd) then return tree else none

end Tree

end IndexedCodebook.Yaml
