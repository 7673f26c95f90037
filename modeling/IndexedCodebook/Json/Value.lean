import IndexedCodebook.Json.Token

/-!
# JSON values

`Value.parse?` reads a whole text as one value. Values may nest to any depth. The fields of an
object keep their order, and one name may occur several times; what that means is for the reader of
the value to say.

Source: the texts that `serde_json` reads for `quant/config` 188.
-/

namespace IndexedCodebook.Json

/-- A JSON value. -/
inductive Value where
  | null
  | bool (b : Bool)
  | number (n : Number)
  | string (text : Option (List Char))
  | array (items : List Value)
  | object (fields : List (Option (List Char) × Value))
  deriving Repr

namespace Value

mutual

/-- A value at the start of some tokens, and the tokens after it. -/
def ofTokens : Nat → List Token → Option (Value × List Token)
  | 0, _ => none
  | _ + 1, .null :: rest => some (.null, rest)
  | _ + 1, .true :: rest => some (.bool true, rest)
  | _ + 1, .false :: rest => some (.bool false, rest)
  | _ + 1, .number n :: rest => some (.number n, rest)
  | _ + 1, .string s :: rest => some (.string s, rest)
  | _ + 1, .openBracket :: .closeBracket :: rest => some (.array [], rest)
  | fuel + 1, .openBracket :: rest => do
      let (items, rest) ← itemsOfTokens fuel rest
      return (.array items, rest)
  | _ + 1, .openBrace :: .closeBrace :: rest => some (.object [], rest)
  | fuel + 1, .openBrace :: rest => do
      let (fields, rest) ← fieldsOfTokens fuel rest
      return (.object fields, rest)
  | _ + 1, _ => none

/-- The items of an array after its opening bracket, and the tokens after the closing one. -/
def itemsOfTokens : Nat → List Token → Option (List Value × List Token)
  | 0, _ => none
  | fuel + 1, tokens => do
      let (item, rest) ← ofTokens fuel tokens
      match rest with
      | .comma :: rest =>
          let (items, rest) ← itemsOfTokens fuel rest
          return (item :: items, rest)
      | .closeBracket :: rest => return ([item], rest)
      | _ => none

/-- The fields of an object after its opening brace, and the tokens after the closing one. -/
def fieldsOfTokens : Nat → List Token → Option (List (Option (List Char) × Value) × List Token)
  | fuel + 1, .string name :: .colon :: tokens => do
      let (value, rest) ← ofTokens fuel tokens
      match rest with
      | .comma :: rest =>
          let (fields, rest) ← fieldsOfTokens fuel rest
          return ((name, value) :: fields, rest)
      | .closeBrace :: rest => return ([(name, value)], rest)
      | _ => none
  | _, _ => none

end

/-- The value of a whole text. Two steps are taken for each token at most. -/
def parse? (text : List Char) : Option Value := do
  let tokens ← tokens? text
  match ← ofTokens (2 * tokens.length + 1) tokens with
  | (value, []) => return value
  | _ => none

end Value

end IndexedCodebook.Json
