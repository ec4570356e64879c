import BranchSteer.Json.Token

/-!
The tokens of a document, the document of a token sequence, and the two written forms.

`Reader` holds the arrays and objects that are still open, so that a document of any depth is read in
one pass over its tokens. `compact` is the text of the tokens without any space between them, `pretty`
puts each item and each member on a line of its own.
-/

namespace BranchSteer.Json

mutual

def tokens : Json → List Token
  | .null => [.null]
  | .bool value => [.bool value]
  | .number value => [.number value]
  | .string text => [.string text]
  | .array items => .openArray :: (itemTokens items ++ [.closeArray])
  | .object members => .openObject :: (memberTokens members ++ [.closeObject])

def itemTokens : List Json → List Token
  | [] => []
  | [item] => item.tokens
  | item :: rest => item.tokens ++ .comma :: itemTokens rest

def memberTokens : List (Option String × Json) → List Token
  | [] => []
  | [(name, value)] => .string name :: .colon :: value.tokens
  | (name, value) :: rest =>
    .string name :: .colon :: (value.tokens ++ .comma :: memberTokens rest)

end

inductive Frame
  | items (before : List Json)
  | members (before : List (Option String × Json)) (name : Option String)

/-- What the reader waits for: a value, a member name, the colon behind a name, or the mark behind a
complete value. `mayClose` tells that nothing was read since the innermost array or object opened. -/
inductive Reader
  | atValue (stack : List Frame) (mayClose : Bool)
  | atName (stack : List Frame) (before : List (Option String × Json)) (mayClose : Bool)
  | atColon (stack : List Frame) (before : List (Option String × Json)) (name : Option String)
  | behindValue (stack : List Frame) (value : Json)

namespace Reader

def start : Reader := .atValue [] false

def next? : Reader → Token → Option Reader
  | .atValue stack _, .null => some (.behindValue stack .null)
  | .atValue stack _, .bool value => some (.behindValue stack (.bool value))
  | .atValue stack _, .number value => some (.behindValue stack (.number value))
  | .atValue stack _, .string text => some (.behindValue stack (.string text))
  | .atValue stack _, .openArray => some (.atValue (.items [] :: stack) true)
  | .atValue stack _, .openObject => some (.atName stack [] true)
  | .atValue (.items [] :: stack) true, .closeArray => some (.behindValue stack (.array []))
  | .atName stack before _, .string text => some (.atColon stack before text)
  | .atName stack _ true, .closeObject => some (.behindValue stack (.object []))
  | .atColon stack before name, .colon => some (.atValue (.members before name :: stack) false)
  | .behindValue (.items before :: stack) value, .comma =>
    some (.atValue (.items (value :: before) :: stack) false)
  | .behindValue (.items before :: stack) value, .closeArray =>
    some (.behindValue stack (.array (value :: before).reverse))
  | .behindValue (.members before name :: stack) value, .comma =>
    some (.atName stack ((name, value) :: before) false)
  | .behindValue (.members before name :: stack) value, .closeObject =>
    some (.behindValue stack (.object ((name, value) :: before).reverse))
  | _, _ => none

def document? : Reader → Option Json
  | .behindValue [] value => some value
  | _ => none

end Reader

def ofTokens? (tokens : List Token) : Option Json :=
  (tokens.foldlM Reader.next? Reader.start).bind Reader.document?

def parse? (text : String) : Option Json :=
  (scan text.toList).bind ofTokens?

def compactCharacters (document : Json) : List Char := document.tokens.flatMap Token.text

def compact (document : Json) : String := String.ofList document.compactCharacters

def lineBreak (depth : Nat) : List Char := '\n' :: List.replicate (2 * depth) ' '

mutual

def prettyCharacters (depth : Nat) : Json → List Char
  | .array (item :: rest) =>
    '[' :: (prettyItems (depth + 1) (item :: rest) ++ lineBreak depth ++ [']'])
  | .object (member :: rest) =>
    '\x7b' :: (prettyMembers (depth + 1) (member :: rest) ++ lineBreak depth ++ ['\x7d'])
  | .array [] => ['[', ']']
  | .object [] => ['\x7b', '\x7d']
  | .null => Token.null.text
  | .bool value => (Token.bool value).text
  | .number value => (Token.number value).text
  | .string text => (Token.string text).text

def prettyItems (depth : Nat) : List Json → List Char
  | [] => []
  | [item] => lineBreak depth ++ item.prettyCharacters depth
  | item :: rest => lineBreak depth ++ item.prettyCharacters depth ++ ',' :: prettyItems depth rest

def prettyMembers (depth : Nat) : List (Option String × Json) → List Char
  | [] => []
  | [(name, value)] =>
    lineBreak depth ++ (Token.string name).text ++ [':', ' '] ++ value.prettyCharacters depth
  | (name, value) :: rest =>
    lineBreak depth ++ (Token.string name).text ++ [':', ' '] ++ value.prettyCharacters depth ++
      ',' :: prettyMembers depth rest

end

def pretty (document : Json) : String := String.ofList (document.prettyCharacters 0)

end BranchSteer.Json
