import BranchSteer.Json.Basic

/-!
The tokens of a JSON document and their text.

`Token.text` writes one token, `Scanner` reads a text one character at a time. A string ends with its
own quote and a punctuation mark stands for itself; only a number or a word can run into what follows,
and two of them are never neighbours in a document.
-/

namespace BranchSteer.Json

inductive Token
  | openArray
  | closeArray
  | openObject
  | closeObject
  | comma
  | colon
  | null
  | bool (value : Bool)
  | number (value : Number)
  | string (text : Option String)
deriving DecidableEq, Repr

/-- A part of a string between its quotes: a character that stands for itself or the number given by
a `\u` escape. -/
inductive Piece
  | character (value : Char)
  | unit (value : Nat)
deriving DecidableEq, Repr

namespace Piece

def isHighSurrogate (value : Nat) : Bool := 0xD800 ≤ value && value < 0xDC00

def isLowSurrogate (value : Nat) : Bool := 0xDC00 ≤ value && value < 0xE000

def decode : List Piece → Option (List Char)
  | [] => some []
  | .character value :: rest => (decode rest).map (value :: ·)
  | .unit high :: .unit low :: rest =>
    if isHighSurrogate high then
      if isLowSurrogate low then
        (decode rest).map (Char.ofNat (0x10000 + (high - 0xD800) * 0x400 + (low - 0xDC00)) :: ·)
      else none
    else if isLowSurrogate high then none
    else (decode (.unit low :: rest)).map (Char.ofNat high :: ·)
  | .unit value :: rest =>
    if isHighSurrogate value || isLowSurrogate value then none
    else (decode rest).map (Char.ofNat value :: ·)

end Piece

def hexDigit? (character : Char) : Option Nat :=
  if '0' ≤ character ∧ character ≤ '9' then some (character.toNat - '0'.toNat)
  else if 'a' ≤ character ∧ character ≤ 'f' then some (character.toNat - 'a'.toNat + 10)
  else if 'A' ≤ character ∧ character ≤ 'F' then some (character.toNat - 'A'.toNat + 10)
  else none

def shortEscape? : Char → Option Char
  | '"' => some '"'
  | '\\' => some '\\'
  | '/' => some '/'
  | 'b' => some '\x08'
  | 'f' => some '\x0c'
  | 'n' => some '\n'
  | 'r' => some '\r'
  | 't' => some '\t'
  | _ => none

def escape (character : Char) : List Char :=
  match character with
  | '"' => ['\\', '"']
  | '\\' => ['\\', '\\']
  | '\x08' => ['\\', 'b']
  | '\x0c' => ['\\', 'f']
  | '\n' => ['\\', 'n']
  | '\r' => ['\\', 'r']
  | '\t' => ['\\', 't']
  | other =>
    if other.toNat < 0x20 then
      ['\\', 'u', '0', '0', Nat.digitChar (other.toNat / 16), Nat.digitChar (other.toNat % 16)]
    else [other]

namespace Number

/-- The value of the first digits, as many as 64 bits can hold, and the number of all others. -/
def leadingValue (digits : List Char) : Nat × Nat :=
  digits.foldl (fun (leading : Nat × Nat) digit =>
    let value := leading.1 * 10 + (digit.toNat - '0'.toNat)
    if leading.2 = 0 ∧ value < 0x10000000000000000 then (value, 0)
    else (leading.1, leading.2 + 1)) (0, 0)

/-- The value of a text of at least one digit. One that 64 bits cannot hold is cut off, where it is
still far larger than any power of ten that matters. -/
def power? (characters : List Char) : Option Nat :=
  if characters ≠ [] ∧ characters.all Char.isDigit then some (leadingValue characters).1 else none

def exponentOf? : List Char → Option Int
  | '-' :: digits => (power? digits).map fun value => -(value : Int)
  | '+' :: digits => (power? digits).map fun value => (value : Int)
  | digits => (power? digits).map fun value => (value : Int)

def fractionOf? (negative : Bool) (whole : List Char) (rest : List Char) : Option Number :=
  match rest with
  | [] =>
    let (significand, dropped) := leadingValue whole
    some ⟨negative, significand, if dropped = 0 then none else some dropped⟩
  | '.' :: rest =>
    let fraction := rest.takeWhile Char.isDigit
    if fraction = [] then none
    else
      let (significand, dropped) := leadingValue (whole ++ fraction)
      match rest.dropWhile Char.isDigit with
      | [] => some ⟨negative, significand, some (dropped - fraction.length)⟩
      | letter :: exponent =>
        if letter = 'e' ∨ letter = 'E' then
          (exponentOf? exponent).map fun power =>
            ⟨negative, significand, some (power + dropped - fraction.length)⟩
        else none
  | letter :: exponent =>
    if letter = 'e' ∨ letter = 'E' then
      let (significand, dropped) := leadingValue whole
      (exponentOf? exponent).map fun power => ⟨negative, significand, some (power + dropped)⟩
    else none

def wholeOf? (negative : Bool) (characters : List Char) : Option Number :=
  let whole := characters.takeWhile Char.isDigit
  if whole = [] ∨ (whole.head? = some '0' ∧ whole ≠ ['0']) then none
  else fractionOf? negative whole (characters.dropWhile Char.isDigit)

def ofCharacters? : List Char → Option Number
  | '-' :: characters => wholeOf? true characters
  | characters => wholeOf? false characters

def text (number : Number) : List Char :=
  (if number.negative then ['-'] else []) ++ Nat.toDigits 10 number.significand ++
    match number.exponent with
    | none => []
    | some exponent =>
      'e' :: (if exponent < 0 then ['-'] else []) ++ Nat.toDigits 10 exponent.natAbs

end Number

def Token.text : Token → List Char
  | .openArray => ['[']
  | .closeArray => [']']
  | .openObject => ['{']
  | .closeObject => ['}']
  | .comma => [',']
  | .colon => [':']
  | .null => ['n', 'u', 'l', 'l']
  | .bool true => ['t', 'r', 'u', 'e']
  | .bool false => ['f', 'a', 'l', 's', 'e']
  | .number value => value.text
  | .string text => '"' :: ((text.getD "").toList.flatMap escape ++ ['"'])

inductive Mode
  | between
  | word (letters : List Char)
  | number (characters : List Char)
  | string (pieces : List Piece)
  | escape (pieces : List Piece)
  | unit (pieces : List Piece) (missing : Nat) (value : Nat)
deriving DecidableEq, Repr

structure Scanner where
  mode : Mode
  tokens : List Token
deriving Repr

namespace Scanner

def start : Scanner := ⟨.between, []⟩

def isBlank (character : Char) : Bool :=
  character = ' ' || character = '\t' || character = '\n' || character = '\r'

def isNumeric (character : Char) : Bool :=
  character.isDigit || character = '-' || character = '+' || character = '.' ||
    character = 'e' || character = 'E'

def wordToken? (letters : List Char) : Option Token :=
  if letters = ['l', 'l', 'u', 'n'] then some .null
  else if letters = ['e', 'u', 'r', 't'] then some (.bool true)
  else if letters = ['e', 's', 'l', 'a', 'f'] then some (.bool false)
  else none

def mark? : Char → Option Token
  | '[' => some .openArray
  | ']' => some .closeArray
  | '{' => some .openObject
  | '}' => some .closeObject
  | ',' => some .comma
  | ':' => some .colon
  | _ => none

def begin? (tokens : List Token) (character : Char) : Option Scanner :=
  match mark? character with
  | some token => some ⟨.between, token :: tokens⟩
  | none =>
    if isBlank character then some ⟨.between, tokens⟩
    else if character = '"' then some ⟨.string [], tokens⟩
    else if character = '-' || character.isDigit then some ⟨.number [character], tokens⟩
    else if character.isLower then some ⟨.word [character], tokens⟩
    else none

def complete? (scanner : Scanner) : Option (List Token) :=
  match scanner.mode with
  | .between => some scanner.tokens
  | .word letters => (wordToken? letters).map (· :: scanner.tokens)
  | .number characters =>
    (Number.ofCharacters? characters.reverse).map (.number · :: scanner.tokens)
  | _ => none

def next? (scanner : Scanner) (character : Char) : Option Scanner :=
  match scanner.mode with
  | .between => begin? scanner.tokens character
  | .word letters =>
    if character.isLower then some ⟨.word (character :: letters), scanner.tokens⟩
    else scanner.complete?.bind (begin? · character)
  | .number characters =>
    if isNumeric character then some ⟨.number (character :: characters), scanner.tokens⟩
    else scanner.complete?.bind (begin? · character)
  | .string pieces =>
    if character = '"' then
      some ⟨.between, .string ((Piece.decode pieces.reverse).map String.ofList) :: scanner.tokens⟩
    else if character = '\\' then some ⟨.escape pieces, scanner.tokens⟩
    else if character.toNat < 0x20 then none
    else some ⟨.string (.character character :: pieces), scanner.tokens⟩
  | .escape pieces =>
    if character = 'u' then some ⟨.unit pieces 4 0, scanner.tokens⟩
    else (shortEscape? character).map fun value =>
      ⟨.string (.character value :: pieces), scanner.tokens⟩
  | .unit pieces missing value =>
    (hexDigit? character).map fun digit =>
      if missing ≤ 1 then ⟨.string (.unit (value * 16 + digit) :: pieces), scanner.tokens⟩
      else ⟨.unit pieces (missing - 1) (value * 16 + digit), scanner.tokens⟩

end Scanner

def scan (characters : List Char) : Option (List Token) := do
  let scanner ← characters.foldlM Scanner.next? Scanner.start
  let tokens ← scanner.complete?
  return tokens.reverse

end BranchSteer.Json
