import TypedForest.Json.Basic

/-!
# JSON tokens

A JSON text is a sequence of tokens with blanks between them.  Scanning runs a
small automaton over the characters, so it is a fold and needs no measure; the
state holds the tokens found so far and what the current token looks like.

## Main Definitions

* `Token`: brackets, separators and atoms.
* `Token.chars`: the characters of a token.
* `Scan`, `Scan.step`: the automaton.
* `Token.scan?`: the tokens of a text.

## Design Notes

Numbers and the words `null`, `true` and `false` are collected up to the next
character that cannot belong to them and are judged as a whole.  Two such words
without a separator are therefore one bad word, which is as good as two tokens
where only one may stand.
-/

namespace TypedForest

/-- A lexical element of a JSON text. -/
inductive Token where
  | beginArray
  | endArray
  | beginObject
  | endObject
  | comma
  | colon
  | atom (a : Json.Atom)
deriving DecidableEq, Repr

namespace Token

/-! ### Characters of tokens -/

/-- Four hexadecimal digits. -/
def hexFour (n : Nat) : List Char :=
  let ds := Nat.toDigits 16 n
  List.replicate (4 - ds.length) '0' ++ ds

/-- One character inside a JSON string.  Only quotes, backslashes and control
characters are escaped. -/
def charChars (c : Char) : List Char :=
  if c = '"' then ['\\', '"']
  else if c = '\\' then ['\\', '\\']
  else if c = '\x08' then ['\\', 'b']
  else if c = '\x0c' then ['\\', 'f']
  else if c = '\n' then ['\\', 'n']
  else if c = '\r' then ['\\', 'r']
  else if c = '\t' then ['\\', 't']
  else if c.toNat < 0x20 then '\\' :: 'u' :: hexFour c.toNat
  else [c]

/-- One glyph inside a JSON string. -/
def glyphChars : Glyph → List Char
  | .char c => charChars c
  | .unpaired unit => '\\' :: 'u' :: hexFour unit

/-- The characters of an atom.  A positive exponent carries a plus sign. -/
def atomChars : Json.Atom → List Char
  | .null => "null".toList
  | .bool true => "true".toList
  | .bool false => "false".toList
  | .number n => n.chars true
  | .string s => '"' :: s.flatMap glyphChars ++ ['"']

/-- The characters of a token. -/
def chars : Token → List Char
  | beginArray => ['[']
  | endArray => [']']
  | beginObject => ['\x7b']
  | endObject => ['\x7d']
  | comma => [',']
  | colon => [':']
  | atom a => atomChars a

/-! ### Words -/

/-- The numeral of a JSON number: an optional minus sign, digits without
needless zeros, digits after a point, and an exponent. -/
def numeral? (cs : List Char) : Option Numeral :=
  let negative := cs.head? == some '-'
  let cs := if negative then cs.tail else cs
  let whole := cs.takeWhile Char.isDigit
  if whole.isEmpty || (whole.head? == some '0' && whole.length != 1) then none
  else
    match cs.dropWhile Char.isDigit with
    | '.' :: more =>
        let fraction := more.takeWhile Char.isDigit
        if fraction.isEmpty then none
        else (Numeral.exponent? (more.dropWhile Char.isDigit)).map
          fun e => ⟨negative, whole, fraction, e⟩
    | rest => (Numeral.exponent? rest).map fun e => ⟨negative, whole, [], e⟩

/-- The atom that a word spells. -/
def word? (cs : List Char) : Option Token :=
  if cs = "null".toList then some (atom .null)
  else if cs = "true".toList then some (atom (.bool true))
  else if cs = "false".toList then some (atom (.bool false))
  else (numeral? cs).map fun n => atom (.number n)

/-- The characters that words are made of. -/
def isWordChar (c : Char) : Bool :=
  c.isAlphanum || c == '-' || c == '+' || c == '.'

/-- The characters that may stand between tokens. -/
def isBlank (c : Char) : Bool :=
  c == ' ' || c == '\t' || c == '\n' || c == '\r'

/-- The token that a single character makes. -/
def mark? (c : Char) : Option Token :=
  if c = '[' then some beginArray
  else if c = ']' then some endArray
  else if c = '\x7b' then some beginObject
  else if c = '\x7d' then some endObject
  else if c = ',' then some comma
  else if c = ':' then some colon
  else none

/-- The value of a hexadecimal digit. -/
def hexDigit? (c : Char) : Option Nat :=
  if c.isDigit then some (c.toNat - '0'.toNat)
  else if 'a' ≤ c ∧ c ≤ 'f' then some (c.toNat - 'a'.toNat + 10)
  else if 'A' ≤ c ∧ c ≤ 'F' then some (c.toNat - 'A'.toNat + 10)
  else none

/-- The character behind a one-letter escape. -/
def escaped? (c : Char) : Option Char :=
  if c = '"' ∨ c = '\\' ∨ c = '/' then some c
  else if c = 'b' then some '\x08'
  else if c = 'f' then some '\x0c'
  else if c = 'n' then some '\n'
  else if c = 'r' then some '\r'
  else if c = 't' then some '\t'
  else none

end Token

/-! ### The automaton -/

/-- Where a scan stands; characters and glyphs seen so far come latest first. -/
inductive Scan.Mode where
  /-- Between two tokens. -/
  | between
  /-- Inside a word. -/
  | word (seen : List Char)
  /-- Inside a string. -/
  | string (seen : List Glyph)
  /-- After a backslash inside a string. -/
  | escape (seen : List Glyph)
  /-- Inside a code unit escape, with so many digits to come after the next. -/
  | unit (seen : List Glyph) (left : Nat) (code : Nat)

/-- The state of a scan. -/
structure Scan where
  /-- The tokens found so far, latest first. -/
  tokens : List Token
  mode : Scan.Mode

namespace Scan

/-- Take a character that stands between two tokens. -/
def start (tokens : List Token) (c : Char) : Option Scan :=
  if Token.isBlank c then some ⟨tokens, .between⟩
  else if c = '"' then some ⟨tokens, .string []⟩
  else if Token.isWordChar c then some ⟨tokens, .word [c]⟩
  else (Token.mark? c).map fun token => ⟨token :: tokens, .between⟩

/-- Take one character.  There is no next state when the text is malformed. -/
def step (s : Scan) (c : Char) : Option Scan :=
  match s.mode with
  | .between => start s.tokens c
  | .word seen =>
      if Token.isWordChar c then some ⟨s.tokens, .word (c :: seen)⟩
      else (Token.word? seen.reverse).bind fun token => start (token :: s.tokens) c
  | .string seen =>
      if c = '"' then some ⟨.atom (.string seen.reverse) :: s.tokens, .between⟩
      else if c = '\\' then some ⟨s.tokens, .escape seen⟩
      else if c.toNat < 0x20 then none
      else some ⟨s.tokens, .string (.char c :: seen)⟩
  | .escape seen =>
      if c = 'u' then some ⟨s.tokens, .unit seen 3 0⟩
      else (Token.escaped? c).map fun e => ⟨s.tokens, .string (.char e :: seen)⟩
  | .unit seen left code =>
      (Token.hexDigit? c).map fun d =>
        match left with
        | 0 => ⟨s.tokens, .string (Glyph.push (16 * code + d) seen)⟩
        | left + 1 => ⟨s.tokens, .unit seen left (16 * code + d)⟩

/-- The tokens of a finished scan, in order. -/
def finish (s : Scan) : Option (List Token) :=
  match s.mode with
  | .between => some s.tokens.reverse
  | .word seen => (Token.word? seen.reverse).map fun token => (token :: s.tokens).reverse
  | _ => none

end Scan

/-- The tokens of a text, if it consists of tokens and blanks. -/
def Token.scan? (cs : List Char) : Option (List Token) :=
  (cs.foldlM Scan.step ⟨[], .between⟩).bind Scan.finish

end TypedForest
