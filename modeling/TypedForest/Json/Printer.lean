import TypedForest.Json.Token

/-!
# Writing JSON

A value is written as a list of lexemes, that is, of tokens with the blanks
before them.  The compact and the indented form differ in the blanks alone, so
whatever holds of the tokens holds of both.

## Main Definitions

* `Json.Style`: compact or indented.
* `Lexeme`: a token and the blanks before it.
* `Json.lexemes`: the written form of a value.
* `Json.write`: its text.
-/

namespace TypedForest

/-- How a JSON text is laid out. -/
inductive Json.Style where
  /-- Without blanks. -/
  | compact
  /-- One item or member on a line, indented by two for each level. -/
  | indented
deriving DecidableEq, Repr

/-- A token with the blanks before it. -/
structure Lexeme where
  blanks : List Char
  token : Token
deriving DecidableEq, Repr

namespace Lexeme

/-- The characters of a lexeme. -/
def chars (l : Lexeme) : List Char := l.blanks ++ l.token.chars

end Lexeme

namespace Json

/-- The blanks at the start of an item or a closing bracket. -/
def Style.line (style : Style) (depth : Nat) : List Char :=
  match style with
  | .compact => []
  | .indented => '\n' :: List.replicate (2 * depth) ' '

/-- The blanks between a colon and a member's value. -/
def Style.gap : Style → List Char
  | .compact => []
  | .indented => [' ']

mutual

/-- The lexemes of a value, given the blanks before its first token. -/
def lexemes (style : Style) (depth : Nat) (before : List Char) : Json → List Lexeme
  | atom a => [⟨before, .atom a⟩]
  | array [] => [⟨before, .beginArray⟩, ⟨[], .endArray⟩]
  | array (item :: items) =>
      ⟨before, .beginArray⟩ :: (lexemes style (depth + 1) (style.line (depth + 1)) item ++
        furtherItems style (depth + 1) items ++ [⟨style.line depth, .endArray⟩])
  | object [] => [⟨before, .beginObject⟩, ⟨[], .endObject⟩]
  | object ((key, value) :: members) =>
      ⟨before, .beginObject⟩ :: ⟨style.line (depth + 1), .atom (.string key)⟩ ::
        ⟨[], .colon⟩ :: (lexemes style (depth + 1) style.gap value ++
          furtherMembers style (depth + 1) members ++ [⟨style.line depth, .endObject⟩])

/-- The items of an array after the first. -/
def furtherItems (style : Style) (depth : Nat) : List Json → List Lexeme
  | [] => []
  | item :: items =>
      ⟨[], .comma⟩ :: (lexemes style depth (style.line depth) item ++
        furtherItems style depth items)

/-- The members of an object after the first. -/
def furtherMembers (style : Style) (depth : Nat) : List (List Glyph × Json) → List Lexeme
  | [] => []
  | (key, value) :: members =>
      ⟨[], .comma⟩ :: ⟨style.line depth, .atom (.string key)⟩ :: ⟨[], .colon⟩ ::
        (lexemes style depth style.gap value ++ furtherMembers style depth members)

end

/-- The text of a value. -/
def write (style : Style) (j : Json) : String :=
  String.ofList ((lexemes style 0 [] j).flatMap Lexeme.chars)

end Json

end TypedForest
