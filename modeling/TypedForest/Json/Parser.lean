import TypedForest.Json.Token

/-!
# Reading JSON

Tokens are assembled into a value by a shift-reduce automaton: a stack holds
the arrays and objects that are still open, and each token either opens one,
closes one or adds to the innermost.  Parsing is thus a fold over the tokens
and nesting of any depth costs no recursion.

## Main Definitions

* `Parse.Frame`: an open array or object.
* `Parse`, `Parse.step`: the automaton.
* `Json.ofTokens?`, `Json.read?`: values from tokens and from texts.
-/

namespace TypedForest

/-- An array or object that is still open around the current value; parts read
so far come latest first. -/
inductive Parse.Frame where
  /-- An array. -/
  | array (items : List Json)
  /-- An object that waits for the value of a key. -/
  | member (members : List (List Glyph × Json)) (key : List Glyph)

/-- What may come next, with the open frames, innermost first. -/
inductive Parse where
  /-- A value. -/
  | value (stack : List Parse.Frame)
  /-- The first item of an array, or its end. -/
  | firstItem (stack : List Parse.Frame)
  /-- The first key of an object, or its end. -/
  | firstKey (stack : List Parse.Frame)
  /-- A further key of an object. -/
  | key (stack : List Parse.Frame) (members : List (List Glyph × Json))
  /-- The colon after a key. -/
  | colon (stack : List Parse.Frame) (members : List (List Glyph × Json)) (key : List Glyph)
  /-- A separator or the end of the innermost frame, after a value. -/
  | done (stack : List Parse.Frame) (value : Json)

namespace Parse

/-- Take a token where a value must start. -/
def start (stack : List Frame) : Token → Option Parse
  | .atom a => some (done stack (.atom a))
  | .beginArray => some (firstItem stack)
  | .beginObject => some (firstKey stack)
  | _ => none

/-- Take one token.  There is no next state when it may not stand here. -/
def step : Parse → Token → Option Parse
  | value stack, token => start stack token
  | firstItem stack, .endArray => some (done stack (.array []))
  | firstItem stack, token => start (.array [] :: stack) token
  | firstKey stack, .endObject => some (done stack (.object []))
  | firstKey stack, .atom (.string k) => some (colon stack [] k)
  | key stack members, .atom (.string k) => some (colon stack members k)
  | colon stack members k, .colon => some (value (.member members k :: stack))
  | done (.array items :: stack) v, .comma => some (value (.array (v :: items) :: stack))
  | done (.array items :: stack) v, .endArray =>
      some (done stack (.array (v :: items).reverse))
  | done (.member members k :: stack) v, .comma => some (key stack ((k, v) :: members))
  | done (.member members k :: stack) v, .endObject =>
      some (done stack (.object ((k, v) :: members).reverse))
  | _, _ => none

/-- The value of a finished parse: nothing is left open. -/
def finish : Parse → Option Json
  | done [] v => some v
  | _ => none

end Parse

namespace Json

/-- The one value that a list of tokens spells. -/
def ofTokens? (tokens : List Token) : Option Json :=
  (tokens.foldlM Parse.step (.value [])).bind Parse.finish

/-- Read a JSON text holding exactly one value. -/
def read? (s : String) : Option Json := (Token.scan? s.toList).bind ofTokens?

end Json

end TypedForest
