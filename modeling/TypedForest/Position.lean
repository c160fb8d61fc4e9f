import TypedForest.Value

/-!
# Source positions

Nodes may record where in a source they come from, and issues where they
occurred.

## Main Definitions

* `Point`: a line and a column, ordered by line first.
* `Position`: a stretch of source from a point up to, but not including, another.
* `Issue`: something to report about a source, with its severity.
-/

namespace TypedForest

/-- A place in a source. -/
structure Point where
  line : UInt32
  column : UInt32
deriving DecidableEq, Repr, Ord

namespace Point

/-- The text of a point. -/
def text (p : Point) : String :=
  s!"{p.line.toNat}:{p.column.toNat}"

/-- The detailed form of a point. -/
def inspect (p : Point) : String :=
  s!"Point \x7b line: {p.line.toNat}, column: {p.column.toNat} \x7d"

end Point

/-- A stretch of source. -/
structure Position where
  start : Point
  stop : Point
deriving DecidableEq, Repr

namespace Position

/-- Is the point at or after the start and before the end? -/
def contains (p : Position) (point : Point) : Bool :=
  (compare p.start point).isLE && (compare point p.stop).isLT

/-- The text of a position. -/
def text (p : Position) : String := s!"{p.start.text}-{p.stop.text}"

/-- The detailed form of a position. -/
def inspect (p : Position) : String :=
  s!"Position \x7b start: {p.start.inspect}, end: {p.stop.inspect} \x7d"

end Position

/-- How serious an issue is. -/
inductive Severity where
  | error
  | warning
  | info
deriving DecidableEq, Repr

namespace Severity

/-- The name of a severity. -/
def name : Severity → String
  | error => "Error"
  | warning => "Warning"
  | info => "Info"

end Severity

/-- Something to report about a source. -/
structure Issue where
  message : String
  severity : Severity
  position : Option Position
deriving DecidableEq, Repr

namespace Issue

/-- The detailed form of an issue. -/
def inspect (i : Issue) : String :=
  "Issue \x7b message: " ++ Text.quote i.message ++ ", severity: " ++ i.severity.name ++
    ", position: " ++ Text.option Position.inspect i.position ++ " \x7d"

/-- The detailed form of a list of issues. -/
def inspectAll (issues : List Issue) : String :=
  "[" ++ ", ".intercalate (issues.map inspect) ++ "]"

end Issue

end TypedForest
