import TypedForest.Codec.Value
import TypedForest.Forest.Node

/-!
# Nodes in JSON

Nodes with all their parts can be written as JSON and read again.  An absent
list of children, an ignored one and an empty one are told apart.

## Main Definitions

* `Position.toJson`, `Position.ofJson?`, `Issue.toJson`, `Issue.ofJson?`
* `NamedRef.toJson`, `NamedRef.ofJson?`
* `Slot.toJson`, `Slot.ofJsonAt?`, `Slot.ofJson?`
* `Node.toJson`, `Node.ofJson?`
-/

namespace TypedForest

namespace Point

/-- A point in JSON. -/
def toJson (p : Point) : Json :=
  .record [("line", .int p.line.toNat), ("column", .int p.column.toNat)]

/-- Read a point. -/
def ofJson? (j : Json) : Option Point := do
  let [line, column] ← j.record? ["line", "column"] | none
  return {
    line := UInt32.ofNat (← Json.required (Json.natural? UInt32.size) line)
    column := UInt32.ofNat (← Json.required (Json.natural? UInt32.size) column) }

end Point

namespace Position

/-- A position in JSON. -/
def toJson (p : Position) : Json :=
  .record [("start", p.start.toJson), ("end", p.stop.toJson)]

/-- Read a position. -/
def ofJson? (j : Json) : Option Position := do
  let [start, stop] ← j.record? ["start", "end"] | none
  return {
    start := ← Json.required Point.ofJson? start
    stop := ← Json.required Point.ofJson? stop }

end Position

namespace Severity

/-- Read a severity. -/
def ofJson? (j : Json) : Option Severity :=
  match j.unit? with
  | some "Error" => some error
  | some "Warning" => some warning
  | some "Info" => some info
  | _ => none

end Severity

namespace Issue

/-- An issue in JSON. -/
def toJson (i : Issue) : Json :=
  .record [("message", .text i.message), ("severity", .text i.severity.name),
    ("position", .option Position.toJson i.position)]

/-- Read an issue. -/
def ofJson? (j : Json) : Option Issue := do
  let [message, severity, position] ← j.record? ["message", "severity", "position"] | none
  return {
    message := ← Json.required Json.text? message
    severity := ← Json.required Severity.ofJson? severity
    position := ← Json.optional Position.ofJson? position }

end Issue

namespace NodeId

/-- A node number in JSON. -/
def toJson (id : NodeId) : Json := .int id.index

/-- Read a node number, which must fit into sixty-four bits. -/
def ofJson? (j : Json) : Option NodeId := (j.natural? UInt64.size).map mk

end NodeId

namespace NamedRef

/-- A reference in JSON. -/
def toJson (r : NamedRef) : Json :=
  .record [("name", .text r.name), ("referred", .option NodeId.toJson r.target)]

/-- Read a reference. -/
def ofJson? (j : Json) : Option NamedRef := do
  let [name, target] ← j.record? ["name", "referred"] | none
  return {
    name := ← Json.required Json.text? name
    target := ← Json.optional NodeId.ofJson? target }

end NamedRef

namespace Slot

/-- A slot in JSON. -/
def toJson : Slot → Json
  | value v => .record [("Attribute", v.toJson)]
  | child c => .record [("Child", .option NodeId.toJson c)]
  | children cs => .record [("Children", .option (Json.list NodeId.toJson) cs)]
  | ignored => .text "IgnoredChildren"
  | reference r => .record [("Reference", .option NamedRef.toJson r)]

/-- Read a slot that stands inside `level` arrays and objects. -/
def ofJsonAt? (level : Nat) (j : Json) : Option Slot :=
  match j.variant? with
  | some ("Attribute", some content) => (Value.ofJsonAt? (level + 1) content).map value
  | some ("Child", some content) => (content.option? NodeId.ofJson?).map child
  | some ("Children", some content) =>
      (content.option? (Json.list? NodeId.ofJson?)).map children
  | some ("Reference", some content) => (content.option? NamedRef.ofJson?).map reference
  | _ => if j.unit? = some "IgnoredChildren" then some ignored else none

/-- Read a slot. -/
def ofJson? (j : Json) : Option Slot := ofJsonAt? 0 j

end Slot

namespace Node

/-- A node in JSON. -/
def toJson (n : Node) : Json :=
  .record [("id", n.id.toJson), ("node_type", .text n.type),
    ("position", .option Position.toJson n.position),
    ("parent", .option NodeId.toJson n.parent), ("slots", .list Slot.toJson n.slots)]

/-- Read a node.  Its slots stand inside the node and a list. -/
def ofJson? (j : Json) : Option Node := do
  let [id, type, position, parent, slots] ←
    j.record? ["id", "node_type", "position", "parent", "slots"] | none
  return {
    id := ← Json.required NodeId.ofJson? id
    type := ← Json.required Json.text? type
    position := ← Json.optional Position.ofJson? position
    parent := ← Json.optional NodeId.ofJson? parent
    slots := ← Json.required (Json.list? (Slot.ofJsonAt? 2)) slots }

end Node

end TypedForest
