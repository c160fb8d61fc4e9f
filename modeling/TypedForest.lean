import TypedForest.Codec.Document
import TypedForest.Codec.Metamodel
import TypedForest.Codec.Node
import TypedForest.Codec.Value
import TypedForest.Comparison
import TypedForest.Document.Basic
import TypedForest.Document.Export
import TypedForest.Document.Import
import TypedForest.Error
import TypedForest.Forest.Basic
import TypedForest.Forest.Containment
import TypedForest.Forest.Edit
import TypedForest.Forest.Node
import TypedForest.Forest.Path
import TypedForest.Forest.References
import TypedForest.Forest.Traversal
import TypedForest.Json.Basic
import TypedForest.Json.Number
import TypedForest.Json.Parser
import TypedForest.Json.Printer
import TypedForest.Json.Reader
import TypedForest.Json.Token
import TypedForest.Metamodel.Basic
import TypedForest.Metamodel.Property
import TypedForest.Metamodel.Register
import TypedForest.Naming
import TypedForest.Number.Binary64
import TypedForest.Number.Numeral
import TypedForest.Number.Shortest
import TypedForest.Outcome
import TypedForest.Position
import TypedForest.Schema.Basic
import TypedForest.Schema.Language
import TypedForest.Text.Printable
import TypedForest.Text.Quoted
import TypedForest.Value
import TypedForest.Proofs.Forest.Refill
import TypedForest.Proofs.Forest.Ancestry
import TypedForest.Proofs.Forest.Command
import TypedForest.Proofs.Forest.Run
import TypedForest.Proofs.Metamodel.Tables
import TypedForest.Proofs.Forest.Place
import TypedForest.Proofs.Path.Identifier
import TypedForest.Proofs.Forest.Cursor
import TypedForest.Proofs.Forest.Frontier
import TypedForest.Proofs.Forest.Traversal
import TypedForest.Proofs.Naming.Structural
import TypedForest.Proofs.Number.Numeral
import TypedForest.Proofs.Value.Wire
import TypedForest.Proofs.Value.Equality
import TypedForest.Proofs.Schema.Faithful
import TypedForest.Proofs.Document.Record
import TypedForest.Proofs.Document.Image
import TypedForest.Proofs.Document.Import
import TypedForest.Proofs.Document.Copy
import TypedForest.Proofs.Document.RoundTrip
import TypedForest.Proofs.Document.Export
import TypedForest.Proofs.Forest.Program
import TypedForest.Proofs.Document.Accepted
import TypedForest.Proofs.Typing
import TypedForest.Proofs.Comparison
import TypedForest.Proofs.Comparison.Passing
import TypedForest.Proofs.Comparison.Recognition
import TypedForest.Proofs.Metamodel.Inheritance
import TypedForest.Proofs.Json.Scan
import TypedForest.Proofs.Json.RoundTrip
import TypedForest.Proofs.Json.Reader
import TypedForest.Proofs.Codec.Document
import TypedForest.Proofs.Schema.Overlap
import TypedForest.Proofs.Forest.Address
import TypedForest.Proofs.Document.Contained
import TypedForest.Proofs.View.Congruence
import TypedForest.Proofs.View.Hidden
import TypedForest.Proofs.Forest.Containment
import TypedForest.Proofs.Forest.Orders
import TypedForest.Proofs.Naming.Assignment
import TypedForest.Proofs.Naming.Sequential
import TypedForest.Proofs.Forest.Attachment
import TypedForest.Proofs.Path.Text
import TypedForest.Proofs.View.Edited
import TypedForest.Proofs.Comparison.Ignoring
import TypedForest.Proofs.Comparison.Retouching
import TypedForest.Proofs.Comparison.Reflexive
import TypedForest.Proofs.Metamodel.Lineage
import TypedForest.Proofs.Forest.Resolution
import TypedForest.Proofs.Document.Subtree
import TypedForest.Proofs.Schema.Determinate
import TypedForest.Proofs.Metamodel.Subtyping
import TypedForest.Proofs.Value.Spelling
import TypedForest.Proofs.Schema.Content
import TypedForest.Proofs.Schema.Interrupted
import TypedForest.Proofs.Comparison.Strictness
import TypedForest.Proofs.Codec.Node
import TypedForest.Proofs.Forest.Descent
import TypedForest.Proofs.Forest.Cursor
import TypedForest.Dictionary
import TypedForest.Proofs.Dictionary
