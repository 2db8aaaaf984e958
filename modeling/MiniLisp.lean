import MiniLisp.Collection.FiniteSet
import MiniLisp.Collection.OrderedMap
import MiniLisp.CommandLine
import MiniLisp.Error
import MiniLisp.Eval.Apply
import MiniLisp.Eval.Basic
import MiniLisp.Eval.Special
import MiniLisp.Eval.Template
import MiniLisp.Expand.Basic
import MiniLisp.Expand.Children
import MiniLisp.Expand.Macro
import MiniLisp.Expand.Template
import MiniLisp.Heap
import MiniLisp.Limits
import MiniLisp.Machine
import MiniLisp.Main
import MiniLisp.Module
import MiniLisp.Number.Basic
import MiniLisp.Number.Binary64
import MiniLisp.Number.Literal
import MiniLisp.Number.Shortest
import MiniLisp.Params
import MiniLisp.Pattern
import MiniLisp.Primitive.Argument
import MiniLisp.Primitive.Arithmetic
import MiniLisp.Primitive.Basic
import MiniLisp.Primitive.Name
import MiniLisp.Primitive.Sequence
import MiniLisp.Reader.Basic
import MiniLisp.Reader.Extent
import MiniLisp.Reader.Form
import MiniLisp.Reader.Lexeme
import MiniLisp.Reader.Literal
import MiniLisp.Session
import MiniLisp.Settings
import MiniLisp.SpecialForm
import MiniLisp.Text.Basic
import MiniLisp.Text.Source
import MiniLisp.Text.Span
import MiniLisp.Value.Basic
import MiniLisp.Value.Datum
import MiniLisp.Value.Equality
import MiniLisp.Value.Printer
import MiniLisp.Yaml.Cursor
import MiniLisp.Yaml.Node
import MiniLisp.Yaml.Scalar
import MiniLisp.Yaml.Tag
import MiniLisp.Yaml.Token
import MiniLisp.Proofs.Action
import MiniLisp.Proofs.Evaluation.Plain
import MiniLisp.Proofs.Evaluation.Watch
import MiniLisp.Proofs.Evaluation.Routine
import MiniLisp.Proofs.Expansion.Routine
import MiniLisp.Proofs.Evaluation.Step
import MiniLisp.Proofs.Evaluation.Agreement
import MiniLisp.Proofs.Trampoline
import MiniLisp.Proofs.Evaluation.Law
import MiniLisp.Proofs.Session
import MiniLisp.Proofs.Depth
import MiniLisp.Proofs.Evaluation.Stages
import MiniLisp.Proofs.Tasks
import MiniLisp.Proofs.Frames
import MiniLisp.Proofs.Slots
import MiniLisp.Proofs.Reader.Place
import MiniLisp.Proofs.Reader.Group
import MiniLisp.Proofs.Reader.Extent
import MiniLisp.Proofs.Reader.Lexeme
import MiniLisp.Proofs.Reader.Form
import MiniLisp.Proofs.Reader.Progress
import MiniLisp.Proofs.Reader.Composition
import MiniLisp.Proofs.Reader.Nesting
import MiniLisp.Proofs.Number.Literal
import MiniLisp.Proofs.Reader.Literal
import MiniLisp.Proofs.Reader.RoundTrip
import MiniLisp.Proofs.Reader.Unnesting
import MiniLisp.Proofs.Reader.Balance
import MiniLisp.Proofs.Reader.Freestanding
import MiniLisp.Proofs.Reader.Reprint
import MiniLisp.Proofs.Expansion.Shape
import MiniLisp.Proofs.Expansion.Code
import MiniLisp.Proofs.Expansion.Filled
import MiniLisp.Proofs.Expansion.FixedPoint
import MiniLisp.Proofs.Shadowing
import MiniLisp.Proofs.Definitions
import MiniLisp.Proofs.Expansion.Quotation
import MiniLisp.Proofs.Limits
import MiniLisp.Proofs.Collection.Covering
import MiniLisp.Proofs.Expansion.Termination
import MiniLisp.Proofs.Value.Equality
import MiniLisp.Proofs.Collection.OrderedMap
import MiniLisp.Proofs.Collection.IndexedMap
import MiniLisp.Proofs.Value.Map
import MiniLisp.Proofs.Collection.FiniteSet
import MiniLisp.Proofs.Value.Hash
import MiniLisp.Proofs.Number.Canonical
import MiniLisp.Proofs.Number.Grammar
import MiniLisp.Proofs.Number.Arithmetic
import MiniLisp.Proofs.Modules
import MiniLisp.Proofs.Coherence
import MiniLisp.Proofs.Sharing
import MiniLisp.Proofs.Assignment
import MiniLisp.Proofs.Expansion.Head
import MiniLisp.Proofs.Template.Unquoted
import MiniLisp.Proofs.Template.Inert
import MiniLisp.Proofs.Levels.Basic
import MiniLisp.Proofs.Levels.Counting
import MiniLisp.Proofs.Reader.Written
import MiniLisp.Proofs.Template.Inner
import MiniLisp.Proofs.Pattern.Tags
import MiniLisp.Proofs.Records.Saturated
import MiniLisp.Proofs.Records.Action
import MiniLisp.Proofs.Records.Expansion
import MiniLisp.Proofs.Records.Evaluation
import MiniLisp.Proofs.Records.Session
import MiniLisp.Proofs.Pattern.Fields
import MiniLisp.Proofs.Improper
import MiniLisp.Proofs.FreshSymbols
import MiniLisp.Proofs.Params
import MiniLisp.Proofs.Reader.Bracketing
import MiniLisp.Proofs.Value.Datum
import MiniLisp.Proofs.Text.Position
