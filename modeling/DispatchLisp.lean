import DispatchLisp.Association
import DispatchLisp.Builtin.Arithmetic
import DispatchLisp.Builtin.Collection
import DispatchLisp.Builtin.Comparison
import DispatchLisp.Builtin.Run
import DispatchLisp.Collection.Editing
import DispatchLisp.Collection.Positions
import DispatchLisp.Context.Import
import DispatchLisp.Context.Lookup
import DispatchLisp.Dispatch.Declare
import DispatchLisp.Dispatch.Parameters
import DispatchLisp.Dispatch.Pattern
import DispatchLisp.Embedding.Blueprint
import DispatchLisp.Embedding.Definition
import DispatchLisp.Embedding.Natives
import DispatchLisp.Embedding.Overview
import DispatchLisp.Evaluation.Apply
import DispatchLisp.Evaluation.Evaluate
import DispatchLisp.Evaluation.Machine
import DispatchLisp.Evaluation.SpecialForms
import DispatchLisp.Evaluation.Text
import DispatchLisp.Fault
import DispatchLisp.Form
import DispatchLisp.Interpreter
import DispatchLisp.LogLevel
import DispatchLisp.Module.Disk
import DispatchLisp.Module.Geometry
import DispatchLisp.Module.Path
import DispatchLisp.Module.Registry
import DispatchLisp.Number.Binary64
import DispatchLisp.Number.Decimal
import DispatchLisp.Number.Magnitude
import DispatchLisp.Number.Number
import DispatchLisp.Number.Shortest
import DispatchLisp.Proofs.Association
import DispatchLisp.Proofs.Builtin.Addition
import DispatchLisp.Proofs.Builtin.Collections
import DispatchLisp.Proofs.Builtin.Dictionary
import DispatchLisp.Proofs.Builtin.Division
import DispatchLisp.Proofs.Builtin.Operators
import DispatchLisp.Proofs.Builtin.Ordering
import DispatchLisp.Proofs.Builtin.Slices
import DispatchLisp.Proofs.Builtin.Updates
import DispatchLisp.Proofs.Context.BoundNames
import DispatchLisp.Proofs.Context.Chronicle
import DispatchLisp.Proofs.Context.HandOn
import DispatchLisp.Proofs.Context.ImportedBindings
import DispatchLisp.Proofs.Context.Links
import DispatchLisp.Proofs.Context.Refill
import DispatchLisp.Proofs.Context.RefillTwice
import DispatchLisp.Proofs.Context.Root
import DispatchLisp.Proofs.Context.Shadowing
import DispatchLisp.Proofs.Context.TakeOver
import DispatchLisp.Proofs.Dispatch.Definition
import DispatchLisp.Proofs.Dispatch.Isolation
import DispatchLisp.Proofs.Dispatch.Rendering
import DispatchLisp.Proofs.Dispatch.Selection
import DispatchLisp.Proofs.Dispatch.Shape
import DispatchLisp.Proofs.Dispatch.Tables
import DispatchLisp.Proofs.Evaluation.Calls
import DispatchLisp.Proofs.Evaluation.Confined
import DispatchLisp.Proofs.Evaluation.FirstError
import DispatchLisp.Proofs.Evaluation.Frame
import DispatchLisp.Proofs.Evaluation.InOrder
import DispatchLisp.Proofs.Evaluation.Independence
import DispatchLisp.Proofs.Evaluation.InsertedNames
import DispatchLisp.Proofs.Evaluation.Keeps
import DispatchLisp.Proofs.Evaluation.KeptCode
import DispatchLisp.Proofs.Evaluation.Literal
import DispatchLisp.Proofs.Evaluation.Pieces
import DispatchLisp.Proofs.Evaluation.PlainSource
import DispatchLisp.Proofs.Evaluation.Safe
import DispatchLisp.Proofs.Evaluation.Script
import DispatchLisp.Proofs.Evaluation.Sealing
import DispatchLisp.Proofs.Evaluation.Transparency
import DispatchLisp.Proofs.Evaluation.Traversals
import DispatchLisp.Proofs.Evaluation.WellFounded
import DispatchLisp.Proofs.Except
import DispatchLisp.Proofs.Invariant
import DispatchLisp.Proofs.Module.ImportCall
import DispatchLisp.Proofs.Module.Links
import DispatchLisp.Proofs.Module.LoadedOnce
import DispatchLisp.Proofs.Module.Loading
import DispatchLisp.Proofs.Module.PlainRun
import DispatchLisp.Proofs.Module.Reload
import DispatchLisp.Proofs.Module.ReloadTwice
import DispatchLisp.Proofs.Module.SearchRoots
import DispatchLisp.Proofs.Number.DecimalValue
import DispatchLisp.Proofs.Number.Notation
import DispatchLisp.Proofs.Number.Range
import DispatchLisp.Proofs.Number.Rounding
import DispatchLisp.Proofs.Number.Spelling
import DispatchLisp.Proofs.Reader.Acceptance
import DispatchLisp.Proofs.Reader.Agreement
import DispatchLisp.Proofs.Reader.Grammar
import DispatchLisp.Proofs.Reader.Joining
import DispatchLisp.Proofs.Reader.Lexemes
import DispatchLisp.Proofs.Reader.Places
import DispatchLisp.Proofs.Reader.Progress
import DispatchLisp.Proofs.Reader.Readable
import DispatchLisp.Proofs.Reader.RoundTrip
import DispatchLisp.Proofs.Reader.Termination
import DispatchLisp.Proofs.Reader.Tokens
import DispatchLisp.Proofs.Reader.Values
import DispatchLisp.Proofs.Registration
import DispatchLisp.Proofs.Session
import DispatchLisp.Proofs.Signature
import DispatchLisp.Proofs.Store.Comparison
import DispatchLisp.Proofs.Store.Containment
import DispatchLisp.Proofs.Store.Contexts
import DispatchLisp.Proofs.Store.Functions
import DispatchLisp.Proofs.Store.Keys
import DispatchLisp.Proofs.Store.Objects
import DispatchLisp.Proofs.Store.Sealed
import DispatchLisp.Proofs.Store.Trees
import DispatchLisp.Proofs.Text.Characters
import DispatchLisp.Proofs.Text.Longest
import DispatchLisp.Proofs.Value.Literal
import DispatchLisp.Proofs.Value.Sameness
import DispatchLisp.Reader.Cursor
import DispatchLisp.Reader.Error
import DispatchLisp.Reader.Parse
import DispatchLisp.Reader.Token
import DispatchLisp.Signature
import DispatchLisp.Store.Basic
import DispatchLisp.Store.Equality
import DispatchLisp.Store.Part
import DispatchLisp.Store.View
import DispatchLisp.Text.Blank
import DispatchLisp.Text.Digit
import DispatchLisp.Text.Literal
import DispatchLisp.Text.Printable
import DispatchLisp.Text.Quoted
import DispatchLisp.Text.Range
import DispatchLisp.Text.Split
import DispatchLisp.Value.Basic
import DispatchLisp.Value.Datum
import DispatchLisp.Value.Kind
import DispatchLisp.Value.Native
