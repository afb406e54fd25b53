import Tablature.Action
import Tablature.Artifact
import Tablature.Artifact.Encoding
import Tablature.Batch.Document
import Tablature.Batch.FieldToken
import Tablature.Batch.Members
import Tablature.Batch.Run
import Tablature.Batch.Schema
import Tablature.Column
import Tablature.Command.Arguments
import Tablature.Command.Report
import Tablature.Command.Run
import Tablature.Command.Style
import Tablature.Decimal.Layout
import Tablature.Decimal.Shortest
import Tablature.Error
import Tablature.Field.Attribute
import Tablature.Field.Head
import Tablature.Field.Token
import Tablature.FileTree.Basic
import Tablature.FileTree.Change
import Tablature.FileTree.Lookup
import Tablature.FileTree.Path
import Tablature.Generate
import Tablature.Identifier
import Tablature.Json.Number
import Tablature.Json.Printer
import Tablature.Json.Source
import Tablature.Json.Text
import Tablature.Json.Value
import Tablature.Main
import Tablature.Proofs.Artifact.Encoding
import Tablature.Proofs.Batch.Abort
import Tablature.Proofs.Batch.Collision
import Tablature.Proofs.Batch.Confinement
import Tablature.Proofs.Batch.Describes
import Tablature.Proofs.Batch.Edits
import Tablature.Proofs.Batch.Entry
import Tablature.Proofs.Batch.FieldCheck
import Tablature.Proofs.Batch.FieldToken
import Tablature.Proofs.Batch.Misfit
import Tablature.Proofs.Batch.Order
import Tablature.Proofs.Batch.Plan
import Tablature.Proofs.Batch.Rerun
import Tablature.Proofs.Batch.Respelling
import Tablature.Proofs.Batch.Run
import Tablature.Proofs.Batch.Script
import Tablature.Proofs.Batch.TokenParts
import Tablature.Proofs.Bind
import Tablature.Proofs.Column
import Tablature.Proofs.Field.Attribute
import Tablature.Proofs.Field.Choices
import Tablature.Proofs.Field.Definition
import Tablature.Proofs.Field.Grammar
import Tablature.Proofs.Field.Head
import Tablature.Proofs.Field.Reading
import Tablature.Proofs.Field.Scan
import Tablature.Proofs.Field.Spelling
import Tablature.Proofs.Field.Value
import Tablature.Proofs.FileTree.MakeDirs
import Tablature.Proofs.FileTree.Path
import Tablature.Proofs.FileTree.Remake
import Tablature.Proofs.FileTree.Walk
import Tablature.Proofs.History
import Tablature.Proofs.History.Closure
import Tablature.Proofs.Identifier
import Tablature.Proofs.Json.Literal
import Tablature.Proofs.Json.Printer
import Tablature.Proofs.Storage
import Tablature.Proofs.Store.Ahead
import Tablature.Proofs.Store.Atomic
import Tablature.Proofs.Store.Frame
import Tablature.Proofs.Store.Generate
import Tablature.Proofs.Store.Holds
import Tablature.Proofs.Store.Race
import Tablature.Proofs.Store.Read
import Tablature.Proofs.Store.Reorder
import Tablature.Proofs.Store.Rerun
import Tablature.Proofs.Store.Script
import Tablature.Proofs.Store.Stubs
import Tablature.Proofs.Store.Write
import Tablature.Proofs.Store.Writer
import Tablature.Proofs.Store.Writes
import Tablature.Proofs.Table
import Tablature.Proofs.Table.Body
import Tablature.Proofs.Table.Faults
import Tablature.Proofs.Table.IndexNames
import Tablature.Proofs.Table.Invariant
import Tablature.Proofs.Table.Statements
import Tablature.Proofs.Text.Blank
import Tablature.Proofs.Text.Scan
import Tablature.Proofs.Text.Split
import Tablature.Settings
import Tablature.Storage
import Tablature.Store
import Tablature.Table
import Tablature.Text.Blank
import Tablature.Text.Cut
import Tablature.Text.Scan
import Tablature.Toml.Document
import Tablature.Toml.Scalar
import Tablature.Toml.Text
import Tablature.Toml.Value
