import PathQuery.Arguments
import PathQuery.CommandLine
import PathQuery.Config
import PathQuery.Engine
import PathQuery.Failure
import PathQuery.Fields
import PathQuery.Files
import PathQuery.Filter.Caret
import PathQuery.Filter.Parse
import PathQuery.Filter.Predicate
import PathQuery.Filter.Scan
import PathQuery.Filter.Span
import PathQuery.Filter.Token
import PathQuery.Gateway
import PathQuery.Gateway.Parameters
import PathQuery.Gateway.Response
import PathQuery.Gateway.Settings
import PathQuery.Graph
import PathQuery.Graph.Bound
import PathQuery.Graph.Build
import PathQuery.Graph.Combination
import PathQuery.Graph.Expand
import PathQuery.Graph.Fetch
import PathQuery.Graph.Join
import PathQuery.Graph.Node
import PathQuery.Graph.Projection
import PathQuery.Main
import PathQuery.Metadata.Catalog
import PathQuery.Metadata.EntityType
import PathQuery.Metadata.Navigation
import PathQuery.Names
import PathQuery.Number
import PathQuery.Number.Binary64
import PathQuery.Number.Count
import PathQuery.Number.Numeral
import PathQuery.Number.Rounding
import PathQuery.Number.Shortest
import PathQuery.Proofs.Breach
import PathQuery.Proofs.Engine
import PathQuery.Proofs.Except
import PathQuery.Proofs.Fields
import PathQuery.Proofs.Filter.Brackets
import PathQuery.Proofs.Filter.Caret
import PathQuery.Proofs.Filter.Failures
import PathQuery.Proofs.Filter.Grammar
import PathQuery.Proofs.Filter.Literals
import PathQuery.Proofs.Filter.RoundTrip
import PathQuery.Proofs.Filter.Scan
import PathQuery.Proofs.Filter.Spans
import PathQuery.Proofs.Graph.Active
import PathQuery.Proofs.Graph.Afresh
import PathQuery.Proofs.Graph.Again
import PathQuery.Proofs.Graph.Ahead
import PathQuery.Proofs.Graph.Bound
import PathQuery.Proofs.Graph.Branches
import PathQuery.Proofs.Graph.Build
import PathQuery.Proofs.Graph.Calls
import PathQuery.Proofs.Graph.Columns
import PathQuery.Proofs.Graph.Complete
import PathQuery.Proofs.Graph.Completion
import PathQuery.Proofs.Graph.CrossProduct
import PathQuery.Proofs.Graph.Drawn
import PathQuery.Proofs.Graph.Expand
import PathQuery.Proofs.Graph.Flat
import PathQuery.Proofs.Graph.Inherit
import PathQuery.Proofs.Graph.Join
import PathQuery.Proofs.Graph.Left
import PathQuery.Proofs.Graph.Listing
import PathQuery.Proofs.Graph.Log
import PathQuery.Proofs.Graph.Narrowing
import PathQuery.Proofs.Graph.NestedLoop
import PathQuery.Proofs.Graph.Once
import PathQuery.Proofs.Graph.Paths
import PathQuery.Proofs.Graph.Pattern
import PathQuery.Proofs.Graph.PrefixTree
import PathQuery.Proofs.Graph.Preserved
import PathQuery.Proofs.Graph.Projection
import PathQuery.Proofs.Graph.Protocol
import PathQuery.Proofs.Graph.Provenance
import PathQuery.Proofs.Graph.Pulls
import PathQuery.Proofs.Graph.Pushdown
import PathQuery.Proofs.Graph.Resume
import PathQuery.Proofs.Graph.Run
import PathQuery.Proofs.Graph.Selection
import PathQuery.Proofs.Graph.Shape
import PathQuery.Proofs.Graph.Supply
import PathQuery.Proofs.Graph.Total
import PathQuery.Proofs.Graph.Tree
import PathQuery.Proofs.Graph.Unselected
import PathQuery.Proofs.Graph.Walk
import PathQuery.Proofs.Integers
import PathQuery.Proofs.Metadata.Answers
import PathQuery.Proofs.Metadata.Catalog
import PathQuery.Proofs.Metadata.Keys
import PathQuery.Proofs.Number.Digits
import PathQuery.Proofs.Number.Nearest
import PathQuery.Proofs.Result.Collection
import PathQuery.Proofs.Result.Distinct
import PathQuery.Proofs.Result.Find
import PathQuery.Proofs.Result.Index
import PathQuery.Proofs.Result.Layout
import PathQuery.Proofs.Result.Refinement
import PathQuery.Proofs.Result.Reshape
import PathQuery.Proofs.Result.Roll
import PathQuery.Proofs.Result.Safe
import PathQuery.Proofs.Result.Update
import PathQuery.Proofs.Single
import PathQuery.Proofs.Store.Batch
import PathQuery.Proofs.Store.Clauses
import PathQuery.Proofs.Store.Cursor
import PathQuery.Proofs.Store.Match
import PathQuery.Proofs.Store.Restriction
import PathQuery.Proofs.Store.Slices
import PathQuery.Proofs.Text
import PathQuery.Proofs.Text.Lines
import PathQuery.Proofs.Text.LowerCase
import PathQuery.Proofs.Text.Offset
import PathQuery.Proofs.Time.Calendar
import PathQuery.Proofs.Time.Grammar
import PathQuery.Proofs.Time.Instant
import PathQuery.Proofs.Time.Literal
import PathQuery.Proofs.Time.Order
import PathQuery.Proofs.Value
import PathQuery.Query
import PathQuery.Result.Collection
import PathQuery.Result.Entity
import PathQuery.Result.IndexKey
import PathQuery.Store.Batch
import PathQuery.Store.Condition
import PathQuery.Store.Cursor
import PathQuery.Store.Database
import PathQuery.Store.Demand
import PathQuery.Store.Literal
import PathQuery.Store.Match
import PathQuery.Store.Registry
import PathQuery.Store.Request
import PathQuery.Store.Store
import PathQuery.Text.Blank
import PathQuery.Text.CaseTable
import PathQuery.Text.HiddenTable
import PathQuery.Text.LowerCase
import PathQuery.Text.Offset
import PathQuery.Text.Percent
import PathQuery.Text.Ranges
import PathQuery.Text.Shown
import PathQuery.Text.Utf8
import PathQuery.Time.Date
import PathQuery.Time.Literal
import PathQuery.Value
import PathQuery.Value.Place
import PathQuery.Value.Printer
import PathQuery.Value.Reader
import PathQuery.Value.Record
import PathQuery.Value.Refusal
import PathQuery.Value.Shape
