import TableQuery.Catalog.Basic
import TableQuery.Catalog.Issue
import TableQuery.Catalog.Provider
import TableQuery.CommandLine.Arguments
import TableQuery.CommandLine.Files
import TableQuery.CommandLine.Options
import TableQuery.CommandLine.Run
import TableQuery.Data.Entries
import TableQuery.Data.Json.Fault
import TableQuery.Data.Json.Printer
import TableQuery.Data.Json.Reader
import TableQuery.Data.Plain
import TableQuery.Data.Record
import TableQuery.Describe.Paths
import TableQuery.Describe.Profile
import TableQuery.Filter.Basic
import TableQuery.Filter.Condition
import TableQuery.Filter.Evaluation
import TableQuery.Filter.Expression
import TableQuery.Filter.Parse
import TableQuery.Filter.Pattern
import TableQuery.Filter.Reader
import TableQuery.Main
import TableQuery.Number.Double
import TableQuery.Number.Nearest
import TableQuery.Number.Notation
import TableQuery.Number.Shortest
import TableQuery.Proofs.Catalog.AllRows
import TableQuery.Proofs.Catalog.Coherence
import TableQuery.Proofs.Catalog.GivenTables
import TableQuery.Proofs.CommandLine.ExitCodes
import TableQuery.Proofs.CommandLine.OptionPlaces
import TableQuery.Proofs.Data.JsonText
import TableQuery.Proofs.Data.RecordFields
import TableQuery.Proofs.Data.RecordNames
import TableQuery.Proofs.Data.RecordOrder
import TableQuery.Proofs.Data.Refusal
import TableQuery.Proofs.Data.Success
import TableQuery.Proofs.Describe.FirstSamples
import TableQuery.Proofs.Describe.NotedTypes
import TableQuery.Proofs.Describe.OfferedPaths
import TableQuery.Proofs.Describe.RowOrder
import TableQuery.Proofs.Describe.SurveyedFields
import TableQuery.Proofs.Filter.Appending
import TableQuery.Proofs.Filter.BetweenBounds
import TableQuery.Proofs.Filter.Candidates
import TableQuery.Proofs.Filter.CompiledPattern
import TableQuery.Proofs.Filter.ParsedFilter
import TableQuery.Proofs.Filter.PatternSplits
import TableQuery.Proofs.Filter.QuotedBounds
import TableQuery.Proofs.Filter.StandingWords
import TableQuery.Proofs.Filter.WrittenCondition
import TableQuery.Proofs.Filter.WrittenFilter
import TableQuery.Proofs.Number.Bounds
import TableQuery.Proofs.Number.Extremes
import TableQuery.Proofs.Number.Rank
import TableQuery.Proofs.Number.Rounding
import TableQuery.Proofs.Number.ShortestDecimal
import TableQuery.Proofs.Number.Whole
import TableQuery.Proofs.Number.Word
import TableQuery.Proofs.Query.Balance
import TableQuery.Proofs.Query.BalancedTexts
import TableQuery.Proofs.Query.Bracketing
import TableQuery.Proofs.Query.CallColumns
import TableQuery.Proofs.Query.ClausePieces
import TableQuery.Proofs.Query.ColumnNames
import TableQuery.Proofs.Query.CommaParts
import TableQuery.Proofs.Query.Commas
import TableQuery.Proofs.Query.Composition
import TableQuery.Proofs.Query.Cuts
import TableQuery.Proofs.Query.Keyword
import TableQuery.Proofs.Query.QuotedRun
import TableQuery.Proofs.Query.QuotedText
import TableQuery.Proofs.Query.SelectList
import TableQuery.Proofs.Query.SelectedItem
import TableQuery.Proofs.Query.SingleColumn
import TableQuery.Proofs.Query.TextFaults
import TableQuery.Proofs.Query.WrittenLiteral
import TableQuery.Proofs.Query.WrittenOrder
import TableQuery.Proofs.Query.WrittenSelection
import TableQuery.Proofs.Query.WrittenSource
import TableQuery.Proofs.Render.AlignedColumns
import TableQuery.Proofs.Render.CsvReading
import TableQuery.Proofs.Rows.ColumnValues
import TableQuery.Proofs.Rows.FirstOccurrences
import TableQuery.Proofs.Rows.GroupTotals
import TableQuery.Proofs.Rows.GroupedRows
import TableQuery.Proofs.Rows.RepeatedRows
import TableQuery.Proofs.Session.CallOrder
import TableQuery.Proofs.Session.DistinctGroups
import TableQuery.Proofs.Session.DistinctRows
import TableQuery.Proofs.Session.Evaluation
import TableQuery.Proofs.Session.LimitedRows
import TableQuery.Proofs.Session.LogFiles
import TableQuery.Proofs.Session.LogOrder
import TableQuery.Proofs.Session.LogProgress
import TableQuery.Proofs.Session.Outcome
import TableQuery.Proofs.Session.OutputFormats
import TableQuery.Proofs.Session.Renaming
import TableQuery.Proofs.Session.ResponseFields
import TableQuery.Proofs.Session.Responses
import TableQuery.Proofs.Session.ResultColumns
import TableQuery.Proofs.Session.ShownRows
import TableQuery.Proofs.Session.TableOverviews
import TableQuery.Proofs.Session.TestedColumns
import TableQuery.Proofs.Session.UnbrokenStages
import TableQuery.Proofs.Sorting.Images
import TableQuery.Proofs.Sorting.OrderedRows
import TableQuery.Proofs.Sorting.Permutation
import TableQuery.Proofs.Text.FieldPath
import TableQuery.Proofs.Text.Trim
import TableQuery.Proofs.Text.UnitOrder
import TableQuery.Proofs.Text.Word
import TableQuery.Proofs.Value.Equality
import TableQuery.Proofs.Value.Keys
import TableQuery.Proofs.Value.NaturalOrder
import TableQuery.Proofs.Value.PlainConversion
import TableQuery.Proofs.Value.RoundTrip
import TableQuery.Proofs.Value.Structure
import TableQuery.Query.Call
import TableQuery.Query.Fault
import TableQuery.Query.Literal
import TableQuery.Query.Name
import TableQuery.Query.Nesting
import TableQuery.Query.Ordering
import TableQuery.Query.Outline
import TableQuery.Query.Places
import TableQuery.Query.Selection
import TableQuery.Query.Statement
import TableQuery.Render.Aligned
import TableQuery.Render.Cell
import TableQuery.Render.Csv
import TableQuery.Render.Format
import TableQuery.Rows.Columns
import TableQuery.Rows.Evaluation
import TableQuery.Rows.Grouping
import TableQuery.Rows.Summary
import TableQuery.Session.Execute
import TableQuery.Session.Journal
import TableQuery.Session.Limit
import TableQuery.Session.LogWriter
import TableQuery.Session.Overview
import TableQuery.Session.Response
import TableQuery.Session.Settings
import TableQuery.Session.Tool
import TableQuery.Sorting.Keys
import TableQuery.Sorting.Merge
import TableQuery.Sorting.Runs
import TableQuery.Sorting.Search
import TableQuery.Text.Blank
import TableQuery.Text.Fold
import TableQuery.Text.Letter
import TableQuery.Text.Unit
import TableQuery.Value.Basic
import TableQuery.Value.Key
import TableQuery.Value.Order
import TableQuery.Value.Path
import TableQuery.Value.Text
import TableQuery.Value.TypeName
