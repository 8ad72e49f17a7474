import QueryPad.Bson
import QueryPad.Bson.Extended
import QueryPad.Calendar.Date
import QueryPad.Calendar.Format
import QueryPad.Calendar.Reader
import QueryPad.Checked
import QueryPad.Checked.Command
import QueryPad.Checked.Completion
import QueryPad.Checked.Lines
import QueryPad.Checked.Literal
import QueryPad.Checked.Nodes
import QueryPad.Command
import QueryPad.Command.Extraction
import QueryPad.Command.Gathering
import QueryPad.Command.Literal
import QueryPad.Command.Placement
import QueryPad.Command.Report
import QueryPad.CommandLine
import QueryPad.CommandLine.Reader
import QueryPad.Completion
import QueryPad.Completion.Calls
import QueryPad.Completion.Context
import QueryPad.Completion.Item
import QueryPad.Completion.Key
import QueryPad.Completion.Names
import QueryPad.Completion.Property
import QueryPad.Completion.Shell
import QueryPad.Connection
import QueryPad.Error
import QueryPad.Json.Number
import QueryPad.Json.Printer
import QueryPad.Json.Reader
import QueryPad.Json.Value
import QueryPad.Main
import QueryPad.Number.Binary64
import QueryPad.Number.Shortest
import QueryPad.Number.Word
import QueryPad.ObjectId
import QueryPad.Pad
import QueryPad.Program
import QueryPad.Program.ShellScript
import QueryPad.Program.Surroundings
import QueryPad.Proofs.Calendar.Date
import QueryPad.Proofs.Calendar.Reading
import QueryPad.Proofs.Calendar.Rereading
import QueryPad.Proofs.Checked.Commands
import QueryPad.Proofs.Checked.Context
import QueryPad.Proofs.Checked.Embedded
import QueryPad.Proofs.Checked.Leaves
import QueryPad.Proofs.Checked.Lines
import QueryPad.Proofs.Checked.Literal
import QueryPad.Proofs.Checked.Nodes
import QueryPad.Proofs.Checked.Places
import QueryPad.Proofs.Checked.Values
import QueryPad.Proofs.Command.Dates
import QueryPad.Proofs.Command.Denotation
import QueryPad.Proofs.Command.Gathering
import QueryPad.Proofs.Command.Lookup
import QueryPad.Proofs.Command.Members
import QueryPad.Proofs.Command.Messages
import QueryPad.Proofs.Command.Order
import QueryPad.Proofs.Command.Patterns
import QueryPad.Proofs.Command.Placement
import QueryPad.Proofs.Command.Places
import QueryPad.Proofs.Command.PlainJson
import QueryPad.Proofs.Command.Reports
import QueryPad.Proofs.Command.Rereading
import QueryPad.Proofs.Command.Shares
import QueryPad.Proofs.Command.Unplaced
import QueryPad.Proofs.Completion.Brackets
import QueryPad.Proofs.Completion.Calls
import QueryPad.Proofs.Completion.Context
import QueryPad.Proofs.Completion.Deciding
import QueryPad.Proofs.Completion.Documents
import QueryPad.Proofs.Completion.Edits
import QueryPad.Proofs.Completion.Elders
import QueryPad.Proofs.Completion.Embedded
import QueryPad.Proofs.Completion.KeyPaths
import QueryPad.Proofs.Completion.KeyPlaces
import QueryPad.Proofs.Completion.Labels
import QueryPad.Proofs.Completion.Leaves
import QueryPad.Proofs.Completion.OpenLists
import QueryPad.Proofs.Completion.Standing
import QueryPad.Proofs.Completion.Typing
import QueryPad.Proofs.Completion.WrittenKeys
import QueryPad.Proofs.Json.Layout
import QueryPad.Proofs.Json.Lexemes
import QueryPad.Proofs.Json.Number
import QueryPad.Proofs.Json.Rereading
import QueryPad.Proofs.Json.Storing
import QueryPad.Proofs.Json.Texts
import QueryPad.Proofs.Json.Thinning
import QueryPad.Proofs.Json.Value
import QueryPad.Proofs.Regex.Escapes
import QueryPad.Proofs.Regex.Slashes
import QueryPad.Proofs.Schema.Alternatives
import QueryPad.Proofs.Schema.Inside
import QueryPad.Proofs.Schema.Moved
import QueryPad.Proofs.Schema.Nested
import QueryPad.Proofs.Schema.Query
import QueryPad.Proofs.Schema.Resampled
import QueryPad.Proofs.Schema.Sampled
import QueryPad.Proofs.Schema.Scanning
import QueryPad.Proofs.Server.Documents
import QueryPad.Proofs.Server.Handlers
import QueryPad.Proofs.Server.Notifications
import QueryPad.Proofs.Syntax.Acceptance
import QueryPad.Proofs.Syntax.Builder
import QueryPad.Proofs.Syntax.CommandParts
import QueryPad.Proofs.Syntax.CommandWords
import QueryPad.Proofs.Syntax.Contents
import QueryPad.Proofs.Syntax.Derived
import QueryPad.Proofs.Syntax.Descent.Commands
import QueryPad.Proofs.Syntax.Descent.Steps
import QueryPad.Proofs.Syntax.Descent.Termination
import QueryPad.Proofs.Syntax.Descent.Values
import QueryPad.Proofs.Syntax.LastLeaf
import QueryPad.Proofs.Syntax.Leaves
import QueryPad.Proofs.Syntax.LineEnds
import QueryPad.Proofs.Syntax.Lossless
import QueryPad.Proofs.Syntax.Messages
import QueryPad.Proofs.Syntax.Neighbours
import QueryPad.Proofs.Syntax.Nesting
import QueryPad.Proofs.Syntax.Nodes
import QueryPad.Proofs.Syntax.Numbers
import QueryPad.Proofs.Syntax.OpenText
import QueryPad.Proofs.Syntax.Pairing
import QueryPad.Proofs.Syntax.Places
import QueryPad.Proofs.Syntax.Production
import QueryPad.Proofs.Syntax.Recovery
import QueryPad.Proofs.Syntax.Resumption
import QueryPad.Proofs.Syntax.Scheme
import QueryPad.Proofs.Syntax.Simulation
import QueryPad.Proofs.Syntax.Soundness
import QueryPad.Proofs.Syntax.Spans
import QueryPad.Proofs.Syntax.Starts
import QueryPad.Proofs.Syntax.Unplaced
import QueryPad.Proofs.Syntax.Visits
import QueryPad.Proofs.Text.Galois
import QueryPad.Proofs.Text.LineEnds
import QueryPad.Proofs.Text.Lines
import QueryPad.Proofs.Text.Order
import QueryPad.Proofs.Text.Position
import QueryPad.Proofs.Token.Continuation
import QueryPad.Proofs.Token.Lexer
import QueryPad.Proofs.Token.LineEnds
import QueryPad.Proofs.Token.Neighbours
import QueryPad.Proofs.Token.Numerals
import QueryPad.Proofs.Token.Prefixes
import QueryPad.Proofs.Token.Tiling
import QueryPad.Proofs.Token.Words
import QueryPad.Regex.CharacterSet
import QueryPad.Regex.Literal
import QueryPad.Regex.Pattern
import QueryPad.Regex.Property
import QueryPad.Regex.Reader
import QueryPad.Regex.Storage
import QueryPad.Regex.Validity
import QueryPad.Schema.Fields
import QueryPad.Schema.Navigation
import QueryPad.Schema.Pipeline
import QueryPad.Schema.Query
import QueryPad.Schema.Scanning
import QueryPad.Schema.Search
import QueryPad.Schema.Store
import QueryPad.Server
import QueryPad.Server.Documents
import QueryPad.Server.Handlers
import QueryPad.Server.Message
import QueryPad.Server.Parameters
import QueryPad.Settings
import QueryPad.Settings.File
import QueryPad.Syntax.Arena
import QueryPad.Syntax.Builder
import QueryPad.Syntax.Commands
import QueryPad.Syntax.Descent
import QueryPad.Syntax.Focus
import QueryPad.Syntax.Grammar
import QueryPad.Syntax.Input
import QueryPad.Syntax.Tree
import QueryPad.Syntax.Walk
import QueryPad.Text.Letter
import QueryPad.Text.Lines
import QueryPad.Text.Position
import QueryPad.Text.Width
import QueryPad.Token
import QueryPad.Token.Lexer
import QueryPad.Token.Piece
import QueryPad.Token.Scan
import QueryPad.Toml.Document
import QueryPad.Toml.Printer
import QueryPad.Toml.Quoted
import QueryPad.Toml.Reader
import QueryPad.Toml.Scalar
