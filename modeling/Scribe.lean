import Scribe.Buffer.Basic
import Scribe.Buffer.Context
import Scribe.Buffer.Delta
import Scribe.Buffer.Editor
import Scribe.Buffer.Position
import Scribe.CommandLine
import Scribe.Dict
import Scribe.Error
import Scribe.Highlight.ModeFile
import Scribe.Highlight.RuleTable
import Scribe.Highlight.Scan
import Scribe.Highlight.StateStack
import Scribe.Highlight.Token
import Scribe.Highlight.Tokenizer
import Scribe.Json.Basic
import Scribe.Json.Fields
import Scribe.Json.Reader
import Scribe.Json.Writer
import Scribe.Library.Archive
import Scribe.Library.Basic
import Scribe.Main
import Scribe.Pattern.Basic
import Scribe.Pattern.CharSet
import Scribe.Pattern.ClassReader
import Scribe.Pattern.Error
import Scribe.Pattern.Escape
import Scribe.Pattern.Lexeme
import Scribe.Pattern.Match
import Scribe.Pattern.Reader
import Scribe.Pattern.Tree
import Scribe.Pattern.Union
import Scribe.Session.Basic
import Scribe.Session.Event
import Scribe.Session.Inserter
import Scribe.Session.Tabstop
import Scribe.Snippet.Definition
import Scribe.Snippet.Expansion
import Scribe.Snippet.File
import Scribe.Snippet.Filling
import Scribe.Snippet.Lexeme
import Scribe.Snippet.Parser
import Scribe.Snippet.Placeholder
import Scribe.Snippet.Store
import Scribe.Snippet.Token
import Scribe.Snippet.Transform
import Scribe.Snippet.Trigger
import Scribe.Snippet.Variables
import Scribe.Snippet.Walk
import Scribe.Text.Basic
import Scribe.Text.Case
import Scribe.Text.Clock
import Scribe.Text.Number
import Scribe.Text.Offset
import Scribe.Text.Path
import Scribe.Text.Quoted
import Scribe.Unicode.Case
import Scribe.Unicode.Category
import Scribe.Unicode.Property
import Scribe.Proofs.Highlight.Coverage
import Scribe.Proofs.Dict
import Scribe.Proofs.Highlight.Renaming
import Scribe.Proofs.Highlight.Hoisting
import Scribe.Proofs.Highlight.Compiling
import Scribe.Proofs.Highlight.Nesting
import Scribe.Proofs.Highlight.Embedding
import Scribe.Proofs.Highlight.Lossless
import Scribe.Proofs.Library.Built
import Scribe.Proofs.Library.Slices
import Scribe.Proofs.Snippet.Meaning
import Scribe.Proofs.Snippet.Fill
import Scribe.Proofs.Buffer.Places
import Scribe.Proofs.Buffer.Rows
import Scribe.Proofs.Buffer.Splice
import Scribe.Proofs.Session.Change
import Scribe.Proofs.Session.Moves
import Scribe.Proofs.Snippet.Layout
import Scribe.Proofs.Snippet.Occurrences
import Scribe.Proofs.Snippet.WellFormed
import Scribe.Proofs.Snippet.Records
import Scribe.Proofs.Session.Mirrors
import Scribe.Proofs.Session.Run
import Scribe.Proofs.Session.Lifecycle
import Scribe.Proofs.Buffer.Outside
import Scribe.Proofs.Buffer.Sound
import Scribe.Proofs.Session.Edges
import Scribe.Proofs.Session.Rewrite
import Scribe.Proofs.Session.Frame
import Scribe.Proofs.Session.Update
import Scribe.Proofs.Session.Within
import Scribe.Proofs.Session.Settled
import Scribe.Proofs.Session.Added
import Scribe.Proofs.Session.Begun
import Scribe.Proofs.Session.Arrival
import Scribe.Proofs.Session.Steady
import Scribe.Proofs.Session.Inserted
import Scribe.Proofs.Session.Rest
import Scribe.Proofs.Buffer.Typing
import Scribe.Proofs.Snippet.Formats
import Scribe.Proofs.Session.Refresh
import Scribe.Proofs.Session.Flat
import Scribe.Proofs.Buffer.Inside
import Scribe.Proofs.Session.Follow
import Scribe.Proofs.Session.Told
import Scribe.Proofs.Session.Order
import Scribe.Proofs.Buffer.Overlap
import Scribe.Proofs.Session.Overlap
import Scribe.Proofs.Snippet.RoundTrip
import Scribe.Proofs.Snippet.Transforms
import Scribe.Proofs.Session.Act
import Scribe.Proofs.Session.Thinned
import Scribe.Proofs.Session.Final
import Scribe.Proofs.Session.Tour
import Scribe.Proofs.Pattern.Shared
import Scribe.Proofs.Pattern.Classes
import Scribe.Proofs.Pattern.Lexemes
import Scribe.Proofs.Pattern.Numbers
import Scribe.Proofs.Pattern.Readings
import Scribe.Proofs.Pattern.Moved
import Scribe.Proofs.Pattern.Simulation
import Scribe.Proofs.Pattern.Joined
import Scribe.Proofs.Pattern.Search
import Scribe.Proofs.Pattern.Union
import Scribe.Proofs.Snippet.Slashes
import Scribe.Proofs.Json.Written
import Scribe.Proofs.Highlight.Written
import Scribe.Proofs.Library.Names
import Scribe.Proofs.Snippet.Extra
import Scribe.Proofs.Library.Restored
import Scribe.Proofs.Library.Reloaded
import Scribe.Proofs.Highlight.Steps
import Scribe.Proofs.Highlight.Budget
import Scribe.Proofs.Highlight.Stalling
import Scribe.Proofs.Highlight.Frames
import Scribe.Proofs.Highlight.Surroundings
import Scribe.Proofs.Highlight.InlineStates
import Scribe.Proofs.Highlight.Includes
import Scribe.Proofs.Highlight.Merging
import Scribe.Proofs.Snippet.Literals
import Scribe.Proofs.Snippet.Guards
import Scribe.Proofs.Snippet.Pieces
import Scribe.Proofs.Session.Indented
import Scribe.Proofs.Snippet.Batches
import Scribe.Proofs.Snippet.Registered
import Scribe.Proofs.Library.Collected
import Scribe.Proofs.Buffer.Replay
import Scribe.Proofs.Buffer.Followed
import Scribe.Proofs.Buffer.Cursors
import Scribe.Proofs.Snippet.Replaced
import Scribe.Proofs.Snippet.Tree
import Scribe.Proofs.Snippet.Resolved
import Scribe.Proofs.Pattern.Anchored
import Scribe.Proofs.Pattern.Glued
import Scribe.Proofs.Snippet.Adjacent
import Scribe.Proofs.Session.Triggered
import Scribe.Proofs.Session.Typed
import Scribe.Proofs.Session.Together
import Scribe.Proofs.Session.Unlinked
import Scribe.Proofs.Pattern.Greedy
import Scribe.Proofs.Snippet.Lookahead
import Scribe.Proofs.Snippet.Unfinished
import Scribe.Proofs.Snippet.Bracketed
import Scribe.Proofs.Snippet.Grammar
import Scribe.Proofs.Snippet.Rules
import Scribe.Proofs.Snippet.Turns
