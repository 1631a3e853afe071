import MplWorkbench.Block
import MplWorkbench.Command.Basic
import MplWorkbench.Command.Run
import MplWorkbench.CommandLine.Basic
import MplWorkbench.CommandLine.Reading
import MplWorkbench.Defect
import MplWorkbench.Definition
import MplWorkbench.Document.Basic
import MplWorkbench.Document.Buffer
import MplWorkbench.Document.Cache
import MplWorkbench.Event
import MplWorkbench.Files.Disk
import MplWorkbench.Files.Path
import MplWorkbench.Files.Pattern
import MplWorkbench.Files.Search
import MplWorkbench.Json
import MplWorkbench.Kind
import MplWorkbench.Label
import MplWorkbench.Lexeme.Basic
import MplWorkbench.Lexeme.Name
import MplWorkbench.Lexeme.Number
import MplWorkbench.Lexeme.Quotation
import MplWorkbench.Lexeme.Region
import MplWorkbench.Lexeme.Trivia
import MplWorkbench.Main
import MplWorkbench.Parse
import MplWorkbench.Project.Basic
import MplWorkbench.Project.Sources
import MplWorkbench.Proofs.Command.Definition
import MplWorkbench.Proofs.Document.Coherence
import MplWorkbench.Proofs.Document.Edit
import MplWorkbench.Proofs.Files.Disk
import MplWorkbench.Proofs.Files.Escape
import MplWorkbench.Proofs.Files.Path
import MplWorkbench.Proofs.Files.Search
import MplWorkbench.Proofs.Label.Listing
import MplWorkbench.Proofs.Label.Resolution
import MplWorkbench.Proofs.Label.Search
import MplWorkbench.Proofs.Lexeme.Classes
import MplWorkbench.Proofs.Lexeme.Defects
import MplWorkbench.Proofs.Lexeme.Ending
import MplWorkbench.Proofs.Lexeme.InStep
import MplWorkbench.Proofs.Lexeme.Layout
import MplWorkbench.Proofs.Lexeme.Numbers
import MplWorkbench.Proofs.Lexeme.Recognition
import MplWorkbench.Proofs.Lexeme.Setting
import MplWorkbench.Proofs.Lexeme.Shape
import MplWorkbench.Proofs.Lexeme.Spelling
import MplWorkbench.Proofs.Lexeme.Vocabulary
import MplWorkbench.Proofs.Lexeme.Words
import MplWorkbench.Proofs.Project.Folder
import MplWorkbench.Proofs.Project.Sources
import MplWorkbench.Proofs.Project.Spelling
import MplWorkbench.Proofs.Project.Walk
import MplWorkbench.Proofs.Reading.Collapse
import MplWorkbench.Proofs.Reading.Coverage
import MplWorkbench.Proofs.Reading.Descent
import MplWorkbench.Proofs.Reading.Diagnosis
import MplWorkbench.Proofs.Reading.Dump
import MplWorkbench.Proofs.Reading.Framing
import MplWorkbench.Proofs.Reading.InStep
import MplWorkbench.Proofs.Reading.Layout
import MplWorkbench.Proofs.Reading.Limit
import MplWorkbench.Proofs.Reading.Names
import MplWorkbench.Proofs.Reading.Openings
import MplWorkbench.Proofs.Reading.Places
import MplWorkbench.Proofs.Reading.Protocol
import MplWorkbench.Proofs.Reading.Recognition
import MplWorkbench.Proofs.Reading.Script
import MplWorkbench.Proofs.Reading.Setting
import MplWorkbench.Proofs.Reading.Skipping
import MplWorkbench.Proofs.Reading.Spelling
import MplWorkbench.Proofs.Reading.Steps
import MplWorkbench.Proofs.Reading.Terminals
import MplWorkbench.Proofs.Reading.Totality
import MplWorkbench.Proofs.Selection.Expansion
import MplWorkbench.Proofs.Selection.Words
import MplWorkbench.Proofs.Text.Encoding
import MplWorkbench.Proofs.Text.Inversion
import MplWorkbench.Proofs.Text.Layout
import MplWorkbench.Proofs.Text.Lines
import MplWorkbench.Proofs.Text.Passage
import MplWorkbench.Proofs.Text.Quoted
import MplWorkbench.Proofs.Text.Setting
import MplWorkbench.Proofs.Traversal
import MplWorkbench.Proofs.Tree.Acceptance
import MplWorkbench.Proofs.Tree.Blemish
import MplWorkbench.Proofs.Tree.Caret
import MplWorkbench.Proofs.Tree.Chain
import MplWorkbench.Proofs.Tree.Dump
import MplWorkbench.Proofs.Tree.Enumeration
import MplWorkbench.Proofs.Tree.Forest
import MplWorkbench.Proofs.Tree.Frame
import MplWorkbench.Proofs.Tree.Growth
import MplWorkbench.Proofs.Tree.Name
import MplWorkbench.Proofs.Tree.Order
import MplWorkbench.Proofs.Tree.Scan
import MplWorkbench.Proofs.Tree.Search
import MplWorkbench.Proofs.Tree.Sequence
import MplWorkbench.Proofs.Tree.Sides
import MplWorkbench.Reading
import MplWorkbench.Reading.Nesting
import MplWorkbench.Selection
import MplWorkbench.Text.Basic
import MplWorkbench.Text.Cursor
import MplWorkbench.Text.Lines
import MplWorkbench.Text.Quoted
import MplWorkbench.Text.Slice
import MplWorkbench.Text.Unprintable
import MplWorkbench.Toml.Document
import MplWorkbench.Toml.Scalar
import MplWorkbench.Toml.Table
import MplWorkbench.Toml.Token
import MplWorkbench.Tree.Arena
import MplWorkbench.Tree.Basic
import MplWorkbench.Tree.Builder
import MplWorkbench.Tree.Dump
import MplWorkbench.Tree.Locate
import MplWorkbench.Tree.Thread
import MplWorkbench.Tree.Walk
