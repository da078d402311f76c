import Docsmith.Cli.Arguments
import Docsmith.Cli.Command
import Docsmith.Cli.Console
import Docsmith.Cli.Session
import Docsmith.Doc.Comment
import Docsmith.Doc.Declaration
import Docsmith.Doc.Slot
import Docsmith.Failure
import Docsmith.Files.Discovery
import Docsmith.Files.Folder
import Docsmith.Files.Glob
import Docsmith.Files.Path
import Docsmith.Files.Tree
import Docsmith.Find.Finding
import Docsmith.Find.Resolve
import Docsmith.Generate.Generator
import Docsmith.Generate.Input
import Docsmith.Generate.Pool
import Docsmith.Generate.PoolRun
import Docsmith.Generate.Race
import Docsmith.Generate.Run
import Docsmith.Git.Commit
import Docsmith.Git.Message
import Docsmith.Go.Declarations
import Docsmith.Go.Grammar
import Docsmith.Go.Lexis
import Docsmith.Go.Strip
import Docsmith.Grammar.Place
import Docsmith.Grammar.Read
import Docsmith.Grammar.Rule
import Docsmith.Identifier
import Docsmith.Json.Basic
import Docsmith.Json.Reading
import Docsmith.Language.Basic
import Docsmith.Language.Registry
import Docsmith.Main
import Docsmith.Minify.Minifier
import Docsmith.Minify.Step
import Docsmith.Number.Binary
import Docsmith.Number.Decimal
import Docsmith.Number.Number
import Docsmith.Number.Reading
import Docsmith.Patch.Basic
import Docsmith.Project
import Docsmith.Proofs.Doc.Escape
import Docsmith.Proofs.Doc.Grown
import Docsmith.Proofs.Doc.Landing
import Docsmith.Proofs.Doc.Leading
import Docsmith.Proofs.Doc.LineComment
import Docsmith.Proofs.Doc.Literal
import Docsmith.Proofs.Doc.Places
import Docsmith.Proofs.Doc.Slot
import Docsmith.Proofs.Files.Depth
import Docsmith.Proofs.Files.Discovery
import Docsmith.Proofs.Files.Glob
import Docsmith.Proofs.Files.Listing
import Docsmith.Proofs.Files.Path
import Docsmith.Proofs.Files.Store
import Docsmith.Proofs.Files.Tree
import Docsmith.Proofs.Find.Resolve
import Docsmith.Proofs.Generate.Cancellation
import Docsmith.Proofs.Generate.Concurrency
import Docsmith.Proofs.Generate.History
import Docsmith.Proofs.Generate.Ledger
import Docsmith.Proofs.Generate.Limits
import Docsmith.Proofs.Generate.Progress
import Docsmith.Proofs.Generate.Transition
import Docsmith.Proofs.Generate.Verdict
import Docsmith.Proofs.Go.Bare
import Docsmith.Proofs.Go.Comments
import Docsmith.Proofs.Go.Depth
import Docsmith.Proofs.Go.Firm
import Docsmith.Proofs.Go.Formed
import Docsmith.Proofs.Go.Groups
import Docsmith.Proofs.Go.Inserted
import Docsmith.Proofs.Go.Joints
import Docsmith.Proofs.Go.Kin
import Docsmith.Proofs.Go.Landings
import Docsmith.Proofs.Go.Lookahead
import Docsmith.Proofs.Go.Members
import Docsmith.Proofs.Go.Moods
import Docsmith.Proofs.Go.Notes
import Docsmith.Proofs.Go.Pieces
import Docsmith.Proofs.Go.Regular
import Docsmith.Proofs.Go.Shorter
import Docsmith.Proofs.Go.Sites
import Docsmith.Proofs.Go.Skims
import Docsmith.Proofs.Go.Slots
import Docsmith.Proofs.Go.Tokens
import Docsmith.Proofs.Go.Told
import Docsmith.Proofs.Go.Twins
import Docsmith.Proofs.Grammar.Depth
import Docsmith.Proofs.Grammar.Grown
import Docsmith.Proofs.Grammar.Laid
import Docsmith.Proofs.Grammar.Lined
import Docsmith.Proofs.Grammar.Moods
import Docsmith.Proofs.Grammar.Place
import Docsmith.Proofs.Grammar.Run
import Docsmith.Proofs.Grammar.Whole
import Docsmith.Proofs.Grammar.Yields
import Docsmith.Proofs.Identifier
import Docsmith.Proofs.Keys
import Docsmith.Proofs.Language.Failures
import Docsmith.Proofs.Minify.Bare
import Docsmith.Proofs.Minify.Budget
import Docsmith.Proofs.Minify.Cache
import Docsmith.Proofs.Minify.Outputs
import Docsmith.Proofs.Minify.Rounds
import Docsmith.Proofs.Minify.Stages
import Docsmith.Proofs.Minify.Words
import Docsmith.Proofs.Patch.Alike
import Docsmith.Proofs.Patch.Apply
import Docsmith.Proofs.Patch.Comments
import Docsmith.Proofs.Patch.Declared
import Docsmith.Proofs.Patch.Documented
import Docsmith.Proofs.Patch.Findings
import Docsmith.Proofs.Patch.Log
import Docsmith.Proofs.Patch.Order
import Docsmith.Proofs.Patch.Recall
import Docsmith.Proofs.Patch.Refusals
import Docsmith.Proofs.Project.Accounts
import Docsmith.Proofs.Project.Findings
import Docsmith.Proofs.Project.Schedule
import Docsmith.Proofs.Python.Apart
import Docsmith.Proofs.Python.Bare
import Docsmith.Proofs.Python.Bodies
import Docsmith.Proofs.Python.Clearing
import Docsmith.Proofs.Python.Dark
import Docsmith.Proofs.Python.Findings
import Docsmith.Proofs.Python.Firm
import Docsmith.Proofs.Python.Layout
import Docsmith.Proofs.Python.Literal
import Docsmith.Proofs.Python.Origins
import Docsmith.Proofs.Python.Slots
import Docsmith.Proofs.Python.Tamed
import Docsmith.Proofs.Python.Tokens
import Docsmith.Proofs.Returns
import Docsmith.Proofs.Service.Retry
import Docsmith.Proofs.Settings.Layers
import Docsmith.Proofs.Sorting
import Docsmith.Proofs.Source.Deletions
import Docsmith.Proofs.Source.Ink
import Docsmith.Proofs.Source.Insertions
import Docsmith.Proofs.Source.Kept
import Docsmith.Proofs.Source.Parting
import Docsmith.Proofs.Source.Removal
import Docsmith.Proofs.Source.Rendering
import Docsmith.Proofs.Source.Rows
import Docsmith.Proofs.Source.Taming
import Docsmith.Proofs.Source.Whole
import Docsmith.Proofs.Text.Fill
import Docsmith.Proofs.Text.Filling
import Docsmith.Proofs.Text.Order
import Docsmith.Proofs.Text.Paragraphs
import Docsmith.Proofs.Text.Spelling
import Docsmith.Proofs.Text.Words
import Docsmith.Proofs.Tree.Firm
import Docsmith.Proofs.Tree.Siblings
import Docsmith.Proofs.Tree.Walk
import Docsmith.Python.Declarations
import Docsmith.Python.Grammar
import Docsmith.Python.Lexis
import Docsmith.Python.Literal
import Docsmith.Python.Strip
import Docsmith.Regex.Basic
import Docsmith.Regex.Reading
import Docsmith.Service.Endpoint
import Docsmith.Service.Fault
import Docsmith.Service.Response
import Docsmith.Service.Retry
import Docsmith.Settings.Basic
import Docsmith.Settings.EnvFile
import Docsmith.Settings.Environment
import Docsmith.Settings.Loading
import Docsmith.Source.Bytes
import Docsmith.Source.Edit
import Docsmith.Source.Line
import Docsmith.Text.Blank
import Docsmith.Text.Case
import Docsmith.Text.Digit
import Docsmith.Text.Fill
import Docsmith.Text.Order
import Docsmith.Text.Printable
import Docsmith.Text.Quoted
import Docsmith.Text.Ranges
import Docsmith.Text.Utf8
import Docsmith.Text.Word
import Docsmith.Tokens
import Docsmith.Tree.Node
import Docsmith.Tree.SourceTree
import Docsmith.Yaml.Reading
import Docsmith.Yaml.Scalar
