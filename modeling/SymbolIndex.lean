import SymbolIndex.CommandLine.Arguments
import SymbolIndex.CommandLine.Outcome
import SymbolIndex.Config.File
import SymbolIndex.Config.Settings
import SymbolIndex.Config.Toml
import SymbolIndex.Error
import SymbolIndex.Extraction
import SymbolIndex.FileSystem
import SymbolIndex.Ignore.Glob
import SymbolIndex.Ignore.Level
import SymbolIndex.Ignore.Rule
import SymbolIndex.Index
import SymbolIndex.JavaScript.Expression
import SymbolIndex.JavaScript.Fault
import SymbolIndex.JavaScript.Function
import SymbolIndex.JavaScript.Grammar
import SymbolIndex.JavaScript.Lexical
import SymbolIndex.JavaScript.Literal
import SymbolIndex.JavaScript.Markup
import SymbolIndex.JavaScript.Member
import SymbolIndex.JavaScript.Parse
import SymbolIndex.JavaScript.Program
import SymbolIndex.JavaScript.Reader
import SymbolIndex.JavaScript.Statement
import SymbolIndex.Json.Printer
import SymbolIndex.Json.Reader
import SymbolIndex.Json.Value
import SymbolIndex.Log
import SymbolIndex.Main
import SymbolIndex.Path
import SymbolIndex.Policy
import SymbolIndex.Proofs.CommandLine
import SymbolIndex.Proofs.Comment
import SymbolIndex.Proofs.Config
import SymbolIndex.Proofs.Config.Setting
import SymbolIndex.Proofs.Decoding
import SymbolIndex.Proofs.Depth
import SymbolIndex.Proofs.Extraction
import SymbolIndex.Proofs.FileSystem
import SymbolIndex.Proofs.FileSystem.Names
import SymbolIndex.Proofs.FileSystem.Reordered
import SymbolIndex.Proofs.FileSystem.Resolution
import SymbolIndex.Proofs.FileSystem.Without
import SymbolIndex.Proofs.Index
import SymbolIndex.Proofs.Isolation
import SymbolIndex.Proofs.JavaScript.Expression
import SymbolIndex.Proofs.JavaScript.Grammar
import SymbolIndex.Proofs.JavaScript.Member
import SymbolIndex.Proofs.JavaScript.Name
import SymbolIndex.Proofs.JavaScript.Parts
import SymbolIndex.Proofs.JavaScript.Program
import SymbolIndex.Proofs.JavaScript.Reader
import SymbolIndex.Proofs.JavaScript.Statement
import SymbolIndex.Proofs.Json.Grammar
import SymbolIndex.Proofs.Json.Printer
import SymbolIndex.Proofs.Json.Reader
import SymbolIndex.Proofs.Listing
import SymbolIndex.Proofs.Log
import SymbolIndex.Proofs.Modifier
import SymbolIndex.Proofs.Prune
import SymbolIndex.Proofs.Registry.Combined
import SymbolIndex.Proofs.Registry.Constructor
import SymbolIndex.Proofs.Registry.Display
import SymbolIndex.Proofs.Registry.Entries
import SymbolIndex.Proofs.Registry.File
import SymbolIndex.Proofs.Registry.History
import SymbolIndex.Proofs.Registry.Json
import SymbolIndex.Proofs.Registry.Order
import SymbolIndex.Proofs.Registry.Scope
import SymbolIndex.Proofs.Registry.Stored
import SymbolIndex.Proofs.Reordering
import SymbolIndex.Proofs.Saving
import SymbolIndex.Proofs.Site
import SymbolIndex.Proofs.SourceOrder
import SymbolIndex.Proofs.Superclass
import SymbolIndex.Proofs.Symbol
import SymbolIndex.Proofs.Syntax.Declaration
import SymbolIndex.Proofs.Syntax.Fault
import SymbolIndex.Proofs.Syntax.Outline
import SymbolIndex.Proofs.Syntax.Parts
import SymbolIndex.Proofs.Syntax.Traversal
import SymbolIndex.Proofs.Text.Utf8
import SymbolIndex.Proofs.Toml.Document
import SymbolIndex.Proofs.Toml.Reader
import SymbolIndex.Proofs.Toml.String
import SymbolIndex.Proofs.Toml.Value
import SymbolIndex.Proofs.Totals
import SymbolIndex.Proofs.Walk
import SymbolIndex.Registry.Combined
import SymbolIndex.Registry.Entries
import SymbolIndex.Registry.File
import SymbolIndex.Registry.Json
import SymbolIndex.Symbol
import SymbolIndex.Syntax.Cursor
import SymbolIndex.Syntax.Declaration
import SymbolIndex.Syntax.Fault
import SymbolIndex.Syntax.Kind
import SymbolIndex.Syntax.Node
import SymbolIndex.Syntax.Traversal
import SymbolIndex.Text.Binary64
import SymbolIndex.Text.Invisible
import SymbolIndex.Text.Quoted
import SymbolIndex.Text.Space
import SymbolIndex.Text.Utf8
import SymbolIndex.Toml.Document
import SymbolIndex.Toml.Fault
import SymbolIndex.Toml.Number
import SymbolIndex.Toml.Printer
import SymbolIndex.Toml.Reader
import SymbolIndex.Toml.Table
import SymbolIndex.Toml.Value
import SymbolIndex.Walk
import SymbolIndex.Proofs.Path
import SymbolIndex.Proofs.Syntax.Report
import SymbolIndex.Proofs.ClassLine
import SymbolIndex.Proofs.Syntax.Cursor
