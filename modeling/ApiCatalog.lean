import ApiCatalog.Main
import ApiCatalog.Slug
import ApiCatalog.Store.Columns
import ApiCatalog.Store.Delete
import ApiCatalog.Proofs.Store.Table
import ApiCatalog.Proofs.Store.Write
import ApiCatalog.Proofs.Store.Apply
import ApiCatalog.Proofs.Store.Put
import ApiCatalog.Proofs.Store.Reconcile
import ApiCatalog.Proofs.Store.Link
import ApiCatalog.Proofs.Store.Import
import ApiCatalog.Proofs.Store.ImportStep
import ApiCatalog.Proofs.Store.Reachable
import ApiCatalog.Proofs.Store.Unique
import ApiCatalog.Proofs.Store.Owned
import ApiCatalog.Proofs.Store.Settled
import ApiCatalog.Proofs.Store.Imported
import ApiCatalog.Proofs.Store.Declared
import ApiCatalog.Proofs.Store.Reimport
import ApiCatalog.Proofs.Json.Text
import ApiCatalog.Proofs.Store.TextList
import ApiCatalog.Proofs.Store.Contents
import ApiCatalog.Proofs.Store.References
import ApiCatalog.Proofs.Store.Version
import ApiCatalog.Proofs.Store.Delete
import ApiCatalog.Proofs.Store.Inside
import ApiCatalog.Proofs.Store.Frame
import ApiCatalog.Proofs.Store.Consistent
import ApiCatalog.Proofs.Store.Without
import ApiCatalog.Proofs.Store.Confined
import ApiCatalog.Proofs.Store.Reconciled
import ApiCatalog.Proofs.Store.Outcome
import ApiCatalog.Proofs.Text.Utf8
import ApiCatalog.Proofs.Text.Lossy
import ApiCatalog.Proofs.Text.Split
import ApiCatalog.Proofs.Text.Blank
import ApiCatalog.Proofs.FilePath
import ApiCatalog.Proofs.FilePath.NormalForm
import ApiCatalog.Proofs.FileTree
import ApiCatalog.Proofs.FileSystem
import ApiCatalog.Proofs.FileSystem.Write
import ApiCatalog.Proofs.Json.Pretty
import ApiCatalog.Proofs.Dictionary
import ApiCatalog.Proofs.Json.Decode
import ApiCatalog.Proofs.Document
import ApiCatalog.Proofs.Release.Events
import ApiCatalog.Proofs.Release.Modes
import ApiCatalog.Proofs.Release.Exact
import ApiCatalog.Proofs.Release.Distinct
import ApiCatalog.Proofs.Release.Budget
import ApiCatalog.Proofs.FileSelection
import ApiCatalog.Proofs.Docblock.Fields
import ApiCatalog.Proofs.Docblock.Tag
import ApiCatalog.Proofs.Docblock.Lines
import ApiCatalog.Proofs.Docblock.Render
import ApiCatalog.Proofs.Docblock.Blocks
import ApiCatalog.Proofs.Docblock.FreeText
import ApiCatalog.Proofs.Docblock.ParamTag
import ApiCatalog.Proofs.Docblock.Layout
import ApiCatalog.Proofs.Docblock.WellFormed
import ApiCatalog.Proofs.Config
import ApiCatalog.Proofs.Store.Dashboard
import ApiCatalog.Proofs.Session
import ApiCatalog.Proofs.Command
import ApiCatalog.Proofs.Php.Reflect
import ApiCatalog.Proofs.Php.Comments
import ApiCatalog.Proofs.Php.Parser.Basic
import ApiCatalog.Proofs.Php.Parser.Signature
import ApiCatalog.Proofs.Php.Parser.Expression
import ApiCatalog.Proofs.Php.Parser.Statement
import ApiCatalog.Proofs.Php.Namespace.Segment
import ApiCatalog.Proofs.Php.Lexer.Text
import ApiCatalog.Proofs.Php.Lexer.Scan
import ApiCatalog.Proofs.Php.Lexer.Token
import ApiCatalog.Proofs.Php.Lexer.Seam
import ApiCatalog.Proofs.Php.Namespace
import ApiCatalog.Proofs.Php.Literal
import ApiCatalog.Proofs.Php.Parser.Call
import ApiCatalog.Proofs.Php.Parser.Parameter
import ApiCatalog.Proofs.Php.Documented
import ApiCatalog.Proofs.Php.Reference
import ApiCatalog.Proofs.Php.UseDecl
import ApiCatalog.Proofs.Classmap
import ApiCatalog.Proofs.Classmap.Shape
import ApiCatalog.Proofs.Store.Named
import ApiCatalog.Proofs.Php.Import
import ApiCatalog.Proofs.Store.Retained
import ApiCatalog.Proofs.Text.LowerCase
import ApiCatalog.Proofs.Slug
import ApiCatalog.Proofs.Json.Spelling
import ApiCatalog.Proofs.Store.ListColumn
import ApiCatalog.Proofs.Store.Browse
