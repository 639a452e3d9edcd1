import Inlay.Annotation
import Inlay.Annotation.Report
import Inlay.Annotation.UrlList
import Inlay.CommandLine.Arguments
import Inlay.CommandLine.Run
import Inlay.CommandLine.ScanReport
import Inlay.CommandLine.Sources
import Inlay.CommandLine.Switch
import Inlay.Config
import Inlay.Css.Color
import Inlay.Css.Minify
import Inlay.Css.Quoted
import Inlay.Css.Selector
import Inlay.Css.Token
import Inlay.Decimal.Binary64
import Inlay.Decimal.Shortest
import Inlay.Disk.Access
import Inlay.Disk.Fault
import Inlay.Disk.Folder
import Inlay.Error
import Inlay.Files
import Inlay.Html.Binding
import Inlay.Html.Minify
import Inlay.Html.Token
import Inlay.Json.Fault
import Inlay.Json.Number
import Inlay.Json.Pretty
import Inlay.Json.Reader
import Inlay.Json.Record
import Inlay.Json.Skip
import Inlay.Main
import Inlay.Options
import Inlay.Pass.Style
import Inlay.Pass.Template
import Inlay.Path
import Inlay.Proofs.Annotation.Brackets
import Inlay.Proofs.Annotation.LineEnds
import Inlay.Proofs.Annotation.Readers
import Inlay.Proofs.Annotation.Report
import Inlay.Proofs.Annotation.Rescan
import Inlay.Proofs.Annotation.Scan
import Inlay.Proofs.Html.Attributes
import Inlay.Proofs.Html.Bindings
import Inlay.Proofs.Html.Comments
import Inlay.Proofs.Html.Content
import Inlay.Proofs.Html.InlineWords
import Inlay.Proofs.Html.Respaced
import Inlay.Proofs.Html.TagSpace
import Inlay.Proofs.Html.Tokens
import Inlay.Proofs.Html.Verbatim
import Inlay.Proofs.Html.Written
import Inlay.Proofs.Json.LineEnds
import Inlay.Proofs.Pass.Agreement
import Inlay.Proofs.Pass.Delays
import Inlay.Proofs.Pass.Literals
import Inlay.Proofs.Pass.Replacement
import Inlay.Proofs.Pass.Rounds
import Inlay.Proofs.Pass.StyleSheets
import Inlay.Proofs.Path.Components
import Inlay.Proofs.Path.Folder
import Inlay.Proofs.Path.Resolve
import Inlay.Proofs.Path.Trail
import Inlay.Proofs.Reading
import Inlay.Proofs.Reads
import Inlay.Proofs.Sorting
import Inlay.Proofs.Stylesheet.LessImports
import Inlay.Proofs.Stylesheet.OneLine
import Inlay.Proofs.Text.Blank
import Inlay.Proofs.Text.Literal
import Inlay.Proofs.Text.Pieces
import Inlay.Proofs.Text.Splice
import Inlay.Proofs.Text.Words
import Inlay.Proofs.Transform
import Inlay.Reading
import Inlay.Scss.Compile
import Inlay.Scss.Fault
import Inlay.Scss.Sheet
import Inlay.Scss.Value
import Inlay.Session
import Inlay.Stylesheet.Compile
import Inlay.Stylesheet.Dialect
import Inlay.Stylesheet.Less
import Inlay.Stylesheet.Reference
import Inlay.Text
import Inlay.Text.Hidden
import Inlay.Text.Literal
import Inlay.Text.Utf8
import Inlay.Toml
import Inlay.Toml.Quoted
import Inlay.Toml.Scalar
import Inlay.Toml.Table
import Inlay.Transform
import Inlay.Proofs.Annotation.SourceOrder
import Inlay.Proofs.Text.SumLines
import Inlay.Proofs.CommandLine.Sources
import Inlay.Proofs.Disk.Changes
import Inlay.Proofs.CommandLine.Running
import Inlay.Proofs.CommandLine.Turns
import Inlay.Proofs.CommandLine.Inline
import Inlay.Proofs.Text.Replace
import Inlay.Proofs.Json.Grammar
import Inlay.Proofs.Json.Passing
import Inlay.Proofs.Json.Values
import Inlay.Proofs.Annotation.UrlList
import Inlay.Proofs.Json.Members
import Inlay.Proofs.Options
import Inlay.Proofs.Html.Texts
import Inlay.Proofs.Text.Offsets
import Inlay.Proofs.Html.Offsets
import Inlay.Proofs.Json.Objects
