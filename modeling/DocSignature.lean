import DocSignature.Batch
import DocSignature.CommandLine.Invocation
import DocSignature.CommandLine.Word
import DocSignature.Config
import DocSignature.Conversion
import DocSignature.Diagnostic
import DocSignature.Dictionary
import DocSignature.Files.FileTree
import DocSignature.Files.OutputLayout
import DocSignature.Files.PathName
import DocSignature.Grammar.Machine
import DocSignature.Grammar.Terminal
import DocSignature.Header.Basic
import DocSignature.Header.Find
import DocSignature.Header.Form
import DocSignature.Header.Pairing
import DocSignature.Header.Pieces
import DocSignature.Header.Writer
import DocSignature.ImportTable
import DocSignature.Json.Basic
import DocSignature.Json.Reader
import DocSignature.Json.Writer
import DocSignature.Language.Basic
import DocSignature.Language.Policy
import DocSignature.Loc
import DocSignature.Log
import DocSignature.Main
import DocSignature.NamingPolicy
import DocSignature.Number.Binary64
import DocSignature.Proofs.AcceptedSettings
import DocSignature.Proofs.Again
import DocSignature.Proofs.BareType
import DocSignature.Proofs.BatchRun
import DocSignature.Proofs.Blank
import DocSignature.Proofs.CharClass
import DocSignature.Proofs.CommentLine
import DocSignature.Proofs.CommentOwner
import DocSignature.Proofs.CommentRun
import DocSignature.Proofs.Derivation
import DocSignature.Proofs.DiagnosticOrder
import DocSignature.Proofs.Draft
import DocSignature.Proofs.EditPatch
import DocSignature.Proofs.FailedSettings
import DocSignature.Proofs.FirstBinding
import DocSignature.Proofs.FoundAgain
import DocSignature.Proofs.Frame
import DocSignature.Proofs.HeadLocal
import DocSignature.Proofs.HeadShape
import DocSignature.Proofs.HeaderEnd
import DocSignature.Proofs.Identifier
import DocSignature.Proofs.ImportRoundTrip
import DocSignature.Proofs.ImportWords
import DocSignature.Proofs.Kept
import DocSignature.Proofs.LanguageName
import DocSignature.Proofs.LatestSetup
import DocSignature.Proofs.LexedLines
import DocSignature.Proofs.Lexeme
import DocSignature.Proofs.LinePattern
import DocSignature.Proofs.LiteralEnd
import DocSignature.Proofs.LocalNames
import DocSignature.Proofs.Locate
import DocSignature.Proofs.LongNumber
import DocSignature.Proofs.MatchingParen
import DocSignature.Proofs.NameReport
import DocSignature.Proofs.NameWords
import DocSignature.Proofs.OptionalDefault
import DocSignature.Proofs.ParamList
import DocSignature.Proofs.ParamPairing
import DocSignature.Proofs.ParamPlacement
import DocSignature.Proofs.Patch
import DocSignature.Proofs.PatchComments
import DocSignature.Proofs.PatchHeads
import DocSignature.Proofs.PatchRegion
import DocSignature.Proofs.Pieces
import DocSignature.Proofs.Pinned
import DocSignature.Proofs.Place
import DocSignature.Proofs.PlaceOrder
import DocSignature.Proofs.ReadBack
import DocSignature.Proofs.Redraft
import DocSignature.Proofs.RefOrder
import DocSignature.Proofs.RegionOrder
import DocSignature.Proofs.Rename
import DocSignature.Proofs.Search
import DocSignature.Proofs.SingleTag
import DocSignature.Proofs.Spots
import DocSignature.Proofs.TagLines
import DocSignature.Proofs.TagMirror
import DocSignature.Proofs.TagOffset
import DocSignature.Proofs.TagPlace
import DocSignature.Proofs.TagReach
import DocSignature.Proofs.TargetPaths
import DocSignature.Proofs.Tidy
import DocSignature.Proofs.Total
import DocSignature.Proofs.TwoLanguages
import DocSignature.Proofs.TypeBrackets
import DocSignature.Proofs.TypeGrammar
import DocSignature.Proofs.TypeMapReach
import DocSignature.Proofs.TypeRoundTrip
import DocSignature.Proofs.TypeShape
import DocSignature.Proofs.UnionMembers
import DocSignature.Proofs.Utf8
import DocSignature.Proofs.Whole
import DocSignature.Proofs.WholeImport
import DocSignature.Proofs.WritesLast
import DocSignature.Proofs.WrittenHead
import DocSignature.Report
import DocSignature.Resolved
import DocSignature.Run
import DocSignature.Source.Layout
import DocSignature.Source.Region
import DocSignature.Tag.Basic
import DocSignature.Tag.DocComment
import DocSignature.Tag.ImportReader
import DocSignature.Tag.Raw
import DocSignature.Tag.Reader
import DocSignature.Text.Blank
import DocSignature.Text.Case
import DocSignature.Text.CharClass
import DocSignature.Text.Cut
import DocSignature.Text.Integer
import DocSignature.Text.Line
import DocSignature.Text.Printable
import DocSignature.Text.Quoted
import DocSignature.Text.Search
import DocSignature.Text.Utf8
import DocSignature.Text.Word
import DocSignature.TypeExpr.Basic
import DocSignature.TypeExpr.Reader
import DocSignature.TypeText
