import ChaiBind.Binding.Class
import ChaiBind.Binding.Enumeration
import ChaiBind.Binding.Header
import ChaiBind.Binding.Routine
import ChaiBind.Command.Arguments
import ChaiBind.Command.Options
import ChaiBind.Command.Usage
import ChaiBind.Config.Basic
import ChaiBind.Config.Exclude
import ChaiBind.Console.Status
import ChaiBind.Declaration.Class
import ChaiBind.Declaration.Enumeration
import ChaiBind.Declaration.Overload
import ChaiBind.Declaration.Param
import ChaiBind.Diagnostic.Basic
import ChaiBind.Diagnostic.Finding
import ChaiBind.Discovery.Headers
import ChaiBind.Disk
import ChaiBind.Failure
import ChaiBind.FileTree.Basic
import ChaiBind.FileTree.Edit
import ChaiBind.FileTree.Walk
import ChaiBind.Header.ClassDeclaration
import ChaiBind.Header.EnumDeclaration
import ChaiBind.Header.Marker
import ChaiBind.Header.Member
import ChaiBind.Header.Namespace
import ChaiBind.Header.Recognition
import ChaiBind.Header.Region
import ChaiBind.Header.Signature
import ChaiBind.Header.Unit
import ChaiBind.Json.Report
import ChaiBind.Json.Value
import ChaiBind.Main
import ChaiBind.Path
import ChaiBind.Registry.Basic
import ChaiBind.Registry.Draft
import ChaiBind.Registry.Inheritance
import ChaiBind.Run.Check
import ChaiBind.Run.Generation
import ChaiBind.Run.Inventory
import ChaiBind.Run.Session
import ChaiBind.Run.Write
import ChaiBind.Table
import ChaiBind.Text.Blank
import ChaiBind.Text.Cursor
import ChaiBind.Text.Identifier
import ChaiBind.Text.Layer
import ChaiBind.Text.Line
import ChaiBind.Text.Location
import ChaiBind.Text.TopLevel
import ChaiBind.Text.Utf8
import ChaiBind.Text.WordChar
import ChaiBind.Yaml.Node
import ChaiBind.Yaml.Place
import ChaiBind.Yaml.Property
import ChaiBind.Yaml.Scalar
import ChaiBind.Yaml.Token
import ChaiBind.Proofs.Inheritance.Ancestors
import ChaiBind.Proofs.Registry.Keys
import ChaiBind.Proofs.Binding.RoutineNames
import ChaiBind.Proofs.Header.Search
import ChaiBind.Proofs.Text.Places
import ChaiBind.Proofs.Text.Stripping
import ChaiBind.Proofs.Header.Declarations
import ChaiBind.Proofs.Header.MemberLines
import ChaiBind.Proofs.Registry.Replacement
import ChaiBind.Proofs.Registry.Scopes
import ChaiBind.Proofs.Text.Parts
import ChaiBind.Proofs.Text.Positions
import ChaiBind.Proofs.Header.Mentions
import ChaiBind.Proofs.Header.MemberTable
import ChaiBind.Proofs.Header.SignatureParts
import ChaiBind.Proofs.Header.OverloadMarks
import ChaiBind.Proofs.Text.Literals
import ChaiBind.Proofs.Header.LiteralSlots
import ChaiBind.Proofs.Header.Literals
import ChaiBind.Proofs.Text.LineBreaks
import ChaiBind.Proofs.Header.MarkerSites
import ChaiBind.Proofs.Header.ClassLines
import ChaiBind.Proofs.Header.NamespaceOpenings
import ChaiBind.Proofs.Header.CodeLines
import ChaiBind.Proofs.Header.EnumHeads
import ChaiBind.Proofs.Header.Enumerators
import ChaiBind.Proofs.Header.LineEnds
import ChaiBind.Proofs.Header.Comments
import ChaiBind.Proofs.Registry.Duplicates
import ChaiBind.Proofs.Registry.DiscoveryOrder
import ChaiBind.Proofs.Text.StrippedLines
import ChaiBind.Proofs.Header.DiagnosticPlaces
import ChaiBind.Proofs.Text.PlainText
import ChaiBind.Proofs.Header.SilentLines
import ChaiBind.Proofs.Header.Layout
import ChaiBind.Proofs.Header.LayoutParts
import ChaiBind.Proofs.Header.LayoutReading
import ChaiBind.Proofs.Registry.ClassAncestors
import ChaiBind.Proofs.Registry.UnresolvedBases
import ChaiBind.Proofs.Binding.BaseRelations
import ChaiBind.Proofs.FileTree.Growth
import ChaiBind.Proofs.FileTree.Steps
import ChaiBind.Proofs.FileTree.Parents
import ChaiBind.Proofs.FileTree.Resolution
import ChaiBind.Proofs.FileTree.Edits
import ChaiBind.Proofs.FileTree.Walks
import ChaiBind.Proofs.Run.Sessions
import ChaiBind.Proofs.Run.Inputs
import ChaiBind.Proofs.Run.Stability
import ChaiBind.Proofs.Text.LineEndings
import ChaiBind.Proofs.Text.MovedPlaces
import ChaiBind.Proofs.Header.EndingNames
import ChaiBind.Proofs.Header.EndingMarkers
import ChaiBind.Proofs.Header.EndingEnums
import ChaiBind.Proofs.Header.LineEndings
import ChaiBind.Proofs.Registry.SilentHeaders
import ChaiBind.Proofs.Text.Pieces
import ChaiBind.Proofs.FileTree.Files
import ChaiBind.Proofs.Run.Agreement
import ChaiBind.Proofs.Run.Failures
import ChaiBind.Proofs.Header.Sentinels
import ChaiBind.Proofs.Text.Fragments
import ChaiBind.Proofs.Header.DeclaredNames
import ChaiBind.Proofs.Binding.GeneratedNames
import ChaiBind.Proofs.Binding.GeneratedLines
import ChaiBind.Proofs.Text.ContinuedLiterals
import ChaiBind.Proofs.Text.Utf8
import ChaiBind.Proofs.Discovery.IncludePaths
import ChaiBind.Proofs.Run.OldOutputs
import ChaiBind.Proofs.Text.KeptLines
import ChaiBind.Proofs.Text.Words
import ChaiBind.Proofs.Header.MethodTables
import ChaiBind.Proofs.Header.JoinedRegions
import ChaiBind.Proofs.Header.MemberGrammar
import ChaiBind.Proofs.Header.RegionGrammar
import ChaiBind.Proofs.Text.PlainCode
import ChaiBind.Proofs.Text.TopLevelCommas
import ChaiBind.Proofs.Header.EnumeratorGrammar
import ChaiBind.Proofs.Header.EnumGrammar
import ChaiBind.Proofs.Text.TopLevelBrackets
import ChaiBind.Proofs.Header.PassedOverLines
import ChaiBind.Proofs.Header.DeletedMembers
import ChaiBind.Proofs.Header.MarkerOrder
import ChaiBind.Proofs.Header.ClassRegions
import ChaiBind.Proofs.Binding.ForwardedNames
import ChaiBind.Proofs.Header.MarkerMisuse
import ChaiBind.Proofs.Header.Constructors
import ChaiBind.Proofs.Text.ByteOrder
import ChaiBind.Proofs.FileTree.ShownPaths
import ChaiBind.Proofs.FileTree.Listings
import ChaiBind.Proofs.Discovery.ScannedFiles
import ChaiBind.Proofs.Binding.ParameterTexts
import ChaiBind.Proofs.Text.Trivia
import ChaiBind.Proofs.Header.NamespaceGrammar
import ChaiBind.Proofs.Header.OpeningMarkers
import ChaiBind.Proofs.Header.RemarkedRegions
import ChaiBind.Proofs.Header.MarkerRemarks
import ChaiBind.Proofs.Text.CodeBraces
import ChaiBind.Proofs.Header.EnclosingNamespaces
import ChaiBind.Proofs.Discovery.ExcludedPaths
import ChaiBind.Proofs.Discovery.DistinctIncludes
import ChaiBind.Proofs.Text.InlineComments
import ChaiBind.Proofs.Text.StrippedTwice
import ChaiBind.Proofs.Text.TopLevelPieces
import ChaiBind.Proofs.Text.LineStarts
import ChaiBind.Proofs.Text.Bytes
import ChaiBind.Proofs.Text.LayerRuns
import ChaiBind.Proofs.Text.ByteScan
import ChaiBind.Proofs.Text.ByteRounds
import ChaiBind.Proofs.Text.LiteralBytes
import ChaiBind.Proofs.Text.LineColumns
