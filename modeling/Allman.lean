import Allman.Brackets
import Allman.Buffers
import Allman.Bytes
import Allman.CommandLine
import Allman.Diagnostic
import Allman.Diagnostic.Layout
import Allman.Edit
import Allman.FileHandle
import Allman.FileTree
import Allman.Lines
import Allman.Log
import Allman.Main
import Allman.Outline
import Allman.Outline.Declaration
import Allman.Position
import Allman.Proofs.AddedLines
import Allman.Proofs.AlignedMarkers
import Allman.Proofs.AnyRegions
import Allman.Proofs.ArgumentGrammar
import Allman.Proofs.CheckedDisk
import Allman.Proofs.CleanText
import Allman.Proofs.CollectedFiles
import Allman.Proofs.CommutingRules
import Allman.Proofs.CompleteWarnings
import Allman.Proofs.CountedLines
import Allman.Proofs.CoveredText
import Allman.Proofs.FixRun
import Allman.Proofs.FixedTokens
import Allman.Proofs.HeaderProducts
import Allman.Proofs.IgnoredPassages
import Allman.Proofs.Indentation
import Allman.Proofs.InheritedRoles
import Allman.Proofs.KeptLineBreaks
import Allman.Proofs.Layout
import Allman.Proofs.LexicalGrammar
import Allman.Proofs.ListedSources
import Allman.Proofs.LiveBuffers
import Allman.Proofs.MovedBraces
import Allman.Proofs.NestedBrackets
import Allman.Proofs.NumberedLines
import Allman.Proofs.Places
import Allman.Proofs.PlainOutput
import Allman.Proofs.PrintedParts
import Allman.Proofs.RegionEnds
import Allman.Proofs.ReportOrder
import Allman.Proofs.ReportedBraces
import Allman.Proofs.ReportedStars
import Allman.Proofs.Respacing
import Allman.Proofs.Retouching
import Allman.Proofs.RewrittenTree
import Allman.Proofs.RunEffects
import Allman.Proofs.SameCode
import Allman.Proofs.SameWords
import Allman.Proofs.ScannedLayout
import Allman.Proofs.ShownEdits
import Allman.Proofs.SparedDirectives
import Allman.Proofs.Splicing
import Allman.Proofs.StarRuns
import Allman.Proofs.StarSpacing
import Allman.Proofs.StrictDeclarations
import Allman.Proofs.StrictReading
import Allman.Proofs.StrictRules
import Allman.Proofs.StrictStars
import Allman.Proofs.TokenEnds
import Allman.Proofs.Violations
import Allman.Proofs.VisibleFixes
import Allman.Proofs.WellFormedReport
import Allman.Proofs.WholeWrites
import Allman.Region
import Allman.Report
import Allman.Rule.BlockBraces
import Allman.Rule.PointerStars
import Allman.Session
import Allman.SourceFiles
import Allman.Styled
import Allman.Token
import Allman.Token.Keyword
import Allman.Token.Lexer
import Allman.Violation
import Allman.Word
