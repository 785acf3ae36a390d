import MinimumRelease.Config.Basic
import MinimumRelease.Config.Format
import MinimumRelease.Config.Load
import MinimumRelease.Detect.Form
import MinimumRelease.Detect.Import
import MinimumRelease.Detect.Usage
import MinimumRelease.Detect.Visit
import MinimumRelease.Error
import MinimumRelease.Feature
import MinimumRelease.Grammar.Construct
import MinimumRelease.Grammar.Profile
import MinimumRelease.Parse
import MinimumRelease.Recovery.Relocation
import MinimumRelease.Recovery.Scanner
import MinimumRelease.Recovery.Token
import MinimumRelease.Recovery.Yield
import MinimumRelease.Report.Batch
import MinimumRelease.Report.Detection
import MinimumRelease.Report.File
import MinimumRelease.Rule.Basic
import MinimumRelease.Rule.Builtin
import MinimumRelease.Rule.EntryPoint
import MinimumRelease.Rule.Table
import MinimumRelease.Text.Blank
import MinimumRelease.Text.Bytes
import MinimumRelease.Text.Dotted
import MinimumRelease.Text.Uppercase
import MinimumRelease.Toml.Document
import MinimumRelease.Toml.Scalar
import MinimumRelease.Toml.Table
import MinimumRelease.Toml.Value
import MinimumRelease.Tree.Basic
import MinimumRelease.Tree.Cursor
import MinimumRelease.Tree.Shape
import MinimumRelease.Tree.Walk
import MinimumRelease.Proofs.Recovery.Lexeme
import MinimumRelease.Proofs.Recovery.Lookahead
import MinimumRelease.Proofs.Recovery.Placement
import MinimumRelease.Proofs.Recovery.Rearrangement
import MinimumRelease.Proofs.Grammar.Search
import MinimumRelease.Proofs.Grammar.SelfCheck
import MinimumRelease.Proofs.Report.AsWritten
import MinimumRelease.Proofs.Detect.Evidence
import MinimumRelease.Proofs.Grammar.Agreement
import MinimumRelease.Proofs.Recovery.Nesting
import MinimumRelease.Proofs.Recovery.Scan
import MinimumRelease.Proofs.Recovery.HeaderRun
import MinimumRelease.Proofs.Recovery.Member
import MinimumRelease.Proofs.Recovery.ControlFlow
import MinimumRelease.Proofs.Recovery.Rescan
import MinimumRelease.Proofs.Recovery.SecondRun
import MinimumRelease.Proofs.Grammar.Monotone
import MinimumRelease.Proofs.Report.ParserLimit
import MinimumRelease.Proofs.Recovery.WholeDeclaration
import MinimumRelease.Proofs.Recovery.Substitution
import MinimumRelease.Proofs.Tree.Layout
import MinimumRelease.Proofs.Tree.AsReturn
import MinimumRelease.Proofs.Detect.Reads
import MinimumRelease.Proofs.Detect.Substituted
import MinimumRelease.Proofs.Parse.Outcome
import MinimumRelease.Proofs.Report.KeywordPass
import MinimumRelease.Proofs.Detect.Resolution
import MinimumRelease.Proofs.Text.Segments
import MinimumRelease.Proofs.Detect.ImportedNames
import MinimumRelease.Proofs.Rule.Scan
import MinimumRelease.Proofs.Report.Tally
import MinimumRelease.Proofs.Report.Accounting
import MinimumRelease.Proofs.Grammar.NewSyntax
import MinimumRelease.Proofs.Grammar.NewestConstruct
import MinimumRelease.Proofs.Text.Patch
import MinimumRelease.Proofs.Recovery.Places
import MinimumRelease.Proofs.Recovery.KeywordSearch
import MinimumRelease.Proofs.Recovery.Candidates
import MinimumRelease.Proofs.Recovery.KeywordPatches
import MinimumRelease.Proofs.Recovery.Outline
import MinimumRelease.Proofs.Recovery.SubstitutedTokens
import MinimumRelease.Proofs.Recovery.LineNumbers
import MinimumRelease.Proofs.Report.RecordedSites
import MinimumRelease.Proofs.Tree.Preorder
import MinimumRelease.Proofs.Rule.Segments
import MinimumRelease.Proofs.Report.Views
import MinimumRelease.Proofs.Config.Layers
import MinimumRelease.Proofs.Toml.Written
import MinimumRelease.Proofs.Toml.Tables
import MinimumRelease.Proofs.Config.RoundTrip
import MinimumRelease.Proofs.Recovery.Checked
import MinimumRelease.Proofs.Recovery.InBounds
import MinimumRelease.Proofs.Recovery.TokenEnds
import MinimumRelease.Proofs.Recovery.Woven
import MinimumRelease.Proofs.Recovery.CutPoints
import MinimumRelease.Proofs.Recovery.PlaceholderNames
import MinimumRelease.Proofs.Recovery.ByteScan
import MinimumRelease.Proofs.Recovery.Tiling
import MinimumRelease.Proofs.Detect.Dispatch
