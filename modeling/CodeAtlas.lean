import CodeAtlas.Main
import CodeAtlas.Proofs.Calls.CalleeName
import CodeAtlas.Proofs.Statement.Total
import CodeAtlas.Proofs.Report.Refusal
import CodeAtlas.Proofs.Diff.BlankTemplate
import CodeAtlas.Proofs.Calls.Shift
import CodeAtlas.Proofs.Flow.LiveExit
import CodeAtlas.Proofs.Flow.Break
import CodeAtlas.Proofs.Statement.Kinds
import CodeAtlas.Proofs.Index.Indentation
import CodeAtlas.Proofs.Reference.ModulePath
import CodeAtlas.Proofs.Reference.UseExpansion
import CodeAtlas.Proofs.Statement.InlineSuite
import CodeAtlas.Proofs.Audit.WrapperChain
import CodeAtlas.Proofs.Diff.Moves
import CodeAtlas.Proofs.Calls.Degree
import CodeAtlas.Proofs.Index.Imbalance
import CodeAtlas.Proofs.Text.TopLevel
import CodeAtlas.Proofs.Source.TripleQuote
import CodeAtlas.Proofs.Source.IgnoredTree
import CodeAtlas.Proofs.Source.BlockComment
import CodeAtlas.Proofs.Index.BaseName
import CodeAtlas.Proofs.Source.LineGroups
import CodeAtlas.Proofs.Report.Drawing
import CodeAtlas.Proofs.Config.Merge
