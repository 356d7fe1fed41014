import FuncSpans.Go.File
import FuncSpans.Report.Format
import FuncSpans.Error
import FuncSpans.Command.Arguments
import FuncSpans.Proofs.Run.Merge
import FuncSpans.Proofs.Run.Hidden
import FuncSpans.Proofs.Run.Spelling
import FuncSpans.Proofs.Run.Subdirectory
import FuncSpans.Proofs.Source.Append
import FuncSpans.Proofs.Statistics.Sample
import FuncSpans.Proofs.Report.Csv
import FuncSpans.Proofs.Report.Document
import FuncSpans.Proofs.Report.Agreement
import FuncSpans.Proofs.Report.Table
import FuncSpans.Proofs.Statistics.Quantile
import FuncSpans.Proofs.Command.ProjectFiles
import FuncSpans.Proofs.Path.Canonical
import FuncSpans.Proofs.Command.Settings
import FuncSpans.Proofs.Files.Texts
import FuncSpans.Proofs.Run.Filters
import FuncSpans.Proofs.Run.Grouping
