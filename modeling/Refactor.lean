import Refactor.Json.Parser
import Refactor.Impact
import Refactor.Language
import Refactor.Tools
import Refactor.Planning.Index
import Refactor.Config.Load
import Refactor.Server.Manager
import Refactor.Proofs.Apply.Course
import Refactor.Proofs.Apply.AllOrNothing
import Refactor.Proofs.Apply.Stale
import Refactor.Proofs.Apply.Files
import Refactor.Proofs.Apply.Emptied
import Refactor.Proofs.Apply.Committed
import Refactor.Proofs.Plan.Preview
import Refactor.Proofs.Apply.Previewed
import Refactor.Proofs.Apply.Returned
import Refactor.Proofs.Apply.Unhindered
import Refactor.Proofs.Apply.Prepared
import Refactor.Proofs.Apply.Feasible
import Refactor.Proofs.Reference.Transparent
import Refactor.Proofs.Planning.Order
import Refactor.Proofs.Apply.Alone
import Refactor.Proofs.Disk.Fallible
import Refactor.Proofs.Apply.Traced
import Refactor.Proofs.Apply.Reported
import Refactor.Proofs.Plan.Once
import Refactor.Proofs.Planning.Coverage
import Refactor.Proofs.Edit.Splices
import Refactor.Proofs.Edit.Merge
import Refactor.Proofs.Apply.Renamed
import Refactor.Proofs.Server.Correlation
import Refactor.Proofs.Path.Relative
import Refactor.Proofs.Reference.Formatted
import Refactor.Proofs.Reference.Mentions
import Refactor.Proofs.Text.Pattern
import Refactor.Proofs.Markdown.Links
import Refactor.Proofs.Script.Specifiers
import Refactor.Proofs.Reference.Exact
import Refactor.Proofs.Markdown.Comments
import Refactor.Proofs.Markdown.InlineCode
import Refactor.Proofs.Reference.Prose
import Refactor.Proofs.Script.Applicable
import Refactor.Proofs.Script.Alignment
import Refactor.Proofs.Plan.Recency
import Refactor.Proofs.Reference.Indexes
import Refactor.Proofs.Script.Escapes
import Refactor.Proofs.Script.Removals
import Refactor.Proofs.Path.Resolution
import Refactor.Proofs.Text.Offsets
import Refactor.Proofs.Reference.ChangedLines
import Refactor.Proofs.Reference.Known
import Refactor.Proofs.Plan.Written
import Refactor.Proofs.Server.Uris
import Refactor.Proofs.Server.Frames
import Refactor.Proofs.Reference.Back
