import Signoff.Glob.Segmentwise
import Signoff.Program
import Signoff.Roster.Schedule
import Signoff.RuleFile.Layout
import Signoff.Proofs.Glob.Segments
import Signoff.Proofs.Glob.Spans
import Signoff.Proofs.Glob.Segmentwise
import Signoff.Proofs.Glob.Escape
import Signoff.Proofs.Roster.Schedule
import Signoff.Proofs.Roster.Forecast
import Signoff.Proofs.Roster.Table
import Signoff.Proofs.Owner
import Signoff.Proofs.Policy
import Signoff.Proofs.Roster.Resolution
import Signoff.Proofs.Roster.Statuses
import Signoff.Proofs.RuleFile
import Signoff.Proofs.Evaluation
import Signoff.Proofs.CatchAll
import Signoff.Proofs.Partition
import Signoff.Proofs.Missing
import Signoff.Proofs.Completion
import Signoff.Proofs.RuleFile.Lines
import Signoff.Proofs.RuleFile.Append
import Signoff.Proofs.RuleFile.Layout
import Signoff.Proofs.Roster.Moments
import Signoff.Proofs.Roster.Slots
import Signoff.Proofs.Roster.Completeness
import Signoff.Proofs.Roster.Cancellation
import Signoff.Proofs.Reordering
import Signoff.Proofs.Roster.Headroom
import Signoff.Proofs.Addition
import Signoff.Proofs.Decision
import Signoff.Proofs.Monotone
import Signoff.Proofs.Teams
import Signoff.Proofs.Requests
import Signoff.Proofs.Glob.Slashes
import Signoff.Proofs.RuleFile.WellFormed
import Signoff.Proofs.Group.Patterns
import Signoff.Proofs.Label
import Signoff.Proofs.Listing
import Signoff.Proofs.CommandLine.ChangedFiles
import Signoff.Proofs.RuleFile.Accounts
import Signoff.Proofs.RuleFile.Tidy
import Signoff.Glob.Written
import Signoff.Proofs.Glob.Written
import Signoff.Proofs.Group.Buckets
