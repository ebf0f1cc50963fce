import Rephrase.Main
import Rephrase.Proofs.Candidate
import Rephrase.Proofs.Node.Invariant
import Rephrase.Proofs.Oracle.Cut
import Rephrase.Proofs.Oracle.Message
import Rephrase.Proofs.Oracle.Nesting
import Rephrase.Proofs.Patch.Answer
import Rephrase.Proofs.Patch.Failure
import Rephrase.Proofs.Phrase.Ending
import Rephrase.Proofs.Decimal.Digits
import Rephrase.Proofs.Run.Change
import Rephrase.Proofs.Batch
import Rephrase.Proofs.Oracle.Containment
import Rephrase.Proofs.Run.Containment
import Rephrase.Proofs.Patch.Grouping
import Rephrase.Proofs.Patch.Yield
import Rephrase.Proofs.Edit.Range
import Rephrase.Proofs.Patch.Fate
import Rephrase.Proofs.Patch.Account
import Rephrase.Proofs.Session.Spare
import Rephrase.Proofs.Patch.Apart
import Rephrase.Proofs.Run.Commit
import Rephrase.Proofs.Run.Rehearsal
import Rephrase.Proofs.Run.Isolation
import Rephrase.Proofs.Session.Recording
import Rephrase.Proofs.Oracle.Verbatim
import Rephrase.Proofs.Run.Outcome
import Rephrase.Proofs.Node.Snippet
import Rephrase.Proofs.Diff.Patch
import Rephrase.Proofs.Decimal.Round
import Rephrase.Proofs.Decimal.Shortest
import Rephrase.Proofs.Json.Decode
import Rephrase.Proofs.Json.Line
import Rephrase.Proofs.Run.Open
import Rephrase.Proofs.Run.Trail
import Rephrase.Proofs.Session.Calls
import Rephrase.Proofs.Patch.Order
import Rephrase.Proofs.Edit.Footprint
import Rephrase.Proofs.Patch.Cascade
import Rephrase.Proofs.Session.IgnoreList
import Rephrase.Proofs.Run.Undo
import Rephrase.Proofs.Phrase.Spread
import Rephrase.Proofs.Diff.Count
import Rephrase.Proofs.Edit.Swap
import Rephrase.Proofs.Node.Stale
import Rephrase.Proofs.Phrase.Spelled
import Rephrase.Proofs.Node.Token
import Rephrase.Proofs.Node.Shown
import Rephrase.Proofs.Run.Once
import Rephrase.Proofs.Oracle.Patience
import Rephrase.Proofs.Run.Arrangement
import Rephrase.Proofs.Session.Failure
import Rephrase.Proofs.Text.Offset
