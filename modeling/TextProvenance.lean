import TextProvenance.Chain.Graph
import TextProvenance.Chain.Walk
import TextProvenance.Inspect
import TextProvenance.Report
import TextProvenance.Session.Run
import TextProvenance.Taint.Lookup
import TextProvenance.Proofs.Taint.Builder
import TextProvenance.Proofs.Edit
import TextProvenance.Proofs.Taint.WellFormed
import TextProvenance.Proofs.Session.Keeps
import TextProvenance.Proofs.Session.WellFormed
import TextProvenance.Proofs.Taint.Splice
import TextProvenance.Proofs.Taint.Overwrite
import TextProvenance.Proofs.Taint.Window
import TextProvenance.Proofs.Taint.Record
import TextProvenance.Proofs.Text.Labelled
import TextProvenance.Proofs.Text.Splice
import TextProvenance.Proofs.Session.Closed
import TextProvenance.Proofs.Text.Within
import TextProvenance.Proofs.Session.Within
import TextProvenance.Proofs.Agree
import TextProvenance.Proofs.Taint.Alike
import TextProvenance.Proofs.Text.Alike
import TextProvenance.Proofs.Session.Alike
import TextProvenance.Proofs.Session.Recording
import TextProvenance.Proofs.Taint.Canonical
import TextProvenance.Proofs.Taint.Atomic
import TextProvenance.Proofs.Text.Atomic
import TextProvenance.Proofs.Listing.Grammar
import TextProvenance.Proofs.Listing.Decode
import TextProvenance.Proofs.Taint.Shift
import TextProvenance.Proofs.Listing.Rejection
import TextProvenance.Proofs.Listing.Cursor
import TextProvenance.Proofs.Ledger
import TextProvenance.Proofs.Taint.Under
import TextProvenance.Proofs.Text.Under
import TextProvenance.Proofs.Text.Since
import TextProvenance.Proofs.Session.Ledger
import TextProvenance.Proofs.Session.Made
import TextProvenance.Proofs.Session.Identity
import TextProvenance.Proofs.Taint.Overlay
import TextProvenance.Proofs.Taint.BaseConversion
import TextProvenance.Proofs.Taint.Units
import TextProvenance.Proofs.Taint.Union
import TextProvenance.Proofs.Taint.Cutting
import TextProvenance.Proofs.Taint.Words
import TextProvenance.Proofs.Taint.Gap
import TextProvenance.Proofs.Taint.Refusal
import TextProvenance.Proofs.Taint.Extension
import TextProvenance.Proofs.Taint.Replacement
import TextProvenance.Proofs.Taint.Count
import TextProvenance.Proofs.Taint.Lookup
import TextProvenance.Proofs.Taint.Fragments
import TextProvenance.Proofs.Text.Composed
import TextProvenance.Proofs.Text.Copy
import TextProvenance.Proofs.Text.Case
import TextProvenance.Proofs.Text.Split
import TextProvenance.Proofs.Text.Questions
import TextProvenance.Proofs.Session.Questions
import TextProvenance.Proofs.Text.Arguments
import TextProvenance.Proofs.Text.Makers
import TextProvenance.Proofs.Json.Record
import TextProvenance.Proofs.Report
import TextProvenance.Proofs.Truncation
