import ContextFree.Register
import ContextFree.Symbol
import ContextFree.Production
import ContextFree.Vocabulary
import ContextFree.Interning
import ContextFree.Nullability
import ContextFree.Grammar.Basic
import ContextFree.Grammar.Derivation
import ContextFree.Text.Encoding
import ContextFree.Text.Layout
import ContextFree.Text.Format
import ContextFree.Text.Pattern
import ContextFree.Text.Reader
import ContextFree.Text.File
import ContextFree.Chart.Item
import ContextFree.Chart.Basic
import ContextFree.Chart.Session
import ContextFree.Chart.History
import ContextFree.Recognition.Progress
import ContextFree.Recognition.Verdict
import ContextFree.Recognition.Closure
import ContextFree.Recognition.Checked
import ContextFree.Trace
import ContextFree.Proofs.Yields
import ContextFree.Proofs.Entailment
import ContextFree.Proofs.Tables
import ContextFree.Proofs.Interning
import ContextFree.Proofs.Saturation
import ContextFree.Proofs.Taking
import ContextFree.Proofs.Capacity
import ContextFree.Proofs.Run
import ContextFree.Proofs.Membership
import ContextFree.Proofs.Viability
import ContextFree.Proofs.Origins
import ContextFree.Proofs.Prefixes
import ContextFree.Proofs.Nullables
import ContextFree.Proofs.Lines
import ContextFree.Proofs.Reading
import ContextFree.Proofs.Splitting
import ContextFree.Proofs.RoundTrip
import ContextFree.Proofs.Encoding
import ContextFree.Proofs.Loading
import ContextFree.Proofs.Moments
import ContextFree.Proofs.Endings
import ContextFree.Proofs.Traces
import ContextFree.Proofs.Handover
import ContextFree.Proofs.Displays
import ContextFree.Proofs.Sessions
import ContextFree.Proofs.Renaming
import ContextFree.Proofs.Reordering
import ContextFree.Proofs.Growth
import ContextFree.Proofs.Bounds
import ContextFree.Proofs.Lookups
import ContextFree.Proofs.Alternatives
import ContextFree.Proofs.Unrelated
