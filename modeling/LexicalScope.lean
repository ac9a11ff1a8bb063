import LexicalScope.Key.CaseFolded
import LexicalScope.Proofs.Session.Unwinding
import LexicalScope.Proofs.Stack.Search
import LexicalScope.Rows.Session
import LexicalScope.Session.BindingRequest
import LexicalScope.Session.NameRequest
import LexicalScope.Session.Run
import LexicalScope.Value
import LexicalScope.Proofs.Chain.Resolve
import LexicalScope.Proofs.Visible.Firsts
import LexicalScope.Proofs.Visible.Walk
import LexicalScope.Proofs.Chain.Related
import LexicalScope.Proofs.Session.Related
import LexicalScope.Proofs.Session.Simulation
import LexicalScope.Proofs.Session.Translation
import LexicalScope.Proofs.Frame.Agree
import LexicalScope.Proofs.Session.Independence
import LexicalScope.Proofs.Frame.SameKeys
import LexicalScope.Proofs.Visible.Image
import LexicalScope.Proofs.Session.Looks
import LexicalScope.Proofs.Session.Parity
import LexicalScope.Proofs.Chain.Effect
import LexicalScope.Proofs.Chain.Lookups
import LexicalScope.Proofs.Frame.Alike
import LexicalScope.Proofs.Chain.Alike
import LexicalScope.Proofs.Chain.Undo
import LexicalScope.Proofs.Chain.Rollback
import LexicalScope.Proofs.Chain.Positional
import LexicalScope.Proofs.Stack.Plain
import LexicalScope.Proofs.Visible.Groups
import LexicalScope.Proofs.Session.Equality
import LexicalScope.Proofs.Session.Confinement
import LexicalScope.Proofs.Session.Refusal
import LexicalScope.Proofs.Session.Shadowing
import LexicalScope.Proofs.Session.Abandonment
import LexicalScope.Proofs.Frame.History
import LexicalScope.Proofs.Chain.Histories
import LexicalScope.Proofs.Session.Chronicle
import LexicalScope.Proofs.Session.Recount
import LexicalScope.Proofs.Rows.Depths
import LexicalScope.Proofs.Session.Depths
import LexicalScope.Proofs.Frame.SameEntries
import LexicalScope.Proofs.Session.Relabelling
import LexicalScope.Proofs.Chain.OneEntry
import LexicalScope.Proofs.Chain.Assignment
import LexicalScope.Proofs.Chain.Declaration
import LexicalScope.Proofs.Chain.Deletion
import LexicalScope.Proofs.Checked.Stack
import LexicalScope.Proofs.Checked.Chain
import LexicalScope.Proofs.Checked.Session
import LexicalScope.Proofs.Chain.Equality
import LexicalScope.Proofs.Stack.Walks
import LexicalScope.Proofs.Rows.Marks
import LexicalScope.Proofs.Stack.Calls
import LexicalScope.Proofs.Chain.Labels
import LexicalScope.Proofs.Session.Labels
import LexicalScope.Proofs.Text.Legible
import LexicalScope.Proofs.Text.Values
import LexicalScope.Proofs.Session.Display
import LexicalScope.Proofs.Visible.Sequence
import LexicalScope.Proofs.Visible.Hints
