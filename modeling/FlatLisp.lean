import FlatLisp.Console
import FlatLisp.Main
import FlatLisp.Proofs.Accounting
import FlatLisp.Proofs.Arithmetic.Division
import FlatLisp.Proofs.Arithmetic.Power
import FlatLisp.Proofs.Arithmetic.Truth
import FlatLisp.Proofs.Arity
import FlatLisp.Proofs.Bindings
import FlatLisp.Proofs.Comments
import FlatLisp.Proofs.Console
import FlatLisp.Proofs.Console.Groups
import FlatLisp.Proofs.Console.Prospect
import FlatLisp.Proofs.Isolation
import FlatLisp.Proofs.Limits
import FlatLisp.Proofs.Loop.Limit
import FlatLisp.Proofs.Nesting.Decomposition
import FlatLisp.Proofs.Rendering
import FlatLisp.Proofs.ScopeStack
import FlatLisp.Proofs.Scoping
import FlatLisp.Proofs.Session.CallScope
import FlatLisp.Proofs.Session.Depth
import FlatLisp.Proofs.Session.Joining
import FlatLisp.Proofs.Session.Lines
import FlatLisp.Proofs.Session.Parens
import FlatLisp.Proofs.Termination
import FlatLisp.Proofs.Unmentioned
