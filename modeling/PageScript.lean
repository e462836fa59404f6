import PageScript.Main
import PageScript.Proofs.Syntax.Program.RoundTrip
import PageScript.Proofs.Syntax.RoundTrip
import PageScript.Proofs.Machine.Balance
import PageScript.Proofs.Machine.Closures
import PageScript.Proofs.Machine.Finishing
import PageScript.Proofs.Site.Attaching
import PageScript.Proofs.Site.Cycles
import PageScript.Proofs.Site.Filling
import PageScript.Proofs.Machine.Contents
import PageScript.Proofs.Machine.Framewise
import PageScript.Proofs.Machine.Pairing
import PageScript.Proofs.Machine.Accord
import PageScript.Proofs.Machine.Concord
import PageScript.Proofs.Machine.Agreement
import PageScript.Proofs.Machine.Peers
import PageScript.Proofs.Machine.Passing
import PageScript.Proofs.Machine.Results
import PageScript.Proofs.Machine.Course
import PageScript.Proofs.Machine.Enclosing
import PageScript.Proofs.Syntax.Applying
import PageScript.Proofs.Machine.Recoding
import PageScript.Proofs.Machine.Invoking
import PageScript.Proofs.Syntax.Calls
import PageScript.Proofs.Syntax.Rows
import PageScript.Proofs.Token.Scanning
import PageScript.Proofs.Site.Prelude
import PageScript.Proofs.Syntax.Segments
import PageScript.Proofs.Site.Verbatim
import PageScript.Proofs.Machine.Constancy
import PageScript.Proofs.Site.Constants
import PageScript.Proofs.Site.Isolation
import PageScript.Proofs.Site.Editing
import PageScript.Proofs.Syntax.Relayout
import PageScript.Proofs.Machine.Explicit
import PageScript.Proofs.Site.Explicit
import PageScript.Proofs.Machine.Rearranging
import PageScript.Proofs.Machine.Declarators
import PageScript.Proofs.Machine.Ancestry
import PageScript.Proofs.Machine.Blame
import PageScript.Proofs.Syntax.Tree.Source
import PageScript.Proofs.Site.Declaring
import PageScript.Proofs.Syntax.Assignments
import PageScript.Proofs.Syntax.IfForms
import PageScript.Proofs.Syntax.Origins.Statements
import PageScript.Proofs.Number.Literals
import PageScript.Proofs.Machine.Walking
import PageScript.Proofs.Machine.Counting
import PageScript.Proofs.Syntax.Members
import PageScript.Proofs.Token.Standing
import PageScript.Proofs.Token.Strings
import PageScript.Proofs.Token.Including
import PageScript.Proofs.Value.Integers
import PageScript.Proofs.Syntax.Display.Source
import PageScript.Proofs.Site.NormalForm
import PageScript.Proofs.Site.Locations
import PageScript.Proofs.Number.Overflow
import PageScript.Proofs.Number.Integral
import PageScript.Proofs.Value.NumericText
import PageScript.Proofs.Value.IntegerText
import PageScript.Proofs.Text.Positions
import PageScript.Proofs.Site.Reporting
import PageScript.Proofs.Machine.Membership
