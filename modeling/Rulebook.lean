import Rulebook.Main
import Rulebook.Proofs.Definition.Policy
import Rulebook.Proofs.Definition.Children
import Rulebook.Proofs.Rule.Display
import Rulebook.Proofs.Pattern.Groups
import Rulebook.Proofs.Pattern.Quiet
import Rulebook.Proofs.Tree.Recognition
import Rulebook.Proofs.Pattern.Nameless
import Rulebook.Proofs.Rule.Size
import Rulebook.Proofs.Definition.Grammar
import Rulebook.Proofs.Pattern.Leads
import Rulebook.Proofs.Rule.Leads
import Rulebook.Proofs.Tree.Ready
import Rulebook.Proofs.Pattern.Lines
import Rulebook.Proofs.Definition.Lines
import Rulebook.Proofs.Definition.LineTrees
import Rulebook.Proofs.Definition.Run
import Rulebook.Proofs.Tree.Sequence
import Rulebook.Proofs.Definition.Parts
import Rulebook.Proofs.Definition.Literals
import Rulebook.Proofs.Definition.Alike
import Rulebook.Proofs.Tree.Shift
import Rulebook.Proofs.Definition.Outcome
import Rulebook.Proofs.Rule.Captures
import Rulebook.Proofs.Definition.Range
import Rulebook.Proofs.Tree.Choice
import Rulebook.Proofs.Definition.Brackets
import Rulebook.Proofs.Definition.Depth
import Rulebook.Proofs.Definition.Bounds
import Rulebook.Proofs.Ebnf.Verifying
import Rulebook.Proofs.Definition.Accounting
import Rulebook.Proofs.Definition.Joining
import Rulebook.Proofs.Definition.Pointing
import Rulebook.Proofs.Definition.Skipping
import Rulebook.Proofs.Marker.Calls
import Rulebook.Proofs.Rule.Stripping
import Rulebook.Proofs.Rule.Opaque
import Rulebook.Proofs.Tree.TooLarge
import Rulebook.Proofs.Rule.Combining
import Rulebook.Proofs.Definition.Checking
import Rulebook.Proofs.Definition.Splitting
import Rulebook.Proofs.Definition.PlainReading
import Rulebook.Proofs.Registry.Table
import Rulebook.Proofs.Definition.Writing
import Rulebook.Proofs.Rule.Literal
import Rulebook.Proofs.Tree.Printing
import Rulebook.Proofs.Ebnf.Resolving
