import Concatenative.Numeric.Binary64
import Concatenative.Numeric.Shortest
import Concatenative.Numeric.Notation
import Concatenative.Numeric.Literal
import Concatenative.Text.Blank
import Concatenative.Text.CodeSet
import Concatenative.Text.Extending
import Concatenative.Text.Invisible
import Concatenative.Text.Escaped
import Concatenative.Syntax.Span
import Concatenative.Syntax.Edits
import Concatenative.Syntax.Origin
import Concatenative.Syntax.Value
import Concatenative.Syntax.Token
import Concatenative.Machine.Arity
import Concatenative.Error
import Concatenative.Syntax.Rule
import Concatenative.Syntax.Scan
import Concatenative.Syntax.Substitution
import Concatenative.Machine.Stack
import Concatenative.Machine.Directory
import Concatenative.Machine.Operator
import Concatenative.Machine.Arithmetic
import Concatenative.Machine.State
import Concatenative.Machine.Primitive
import Concatenative.Machine.Evaluation
import Concatenative.Machine.Session
import Concatenative.Cli.Arguments
import Concatenative.Cli.Report
import Concatenative.Cli.Response
import Concatenative.Main
import Concatenative.Proofs.Splicing
import Concatenative.Proofs.Layout
import Concatenative.Proofs.Rewriting
import Concatenative.Proofs.Grafting
import Concatenative.Proofs.Vocabulary
import Concatenative.Proofs.Renaming
import Concatenative.Proofs.Invariant
import Concatenative.Proofs.Preservation
import Concatenative.Proofs.Soundness
import Concatenative.Proofs.Pointing
import Concatenative.Proofs.Tagging
import Concatenative.Proofs.Nesting
import Concatenative.Proofs.Running
import Concatenative.Proofs.Packing
import Concatenative.Proofs.Displacing
import Concatenative.Proofs.Mirroring
import Concatenative.Proofs.Quoting
import Concatenative.Proofs.Invoking
import Concatenative.Proofs.Combining
import Concatenative.Proofs.Numbering
import Concatenative.Proofs.Classifying
import Concatenative.Proofs.Tracing
import Concatenative.Proofs.Covering
import Concatenative.Proofs.Integers
import Concatenative.Proofs.Wrapping
import Concatenative.Proofs.Rounding
import Concatenative.Proofs.Exactness
import Concatenative.Proofs.Progression
import Concatenative.Proofs.Underlining
import Concatenative.Proofs.Termination
