import Selectors.Bare
import Selectors.Compilation
import Selectors.Deep
import Selectors.Matching
import Selectors.Rules
import Selectors.Value
import Selectors.Visibility
import Selectors.Proofs.Matching.Path
import Selectors.Proofs.Nesting.Meaning
import Selectors.Proofs.Covering.Logical
import Selectors.Proofs.Unification.Soundness
import Selectors.Proofs.Covering.Anchored
import Selectors.Proofs.Nesting.Outcome
import Selectors.Proofs.Nesting.Expansion
import Selectors.Proofs.Nesting.Associativity
import Selectors.Proofs.Chain.Alternation
import Selectors.Proofs.Unification.Completeness
import Selectors.Proofs.Unification.Overlay
import Selectors.Proofs.Unification.Siblings
import Selectors.Proofs.Equality.Covering
import Selectors.Proofs.Equality.Unification
import Selectors.Proofs.Equality.Nesting
import Selectors.Proofs.Equality.Congruence
import Selectors.Proofs.Nesting.Elimination
import Selectors.Proofs.Nesting.Failure
import Selectors.Proofs.Nesting.WellFormed
import Selectors.Proofs.Nesting.Checked
import Selectors.Proofs.Covering.Descent
import Selectors.Proofs.Unification.Covering
import Selectors.Proofs.Covering.Embedding
import Selectors.Proofs.Covering.Reflexive
import Selectors.Proofs.Covering.Spanning
import Selectors.Proofs.Covering.Relative
import Selectors.Proofs.Covering.Counted
import Selectors.Chain.Lift
import Selectors.Alike
import Selectors.Proofs.Covering.Lift
import Selectors.Proofs.Covering.Alike
import Selectors.Proofs.Unification.Merge
import Selectors.Proofs.Unification.Conservation
import Selectors.Proofs.Unification.Commutativity
import Selectors.Proofs.Unification.Absorption
import Selectors.Proofs.Unification.Canonical
import Selectors.Proofs.Nesting.FirstFailure
import Selectors.Proofs.Nesting.Visibility
import Selectors.Size
import Selectors.Proofs.Covering.Inquiry
import Selectors.Proofs.Covering.Cursor
import Selectors.Proofs.Covering.Termination
import Selectors.Proofs.Compilation.InPlace
import Selectors.Proofs.Compilation.Run
import Selectors.Proofs.Unification.Consultation
