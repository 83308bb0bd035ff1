import Reckoner.Desk.Panel
import Reckoner.Expr.Tracked
import Reckoner.Value.Binary64
import Reckoner.Proofs.Arithmetic.LowestTerms
import Reckoner.Proofs.Arithmetic.Multiples
import Reckoner.Proofs.Arithmetic.Powers
import Reckoner.Proofs.Arithmetic.SquareRoot
import Reckoner.Proofs.Evaluation.Guards
import Reckoner.Proofs.Evaluation.Stages
import Reckoner.Proofs.Desk.History
import Reckoner.Proofs.Desk.Insertion
import Reckoner.Proofs.Desk.Panel
import Reckoner.Proofs.Expr.Depth
import Reckoner.Proofs.FixedPoint.Loops
import Reckoner.Proofs.FixedPoint.Parity
import Reckoner.Proofs.Grammar.Bracketing
import Reckoner.Proofs.Grammar.Heights
import Reckoner.Proofs.Grammar.Literals
import Reckoner.Proofs.Grammar.Postorder
import Reckoner.Proofs.Grammar.Printing
import Reckoner.Proofs.Grammar.Reread
import Reckoner.Proofs.Grammar.Rescanning
import Reckoner.Proofs.Registry.Lookup
import Reckoner.Proofs.Value.Order
