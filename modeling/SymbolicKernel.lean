import SymbolicKernel.Expr.Printer
import SymbolicKernel.Expr.Same
import SymbolicKernel.Resolved
import SymbolicKernel.Proofs.Decimal.Quotient
import SymbolicKernel.Proofs.Double.Nearest
import SymbolicKernel.Proofs.Expr.Same
import SymbolicKernel.Proofs.Lowering.Atomic
import SymbolicKernel.Proofs.Precision
import SymbolicKernel.Proofs.Number.Rounding
import SymbolicKernel.Proofs.Double.Closest
import SymbolicKernel.Proofs.Double.Arithmetic
import SymbolicKernel.Proofs.Double.Rounded
import SymbolicKernel.Proofs.Number.Reconstruct
import SymbolicKernel.Proofs.Literal.Value
import SymbolicKernel.Proofs.Decimal.Reader
import SymbolicKernel.Proofs.Decimal.Digits
import SymbolicKernel.Proofs.Literal.Precise
import SymbolicKernel.Proofs.Lowering.Numbers
import SymbolicKernel.Proofs.Number.Digits
import SymbolicKernel.Proofs.Number.Complex
import SymbolicKernel.Proofs.Literal.Exact
import SymbolicKernel.Proofs.Lowering.Leafwise
import SymbolicKernel.Proofs.Double.Log10
import SymbolicKernel.Proofs.Literal.Magnitude
import SymbolicKernel.Proofs.Literal.Suffix
import SymbolicKernel.Proofs.Literal.Refusal
import SymbolicKernel.Proofs.Double.Shortest
import SymbolicKernel.Proofs.Double.Shown
import SymbolicKernel.Proofs.Lowering.Shown
import SymbolicKernel.Proofs.Number.Whole
import SymbolicKernel.Proofs.Number.Opposite
import SymbolicKernel.Proofs.Lowering.Negated
import SymbolicKernel.Proofs.Number.TextPrecision
import SymbolicKernel.Proofs.Lowering.ShownPrecise
import SymbolicKernel.Proofs.Double.Fewest
import SymbolicKernel.Proofs.Number.Raised
import SymbolicKernel.Proofs.Number.Lossless
import SymbolicKernel.Proofs.Number.Same
import SymbolicKernel.Proofs.Number.PrecisionBound
import SymbolicKernel.Proofs.Text.Escaped
import SymbolicKernel.Proofs.Lowering.Qualified
import SymbolicKernel.Proofs.Double.Pattern
import SymbolicKernel.Proofs.Number.Written
