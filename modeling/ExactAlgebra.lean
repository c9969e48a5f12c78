import ExactAlgebra.DenseMatrix.Arithmetic
import ExactAlgebra.DenseMatrix.Basic
import ExactAlgebra.DenseMatrix.Determinant
import ExactAlgebra.DenseMatrix.Power
import ExactAlgebra.DenseMatrix.Printer
import ExactAlgebra.Error
import ExactAlgebra.Expression.Machine
import ExactAlgebra.Expression.Operand
import ExactAlgebra.Expression.Operator
import ExactAlgebra.Expression.Token
import ExactAlgebra.Expression.Vocabulary
import ExactAlgebra.Factorization.Basic
import ExactAlgebra.Factorization.Functions
import ExactAlgebra.Factorization.Memory
import ExactAlgebra.Grid
import ExactAlgebra.Integer.DigitSum
import ExactAlgebra.Integer.Lists
import ExactAlgebra.Integer.ModularPower
import ExactAlgebra.Integer.Multiplicity
import ExactAlgebra.Power
import ExactAlgebra.Proofs.DenseMatrix.Adjugate
import ExactAlgebra.Proofs.DenseMatrix.Algebra
import ExactAlgebra.Proofs.DenseMatrix.Determinant
import ExactAlgebra.Proofs.DenseMatrix.Entries
import ExactAlgebra.Proofs.DenseMatrix.IntegerInverse
import ExactAlgebra.Proofs.DenseMatrix.Power
import ExactAlgebra.Proofs.DenseMatrix.Printer
import ExactAlgebra.Proofs.DenseMatrix.Rows
import ExactAlgebra.Proofs.Expression.Binding
import ExactAlgebra.Proofs.Expression.DoubledSigns
import ExactAlgebra.Proofs.Expression.Grammar
import ExactAlgebra.Proofs.Expression.LexicalErrors
import ExactAlgebra.Proofs.Expression.LexicalGrammar
import ExactAlgebra.Proofs.Expression.Lexing
import ExactAlgebra.Proofs.Expression.Literal
import ExactAlgebra.Proofs.Expression.Moduli
import ExactAlgebra.Proofs.Expression.Operand
import ExactAlgebra.Proofs.Expression.Placement
import ExactAlgebra.Proofs.Expression.Plain
import ExactAlgebra.Proofs.Expression.PrefixSigns
import ExactAlgebra.Proofs.Expression.Promotion
import ExactAlgebra.Proofs.Expression.Reading
import ExactAlgebra.Proofs.Expression.Recognition
import ExactAlgebra.Proofs.Expression.Shape
import ExactAlgebra.Proofs.Expression.SignedPower
import ExactAlgebra.Proofs.Expression.Substitution
import ExactAlgebra.Proofs.Expression.SyntaxErrors
import ExactAlgebra.Proofs.Factorization.Divisors
import ExactAlgebra.Proofs.Factorization.Functions
import ExactAlgebra.Proofs.Factorization.Memory
import ExactAlgebra.Proofs.Factorization.MultiplicativeOrder
import ExactAlgebra.Proofs.Factorization.SquareFree
import ExactAlgebra.Proofs.Factorization.TrialDivision
import ExactAlgebra.Proofs.Factorization.TrialSteps
import ExactAlgebra.Proofs.Factorization.UnitGroup
import ExactAlgebra.Proofs.Grid.Writes
import ExactAlgebra.Proofs.Integer.LeastCommonMultiple
import ExactAlgebra.Proofs.Integer.ModularPower
import ExactAlgebra.Proofs.Power
import ExactAlgebra.Proofs.Rational.Decimal
import ExactAlgebra.Proofs.Rational.FloorMod
import ExactAlgebra.Proofs.Rational.Numeral
import ExactAlgebra.Proofs.RecentMap.History
import ExactAlgebra.Proofs.Results
import ExactAlgebra.Proofs.Safety.Arithmetic
import ExactAlgebra.Proofs.Safety.Guarded
import ExactAlgebra.Proofs.Safety.Parser
import ExactAlgebra.Proofs.Safety.Scanner
import ExactAlgebra.Proofs.SparsePolynomial.Collection
import ExactAlgebra.Proofs.SparsePolynomial.Composition
import ExactAlgebra.Proofs.SparsePolynomial.ConstantFactors
import ExactAlgebra.Proofs.SparsePolynomial.Division
import ExactAlgebra.Proofs.SparsePolynomial.Evaluation
import ExactAlgebra.Proofs.SparsePolynomial.ExactPower
import ExactAlgebra.Proofs.SparsePolynomial.ModularPower
import ExactAlgebra.Proofs.SparsePolynomial.Moduli
import ExactAlgebra.Proofs.SparsePolynomial.Power
import ExactAlgebra.Proofs.SparsePolynomial.Printer
import ExactAlgebra.Proofs.SparsePolynomial.RemainderPower
import ExactAlgebra.Proofs.SparsePolynomial.Representatives
import ExactAlgebra.Proofs.SparsePolynomial.Residues
import ExactAlgebra.Proofs.SparsePolynomial.Ring
import ExactAlgebra.Proofs.SparsePolynomial.RoundTrip
import ExactAlgebra.Proofs.Terms.Accumulation
import ExactAlgebra.Proofs.Terms.Division
import ExactAlgebra.Proofs.Terms.Evaluation
import ExactAlgebra.Proofs.Terms.LongDivision
import ExactAlgebra.Proofs.Terms.Polynomial
import ExactAlgebra.Proofs.Terms.Refinement
import ExactAlgebra.Proofs.Terms.Store
import ExactAlgebra.Proofs.Word
import ExactAlgebra.Rational.Basic
import ExactAlgebra.Rational.Binary64
import ExactAlgebra.Rational.Numeral
import ExactAlgebra.RecentMap
import ExactAlgebra.SparsePolynomial.Arithmetic
import ExactAlgebra.SparsePolynomial.Basic
import ExactAlgebra.SparsePolynomial.Composition
import ExactAlgebra.SparsePolynomial.Power
import ExactAlgebra.SparsePolynomial.Printer
import ExactAlgebra.Terms.Arithmetic
import ExactAlgebra.Terms.Basic
import ExactAlgebra.Terms.Division
import ExactAlgebra.Terms.Store
import ExactAlgebra.Terms.Walk
import ExactAlgebra.Text.Alphanumeric
import ExactAlgebra.Text.CodePoints
import ExactAlgebra.Text.Combining
import ExactAlgebra.Text.Printable
import ExactAlgebra.Text.Quoted
import ExactAlgebra.Word
