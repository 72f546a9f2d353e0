import Downhill.Decimal.Text
import Downhill.Linear.Orthogonal
import Downhill.Tensor.Space
import Downhill.Problem.Difference
import Downhill.Problem.Arrays
import Downhill.Problem.Formula
import Downhill.Wording
import Downhill.LineSearch.Backtracking
import Downhill.LineSearch.Cubic
import Downhill.LineSearch.Bisection
import Downhill.LineSearch.Family
import Downhill.Direction.Newton
import Downhill.Direction.ConjugateGradient
import Downhill.Direction.QuasiNewton.Strategy
import Downhill.Descent.Run
import Downhill.Descent.Script
import Downhill.Solver.Minimize
import Downhill.Solver.Basic
import Downhill.Solver.Catalogue
import Downhill.Logging.Registry
import Downhill.Main
import Downhill.Proofs.Exact.Vector
import Downhill.Proofs.Problem.Quiet
import Downhill.Proofs.LineSearch.MoreThuente.Rounds
import Downhill.Proofs.Descent.Run
import Downhill.Proofs.QuasiNewton.Dense
import Downhill.Proofs.QuasiNewton.Definite
import Downhill.Proofs.Descent.Protocol
import Downhill.Proofs.Descent.Verdicts
import Downhill.Proofs.Descent.Coherence
import Downhill.Proofs.ConjugateGradient.Walk
import Downhill.Proofs.Solver.Returns
import Downhill.Proofs.Solver.Stationary
import Downhill.Proofs.Solver.OneStep
import Downhill.Proofs.QuasiNewton.Conjugate
import Downhill.Proofs.QuasiNewton.Memory
import Downhill.Proofs.ConjugateGradient.FletcherReeves
import Downhill.Proofs.LineSearch.Acceptable
import Downhill.Proofs.Solver.Descending
import Downhill.Proofs.Solver.SteepestDescent
import Downhill.Proofs.Solver.Evaluations
import Downhill.Proofs.Solver.Motion
import Downhill.Proofs.Descent.Prefix
import Downhill.Proofs.Solver.Differences
import Downhill.Proofs.Solver.Reuse
import Downhill.Proofs.QuasiNewton.Curvature
import Downhill.Proofs.Linear.ShiftSequence
import Downhill.Proofs.Newton.Regularized
import Downhill.Proofs.Descent.Resume
import Downhill.Proofs.Solver.Resume
import Downhill.Proofs.Descent.Undefined
import Downhill.Proofs.Descent.Straight
import Downhill.Proofs.Newton.Affine
import Downhill.Proofs.Solver.Covariant
import Downhill.Proofs.Linear.ShiftBound
import Downhill.Proofs.LineSearch.MoreThuente.Parabola
import Downhill.Proofs.LineSearch.Bracket
import Downhill.Proofs.LineSearch.OneHalf
import Downhill.Proofs.LineSearch.Window
import Downhill.Proofs.ConjugateGradient.Restarts
import Downhill.Proofs.Problem.PolynomialDifference
import Downhill.Proofs.Problem.Expansion
import Downhill.Proofs.Linear.Reciprocal
import Downhill.Proofs.QuasiNewton.Offers
import Downhill.Proofs.QuasiNewton.Secant
import Downhill.Proofs.Problem.Spectrum
import Downhill.Proofs.Descent.Diary
import Downhill.Proofs.LineSearch.MoreThuente.Minimizer
import Downhill.Proofs.LineSearch.MoreThuente.Mirror
import Downhill.Proofs.LineSearch.Interpolation
import Downhill.Proofs.Logging.Tuned
