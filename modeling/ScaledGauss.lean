import ScaledGauss.LinearSystem
import ScaledGauss.Main
import ScaledGauss.Proofs.Elimination
import ScaledGauss.Proofs.Rounding
import ScaledGauss.Proofs.Restoration
import ScaledGauss.Proofs.BackwardError
import ScaledGauss.Proofs.Residual
import ScaledGauss.Proofs.Exact.Elimination
import ScaledGauss.Proofs.Exact.Solution
import ScaledGauss.Proofs.Solve
import ScaledGauss.Proofs.Policies
import ScaledGauss.Proofs.Accuracy
import ScaledGauss.Proofs.Lockstep
import ScaledGauss.Proofs.Reordering
import ScaledGauss.Proofs.RightHandSides
import ScaledGauss.Proofs.Refusal
import ScaledGauss.Proofs.InPlace
import ScaledGauss.Proofs.EntryPoints
import ScaledGauss.Proofs.Faults
import ScaledGauss.Proofs.Schedule
import ScaledGauss.Proofs.RoundTrip
import ScaledGauss.Proofs.Guarded.Program
import ScaledGauss.Proofs.Guarded.Elimination
import ScaledGauss.Proofs.Guarded.Safety
import ScaledGauss.Proofs.CorrectRounding
import ScaledGauss.Proofs.Throughout
import ScaledGauss.Proofs.PivotScan
import ScaledGauss.Proofs.WholeRows
import ScaledGauss.Proofs.ZeroPivot
import ScaledGauss.Proofs.FinishedColumns
import ScaledGauss.Proofs.Exact.Factorization
import ScaledGauss.Proofs.Dependence
import ScaledGauss.Proofs.Record
import ScaledGauss.Proofs.Triangular
import ScaledGauss.Proofs.Permutation
import ScaledGauss.Proofs.Opposite
import ScaledGauss.Proofs.ExactResidual
import ScaledGauss.Proofs.FirstFailure
import ScaledGauss.Proofs.ReportedError
import ScaledGauss.Proofs.Denotation
import ScaledGauss.Proofs.Conversion
import ScaledGauss.Proofs.NearestReal
import ScaledGauss.Proofs.IntegerRing
import ScaledGauss.Proofs.Narrative
import ScaledGauss.Proofs.Text.Grammar
import ScaledGauss.Proofs.Text.Documents
import ScaledGauss.Proofs.Text.Values
import ScaledGauss.Proofs.Text.Records
import ScaledGauss.Proofs.Text.Presentation
import ScaledGauss.Proofs.Text.Problems
import ScaledGauss.Proofs.Text.UnsupportedScale
import ScaledGauss.Proofs.Text.Reals
import ScaledGauss.Proofs.CommandLine.Arguments
import ScaledGauss.Proofs.CommandLine.StatedProblem
import ScaledGauss.Proofs.CommandLine.Agreement
