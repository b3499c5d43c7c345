import StagedQP.Main
import StagedQP.Proofs.OptimalityCertificate
import StagedQP.Proofs.ReachedWorkspace
import StagedQP.Proofs.StepAgreement
import StagedQP.Proofs.SolveHistory
import StagedQP.Proofs.SemidefiniteFactor
import StagedQP.Proofs.ConvexSweep
import StagedQP.Proofs.FeasibleSuccess
import StagedQP.Proofs.BuiltProblem
import StagedQP.Proofs.RunEnding
import StagedQP.Proofs.ExtendedNumbers
import StagedQP.Proofs.FiniteSuccess
import StagedQP.Proofs.EqualityConstrained
import StagedQP.Proofs.IterateSequence
import StagedQP.Proofs.StrictMargin
import StagedQP.Proofs.RestatedSolve
import StagedQP.Proofs.CheckedSolve
import StagedQP.Proofs.RepeatedSolve
import StagedQP.Proofs.SweepMinimizer
import StagedQP.Proofs.DualityMeasure
import StagedQP.Proofs.BoundaryDistance
import StagedQP.Proofs.AcceptedProblem
import StagedQP.Proofs.RefusedSolve
import StagedQP.Proofs.ChainProblem
import StagedQP.Proofs.ChainEnergy
import StagedQP.Proofs.WorkspaceBytes
import StagedQP.Proofs.TrajectoryRoundTrip
import StagedQP.Proofs.FaithfulPacking
import StagedQP.Proofs.RegularizationLadder
import StagedQP.Proofs.LagrangianSlope
import StagedQP.Proofs.BufferImport
