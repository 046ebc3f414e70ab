import NonlinearSolve.CurveFit
import NonlinearSolve.JacobianCheck
import NonlinearSolve.Proofs.Drivers.Accounts
import NonlinearSolve.Proofs.Drivers.Cosines
import NonlinearSolve.Proofs.Drivers.Differences
import NonlinearSolve.Proofs.Drivers.Interruption
import NonlinearSolve.Proofs.Drivers.LastStep
import NonlinearSolve.Proofs.Drivers.Predictions
import NonlinearSolve.Proofs.Drivers.Progress
import NonlinearSolve.Proofs.Drivers.Rejections
import NonlinearSolve.Proofs.Drivers.Reporting
import NonlinearSolve.Proofs.Drivers.Scaling
import NonlinearSolve.Proofs.Drivers.UndefinedResiduals
import NonlinearSolve.Proofs.Drivers.Units
import NonlinearSolve.Proofs.Exact.BandedNorm
import NonlinearSolve.Proofs.Exact.JacobianRatings
import NonlinearSolve.Proofs.ForwardDifference.Bands
import NonlinearSolve.Proofs.LeastSquares.RowFactors
import NonlinearSolve.Proofs.Linear.LeadingCovariance
import NonlinearSolve.Proofs.Linear.PivotOrder
import NonlinearSolve.Proofs.Linear.SingularUpdates
import NonlinearSolve.Proofs.TrustRegion.Search
import NonlinearSolve.Proofs.TrustRegion.ZeroPivots
import NonlinearSolve.Proofs.Drivers.Rowwise
