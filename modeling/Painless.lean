import Painless.MachineIntegers
import Painless.Transitions
import Painless.Cnf
import Painless.DivideAndConquer
import Painless.SearchCover
import Painless.DivisionLists
import Painless.DivisionCover
import Painless.DivisionInterrupts
import Painless.DivisionPartner
import Painless.DivisionRefinement
import Painless.ExclusiveAccess
import Painless.CubeAndConquer
import Painless.CubeJobs
import Painless.CountedWorkers
import Painless.CubeForwarding
import Painless.CubeMessage
import Painless.DistributedPortfolio
import Painless.LingelingSplit
import Painless.ResultValidity
import Painless.ResultWrites
import Painless.AtomicResults
import Painless.ResultCopies
import Painless.ResultAgreement
import Painless.MapleSolver
import Painless.MapleDatabase
import Painless.MapleElimination
import Painless.MapleSearch
import Painless.MapleTrail
import Painless.SatAnswers
import Painless.ClauseBuffer
import Painless.BulkDrain
import Painless.RankSteps
import Painless.SharerRounds
import Painless.ClauseMessages
import Painless.NoEcho
import Painless.ReferenceCounts
import Painless.DistributionDelivery
import Painless.HordeSatDelivery
import Painless.GreedySelection
import Painless.DatabaseHistory
import Painless.XorFold
import Painless.FilterHash
import Painless.PortfolioWinner
import Painless.DivisionSolvers
import Painless.RosterSizes
import Painless.ClauseOrigins
import Painless.ClauseMetadata
import Painless.CubeSharing
import Painless.CubeConsequences
import Painless.SolverVector
import Painless.GlucoseDecisions
import Painless.DivisionDecisions
import Painless.ImportedWatches
import Painless.Decimal
import Painless.DimacsLoader
import Painless.SharingGroups
import Painless.PhaseDiversification
import Painless.GlucoseDiversification
import Painless.ModelPrinting
import Painless.FilterReset
import Painless.LingelingImport
import Painless.MiniSatAnswers
import Painless.MiniSatTermination
import Painless.MiniSatDecisions
import Painless.ClauseRoutes
import Painless.MiniSatPortfolio
import Painless.PortfolioAnswers
import Painless.EliminationHistory
import Painless.Subsumption
import Painless.MiniSatVerdict
