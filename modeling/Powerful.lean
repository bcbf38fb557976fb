import Powerful.Resumption
import Powerful.JsonTree
import Powerful.Base64
import Powerful.Model
import Powerful.StringRenderer
import Powerful.Beans
import Powerful.SimplifiedNode
import Powerful.GrpcHeaders
import Powerful.Service
import Powerful.ExecutionSteps
import Powerful.Workers
import Powerful.Records
import Powerful.Isolation
import Powerful.CaseValidator
import Powerful.RequestCases
import Powerful.QueryString
import Powerful.Network
import Powerful.Http
import Powerful.Budgets
import Powerful.Amplification
import Powerful.HelmStatus
import Powerful.Reconcile
import Powerful.SpecWrites
import Powerful.Quantiles
import Powerful.ResponseHeaders
import Powerful.RoundRobin
import Powerful.Performed
import Powerful.Expectations
import Powerful.Pacing
import Powerful.Addressing
import Powerful.HeaderVisibility
import Powerful.Templates
import Powerful.NumericExpectations
import Powerful.DubboCalls
import Powerful.DubboArguments
import Powerful.Targets
import Powerful.CaseSets
import Powerful.Simplification
import Powerful.FormView
import Powerful.Propagation
import Powerful.Iterations
import Powerful.SubstitutedRuns
import Powerful.Chains
import Powerful.NestedLayers
import Powerful.HelmValues
import Powerful.RandomExpressions
import Powerful.MergePatch
import Powerful.ReleaseResources
import Powerful.Outcomes
import Powerful.ReleaseManager
import Powerful.ReconcileCalls
import Powerful.ReconcileReports
import Powerful.Finalizers
import Powerful.OperatorRuns
import Powerful.ManagerFactory
import Powerful.CutConversions
import Powerful.DependentWatches
import Powerful.Watches
import Powerful.Fleets
import Powerful.LeaderElection
import Powerful.ConditionHistories
