import Rcllean.Runs
import Rcllean.Names
import Rcllean.QoS
import Rcllean.Client
import Rcllean.Slots
import Rcllean.WaitSet
import Rcllean.Executor
import Rcllean.Passes
import Rcllean.Destroyed
import Rcllean.Nested
import Rcllean.Spinner
import Rcllean.WakeUp
import Rcllean.BadMessage
import Rcllean.RunningWait
import Rcllean.Handles
import Rcllean.HandleInvariant
import Rcllean.HandleCalls
import Rcllean.Teardown
import Rcllean.Parameters
import Rcllean.ParamOverrides
import Rcllean.Overrides
import Rcllean.TokenPatterns
import Rcllean.OverrideKeys
import Rcllean.SwapRemoval
import Rcllean.ShutdownGuards
import Rcllean.ConcurrentShutdown
import Rcllean.JoinedTexts
import Rcllean.Graph
import Rcllean.Exclusion
import Rcllean.RemoteCalls
import Rcllean.Listings
import Rcllean.ParameterStore
import Rcllean.ParameterHistory
import Rcllean.ParameterEvents
import Rcllean.Signals
import Rcllean.LockOrder
import Rcllean.Locks
import Rcllean.Lifecycle
import Rcllean.Futures
import Rcllean.Topics
import Rcllean.Registrations
import Rcllean.Stamps
import Rcllean.SimTime
import Rcllean.ParameterServices
import Rcllean.Deadlines
import Rcllean.Stopping
import Rcllean.Ownership
import Rcllean.ShimCalls
import Rcllean.ShimMemory
import Rcllean.Discovery
import Rcllean.ParameterRequests
