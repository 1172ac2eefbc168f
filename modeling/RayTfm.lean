import RayTfm.Tfm.Decoding
import RayTfm.Tfm.Encoders
import RayTfm.Tfm.VocabCache
import RayTfm.Scripts.SplitOutput
import RayTfm.Scripts.TrainingData
import RayTfm.Data.Equalize
import RayTfm.Data.Reordering
import RayTfm.Data.Repartition
import RayTfm.Data.OutputSplitter
import RayTfm.Data.LimitOperator
import RayTfm.Data.ZipOperator
import RayTfm.Data.MixShortest
import RayTfm.Logical.LimitPushdown
import RayTfm.Logical.BlockFormats
import RayTfm.Logical.PredicateSplit
import RayTfm.Logical.CommonSubExpr
import RayTfm.Logical.JoinPushdown
import RayTfm.Raylet.LeaseReadiness
import RayTfm.Data.GroupBySeparable
import RayTfm.Data.NullSort
import RayTfm.Raylet.BundlePolicies
import RayTfm.Autoscaler.InstanceManager
import RayTfm.Raylet.LocalResources
import RayTfm.Serve.PrefixTreeMatch
import RayTfm.Serve.LongPollRuns
import RayTfm.Tfm.TimeDeltaBins
import RayTfm.Tfm.ZipCodes
import RayTfm.Scripts.FraudCounts
import RayTfm.Data.SplitRepartition
import RayTfm.Data.SplitUnknown
import RayTfm.Scripts.DefaultDirs
import RayTfm.Data.ShufflingBatches
import RayTfm.Data.RebundleOriginals
import RayTfm.CoreWorker.PendingCalls
import RayTfm.Autoscaler.UnschedulableCache
import RayTfm.CoreWorker.GeneratorWaiter
import RayTfm.Data.RoundRobin
import RayTfm.Raylet.WaitManager
import RayTfm.Autoscaler.NodeStateCache
import RayTfm.Autoscaler.DemandAccounting
import RayTfm.Raylet.SameBundle
import RayTfm.Raylet.SelectorStrings
import RayTfm.Data.TableBlockBuilder
import RayTfm.CoreWorker.OwnedObjectCounters
import RayTfm.CoreWorker.ObjectRefStream
import RayTfm.Data.AsyncGenRuns
import RayTfm.Data.MergeTaskSchedule
