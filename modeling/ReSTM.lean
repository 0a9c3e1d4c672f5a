import ReSTM.Actors.PreCommit
import ReSTM.Actors.Ownership
import ReSTM.Actors.Durability
import ReSTM.Actors.ReadProtection
import ReSTM.Storage.Serializable
import ReSTM.Storage.CommitAck
import ReSTM.Stm.Overlay
import ReSTM.Stm.Isolation
import ReSTM.Remote.RestmInternalRestmHttpClient
import ReSTM.Remote.Agreement
import ReSTM.Collection.TreeMapRemoval
import ReSTM.Task.Released
import ReSTM.Task.Bookkeeping
import ReSTM.Collection.WriteElision
import ReSTM.Storage.Contention
import ReSTM.Clustering.Conservation
import ReSTM.Actors.CurrentValue
import ReSTM.Remote.RestmHttpClient
import ReSTM.Task.Completion
import ReSTM.Task.Reinit
import ReSTM.Task.StatusTrace
import ReSTM.Collection.TreeMapUpsert
import ReSTM.Collection.SortRetry
import ReSTM.Clustering.PageTreeStreams
import ReSTM.Clustering.RuleSplit
import ReSTM.Clustering.PageMaps
import ReSTM.Remote.ClusterRestmImpl
import ReSTM.Remote.RestmCluster
import ReSTM.Clustering.NodeTraversal
import ReSTM.Clustering.MetricRules
import ReSTM.Actors.ActorQueue
import ReSTM.Actors.Registry
import ReSTM.Types.LongTime
import ReSTM.Clustering.ToDigits
import ReSTM.Clustering.Batches
import ReSTM.Clustering.SplitsConserve
import ReSTM.Collection.LinkedListStreams
