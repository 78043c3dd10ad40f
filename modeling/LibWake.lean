import LibWake.TransitionSystem
import LibWake.OpenAddressing
import LibWake.SlotPass
import LibWake.SlotTable
import LibWake.RepeatedMinimum
import LibWake.ByteOrder
import LibWake.MaskedIndex
import LibWake.DenseArray
import LibWake.HeaviestKept
import LibWake.NewestKinds
import LibWake.TacModel
import LibWake.TacOccupancy
import LibWake.TacInvariant
import LibWake.TacCap
import LibWake.TacHistory
import LibWake.TacBudget
import LibWake.TacWitness
import LibWake.TacLookup
import LibWake.TacEdges
import LibWake.TacQuarantine
import LibWake.CheckedAccess
import LibWake.CounterLedger
import LibWake.TacRead
import LibWake.TacHeavyEdges
import LibWake.TacStores
import LibWake.TacGenerations
import LibWake.TacSnapshot
import LibWake.TacRefusal
import LibWake.TacQuery
import LibWake.TacTop
import LibWake.TacApplied
import LibWake.TacChargeOrder
import LibWake.TacSymmetry
import LibWake.TacRoute
import LibWake.TacChecked
import LibWake.TacIndexSafety
import LibWake.TacIndexRuns
import LibWake.TacReopen
import LibWake.TacDecay
import LibWake.TacRebuild
import LibWake.PheromoneModel
import LibWake.PheromoneMap
import LibWake.PheromoneDecay
import LibWake.PheromoneConcurrent
import LibWake.PheromoneDeposits
import LibWake.PheromoneAccounting
import LibWake.PheromoneOpen
import LibWake.ScannedClaims
import LibWake.PheromoneMaintenance
import LibWake.PheromoneReasons
import LibWake.SwimModel
import LibWake.SwimInvariant
import LibWake.SwimEffect
import LibWake.SwimPrecedence
import LibWake.SwimRefutation
import LibWake.SwimRepresentation
import LibWake.SwimDissemination
import LibWake.SwimConvergence
import LibWake.SwimExpiry
import LibWake.SwimTimeout
import LibWake.SwimProbe
import LibWake.SwimDelegates
import LibWake.SwimQueue
import LibWake.SwimSelection
import LibWake.SwimJournal
import LibWake.ByteBuffer
import LibWake.DgramModel
import LibWake.DgramRoundTrip
import LibWake.DgramGrammar
import LibWake.DgramCapacity
import LibWake.SwimWire
import LibWake.SwimRumours
import LibWake.SwimGroup
import LibWake.EntityModel
import LibWake.SignalModel
import LibWake.SignalForwarding
import LibWake.GrownTree
import LibWake.PushLazyPush
import LibWake.PushLazyPushFlood
import LibWake.PushLazyPushTree
import LibWake.PlumTreeModel
import LibWake.PlumTreeInvariant
import LibWake.PlumTreeNetwork
import LibWake.PlumTreeRefinement
import LibWake.PlumTreeSpanningTree
import LibWake.PlumTreeSteady
import LibWake.PlumTreeMemory
import LibWake.PlumTreeTables
import LibWake.PlumTreeRepair
import LibWake.PlumTreeDeadline
import LibWake.PlumTreePayload
import LibWake.PlumTreeHeal
import LibWake.PlumTreeMesh
import LibWake.LazyRepair
import LibWake.Seqlock
import LibWake.PlumTreeReactions
import LibWake.PlumTreeReliable
import LibWake.QuorumModel
import LibWake.PheromoneEvidence
import LibWake.QuorumProtocol
import LibWake.QuorumRead
import LibWake.QuorumCollect
import LibWake.QuorumResume
import LibWake.QuorumRepeat
import LibWake.PheromoneIndexSafety
import LibWake.PheromoneTermination
import LibWake.EntityHash
import LibWake.EntityForms
import LibWake.EntityFormat
import LibWake.PheromoneProcess
import LibWake.PheromoneSeqlock
import LibWake.PheromoneSnapshots
import LibWake.PheromoneClaims
import LibWake.PheromoneReaders
import LibWake.BlockBuffer
import LibWake.MonocypherBytes
import LibWake.Poly1305Limbs
import LibWake.Poly1305
import LibWake.ChaCha20
import LibWake.Aead
import LibWake.Sha512Rounds
import LibWake.Sha512
import LibWake.PheromoneStats
import LibWake.TacStats
