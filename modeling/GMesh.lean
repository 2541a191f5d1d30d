import GMesh.DependencyChain
import GMesh.InnermostNode
import GMesh.Outline
import GMesh.SwapVectors
import GMesh.RescanScheduler
import GMesh.TsRelative
import GMesh.EntryPoints
import GMesh.PageGrowth
import GMesh.WalkExhaustion
import GMesh.ContainerBatches
import GMesh.RouterHeard
import GMesh.LinkExact
import GMesh.LinkMirror
import GMesh.SwapOutcome
import GMesh.OwedAttempts
import GMesh.ResidualStarts
import GMesh.ImportOutcome
import GMesh.ProjectWinners
import GMesh.ResumedEdges
import GMesh.ChildLedger
import GMesh.IndexStore
import GMesh.BridgeHistory
import GMesh.BridgeVerdicts
import GMesh.AnswerPasses
import GMesh.VectorHistory
import GMesh.EmbeddingCache
import GMesh.PluginSupervisor
import GMesh.Staleness
import GMesh.SessionHistory
import GMesh.PythonDelta
import GMesh.GoHistory
import GMesh.GoDelta
import GMesh.ProjectLinks
import GMesh.SubtreeWalk
import GMesh.GoWalkMirror
import GMesh.EdgeCounts
import GMesh.ModuleTree
import GMesh.PythonPresence
import GMesh.TsSymbols
