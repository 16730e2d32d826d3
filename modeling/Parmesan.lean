import Parmesan.Outcome
import Parmesan.TagSetModel
import Parmesan.TagSetInvariant
import Parmesan.TagSetInsert
import Parmesan.TagSetCanonical
import Parmesan.TagSetShape
import Parmesan.TagSetChain
import Parmesan.TagSetCombine
import Parmesan.Execution
import Parmesan.TagSetRun
import Parmesan.TagSetPlain
import Parmesan.BranchesModel
import Parmesan.BranchesRace
import Parmesan.CondOutput
import Parmesan.Command
import Parmesan.TrackModel
import Parmesan.TrackMagic
import Parmesan.TrackReplay
import Parmesan.DepotModel
import Parmesan.DepotRun
import Parmesan.Bytes
import Parmesan.MutInputModel
import Parmesan.BranchesHistory
import Parmesan.CfgModel
import Parmesan.CfgScore
import Parmesan.CfgOrder
import Parmesan.CfgStale
import Parmesan.CfgShared
import Parmesan.TrackKeys
import Parmesan.AflSync
import Parmesan.ByteReader
import Parmesan.PinLog
import Parmesan.SeedLink
import Parmesan.DepotCount
import Parmesan.DepotFold
import Parmesan.DepotTargets
import Parmesan.TrackFixed
import Parmesan.ForkRequests
import Parmesan.ForkReply
import Parmesan.FnContext
import Parmesan.EdgeCount
import Parmesan.PassModel
import Parmesan.PassIds
import Parmesan.PassProbe
import Parmesan.PassEdges
import Parmesan.Segments
import Parmesan.TagSetFind
import Parmesan.LenLabel
import Parmesan.CondState
import Parmesan.TrackTags
import Parmesan.MutInputLens
import Parmesan.IdAssigner
import Parmesan.InputFds
import Parmesan.CmpOverlay
import Parmesan.SearchModel
import Parmesan.SearchLength
import Parmesan.JsonText
import Parmesan.StatsJson
import Parmesan.AflMutation
import Parmesan.CondFilter
import Parmesan.MergeOffsets
import Parmesan.CmpFn
import Parmesan.FnMatch
import Parmesan.TrackLoop
import Parmesan.GdSearch
import Parmesan.HeapLabels
import Parmesan.ReadLabels
import Parmesan.TagSetMachine
import Parmesan.TagSetTree
import Parmesan.DepthFirst
import Parmesan.IndirectBranches
import Parmesan.DiffModel
import Parmesan.DiffReport
import Parmesan.DiffSame
import Parmesan.DiffScript
import Parmesan.DiffSilent
import Parmesan.Dominance
import Parmesan.ShadowCombine
import Parmesan.ShadowInsts
import Parmesan.ShadowSound
import Parmesan.ExecutorModel
import Parmesan.SearchHistory
import Parmesan.SearchStops
import Parmesan.SharedCond
import Parmesan.SearchExhausts
import Parmesan.StatsSync
import Parmesan.PassSequence
