import Norte.Utf8
import Norte.VPathCodec
import Norte.VPath
import Norte.Hashing
import Norte.Moves
import Norte.FoldingDir
import Norte.RenamePlan
import Norte.RenameVerdicts
import Norte.RenameOrder
import Norte.RenameExec
import Norte.RenameReport
import Norte.RenameRollback
import Norte.Links
import Norte.ChainHash
import Norte.Journal
import Norte.JournalChain
import Norte.JournalTamper
import Norte.Compensation
import Norte.JournalQueries
import Norte.UndoTask
import Norte.UndoBatch
import Norte.UndoHistory
import Norte.JournalCompact
import Norte.OrderLex
import Norte.OrderParse
import Norte.OrderPrint
import Norte.OrderRoundTrip
import Norte.Scheduler
import Norte.SpoolRegistry
import Norte.Framing
import Norte.SyncTypes
import Norte.MergeJoin
import Norte.StackWalk
import Norte.PairKey
import Norte.CompareCascade
import Norte.CompareWalk
import Norte.CompareRows
import Norte.CompareCover
import Norte.CompareSwap
import Norte.SyncPlanner
import Norte.SwapPlan
import Norte.PlanHasher
import Norte.PlanToken
import Norte.RenameToken
import Norte.SpoolFile
import Norte.PlanApproval
import Norte.SyncCalls
import Norte.SyncExec
import Norte.SyncCuts
import Norte.SyncAccount
import Norte.SyncTree
import Norte.SyncUndo
import Norte.SyncRestore
import Norte.Policy
import Norte.ArchiveIndex
import Norte.Approvals
import Norte.IndexBuild
import Norte.Audit
import Norte.ZipRoundTrip
import Norte.LayoutValid
import Norte.OrderQuantity
import Norte.Wtf8
import Norte.JournalPlan
import Norte.JournalCutoff
import Norte.JournalUnknown
import Norte.ArchivePath
import Norte.PackWalk
import Norte.PackIndex
import Norte.SessionStore
import Norte.SessionWriter
import Norte.SessionHandoff
import Norte.UndoTurn
import Norte.UndoEntry
import Norte.UndoOnce
import Norte.UndoCounts
import Norte.UndoOverlap
import Norte.FrameDecoder
import Norte.Calendar
import Norte.DosTime
import Norte.QueueMove
import Norte.ScopeVerdicts
import Norte.LayoutAside
import Norte.LayoutLocal
import Norte.LayoutKeys
import Norte.RenameRetry
import Norte.SpellingRename
import Norte.SyncSteps
import Norte.SyncOverlap
import Norte.SyncInclude
import Norte.CompareTwin
import Norte.SyncSelect
import Norte.OrderColour
import Norte.OrderSpans
import Norte.OrderTokens
import Norte.SortedMap
import Norte.FirstFit
import Norte.JsonText
import Norte.SavedBody
import Norte.SavedPrune
import Norte.SavedTrimmed
import Norte.SavedOrder
import Norte.SavedPruned
import Norte.SavedScreen
import Norte.SplitPieces
import Norte.SplitRun
import Norte.SplitCombine
import Norte.WriteTask
import Norte.WriteUndo
import Norte.WriteReturn
import Norte.WriteChain
import Norte.SyncReads
import Norte.CompareShut
import Norte.SyncRefuse
import Norte.CompareAlike
import Norte.CompareLands
import Norte.SyncSpelt
import Norte.SyncPlaced
import Norte.PutCut
import Norte.SyncApplies
import Norte.SyncClean
import Norte.SyncMirror
import Norte.SyncAgain
import Norte.SyncConverges
import Norte.SyncFolds
import Norte.EndToEnd
import Norte.LayoutRects
import Norte.LayoutRounds
import Norte.LayoutTiles
import Norte.LayoutPlace
import Norte.LayoutResolve
import Norte.LayoutFrame
import Norte.LayoutScreen
import Norte.FirstError
import Norte.KeyChord
import Norte.KeyLayers
import Norte.KeyEffective
import Norte.KeyLoad
import Norte.KeyResolve
import Norte.KeyRebind
import Norte.TransferFlight
import Norte.TransferRun
import Norte.TransferAgree
import Norte.TransferTogether
import Norte.TransferTree
import Norte.TransferHeld
import Norte.TransferMove
import Norte.TransferHeeds
import Norte.TransferSpared
