import LibKern.Program
import LibKern.Rounds
import LibKern.Memory
import LibKern.Traversal
import LibKern.Visits
import LibKern.Locality
import LibKern.Clients
import LibKern.Comparison
import LibKern.LinkedTree
import LibKern.RedBlack
import LibKern.Aggregates
import LibKern.RbTreeMemory
import LibKern.RbTreeSource
import LibKern.RbTreeShape
import LibKern.RbTreeInsert
import LibKern.RbTreeErase
import LibKern.RbTreeValid
import LibKern.RbTreeIteration
import LibKern.RbTreeMap
import LibKern.RbTreeDelete
import LibKern.RbTreeAugment
import LibKern.RbTreeAugmentRuns
import LibKern.RbTreeFrame
import LibKern.RbTreeClients
import LibKern.RbTreeRounds
import LibKern.LeftistHeap
import LibKern.LHeapSource
import LibKern.LHeapMerge
import LibKern.LHeapDelete
import LibKern.LHeapRuns
import LibKern.LHeapReuse
import LibKern.LHeapForest
import LibKern.LHeapRounds
import LibKern.Region
import LibKern.CText
import LibKern.CMemory
import LibKern.BitopsSource
import LibKern.BitScan
import LibKern.BitmapSource
import LibKern.BitmapShift
import LibKern.BitmapParse
import LibKern.BitmapGrammar
import LibKern.Masks
import LibKern.Rounding
import LibKern.BitmapHex
import LibKern.BitRuns
import LibKern.BitmapList
import LibKern.CPrint
import LibKern.BitmapListPrint
import LibKern.BitmapNormal
import LibKern.BitmapPrintBounds
import LibKern.BitmapOpsSource
import LibKern.TwoRuns
import LibKern.BitmapOps
import LibKern.BitmapMaps
import LibKern.BitmapDontCare
import LibKern.BitmapFastPath
import LibKern.BitmapRegions
import LibKern.BitmapShiftFrame
import LibKern.BitmapRegionScan
import LibKern.BitmapSpans
import LibKern.BitmapUnused
import LibKern.BitmapRuns
import LibKern.LinkedChain
import LibKern.SequenceMap
import LibKern.ListSource
import LibKern.ListRings
import LibKern.ListSequences
import LibKern.ListRuns
import LibKern.HlistSource
import LibKern.HlistChains
import LibKern.HlistSequences
import LibKern.HlistRuns
import LibKern.JhashSource
import LibKern.JhashKeys
import LibKern.HtableSource
import LibKern.KeyedStacks
import LibKern.StackPurge
import LibKern.HlistTraversal
import LibKern.HlistResume
import LibKern.HtableBuckets
import LibKern.HtableKeys
import LibKern.HtableStacks
import LibKern.HtableRuns
import LibKern.HtableSizes
import LibKern.HtableEntries
import LibKern.HtablePurge
import LibKern.HtableFilter
import LibKern.ListTraversal
import LibKern.ListFrame
import LibKern.ListCanonical
import LibKern.ListResume
import LibKern.HtableTraversal
import LibKern.RemovalSafe
import LibKern.FieldSums
import LibKern.BitWeight
import LibKern.BitmapSets
import LibKern.ZeroScan
import LibKern.LastScan
import LibKern.BitmapRanges
import LibKern.BitmapAreas
import LibKern.BitmapAreaClients
import LibKern.BitmapCompatible
import LibKern.VecSource
import LibKern.VecLists
import LibKern.VecRuns
import LibKern.VecGrowth
import LibKern.UsualOrder
import LibKern.Ranks
import LibKern.BitmapMarks
import LibKern.BitmapRemap
import LibKern.BitmapOnto
import LibKern.BitmapClients
import LibKern.BitmapSweep
import LibKern.BitmapRelay
import LibKern.Log2Source
import LibKern.Log2Values
import LibKern.Log2Orders
import LibKern.JhashWords
import LibKern.JhashMixing
import LibKern.JhashFixed
import LibKern.TopBits
import LibKern.HashSource
import LibKern.HashValues
import LibKern.HashSpread
import LibKern.HashInput
import LibKern.VecInsert
import LibKern.VecRequests
import LibKern.VecSizes
