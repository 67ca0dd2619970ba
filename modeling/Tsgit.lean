import Tsgit.BitmapReconstruct
import Tsgit.BundleHeader
import Tsgit.CalendarDate
import Tsgit.ChangedPaths
import Tsgit.CommitDateWalk
import Tsgit.CommitGraphBounds
import Tsgit.CommitGraphGenerations
import Tsgit.CompactionSegment
import Tsgit.ConcurrencyLimiter
import Tsgit.DeltaParse
import Tsgit.FindBisection
import Tsgit.GlobExact
import Tsgit.Ident
import Tsgit.InMergeBases
import Tsgit.IndexChange
import Tsgit.IndexLock
import Tsgit.LimitListExact
import Tsgit.LineScan
import Tsgit.LruNodes
import Tsgit.MergesScriptBlocks
import Tsgit.MidxLookup
import Tsgit.ObjectHeader
import Tsgit.PackIndexBounds
import Tsgit.PackOffsetTable
import Tsgit.PackWriter
import Tsgit.PackedRefs
import Tsgit.ParseVerdict
import Tsgit.PathMerge
import Tsgit.PktStream
import Tsgit.RefCas
import Tsgit.ReflogTiers
import Tsgit.ReftableBounds
import Tsgit.ReftableLog
import Tsgit.RegexExact
import Tsgit.RenamePairing
import Tsgit.ResolveUndo
import Tsgit.SpanFingerprint
import Tsgit.SparseCone
import Tsgit.SplitBlame
import Tsgit.SplitCommitGraph
import Tsgit.StackLock
import Tsgit.StoppedFiles
import Tsgit.TagRoundTrip
import Tsgit.TarRead
import Tsgit.TopologicalSort
import Tsgit.TreeChanges
import Tsgit.ZipRead
