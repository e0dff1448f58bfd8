import SlickPerfmon.Library.BoundedMap
import SlickPerfmon.Library.ByteMemory
import SlickPerfmon.Library.Csv
import SlickPerfmon.Library.Custody
import SlickPerfmon.Library.CyclicProbe
import SlickPerfmon.Library.Interleave
import SlickPerfmon.Library.LogLinear
import SlickPerfmon.Library.Moments
import SlickPerfmon.Library.NearestRank
import SlickPerfmon.Library.StdHeap
import SlickPerfmon.Library.StdSort
import SlickPerfmon.Library.TieBreak
import SlickPerfmon.Library.TransitionSystem
import SlickPerfmon.Merge.Consumption
import SlickPerfmon.Merge.HoldBack
import SlickPerfmon.Merge.Lemmas.Lapped
import SlickPerfmon.Merge.Lemmas.LappedPass
import SlickPerfmon.Merge.Lemmas.Loop
import SlickPerfmon.Merge.Lemmas.Lossy
import SlickPerfmon.Merge.Lemmas.Pass
import SlickPerfmon.Merge.Lemmas.Shared
import SlickPerfmon.Merge.Lemmas.Source
import SlickPerfmon.Merge.MergePass
import SlickPerfmon.Merge.Order
import SlickPerfmon.Merge.Spans
import SlickPerfmon.Merge.TieBreak
import SlickPerfmon.Merge.TiedSpans
import SlickPerfmon.Merge.TiedStamps
import SlickPerfmon.Merge.Unbounded
import SlickPerfmon.Names.Counting
import SlickPerfmon.Names.FreshLabels
import SlickPerfmon.Names.LabelCache
import SlickPerfmon.Names.NameTable
import SlickPerfmon.Names.OneSlot
import SlickPerfmon.Names.Publish
import SlickPerfmon.Pairing.CompleteSpans
import SlickPerfmon.Pairing.EvictOrder
import SlickPerfmon.Pairing.Ledger
import SlickPerfmon.Pairing.Lemmas.Basic
import SlickPerfmon.Pairing.Lemmas.Events
import SlickPerfmon.Pairing.Lemmas.Evict
import SlickPerfmon.Pairing.Machine
import SlickPerfmon.Pairing.Overhead
import SlickPerfmon.Pairing.Pairer
import SlickPerfmon.Pairing.Refinement
import SlickPerfmon.Pairing.ScanEviction
import SlickPerfmon.Pairing.SpanCharges
import SlickPerfmon.Pairing.StageSamples
import SlickPerfmon.Pairing.Stamp
import SlickPerfmon.Pairing.Sweep
import SlickPerfmon.Report.ColumnSum
import SlickPerfmon.Report.CompleteRows
import SlickPerfmon.Report.Csv
import SlickPerfmon.Report.CsvRoundTrip
import SlickPerfmon.Report.Flush
import SlickPerfmon.Report.Lemmas.Alike
import SlickPerfmon.Report.Lemmas.Grows
import SlickPerfmon.Report.Lemmas.Refill
import SlickPerfmon.Report.Lemmas.Rows
import SlickPerfmon.Report.RowOrder
import SlickPerfmon.Report.RowRefill
import SlickPerfmon.Report.Samples
import SlickPerfmon.Report.SpanStages
import SlickPerfmon.Report.StageKinds
import SlickPerfmon.Report.Visible
import SlickPerfmon.Ring.ExactlyOnce
import SlickPerfmon.Ring.HotPath
import SlickPerfmon.Ring.Interleaving
import SlickPerfmon.Ring.Lemmas.PathInv
import SlickPerfmon.Ring.Lemmas.TableAside
import SlickPerfmon.Ring.Lemmas.TableInv
import SlickPerfmon.Ring.Ownership
import SlickPerfmon.Ring.Recycling
import SlickPerfmon.Ring.ReuseSafety
import SlickPerfmon.Ring.RingTable
import SlickPerfmon.Ring.StampOrder
import SlickPerfmon.Ring.TableReuse
import SlickPerfmon.Ring.ThreadExit
import SlickPerfmon.Ring.ThreadRing
import SlickPerfmon.Scoped.OneEnd
import SlickPerfmon.Scoped.ScopedSample
import SlickPerfmon.Scoped.Tracked
import SlickPerfmon.Session.AttachHandshake
import SlickPerfmon.Session.BlockBytes
import SlickPerfmon.Session.BlockLayout
import SlickPerfmon.Session.BlockRefinement
import SlickPerfmon.Session.Collector
import SlickPerfmon.Session.CsvAppend
import SlickPerfmon.Session.FailedStart
import SlickPerfmon.Session.FinalDrain
import SlickPerfmon.Session.FlushHandshake
import SlickPerfmon.Session.FlushRows
import SlickPerfmon.Session.HeaderSchema
import SlickPerfmon.Session.Measurement
import SlickPerfmon.Session.Restart
import SlickPerfmon.Session.SessionLifetime
import SlickPerfmon.Session.Start
import SlickPerfmon.Stats.Accumulator
import SlickPerfmon.Stats.Buckets
import SlickPerfmon.Stats.Merge
import SlickPerfmon.Stats.NearestRank
import SlickPerfmon.Stats.OccupiedBand
import SlickPerfmon.Stats.Percentile
import SlickPerfmon.Store.Lemmas.Erase
import SlickPerfmon.Store.Lemmas.EraseIf
import SlickPerfmon.Store.Lemmas.NextPow2
import SlickPerfmon.Store.Lemmas.OpenMap
import SlickPerfmon.Store.OpenMap
import SlickPerfmon.Store.Refinement
