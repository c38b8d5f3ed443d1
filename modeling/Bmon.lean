import Bmon.Timestamp
import Bmon.Schedule
import Bmon.Conf
import Bmon.CString
import Bmon.Lib.Binary
import Bmon.AttrData
import Bmon.Rate
import Bmon.Lib.RingLog
import Bmon.History
import Bmon.HistoryLog
import Bmon.HistoryTotals
import Bmon.Attr
import Bmon.AttrLookup
import Bmon.Overflow
import Bmon.Counter
import Bmon.Sample
import Bmon.Lib.Wildcard
import Bmon.Policy
import Bmon.Lib.Machine
import Bmon.PolicyReads
import Bmon.ModuleConf
import Bmon.Format
import Bmon.Module
import Bmon.Input
import Bmon.Lib.Neighbours
import Bmon.Lib.Forest
import Bmon.Store
import Bmon.Element
import Bmon.Select
import Bmon.Sweep
import Bmon.StoreInvariant
import Bmon.Layout
import Bmon.Traversal
import Bmon.Navigation
import Bmon.SelectionInvariant
import Bmon.Effects
import Bmon.SweepEffects
import Bmon.Lib.Runs
import Bmon.AttrSelect
import Bmon.Program
import Bmon.Evolution
import Bmon.Contents
import Bmon.ContentsInvariant
import Bmon.SweepReads
import Bmon.Lib.Loops
import Bmon.Tracked
import Bmon.Feed
import Bmon.ProcRead
import Bmon.DummyRead
import Bmon.InputReads
import Bmon.Lifetime
import Bmon.AttrTables
import Bmon.Curses
import Bmon.CursesPointers
import Bmon.AttrIndex
import Bmon.HistoryFloat
import Bmon.Gauge
import Bmon.Limits
import Bmon.ModuleCount
import Bmon.FormatConf
import Bmon.Lib.Cursor
import Bmon.EmptyGroups
import Bmon.SelectionFrame
import Bmon.Teardown
import Bmon.Lib.Descent
import Bmon.Netlink
import Bmon.NetlinkTc
import Bmon.Lib.Placement
import Bmon.NetlinkLinks
import Bmon.HistoryConf
import Bmon.HistoryVisits
import Bmon.HistoryDivision
import Bmon.HistoryEncoding
import Bmon.HistoryGaps
import Bmon.Lib.KeyedOrder
import Bmon.AttrOrder
import Bmon.PolicyParse
import Bmon.Sleep
import Bmon.CursesLayout
import Bmon.CursesList
import Bmon.Lib.Painting
import Bmon.Graph
import Bmon.TimestampObjects
import Bmon.HistoryDiscard
import Bmon.UnitConf
import Bmon.UnitDivisor
import Bmon.ElementConf
import Bmon.FormatTokens
import Bmon.DummyTraffic
import Bmon.DummyConfigure
import Bmon.SweepExact
import Bmon.Levels
import Bmon.NetlinkLevels
import Bmon.Lib.Ring
import Bmon.Raw
import Bmon.RawReads
import Bmon.RawWrites
import Bmon.RawRefinement
import Bmon.Lib.Leases
import Bmon.ProcCycles
import Bmon.ProcLeases
import Bmon.ProcInterface
import Bmon.AttrRecords
import Bmon.ProcFormat
import Bmon.ProcTotals
import Bmon.AttrMaps
import Bmon.Startup
import Bmon.FormatOutput
import Bmon.Lib.LeaseTree
import Bmon.ElementTree
import Bmon.NetlinkTree
import Bmon.NetlinkCycles
import Bmon.ModulesApart
import Bmon.ModulesShared
