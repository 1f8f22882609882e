import MarkCompact.Adjust
import MarkCompact.Bitset
import MarkCompact.ByteSize
import MarkCompact.Collector
import MarkCompact.Compaction
import MarkCompact.Decimal.Binary
import MarkCompact.Decimal.Format
import MarkCompact.Decimal.Numeral
import MarkCompact.Decimal.Shortest
import MarkCompact.DensePrefix
import MarkCompact.Extent
import MarkCompact.Fault
import MarkCompact.Forwarding
import MarkCompact.Geometry
import MarkCompact.Heap
import MarkCompact.Limiter
import MarkCompact.Log
import MarkCompact.MarkBitmap.Basic
import MarkCompact.MarkBitmap.Walk
import MarkCompact.Marking
import MarkCompact.ObjectModel
import MarkCompact.Planning
import MarkCompact.PrefixTask
import MarkCompact.Proofs.Accounting
import MarkCompact.Proofs.Actions
import MarkCompact.Proofs.Addresses
import MarkCompact.Proofs.BitSearch
import MarkCompact.Proofs.BlockOffsets
import MarkCompact.Proofs.Boundaries
import MarkCompact.Proofs.Counts
import MarkCompact.Proofs.Fills
import MarkCompact.Proofs.Forwarding
import MarkCompact.Proofs.Filling
import MarkCompact.Proofs.Images
import MarkCompact.Proofs.Marks
import MarkCompact.Proofs.Moves
import MarkCompact.Proofs.Objects
import MarkCompact.Proofs.Packing
import MarkCompact.Proofs.Planning
import MarkCompact.Proofs.Plans
import MarkCompact.Proofs.PrefixEnd
import MarkCompact.Proofs.Redirecting
import MarkCompact.Proofs.Regions
import MarkCompact.Proofs.Releasing
import MarkCompact.Proofs.Sources
import MarkCompact.Proofs.Starts
import MarkCompact.Proofs.Underway
import MarkCompact.Proofs.Upkeep
import MarkCompact.Proofs.PrefixTasks
import MarkCompact.Proofs.Schedules
import MarkCompact.Proofs.PlannedHeaps
import MarkCompact.Proofs.FirstClaims
import MarkCompact.Proofs.Coordination
import MarkCompact.Proofs.Draining
import MarkCompact.Proofs.FirstWords
import MarkCompact.Proofs.LiveWords
import MarkCompact.Proofs.ObjectGraph
import MarkCompact.Proofs.Walks
import MarkCompact.Proofs.Zones
import MarkCompact.Reference
import MarkCompact.Region
import MarkCompact.RegionTable.Basic
import MarkCompact.RegionTable.Packing
import MarkCompact.Reservation
import MarkCompact.Sample.Heap
import MarkCompact.Sample.Memory
import MarkCompact.Sample.Sizes
import MarkCompact.Settings
import MarkCompact.Setup
import MarkCompact.Space
import MarkCompact.StartTable
import MarkCompact.Table
import MarkCompact.Text.Blank
import MarkCompact.Text.Hex
import MarkCompact.Text.Hidden
import MarkCompact.Text.Quoted
import MarkCompact.Word
import MarkCompact.WorkQueue
import MarkCompact.WorkQueue.Tasks
import MarkCompact.Proofs.Finishing
import MarkCompact.Proofs.FillLogs
import MarkCompact.Proofs.GapOwners
import MarkCompact.Proofs.Marking
import MarkCompact.Proofs.Preparing
import MarkCompact.Proofs.Checking
import MarkCompact.Proofs.Creating
import MarkCompact.Proofs.Geometries
import MarkCompact.Proofs.Cycles
import MarkCompact.Proofs.History
import MarkCompact.Proofs.Reachability
import MarkCompact.Proofs.Updates
import MarkCompact.Proofs.SoleMarker
import MarkCompact.Proofs.Recordings
import MarkCompact.Proofs.Readings
import MarkCompact.Proofs.Shares
import MarkCompact.Proofs.PartReads
import MarkCompact.Proofs.Jobs
import MarkCompact.Proofs.Orders
import MarkCompact.Proofs.Measures
import MarkCompact.Proofs.ExactPacking
import MarkCompact.Proofs.FilledPrefix
import MarkCompact.Proofs.BuiltTables
import MarkCompact.Proofs.Markings
import MarkCompact.Proofs.Visits
import MarkCompact.Proofs.PieceTilings
import MarkCompact.Proofs.PlanSearches
import MarkCompact.Proofs.PrefixBudgets
import MarkCompact.Proofs.StateWords
import MarkCompact.Proofs.LiveAddresses
import MarkCompact.Proofs.AnyPrefixes
import MarkCompact.Proofs.MetadataShortcut
import MarkCompact.Proofs.AdjustedSlots
import MarkCompact.Proofs.NarrowReferences
import MarkCompact.Proofs.PrefixRows
import MarkCompact.Proofs.MaximumPolicy
import MarkCompact.Proofs.BitRanges
import MarkCompact.Proofs.Reservations
import MarkCompact.Proofs.ObjectLayout
import MarkCompact.Proofs.SizeTexts
import MarkCompact.Proofs.PartialEnds
import MarkCompact.Proofs.Halving
import MarkCompact.Proofs.SplitPoints
import MarkCompact.Proofs.WeakRoots
