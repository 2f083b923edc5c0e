import FabricManuals.Lib.Lines
import FabricManuals.Lib.TextFile
import FabricManuals.Lib.Utf8Lines
import FabricManuals.Lib.Decimal
import FabricManuals.Lib.Backtrack
import FabricManuals.Lib.FirstMatch
import FabricManuals.Lib.Surroundings
import FabricManuals.Lib.RequiredWords
import FabricManuals.Lib.Replace
import FabricManuals.Lib.Pieces
import FabricManuals.Lib.OrderStatistics
import FabricManuals.Lib.OrderedDict
import FabricManuals.Lib.Grouping
import FabricManuals.Lib.Attempts
import FabricManuals.Lib.PosixPath
import FabricManuals.Lib.Place
import FabricManuals.Lib.FileTree
import FabricManuals.Lib.Folding
import FabricManuals.Lib.CInt
import FabricManuals.Lib.ByteBuffer
import FabricManuals.Lib.Emptied
import FabricManuals.Lib.FileScript
import FabricManuals.Lib.Footprint
import FabricManuals.Lib.InPlace
import FabricManuals.Lib.Transition
import FabricManuals.Lib.SampleBuffer
import FabricManuals.Lib.Turns
import FabricManuals.Lib.ReleaseAcquire
import FabricManuals.Lib.Handles
import FabricManuals.Lib.KeyedTable
import FabricManuals.Lib.DeltaStream
import FabricManuals.CheckRfdNumbers.Model
import FabricManuals.CheckRfdNumbers.Patterns
import FabricManuals.CheckRfdNumbers.Passes
import FabricManuals.CheckRfdNumbers.Soundness
import FabricManuals.CheckRfdNumbers.Accepts
import FabricManuals.CheckRfdNumbers.Citations
import FabricManuals.CheckRfdNumbers.SiteLinks
import FabricManuals.CheckRfdNumbers.Relocation
import FabricManuals.CheckRfdNumbers.AliasRows
import FabricManuals.CheckRfdNumbers.Unreadable
import FabricManuals.CheckRfdNumbers.Serials
import FabricManuals.CheckRfdNumbers.Defects
import FabricManuals.DecisionMeta.Model
import FabricManuals.DecisionMeta.Graph
import FabricManuals.DecisionMeta.Order
import FabricManuals.DecisionMeta.Related
import FabricManuals.DecisionMeta.Urls
import FabricManuals.DecisionMeta.Locality
import FabricManuals.DecisionMeta.Resolve
import FabricManuals.DecisionMeta.Title
import FabricManuals.DecisionMeta.Scalars
import FabricManuals.DecisionMeta.Superseded
import FabricManuals.ChangelogCreator.Model
import FabricManuals.ChangelogCreator.Calendar
import FabricManuals.ChangelogCreator.Content
import FabricManuals.ChangelogCreator.Runs
import FabricManuals.ChangelogCreator.History
import FabricManuals.ChangelogCreator.Interruption
import FabricManuals.ChangelogCreator.Unchanged
import FabricManuals.ChangelogCreator.Dates
import FabricManuals.CheckTropes.Model
import FabricManuals.CheckTropes.EmDashes
import FabricManuals.CheckTropes.Names
import FabricManuals.CheckTropes.Tells
import FabricManuals.CheckTropes.Wrapping
import FabricManuals.CheckTropes.Triggers
import FabricManuals.Probe.Report
import FabricManuals.Probe.Quantiles
import FabricManuals.Probe.Rollback
import FabricManuals.Probe.ShmRing
import FabricManuals.Probe.Lockstep
import FabricManuals.Probe.Wire
import FabricManuals.Probe.WireLayout
import FabricManuals.Probe.WireDeltas
import FabricManuals.Probe.UnixSocket
import FabricManuals.Probe.RoundTrips
import FabricManuals.Probe.Alignment
import FabricManuals.Probe.FdbProbes
import FabricManuals.Probe.RingTurns
import FabricManuals.Probe.RingMemory
import FabricManuals.Probe.SocketProgress
import FabricManuals.Probe.FdbHandles
import FabricManuals.Probe.PointgetHandles
import FabricManuals.Probe.RollbackReplays
import FabricManuals.References.Model
import FabricManuals.References.Bibliography
import FabricManuals.References.Authors
import FabricManuals.Measurements.Model
import FabricManuals.Measurements.Build
import FabricManuals.Measurements.Joins
import FabricManuals.DecisionMeta.Breadcrumb
import FabricManuals.DecisionMeta.Finalize
import FabricManuals.DecisionMeta.WorkingDirectory
import FabricManuals.DecisionMeta.Alone
import FabricManuals.CheckRfdNumbers.SiteTitles
import FabricManuals.ChangelogCreator.Copies
import FabricManuals.ChangelogCreator.TitleText
import FabricManuals.ChangelogCreator.SitePages
import FabricManuals.ChangelogCreator.TropesGate
import FabricManuals.CheckRfdNumbers.CitationLines
import FabricManuals.ChangelogCreator.NumberGate
