import OverGraph.SegmentOrder
import OverGraph.CompactedNodes
import OverGraph.PrunedCompaction
import OverGraph.OptionalMatch
import OverGraph.PipelinePages
import OverGraph.OutputValues
import OverGraph.LabelRuns
import OverGraph.CompoundKeys
import OverGraph.TripleLookups
import OverGraph.DegreeRuns
import OverGraph.FailedCommits
import OverGraph.SchemaWrites
import OverGraph.ManifestFiles
import OverGraph.PageRank
import OverGraph.ProjectMeaning
import OverGraph.ExistsShortcuts
import OverGraph.FilterShortcuts
import OverGraph.CanonicalKeys
import OverGraph.RangePages
import OverGraph.CappedCandidates
import OverGraph.MergeBatches
import OverGraph.EndpointScans
import OverGraph.EstimatedSizes
import OverGraph.DegreeSidecars
import OverGraph.PlannedRuns
