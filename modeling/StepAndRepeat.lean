import StepAndRepeat.Grid.Raw
import StepAndRepeat.Main
import StepAndRepeat.View.Highlight
import StepAndRepeat.Proofs.Replication.Rerun
import StepAndRepeat.Proofs.Replication.Extents
import StepAndRepeat.Proofs.Replication.Suppression
import StepAndRepeat.Proofs.Replication.Translation
import StepAndRepeat.Proofs.Replication.Reproduction
import StepAndRepeat.Proofs.Extent.Enclosure
import StepAndRepeat.Proofs.Extent.Arcs
import StepAndRepeat.Proofs.Replication.Labels
import StepAndRepeat.Proofs.Replication.Skipping
import StepAndRepeat.Proofs.Job.Agreement
import StepAndRepeat.Proofs.Grid.Tiles
import StepAndRepeat.Proofs.Program.Numbering
import StepAndRepeat.Proofs.Job.SourceName
import StepAndRepeat.Proofs.Job.Placement
import StepAndRepeat.Proofs.Replication.Passes
import StepAndRepeat.Proofs.View.Button
import StepAndRepeat.Proofs.View.Making
import StepAndRepeat.Proofs.Settings.Keeping
import StepAndRepeat.Proofs.Program.Partition
import StepAndRepeat.Proofs.Replication.Repositioning
import StepAndRepeat.Proofs.Extent.Contributions
import StepAndRepeat.Proofs.Grid.Planning
import StepAndRepeat.Proofs.Grid.SkipFormat
import StepAndRepeat.Proofs.Settings.Travel
import StepAndRepeat.Proofs.Replication.SpindleStops
import StepAndRepeat.Proofs.Replication.Composition
import StepAndRepeat.Proofs.Replication.LetterCase
import StepAndRepeat.Proofs.Extent.Sweeps
import StepAndRepeat.Proofs.View.Highlighting
import StepAndRepeat.Proofs.View.Switching
import StepAndRepeat.Proofs.Job.Listing
