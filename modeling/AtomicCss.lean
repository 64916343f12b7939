import AtomicCss.Main
import AtomicCss.Input.Load
import AtomicCss.Watch.Scheduler
import AtomicCss.Proofs.Compile.Assembly
import AtomicCss.Proofs.Compile.ClassNames
import AtomicCss.Proofs.Compile.Order
import AtomicCss.Proofs.Compile.ReadBack
import AtomicCss.Proofs.Compile.Rearranged
import AtomicCss.Proofs.Compile.Twins
import AtomicCss.Proofs.Model.Ingestion
import AtomicCss.Proofs.Model.Indexes
import AtomicCss.Proofs.Sheet.Labels
import AtomicCss.Proofs.Sheet.Regeneration
import AtomicCss.Proofs.Sheet.Sharing
import AtomicCss.Proofs.Style.Frame
import AtomicCss.Proofs.Style.Gap
import AtomicCss.Proofs.Style.Lines
import AtomicCss.Proofs.Model.Renumbered
import AtomicCss.Proofs.Sheet.Renumbered
import AtomicCss.Proofs.Compile.ClassMap
import AtomicCss.Proofs.Compile.Names
import AtomicCss.Proofs.Compile.Collisions
import AtomicCss.Proofs.Files.Leads
import AtomicCss.Proofs.Files.Paths
import AtomicCss.Proofs.Files.Effects
import AtomicCss.Proofs.Command.Steps
import AtomicCss.Proofs.Command.Artifacts
import AtomicCss.Proofs.Command.Failure
import AtomicCss.Proofs.Command.Effect
import AtomicCss.Proofs.Compile.Declarations
import AtomicCss.Proofs.Compile.Accessors
import AtomicCss.Proofs.Watch.Builds
import AtomicCss.Proofs.Style.Comments
import AtomicCss.Proofs.Style.Reprint
import AtomicCss.Proofs.Input.Shuffled
import AtomicCss.Proofs.Shorthand.Cascade
import AtomicCss.Proofs.Shorthand.WriteOut
import AtomicCss.Proofs.Shorthand.Shortest
import AtomicCss.Proofs.Shorthand.Frame
import AtomicCss.Proofs.Compile.Conflicts
import AtomicCss.Proofs.Sheet.Blocks
import AtomicCss.Proofs.Selector.Grammar
import AtomicCss.Proofs.Header.Canonical
import AtomicCss.Proofs.Header.AtRules
import AtomicCss.Proofs.Selector.Decoding
import AtomicCss.Proofs.Stylesheet.MediaOrder
import AtomicCss.Proofs.Identifier.Enumeration
import AtomicCss.Proofs.Style.Culprit
import AtomicCss.Proofs.Selector.Entries
import AtomicCss.Proofs.Bytes.Parser
