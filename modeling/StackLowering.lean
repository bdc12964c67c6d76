import StackLowering.Options.Reader
import StackLowering.Output.Writer
import StackLowering.Proofs.Emission
import StackLowering.Tree.Sketch
import StackLowering.Proofs.Steps
import StackLowering.Proofs.Code
import StackLowering.Proofs.ClassLayout
import StackLowering.Proofs.Alignment
import StackLowering.Proofs.StackSafety
import StackLowering.Proofs.CleanTree
import StackLowering.Proofs.Kinds
import StackLowering.Proofs.Labels
import StackLowering.Proofs.LabelCheck
import StackLowering.Proofs.LabelDiscipline
import StackLowering.Proofs.Machine
import StackLowering.Proofs.Evaluation
import StackLowering.Proofs.Simulation
import StackLowering.Proofs.SemanticPreservation
import StackLowering.Proofs.Failure
import StackLowering.Proofs.WellTagged
import StackLowering.Proofs.Placeholders
import StackLowering.Proofs.FieldAccess
import StackLowering.Proofs.Methods
import StackLowering.Proofs.StackNeed
import StackLowering.Proofs.FaultFree
import StackLowering.Proofs.Positions
import StackLowering.Proofs.Independence
import StackLowering.Proofs.Rendering
import StackLowering.Proofs.Legibility
import StackLowering.Proofs.Bookkeeping
import StackLowering.Proofs.MethodTypes
import StackLowering.Proofs.Counters
import StackLowering.Proofs.Relocation
import StackLowering.Proofs.SourceEchoes
import StackLowering.Proofs.Placement
import StackLowering.Proofs.NodeCounts
import StackLowering.Proofs.TomlGrammar
import StackLowering.Proofs.FlatReader
import StackLowering.Proofs.WrittenOptions
import StackLowering.Proofs.Hulls
import StackLowering.Proofs.LineLookup
