import ShaderIR.Program.Basic
import ShaderIR.Program.Typing
import ShaderIR.Program.Builder
import ShaderIR.Program.Printer
import ShaderIR.IdAllocator
import ShaderIR.Program.WellFormed
import ShaderIR.Interp.Run
import ShaderIR.Graph.Build
import ShaderIR.Graph.Printer
import ShaderIR.Numbering.Block
import ShaderIR.Pass.Sharing
import ShaderIR.Pass.Pipeline
import ShaderIR.Proofs.Pass.HoistingRuns
import ShaderIR.Proofs.Graph.Control
import ShaderIR.Proofs.Graph.Blocks
import ShaderIR.Proofs.Graph.Chains
import ShaderIR.Proofs.Graph.Paths
import ShaderIR.Proofs.Numbering.Depth
import ShaderIR.Proofs.Pass.ShallowEdits
import ShaderIR.Proofs.Pass.ShallowSharing
import ShaderIR.Proofs.Graph.Rebuilding
import ShaderIR.Proofs.Pass.Atomicity
import ShaderIR.Proofs.Pass.Independence
import ShaderIR.Proofs.Numbering.Types
import ShaderIR.Proofs.Pass.WellFormed
import ShaderIR.Proofs.Numbering.Keys
import ShaderIR.Proofs.Numbering.Labels
import ShaderIR.Proofs.Numbering.Noted
import ShaderIR.Proofs.Pass.Scoping
import ShaderIR.Proofs.Pass.SharedBlocks
import ShaderIR.Proofs.Pass.SharedOnce
import ShaderIR.Proofs.Numbering.Safety
import ShaderIR.Proofs.Pass.Definitions
import ShaderIR.Proofs.Pass.SafeEdits
import ShaderIR.Proofs.Pass.SafeHoisting
import ShaderIR.Proofs.Pass.SafeSharing
import ShaderIR.Proofs.Numbering.Congruence
import ShaderIR.Proofs.Numbering.Eligibility
import ShaderIR.Proofs.Outline.Endings
import ShaderIR.Proofs.Numbering.Layers
import ShaderIR.Proofs.Pass.ThreeAddressForm
import ShaderIR.Proofs.Pass.PipelineFlags
import ShaderIR.Proofs.Graph.Partition
import ShaderIR.Proofs.Graph.Condensing
import ShaderIR.Proofs.Pass.LargerLimits
import ShaderIR.Proofs.Pass.DepthCheck
import ShaderIR.Proofs.Interp.Sizes
import ShaderIR.Proofs.Numbering.Meanings
import ShaderIR.Proofs.Numbering.Models
import ShaderIR.Proofs.Numbering.Soundness
import ShaderIR.Proofs.Pass.SharedRuns
import ShaderIR.Proofs.Interp.Reached
import ShaderIR.Proofs.Numbering.Records
import ShaderIR.Proofs.Pass.MirroredLedgers
import ShaderIR.Proofs.Pass.SharedLedgers
import ShaderIR.Proofs.Interp.MaskedWrites
import ShaderIR.Proofs.Text.Brackets
import ShaderIR.Proofs.Text.Expressions
import ShaderIR.Proofs.Pass.SharedDepth
import ShaderIR.Proofs.Pass.SpelledBlocks
import ShaderIR.Proofs.Pass.IndexFreedom
import ShaderIR.Proofs.Pass.Normalization
