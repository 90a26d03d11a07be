import Microcode.Artifact
import Microcode.Digest.Blake3
import Microcode.Machine.View
import Microcode.Proofs.Overflow
import Microcode.Proofs.Acceptance
import Microcode.Proofs.GlslInitializers
import Microcode.Proofs.SpirvModules
import Microcode.Proofs.Isolation
import Microcode.Proofs.PackedSources
import Microcode.Proofs.LiteralFolding
import Microcode.Proofs.RegisterNames
import Microcode.Proofs.Padding
import Microcode.Proofs.RawHalves
import Microcode.Proofs.Fractions
