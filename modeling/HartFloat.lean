import HartFloat.Backend.Recorded
import HartFloat.Environment
import HartFloat.Format.Describe
import HartFloat.Main
import HartFloat.Proofs.Arithmetic.Coinciding
import HartFloat.Proofs.Arithmetic.Integral
import HartFloat.Proofs.Arithmetic.Remainder
import HartFloat.Proofs.Arithmetic.Roots
import HartFloat.Proofs.Arithmetic.Unsigned
import HartFloat.Proofs.Backend.Agreement
import HartFloat.Proofs.CommandLine.Operand
import HartFloat.Proofs.Core.Envelope
import HartFloat.Proofs.Core.Fused
import HartFloat.Proofs.Core.Operands
import HartFloat.Proofs.Core.Ordering
import HartFloat.Proofs.Core.RoundTrip
import HartFloat.Proofs.Core.Signs
import HartFloat.Proofs.Elf.Executable
import HartFloat.Proofs.Elf.Inspection
import HartFloat.Proofs.Elf.Scanning
import HartFloat.Proofs.Emulator.Accounting
import HartFloat.Proofs.Emulator.CollectedFlags
import HartFloat.Proofs.Emulator.LayoutIndependence
import HartFloat.Proofs.Environment.Merging
import HartFloat.Proofs.Environment.Stickiness
import HartFloat.Proofs.Instruction.CommonMatches
import HartFloat.Proofs.NaN.Canonical
import HartFloat.Proofs.NaN.ClearTopBit
import HartFloat.Proofs.NaN.InvalidProduct
import HartFloat.Proofs.Neighbour.Bracketing
import HartFloat.Proofs.Neighbour.Normalization
import HartFloat.Proofs.Pattern.BinaryExponent
import HartFloat.Proofs.Pattern.FixedPoints
import HartFloat.Proofs.Pattern.Range
import HartFloat.Proofs.Pattern.Scaling
import HartFloat.Proofs.Pattern.Unnormalized
import HartFloat.Proofs.Pattern.Widening
import HartFloat.Proofs.Registers.History
import HartFloat.Proofs.Registers.Ranges
import HartFloat.Proofs.Registers.Windows
import HartFloat.Proofs.Roots.Convergence
import HartFloat.Proofs.Word.Classes
