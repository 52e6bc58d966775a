import HartFloat.Pattern
import HartFloat.Text.Hex

/-!
# Descriptions of formats and patterns

The texts that name a platform, a format and a pattern. Named platforms and interchange formats
are written by name, all others by their fields. A descriptor tells the formats of a fixed storage
width from those that are put together freely.
-/
namespace HartFloat

open Text

namespace Platform

def describe (p : Platform) : String :=
  match named.find? (fun n => decide (n.2 = p)) with
  | some (name, _) => "PlatformProperties::" ++ name
  | none =>
    record "PlatformProperties"
      [("canonical_nan_sign", p.canonicalSign.name),
       ("canonical_nan_mantissa_msb", truth p.canonicalMsb),
       ("canonical_nan_mantissa_second_to_msb", truth p.canonicalSecondMsb),
       ("canonical_nan_mantissa_rest", truth p.canonicalRest),
       ("std_bin_ops_nan_propagation_mode", p.binaryOperations.name),
       ("fma_nan_propagation_mode", p.fusedMultiplyAdd.name),
       ("fma_inf_zero_qnan_result", p.infinityTimesZeroPlusNaN.name),
       ("round_to_integral_nan_propagation_mode", p.roundToIntegral.name),
       ("next_up_or_down_nan_propagation_mode", p.neighbour.name),
       ("scale_b_nan_propagation_mode", p.scaling.name),
       ("sqrt_nan_propagation_mode", p.squareRoot.name),
       ("float_to_float_conversion_nan_propagation_mode", p.conversion.name),
       ("rsqrt_nan_propagation_mode", p.reciprocalSquareRoot.name),
       ("quiet_nan_format", p.quietNaNFormat.name)]

end Platform

namespace Format

def namedWidths : List Nat := [16, 32, 64, 128]

def describe (F : Format) : String :=
  if F.isInterchange then
    let width := toString F.width
    if F.platform = Platform.riscV then
      if F.width ∈ namedWidths then "FloatProperties::STANDARD_" ++ width
      else "FloatProperties::standard(" ++ width ++ ")"
    else if F.width ∈ namedWidths then
      "FloatProperties::standard_" ++ width ++ "_with_platform_properties("
        ++ F.platform.describe ++ ")"
    else
      "FloatProperties::standard_with_platform_properties(" ++ width ++ ", "
        ++ F.platform.describe ++ ")"
  else
    record "FloatProperties"
      [("exponent_width", toString F.exponentWidth),
       ("mantissa_width", toString F.mantissaWidth),
       ("has_implicit_leading_bit", truth F.implicitLeadingBit),
       ("has_sign_bit", truth F.signBit),
       ("platform_properties", F.platform.describe),
       ("quiet_nan_format", F.quietNaNFormat.name),
       ("width", toString F.width),
       ("fraction_width", toString F.fractionWidth),
       ("is_standard", truth F.isInterchange)]

end Format

/-- How a format is stored: a named format of a fixed storage width, such a format with the
conventions of a given platform, or any format in storage that is as wide as needed. -/
inductive Descriptor
  | fixed (width : Nat)
  | fixedFor (width : Nat) (platform : Platform)
  | free (format : Format)

namespace Descriptor

def format? : Descriptor → Option Format
  | fixed w => Format.interchange? w
  | fixedFor w p => Format.interchange? w p
  | free F => some F

def storage : Descriptor → Option Nat
  | fixed w | fixedFor w _ => some w
  | free _ => none

def describe : Descriptor → String
  | fixed w => "F" ++ toString w ++ "Traits"
  | fixedFor w p => "F" ++ toString w ++ "WithPlatformPropertiesTraits(" ++ p.describe ++ ")"
  | free F => F.describe

end Descriptor

namespace Pattern

/-- A pattern written out by its fields and class. -/
def describe {F : Format} (d : Descriptor) (x : Pattern F) : String :=
  let field (n width : Nat) := "0x" ++ hexUpper n ((width + 3) / 4)
  let signField := if F.signBit then [("sign", x.sign.name)] else []
  record "Float" <|
    [("traits", d.describe), ("bits", field x.bits F.width)] ++ signField ++
    [("exponent_field", field x.exponent F.exponentWidth),
     ("mantissa_field", field x.mantissa F.mantissaWidth),
     ("class", x.classify.name)]

end Pattern
end HartFloat
