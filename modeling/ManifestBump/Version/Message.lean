import ManifestBump.Text.Quoted
import ManifestBump.Version.Basic

/-! What is told to users about versions that cannot be read or raised. -/
namespace ManifestBump

/-- The fault in words. -/
def Version.Fault.message : Version.Fault → String
  | .unexpected c part => "unexpected character " ++ Text.quoted c ++ " while parsing " ++ part.text
  | .ended part => "unexpected end of input while parsing " ++ part.text
  | .unexpectedAfter c part => "unexpected character " ++ Text.quoted c ++ " after " ++ part.text
  | .leadingZero part => "invalid leading zero in " ++ part.text
  | .tooLarge part => "value of " ++ part.text ++ " exceeds u64::MAX"
  | .emptySegment part => "empty identifier segment in " ++ part.text

/-- The error in words. -/
def VersionError.message : VersionError → String
  | .invalid text fault => "invalid semver `" ++ text ++ "`: " ++ fault.message
  | .overflow version level =>
    "cannot bump " ++ version.text ++ " by " ++ level.text ++ ": component overflows"

end ManifestBump
