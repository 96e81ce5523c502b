/-! Colours and other styles of text in a terminal. -/
namespace ManifestBump.CommandLine.Style

/-- A text between two terminal codes. -/
def wrap (opening closing : String) (text : String) : String :=
  "\x1b[" ++ opening ++ "m" ++ text ++ "\x1b[" ++ closing ++ "m"

/-- In bold letters. -/
def bold : String → String := wrap "1" "0"

/-- In pale letters. -/
def dimmed : String → String := wrap "2" "0"

/-- With a line below. -/
def underline : String → String := wrap "4" "0"

/-- In red. -/
def red : String → String := wrap "31" "39"

/-- In green. -/
def green : String → String := wrap "32" "39"

/-- In yellow. -/
def yellow : String → String := wrap "33" "39"

/-- In cyan. -/
def cyan : String → String := wrap "36" "39"

end ManifestBump.CommandLine.Style
