/-! Release versions: three numbers, with optional pre-release and build identifiers.

A bump raises one of the numbers, resets those below it and drops all identifiers. Numbers are
64-bit words, so a bump can fail, and it fails only there. -/
namespace ManifestBump

/-- Which number a bump raises. -/
inductive Level where
  | patch
  | minor
  | major
deriving DecidableEq, Repr

/-- The level's name. -/
def Level.text : Level → String
  | .patch => "patch"
  | .minor => "minor"
  | .major => "major"

/-- A version; an empty list stands for no pre-release or no build metadata. -/
structure Version where
  major : UInt64
  minor : UInt64
  patch : UInt64
  pre : List String
  build : List String
deriving DecidableEq, Repr

namespace Version

/-- A version without identifiers. -/
def plain (major minor patch : UInt64) : Version := ⟨major, minor, patch, [], []⟩

/-- Identifiers in their written form. -/
def identifiersText (identifiers : List String) : String := ".".intercalate identifiers

/-- The written form. -/
def text (v : Version) : String :=
  v.major.toNat.repr ++ "." ++ v.minor.toNat.repr ++ "." ++ v.patch.toNat.repr
    ++ (if v.pre.isEmpty then "" else "-" ++ identifiersText v.pre)
    ++ (if v.build.isEmpty then "" else "+" ++ identifiersText v.build)

/-- One more, unless the word is full. -/
def increment? (n : UInt64) : Option UInt64 :=
  if h : n.toNat + 1 < UInt64.size then some (UInt64.ofNatLT (n.toNat + 1) h) else none

/-- The next version at a level, unless its number is the largest there is. -/
def bump? (v : Version) : Level → Option Version
  | .patch => (increment? v.patch).map (plain v.major v.minor ·)
  | .minor => (increment? v.minor).map (plain v.major · 0)
  | .major => (increment? v.major).map (plain · 0 0)

end Version

/-- A version as manifests and tags write it, where a leading `v` is common. -/
structure Release where
  version : Version
  /-- Whether a `v` leads. -/
  marked : Bool
deriving DecidableEq, Repr

/-- The written form. -/
def Release.text (r : Release) : String := (if r.marked then "v" else "") ++ r.version.text

/-! ### Why there is no version -/

/-- The parts of a version text, from left to right. -/
inductive Version.Part where
  | major
  | minor
  | patch
  | pre
  | build
deriving DecidableEq, Repr

/-- The part in words. -/
def Version.Part.text : Version.Part → String
  | .major => "major version number"
  | .minor => "minor version number"
  | .patch => "patch version number"
  | .pre => "pre-release identifier"
  | .build => "build metadata"

/-- What is wrong with a version text, at the first place that is wrong. -/
inductive Version.Fault where
  /-- No digit where a number begins. -/
  | unexpected (c : Char) (part : Version.Part)
  /-- Nothing where a number or a dot belongs. -/
  | ended (part : Version.Part)
  /-- Something else where a part is over. -/
  | unexpectedAfter (c : Char) (part : Version.Part)
  | leadingZero (part : Version.Part)
  | tooLarge (part : Version.Part)
  | emptySegment (part : Version.Part)
deriving DecidableEq, Repr

/-- A version that cannot be read, or cannot be raised. -/
inductive VersionError where
  | invalid (text : String) (fault : Version.Fault)
  | overflow (version : Version) (level : Level)
deriving DecidableEq, Repr

/-- The next release at a level, written in the same style. -/
def Release.bump (r : Release) (level : Level) : Except VersionError Release :=
  match r.version.bump? level with
  | some next => .ok { r with version := next }
  | none => .error (.overflow r.version level)

end ManifestBump
