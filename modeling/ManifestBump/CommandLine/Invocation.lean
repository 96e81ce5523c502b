import ManifestBump.CommandLine.Switch

/-! What a command line asks for.

Switches known everywhere may stand before the command and behind it; what stands behind counts
more. A command line is read from the left, so what is wrong first decides, unless something
before it asks for the version or for help. -/
namespace ManifestBump.CommandLine

/-! ### Commands -/

/-- What a bump is told besides its configuration. -/
structure BumpArguments where
  labels : List String := []
  event : Option String := none
  file : Option String := none
  key : Option String := none
  referenceBranch : Option String := none
  useTag : Bool := false
  head : Option String := none
  commit : Bool := false
  comment : Bool := false
  dryRun : Bool := false
deriving DecidableEq, Repr

/-- What is to be done. -/
inductive Command where
  | get (file key : String)
  | set (file key value : String) (dryRun : Bool)
  | bump (arguments : BumpArguments)
  | info
deriving DecidableEq, Repr

/-- A command with the switches that every command knows. -/
structure Invocation where
  command : Command
  config : Option String := none
  chdir : Option String := none
  json : Bool := false
deriving DecidableEq, Repr

/-- What a command line comes to. -/
inductive Request where
  | invoke (invocation : Invocation)
  | version
  | help
  /-- It makes no sense. -/
  | misuse
deriving DecidableEq, Repr

/-- The names of the commands. -/
inductive Verb where
  | get
  | set
  | bump
  | info
deriving DecidableEq, Repr

namespace Verb

/-- The command of a name. -/
def ofText? : String → Option Verb
  | "get" => some .get
  | "set" => some .set
  | "bump" => some .bump
  | "info" => some .info
  | _ => none

/-- How many words belong to it. -/
def arity : Verb → Nat
  | .get => 2
  | .set => 3
  | .bump | .info => 0

/-- The switches it knows. -/
def switches : Verb → List Switch
  | .get | .info => Switch.everywhere
  | .set => Switch.everywhere ++ [.dryRun]
  | .bump =>
    Switch.everywhere ++ [.label, .event, .file, .key, .referenceBranch, .useTag, .head, .commit,
      .comment, .dryRun]

end Verb

/-! ### Reading words -/

/-- Switches with their values, as they are given. -/
abbrev Given := List (Switch × String)

/-- What is read so far: switches before the command, the command, and switches and words behind
it. -/
structure Draft where
  before : Given := []
  verb : Option Verb := none
  behind : Given := []
  words : List String := []

namespace Draft

/-- The switches known at this point. -/
def known (d : Draft) : List Switch :=
  match d.verb with
  | none => Switch.everywhere ++ [.version]
  | some verb => verb.switches

/-- The switches given at this point. -/
def given (d : Draft) : Given := if d.verb.isSome then d.behind else d.before

/-- With one more switch, if it may be given. -/
def give (d : Draft) (switch : Switch) (value : String) : Except Request Draft :=
  if switch = .help then .error .help
  else if switch = .version then .error .version
  else if !switch.repeats && d.given.any (·.1 == switch) then .error .misuse
  else if !switch.accepts value then .error .misuse
  else if d.verb.isSome then .ok { d with behind := d.behind ++ [(switch, value)] }
  else .ok { d with before := d.before ++ [(switch, value)] }

/-- With one more word, which is the command or belongs to it. -/
def word (d : Draft) (text : String) : Except Request Draft :=
  match d.verb with
  | none =>
    match Verb.ofText? text with
    | some verb => .ok { d with verb := some verb }
    | none => .error (if text = "help" then .help else .misuse)
  | some verb =>
    if d.words.length < verb.arity then .ok { d with words := d.words ++ [text] }
    else .error .misuse

/-- With a word that is no switch whatever it looks like. -/
def plainWord (d : Draft) (text : String) : Except Request Draft :=
  if d.verb.isSome then d.word text else .error .misuse

/-- Whether a word asks for a switch. -/
def isDashed (text : String) : Bool :=
  match text.toList with
  | '-' :: _ :: _ => true
  | _ => false

/-- With a switch whose value, if it takes one, is the next word. What is left is returned. -/
def giveNext (d : Draft) (switch : Switch) (rest : List String) :
    Except Request (Draft × List String) :=
  if switch.takesValue then
    match rest with
    | value :: rest =>
      if isDashed value then .error .misuse else (d.give switch value).map (·, rest)
    | [] => .error .misuse
  else (d.give switch "").map (·, rest)

/-- With a switch by its long name, behind the dashes. -/
def long (d : Draft) (text : List Char) (rest : List String) :
    Except Request (Draft × List String) :=
  let name := String.ofList (text.takeWhile (· != '='))
  match d.known.find? (·.long == name) with
  | none => .error .misuse
  | some switch =>
    match text.dropWhile (· != '=') with
    | [] => d.giveNext switch rest
    | _ :: value =>
      if switch.takesValue then (d.give switch (String.ofList value)).map (·, rest)
      else .error .misuse

/-- With switches by their letters, behind the dash; the last one may have its value behind it. -/
def letters (d : Draft) : List Char → (rest : List String) → Except Request (Draft × List String)
  | [], rest => .ok (d, rest)
  | letter :: text, rest =>
    match d.known.find? (·.letter? == some letter) with
    | none => .error .misuse
    | some switch =>
      if switch.takesValue then
        match text with
        | [] => d.giveNext switch rest
        | '=' :: value => (d.give switch (String.ofList value)).map (·, rest)
        | value => (d.give switch (String.ofList value)).map (·, rest)
      else
        match d.give switch "" with
        | .ok d => d.letters text rest
        | .error e => .error e

/-- With all words of a command line, of which there are at most `bound`. -/
def readWithin : (bound : Nat) → Draft → List String → Except Request Draft
  | 0, d, words => if words.isEmpty then .ok d else .error .misuse
  | _ + 1, d, [] => .ok d
  | bound + 1, d, text :: rest => do
    match text.toList with
    | ['-', '-'] => rest.foldlM plainWord d
    | '-' :: '-' :: name =>
      let (d, rest) ← d.long name rest
      readWithin bound d rest
    | '-' :: c :: more =>
      let (d, rest) ← d.letters (c :: more) rest
      readWithin bound d rest
    | _ => readWithin bound (← d.word text) rest

/-! ### From words to a command -/

/-- The value of a switch; behind the command it counts more. -/
def value? (d : Draft) (switch : Switch) : Option String :=
  d.behind.lookup switch <|> d.before.lookup switch

/-- Whether a switch is given. -/
def has (d : Draft) (switch : Switch) : Bool := (d.value? switch).isSome

/-- What a bump is told. -/
def bumpArguments (d : Draft) : BumpArguments where
  labels := (d.behind.filter (·.1 == .label)).map Prod.snd
  event := d.value? .event
  file := d.value? .file
  key := d.value? .key
  referenceBranch := d.value? .referenceBranch
  useTag := d.has .useTag
  head := d.value? .head
  commit := d.has .commit
  comment := d.has .comment
  dryRun := d.has .dryRun

/-- The command, if all that belongs to it is there. -/
def command? (d : Draft) : Option Command :=
  match d.verb, d.words with
  | some .get, [file, key] => some (.get file key)
  | some .set, [file, key, value] => some (.set file key value (d.has .dryRun))
  | some .bump, [] => some (.bump d.bumpArguments)
  | some .info, [] => some .info
  | _, _ => none

end Draft

/-- What a command line asks for. -/
def Request.ofWords (words : List String) : Request :=
  match Draft.readWithin (words.length + 1) {} words with
  | .error request => request
  | .ok d =>
    match d.command? with
    | some command =>
      .invoke ⟨command, d.value? .config, d.value? .chdir, d.has .json⟩
    | none => .misuse

end ManifestBump.CommandLine
