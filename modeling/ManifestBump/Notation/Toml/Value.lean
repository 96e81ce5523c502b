import ManifestBump.Document
import ManifestBump.Notation.Toml.Lexeme

/-! TOML values, and the tables that keys and headers build while a text is read.

A key may be given once, and a table may be opened once. Tables that only lie on the way to
another one are remembered as such, since a header or a dotted key may still open them. -/
namespace ManifestBump.Notation.Toml

/-! ### Tables under construction -/

/-- How a table came to be. -/
inductive Origin where
  /-- By a header of its own, or as the value of a key. -/
  | stated
  /-- On the way of a header to another table. -/
  | passing
  /-- On the way of a dotted key to a value. -/
  | dotted
deriving DecidableEq, Repr

/-- What a key stands for. -/
inductive Node where
  | value (d : Document)
  | table (origin : Origin) (members : List (String × Node))
  /-- A list of tables of which only the last one is open. -/
  | tables (closed : List (List (String × Node))) (last : List (String × Node))

/-- What the keys of a table stand for. -/
abbrev Members := List (String × Node)

namespace Members

/-- With another node at a key. -/
def put (key : String) (node : Node) : Members → Members
  | [] => [(key, node)]
  | (k, old) :: rest => if k = key then (k, node) :: rest else (k, old) :: put key node rest

/-- Some members after the table at the end of `keys`, seen from them, has been changed. A table
that is not there is made as one of origin `fresh`. A dotted key does not enter a table that is
stated elsewhere. -/
def change (fresh : Origin) (edit : Origin → Members → Option Members) :
    (keys : List String) → Origin → Members → Option Members
  | [], origin, members => edit origin members
  | key :: keys, _, members =>
    match members.lookup key with
    | none => (change fresh edit keys fresh []).map fun inner => put key (.table fresh inner) members
    | some (.value _) => none
    | some (.table origin inner) =>
      if fresh = .dotted ∧ origin = .stated then none
      else (change fresh edit keys origin inner).map fun inner =>
        put key (.table origin inner) members
    | some (.tables closed last) =>
      (change fresh edit keys .stated last).map fun last => put key (.tables closed last) members

/-- With a value at a dotted key that has not been given yet. -/
def assign (keys : List String) (value : Document) (origin : Origin) (members : Members) :
    Option Members :=
  match keys.getLast? with
  | none => none
  | some leaf =>
    let way := keys.dropLast
    let put (origin : Origin) (inner : Members) : Option Members :=
      if origin = .dotted ↔ way = [] then none
      else if (inner.lookup leaf).isSome then none
      else some (inner ++ [(leaf, .value value)])
    change .dotted put way origin members

/-- With the table of a header opened. -/
def openTable (header : List String) (members : Members) : Option Members :=
  match header.getLast? with
  | none => none
  | some leaf =>
    let start (_ : Origin) (inner : Members) : Option Members :=
      match inner.lookup leaf with
      | none => some (inner ++ [(leaf, .table .stated [])])
      | some (.table .passing known) => some (put leaf (.table .stated known) inner)
      | some _ => none
    change .passing start header.dropLast .stated members

/-- With one more table in the list of a header. -/
def openElement (header : List String) (members : Members) : Option Members :=
  match header.getLast? with
  | none => none
  | some leaf =>
    let start (_ : Origin) (inner : Members) : Option Members :=
      match inner.lookup leaf with
      | none => some (inner ++ [(leaf, .tables [] [])])
      | some (.tables closed last) => some (put leaf (.tables (closed ++ [last]) []) inner)
      | some _ => none
    change .passing start header.dropLast .stated members

end Members

mutual

/-- The document a node says. -/
def Node.document : Node → Document
  | .value d => d
  | .table _ members => Document.tableOf (membersDocument members)
  | .tables closed last =>
    .list (tablesDocument closed ++ [Document.tableOf (membersDocument last)])

/-- The documents of the members of a table. -/
def membersDocument : List (String × Node) → List (String × Document)
  | [] => []
  | (key, node) :: rest => (key, node.document) :: membersDocument rest

/-- The documents of a list of tables. -/
def tablesDocument : List (List (String × Node)) → List Document
  | [] => []
  | members :: rest => Document.tableOf (membersDocument members) :: tablesDocument rest

end

/-! ### Values -/

/-- A character of a number or a truth value. -/
def isBareChar (c : Char) : Bool := isKeyChar c || c == '+' || c == '.'

/-- A value without quotes or brackets. A date is a table of one text. -/
def bare? : Reader Document := fun text =>
  match moment? text with
  | some rest =>
    let written := text.take (text.length - rest.length)
    some (.table [("date", .text (String.ofList written))], rest)
  | none =>
    let token := text.takeWhile isBareChar
    let rest := text.dropWhile isBareChar
    if token = ['t', 'r', 'u', 'e'] then some (.bool true, rest)
    else if token = ['f', 'a', 'l', 's', 'e'] then some (.bool false, rest)
    else if isInteger token || isFloat token then some (.number, rest)
    else none

/-- The text behind space, comments and line ends, of which at most `bound` are passed. -/
def skipGapWithin : (bound : Nat) → List Char → List Char
  | 0, text => text
  | bound + 1, text =>
    let text := skipComment (skipSpace text)
    match newline? text with
    | some rest => skipGapWithin bound rest
    | none => text

/-- The text behind space, comments and line ends. -/
def skipGap (text : List Char) : List Char := skipGapWithin text.length text

mutual

/-- A value, with `depth` levels left. -/
def valueWithin : (bound depth : Nat) → Reader Document
  | 0, _, _ => none
  | bound + 1, depth, text =>
    match text with
    | '"' :: _ | '\'' :: _ => (string? text).map fun (s, rest) => (.text s, rest)
    | '[' :: rest =>
      match depth with
      | 0 => none
      | depth + 1 => (itemsWithin bound depth rest).map fun (ds, rest) => (.list ds, rest)
    | '\x7b' :: rest =>
      match depth with
      | 0 => none
      | depth + 1 =>
        match skipSpace rest with
        | '\x7d' :: rest => some (.table [], rest)
        | rest =>
          (pairsWithin bound depth [] rest).map fun (members, rest) =>
            (Document.tableOf (membersDocument members), rest)
    | text => bare? text

/-- The items of a list up to its closing bracket; the last one may have a comma behind it. -/
def itemsWithin : (bound depth : Nat) → Reader (List Document)
  | 0, _, _ => none
  | bound + 1, depth, text =>
    match skipGap text with
    | ']' :: rest => some ([], rest)
    | text =>
      match valueWithin bound depth text with
      | none => none
      | some (d, rest) =>
        match skipGap rest with
        | ',' :: rest => (itemsWithin bound depth rest).map fun (ds, rest) => (d :: ds, rest)
        | ']' :: rest => some ([d], rest)
        | _ => none

/-- The members of a table on one line, besides those already read, up to its closing brace. -/
def pairsWithin : (bound depth : Nat) → Members → Reader Members
  | 0, _, _, _ => none
  | bound + 1, depth, members, text =>
    match key? text with
    | some (keys, '=' :: rest) =>
      match valueWithin bound depth (skipSpace rest) with
      | none => none
      | some (d, rest) =>
        match Members.assign keys d .stated members with
        | none => none
        | some members =>
          match skipSpace rest with
          | ',' :: rest => pairsWithin bound depth members rest
          | '\x7d' :: rest => some (members, rest)
          | _ => none
    | _ => none

end

/-- A value. -/
def value? : Reader Document := fun text => valueWithin (2 * text.length + 2) maxDepth text

end ManifestBump.Notation.Toml
