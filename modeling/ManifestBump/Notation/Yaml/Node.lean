import ManifestBump.Notation.Yaml.Scalar

/-! Nodes of YAML: scalars, lists and tables, with tags, anchors and aliases.

A key stands on one line and has a colon behind it. Outside of brackets, a node belongs to the
innermost list or table that its column allows; within brackets columns mean nothing. -/
namespace ManifestBump.Notation.Yaml

/-- A node: a scalar as it is written, or a collection with what it means. -/
inductive Node where
  | scalar (s : Scalar)
  | collection (tag : Option String) (d : Document)

namespace Node

/-- The node that is not there. -/
def absent (tag : Option String) : Node := .scalar ⟨"", true, tag⟩

/-- What a node means. A collection may not have a tag of one's own. -/
def document? : Node → Option Document
  | .scalar s => s.document?
  | .collection none d => some d
  | .collection (some tag) d => if tag.toList.head? = some '!' then none else some d

/-- The text of a node that is a key. -/
def key? : Node → Option String
  | .scalar s => some s.text
  | .collection .. => none

end Node

/-- The nodes that aliases may stand for. -/
abbrev Anchors := List (String × Node)

/-! ### Properties -/

/-- A character of the name of an anchor or of a tag handle. -/
def isNameChar (c : Char) : Bool := c.isAlphanum || c == '_' || c == '-'

/-- The name of an anchor, behind its mark. -/
def anchorName? : Reader String := fun p =>
  let name := p.rest.takeWhile isNameChar
  let behind := p.forward name.length
  let closed := endsWord behind.rest
    || behind.rest.head?.any fun c => ['?', ':', ',', ']', '\x7d', '%', '@', '\x60'].contains c
  if name.isEmpty || !closed then none else some (String.ofList name, behind)

/-- A character of a tag. -/
def isTagChar (c : Char) : Bool :=
  isNameChar c || ";/?:@&=+$.!~*'()%".toList.contains c

/-- The tag behind its mark, if it is well formed. Only the standard handles are known. -/
def tagText? (text : List Char) : Option (String × Nat) :=
  match text with
  | '<' :: rest =>
    let isInner (c : Char) : Bool := isTagChar c || isBracket c && c != '\x7b' && c != '\x7d'
    let inner := rest.takeWhile isInner
    if !inner.isEmpty && (rest.drop inner.length).head? == some '>' then
      some (String.ofList inner, inner.length + 2)
    else none
  | '!' :: rest =>
    let inner := rest.takeWhile isTagChar
    if inner.isEmpty then none
    else some (Scalar.sharedTag ++ String.ofList inner, inner.length + 1)
  | text =>
    let inner := text.takeWhile isTagChar
    if (text.dropWhile isNameChar).head? = some '!' then none
    else some (String.ofList ('!' :: inner), inner.length)

/-- A tag, behind its mark. -/
def tag? (inBrackets : Bool) : Reader String := fun p => do
  let (tag, used) ← tagText? p.rest
  let behind := p.forward used
  if endsWord behind.rest || (inBrackets && behind.rest.head? == some ',') then
    some (tag, behind)
  else none

/-- What stands in front of a node. -/
structure Properties where
  tag : Option String := none
  anchor : Option String := none

/-- Whether nothing stands in front. -/
def Properties.isEmpty (props : Properties) : Bool := props.tag.isNone && props.anchor.isNone

/-- One more property, if one stands here. -/
def property? (inBrackets : Bool) (props : Properties) (p : Place) :
    Option (Option (Properties × Place)) :=
  match p.rest with
  | '&' :: _ =>
    if props.anchor.isSome then some none
    else (anchorName? (p.forward 1)).map fun (name, q) => some ({ props with anchor := some name }, q)
  | '!' :: _ =>
    if props.tag.isSome then some none
    else (tag? inBrackets (p.forward 1)).map fun (tag, q) => some ({ props with tag := some tag }, q)
  | _ => some none

/-- All properties of a node, and the next place behind them. -/
def properties? (inBrackets : Bool) (p : Place) : Option (Properties × Place) := do
  match ← property? inBrackets {} p with
  | none => return ({}, p)
  | some (props, q) =>
    let q := skipGap inBrackets q
    match ← property? inBrackets props q with
    | none => return (props, q)
    | some (props, q) => return (props, skipGap inBrackets q)

/-- The anchors without one that is about to get a new node. -/
def Anchors.forget (anchors : Anchors) (props : Properties) : Anchors :=
  anchors.filter fun a => props.anchor != some a.1

/-- The anchors with a node at the name that stands in front of it. -/
def Anchors.note (anchors : Anchors) (props : Properties) (node : Node) : Anchors :=
  match props.anchor with
  | some name => (name, node) :: anchors.filter (·.1 != name)
  | none => anchors

/-- A reader's result: a node, the anchors known behind it, and the place there. -/
abbrev Found := Option (Node × Anchors × Place)

/-- A scalar with its properties. -/
def noteScalar (anchors : Anchors) (props : Properties) (plain : Bool) (text : List Char)
    (p : Place) : Found :=
  let node := Node.scalar ⟨String.ofList text, plain, props.tag⟩
  some (node, anchors.note props node, p)

/-- A collection with its properties. -/
def noteCollection (anchors : Anchors) (props : Properties) (d : Document) (p : Place) : Found :=
  let node := Node.collection props.tag d
  some (node, anchors.note props node, p)

/-- Behind the colon of a key that began at `start` and ended before `p`. -/
def behindColon? (inBrackets : Bool) (start p : Place) : Option Place :=
  match p.rest with
  | ':' :: rest =>
    if (inBrackets || endsWord rest) && start.line == p.line
        && start.rest.length ≤ p.rest.length + 1024 then
      some (p.forward 1)
    else none
  | _ => none

/-! ### Within brackets -/

mutual

/-- A node within brackets, with `depth` levels left. -/
def flowNode : (bound depth : Nat) → Anchors → Place → Found
  | 0, _, _, _ => none
  | bound + 1, depth, anchors, p =>
    match properties? true p with
    | none => none
    | some (props, q) =>
      if q.atEnd then none
      else
        match q.rest with
        | c :: _ =>
          if !props.isEmpty && (c == ',' || c == ']' || c == '\x7d' || c == ':') then
            noteScalar anchors props true [] q
          else flowContent bound depth (anchors.forget props) props q
        | [] => none

/-- What a node within brackets is besides its properties. Outside of brackets, it begins lists and
tables too. -/
def flowContent : (bound depth : Nat) → Anchors → Properties → Place → Found
  | 0, _, _, _, _ => none
  | bound + 1, depth, anchors, props, p =>
    match p.rest, depth with
    | '*' :: _, _ =>
      if !props.isEmpty then none
      else
        match anchorName? (p.forward 1) with
        | none => none
        | some (name, q) => (anchors.lookup name).map fun node => (node, anchors, q)
    | '[' :: _, depth + 1 =>
      match flowItems bound depth anchors (skipGap true (p.forward 1)) with
      | some (items, known, q) =>
        noteCollection known props (.list items) q
      | none => none
    | '\x7b' :: _, depth + 1 =>
      match flowMembers bound depth anchors (skipGap true (p.forward 1)) with
      | some (members, known, q) =>
        noteCollection known props (Document.tableOf members) q
      | none => none
    | '"' :: _, _ =>
      match quoted? '"' p with
      | some (text, q) => noteScalar anchors props false text q
      | none => none
    | '\'' :: _, _ =>
      match quoted? '\'' p with
      | some (text, q) => noteScalar anchors props false text q
      | none => none
    | rest, _ =>
      if beginsPlain true rest then
        match plain? true 0 p with
        | some (text, q) => noteScalar anchors props true text q
        | none => none
      else none

/-- The items of a list from one on, up to its closing bracket. -/
def flowItems : (bound depth : Nat) → Anchors → Place →
    Option (List Document × Anchors × Place)
  | 0, _, _, _ => none
  | bound + 1, depth, anchors, p =>
    match p.rest with
    | ']' :: _ => some ([], anchors, p.forward 1)
    | _ =>
      match flowItem bound depth anchors p with
      | none => none
      | some (d, anchors, q) =>
        let q := skipGap true q
        match q.rest with
        | ',' :: _ =>
          (flowItems bound depth anchors (skipGap true (q.forward 1))).map
            fun (ds, anchors, q) => (d :: ds, anchors, q)
        | ']' :: _ => some ([d], anchors, q.forward 1)
        | _ => none

/-- One item of a list: a node, or a single member that is a table of its own. -/
def flowItem : (bound depth : Nat) → Anchors → Place → Option (Document × Anchors × Place)
  | 0, _, _, _ => none
  | bound + 1, depth, anchors, p =>
    match p.atWord '?' with
    | true =>
      match depth with
      | 0 => none
      | depth + 1 =>
        (flowExplicit bound depth anchors (skipGap true (p.forward 1))).map
          fun (m, anchors, q) => (.table [m], anchors, q)
    | false =>
      match flowNode bound depth anchors p with
      | none => none
      | some (node, anchors, q) =>
        match behindColon? true p (skipGap true q), depth with
        | none, _ => node.document?.map fun d => (d, anchors, q)
        | some _, 0 => none
        | some q, depth + 1 =>
          match node.key?, flowValue bound depth anchors (skipGap true q) with
          | some key, some (d, anchors, q) => some (.table [(key, d)], anchors, q)
          | _, _ => none

/-- The value behind a colon; it may be left out. -/
def flowValue : (bound depth : Nat) → Anchors → Place → Option (Document × Anchors × Place)
  | 0, _, _, _ => none
  | bound + 1, depth, anchors, p =>
    match p.rest with
    | ',' :: _ | ']' :: _ | '\x7d' :: _ => some (.null, anchors, p)
    | _ =>
      match flowNode bound depth anchors p with
      | some (node, anchors, q) => node.document?.map fun d => (d, anchors, q)
      | none => none

/-- A member whose key has a question mark in front. -/
def flowExplicit : (bound depth : Nat) → Anchors → Place →
    Option ((String × Document) × Anchors × Place)
  | 0, _, _, _ => none
  | bound + 1, depth, anchors, p =>
    let key : Found :=
      match p.rest with
      | ',' :: _ | ']' :: _ | '\x7d' :: _ | ':' :: _ => some (.absent none, anchors, p)
      | _ => flowNode bound depth anchors p
    match key with
    | none => none
    | some (node, anchors, q) =>
      let q := skipGap true q
      match node.key?, q.rest with
      | none, _ => none
      | some key, ':' :: _ =>
        (flowValue bound depth anchors (skipGap true (q.forward 1))).map
          fun (d, anchors, q) => ((key, d), anchors, q)
      | some key, _ => some ((key, .null), anchors, q)

/-- One member of a table. -/
def flowMember : (bound depth : Nat) → Anchors → Place →
    Option ((String × Document) × Anchors × Place)
  | 0, _, _, _ => none
  | bound + 1, depth, anchors, p =>
    if p.atWord '?' then flowExplicit bound depth anchors (skipGap true (p.forward 1))
    else
      match flowNode bound depth anchors p with
      | none => none
      | some (node, anchors, q) =>
        match node.key?, behindColon? true p (skipGap true q) with
        | none, _ => none
        | some key, some q =>
          (flowValue bound depth anchors (skipGap true q)).map
            fun (d, anchors, q) => ((key, d), anchors, q)
        | some key, none => some ((key, .null), anchors, q)

/-- The members of a table from one on, up to its closing brace. -/
def flowMembers : (bound depth : Nat) → Anchors → Place →
    Option (List (String × Document) × Anchors × Place)
  | 0, _, _, _ => none
  | bound + 1, depth, anchors, p =>
    match p.rest with
    | '\x7d' :: _ => some ([], anchors, p.forward 1)
    | _ =>
      match flowMember bound depth anchors p with
      | none => none
      | some (m, anchors, q) =>
        let q := skipGap true q
        match q.rest with
        | ',' :: _ =>
          (flowMembers bound depth anchors (skipGap true (q.forward 1))).map
            fun (ms, anchors, q) => (m :: ms, anchors, q)
        | '\x7d' :: _ => some ([m], anchors, q.forward 1)
        | _ => none

end

/-! ### Outside of brackets -/

/-- A bound for the steps it takes to read what is left of a text. -/
def stepsFor (p : Place) : Nat := 6 * p.rest.length + 12

/-- What a node that is no list or table of lines is besides its properties. -/
def leafContent (depth least : Nat) (anchors : Anchors) (props : Properties) (p : Place) : Found :=
  match p.rest with
  | '|' :: _ =>
    match block? false least p with
    | some (text, q) => noteScalar anchors props false text q
    | none => none
  | '>' :: _ =>
    match block? true least p with
    | some (text, q) => noteScalar anchors props false text q
    | none => none
  | rest =>
    if beginsPlain false rest then
      match plain? false least p with
      | some (text, q) => noteScalar anchors props true text q
      | none => none
    else
      match rest with
      | ',' :: _ => none
      | _ => flowContent (stepsFor p) depth anchors props p

/-- What may lie one column before where a node's content begins: a block scalar, and, if
`dashed`, an entry of a list. -/
def mayLieBefore (dashed : Bool) (p : Place) : Bool :=
  match p.rest with
  | '|' :: _ => true
  | '>' :: _ => true
  | _ => dashed && p.atWord '-'

/-- A key on this line with its colon, and the place behind. -/
def implicitKey? (depth least : Nat) (anchors : Anchors) (p : Place) :
    Option (Node × Anchors × Place) := do
  guard p.fresh
  let (props, q) ← properties? false p
  guard (q.line = p.line)
  let known := anchors.forget props
  let (node, known, q) ←
    if q.atWord ':' && !props.isEmpty then noteScalar known props true [] q
    else leafContent depth least known props q
  let q ← behindColon? false p (skipGap false q)
  return (node, known, q)

mutual

/-- A node whose content lies in column `least` or further, with `depth` levels left. Block scalars
may lie one column before, and entries of a list may if `dashed`. -/
def blockNode : (bound depth least : Nat) → (dashed : Bool) → Anchors → Place → Found
  | 0, _, _, _, _, _ => none
  | bound + 1, depth, least, dashed, anchors, p =>
    match blockCollection bound depth least dashed anchors {} p with
    | some found => found
    | none =>
      match properties? false p with
      | none => none
      | some (props, q) =>
        if props.isEmpty then leafContent depth least anchors props p
        else
          let anchors := anchors.forget props
          match blockCollection bound depth least dashed anchors props q with
          | some found => found
          | none => leafContent depth least anchors props q

/-- A list or table of lines, or nothing at all, if that is what stands here. -/
def blockCollection : (bound depth least : Nat) → (dashed : Bool) → Anchors → Properties →
    Place → Option Found
  | 0, _, _, _, _, _, _ => some none
  | bound + 1, depth, least, dashed, anchors, props, p =>
    if p.atEnd then some (noteScalar anchors props true [] p)
    else if p.column < least && !(p.column + 1 == least && mayLieBefore dashed p) then
      some (noteScalar anchors props true [] p)
    else if p.atWord '-' then
      match p.fresh, depth with
      | true, depth + 1 =>
        some <|
          match blockEntries bound depth p.column (p.column + 1 == least) anchors p with
          | some (items, known, q) => noteCollection known props (.list items) q
          | none => none
      | _, _ => some none
    else if p.atWord '?' || (implicitKey? depth least anchors p).isSome then
      match p.fresh, depth with
      | true, depth + 1 =>
        some <|
          match blockMembers bound depth p.column anchors p with
          | some (members, known, q) => noteCollection known props (Document.tableOf members) q
          | none => none
      | _, _ => some none
    else none

/-- The entries of a list in a column, from one on. If `shared`, the column is that of the table
the list is a value of, and another key of the table may follow. -/
def blockEntries : (bound depth column : Nat) → (shared : Bool) → Anchors → Place →
    Option (List Document × Anchors × Place)
  | 0, _, _, _, _, _ => none
  | bound + 1, depth, column, shared, anchors, p =>
    if p.atEnd || p.column < column then some ([], anchors, p)
    else if p.column = column ∧ p.atWord '-' then
      match blockNode bound depth (column + 1) false anchors
          (skipGap false (p.forward 1).refresh) with
      | none => none
      | some (node, anchors, q) =>
        match node.document?, blockEntries bound depth column shared anchors (skipGap false q) with
        | some d, some (ds, anchors, q) => some (d :: ds, anchors, q)
        | _, _ => none
    else if shared && p.column == column then some ([], anchors, p)
    else none

/-- The members of a table in a column, from one on. -/
def blockMembers : (bound depth column : Nat) → Anchors → Place →
    Option (List (String × Document) × Anchors × Place)
  | 0, _, _, _, _ => none
  | bound + 1, depth, column, anchors, p =>
    if p.atEnd || p.column < column then some ([], anchors, p)
    else if p.column ≠ column then none
    else
      match blockMember bound depth column anchors p with
      | none => none
      | some (m, anchors, q) =>
        (blockMembers bound depth column anchors (skipGap false q)).map
          fun (ms, anchors, q) => (m :: ms, anchors, q)

/-- One member of a table in a column. -/
def blockMember : (bound depth column : Nat) → Anchors → Place →
    Option ((String × Document) × Anchors × Place)
  | 0, _, _, _, _ => none
  | bound + 1, depth, column, anchors, p =>
    let value (key : String) (anchors : Anchors) (q : Place) :
        Option ((String × Document) × Anchors × Place) :=
      match blockNode bound depth (column + 1) true anchors (skipGap false q) with
      | none => none
      | some (node, anchors, q) => node.document?.map fun d => ((key, d), anchors, q)
    if p.fresh && p.atWord '?' then
      match blockNode bound depth (column + 1) true anchors
          (skipGap false (p.forward 1).refresh) with
      | none => none
      | some (node, anchors, q) =>
        let q := skipGap false q
        match node.key? with
        | none => none
        | some key =>
          if q.column = column ∧ q.fresh ∧ q.atWord ':' ∧ !q.atEnd then
            value key anchors (q.forward 1).refresh
          else some ((key, .null), anchors, q)
    else
      match implicitKey? depth (column + 1) anchors p with
      | none => none
      | some (node, anchors, q) =>
        match node.key? with
        | none => none
        | some key => value key anchors q

end

end ManifestBump.Notation.Yaml
