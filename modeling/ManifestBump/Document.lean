/-! Documents: what configuration files say, whatever notation they are written in.

A table keeps its members in order of their keys, so two files that say the same are the same
document, and problems in a table are met in that order. -/
namespace ManifestBump

/-- A value in a document. Numbers are told apart from everything else, but never computed with. -/
inductive Document where
  | null
  | bool (b : Bool)
  | number
  | text (s : String)
  | list (items : List Document)
  | table (members : List (String × Document))

namespace Document

/-- The members of a table with one more, or with another value at a key that is there. -/
def insertMember (key : String) (value : Document) :
    List (String × Document) → List (String × Document)
  | [] => [(key, value)]
  | (k, v) :: rest =>
    if key < k then (key, value) :: (k, v) :: rest
    else if key = k then (k, value) :: rest
    else (k, v) :: insertMember key value rest

/-- The value of a member. -/
def member? (members : List (String × Document)) (key : String) : Option Document :=
  members.lookup key

/-- A table of members in any order; the last of equal keys counts. -/
def tableOf (members : List (String × Document)) : Document :=
  .table (members.foldl (fun acc m => insertMember m.1 m.2 acc) [])

mutual

/-- One document over another: tables are united member by member, and anything else is replaced. -/
def merge : (lower upper : Document) → Document
  | .table lower, .table upper => .table (mergeMembers lower upper)
  | _, upper => upper

/-- The members of one table over those of another. -/
def mergeMembers (lower : List (String × Document)) :
    List (String × Document) → List (String × Document)
  | [] => lower
  | (key, value) :: upper =>
    let merged :=
      match member? lower key with
      | some below => merge below value
      | none => value
    mergeMembers (insertMember key merged lower) upper

end

end Document

end ManifestBump
