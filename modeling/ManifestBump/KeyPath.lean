/-! Dotted key paths such as `double.nested.token`.

A path names one scalar: the keys of the mappings around it, outermost first, and then its own
key. A dot always separates, so no key contains one. -/
namespace ManifestBump

/-- The keys on the way to a scalar. -/
structure KeyPath where
  parents : List String
  leaf : String
deriving DecidableEq, Repr

namespace KeyPath

/-- Why a text is no path. -/
inductive Fault where
  | empty
  | emptySegment
deriving DecidableEq, Repr

/-- The reason in words. -/
def Fault.message : Fault → String
  | .empty => "key path is empty"
  | .emptySegment => "key path contains an empty segment"

/-- All keys, outermost first. -/
def segments (path : KeyPath) : List String := path.parents ++ [path.leaf]

/-- The path of a list of keys, unless the list is empty. -/
def ofSegments? : List String → Option KeyPath
  | [] => none
  | key :: keys => some ⟨(key :: keys).dropLast, (key :: keys).getLast (by simp)⟩

/-- Reads a dotted path. -/
def parse (text : String) : Except Fault KeyPath :=
  if text.isEmpty then .error .empty
  else
    let keys := text.toList.splitOn '.'
    if keys.any List.isEmpty then .error .emptySegment
    else match ofSegments? (keys.map String.ofList) with
      | some path => .ok path
      | none => .error .empty

/-- The dotted form. -/
def text (path : KeyPath) : String := ".".intercalate path.segments

@[simp] theorem segments_of_ofSegments? {keys : List String} {path : KeyPath}
    (h : ofSegments? keys = some path) : path.segments = keys := by
  cases keys with
  | nil => simp [ofSegments?] at h
  | cons key keys =>
    simp only [ofSegments?, Option.some.injEq] at h
    subst h
    simp [segments, List.dropLast_concat_getLast]

/-- What holds of all keys holds of the last one and of those in front of it. -/
theorem forall_toList {P : List Char → Prop} {path : KeyPath} (h : ∀ key ∈ path.segments, P key.toList) :
    P path.leaf.toList ∧ ∀ name ∈ path.parents.map String.toList, P name := by
  refine ⟨h path.leaf (by simp [segments]), fun name hname => ?_⟩
  obtain ⟨key, hkey, rfl⟩ := List.mem_map.mp hname
  exact h key (by simp [segments, hkey])

end KeyPath

end ManifestBump
