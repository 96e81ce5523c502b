import ManifestBump.Proofs.Manifest.Edit
import ManifestBump.Proofs.Manifest.Rounds

/-! Calls on a manifest, one after the other, done in place and in bytes.

The text is one buffer that every call reads and some write, and every cut of it is checked: a cut behind the end or
inside of a character ends everything (`InPlace`). No cut fails, whatever calls come one after the other, and each of
them does what `Call.Does` allows: a set exchanges what a get reads just before, and any other call leaves the buffer
alone (`Call.performAll_does`). -/
namespace ManifestBump
open Text

namespace Locator

/-- Where the value of a path is, in bytes: what the lookup comes to, without its notes. -/
def findBytes? (locator : Locator) (text : List Char) (path : KeyPath) : Option (Option Span) :=
  ((locator.noted text path).run' []).map fun found => found.map (·.value)

/-- **A lookup in bytes finds the value of a path**, in every format and for every text. -/
theorem findBytes?_eq (locator : Locator) (text : List Char) (path : KeyPath) :
    locator.findBytes? text path = some ((locator.find? text path).map fun found => found.value.inBytes text) := by
  obtain ⟨notes, hrun, -⟩ := (locator.answers_noted text path).ends []
  rw [findBytes?, StateT.run'_eq, hrun]
  simp only [Option.map_eq_map, Option.map_some, Option.map_map]
  rfl

end Locator

/-! ### Done in place -/

/-- What is done on a manifest in place. A fault leaves what has been done before it; a cut that fails leaves
nothing. -/
abbrev InPlace (α : Type) : Type := ExceptT ManifestError (StateT Manifest Option) α

namespace InPlace

/-- Looks for the value of a path in the buffer. -/
def locate (path : KeyPath) : InPlace Span := do
  let m ← getThe Manifest
  match ← m.locator.findBytes? m.content.toList path with
  | some span => return span
  | none => throw (.notFound (.key (m.locator.keyText path)))

/-- What stands in a span of the buffer. -/
def read (span : Span) : InPlace String := do
  let m ← getThe Manifest
  let value ← span.read? m.content.toList
  return String.ofList value

/-- Writes another value into a span of the buffer. -/
def write (span : Span) (value : String) : InPlace Unit := do
  let m ← getThe Manifest
  let edited ← span.exchange? m.content.toList value.toList
  set { m with content := String.ofList edited }

variable {α β : Type} {x : InPlace α} {m m' : Manifest}

theorem run_bind_of_ok {a : α} (h : x.run.run m = some (.ok a, m')) (f : α → InPlace β) :
    (x >>= f).run.run m = (f a).run.run m' := by
  rw [ExceptT.run_bind, StateT.run_bind, h]
  rfl

theorem run_bind_of_error {fault : ManifestError} (h : x.run.run m = some (.error fault, m')) (f : α → InPlace β) :
    (x >>= f).run.run m = some (.error fault, m') := by
  rw [ExceptT.run_bind, StateT.run_bind, h]
  rfl

theorem run_get : (getThe Manifest : InPlace Manifest).run.run m = some (.ok m, m) := rfl

theorem run_of_some {o : Option α} {a : α} (h : o = some a) : (liftM o : InPlace α).run.run m = some (.ok a, m) := by
  rw [h]
  rfl

theorem run_of_except (x : Except ManifestError α) : (liftM x : InPlace α).run.run m = some (x, m) := rfl

theorem run_locate_ok {path : KeyPath} {found : Occurrence} (h : m.locator.resolve m.content path = .ok found) :
    (locate path).run.run m = some (.ok (found.value.inBytes m.content.toList), m) := by
  rw [locate, run_bind_of_ok run_get, run_bind_of_ok (run_of_some (m.locator.findBytes?_eq _ _)),
    Manifest.resolve_eq_ok_iff.mp h]
  rfl

theorem run_locate_error {path : KeyPath} {fault : ManifestError}
    (h : m.locator.resolve m.content path = .error fault) : (locate path).run.run m = some (.error fault, m) := by
  rw [Locator.resolve] at h
  cases hfind : m.locator.find? m.content.toList path with
  | none =>
    obtain rfl : ManifestError.notFound (.key (m.locator.keyText path)) = fault := by simpa [hfind] using h
    rw [locate, run_bind_of_ok run_get, run_bind_of_ok (run_of_some (m.locator.findBytes?_eq _ _)), hfind]
    rfl
  | some found => simp [hfind] at h

end InPlace

namespace Manifest.Stands
variable {m : Manifest} {key front old back : String}

/-- A value that stands between two texts begins and ends where they do, in bytes. -/
theorem inBytes (h : m.Stands key front old back) {found : Occurrence} (hfound : m.locate key = .ok found) :
    found.value.inBytes m.content.toList = ⟨front.utf8ByteSize, (front ++ old).utf8ByteSize⟩ := by
  obtain ⟨found', hfound', hspan⟩ := h.located
  obtain rfl : found = found' := by simpa [hfound] using hfound'
  rw [hspan, h.content_toList, Span.inBytes_behind, ← String.toList_append, byteSize_toList, byteSize_toList]

/-- It is read there. -/
theorem run_read (h : m.Stands key front old back) :
    (InPlace.read ⟨front.utf8ByteSize, (front ++ old).utf8ByteSize⟩).run.run m = some (.ok old, m) := by
  have hread : Span.read? ⟨front.utf8ByteSize, (front ++ old).utf8ByteSize⟩ m.content.toList = some old.toList := by
    refine Span.read?_eq_some_iff.mpr ⟨front.toList, back.toList, h.content_toList, ?_⟩
    rw [← String.toList_append, byteSize_toList, byteSize_toList]
  rw [InPlace.read, InPlace.run_bind_of_ok InPlace.run_get, InPlace.run_bind_of_ok (InPlace.run_of_some hread),
    String.ofList_toList]
  rfl

/-- Another one is written there. -/
theorem run_write (h : m.Stands key front old back) (value : String) :
    (InPlace.write ⟨front.utf8ByteSize, (front ++ old).utf8ByteSize⟩ value).run.run m =
      some (.ok (), { m with content := front ++ value ++ back }) := by
  have hwrite : Span.exchange? ⟨front.utf8ByteSize, (front ++ old).utf8ByteSize⟩ m.content.toList value.toList =
      some (front ++ value ++ back).toList := by
    rw [h.content_toList, ← byteSize_toList, ← byteSize_toList, String.toList_append, Span.exchange?_append,
      String.toList_append, String.toList_append]
  rw [InPlace.write, InPlace.run_bind_of_ok InPlace.run_get, InPlace.run_bind_of_ok (InPlace.run_of_some hwrite),
    String.ofList_toList]
  rfl

end Manifest.Stands

/-- A call on a manifest. -/
inductive Call where
  | get (key : String)
  | set (key value : String)
deriving DecidableEq, Repr

namespace Call

/-- Does a call. The old value is also read when another one is set. -/
def perform : Call → InPlace (Option String)
  | .get key => do
    let path ← Manifest.parsePath key
    let span ← InPlace.locate path
    let value ← InPlace.read span
    return some value
  | .set key value => do
    let path ← Manifest.parsePath key
    Manifest.checkValue value
    let span ← InPlace.locate path
    let _ ← InPlace.read span
    InPlace.write span value
    return none

/-- Does some calls and gives their answers and the manifest behind them. -/
def performAll : List Call → Manifest → Option (List (Except ManifestError (Option String)) × Manifest)
  | [], m => some ([], m)
  | call :: rest, m => do
    let (answer, after) ← call.perform.run.run m
    let (answers, last) ← performAll rest after
    return (answer :: answers, last)

/-! ### What calls do -/

/-- The value of a key lies between two offsets in bytes, and the text can be cut at both. -/
structure Lies (m : Manifest) (key : String) (front old back : String) : Prop where
  read : m.get key = .ok old
  content : m.content = front ++ old ++ back
  found : ∃ path, Manifest.parsePath key = .ok path ∧ m.locator.findBytes? m.content.toList path =
    some (some ⟨front.utf8ByteSize, (front ++ old).utf8ByteSize⟩)
  start : String.Pos.Raw.IsValid m.content ⟨front.utf8ByteSize⟩
  stop : String.Pos.Raw.IsValid m.content ⟨(front ++ old).utf8ByteSize⟩

/-- What a call answers and leaves behind. -/
inductive Does (m : Manifest) : Call → Except ManifestError (Option String) → Manifest → Prop where
  /-- A get leaves the text alone. -/
  | got (key : String) : Does m (.get key) ((m.get key).map some) m
  /-- So does a set that fails, for whatever reason. -/
  | refused {key value : String} {fault : ManifestError} (h : m.set key value = .error fault) :
    Does m (.set key value) (.error fault) m
  /-- A set exchanges what a get reads just before. -/
  | exchanged {key value front old back : String} (h : Lies m key front old back)
    (hset : m.set key value = .ok { m with content := front ++ value ++ back }) :
    Does m (.set key value) (.ok none) { m with content := front ++ value ++ back }

/-- A sequence of calls in which each does what it may do. -/
inductive DoAll : Manifest → List Call → List (Except ManifestError (Option String)) → Manifest → Prop where
  | nil (m : Manifest) : DoAll m [] [] m
  | cons {m after last : Manifest} {call : Call} {calls : List Call} {answer : Except ManifestError (Option String)}
    {answers : List (Except ManifestError (Option String))} (h : Does m call answer after)
    (hrest : DoAll after calls answers last) : DoAll m (call :: calls) (answer :: answers) last

variable {m : Manifest} {key value : String}

theorem lies_of_stands {front old back : String} (h : m.Stands key front old back) : Lies m key front old back := by
  obtain ⟨found, hfound, -⟩ := h.located
  obtain ⟨path, hpath, hfind⟩ := Manifest.locate_eq_ok_iff.mp hfound
  have hcut : ∀ {front back : String}, m.content = front ++ back →
      String.Pos.Raw.IsValid m.content ⟨front.utf8ByteSize⟩ := by
    intro front back hcontent
    rw [← m.content.ofList_toList, ← isSome_cut?_iff, hcontent, String.toList_append,
      ← byteSize_toList, cut?_append]
    rfl
  have hstart : m.content = front ++ (old ++ back) := by rw [h.content, String.append_assoc]
  refine ⟨h.get, h.content, ⟨path, Manifest.parsePath_eq_ok_iff.mpr hpath, ?_⟩, hcut hstart, hcut h.content⟩
  rw [Locator.findBytes?_eq, hfind, Option.map_some, h.inBytes hfound]

/-- What is resolved stands in the text. -/
theorem exists_stands {path : KeyPath} {found : Occurrence} (hpath : Manifest.parsePath key = .ok path)
    (hfound : m.locator.resolve m.content path = .ok found) : ∃ front old back, m.Stands key front old back ∧
      (InPlace.locate path).run.run m = some (.ok ⟨front.utf8ByteSize, (front ++ old).utf8ByteSize⟩, m) := by
  have hlocate : m.locate key = .ok found := Manifest.locate_eq_ok_iff.mpr
    ⟨path, Manifest.parsePath_eq_ok_iff.mp hpath, Manifest.resolve_eq_ok_iff.mp hfound⟩
  obtain ⟨front, old, back, hstands⟩ := Manifest.exists_stands hlocate
  exact ⟨front, old, back, hstands, hstands.inBytes hlocate ▸ InPlace.run_locate_ok hfound⟩

/-- **A get in place answers what the manifest does**, and leaves the text alone. -/
theorem perform_get (m : Manifest) (key : String) :
    (perform (.get key)).run.run m = some ((m.get key).map some, m) := by
  rw [perform]
  cases hpath : Manifest.parsePath key with
  | error fault =>
    rw [InPlace.run_bind_of_error (InPlace.run_of_except _), Manifest.get, Manifest.locate, hpath]
    rfl
  | ok path =>
    rw [InPlace.run_bind_of_ok (InPlace.run_of_except _)]
    cases hfound : m.locator.resolve m.content path with
    | error fault =>
      rw [InPlace.run_bind_of_error (InPlace.run_locate_error hfound)]
      simp only [Manifest.get, Manifest.locate, bind, Except.bind, hpath, hfound]
      rfl
    | ok found =>
      obtain ⟨front, old, back, hstands, hlocate⟩ := exists_stands hpath hfound
      rw [InPlace.run_bind_of_ok hlocate, InPlace.run_bind_of_ok hstands.run_read, hstands.get]
      rfl

/-- **A set in place does what it does on a manifest, or nothing.** -/
theorem perform_set (m : Manifest) (key value : String) : (perform (.set key value)).run.run m =
    some (match m.set key value with
      | .ok edited => (.ok none, edited)
      | .error fault => (.error fault, m)) := by
  rw [perform]
  cases hpath : Manifest.parsePath key with
  | error fault =>
    rw [InPlace.run_bind_of_error (InPlace.run_of_except _)]
    simp only [Manifest.set, bind, Except.bind, hpath]
  | ok path =>
    rw [InPlace.run_bind_of_ok (InPlace.run_of_except _)]
    cases hvalue : Manifest.checkValue value with
    | error fault =>
      rw [InPlace.run_bind_of_error (InPlace.run_of_except _)]
      simp only [Manifest.set, bind, Except.bind, hpath, hvalue]
    | ok =>
      rw [InPlace.run_bind_of_ok (InPlace.run_of_except _)]
      cases hfound : m.locator.resolve m.content path with
      | error fault =>
        rw [InPlace.run_bind_of_error (InPlace.run_locate_error hfound)]
        simp only [Manifest.set, bind, Except.bind, hpath, hvalue, hfound]
      | ok found =>
        obtain ⟨front, old, back, hstands, hlocate⟩ := exists_stands hpath hfound
        rw [InPlace.run_bind_of_ok hlocate, InPlace.run_bind_of_ok hstands.run_read,
          InPlace.run_bind_of_ok (hstands.run_write value), hstands.set_eq_ok_iff.mpr ⟨hvalue, rfl⟩]
        rfl

/-- **Every call is answered, and does what it may do.** -/
theorem perform_does (call : Call) (m : Manifest) :
    ∃ answer after, call.perform.run.run m = some (answer, after) ∧ Does m call answer after := by
  cases call with
  | get key => exact ⟨_, _, perform_get m key, .got key⟩
  | set key value =>
    refine ⟨_, _, perform_set m key value, ?_⟩
    cases hset : m.set key value with
    | error fault => exact .refused hset
    | ok edited =>
      obtain ⟨path, found, hpath, -, hfound, -⟩ := Manifest.set_eq_ok_iff.mp hset
      obtain ⟨front, old, back, hstands⟩ :=
        Manifest.exists_stands (Manifest.locate_eq_ok_iff.mpr ⟨path, hpath, hfound⟩)
      obtain ⟨-, rfl⟩ := hstands.set_eq_ok_iff.mp hset
      exact .exchanged (lies_of_stands hstands) hset

/-- **However calls come one after the other, all of them are answered**: no cut of the text is out of its range or
inside of a character. A set that succeeds exchanges exactly what a get of its key would have read, and no other call
changes the text. -/
theorem performAll_does (calls : List Call) (m : Manifest) :
    ∃ answers last, performAll calls m = some (answers, last) ∧ DoAll m calls answers last := by
  induction calls generalizing m with
  | nil => exact ⟨[], m, rfl, .nil m⟩
  | cons call rest ih =>
    obtain ⟨answer, after, hcall, hdoes⟩ := perform_does call m
    obtain ⟨answers, last, hrest, hall⟩ := ih after
    refine ⟨answer :: answers, last, ?_, .cons hdoes hall⟩
    simp only [performAll, hcall, hrest, Option.bind_eq_bind, Option.bind_some, Option.pure_def]

example : performAll [.get "v", .set "v" "ñ", .set "v" "'", .get "v"] ⟨"é: 'ü'\nv: 1 # ö\n", .yaml⟩ =
    some ([.ok (some "1"), .ok none, .error (.invalidValue "'" .quote), .ok (some "ñ")],
      ⟨"é: 'ü'\nv: ñ # ö\n", .yaml⟩) := by decide +kernel

end Call
end ManifestBump
