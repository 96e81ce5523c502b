import ManifestBump.Proofs.Json.Key
import ManifestBump.Proofs.Json.Outline
import ManifestBump.Proofs.Text.Edit

/-! Lookups before and after an edit that only moves the outline.

When nothing of the outline lies inside of the exchanged stretch, keys stand at the same places and objects take
the same stretches, moved (`isKey_shift`, `objectScope_shift`). So what a lookup finds follows what it found before,
as long as the same is read at single places (`findIn_follows`). -/
namespace ManifestBump.Json
open Text

/-- The first `k` characters from a place on lie on one side of the stretch. -/
def Aside (e : Edit) (n k : Nat) : Prop := n + k ≤ e.front.length ∨ e.stop ≤ n

/-- A key at a place is read with the same object before and afterwards, if what is found in that matters. -/
structure SameObject (e : Edit) (P : Occurrence → Prop) (key : List Char) (stop n : Nat) : Prop where
  back : ∀ k, object? key ((e.after.take (e.shift stop)).drop (e.shift n)) = some k →
    object? key ((e.before.take stop).drop n) = some k ∧ Aside e n (k + 1)
  forth : ∀ k (found : Occurrence), object? key ((e.before.take stop).drop n) = some k →
    n + k + 1 ≤ found.value.start → P found →
    object? key ((e.after.take (e.shift stop)).drop (e.shift n)) = some k ∧ Aside e n (k + 1)

/-- Keys of a moved outline stand where they have been moved. -/
theorem isKey_relabel {f : Nat → Nat} {P : Nat → Prop} {o : Outline} (hf : Outline.Monotone f P) (ho : o.Within P)
    {n : Nat} (hn : P n) (depth : Nat) : isKey (o.relabel f) (f n) depth = isKey o n depth := by
  rw [isKey, isKey, Outline.startsLiteral_relabel hf ho hn, Outline.depthAt_relabel hf ho hn]

/-! ### Outlines -/

/-- **The outline is only moved** when the scan finds the same in both stretches, and goes on behind them in the same
way. -/
theorem scan_edit {e : Edit} (hp : e.Proper) {o p : Outline} {mode mode' : Outline.Mode} {d d' : Nat}
    (ho : o.Within (· ≤ e.front.length)) (hwithin : p.Within e.Outside) (hmode : mode'.Within (· ≤ e.front.length))
    (hscan : ∀ y, Outline.scan (e.front ++ y) = o ++ Outline.scanFrom mode e.front.length d y)
    (hold : ∀ rest, Outline.scanFrom mode e.front.length d (e.old ++ rest) =
      p ++ Outline.scanFrom mode' e.stop d' rest)
    (hnew : ∀ rest, Outline.scanFrom mode e.front.length d (e.new ++ rest) =
      p.relabel e.shift ++ Outline.scanFrom mode' (e.front.length + e.new.length) d' rest) :
    (Outline.scan e.before).Within e.Outside ∧ Outline.scan e.after = (Outline.scan e.before).relabel e.shift := by
  have hbefore : Outline.scan e.before = o ++ (p ++ Outline.scanFrom mode' e.stop d' e.back) := by
    rw [Edit.before, List.append_assoc, hscan, hold]
  have hmove : ∀ k, k ≤ e.front.length → e.shift k = k := fun k hk => Edit.shift_of_le hk
  have hstop : e.shift e.stop = e.front.length + e.new.length := by
    rw [Edit.shift_of_stop_le hp le_rfl, Edit.stop]
    omega
  constructor
  · rw [hbefore]
    refine (ho.mono fun k hk => .inl hk).append (hwithin.append ?_)
    exact Outline.scanFrom_within (hmode.mono fun k hk => .inl hk) d' e.back fun k hk _ => .inr hk
  · rw [hbefore, Outline.relabel_append, Outline.relabel_append, Outline.relabel_of_within ho hmove,
      ← Outline.scanFrom_relabel e.shift mode' e.stop d' e.back fun k => Edit.shift_add hp le_rfl k,
      Outline.Mode.relabel_of_within hmode hmove, hstop, Edit.after, List.append_assoc, hscan, hnew]

/-- Stretches in which the scan finds nothing. -/
theorem scan_passed {e : Edit} (hp : e.Proper) {o : Outline} {mode : Outline.Mode} {d : Nat}
    (ho : o.Within (· ≤ e.front.length)) (hmode : mode.Within (· ≤ e.front.length))
    (hscan : ∀ y, Outline.scan (e.front ++ y) = o ++ Outline.scanFrom mode e.front.length d y)
    (hold : ∀ rest, Outline.scanFrom mode e.front.length d (e.old ++ rest) = Outline.scanFrom mode e.stop d rest)
    (hnew : ∀ rest, Outline.scanFrom mode e.front.length d (e.new ++ rest) =
      Outline.scanFrom mode (e.front.length + e.new.length) d rest) :
    (Outline.scan e.before).Within e.Outside ∧ Outline.scan e.after = (Outline.scan e.before).relabel e.shift :=
  scan_edit hp ho Outline.within_blank hmode hscan hold hnew

section Moved
variable {e : Edit} (hp : e.Proper) {o : Outline} (ho : o.Within e.Outside) {n stop depth : Nat}
include hp

/-! ### Keys and objects -/

theorem monotone_shift : Outline.Monotone e.shift e.Outside := fun _ _ hm hn => Edit.shift_lt_shift_iff hp hm hn

include ho

theorem isKey_shift (hn : e.Outside n) (depth : Nat) :
    isKey (o.relabel e.shift) (e.shift n) depth = isKey o n depth :=
  isKey_relabel (monotone_shift hp) ho hn depth

omit hp in
/-- Keys stand outside of the stretch. -/
theorem outside_of_isKey (h : isKey o n depth = true) : e.Outside n := by
  simp only [isKey, Outline.startsLiteral, Bool.and_eq_true, List.any_eq_true, beq_iff_eq] at h
  obtain ⟨⟨s, hs, rfl⟩, -⟩ := h
  exact (ho.literals s hs).1

/-- No key stands inside of the new stretch. -/
theorem isKey_inside {m : Nat} (hl : e.front.length < m) (hr : m < e.front.length + e.new.length) :
    isKey (o.relabel e.shift) m depth = false := by
  by_contra hkey
  simp only [isKey, Outline.startsLiteral, Bool.not_eq_false, Bool.and_eq_true, List.any_eq_true, beq_iff_eq,
    Outline.relabel, List.mem_map] at hkey
  obtain ⟨⟨_, ⟨s, hs, rfl⟩, rfl⟩, -⟩ := hkey
  simp only at hl hr
  rcases (ho.literals s hs).1 with hle | hle
  · rw [Edit.shift_of_le hle] at hl
    omega
  · have hshift := Edit.shift_of_stop_le hp hle
    simp only [Edit.stop] at hle
    omega

/-- An object that opens outside of the stretch takes the same stretch afterwards, moved. -/
theorem objectScope_shift {opening : Nat} (h : e.Outside opening) (hbody : e.Outside (opening + 1))
    (hmove : e.shift (opening + 1) = e.shift opening + 1) :
    e.Outside (objectScope e.before o opening).start ∧ e.Outside (objectScope e.before o opening).stop ∧
      objectScope e.after (o.relabel e.shift) (e.shift opening) =
        ⟨e.shift (objectScope e.before o opening).start, e.shift (objectScope e.before o opening).stop⟩ := by
  simp only [objectScope, Outline.closingBrace?_relabel (monotone_shift hp) ho h, Edit.length_after hp, hmove]
  cases hclosing : o.closingBrace? opening with
  | none => exact ⟨hbody, Edit.outside_length, rfl⟩
  | some m => exact ⟨hbody, Outline.closingBrace?_within ho hclosing, rfl⟩

/-! ### Lookups -/

variable {P : Occurrence → Prop} {Q : Occurrence → Occurrence → Prop} {leaf key : List Char}

/-- What the object of a key holds follows what it held before. -/
theorem parentAt_follows (hn : e.Outside n) {keys : List (List Char)}
    (hobject : isKey o n depth = true → SameObject e P key stop n)
    (hinner : ∀ scope, e.Outside scope.start → e.Outside scope.stop →
      Follows P Q (findIn e.before o leaf keys (depth + 1) scope)
        (findIn e.after (o.relabel e.shift) leaf keys (depth + 1) ⟨e.shift scope.start, e.shift scope.stop⟩)) :
    Follows P Q (parentAt e.before o leaf key keys depth stop n)
      (parentAt e.after (o.relabel e.shift) leaf key keys depth (e.shift stop) (e.shift n)) := by
  -- An object that opens on one side of the stretch keeps its scope, moved.
  have hscope : ∀ k, Aside e n (k + 1) →
      (o.relabel e.shift).inLiteral (e.shift n + k) = o.inLiteral (n + k) ∧
      Follows P Q (findIn e.before o leaf keys (depth + 1) (objectScope e.before o (n + k)))
        (findIn e.after (o.relabel e.shift) leaf keys (depth + 1)
          (objectScope e.after (o.relabel e.shift) (e.shift n + k))) := by
    intro k hside
    obtain ⟨hopening, hmove⟩ := Edit.shift_near (k := k) hp (hside.imp (by omega) id)
    obtain ⟨hbody, hmove'⟩ := Edit.shift_near hp hside
    have hbody' : e.shift (n + k + 1) = e.shift (n + k) + 1 := by
      rw [hmove, Nat.add_assoc, hmove', Nat.add_assoc]
    obtain ⟨hstart, hend, hscope⟩ := objectScope_shift hp ho hopening hbody hbody'
    rw [← hmove]
    refine ⟨Outline.inLiteral_relabel (monotone_shift hp) ho hopening, ?_⟩
    rw [hscope]
    exact hinner _ hstart hend
  constructor
  · intro hnone
    by_contra hne
    obtain ⟨found, hfound⟩ := Option.ne_none_iff_exists'.mp hne
    obtain ⟨k, hk, hkey, hliteral, hfound'⟩ := parentAt_eq_some_iff.mp hfound
    rw [isKey_shift hp ho hn] at hkey
    obtain ⟨hk', hside⟩ := (hobject hkey).back k hk
    obtain ⟨hsame, hfollows⟩ := hscope k hside
    rw [hsame] at hliteral
    cases hbefore : findIn e.before o leaf keys (depth + 1) (objectScope e.before o (n + k)) with
    | none =>
      rw [hfollows.none hbefore] at hfound'
      cases hfound'
    | some found' =>
      rw [parentAt_eq_some_iff.mpr ⟨k, hk', hkey, hliteral, hbefore⟩] at hnone
      cases hnone
  · intro found hfound hP
    obtain ⟨k, hk, hkey, hliteral, hbefore⟩ := parentAt_eq_some_iff.mp hfound
    obtain ⟨hk', hside⟩ := (hobject hkey).forth k found hk (start_le_of_findIn hbefore) hP
    obtain ⟨hsame, hfollows⟩ := hscope k hside
    obtain ⟨found', hfound', hQ⟩ := hfollows.some found hbefore hP
    exact ⟨found', parentAt_eq_some_iff.mpr ⟨k, hk', (isKey_shift hp ho hn depth).trans hkey, hsame.trans hliteral,
      hfound'⟩, hQ⟩

/-- **What a lookup finds follows what it found**, in any stretch that begins and ends outside of the exchanged
one, if that holds at single places. -/
theorem findIn_follows {keys : List (List Char)}
    (hleaf : ∀ {n stop depth : Nat}, e.Outside n → e.Outside stop →
      Follows P Q (leafAt (e.before.take stop) o leaf depth n)
        (leafAt (e.after.take (e.shift stop)) (o.relabel e.shift) leaf depth (e.shift n)))
    (hobject : ∀ key ∈ keys, ∀ {n stop depth : Nat}, e.Outside n → e.Outside stop → isKey o n depth = true →
      SameObject e P key stop n)
    {scope : Span} (hstart : e.Outside scope.start) (hstop : e.Outside scope.stop) :
    Follows P Q (findIn e.before o leaf keys depth scope)
      (findIn e.after (o.relabel e.shift) leaf keys depth ⟨e.shift scope.start, e.shift scope.stop⟩) := by
  induction keys generalizing depth scope with
  | nil =>
    rw [findIn_leaf, findIn_leaf]
    refine Edit.firstAnswer_follows hp (fun n hn => hleaf hn hstop) ?_ ?_ hstart hstop
    · intro n found hfound _
      obtain ⟨slot, -, hkey, -⟩ := leafAt_eq_some_iff.mp hfound
      exact outside_of_isKey ho hkey
    · intro m hl hr
      by_contra hne
      obtain ⟨found, hfound⟩ := Option.ne_none_iff_exists'.mp hne
      obtain ⟨slot, -, hkey, -⟩ := leafAt_eq_some_iff.mp hfound
      rw [isKey_inside hp ho hl hr] at hkey
      cases hkey
  | cons key keys ih =>
    rw [findIn_parent, findIn_parent]
    refine Edit.firstAnswer_follows hp (fun n hn => ?_) ?_ ?_ hstart hstop
    · exact parentAt_follows hp ho hn (hobject key List.mem_cons_self hn hstop) fun scope hs he =>
        ih (fun key hkey => hobject key (List.mem_cons_of_mem _ hkey)) hs he
    · intro n found hfound _
      obtain ⟨k, -, hkey, -⟩ := parentAt_eq_some_iff.mp hfound
      exact outside_of_isKey ho hkey
    · intro m hl hr
      by_contra hne
      obtain ⟨found, hfound⟩ := Option.ne_none_iff_exists'.mp hne
      obtain ⟨k, -, hkey, -⟩ := parentAt_eq_some_iff.mp hfound
      rw [isKey_inside hp ho hl hr] at hkey
      cases hkey

/-- A path is looked up in the whole text. -/
theorem find?_follows (hbefore : Outline.scan e.before = o) (hafter : Outline.scan e.after = o.relabel e.shift)
    {path : KeyPath}
    (hleaf : ∀ {n stop depth : Nat}, e.Outside n → e.Outside stop →
      Follows P Q (leafAt (e.before.take stop) o path.leaf.toList depth n)
        (leafAt (e.after.take (e.shift stop)) (o.relabel e.shift) path.leaf.toList depth (e.shift n)))
    (hobject : ∀ key ∈ path.parents.map String.toList, ∀ {n stop depth : Nat}, e.Outside n → e.Outside stop →
      isKey o n depth = true → SameObject e P key stop n) :
    Follows P Q (find? e.before path) (find? e.after path) := by
  have hall : (⟨e.shift (Span.all e.before).start, e.shift (Span.all e.before).stop⟩ : Span) =
      Span.all e.after := by
    simp only [Span.all, Edit.length_after hp, Edit.shift_of_le (Nat.zero_le _)]
  rw [find?, find?, hbefore, hafter, ← hall]
  exact findIn_follows hp ho hleaf hobject (.inl (Nat.zero_le _)) Edit.outside_length

end Moved
end ManifestBump.Json
