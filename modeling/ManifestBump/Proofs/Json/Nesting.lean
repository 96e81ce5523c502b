import ManifestBump.Proofs.Json.Literal

/-! Texts that close what they open.

`Closed` texts leave the scan outside of literals, as deep as they found it, and no less deep in between
(`depthAt_closed`). So what an outline says of a place follows from the text in front of the place
(`Reaches`): how deep it lies, whether a literal begins there, and where an object that opens there closes
(`closingBrace?_eq`). -/
namespace ManifestBump.Outline
open Text

/-! ### Closed texts -/

/-- What a scan finds in a closed text, and that it goes on as it began. -/
structure Closes (text : List Char) (n d : Nat) (found : Outline) : Prop where
  scan : ∀ rest, scanFrom .code n d (text ++ rest) = found ++ scanFrom .code (n + text.length) d rest
  literals : ∀ s ∈ found.literals, n ≤ s.start ∧ s.start < n + text.length ∧ s.stop ≤ n + text.length
  braces : ∀ b ∈ found.braces, n ≤ b.offset ∧ b.offset < n + text.length ∧ d ≤ b.depth
  depth : (found.braces.getLast?.map Brace.depth).getD d = d

/-- A text that closes what it opens. -/
def Closed (text : List Char) : Prop := ∀ n d, ∃ found, Closes text n d found

theorem Closed.append {x y : List Char} (hx : Closed x) (hy : Closed y) : Closed (x ++ y) := by
  intro n d
  obtain ⟨o, ho⟩ := hx n d
  obtain ⟨p, hp⟩ := hy (n + x.length) d
  have hlen : (x ++ y).length = x.length + y.length := List.length_append
  refine ⟨o ++ p, fun rest => ?_, fun s hs => ?_, fun b hb => ?_, ?_⟩
  · rw [List.append_assoc, ho.scan, hp.scan, append_assoc, hlen, Nat.add_assoc]
  · rcases List.mem_append.mp hs with hs | hs
    · have := ho.literals s hs
      omega
    · have := hp.literals s hs
      omega
  · rcases List.mem_append.mp hb with hb | hb
    · have := ho.braces b hb
      omega
    · have := hp.braces b hb
      omega
  · have hd := ho.depth
    have hd' := hp.depth
    rw [braces_append, List.getLast?_append]
    cases hlast : p.braces.getLast? with
    | none => simpa using hd
    | some b =>
      rw [hlast] at hd'
      simpa using hd'

/-- A character that begins no literal and is no brace. -/
def isQuiet (c : Char) : Bool := !(['"', '\'', '/', '\x7b', '\x7d'].contains c)

theorem step_of_isQuiet {c : Char} (h : isQuiet c = true) (n d : Nat) (next : Option Char) :
    step .code n d c next = ⟨0, blank, .code, d⟩ := by
  simp only [isQuiet, Bool.not_eq_true', List.contains_eq_mem, decide_eq_false_iff_not, List.mem_cons,
    not_or] at h
  obtain ⟨h₁, h₂, h₃, h₄, h₅, -⟩ := h
  simp [step, h₁, h₂, h₃, h₄, h₅]

theorem scanFrom_quiet {text : List Char} (h : ∀ c ∈ text, isQuiet c = true) (n d : Nat) (rest : List Char) :
    scanFrom .code n d (text ++ rest) = scanFrom .code (n + text.length) d rest := by
  induction text generalizing n with
  | nil => rfl
  | cons c text ih =>
    rw [List.cons_append, scanFrom_cons, step_of_isQuiet (h c List.mem_cons_self)]
    show scanFrom .code (n + 1) d (text ++ rest) = _
    rw [ih (fun c hc => h c (List.mem_cons_of_mem _ hc)), List.length_cons]
    congr 1
    omega

theorem closes_quiet {text : List Char} (h : ∀ c ∈ text, isQuiet c = true) (n d : Nat) :
    Closes text n d blank := by
  refine ⟨fun rest => ?_, by simp [blank], by simp [blank], by simp [blank]⟩
  rw [scanFrom_quiet h]
  rfl

theorem closed_quiet {text : List Char} (h : ∀ c ∈ text, isQuiet c = true) : Closed text :=
  fun n d => ⟨blank, closes_quiet h n d⟩

/-- A character inside of a string in double quotes that hides nothing and ends nothing. -/
def isInner (c : Char) : Bool := c != '"' && c != '\\' && c != '\n'

/-- A string in double quotes is one literal. -/
theorem closes_string {body : List Char} (h : Body (Json.endsString '"') body) (n d : Nat) :
    Closes ('"' :: body ++ ['"']) n d ⟨[⟨n, n + body.length + 2⟩], []⟩ := by
  have hlen : n + body.length + 2 = n + ('"' :: body ++ ['"']).length := by simp; omega
  refine ⟨fun rest => ?_, by simp; omega, by simp, rfl⟩
  rw [hlen]
  exact Json.scanFrom_literal (by decide) h n d rest

theorem closed_string {body : List Char} (h : Body (Json.endsString '"') body) : Closed ('"' :: body ++ ['"']) :=
  fun n d => ⟨_, closes_string h n d⟩

/-- An object: its braces, and between them what lies deeper. -/
theorem closes_object {inner : List Char} {n d : Nat} {found : Outline} (h : Closes inner (n + 1) (d + 1) found) :
    Closes ('\x7b' :: inner ++ ['\x7d']) n d
      (⟨[], [⟨n, d + 1⟩]⟩ ++ (found ++ ⟨[], [⟨n + 1 + inner.length, d⟩]⟩)) := by
  have hlen : ('\x7b' :: inner ++ ['\x7d']).length = inner.length + 2 := by simp
  refine ⟨fun rest => ?_, fun s hs => ?_, fun b hb => ?_, ?_⟩
  · rw [List.cons_append, List.cons_append, scanFrom_cons]
    show Outline.mk [] [⟨n, d + 1⟩] ++ scanFrom .code (n + 1) (d + 1) (inner ++ ['\x7d'] ++ rest) = _
    rw [List.append_assoc, h.scan, List.singleton_append, scanFrom_cons, append_assoc, append_assoc]
    show _ ++ (found ++ (Outline.mk [] [⟨n + 1 + inner.length, d⟩] ++
      scanFrom .code (n + 1 + inner.length + 1) d rest)) = _
    congr 3
    simp only [List.length_cons, List.length_append, List.length_nil]
    congr 1
    omega
  · have := h.literals s (by simpa using hs)
    omega
  · simp only [braces_append, List.mem_append, List.mem_singleton] at hb
    rcases hb with rfl | hb | rfl
    · simp only
      omega
    · have := h.braces b hb
      omega
    · simp only
      omega
  · simp only [braces_append, ← List.append_assoc, List.getLast?_append, List.getLast?_singleton, Option.some_or,
      Option.map_some, Option.getD_some]

theorem Closed.object {inner : List Char} (h : Closed inner) : Closed ('\x7b' :: inner ++ ['\x7d']) := by
  intro n d
  obtain ⟨found, hfound⟩ := h (n + 1) (d + 1)
  exact ⟨_, closes_object hfound⟩

/-! ### Places in a text -/

/-- What a scan has found in front of a place outside of literals, `d` objects deep. -/
structure Reaches (front : List Char) (d : Nat) (found : Outline) : Prop where
  scan : ∀ rest, Outline.scan (front ++ rest) = found ++ scanFrom .code front.length d rest
  literals : ∀ s ∈ found.literals, s.start < front.length ∧ s.stop ≤ front.length
  braces : ∀ b ∈ found.braces, b.offset < front.length
  depth : (found.braces.getLast?.map Brace.depth).getD 0 = d

theorem reaches_nil : Reaches [] 0 blank := ⟨fun _ => rfl, by simp [blank], by simp [blank], rfl⟩

theorem Reaches.append {front text : List Char} {d : Nat} {o p : Outline} (h : Reaches front d o)
    (ht : Closes text front.length d p) : Reaches (front ++ text) d (o ++ p) := by
  refine ⟨fun rest => ?_, fun s hs => ?_, fun b hb => ?_, ?_⟩
  · rw [List.append_assoc, h.scan, ht.scan, append_assoc, List.length_append]
  · rw [List.length_append]
    rcases List.mem_append.mp hs with hs | hs
    · have := h.literals s hs
      omega
    · have := ht.literals s hs
      omega
  · rw [List.length_append]
    rcases List.mem_append.mp hb with hb | hb
    · have := h.braces b hb
      omega
    · have := ht.braces b hb
      omega
  · have hd := h.depth
    have hd' := ht.depth
    rw [braces_append, List.getLast?_append]
    cases hlast : p.braces.getLast? with
    | none => simpa using hd
    | some b =>
      rw [hlast] at hd'
      simpa using hd'

/-- Behind an opening brace it is one deeper. -/
theorem Reaches.opening {front : List Char} {d : Nat} {o : Outline} (h : Reaches front d o) :
    Reaches (front ++ ['\x7b']) (d + 1) (o ++ ⟨[], [⟨front.length, d + 1⟩]⟩) := by
  refine ⟨fun rest => ?_, fun s hs => ?_, fun b hb => ?_, by simp⟩
  · rw [List.append_assoc, h.scan, List.singleton_append, scanFrom_cons, append_assoc]
    simp only [List.length_append, List.length_singleton]
    rfl
  · have := h.literals s (by simpa using hs)
    rw [List.length_append]
    omega
  · rw [List.length_append, List.length_singleton]
    simp only [braces_append, List.mem_append, List.mem_singleton] at hb
    rcases hb with hb | rfl
    · have := h.braces b hb
      omega
    · simp only
      omega

/-- Everything a scan finds lies where it goes on, or behind. -/
theorem within_scanFrom (n d : Nat) (rest : List Char) : (scanFrom .code n d rest).Within (n ≤ ·) :=
  scanFrom_within (show Mode.Within (n ≤ ·) .code from trivial) d rest fun _ hk _ => hk

section Places
variable {front text rest : List Char} {d n : Nat} {o p : Outline} (h : Reaches front d o)
  (ht : Closes text front.length d p)
include h

theorem depthAt_eq : (scan (front ++ rest)).depthAt front.length = d := by
  have hfront : o.braces.takeWhile (fun b => decide (b.offset < front.length)) = o.braces :=
    List.takeWhile_eq_self_iff.mpr fun b hb => decide_eq_true (h.braces b hb)
  have hrest : (scanFrom .code front.length d rest).braces.takeWhile
      (fun b => decide (b.offset < front.length)) = [] := by
    refine takeWhile_of_stops fun b hb => decide_eq_false ?_
    have := (within_scanFrom front.length d rest).braces b (List.mem_of_mem_head? hb)
    omega
  have hd := h.depth
  rw [h.scan, depthAt, braces_append, List.takeWhile_append, hfront, if_pos rfl, hrest, List.append_nil]
  cases hlast : o.braces.getLast? with
  | none => rw [hlast] at hd; exact hd
  | some b => rw [hlast] at hd; exact hd

include ht

theorem scan_append : scan (front ++ text ++ rest) =
    o ++ (p ++ scanFrom .code (front.length + text.length) d rest) := by
  rw [List.append_assoc, h.scan, ht.scan]

/-- In a closed text it is nowhere less deep than in front of it. -/
theorem depthAt_closed (hstart : front.length ≤ n) (hstop : n ≤ front.length + text.length) :
    d ≤ (scan (front ++ text ++ rest)).depthAt n := by
  have hfront : o.braces.takeWhile (fun b => decide (b.offset < n)) = o.braces := by
    refine List.takeWhile_eq_self_iff.mpr fun b hb => decide_eq_true ?_
    have := h.braces b hb
    omega
  have hrest : (scanFrom .code (front.length + text.length) d rest).braces.takeWhile
      (fun b => decide (b.offset < n)) = [] := by
    refine takeWhile_of_stops fun b hb => decide_eq_false ?_
    have := (within_scanFrom (front.length + text.length) d rest).braces b (List.mem_of_mem_head? hb)
    omega
  have hall : (p.braces ++ (scanFrom .code (front.length + text.length) d rest).braces).takeWhile
      (fun b => decide (b.offset < n)) = p.braces.takeWhile fun b => decide (b.offset < n) := by
    rw [List.takeWhile_append, hrest, List.append_nil]
    split
    · rename_i hlen
      exact (List.takeWhile_prefix _).eq_of_length hlen |>.symm
    · rfl
  have hd := h.depth
  rw [scan_append h ht, depthAt, braces_append, braces_append, List.takeWhile_append, hfront, if_pos rfl, hall,
    List.getLast?_append]
  cases hlast : (p.braces.takeWhile fun b => decide (b.offset < n)).getLast? with
  | none =>
    rw [Option.none_or]
    cases hlast' : o.braces.getLast? with
    | none => rw [hlast'] at hd; exact hd.ge
    | some b => rw [hlast'] at hd; exact hd.ge
  | some b =>
    rw [Option.some_or]
    exact (ht.braces b ((List.takeWhile_sublist _).subset (List.mem_of_getLast? hlast))).2.2

/-- Where literals begin in a text that is known to be closed. -/
theorem startsLiteral_closed (hstart : front.length ≤ n) (hstop : n < front.length + text.length) :
    (scan (front ++ text ++ rest)).startsLiteral n = p.startsLiteral n := by
  have hfront : o.literals.any (·.start == n) = false := by
    rw [List.any_eq_false]
    intro s hs
    have := (h.literals s hs).1
    simp only [beq_iff_eq]
    omega
  have hrest : (scanFrom .code (front.length + text.length) d rest).literals.any (·.start == n) = false := by
    rw [List.any_eq_false]
    intro s hs
    have := ((within_scanFrom (front.length + text.length) d rest).literals s hs).1
    simp only [beq_iff_eq]
    omega
  rw [scan_append h ht, startsLiteral, literals_append, literals_append, List.any_append, List.any_append, hfront,
    hrest, Bool.false_or, Bool.or_false]
  rfl

omit ht

/-- No literal lies around a place that has been reached, unless one begins there. -/
theorem inLiteral_opening : (scan (front ++ '\x7b' :: rest)).inLiteral front.length = false := by
  have hstep : scanFrom .code front.length d ('\x7b' :: rest) =
      ⟨[], [⟨front.length, d + 1⟩]⟩ ++ scanFrom .code (front.length + 1) (d + 1) rest := rfl
  rw [h.scan, hstep, inLiteral, literals_append, literals_append, List.any_append, Bool.or_eq_false_iff,
    List.any_eq_false, List.any_eq_false]
  constructor
  · intro s hs
    have := (h.literals s hs).2
    simp only [Span.contains, Bool.and_eq_true, decide_eq_true_eq]
    omega
  · intro s hs
    have := ((within_scanFrom (front.length + 1) (d + 1) rest).literals s (by simpa using hs)).1
    simp only [Span.contains, Bool.and_eq_true, decide_eq_true_eq]
    omega

/-- **An object closes at its own brace.** -/
theorem closingBrace?_eq {inner : List Char} (hinner : Closed inner) :
    (scan (front ++ '\x7b' :: (inner ++ '\x7d' :: rest))).closingBrace? front.length =
      some (front.length + 1 + inner.length) := by
  obtain ⟨found, hfound⟩ := hinner (front.length + 1) (d + 1)
  have hscan : scanFrom .code front.length d ('\x7b' :: (inner ++ '\x7d' :: rest)) =
      ⟨[], [⟨front.length, d + 1⟩]⟩ ++ (found ++ (⟨[], [⟨front.length + 1 + inner.length, d⟩]⟩ ++
        scanFrom .code (front.length + 1 + inner.length + 1) d rest)) := by
    rw [scanFrom_cons]
    show Outline.mk [] [⟨front.length, d + 1⟩] ++
      scanFrom .code (front.length + 1) (d + 1) (inner ++ '\x7d' :: rest) = _
    rw [hfound.scan, scanFrom_cons]
    rfl
  have hfront : o.braces.dropWhile (fun b => decide (b.offset < front.length)) = [] :=
    List.dropWhile_eq_nil_iff.mpr fun b hb => decide_eq_true (h.braces b hb)
  have hnone : found.braces.find? (fun b => decide (b.depth < d + 1)) = none := by
    rw [List.find?_eq_none]
    intro b hb
    have := (hfound.braces b hb).2.2
    simp only [decide_eq_true_eq]
    omega
  rw [h.scan, hscan, closingBrace?]
  simp only [braces_append]
  rw [List.dropWhile_append, hfront]
  simp only [List.isEmpty_nil, if_true, List.cons_append, List.nil_append, List.dropWhile_cons, lt_irrefl,
    decide_false, Bool.false_eq_true, if_false, List.find?_append, hnone, Option.none_or, List.find?_cons,
    Nat.lt_succ_self, decide_true, Option.map_some]

end Places

end ManifestBump.Outline
