import ManifestBump.Manifest.Outline
import ManifestBump.Proofs.Text.Cut

/-! The outline of a text, piece by piece.

`step` says once what the scan does at a character (`scanFrom_cons`). From it follow that a scan
which begins elsewhere finds the same, moved (`scanFrom_relabel`), and that a text is scanned
front first and then, in the mode and at the depth reached there, on to its end
(`scanFrom_append`), unless the cut parts two characters that count together. -/
namespace ManifestBump.Outline
open Text

/-! ### Outlines one behind the other -/

/-- The outline without literals and braces. -/
def blank : Outline := ⟨[], []⟩

instance : Append Outline := ⟨fun o p => ⟨o.literals ++ p.literals, o.braces ++ p.braces⟩⟩

@[simp] theorem literals_append (o p : Outline) : (o ++ p).literals = o.literals ++ p.literals := rfl

@[simp] theorem braces_append (o p : Outline) : (o ++ p).braces = o.braces ++ p.braces := rfl

theorem append_assoc (o p q : Outline) : o ++ p ++ q = o ++ (p ++ q) := by
  show Outline.mk _ _ = Outline.mk _ _
  simp

/-! ### One step of the scan -/

/-- What the scan does at a character: how many more it takes, what it finds, and how it goes
on. -/
structure Step where
  more : Nat
  found : Outline
  mode : Mode
  depth : Nat

/-- The step at a character that another one, or none, follows. -/
def step (mode : Mode) (n d : Nat) (c : Char) (next : Option Char) : Step :=
  match mode with
  | .code =>
    if c = '/' ∧ next = some '/' then ⟨1, blank, .lineComment n, d⟩
    else if c = '/' ∧ next = some '*' then ⟨1, blank, .blockComment n, d⟩
    else if c = '\x7b' then ⟨0, ⟨[], [⟨n, d + 1⟩]⟩, .code, d + 1⟩
    else if c = '\x7d' then ⟨0, ⟨[], [⟨n, d - 1⟩]⟩, .code, d - 1⟩
    else if c = '"' ∨ c = '\'' then ⟨0, blank, .string c n, d⟩
    else ⟨0, blank, .code, d⟩
  | .string q s =>
    if c = '\\' then ⟨if next = none then 0 else 1, blank, .string q s, d⟩
    else if c = q then ⟨0, ⟨[⟨s, n + 1⟩], []⟩, .code, d⟩
    else if c = '\n' then ⟨0, ⟨[⟨s, n⟩], []⟩, .code, d⟩
    else ⟨0, blank, .string q s, d⟩
  | .lineComment s =>
    if c = '\n' then ⟨0, ⟨[⟨s, n⟩], []⟩, .code, d⟩ else ⟨0, blank, .lineComment s, d⟩
  | .blockComment s =>
    if c = '*' ∧ next = some '/' then ⟨1, ⟨[⟨s, n + 2⟩], []⟩, .code, d⟩
    else ⟨0, blank, .blockComment s, d⟩

/-- What is still open at the end of the text. -/
def finish (mode : Mode) (n : Nat) : Outline :=
  match mode with
  | .code => blank
  | .string _ s | .lineComment s | .blockComment s => ⟨[⟨s, n⟩], []⟩

theorem scanFrom_nil (mode : Mode) (n d : Nat) : scanFrom mode n d [] = finish mode n := by
  cases mode <;> rfl

/-- **The scan goes step by step.** -/
theorem scanFrom_cons (mode : Mode) (n d : Nat) (c : Char) (rest : List Char) :
    scanFrom mode n d (c :: rest) =
      let s := step mode n d c rest.head?
      s.found ++ scanFrom s.mode (n + 1 + s.more) s.depth (rest.drop s.more) := by
  cases mode with
  | code =>
    by_cases hline : c = '/' ∧ rest.head? = some '/'
    · obtain ⟨rfl, hnext⟩ := hline
      obtain ⟨tail, rfl⟩ := List.head?_eq_some_iff.mp hnext
      rfl
    by_cases hblock : c = '/' ∧ rest.head? = some '*'
    · obtain ⟨rfl, hnext⟩ := hblock
      obtain ⟨tail, rfl⟩ := List.head?_eq_some_iff.mp hnext
      rfl
    by_cases hopen : c = '\x7b'
    · subst hopen
      rfl
    by_cases hclose : c = '\x7d'
    · subst hclose
      rfl
    have hnoLine : ∀ tail, c = '/' → rest = '/' :: tail → False := fun tail hc ht =>
      hline ⟨hc, by rw [ht]; rfl⟩
    have hnoBlock : ∀ tail, c = '/' → rest = '*' :: tail → False := fun tail hc ht =>
      hblock ⟨hc, by rw [ht]; rfl⟩
    rw [scanFrom.eq_6 _ _ _ _ hnoLine hnoBlock hopen hclose]
    simp only [step, if_neg hline, if_neg hblock, if_neg hopen, if_neg hclose]
    split <;> rfl
  | string q s =>
    by_cases hc : c = '\\'
    · subst hc
      cases rest <;> rfl
    · rw [scanFrom.eq_10 _ _ _ _ _ _ (fun h _ => hc h) (fun _ _ h _ => hc h)]
      simp only [step, if_neg hc]
      split
      · rfl
      · split <;> rfl
  | lineComment s =>
    rw [scanFrom.eq_12]
    simp only [step]
    split <;> rfl
  | blockComment s =>
    by_cases hend : c = '*' ∧ rest.head? = some '/'
    · obtain ⟨rfl, hnext⟩ := hend
      obtain ⟨tail, rfl⟩ := List.head?_eq_some_iff.mp hnext
      rfl
    · simp only [step, if_neg hend]
      rw [scanFrom]
      · rfl
      · rintro tail rfl rfl
        exact hend ⟨rfl, rfl⟩

theorem step_more_le (mode : Mode) (n d : Nat) (c : Char) (next : Option Char) :
    (step mode n d c next).more ≤ 1 := by
  unfold step
  grind

/-- A step takes no more than there is. -/
theorem step_more_le_length (mode : Mode) (n d : Nat) (c : Char) (rest : List Char) :
    (step mode n d c rest.head?).more ≤ rest.length := by
  cases rest with
  | nil =>
    simp only [List.head?_nil, step]
    grind
  | cons next rest => exact (step_more_le mode n d c _).trans (by simp)

/-! ### Moved outlines -/

/-- The same literals and braces at other offsets. -/
def relabel (f : Nat → Nat) (o : Outline) : Outline where
  literals := o.literals.map fun s => ⟨f s.start, f s.stop⟩
  braces := o.braces.map fun b => ⟨f b.offset, b.depth⟩

/-- The same mode, begun elsewhere. -/
def Mode.relabel (f : Nat → Nat) : Mode → Mode
  | .code => .code
  | .string quote start => .string quote (f start)
  | .lineComment start => .lineComment (f start)
  | .blockComment start => .blockComment (f start)

theorem relabel_append (f : Nat → Nat) (o p : Outline) :
    (o ++ p).relabel f = o.relabel f ++ p.relabel f := by
  show Outline.mk _ _ = Outline.mk _ _
  simp [relabel]

theorem step_relabel (f : Nat → Nat) (mode : Mode) (n d : Nat) (c : Char) (next : Option Char)
    (h₁ : f (n + 1) = f n + 1) (h₂ : next = some '/' → f (n + 2) = f n + 2) :
    step (mode.relabel f) (f n) d c next =
      let s := step mode n d c next
      ⟨s.more, s.found.relabel f, s.mode.relabel f, s.depth⟩ := by
  cases mode <;>
  · simp only [step, Mode.relabel]
    repeat' split
    all_goals first | contradiction | simp_all [relabel, blank]

/-- A scan that begins elsewhere finds the same, moved. -/
theorem scanFrom_relabel (f : Nat → Nat) (mode : Mode) (n d : Nat) (text : List Char)
    (h : ∀ k, f (n + k) = f n + k) :
    scanFrom (mode.relabel f) (f n) d text = (scanFrom mode n d text).relabel f := by
  induction hlen : text.length using Nat.strong_induction_on generalizing mode n d text with
  | _ len ih =>
    cases text with
    | nil =>
      rw [scanFrom_nil, scanFrom_nil]
      cases mode <;> rfl
    | cons c rest =>
      rw [scanFrom_cons, scanFrom_cons, step_relabel f mode n d c _ (h 1) fun _ => h 2, relabel_append]
      have hnext : f (n + 1 + (step mode n d c rest.head?).more) =
          f n + 1 + (step mode n d c rest.head?).more := by
        rw [Nat.add_assoc, h, Nat.add_assoc]
      simp only [← hnext]
      rw [ih (rest.drop (step mode n d c rest.head?).more).length]
      · rw [← hlen]
        simp
      · intro k
        rw [hnext, Nat.add_assoc, Nat.add_assoc, h]
        omega
      · rfl

/-! ### Where offsets lie -/

/-- All offsets are of one kind. -/
structure Within (P : Nat → Prop) (o : Outline) : Prop where
  literals : ∀ s ∈ o.literals, P s.start ∧ P s.stop
  braces : ∀ b ∈ o.braces, P b.offset

/-- The offset where a mode began is of one kind, and a string began with a quote. -/
def Mode.Within (P : Nat → Prop) : Mode → Prop
  | .code => True
  | .string q s => (q = '"' ∨ q = '\'') ∧ P s
  | .lineComment s | .blockComment s => P s

variable {P : Nat → Prop}

theorem Within.mono {Q : Nat → Prop} {o : Outline} (h : o.Within P) (hPQ : ∀ n, P n → Q n) :
    o.Within Q :=
  ⟨fun s hs => ⟨hPQ _ (h.literals s hs).1, hPQ _ (h.literals s hs).2⟩,
    fun b hb => hPQ _ (h.braces b hb)⟩

theorem within_blank : blank.Within P := ⟨by simp [blank], by simp [blank]⟩

theorem Mode.Within.mono {Q : Nat → Prop} {mode : Mode} (h : mode.Within P) (hPQ : ∀ n, P n → Q n) :
    mode.Within Q := by
  cases mode with
  | code => trivial
  | string q s => exact ⟨h.1, hPQ s h.2⟩
  | lineComment s => exact hPQ s h
  | blockComment s => exact hPQ s h

theorem Within.append {o p : Outline} (ho : o.Within P) (hp : p.Within P) : (o ++ p).Within P := by
  refine ⟨fun s hs => ?_, fun b hb => ?_⟩
  · rcases List.mem_append.mp hs with hs | hs
    · exact ho.literals s hs
    · exact hp.literals s hs
  · rcases List.mem_append.mp hb with hb | hb
    · exact ho.braces b hb
    · exact hp.braces b hb

theorem step_within {mode : Mode} {n : Nat} (d : Nat) (c : Char) (next : Option Char)
    (h : mode.Within P) (hn : P n) (hnext : P (n + 1 + (step mode n d c next).more)) :
    (step mode n d c next).found.Within P ∧ (step mode n d c next).mode.Within P := by
  revert hnext
  cases mode <;>
  · simp only [Mode.Within] at h
    simp only [step]
    repeat' split
    all_goals
      intro hnext
      refine ⟨⟨?_, ?_⟩, ?_⟩ <;> simp_all [blank, Mode.Within]

/-- A scan finds only offsets of its text, and the one where its mode began. -/
theorem scanFrom_within {mode : Mode} {n : Nat} (h : mode.Within P) (d : Nat) (text : List Char)
    (hP : ∀ k, n ≤ k → k ≤ n + text.length → P k) : (scanFrom mode n d text).Within P := by
  induction hlen : text.length using Nat.strong_induction_on generalizing mode n d text with
  | _ len ih =>
    cases text with
    | nil =>
      rw [scanFrom_nil]
      cases mode with
      | code => exact within_blank
      | string q s => exact ⟨by simpa [finish] using ⟨h.2, hP n le_rfl (by simp)⟩, by simp [finish]⟩
      | lineComment s => exact ⟨by simpa [finish] using ⟨h, hP n le_rfl (by simp)⟩, by simp [finish]⟩
      | blockComment s => exact ⟨by simpa [finish] using ⟨h, hP n le_rfl (by simp)⟩, by simp [finish]⟩
    | cons c rest =>
      rw [scanFrom_cons]
      have hmore := step_more_le_length mode n d c rest
      rw [List.length_cons] at hP
      obtain ⟨hfound, hmode⟩ := step_within d c rest.head? h (hP n le_rfl (by omega))
        (hP (n + 1 + (step mode n d c rest.head?).more) (by omega) (by omega))
      refine hfound.append (ih _ ?_ hmode _ _ (fun k hk hle => hP k (by omega) ?_) rfl)
      · rw [← hlen]
        simp
      · rw [List.length_drop] at hle
        omega

theorem relabel_of_within {f : Nat → Nat} {o : Outline} (h : o.Within P) (hf : ∀ k, P k → f k = k) :
    o.relabel f = o := by
  obtain ⟨literals, braces⟩ := o
  show Outline.mk _ _ = Outline.mk _ _
  congr 1
  · refine (List.map_congr_left fun s hs => ?_).trans (List.map_id _)
    show (⟨f s.start, f s.stop⟩ : Span) = s
    rw [hf _ (h.literals s hs).1, hf _ (h.literals s hs).2]
  · refine (List.map_congr_left fun b hb => ?_).trans (List.map_id _)
    show (⟨f b.offset, b.depth⟩ : Brace) = b
    rw [hf _ (h.braces b hb)]

theorem Mode.relabel_of_within {f : Nat → Nat} {mode : Mode} (h : mode.Within P)
    (hf : ∀ k, P k → f k = k) : mode.relabel f = mode := by
  cases mode with
  | code => rfl
  | string q s => rw [Mode.relabel, hf s h.2]
  | lineComment s => rw [Mode.relabel, hf s h]
  | blockComment s => rw [Mode.relabel, hf s h]

/-! ### Fronts -/

/-- A character that counts together with the one behind it. -/
def isDouble (c : Char) : Bool := c == '\\' || c == '/' || c == '*'

theorem step_of_not_isDouble {c : Char} (h : isDouble c = false) (mode : Mode) (n d : Nat)
    (next : Option Char) :
    (step mode n d c next).more = 0 ∧ step mode n d c next = step mode n d c none := by
  simp only [isDouble, Bool.or_eq_false_iff, beq_eq_false_iff_ne] at h
  obtain ⟨⟨h₁, h₂⟩, h₃⟩ := h
  cases mode <;> simp only [step, h₁, h₂, h₃, false_and, if_false] <;> grind

/-- **A text is scanned front first**, if the front does not end in the middle of two characters
that count together. -/
theorem scanFrom_append (mode : Mode) (n d : Nat) (x : List Char) (hmode : mode.Within (· ≤ n))
    (hlast : ∀ c ∈ x.getLast?, isDouble c = false) :
    ∃ o mode' d', o.Within (· ≤ n + x.length) ∧ mode'.Within (· ≤ n + x.length) ∧
      ∀ y, scanFrom mode n d (x ++ y) = o ++ scanFrom mode' (n + x.length) d' y := by
  induction hlen : x.length using Nat.strong_induction_on generalizing mode n d x with
  | _ len ih =>
    cases x with
    | nil =>
      cases hlen
      exact ⟨blank, mode, d, within_blank, hmode, fun y => rfl⟩
    | cons c rest =>
      set t := step mode n d c rest.head? with ht
      have hup : mode.Within (· ≤ n + 1 + t.more) := hmode.mono fun k hk => by omega
      have hn : n ≤ n + 1 + t.more := by omega
      obtain ⟨hfound, hmode'⟩ := step_within d c rest.head? hup hn le_rfl
      rw [← ht] at hfound hmode'
      cases rest with
      | nil =>
        -- The last character counts alone, so what follows does not matter.
        obtain ⟨hmore, -⟩ := step_of_not_isDouble (hlast c rfl) mode n d none
        have hmore : t.more = 0 := hmore
        rw [hmore] at hfound hmode'
        cases hlen
        refine ⟨t.found, t.mode, t.depth, hfound, hmode', fun y => ?_⟩
        have hsame := (step_of_not_isDouble (hlast c rfl) mode n d y.head?).2
        rw [List.singleton_append, scanFrom_cons, hsame]
        show t.found ++ scanFrom t.mode (n + 1 + t.more) t.depth (y.drop t.more) = _
        rw [hmore]
        rfl
      | cons b rest =>
        have hle : t.more ≤ 1 := step_more_le mode n d c _
        have hsize : n + 1 + t.more + ((b :: rest).drop t.more).length = n + (c :: b :: rest).length := by
          simp only [List.length_drop, List.length_cons]
          omega
        have hlast' : ∀ a ∈ ((b :: rest).drop t.more).getLast?, isDouble a = false := by
          intro a ha
          rw [List.getLast?_drop] at ha
          split at ha
          · cases ha
          · exact hlast a (by rwa [List.getLast?_cons_cons])
        obtain ⟨o, mode', d', ho, hm, hscan⟩ := ih _ (by rw [← hlen]; simp) t.mode _ t.depth
          ((b :: rest).drop t.more) hmode' hlast' rfl
        rw [hsize, hlen] at ho hm hscan
        have hfound' : t.found.Within (· ≤ n + len) := hfound.mono fun k hk => by
          rw [← hlen]
          simp only [List.length_cons]
          omega
        refine ⟨t.found ++ o, mode', d', hfound'.append ho, hm, fun y => ?_⟩
        · rw [List.cons_append, scanFrom_cons]
          show t.found ++ scanFrom t.mode (n + 1 + t.more) t.depth ((b :: rest ++ y).drop t.more) = _
          rw [List.drop_append_of_le_length (by simp only [List.length_cons]; omega), hscan, append_assoc]

/-! ### Characters that are no structure -/

/-- A character that changes nothing, in whatever mode it is met. -/
def isPlain (c : Char) : Bool :=
  !(['"', '\'', '\\', '/', '*', '\n', '\x7b', '\x7d'].contains c)

theorem step_of_isPlain {c : Char} (h : isPlain c = true) {mode : Mode} (hmode : mode.Within P)
    (n d : Nat) (next : Option Char) : step mode n d c next = ⟨0, blank, mode, d⟩ := by
  simp only [isPlain, Bool.not_eq_true', List.contains_eq_mem, decide_eq_false_iff_not, List.mem_cons,
    not_or] at h
  obtain ⟨h₁, h₂, h₃, h₄, h₅, h₆, h₇, h₈, -⟩ := h
  cases mode with
  | code => simp [step, h₁, h₂, h₄, h₇, h₈]
  | string q s =>
    have hq : ¬c = q := by
      rcases hmode.1 with rfl | rfl
      · exact h₁
      · exact h₂
    simp [step, h₃, h₆, hq]
  | lineComment s => simp [step, h₆]
  | blockComment s => simp [step, h₅]

/-- Plain characters are passed over. -/
theorem scanFrom_plain {text : List Char} (h : ∀ c ∈ text, isPlain c = true) {mode : Mode}
    (hmode : mode.Within P) (n d : Nat) (rest : List Char) :
    scanFrom mode n d (text ++ rest) = scanFrom mode (n + text.length) d rest := by
  induction text generalizing n with
  | nil => rfl
  | cons c text ih =>
    rw [List.cons_append, scanFrom_cons, step_of_isPlain (h c List.mem_cons_self) hmode]
    show scanFrom mode (n + 1) d (text ++ rest) = _
    rw [ih (fun c hc => h c (List.mem_cons_of_mem _ hc)), List.length_cons]
    congr 1
    omega

/-! ### Questions to moved outlines -/

/-- A map that keeps the order of certain offsets. -/
def Monotone (f : Nat → Nat) (P : Nat → Prop) : Prop :=
  ∀ m n, P m → P n → (f m < f n ↔ m < n)

variable {f : Nat → Nat} {o : Outline}

theorem depthAt_relabel (hf : Monotone f P) (ho : o.Within P) {n : Nat} (hn : P n) :
    (o.relabel f).depthAt (f n) = o.depthAt n := by
  have htake : (o.relabel f).braces.takeWhile (·.offset < f n) =
      (o.braces.takeWhile (·.offset < n)).map fun b => ⟨f b.offset, b.depth⟩ := by
    rw [relabel, List.takeWhile_map]
    refine congrArg _ (takeWhile_congr fun b hb => ?_)
    exact decide_eq_decide.mpr (hf _ _ (ho.braces b hb) hn)
  simp only [depthAt, htake, List.getLast?_map]
  cases (o.braces.takeWhile (·.offset < n)).getLast? <;> rfl

theorem closingBrace?_relabel (hf : Monotone f P) (ho : o.Within P) {n : Nat} (hn : P n) :
    (o.relabel f).closingBrace? (f n) = (o.closingBrace? n).map f := by
  have hdrop : (o.relabel f).braces.dropWhile (·.offset < f n) =
      (o.braces.dropWhile (·.offset < n)).map fun b => ⟨f b.offset, b.depth⟩ := by
    rw [relabel, List.dropWhile_map]
    refine congrArg _ (dropWhile_congr fun b hb => ?_)
    exact decide_eq_decide.mpr (hf _ _ (ho.braces b hb) hn)
  simp only [closingBrace?, hdrop]
  cases o.braces.dropWhile (·.offset < n) with
  | nil => rfl
  | cons b later =>
    show ((later.map _).find? _).map _ = ((later.find? _).map _).map f
    rw [List.find?_map, Option.map_map, Option.map_map]
    rfl

theorem closingBrace?_within (ho : o.Within P) {n m : Nat} (h : o.closingBrace? n = some m) : P m := by
  simp only [closingBrace?] at h
  split at h
  · cases h
  · rename_i brace later hdrop
    obtain ⟨b, hb, rfl⟩ := Option.map_eq_some_iff.mp h
    have hmem : b ∈ o.braces.dropWhile (·.offset < n) := by
      rw [hdrop]
      exact List.mem_cons_of_mem _ (List.mem_of_find?_eq_some hb)
    exact ho.braces b ((List.dropWhile_sublist _).subset hmem)

theorem startsLiteral_relabel (hf : Monotone f P) (ho : o.Within P) {n : Nat} (hn : P n) :
    (o.relabel f).startsLiteral (f n) = o.startsLiteral n := by
  simp only [startsLiteral, relabel, List.any_map]
  refine any_congr fun s hs => ?_
  have h₁ := hf s.start n (ho.literals s hs).1 hn
  have h₂ := hf n s.start hn (ho.literals s hs).1
  exact Bool.eq_iff_iff.mpr (by simp only [Function.comp, beq_iff_eq]; omega)

theorem inLiteral_relabel (hf : Monotone f P) (ho : o.Within P) {n : Nat} (hn : P n) :
    (o.relabel f).inLiteral (f n) = o.inLiteral n := by
  simp only [inLiteral, relabel, List.any_map]
  refine any_congr fun s hs => ?_
  have h₁ := hf n s.start hn (ho.literals s hs).1
  have h₂ := hf n s.stop hn (ho.literals s hs).2
  refine Bool.eq_iff_iff.mpr ?_
  simp only [Function.comp, Span.contains, Bool.and_eq_true, decide_eq_true_eq]
  omega

end ManifestBump.Outline
