import ManifestBump.Proofs.Json.Key
import ManifestBump.Proofs.Json.Outline
import ManifestBump.Proofs.Text.Body

/-! Where literals begin, and how far they reach.

A scan comes to the beginning of a literal in code (`exists_leads_of_start`), and what it is in the middle of becomes a
literal (`inLiteral_of_start?`). A string goes on over its body (`scanFrom_body`), and a comment over text without an end
of comments. -/
namespace ManifestBump.Outline
open Text

/-! ### Where literals begin -/

/-- Where the literal began that a scan is in the middle of. -/
def Mode.start? : Mode → Option Nat
  | .code => none
  | .string _ s | .lineComment s | .blockComment s => some s

variable {P : Nat → Prop} {mode : Mode} {n d : Nat}

theorem Mode.Within.start {s : Nat} (h : mode.Within P) (hs : mode.start? = some s) : P s := by
  cases mode with
  | code => cases hs
  | string quote start =>
    cases hs
    exact h.2
  | lineComment start | blockComment start =>
    cases hs
    exact h

/-- What is found at the end of the text is what the scan is in the middle of. -/
theorem mem_finish_iff {s : Span} : s ∈ (finish mode n).literals ↔ mode.start? = some s.start ∧ s.stop = n := by
  obtain ⟨start, stop⟩ := s
  cases mode <;> simp [finish, blank, Mode.start?, eq_comm]

/-- A step that finds a literal has come to its end. -/
theorem start?_of_step_found {c : Char} {next : Option Char} {s : Span}
    (h : s ∈ (step mode n d c next).found.literals) : mode.start? = some s.start := by
  cases mode <;>
  · simp only [step] at h
    repeat' split at h
    all_goals first | (rw [List.mem_singleton.mp h]; rfl) | cases h

/-- What a step finds ends where it goes on, or in front. -/
theorem stop_of_step_found {c : Char} {next : Option Char} {s : Span}
    (h : s ∈ (step mode n d c next).found.literals) : s.stop ≤ n + 1 + (step mode n d c next).more := by
  revert h
  cases mode <;>
  · simp only [step]
    repeat' split
    all_goals
      intro h
      first
      | obtain rfl := List.mem_singleton.mp h
        simp only
        omega
      | cases h

/-- A step goes on in the same literal, or ends it. -/
theorem step_of_start? {s : Nat} (h : mode.start? = some s) (c : Char) (next : Option Char) :
    (step mode n d c next).mode.start? = some s ∨
      ∃ stop, (⟨s, stop⟩ : Span) ∈ (step mode n d c next).found.literals ∧ n ≤ stop ∧ (c ≠ '\n' → n < stop) := by
  cases mode with
  | code => cases h
  | string | lineComment | blockComment =>
    cases h
    simp only [step]
    repeat' split
    all_goals
      first
      | exact .inl rfl
      | refine .inr ⟨_, List.mem_singleton_self _, by omega, fun hc => ?_⟩
        first | omega | exact absurd ‹c = '\n'› hc

/-- What a scan is in the middle of becomes a literal. -/
theorem exists_literal_of_start? {s : Nat} (h : mode.start? = some s) (text : List Char) :
    ∃ stop, (⟨s, stop⟩ : Span) ∈ (scanFrom mode n d text).literals ∧ n ≤ stop := by
  induction hlen : text.length using Nat.strong_induction_on generalizing mode n d text with
  | _ len ih =>
    cases text with
    | nil =>
      rw [scanFrom_nil]
      exact ⟨n, mem_finish_iff.mpr ⟨h, rfl⟩, le_rfl⟩
    | cons c rest =>
      rw [scanFrom_cons]
      rcases step_of_start? (n := n) (d := d) h c rest.head? with hmode | ⟨stop, hmem, hle, -⟩
      · obtain ⟨stop, hmem, hle⟩ := ih _ (by rw [← hlen]; simp) hmode (rest.drop (step mode n d c rest.head?).more) rfl
        exact ⟨stop, List.mem_append_right _ hmem, by omega⟩
      · exact ⟨stop, List.mem_append_left _ hmem, hle⟩

/-- A character in the middle of a literal lies in it, unless it is the line feed that ends it. -/
theorem inLiteral_of_start? {s : Nat} (h : mode.start? = some s) (hs : s ≤ n) {c : Char} (hc : c ≠ '\n')
    (rest : List Char) : (scanFrom mode n d (c :: rest)).inLiteral n = true := by
  have hliteral : ∃ stop, (⟨s, stop⟩ : Span) ∈ (scanFrom mode n d (c :: rest)).literals ∧ n < stop := by
    rw [scanFrom_cons]
    rcases step_of_start? (n := n) (d := d) h c rest.head? with hmode | ⟨stop, hmem, -, hlt⟩
    · obtain ⟨stop, hmem, hle⟩ := exists_literal_of_start? hmode (rest.drop (step mode n d c rest.head?).more)
      exact ⟨stop, List.mem_append_right _ hmem, by omega⟩
    · exact ⟨stop, List.mem_append_left _ hmem, hlt hc⟩
  obtain ⟨stop, hmem, hlt⟩ := hliteral
  refine List.any_eq_true.mpr ⟨_, hmem, ?_⟩
  simp [Span.contains, hs, hlt]

theorem step_mode_within {c : Char} {next : Option Char} (h : mode.Within P) (hn : mode = .code → P n) :
    (step mode n d c next).mode.Within P := by
  cases mode with
  | code =>
    simp only [step]
    repeat' split
    all_goals first | trivial | exact hn rfl | exact ⟨by assumption, hn rfl⟩
  | string | lineComment | blockComment =>
    simp only [step]
    repeat' split
    all_goals first | exact h | trivial

/-- A step finds braces only at its own place. -/
theorem offset_of_step_found {c : Char} {next : Option Char} {b : Brace} (h : b ∈ (step mode n d c next).found.braces) :
    b.offset = n := by
  cases mode <;>
  · simp only [step] at h
    repeat' split at h
    all_goals first | (rw [List.mem_singleton.mp h]) | cases h

/-- What a scan finds in front of a character that it comes to in code, whatever stands behind that. -/
structure Leads (mode : Mode) (n d : Nat) (x : List Char) (c : Char) (o : Outline) (d' : Nat) : Prop where
  scan : ∀ rest, scanFrom mode n d (x ++ c :: rest) = o ++ scanFrom .code (n + x.length) d' (c :: rest)
  literals : ∀ s ∈ o.literals, s.start < n + x.length ∧ s.stop ≤ n + x.length
  braces : ∀ b ∈ o.braces, b.offset < n + x.length

/-- One more step in front. What it sees of the text is in front of the character, or is the character. -/
theorem Leads.cons {c a : Char} {rest x tail : List Char} {o : Outline} {d' : Nat} (hmode : mode.Within (· < n))
    (hdrop : rest.drop (step mode n d c rest.head?).more = x ++ a :: tail)
    (h : Leads (step mode n d c rest.head?).mode (n + 1 + (step mode n d c rest.head?).more)
      (step mode n d c rest.head?).depth x a o d') :
    Leads mode n d (c :: (rest.take (step mode n d c rest.head?).more ++ x)) a ((step mode n d c rest.head?).found ++ o)
      d' := by
  set t := step mode n d c rest.head? with ht
  have hmore : (rest.take t.more).length = t.more := List.length_take_of_le (step_more_le_length mode n d c rest)
  have hsize : n + (c :: (rest.take t.more ++ x)).length = n + 1 + t.more + x.length := by
    rw [List.length_cons, List.length_append, hmore]
    omega
  constructor
  · intro other
    have hhead : (rest.take t.more ++ x ++ a :: other).head? = rest.head? := by
      conv_rhs => rw [← List.take_append_drop t.more rest, hdrop, ← List.append_assoc]
      cases rest.take t.more ++ x <;> rfl
    have hskip : (rest.take t.more ++ x ++ a :: other).drop t.more = x ++ a :: other := by
      rw [List.append_assoc, List.drop_append_of_le_length hmore.ge, List.drop_eq_nil_of_le hmore.le, List.nil_append]
    rw [List.cons_append, scanFrom_cons, hhead, hsize, append_assoc, ← h.scan]
    show t.found ++ scanFrom t.mode (n + 1 + t.more) t.depth ((rest.take t.more ++ x ++ a :: other).drop t.more) = _
    rw [hskip]
  · intro r hr
    rw [hsize]
    rcases List.mem_append.mp hr with hr | hr
    · have hstart := hmode.start (start?_of_step_found hr)
      have hstop := stop_of_step_found hr
      rw [← ht] at hstop
      omega
    · exact h.literals r hr
  · intro b hb
    rw [hsize]
    rcases List.mem_append.mp hb with hb | hb
    · have := offset_of_step_found hb
      omega
    · exact h.braces b hb

/-- **A scan comes to the beginning of a literal in code**, with the literals in front of that behind itself. -/
theorem exists_leads_of_start {text : List Char} {s : Span} (hmode : mode.Within (· < n)) (hstart : n ≤ s.start)
    (h : s ∈ (scanFrom mode n d text).literals) :
    ∃ x c rest o d', text = x ++ c :: rest ∧ s.start = n + x.length ∧ Leads mode n d x c o d' := by
  induction hlen : text.length using Nat.strong_induction_on generalizing mode n d text with
  | _ len ih =>
    cases text with
    | nil =>
      rw [scanFrom_nil] at h
      have := hmode.start (mem_finish_iff.mp h).1
      omega
    | cons c rest =>
      rw [scanFrom_cons] at h
      set t := step mode n d c rest.head? with ht
      have hrest : s ∈ (scanFrom t.mode (n + 1 + t.more) t.depth (rest.drop t.more)).literals := by
        refine (List.mem_append.mp h).resolve_left fun hs => ?_
        have := hmode.start (start?_of_step_found hs)
        omega
      by_cases heq : s.start = n
      · -- Only a step in code begins a literal.
        have hcode : mode = .code := by
          by_contra hne
          have hwithin : t.mode.Within fun k => k < n ∨ n < k :=
            step_mode_within (hmode.mono fun k hk => .inl hk) fun hcode => absurd hcode hne
          have := ((scanFrom_within hwithin t.depth _ fun k hk _ => .inr (by omega)).literals s hrest).1
          omega
        subst hcode
        exact ⟨[], c, rest, blank, d, rfl, heq, fun rest => rfl, by simp [blank], by simp [blank]⟩
      · have hwithin : t.mode.Within fun k => k ≤ n ∨ n + 1 + t.more ≤ k :=
          step_mode_within (hmode.mono fun k hk => .inl (by omega)) fun _ => .inl le_rfl
        have hbehind := ((scanFrom_within hwithin t.depth _ fun k hk _ => .inr hk).literals s hrest).1
        have hmode' : t.mode.Within (· < n + 1 + t.more) :=
          step_mode_within (hmode.mono fun k hk => by omega) fun _ => by omega
        obtain ⟨x, a, tail, o, d', hdrop, hplace, hleads⟩ := ih _ (by rw [← hlen]; simp) hmode' (by omega) hrest rfl
        refine ⟨c :: (rest.take t.more ++ x), a, tail, t.found ++ o, d', ?_, ?_, hleads.cons hmode hdrop⟩
        · rw [List.cons_append, List.append_assoc, ← hdrop, List.take_append_drop]
        · rw [hplace, List.length_cons, List.length_append,
            List.length_take_of_le (step_more_le_length mode n d c rest), ← ht]
          omega

/-- The whole text is scanned in code up to where a literal begins. -/
theorem exists_scan_of_mem {text : List Char} {s : Span} (h : s ∈ (scan text).literals) :
    ∃ o d, (∀ t ∈ o.literals, t.start < s.start ∧ t.stop ≤ s.start) ∧
      scan text = o ++ scanFrom .code s.start d (text.drop s.start) := by
  obtain ⟨x, c, rest, o, d, rfl, hplace, hleads⟩ :=
    exists_leads_of_start (show Mode.Within (· < 0) .code from trivial) (Nat.zero_le _) h
  obtain ⟨hscan, hliterals, -⟩ := hleads
  rw [← hplace] at hscan hliterals
  refine ⟨o, d, hliterals, ?_⟩
  rw [scan, hscan, hplace, Nat.zero_add, List.drop_left]

end Outline

namespace Json
open Text

/-! ### The end of a string -/

/-- Whether a backslash at the end of a text hides what comes next. A backslash hides one character, which may be
another backslash. -/
def hidesNext : List Char → Bool
  | [] => false
  | ['\\'] => true
  | '\\' :: _ :: text => hidesNext text
  | _ :: text => hidesNext text

theorem hidesNext_of_not_mem {text : List Char} (h : '\\' ∉ text) : hidesNext text = false := by
  induction text with
  | nil => rfl
  | cons c text ih =>
    obtain ⟨hc, htext⟩ := not_or.mp (mt List.mem_cons.mpr h)
    rw [hidesNext]
    · exact ih htext
    · rintro rfl
      exact absurd rfl hc
    · rintro d rest rfl
      exact absurd rfl hc

/-- A character that counts alone is no backslash. -/
theorem ne_backslash {c : Char} {text : List Char} (hlast : c = '\\' → text = [] → False)
    (hpair : ∀ d rest, c = '\\' → text = d :: rest → False) : c ≠ '\\' := by
  rintro rfl
  cases text with
  | nil => exact hlast rfl rfl
  | cons d rest => exact hpair d rest rfl rfl

theorem step_in_string {quote c : Char} (h : c ≠ quote ∧ c ≠ '\n') (hc : c ≠ '\\') (s n d : Nat)
    (next : Option Char) :
    Outline.step (.string quote s) n d c next = ⟨0, Outline.blank, .string quote s, d⟩ := by
  simp [Outline.step, hc, h]

/-- What can end a string: its quote, or a line feed. -/
def endsString (quote c : Char) : Bool := c == quote || c == '\n'

/-- A text that can end no string is a body, unless it hides what comes next. -/
theorem body_of_hidesNext {quote : Char} {text : List Char} (h : ∀ c ∈ text, c ≠ quote ∧ c ≠ '\n')
    (hends : hidesNext text = false) : Body (endsString quote) text := by
  induction text using hidesNext.induct with
  | case1 => exact .nil
  | case2 => cases hends
  | case3 c text ih => exact .hidden c (ih (fun d hd => h d (by simp [hd])) hends)
  | case4 c text hlast hpair ih =>
    have hends : hidesNext text = false := by
      rw [hidesNext] at hends
      · exact hends
      · exact hlast
      · exact hpair
    have hc := h c List.mem_cons_self
    exact .plain (by simp [endsString, hc]) (ne_backslash hlast hpair) (ih (fun d hd => h d (by simp [hd])) hends)

/-- **A string goes on over its body.** -/
theorem scanFrom_body {quote : Char} {body : List Char} (h : Body (endsString quote) body) (s n d : Nat)
    (rest : List Char) :
    Outline.scanFrom (.string quote s) n d (body ++ rest) =
      Outline.scanFrom (.string quote s) (n + body.length) d rest := by
  induction h generalizing n with
  | nil => rfl
  | @plain c body hend hslash _ ih =>
    have hc : c ≠ quote ∧ c ≠ '\n' := by simpa [endsString] using hend
    have hlen : n + (c :: body).length = n + 1 + body.length := by
      rw [List.length_cons]
      omega
    rw [List.cons_append, Outline.scanFrom_cons, step_in_string hc hslash, hlen, ← ih]
    rfl
  | @hidden c body _ ih =>
    have hlen : n + ('\\' :: c :: body).length = n + 2 + body.length := by
      simp only [List.length_cons]
      omega
    rw [hlen, ← ih]
    rfl

/-- A string goes on over text that neither ends it nor hides what comes next. -/
theorem scanFrom_in_string {quote : Char} {text : List Char} (h : ∀ c ∈ text, c ≠ quote ∧ c ≠ '\n')
    (hends : hidesNext text = false) (s n d : Nat) (rest : List Char) :
    Outline.scanFrom (.string quote s) n d (text ++ rest) =
      Outline.scanFrom (.string quote s) (n + text.length) d rest :=
  scanFrom_body (body_of_hidesNext h hends) s n d rest

/-- A string goes on behind text that hides what comes next, whatever that is. -/
theorem scanFrom_hidden {quote : Char} {text : List Char} (h : ∀ c ∈ text, c ≠ quote ∧ c ≠ '\n')
    (hends : hidesNext text = true) (s n d : Nat) (c : Char) (rest : List Char) :
    Outline.scanFrom (.string quote s) n d (text ++ c :: rest) =
      Outline.scanFrom (.string quote s) (n + text.length + 1) d rest := by
  induction text using hidesNext.induct generalizing n with
  | case1 => cases hends
  | case2 => rfl
  | case3 a text ih =>
    have hlen : n + ('\\' :: a :: text).length + 1 = n + 2 + text.length + 1 := by
      simp only [List.length_cons]
      omega
    rw [hlen]
    exact ih (fun b hb => h b (by simp [hb])) hends (n + 2)
  | case4 a text hlast hpair ih =>
    have hends : hidesNext text = true := by
      rw [hidesNext] at hends
      · exact hends
      · exact hlast
      · exact hpair
    have hlen : n + (a :: text).length + 1 = n + 1 + text.length + 1 := by
      rw [List.length_cons]
      omega
    rw [List.cons_append, Outline.scanFrom_cons, step_in_string (h a List.mem_cons_self) (ne_backslash hlast hpair),
      hlen]
    exact ih (fun b hb => h b (by simp [hb])) hends (n + 1)

/-- A string begins at a quote. -/
theorem scanFrom_opening {quote : Char} (h : isQuote quote = true) (n d : Nat) (rest : List Char) :
    Outline.scanFrom .code n d (quote :: rest) = Outline.scanFrom (.string quote n) (n + 1) d rest := by
  rw [Outline.scanFrom_cons]
  rcases isQuote_iff.mp h with rfl | rfl <;> rfl

/-- **A string ends at its quote**, behind its body. -/
theorem scanFrom_string {quote : Char} (hquote : isQuote quote = true) {body : List Char}
    (h : Body (endsString quote) body) (s n d : Nat) (rest : List Char) :
    Outline.scanFrom (.string quote s) n d (body ++ quote :: rest) =
      ⟨[⟨s, n + body.length + 1⟩], []⟩ ++ Outline.scanFrom .code (n + body.length + 1) d rest := by
  rw [scanFrom_body h, Outline.scanFrom_cons]
  rcases isQuote_iff.mp hquote with rfl | rfl <;> rfl

/-- A string is one literal. -/
theorem scanFrom_literal {quote : Char} (hquote : isQuote quote = true) {body : List Char}
    (h : Body (endsString quote) body) (n d : Nat) (rest : List Char) :
    Outline.scanFrom .code n d (quote :: body ++ [quote] ++ rest) =
      ⟨[⟨n, n + (quote :: body ++ [quote]).length⟩], []⟩ ++
        Outline.scanFrom .code (n + (quote :: body ++ [quote]).length) d rest := by
  have hlen : n + (quote :: body ++ [quote]).length = n + 1 + body.length + 1 := by
    simp only [List.length_append, List.length_cons, List.length_nil]
    omega
  rw [hlen, ← scanFrom_string hquote h, List.append_assoc, List.cons_append, scanFrom_opening hquote]
  rfl

/-- No literal begins in text that can end no string, nor at a quote behind it, whether that ends the string or not. -/
theorem scanFrom_key_within {quote closing : Char} (hquote : isQuote quote = true) (hclosing : isQuote closing = true)
    {key : List Char} (hkey : ∀ c ∈ key, c ≠ quote ∧ c ≠ '\n') (s n d : Nat) (rest : List Char) :
    (Outline.scanFrom (.string quote s) n d (key ++ closing :: rest)).Within fun k => k = s ∨ n + key.length < k := by
  have hbehind : ∀ {mode : Outline.Mode} {m}, mode = .code ∨ mode = .string quote s → n + key.length < m →
      ∀ rest, (Outline.scanFrom mode m d rest).Within fun k => k = s ∨ n + key.length < k := by
    intro mode m hmode hm rest
    refine Outline.scanFrom_within ?_ d rest fun k hk _ => .inr (by omega)
    rcases hmode with rfl | rfl
    · trivial
    · exact ⟨isQuote_iff.mp hquote, .inl rfl⟩
  induction key using hidesNext.induct generalizing n with
  | case1 =>
    obtain ⟨hslash, hfeed⟩ : closing ≠ '\\' ∧ closing ≠ '\n' := by
      rcases isQuote_iff.mp hclosing with rfl | rfl <;> decide
    rw [List.nil_append, Outline.scanFrom_cons]
    by_cases heq : closing = quote
    · have hstep : ∀ next, Outline.step (.string quote s) n d closing next = ⟨0, ⟨[⟨s, n + 1⟩], []⟩, .code, d⟩ := by
        intro next
        simp only [Outline.step, if_neg hslash, if_pos heq]
      rw [hstep]
      refine Outline.Within.append ⟨?_, by simp⟩ (hbehind (.inl rfl) (by simp) _)
      simp
    · rw [step_in_string ⟨heq, hfeed⟩ hslash]
      exact hbehind (.inr rfl) (by simp) _
  | case2 => exact hbehind (.inr rfl) (by simp) rest
  | case3 c key ih =>
    have hlen : n + ('\\' :: c :: key).length = n + 2 + key.length := by
      simp only [List.length_cons]
      omega
    simp only [hlen] at hbehind ⊢
    exact ih (fun d hd => hkey d (by simp [hd])) (n + 2) hbehind
  | case4 c key hlast hpair ih =>
    have hlen : n + (c :: key).length = n + 1 + key.length := by
      rw [List.length_cons]
      omega
    simp only [hlen] at hbehind ⊢
    rw [List.cons_append, Outline.scanFrom_cons,
      step_in_string (hkey c List.mem_cons_self) (ne_backslash hlast hpair)]
    exact ih (fun d hd => hkey d (by simp [hd])) (n + 1) hbehind

/-- **At the next quote no literal begins**, where one begins at a quote and nothing in between ends that. -/
theorem startsLiteral_closing {text key rest : List Char} {n : Nat} {opening closing : Char}
    (hstart : (Outline.scan text).startsLiteral n = true) (htext : text.drop n = opening :: (key ++ closing :: rest))
    (hopening : isQuote opening = true) (hclosing : isQuote closing = true)
    (hkey : ∀ c ∈ key, c ≠ opening ∧ c ≠ '\n') :
    (Outline.scan text).startsLiteral (n + 1 + key.length) = false := by
  obtain ⟨s, hs, hsn⟩ := List.any_eq_true.mp hstart
  obtain rfl : s.start = n := by simpa using hsn
  obtain ⟨o, d, ho, hscan⟩ := Outline.exists_scan_of_mem hs
  rw [hscan, htext, scanFrom_opening hopening]
  have hwithin := scanFrom_key_within hopening hclosing hkey s.start (s.start + 1) d rest
  refine List.any_eq_false.mpr fun t ht => ?_
  rcases List.mem_append.mp ht with ht | ht
  · have := ho t ht
    simp only [beq_iff_eq]
    omega
  · have := (hwithin.literals t ht).1
    simp only [beq_iff_eq]
    omega

/-! ### The end of a comment -/

/-- A line comment goes on to the next line feed. -/
theorem scanFrom_in_lineComment {text : List Char} (h : '\n' ∉ text) (s n d : Nat) (rest : List Char) :
    Outline.scanFrom (.lineComment s) n d (text ++ rest) =
      Outline.scanFrom (.lineComment s) (n + text.length) d rest := by
  induction text generalizing n with
  | nil => rfl
  | cons c text ih =>
    obtain ⟨hc, htext⟩ := not_or.mp (mt List.mem_cons.mpr h)
    have hlen : n + (c :: text).length = n + 1 + text.length := by
      rw [List.length_cons]
      omega
    have hstep : ∀ next, Outline.step (.lineComment s) n d c next = ⟨0, Outline.blank, .lineComment s, d⟩ := by
      intro next
      simp [Outline.step, Ne.symm hc]
    rw [List.cons_append, Outline.scanFrom_cons, hstep, hlen, ← ih htext]
    rfl

/-- A block comment goes on over text without slashes, unless an asterisk at its end could be the first half of the end
of the comment. -/
theorem scanFrom_in_blockComment {text : List Char} (h : '/' ∉ text) (hlast : text.getLast? ≠ some '*') (s n d : Nat)
    (rest : List Char) :
    Outline.scanFrom (.blockComment s) n d (text ++ rest) =
      Outline.scanFrom (.blockComment s) (n + text.length) d rest := by
  induction text generalizing n with
  | nil => rfl
  | cons c text ih =>
    obtain ⟨-, htext⟩ := not_or.mp (mt List.mem_cons.mpr h)
    have hlen : n + (c :: text).length = n + 1 + text.length := by
      rw [List.length_cons]
      omega
    have hstep : Outline.step (.blockComment s) n d c (text ++ rest).head? =
        ⟨0, Outline.blank, .blockComment s, d⟩ := by
      refine if_neg ?_
      rintro ⟨rfl, hnext⟩
      cases text with
      | nil => exact hlast rfl
      | cons a text =>
        cases hnext
        exact htext List.mem_cons_self
    have hlast' : text.getLast? ≠ some '*' := by
      cases text with
      | nil => simp
      | cons a text => rwa [List.getLast?_cons_cons] at hlast
    rw [List.cons_append, Outline.scanFrom_cons, hstep, hlen, ← ih htext hlast']
    rfl

end Json
end ManifestBump
