import ManifestBump.Proofs.Json.Strict
import ManifestBump.Proofs.Manifest.Edit

/-! Strings in strict JSON that were found, and set.

The outline takes a string for one literal (`StringMember.mem_literals`), whatever it escapes. A lookup that comes to
the member takes the value up to the first quote, whether a backslash hides it or not (`StringMember.value_eq`). So the
value is the whole string exactly if no quote is escaped in it, and setting it then exchanges the string for another
(`StringMember.value_of_resolves`). -/
namespace ManifestBump.Json
open Text

/-! ### Reading a key -/

/-- A key of given characters is read in one way only. -/
theorem written_inj {opening closing opening' closing' : Char}
    {key before behind before' behind' rest rest' : List Char}
    (hbefore : ∀ c ∈ before, isBlank c = true) (hbefore' : ∀ c ∈ before', isBlank c = true)
    (hbehind : ∀ c ∈ behind, isBlank c = true) (hbehind' : ∀ c ∈ behind', isBlank c = true)
    (hrest : Stops isBlank rest) (hrest' : Stops isBlank rest')
    (h : written opening key closing before behind ++ rest = written opening' key closing' before' behind' ++ rest') :
    before = before' ∧ behind = behind' ∧ rest = rest' := by
  simp only [written, List.cons_append, List.append_assoc, List.cons.injEq, List.append_cancel_left_eq] at h
  have hcolon : ∀ tail, Stops isBlank (':' :: tail) := fun tail => stops_cons_iff.mpr (by decide)
  obtain ⟨rfl, htail⟩ := cut_unique hbefore (hcolon _) hbefore' (hcolon _) h.2.2
  obtain ⟨rfl, rfl⟩ := cut_unique hbehind hrest hbehind' hrest' (List.cons.inj htail).2
  exact ⟨rfl, rfl, rfl⟩

/-! ### Members with strings -/

/-- A member of a strict document whose value is a string. -/
structure StringMember where
  front : List Char
  key : List Char
  gap : Space
  gap' : Space
  body : List Char
  back : List Char
  site : Site front back
  key_escaped : Escaped key
  body_escaped : Escaped body

namespace StringMember
variable (m : StringMember)

/-- The document up to the string, its opening quote included. -/
def lead : List Char := m.front ++ keyText m.key m.gap m.gap' ++ ['"']

/-- The document behind the string, its closing quote included. -/
def tail : List Char := '"' :: m.back

/-- The document. -/
def text : List Char := m.lead ++ m.body ++ m.tail

/-- The same member with another string. -/
def withBody (body : List Char) (h : Escaped body) : StringMember := { m with body := body, body_escaped := h }

/-- A path resolves to the member: the last key of the path is its key, and it is found there. -/
structure Resolves (path : KeyPath) (found : Occurrence) : Prop where
  leaf_eq : path.leaf.toList = m.key
  isFound : find? m.text path = some found
  start_eq : found.full.start = m.front.length

/-- **The document is strict**, whatever the string is. -/
theorem strictDocument : StrictDocument m.text := by
  have h := m.site.fill m.gap m.gap' m.key_escaped (.string m.body_escaped)
  simpa [text, lead, tail] using h

/-- **The string is one literal**, whatever it escapes. -/
theorem mem_literals : ⟨m.lead.length - 1, m.lead.length + m.body.length + 1⟩ ∈ (Outline.scan m.text).literals := by
  obtain ⟨depth, hfront⟩ := m.site.reached
  obtain ⟨found, hreaches⟩ := hfront.append (closed_keyText m.key_escaped m.gap m.gap')
  have hstring := Outline.closes_string m.body_escaped.body (m.front ++ keyText m.key m.gap m.gap').length depth
  have hscan := hreaches.scan (('"' :: m.body ++ ['"']) ++ m.back)
  rw [hstring.scan] at hscan
  have htext : m.text = m.front ++ keyText m.key m.gap m.gap' ++ (('"' :: m.body ++ ['"']) ++ m.back) := by
    simp [text, lead, tail]
  have hlen : m.lead.length = (m.front ++ keyText m.key m.gap m.gap').length + 1 := by
    rw [lead, List.length_append, List.length_singleton]
  rw [htext, hscan, hlen]
  refine List.mem_append_right _ (List.mem_append_left _ (List.mem_singleton.mpr ?_))
  simp only [Span.mk.injEq]
  omega

variable {m} {path : KeyPath} {found : Occurrence} (h : m.Resolves path found)
include h

/-- **The value goes up to the first quote**, hidden or not. -/
theorem value_eq : found.value = .behind m.lead (m.body.takeWhile (· != '"')) := by
  obtain ⟨opening, closing, before, behind, rest, more, inner, -, -, hbefore, hbehind, hstops, hinner, -, hdrop,
    hfound⟩ := exists_reading_of_find? h.isFound
  rw [h.start_eq, h.leaf_eq] at hdrop hfound
  have hmember : m.text.drop m.front.length =
      written '"' m.key '"' m.gap.text m.gap'.text ++ ('"' :: (m.body ++ '"' :: m.back)) := by
    simp [text, lead, tail, keyText, written]
  have hrest : rest ≠ [] := by
    rintro rfl
    cases hinner
  obtain ⟨rfl, rfl, hstring⟩ := written_inj hbefore m.gap.isBlank hbehind m.gap'.isBlank
    ((stops_append_iff hrest more).mpr hstops) (stops_cons_iff.mpr (by decide)) (hdrop.symm.trans hmember)
  -- The value is read behind a double quote, so up to the next one.
  obtain ⟨c, quoted, rfl⟩ := List.exists_cons_of_ne_nil hrest
  obtain ⟨rfl, -⟩ := List.cons.inj hstring
  obtain ⟨value, behind, hchars, rfl, rfl⟩ := quoted?_eq_some_iff.mp (show quoted? '"' quoted = some inner from hinner)
  have hunquoted : ∀ c ∈ value, (c != '"') = true := fun c hc => (Bool.and_eq_true_iff.mp (hchars c hc)).1
  have hvalue : value = m.body.takeWhile (· != '"') := by
    have htail : value ++ '"' :: (behind ++ more) = m.body ++ '"' :: m.back := by simpa using hstring
    have hrun := congrArg (List.takeWhile (· != '"')) htail
    rwa [takeWhile_append hunquoted (stops_cons_iff.mpr (by decide)), takeWhile_append_cons (by decide)] at hrun
  rw [hfound, ← hvalue]
  simp [Slot.occurrence, Slot.behind, Span.behind, lead, keyText, written]

/-- The value is the whole string exactly if there is no quote in it. -/
theorem value_whole_iff : found.value = .behind m.lead m.body ↔ '"' ∉ m.body := by
  rw [value_eq h]
  constructor
  · intro heq hmem
    have hlen : (m.body.takeWhile (· != '"')).length = m.body.length := by
      have := congrArg Span.stop heq
      simp only [Span.behind] at this
      omega
    have hfront : m.body.takeWhile (· != '"') <+: m.body := List.takeWhile_prefix _
    have hwhole := hfront.eq_of_length hlen
    exact absurd (List.takeWhile_eq_self_iff.mp hwhole _ hmem) (by decide)
  · intro hmem
    rw [List.takeWhile_eq_self_iff.mpr fun c hc => bne_iff_ne.mpr (ne_of_mem_of_not_mem hc hmem)]

variable {key value : String} (hpath : KeyPath.parse key = .ok path) (hvalue : Manifest.checkValue value = .ok ())
include hpath hvalue

/-- What is set takes the place of the string up to its first quote. -/
theorem set_eq : (Manifest.mk (String.ofList m.text) .json).set key value =
    .ok ⟨String.ofList (m.lead ++ value.toList ++ (m.body.dropWhile (· != '"') ++ m.tail)), .json⟩ := by
  refine Manifest.set_eq_ok_iff.mpr ⟨path, found, hpath, hvalue, ?_, ?_⟩
  · rw [String.toList_ofList]
    exact h.isFound
  · have hcut : m.text = m.lead ++ m.body.takeWhile (· != '"') ++ (m.body.dropWhile (· != '"') ++ m.tail) := by
      rw [List.append_assoc, ← List.append_assoc _ _ m.tail, List.takeWhile_append_dropWhile, text, List.append_assoc]
    rw [String.toList_ofList, value_eq h, hcut, Span.splice_behind]

omit h hpath in
/-- A value that can be set is a string without escapes, if it holds no backslash and no control character. -/
theorem escaped_of_checkValue (hchars : ∀ c ∈ value.toList, c ≠ '\\' ∧ 0x20 ≤ c.toNat) : Escaped value.toList := by
  have hquotes := Manifest.checkValue_eq_ok_iff.mp hvalue
  exact escaped_of_plain fun c hc => ⟨(hquotes c hc).2.1, hchars c hc⟩

omit hpath hvalue

/-- **A string that was found is the whole string exactly if no quote is escaped in it.** The outline takes it for one
literal in any case, but the value ends at the first quote. If there is none, a value without backslashes and control
characters takes the place of the whole string, and the document is strict as before. -/
theorem value_of_resolves : ⟨m.lead.length - 1, m.lead.length + m.body.length + 1⟩ ∈ (Outline.scan m.text).literals ∧
    found.value = .behind m.lead (m.body.takeWhile (· != '"')) ∧
    (found.value = .behind m.lead m.body ↔ '"' ∉ m.body) ∧
    ('"' ∉ m.body → ∀ key value, KeyPath.parse key = .ok path → Manifest.checkValue value = .ok () →
      (∀ c ∈ value.toList, c ≠ '\\' ∧ 0x20 ≤ c.toNat) → ∃ hescaped : Escaped value.toList,
        (Manifest.mk (String.ofList m.text) .json).set key value =
          .ok ⟨String.ofList (m.withBody value.toList hescaped).text, .json⟩ ∧
        StrictDocument (m.withBody value.toList hescaped).text) := by
  refine ⟨m.mem_literals, value_eq h, value_whole_iff h, fun hmem key value hpath hvalue hchars => ?_⟩
  have hescaped := escaped_of_checkValue hvalue hchars
  have hnone : m.body.dropWhile (· != '"') = [] :=
    List.dropWhile_eq_nil_iff.mpr fun c hc => bne_iff_ne.mpr (ne_of_mem_of_not_mem hc hmem)
  refine ⟨hescaped, ?_, (m.withBody _ hescaped).strictDocument⟩
  rw [set_eq h hpath hvalue, hnone, List.nil_append]
  rfl

end StringMember

/-- A document with one string, in which a quote is escaped. -/
def escapedQuote : StringMember where
  front := ['\x7b']
  key := ['a']
  gap := tight
  gap' := tight
  body := ['x', '\\', '"', 'y']
  back := ['\x7d']
  site := ⟨tight, tight, [], [], .here tight tight, rfl, rfl⟩
  key_escaped := .plain (by decide) .nil
  body_escaped := .plain (by decide) (.short (by decide) (.plain (by decide) .nil))

/-- The same with an escape that is no quote. -/
def escapedTab : StringMember :=
  escapedQuote.withBody ['x', '\\', 't', 'y'] (.plain (by decide) (.short (by decide) (.plain (by decide) .nil)))

theorem StringMember.value_of_resolves_tab :
    escapedTab.Resolves ⟨[], "a"⟩ ⟨⟨1, 11⟩, ⟨6, 10⟩⟩ ∧
      ⟨escapedTab.lead.length - 1, escapedTab.lead.length + escapedTab.body.length + 1⟩ ∈
        (Outline.scan escapedTab.text).literals ∧
      ⟨6, 10⟩ = Span.behind escapedTab.lead (escapedTab.body.takeWhile (· != '"')) ∧
      (⟨6, 10⟩ = Span.behind escapedTab.lead escapedTab.body ↔ '"' ∉ escapedTab.body) ∧
      ('"' ∉ escapedTab.body → ∀ key value, KeyPath.parse key = .ok ⟨[], "a"⟩ → Manifest.checkValue value = .ok () →
        (∀ c ∈ value.toList, c ≠ '\\' ∧ 0x20 ≤ c.toNat) → ∃ hescaped : Escaped value.toList,
          (Manifest.mk (String.ofList escapedTab.text) .json).set key value =
            .ok ⟨String.ofList (escapedTab.withBody value.toList hescaped).text, .json⟩ ∧
          StrictDocument (escapedTab.withBody value.toList hescaped).text) := by
  have hresolves : escapedTab.Resolves ⟨[], "a"⟩ ⟨⟨1, 11⟩, ⟨6, 10⟩⟩ := ⟨by decide, by decide +kernel, by decide⟩
  exact ⟨hresolves, StringMember.value_of_resolves hresolves⟩

/-- **An escaped quote ends the value**, so setting it leaves the rest of the string behind, and the document is not
strict any more. -/
theorem StringMember.value_of_escapedQuote :
    ∃ found edited, escapedQuote.Resolves ⟨[], "a"⟩ found ∧ found.value ≠ .behind escapedQuote.lead escapedQuote.body ∧
      (Manifest.mk (String.ofList escapedQuote.text) .json).set "a" "z" = .ok edited ∧
      ¬StrictDocument edited.content.toList := by
  have hresolves : escapedQuote.Resolves ⟨[], "a"⟩ ⟨⟨1, 9⟩, ⟨6, 8⟩⟩ := ⟨by decide, by decide +kernel, by decide⟩
  refine ⟨_, _, hresolves, by decide, StringMember.set_eq hresolves (by decide +kernel) (by decide +kernel), ?_⟩
  -- The last quote opens a string that goes on behind the document, so a brace there is none.
  intro hstrict
  have htext : escapedQuote.lead ++ "z".toList ++ (escapedQuote.body.dropWhile (· != '"') ++ escapedQuote.tail) =
      "\x7b\"a\":\"z\"y\"\x7d".toList := by decide +kernel
  rw [String.toList_ofList, htext] at hstrict
  obtain ⟨found, hfound⟩ := hstrict.closed 0 0
  have hbrace : (⟨11, 1⟩ : Outline.Brace) ∈
      (Outline.scanFrom .code 0 0 ("\x7b\"a\":\"z\"y\"\x7d".toList ++ ['\x7b'])).braces := by
    rw [hfound.scan]
    exact List.mem_append_right _ (by decide +kernel)
  exact absurd hbrace (by decide +kernel)

end ManifestBump.Json
