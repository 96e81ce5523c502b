import ManifestBump.Proofs.Version.Exchange
import ManifestBump.Template

/-! Templates are filled in at once.

A template is read from the left as characters and marks (`Template.pieces`), and filling it in gives every mark its
value and leaves all else (`Template.fill`). The message is made in two rounds, and the second one could meet marks
that the first one has put together, as in a template whose marks lie in each other. Versions prevent this: they have
no braces, and a digit that no mark has. So a round that fills in a version leaves all other marks where they are
and makes none (`Template.pieces_fill`). -/
namespace ManifestBump

namespace Text
variable {needle new text rest : List Char} {c : Char}

/-! ### Replacing -/

theorem replaceAll_go (skip : Nat) (text : List Char) :
    replaceAll.go needle new skip text = replaceAll needle new (text.drop skip) := by
  induction skip generalizing text with
  | zero => rfl
  | succ skip ih =>
    cases text with
    | nil => rfl
    | cons c text => exact ih text

theorem replaceAll_cons (h : ¬needle <+: c :: rest) :
    replaceAll needle new (c :: rest) = c :: replaceAll needle new rest := by
  rw [← List.isPrefixOf_iff_prefix] at h
  rw [replaceAll, replaceAll.go, if_neg h]
  rfl

theorem replaceAll_append (h : needle ≠ []) :
    replaceAll needle new (needle ++ rest) = new ++ replaceAll needle new rest := by
  have hprefix : needle.isPrefixOf (needle ++ rest) = true := by simp
  cases needle with
  | nil => exact absurd rfl h
  | cons a needle =>
    rw [List.cons_append] at hprefix ⊢
    rw [replaceAll, replaceAll.go, if_pos hprefix, replaceAll_go]
    simp

end Text

namespace Template
open Text

/-! ### Reading templates -/

/-- What a template leaves open. -/
inductive Mark where
  | old
  | new
deriving DecidableEq, Repr

/-- What stands between the braces of a mark. -/
def Mark.name : Mark → List Char
  | .old => ['o', 'l', 'd']
  | .new => ['n', 'e', 'w']

/-- The mark as it is written. -/
def Mark.text (m : Mark) : List Char := '\x7b' :: m.name ++ ['\x7d']

theorem Mark.text_ne_nil (m : Mark) : m.text ≠ [] := List.cons_ne_nil _ _

/-- A part of a template: a mark, or a character that belongs to none. -/
inductive Piece where
  | char (c : Char)
  | mark (m : Mark)
deriving DecidableEq, Repr

/-- The parts of a template, read once from the left. -/
def pieces : List Char → List Piece
  | '\x7b' :: 'o' :: 'l' :: 'd' :: '\x7d' :: rest => .mark .old :: pieces rest
  | '\x7b' :: 'n' :: 'e' :: 'w' :: '\x7d' :: rest => .mark .new :: pieces rest
  | c :: rest => .char c :: pieces rest
  | [] => []

/-- What a part becomes when marks have values. -/
def Piece.filled (value : Mark → List Char) : Piece → List Char
  | .char c => [c]
  | .mark m => value m

/-- A template in which every mark has become its value, and nothing else has changed. -/
def fill (value : Mark → List Char) (template : List Char) : List Char :=
  (pieces template).flatMap (Piece.filled value)

theorem pieces_mark (m : Mark) (rest : List Char) : pieces (m.text ++ rest) = .mark m :: pieces rest := by
  cases m <;> rfl

theorem pieces_cons {c : Char} {rest : List Char} (h : ∀ m : Mark, ¬m.text <+: c :: rest) :
    pieces (c :: rest) = .char c :: pieces rest := by
  refine pieces.eq_3 c rest ?_ ?_
  · intro more hc hrest
    apply h .old
    rw [hc, hrest]
    exact List.prefix_append Mark.old.text more
  · intro more hc hrest
    apply h .new
    rw [hc, hrest]
    exact List.prefix_append Mark.new.text more

/-- A text is read as it is made of marks and other characters. -/
@[elab_as_elim]
theorem reading {motive : List Char → Prop} (nil : motive [])
    (mark : ∀ (m : Mark) rest, motive rest → motive (m.text ++ rest))
    (char : ∀ c rest, (∀ m : Mark, ¬m.text <+: c :: rest) → motive rest → motive (c :: rest)) (text : List Char) :
    motive text := by
  induction text using pieces.induct with
  | case1 rest ih => exact mark .old rest ih
  | case2 rest ih => exact mark .new rest ih
  | case3 c rest hold hnew ih =>
    refine char c rest (fun m hm => ?_) ih
    obtain ⟨more, hmore⟩ := hm
    cases m with
    | old => exact hold more (List.cons.inj hmore).1.symm (List.cons.inj hmore).2.symm
    | new => exact hnew more (List.cons.inj hmore).1.symm (List.cons.inj hmore).2.symm
  | case4 => exact nil

variable {value : Mark → List Char} {text rest : List Char}

theorem fill_nil : fill value [] = [] := rfl

theorem fill_mark (m : Mark) (rest : List Char) : fill value (m.text ++ rest) = value m ++ fill value rest := by
  rw [fill, pieces_mark, List.flatMap_cons]
  rfl

theorem fill_cons {c : Char} (h : ∀ m : Mark, ¬m.text <+: c :: rest) :
    fill value (c :: rest) = c :: fill value rest := by
  rw [fill, pieces_cons h, List.flatMap_cons]
  rfl

/-! ### Texts that stay apart -/

/-- What has a foreign character in it is part of a beginning only up to there. -/
theorem prefix_of_append_cons {α : Type} {part front behind : List α} {a : α} (ha : a ∉ part)
    (h : part <+: front ++ a :: behind) : part <+: front := by
  have hfront : front <+: front ++ a :: behind := List.prefix_append front (a :: behind)
  have hlonger : front ++ [a] <+: front ++ a :: behind := ⟨behind, by simp⟩
  by_cases hlen : part.length ≤ front.length
  · exact List.prefix_of_prefix_length_le h hfront hlen
  · have hpart : front ++ [a] <+: part := List.prefix_of_prefix_length_le hlonger h (by simp; omega)
    exact absurd (hpart.subset (by simp)) ha

/-- A text that is read as it stands, whatever is in front of it and behind it: a mark that begins in front does not
end in it or behind it. -/
structure Apart (text : List Char) : Prop where
  alone : ∀ rest, pieces (text ++ rest) = pieces text ++ pieces rest
  bars : ∃ front c behind, text = front ++ c :: behind ∧ '\x7d' ∉ front ∧ ∀ m : Mark, c ∉ m.name ++ ['\x7d']

theorem apart_mark (m : Mark) : Apart m.text where
  alone rest := by
    have hself : pieces m.text = [.mark m] := by cases m <;> rfl
    rw [pieces_mark, hself]
    rfl
  bars := ⟨[], '\x7b', m.name ++ ['\x7d'], rfl, List.not_mem_nil, fun m => by cases m <;> decide⟩

/-- Without braces, a text has no marks. -/
theorem pieces_append_of_notMem (h : '\x7b' ∉ text) (rest : List Char) :
    pieces (text ++ rest) = text.map .char ++ pieces rest := by
  induction text with
  | nil => rfl
  | cons c text ih =>
    have hc : c ≠ '\x7b' := fun heq => h (heq ▸ List.mem_cons_self)
    have hno : ∀ m : Mark, ¬m.text <+: c :: (text ++ rest) := fun m hm => hc (List.cons_prefix_cons.mp hm).1.symm
    rw [List.cons_append, pieces_cons hno, ih fun hmem => h (List.mem_cons_of_mem c hmem)]
    rfl

theorem pieces_of_notMem (h : '\x7b' ∉ text) : pieces text = text.map .char := by
  have hnil := pieces_append_of_notMem h []
  rwa [List.append_nil, pieces, List.append_nil] at hnil

/-- What a mark ends with is not put together by filling in. -/
theorem prefix_of_prefix_fill (hvalue : ∀ m, Apart (value m)) {m : Mark} {part : List Char}
    (hpart : part <:+ m.name ++ ['\x7d']) (h : part <+: fill value text) : part <+: text := by
  induction text using reading generalizing part with
  | nil => exact h
  | mark k rest _ =>
    obtain ⟨front, c, behind, hk, hfront, hc⟩ := (hvalue k).bars
    rw [fill_mark, hk, List.append_assoc, List.cons_append] at h
    have hinside : part <+: front := prefix_of_append_cons (fun hmem => hc m (hpart.subset hmem)) h
    have hnil : part = [] := by
      by_contra hne
      have hlast : part.getLast hne = '\x7d' := by rw [hpart.getLast hne]; simp
      exact hfront (hinside.subset (hlast ▸ List.getLast_mem hne))
    rw [hnil]
    exact List.nil_prefix
  | char c rest hno ih =>
    rw [fill_cons hno] at h
    cases part with
    | nil => exact List.nil_prefix
    | cons a part =>
      have hsplit := List.cons_prefix_cons.mp h
      exact List.cons_prefix_cons.mpr ⟨hsplit.1, ih ((List.suffix_cons a part).trans hpart) hsplit.2⟩

/-- **Filling in makes no marks and takes none apart**: what is read afterwards is what was read before, with the
values read by themselves. -/
theorem pieces_fill (hvalue : ∀ m, Apart (value m)) (template : List Char) :
    pieces (fill value template) = (pieces template).flatMap fun
      | .char c => [.char c]
      | .mark m => pieces (value m) := by
  induction template using reading with
  | nil => rfl
  | mark m rest ih => rw [fill_mark, (hvalue m).alone, ih, pieces_mark, List.flatMap_cons]
  | char c rest hno ih =>
    have hfilled : ∀ m : Mark, ¬m.text <+: c :: fill value rest := by
      intro m hm
      have hend := List.cons_prefix_cons.mp hm
      have hrest : m.name ++ ['\x7d'] <+: rest := prefix_of_prefix_fill hvalue List.suffix_rfl hend.2
      exact hno m (List.cons_prefix_cons.mpr ⟨hend.1, hrest⟩)
    rw [fill_cons hno, pieces_cons hfilled, ih, pieces_cons hno, List.flatMap_cons]
    rfl

/-- Filling in twice is filling in once, with values that are filled in themselves. -/
theorem fill_fill {later : Mark → List Char} (hvalue : ∀ m, Apart (value m)) (template : List Char) :
    fill later (fill value template) = fill (fun m => fill later (value m)) template := by
  rw [fill, pieces_fill hvalue, List.flatMap_assoc, fill]
  congr 1
  funext piece
  cases piece <;> simp [Piece.filled, fill]

/-! ### Rounds -/

/-- One round: one of the marks has a value, and the other one stays. -/
def only (m : Mark) (text : List Char) : Mark → List Char := fun k => if k = m then text else k.text

/-- **A round fills in one mark.** -/
theorem replaceAll_mark (m : Mark) (text template : List Char) :
    replaceAll m.text text template = fill (only m text) template := by
  induction template using reading with
  | nil => rfl
  | mark k rest ih =>
    by_cases hk : k = m
    · rw [hk, fill_mark, replaceAll_append m.text_ne_nil, ih, only, if_pos rfl]
    · rw [fill_mark, ← ih, only, if_neg hk]
      cases k <;> cases m <;> first | exact absurd rfl hk | simp [replaceAll, replaceAll.go, Mark.text, Mark.name]
  | char c rest hno ih => rw [replaceAll_cons (hno m), ih, fill_cons hno]

theorem apart_only {m : Mark} (h : Apart text) (k : Mark) : Apart (only m text k) := by
  unfold only
  split
  · exact h
  · exact apart_mark k

/-! ### Versions -/

/-- A text without braces that has a digit. -/
structure Plain (text : List Char) : Prop where
  opening : '\x7b' ∉ text
  closing : '\x7d' ∉ text
  digit : ∃ c ∈ text, c.isDigit = true

theorem Plain.apart (h : Plain text) : Apart text where
  alone rest := by rw [pieces_append_of_notMem h.opening, pieces_of_notMem h.opening]
  bars := by
    obtain ⟨c, hc, hdigit⟩ := h.digit
    obtain ⟨front, behind, rfl⟩ := List.append_of_mem hc
    refine ⟨front, c, behind, rfl, fun hmem => h.closing (List.mem_append_left _ hmem), fun m hmem => ?_⟩
    have hname : (m.name ++ ['\x7d']).all (!·.isDigit) = true := by cases m <;> rfl
    have hno := List.all_eq_true.mp hname c hmem
    rw [hdigit] at hno
    cases hno

/-- A round leaves a plain text alone. -/
theorem Plain.fill (h : Plain text) : fill value text = text := by
  rw [Template.fill, pieces_of_notMem h.opening, List.flatMap_map]
  exact List.flatMap_singleton' text

/-- What reads as a release is plain. -/
theorem plain_of_parse {text : String} {r : Release} (h : Release.parse text = .ok r) : Plain text.toList := by
  have hwritten := Release.written_of_parse h
  have hforeign : ∀ {d : Char}, isVersionChar d = false → d ∉ text.toList :=
    fun hd hmem => ne_of_isVersionChar (hwritten.chars _ hmem) hd rfl
  obtain ⟨body, htext, hbody⟩ := Release.spelled_of_parse h
  obtain ⟨d, rest, hrest, hdigit⟩ := Release.exists_digit_of_spelled hbody
  refine ⟨hforeign (by decide), hforeign (by decide), d, ?_, hdigit⟩
  rw [htext, hrest]
  simp

/-- The values of both marks. -/
def values (old new : List Char) : Mark → List Char
  | .old => old
  | .new => new

/-- Two rounds, one for each mark, are one. -/
theorem fill_only_only {m k : Mark} {x y : List Char} (hk : k ≠ m) (hx : Plain x) (template : List Char) :
    fill (only k y) (fill (only m x) template) = fill (fun l => if l = m then x else y) template := by
  rw [fill_fill (apart_only hx.apart)]
  congr 1
  funext l
  by_cases hl : l = m
  · rw [hl, only, if_pos rfl, if_pos rfl, hx.fill]
  · have hlk : l = k := by cases l <;> cases m <;> cases k <;> first | rfl | exact absurd rfl hl | exact absurd rfl hk
    have hfill : fill (only k y) k.text = only k y k := by
      rw [← List.append_nil k.text, fill_mark, fill_nil, List.append_nil]
    rw [only, if_neg hl, if_neg hl, hlk, hfill, only, if_pos rfl]

variable {old new : List Char}

theorem replaceAll_old_new (hold : Plain old) (template : List Char) :
    replaceAll newMark new (replaceAll oldMark old template) = fill (values old new) template := by
  show replaceAll Mark.new.text new (replaceAll Mark.old.text old template) = _
  rw [replaceAll_mark, replaceAll_mark, fill_only_only (by decide) hold]
  congr 1
  funext m
  cases m <;> rfl

theorem replaceAll_new_old (hnew : Plain new) (template : List Char) :
    replaceAll oldMark old (replaceAll newMark new template) = fill (values old new) template := by
  show replaceAll Mark.old.text old (replaceAll Mark.new.text new template) = _
  rw [replaceAll_mark, replaceAll_mark, fill_only_only (by decide) hnew]
  congr 1
  funext m
  cases m <;> rfl

/-! ### Messages -/

/-- An opening brace is where reading begins anew. -/
theorem pieces_append_brace (text behind : List Char) :
    pieces (text ++ '\x7b' :: behind) = pieces text ++ pieces ('\x7b' :: behind) := by
  induction text using reading with
  | nil => rfl
  | mark m rest ih => rw [List.append_assoc, pieces_mark, ih, pieces_mark, List.cons_append]
  | char c rest hno ih =>
    have hbehind : ∀ m : Mark, ¬m.text <+: c :: (rest ++ '\x7b' :: behind) := by
      intro m hm
      have hend := List.cons_prefix_cons.mp hm
      have hforeign : '\x7b' ∉ m.name ++ ['\x7d'] := by cases m <;> decide
      exact hno m (List.cons_prefix_cons.mpr ⟨hend.1, prefix_of_append_cons hforeign hend.2⟩)
    rw [List.cons_append, pieces_cons hbehind, ih, pieces_cons hno, List.cons_append]

/-- A mark anywhere in a text is one of its parts. -/
theorem mem_pieces_of_infix {m : Mark} (h : m.text <:+: text) : .mark m ∈ pieces text := by
  obtain ⟨front, behind, rfl⟩ := h
  have hcut : pieces (front ++ m.text ++ behind) = pieces front ++ pieces (m.text ++ behind) := by
    rw [List.append_assoc]
    exact pieces_append_brace front (m.name ++ ['\x7d'] ++ behind)
  rw [hcut, pieces_mark]
  simp

/-- Where all marks are filled in with plain texts, none is left. -/
theorem not_infix_fill (hold : Plain old) (hnew : Plain new) (m : Mark) (template : List Char) :
    ¬m.text <:+: fill (values old new) template := by
  intro hm
  have hplain : ∀ k, Plain (values old new k) := fun k => by cases k <;> assumption
  have hmem := mem_pieces_of_infix hm
  rw [pieces_fill fun k => (hplain k).apart] at hmem
  simp only [List.mem_flatMap] at hmem
  obtain ⟨piece, -, hpiece⟩ := hmem
  cases piece with
  | char c => simp at hpiece
  | mark k =>
    change Piece.mark m ∈ pieces (values old new k) at hpiece
    rw [pieces_of_notMem (hplain k).opening] at hpiece
    simp at hpiece

/-- **A message is its template with all marks filled in at once**: nothing is left of the marks, and versions put
none together, whichever is filled in first. -/
theorem render_at_once {old new : String} {r r' : Release} (hold : Release.parse old = .ok r)
    (hnew : Release.parse new = .ok r') (template : String) :
    (render template old new).toList = fill (values old.toList new.toList) template.toList ∧
      (∀ m : Mark, ¬m.text <:+: (render template old new).toList) ∧
      replaceAll oldMark old.toList (replaceAll newMark new.toList template.toList) =
        (render template old new).toList := by
  have hplain := plain_of_parse hold
  have hplain' := plain_of_parse hnew
  have hrender : (render template old new).toList = fill (values old.toList new.toList) template.toList := by
    rw [render, String.toList_ofList, replaceAll_old_new hplain]
  refine ⟨hrender, fun m => ?_, ?_⟩
  · rw [hrender]
    exact not_infix_fill hplain hplain' m template.toList
  · rw [hrender, replaceAll_new_old hplain']

/-- A mark inside of a mark stays what it is, and so does the outer one. -/
theorem render_at_once_nested :
    render "\x7bne\x7bold\x7dw\x7d: \x7bold\x7d\x7bnew\x7d" "v1.0" "v1.1.0" =
      "\x7bnev1.0w\x7d: v1.0v1.1.0" := by
  have hold : Release.parse "v1.0" = .ok ⟨.plain 1 0 0, true⟩ := by decide +kernel
  have hnew : Release.parse "v1.1.0" = .ok ⟨.plain 1 1 0, true⟩ := by decide +kernel
  obtain ⟨hfill, -, -⟩ := render_at_once hold hnew "\x7bne\x7bold\x7dw\x7d: \x7bold\x7d\x7bnew\x7d"
  rw [← String.toList_inj, hfill]
  decide

end Template
end ManifestBump
