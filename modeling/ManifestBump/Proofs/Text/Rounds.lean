import ManifestBump.Proofs.Text.Bytes

/-! Searches that note what they do.

A search goes in rounds: it looks for the first place from an offset on where something stands, and what stands there
is judged; if it is not what was looked for, the next round begins further on (`rounds`). Offsets are in bytes, every
cut is checked, and so is that a round gets on: a search has an outcome only if it comes to an end and none of its cuts
fails. On its way it notes the stretches it enters, where its rounds begin, and what it finds. If what is
judged at a place is what an attempt there comes to, the search comes to the answer of the search in characters, and all
it has noted is in order (`answers_rounds`). -/
namespace ManifestBump.Text
variable {α β γ : Type}

/-! ### What is noted -/

/-- What a search notes, in bytes. -/
inductive Note where
  /-- A stretch of the text is looked through, inside of another one. -/
  | entered (outer scope : Span)
  /-- A round begins, in a text of some size. -/
  | started (start size : Nat)
  /-- The round behind the one that began at `start` is to begin at `next`, in a text of some size. -/
  | resumed (start next size : Nat)
  | found (place : Occurrence)
deriving DecidableEq

/-- What was noted is in order: a stretch lies inside of the outer one and that inside of the text, a round begins no
later than its text ends, the next one begins further on, no later than that and not inside of a character, and a value
lies inside of what was matched for it. -/
def Note.Sound (text : List Char) : Note → Prop
  | .entered outer scope =>
    outer.start ≤ scope.start ∧ scope.start ≤ scope.stop ∧ scope.stop ≤ outer.stop ∧ outer.stop ≤ byteSize text
  | .started start size => start ≤ size ∧ size ≤ byteSize text
  | .resumed start next size =>
    start < next ∧ next ≤ size ∧ size ≤ byteSize text ∧ String.Pos.Raw.IsValid (String.ofList text) ⟨next⟩
  | .found place =>
    place.full.start ≤ place.value.start ∧ place.value.start ≤ place.value.stop ∧
      place.value.stop ≤ place.full.stop ∧ place.full.stop ≤ byteSize text

/-- A stretch lies inside of another one, and that inside of the text. -/
structure Nested (text : List Char) (outer scope : Span) : Prop where
  start_le : outer.start ≤ scope.start
  ordered : scope.start ≤ scope.stop
  stop_le : scope.stop ≤ outer.stop
  inside : outer.stop ≤ text.length

theorem nested_all (text : List Char) : Nested text (Span.all text) (Span.all text) :=
  ⟨le_rfl, Nat.zero_le _, le_rfl, le_rfl⟩

/-- Steps that can fail, and note what they do. -/
abbrev Noting := StateT (List Note) Option

def note (n : Note) : Noting Unit := modify (· ++ [n])

/-- The steps come to `a`, and all they note is of one kind. -/
def ComesTo (P : Note → Prop) (steps : Noting α) (a : α) : Prop :=
  ∀ log, ∃ more, steps.run log = some (a, log ++ more) ∧ ∀ e ∈ more, P e

section ComesTo
variable {P : Note → Prop} {a : α} {b : β}

theorem ComesTo.pure (a : α) : ComesTo P (pure a) a := fun log => ⟨[], by simp, by simp⟩

theorem ComesTo.note {n : Note} (h : P n) : ComesTo P (note n) () := fun _ => ⟨[n], rfl, by simpa using h⟩

theorem ComesTo.lift {x : Option α} (h : x = some a) : ComesTo P (liftM x : Noting α) a := by
  subst h
  exact fun log => ⟨[], by simp, by simp⟩

theorem ComesTo.bind {steps : Noting α} {next : α → Noting β} (h : ComesTo P steps a) (hnext : ComesTo P (next a) b) :
    ComesTo P (steps >>= next) b := by
  intro log
  obtain ⟨more, hrun, hmore⟩ := h log
  obtain ⟨rest, hrest, hall⟩ := hnext (log ++ more)
  refine ⟨more ++ rest, ?_, fun e he => (List.mem_append.mp he).elim (hmore e) (hall e)⟩
  rw [StateT.run_bind, hrun, ← List.append_assoc]
  exact hrest

end ComesTo

/-- If the steps come to anything, all they note is of one kind. -/
def NotesOnly (P : Note → Prop) (steps : Noting α) : Prop :=
  ∀ log a later, steps.run log = some (a, later) → ∃ more, later = log ++ more ∧ ∀ e ∈ more, P e

section NotesOnly
variable {P : Note → Prop} {steps : Noting α} {next : α → Noting β}

theorem NotesOnly.pure (a : α) : NotesOnly P (pure a) := by
  intro log b later h
  obtain ⟨-, rfl⟩ : a = b ∧ log = later := by simpa using h
  exact ⟨[], by simp, by simp⟩

theorem NotesOnly.note {n : Note} (h : P n) : NotesOnly P (note n) := by
  intro log b later hrun
  cases hrun
  exact ⟨[n], rfl, by simpa using h⟩

theorem NotesOnly.bind (h : NotesOnly P steps) (hnext : ∀ a, NotesOnly P (next a)) : NotesOnly P (steps >>= next) := by
  intro log b later hrun
  rw [StateT.run_bind] at hrun
  obtain ⟨⟨a, middle⟩, hsteps, hrest⟩ := Option.bind_eq_some_iff.mp hrun
  obtain ⟨more, rfl, hmore⟩ := h log a middle hsteps
  obtain ⟨rest, rfl, hall⟩ := hnext a _ b later hrest
  exact ⟨more ++ rest, by rw [List.append_assoc], fun e he => (List.mem_append.mp he).elim (hmore e) (hall e)⟩

/-- Behind a step that can fail, what it comes to is known. -/
theorem NotesOnly.lift {x : Option α} (hnext : ∀ a, x = some a → NotesOnly P (next a)) :
    NotesOnly P (liftM x >>= next) := by
  cases x with
  | none =>
    intro log b later hrun
    cases hrun
  | some a => exact hnext a rfl

end NotesOnly

/-! ### Rounds -/

/-- What a round comes to when something stands at its place. -/
inductive Round where
  /-- The search ends here. -/
  | found (place : Occurrence)
  /-- The search goes on from another byte offset. -/
  | again (next : Nat)

/-- The first place of a text where something stands. The text begins at a byte offset, behind the character `last`. -/
def firstFrom? (look : Cursor → Option γ) : (offset : Nat) → (last : Option Char) → List Char → Option (Cursor × γ)
  | offset, last, [] => (look ⟨offset, last, []⟩).map fun seen => (⟨offset, last, []⟩, seen)
  | offset, last, c :: rest =>
    match look ⟨offset, last, c :: rest⟩ with
    | some seen => some (⟨offset, last, c :: rest⟩, seen)
    | none => firstFrom? look (offset + c.utf8Size) (some c) rest

/-- The first place from the byte offset `start` on where something stands. -/
def first? (look : Cursor → Option γ) (haystack : List Char) (start : Nat) : Option (Option (Cursor × γ)) := do
  let (front, rest) ← cut? haystack start
  return firstFrom? look start front.getLast? rest

/-- Round after round, from the byte offset `start` on. Where a round would begin no further on than the last one, they
would go on for ever, and there is no outcome. -/
def rounds (look : Cursor → Option γ) (judge : Cursor → γ → Noting Round) (haystack : List Char) (start : Nat) :
    Noting (Option Occurrence) := do
  if start ≤ byteSize haystack then
    note (.started start (byteSize haystack))
    match ← first? look haystack start with
    | none => return none
    | some (cursor, seen) =>
      match ← judge cursor seen with
      | .found place =>
        note (.found place)
        return some place
      | .again next =>
        note (.resumed start next (byteSize haystack))
        if start < next then rounds look judge haystack next else failure
  else return none
termination_by byteSize haystack + 1 - start

/-- A search notes what its judge notes, besides its rounds and what it finds. -/
theorem NotesOnly.rounds {P : Note → Prop} {look : Cursor → Option γ} {judge : Cursor → γ → Noting Round}
    (hstarted : ∀ start size, P (.started start size)) (hresumed : ∀ start next size, P (.resumed start next size))
    (hfound : ∀ place, P (.found place)) (hjudge : ∀ cursor seen, NotesOnly P (judge cursor seen))
    (haystack : List Char) (start : Nat) : NotesOnly P (rounds look judge haystack start) := by
  induction hleft : byteSize haystack + 1 - start using Nat.strong_induction_on generalizing start with
  | _ left ih =>
    subst hleft
    rw [Text.rounds]
    split
    · rename_i hstart
      refine .bind (.note (hstarted _ _)) fun _ => .lift fun seen _ => ?_
      cases seen with
      | none => exact .pure _
      | some seen =>
        refine .bind (hjudge seen.1 seen.2) fun round => ?_
        cases round with
        | found place => exact .bind (.note (hfound _)) fun _ => .pure _
        | again next =>
          refine .bind (.note (hresumed _ _ _)) fun _ => ?_
          split
          · exact ih _ (by omega) next rfl
          · intro log b later hrun
            cases hrun
    · exact .pure _

/-! ### Occurrences in bytes -/

/-- The same occurrence counted in bytes. -/
def Occurrence.inBytes (text : List Char) (o : Occurrence) : Occurrence := ⟨o.full.inBytes text, o.value.inBytes text⟩

/-- All that a slot takes from its text. -/
def Slot.whole (s : Slot) : List Char := s.lead ++ s.value ++ s.close

/-- The occurrence of a slot that begins at a byte offset. -/
def Slot.placed (s : Slot) (offset : Nat) : Occurrence :=
  ⟨⟨offset, offset + byteSize s.lead + byteSize s.value + byteSize s.close⟩, s.place offset⟩

theorem Nested.stop_le_length {text : List Char} {outer scope : Span} (h : Nested text outer scope) :
    scope.stop ≤ text.length := h.stop_le.trans h.inside

theorem Nested.sound {text : List Char} {outer scope : Span} (h : Nested text outer scope) :
    Note.Sound text (.entered (outer.inBytes text) (scope.inBytes text)) :=
  ⟨byteOffset_le h.start_le, byteOffset_le h.ordered, byteOffset_le h.stop_le, byteOffset_le_byteSize text _⟩

theorem Slot.placed_eq {text : List Char} {n stop : Nat} {slot : Slot}
    (h : slot.whole <+: (text.take stop).drop n) :
    slot.placed (byteOffset text n) = (slot.occurrence n).inBytes text := by
  obtain ⟨rest, hwhole⟩ := h
  have hvalue : (text.take stop).drop n = slot.lead ++ slot.value ++ (slot.close ++ rest) := by
    rw [← hwhole, whole, List.append_assoc]
  have hstop : byteOffset text (n + slot.lead.length + slot.value.length + slot.close.length) =
      byteOffset text n + byteSize slot.lead + byteSize slot.value + byteSize slot.close := by
    have hsize := byteOffset_add_length hwhole.symm
    simpa only [whole, List.length_append, byteSize_append, Nat.add_assoc] using hsize
  rw [placed, place_eq hvalue]
  simp only [occurrence, Occurrence.inBytes, Span.inBytes, hstop]

theorem Slot.sound_occurrence (text : List Char) (slot : Slot) (n : Nat) :
    Note.Sound text (.found ((slot.occurrence n).inBytes text)) :=
  ⟨byteOffset_le (Nat.le_add_right _ _), byteOffset_le (Nat.le_add_right _ _), byteOffset_le (Nat.le_add_right _ _),
    byteOffset_le_byteSize text _⟩

/-! ### The outcome of a search -/

/-- A round comes to what an attempt at the place `n` comes to. -/
inductive Agrees (text haystack : List Char) (n : Nat) : Attempt Occurrence → Round → Prop
  | found {place : Occurrence} (h : Note.Sound text (.found (place.inBytes text))) :
    Agrees text haystack n (.found place) (.found (place.inBytes text))
  | again {skip : Nat} (h : n + 1 + skip ≤ haystack.length) :
    Agrees text haystack n (.pass skip) (.again (byteOffset haystack (n + 1 + skip)))

/-- From the place `low` on, what is looked for and how it is judged is what attempts come to. -/
structure Judges (text haystack : List Char) (low : Nat) (attempt : Cursor → Attempt Occurrence)
    (look : Cursor → Option γ) (judge : Cursor → γ → Noting Round) : Prop where
  atEnd : ∀ cursor, cursor.rest = [] → look cursor = none
  missed : ∀ n, look ((Cursor.at haystack n).inBytes haystack) = none → attempt (Cursor.at haystack n) = .pass 0
  seen : ∀ n seen, low ≤ n → look ((Cursor.at haystack n).inBytes haystack) = some seen →
    ∃ round, ComesTo (Note.Sound text) (judge ((Cursor.at haystack n).inBytes haystack) seen) round ∧
      Agrees text haystack n (attempt (Cursor.at haystack n)) round

section Search
variable {text : List Char} {attempt : Cursor → Attempt α} {look : Cursor → Option γ} {start n : Nat}

theorem search_of_found {answer : α} (h : attempt (Cursor.at text n) = .found answer) :
    search attempt text n = some answer := by
  rw [Cursor.at] at h
  rw [search]
  simp only [Cursor.at]
  cases hdrop : text.drop n with
  | nil =>
    rw [hdrop] at h
    rw [searchFrom, if_pos rfl, h]
  | cons c rest =>
    rw [hdrop] at h
    rw [searchFrom, h]

/-- Characters that are passed over at the beginning. -/
theorem searchFrom_skip (attempt : Cursor → Attempt α) (before rest : List Char) {skip : Nat} (h : skip ≤ rest.length) :
    searchFrom attempt skip before.length before.getLast? rest =
      searchFrom attempt 0 (before.length + skip) (before ++ rest.take skip).getLast? (rest.drop skip) := by
  induction skip generalizing before rest with
  | zero => simp
  | succ skip ih =>
    cases rest with
    | nil => simp at h
    | cons c rest =>
      have := ih (before ++ [c]) rest (by simpa using h)
      rw [List.length_append, List.length_singleton, List.getLast?_concat] at this
      rw [searchFrom, this, List.append_assoc, List.singleton_append, List.take_succ_cons, List.drop_succ_cons]
      congr 1
      omega

/-- A search that passes over a place goes on behind what is passed over. -/
theorem search_of_pass {skip : Nat} (h : attempt (Cursor.at text n) = .pass skip) (hle : n + 1 + skip ≤ text.length) :
    search attempt text n = search attempt text (n + 1 + skip) := by
  have hlt : n < text.length := by omega
  have hdrop : text.drop n = text[n] :: text.drop (n + 1) := List.drop_eq_getElem_cons hlt
  have hlast : (text.take (n + 1)).getLast? = some text[n] := by
    rw [List.take_succ_eq_append_getElem hlt, List.getLast?_concat]
  have hlen : (text.take (n + 1)).length = n + 1 := List.length_take_of_le hlt
  have hle : skip ≤ (text.drop (n + 1)).length := by
    rw [List.length_drop]
    omega
  have hskip := searchFrom_skip attempt (text.take (n + 1)) (text.drop (n + 1)) hle
  rw [hlen, hlast, ← List.take_add, List.drop_drop] at hskip
  rw [Cursor.at, hdrop] at h
  rw [search, search]
  simp only [Cursor.at]
  rw [hdrop, searchFrom, h]
  exact hskip

/-- Places that an attempt passes over alone make no difference in front. -/
theorem search_of_passed (hstart : start ≤ n) (hn : n ≤ text.length)
    (h : ∀ m, start ≤ m → m < n → attempt (Cursor.at text m) = .pass 0) :
    search attempt text start = search attempt text n := by
  induction n, hstart using Nat.le_induction with
  | base => rfl
  | succ n hstart ih =>
    rw [ih (by omega) fun m hm hlt => h m hm (by omega)]
    exact search_of_pass (h n hstart (by omega)) hn

theorem search_of_pass_end {skip : Nat} (h : attempt (Cursor.at text text.length) = .pass skip) :
    search attempt text text.length = none := by
  rw [Cursor.at, List.drop_length] at h
  rw [search]
  simp only [Cursor.at, List.drop_length, searchFrom, if_true, h]

/-! ### The first place -/

/-- Looking from the place `n` on: nothing stands there, or there is a first place where something stands. -/
inductive Looked (look : Cursor → Option γ) (text : List Char) (n : Nat) : Option (Cursor × γ) → Prop
  | missed (h : ∀ m, n ≤ m → look ((Cursor.at text m).inBytes text) = none) : Looked look text n none
  | seen {m : Nat} {seen : γ} (hle : n ≤ m) (hlt : m < text.length)
    (h : look ((Cursor.at text m).inBytes text) = some seen)
    (hmin : ∀ k, n ≤ k → k < m → look ((Cursor.at text k).inBytes text) = none) :
    Looked look text n (some ((Cursor.at text m).inBytes text, seen))

/-- Where nothing stands, the first place is the first one behind. -/
theorem Looked.behind {first : Option (Cursor × γ)} (hnone : look ((Cursor.at text n).inBytes text) = none)
    (h : Looked look text (n + 1) first) : Looked look text n first := by
  have hfrom : ∀ {k}, n ≤ k → (n + 1 ≤ k → look ((Cursor.at text k).inBytes text) = none) →
      look ((Cursor.at text k).inBytes text) = none := by
    intro k hk hbehind
    rcases Nat.eq_or_lt_of_le hk with rfl | hlt
    · exact hnone
    · exact hbehind hlt
  cases h with
  | missed h => exact .missed fun k hk => hfrom hk (h k)
  | seen hle hlt h hmin => exact .seen (Nat.le_of_succ_le hle) hlt h fun k hk hlt => hfrom hk fun hk => hmin k hk hlt

theorem looked_firstFrom? (hend : ∀ cursor, cursor.rest = [] → look cursor = none) (n : Nat) :
    Looked look text n (firstFrom? look (byteOffset text n) (text.take n).getLast? (text.drop n)) := by
  induction hrest : text.drop n generalizing n with
  | nil =>
    rw [firstFrom?, hend _ rfl]
    exact .missed fun m hm => hend _ (Cursor.at_of_length_le ((List.drop_eq_nil_iff.mp hrest).trans hm))
  | cons c rest ih =>
    have hhere : (Cursor.at text n).inBytes text = ⟨byteOffset text n, (text.take n).getLast?, c :: rest⟩ := by
      rw [Cursor.at, hrest, Cursor.inBytes]
    have hlt : n < text.length := by
      by_contra hge
      rw [List.drop_eq_nil_of_le (Nat.le_of_not_lt hge)] at hrest
      cases hrest
    rw [firstFrom?, ← hhere]
    cases hlook : look ((Cursor.at text n).inBytes text) with
    | some seen => exact .seen le_rfl hlt hlook fun k hk hlt => by omega
    | none =>
      have hlast : (text.take (n + 1)).getLast? = some c := by
        rw [List.take_add, hrest]
        simp
      have htail : text.drop (n + 1) = rest := by
        rw [← List.drop_drop, hrest]
        rfl
      have hbehind := ih (n + 1) htail
      rw [hlast, byteOffset_succ hrest] at hbehind
      exact hbehind.behind hlook

/-- Where a character begins, the text can be cut to look for the first place. -/
theorem first?_eq (look : Cursor → Option γ) (text : List Char) (n : Nat) :
    first? look text (byteOffset text n) =
      some (firstFrom? look (byteOffset text n) (text.take n).getLast? (text.drop n)) := by
  rw [first?, cut?_byteOffset]
  rfl

end Search

/-- Steps come to an answer, told in characters, and all they note is in order, and so is the answer. -/
structure Answers (text : List Char) (steps : Noting (Option Occurrence)) (answer : Option Occurrence) : Prop where
  ends : ComesTo (Note.Sound text) steps (answer.map (·.inBytes text))
  sound : ∀ place ∈ answer, Note.Sound text (.found (place.inBytes text))

/-- What is noted in front of a search. -/
theorem Answers.after {text : List Char} {steps : Noting α} {a : α} {next : α → Noting (Option Occurrence)}
    {answer : Option Occurrence} (h : ComesTo (Note.Sound text) steps a) (hnext : Answers text (next a) answer) :
    Answers text (steps >>= next) answer :=
  ⟨h.bind hnext.ends, hnext.sound⟩

theorem Answers.none (text : List Char) : Answers text (pure none) none := ⟨.pure _, by simp⟩

/-- **A search comes to an end, and to the answer of the search in characters.** None of its cuts fails, and all it
notes is in order. -/
theorem answers_rounds {text : List Char} {attempt : Cursor → Attempt Occurrence} {look : Cursor → Option γ}
    {judge : Cursor → γ → Noting Round} {low start stop : Nat} (h : Judges text (text.take stop) low attempt look judge)
    (hlow : low ≤ start) (hstart : start ≤ stop) (hstop : stop ≤ text.length) :
    Answers text (rounds look judge (text.take stop) (byteOffset text start))
      (search attempt (text.take stop) start) := by
  have hlen : (text.take stop).length = stop := List.length_take_of_le hstop
  -- Every round leaves less of the text.
  induction hleft : stop - start using Nat.strong_induction_on generalizing start with
  | _ left ih =>
    subst hleft
    have hoffset : byteOffset text start = byteOffset (text.take stop) start := (byteOffset_take hstart text).symm
    have hsize : byteSize (text.take stop) ≤ byteSize text := byteOffset_le_byteSize text stop
    have hle : byteOffset text start ≤ byteSize (text.take stop) := byteOffset_le hstart
    rw [rounds, if_pos hle]
    refine .after (.note ⟨hle, hsize⟩) ?_
    rw [hoffset]
    have hlooked : Looked look (text.take stop) start _ := looked_firstFrom? h.atEnd start
    refine .after (.lift (first?_eq look (text.take stop) start)) ?_
    generalize firstFrom? look _ _ _ = first at hlooked ⊢
    cases hlooked with
    | missed hnone =>
      have hpass : ∀ m, start ≤ m → attempt (Cursor.at (text.take stop) m) = .pass 0 := fun m hm =>
        h.missed m (hnone m hm)
      have hsearch : search attempt (text.take stop) start = none := by
        rw [search_of_passed (hlen.symm ▸ hstart) le_rfl fun m hm _ => hpass m hm]
        exact search_of_pass_end (hpass _ (hlen.symm ▸ hstart))
      rw [hsearch]
      exact .none text
    | @seen n seen hn hlt hseen hmin =>
      have hsearch : search attempt (text.take stop) start = search attempt (text.take stop) n :=
        search_of_passed hn hlt.le fun m hm hm' => h.missed m (hmin m hm hm')
      obtain ⟨round, hround, hagrees⟩ := h.seen n seen (hlow.trans hn) hseen
      rw [hsearch]
      refine .after hround ?_
      generalize hat : attempt (Cursor.at (text.take stop) n) = result at hagrees
      cases hagrees with
      | @found place hsound =>
        rw [search_of_found hat]
        exact .after (.note hsound) ⟨.pure _, by simpa using hsound⟩
      | @again skip hle =>
        rw [search_of_pass hat hle, byteOffset_take (hlen ▸ hle)]
        rw [hlen] at hle
        have hfurther : byteOffset (text.take stop) start < byteOffset text (n + 1 + skip) := by
          rw [byteOffset_take hstart]
          exact byteOffset_lt (by omega) (by omega)
        refine .after (.note ⟨hfurther, byteOffset_le hle, hsize, isValid_byteOffset text _⟩) ?_
        rw [if_pos hfurther]
        exact ih _ (by omega) (by omega) hle rfl

end ManifestBump.Text
