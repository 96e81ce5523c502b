import ManifestBump.Proofs.Json.Idle

/-! The lookup in the text of a tree.

A key of the right depth is met only where a member of the object itself begins. So a search through the text of
an object goes from member to member (`firstAnswer_members`), and finds what the lookup in the tree finds
(`resolve_document`). -/
namespace ManifestBump.Json
open Text

/-! ### From member to member -/

/-- The members of an object in a text, with what follows them in the same stretch. -/
structure Stretch (text front rest : List Char) (members : Members) (depth : Nat) : Prop where
  text_eq : text = front ++ (members.render ++ rest)
  reached : Reached front depth
  ends : Ends rest

/-- A member in a text. -/
structure Place (text front rest : List Char) (key : Token) (gap gap' : Space) (value : Value) (depth : Nat) :
    Prop where
  text_eq : text = front ++ (key.lead gap gap' ++ (value.render ++ rest))
  reached : Reached front depth
  ends : Ends rest

/-- No other member begins on the way to the value, and none in it or behind it up to the next one. -/
theorem Place.idle {text front rest back name : List Char} {key : Token} {gap gap' : Space} {value : Value}
    {depth n : Nat} (hname : Unquoted name) (h : Place text front rest key gap gap' value depth)
    (hstart : front.length < n) (hstop : n < front.length + (key.lead gap gap' ++ value.render).length) :
    Idle text back name depth n := by
  rw [h.text_eq]
  rw [List.length_append] at hstop
  by_cases hkey : n < front.length + key.render.length
  · rw [Token.lead, List.append_assoc]
    exact idleOn_inside h.reached key hstart hkey
  · have hgap : Unquoted (gap.text ++ ':' :: gap'.text) := by
      intro c hc
      rcases List.mem_append.mp hc with hc | hc
      · exact unquoted_of_isQuiet gap.isQuiet c hc
      · rcases List.mem_cons.mp hc with rfl | hc
        · decide
        · exact unquoted_of_isQuiet gap'.isQuiet c hc
    have hlead : IdleOn (front ++ key.render) (gap.text ++ ':' :: gap'.text) (value.render ++ rest) back name
        depth :=
      idleOn_of_unquoted hgap
    have hvalue : IdleOn (front ++ key.render ++ (gap.text ++ ':' :: gap'.text)) value.render rest back name
        depth := by
      refine value.idleOn hname ?_ h.ends
      rw [List.append_assoc]
      exact h.reached.append (key.closed_lead gap gap')
    have hboth := hlead.append hvalue
    simp only [Token.lead, List.length_append] at hstop hkey
    have hidle := hboth n (by rw [List.length_append]; omega) (by simp only [List.length_append]; omega)
    rw [Token.lead]
    simpa only [List.append_assoc] using hidle

section Member
variable {text front rest : List Char} {depth : Nat} {before : Space} {key : Token} {gap gap' : Space}
  {value : Value}
  {behind : Space} {others : Members}

/-- Everything up to the members behind the first one. -/
def frontOfOthers (front : List Char) (before : Space) (key : Token) (gap gap' : Space) (value : Value)
    (behind : Space) (others : Members) : List Char :=
  front ++ before.text ++ (key.lead gap gap' ++ value.render) ++ (behind.text ++ others.comma)

variable (h : Stretch text front rest (.cons before key gap gap' value behind others) depth)
include h

/-- Behind some space the first member begins. -/
theorem Stretch.place : Place text (front ++ before.text) (behind.text ++ others.comma ++ others.render ++ rest)
    key gap gap' value depth := by
  refine ⟨by rw [h.text_eq, Members.render]; simp, h.reached.append before.closed, ?_⟩
  simp only [List.append_assoc]
  exact ends_append behind (others.ends_comma fun _ => h.ends)

theorem Stretch.next :
    Stretch text (frontOfOthers front before key gap gap' value behind others) rest others depth := by
  refine ⟨by rw [h.text_eq, Members.render, frontOfOthers]; simp, ?_, h.ends⟩
  rw [frontOfOthers, List.append_assoc]
  exact (h.reached.append before.closed).append
    (((key.closed_lead gap gap').append value.closed).append (behind.closed.append others.closed_comma))

variable {back name : List Char} (hname : Unquoted name) {n : Nat}
include hname

omit hname in
theorem Stretch.idle_before (hstart : front.length ≤ n) (hstop : n < (front ++ before.text).length) :
    Idle text back name depth n := by
  rw [List.length_append] at hstop
  rw [h.text_eq, Members.render, List.append_assoc]
  exact idleOn_of_unquoted (unquoted_of_isQuiet before.isQuiet) n hstart hstop

theorem Stretch.idle_between (hstart : (front ++ before.text).length < n)
    (hstop : n < (frontOfOthers front before key gap gap' value behind others).length) :
    Idle text back name depth n := by
  have hbehind : IdleOn (front ++ before.text ++ (key.lead gap gap' ++ value.render))
      (behind.text ++ others.comma) (others.render ++ rest) back name depth := by
    refine IdleOn.append ?_ ?_
    · exact idleOn_of_unquoted (unquoted_of_isQuiet behind.isQuiet)
    · exact idleOn_of_unquoted others.unquoted_comma
  by_cases hn : n < (front ++ before.text ++ (key.lead gap gap' ++ value.render)).length
  · rw [List.length_append] at hn
    exact h.place.idle hname hstart hn
  · rw [h.next.text_eq, frontOfOthers, List.append_assoc]
    refine hbehind n (by omega) ?_
    rwa [← List.length_append]

end Member

/-- **A search goes from member to member**, when it finds nothing where no member begins. -/
theorem firstAnswer_members {text back name : List Char} (hname : Unquoted name) {depth : Nat}
    {f : Nat → Option Occurrence} {answer : Nat → Token → Value → Option Span}
    (hidle : ∀ n, Idle text back name depth n → f n = none)
    (hplace : ∀ {front rest key gap gap' value}, Place text front rest key gap gap' value depth →
      (f front.length).map Occurrence.value = answer (front.length + (key.lead gap gap').length) key value)
    (members : Members) {front rest : List Char} (h : Stretch text front rest members depth)
    (hrest : ∀ n, (front ++ members.render).length ≤ n → n ≤ text.length → f n = none) :
    (firstAnswer f front.length text.length).map Occurrence.value = members.first answer front.length := by
  match members with
  | .nil =>
    rw [Members.render, List.append_nil] at hrest
    rw [firstAnswer_eq_none_iff.mpr hrest]
    rfl
  | .cons before key gap gap' value behind others =>
    have hothers : (firstAnswer f (frontOfOthers front before key gap gap' value behind others).length
        text.length).map Occurrence.value =
        others.first answer (frontOfOthers front before key gap gap' value behind others).length := by
      refine firstAnswer_members hname hidle hplace others h.next fun n hstart hstop => hrest n ?_ hstop
      refine le_of_eq_of_le ?_ hstart
      rw [Members.render, frontOfOthers]
      simp only [List.append_assoc]
    have hstart : front.length ≤ (front ++ before.text).length := by
      rw [List.length_append]
      omega
    have hnext : (front ++ before.text).length + 1 ≤
        (frontOfOthers front before key gap gap' value behind others).length := by
      rw [frontOfOthers]
      simp only [List.length_append, Token.lead, Token.render, List.length_cons]
      omega
    have hstop : (frontOfOthers front before key gap gap' value behind others).length ≤ text.length := by
      have := congrArg List.length h.next.text_eq
      rw [List.length_append] at this
      omega
    rw [firstAnswer_skip hstart fun n hs he => hidle n (h.idle_before hs he),
      firstAnswer_step f (by omega),
      firstAnswer_skip hnext fun n hs he => hidle n (h.idle_between hname (by omega) he)]
    have hoffset : (front ++ before.text).length + (key.lead gap gap').length =
        front.length + (before.text ++ key.lead gap gap').length := by
      simp only [List.length_append]
      omega
    have hnextOffset : (frontOfOthers front before key gap gap' value behind others).length =
        front.length + (before.text ++ key.lead gap gap').length +
          (value.render ++ (behind.text ++ others.comma)).length := by
      rw [frontOfOthers]
      simp only [List.length_append]
      omega
    rw [Members.first, ← hnextOffset, ← hothers, ← hoffset, ← hplace h.place]
    cases f (front ++ before.text).length with
    | none => rfl
    | some found => rfl

/-! ### Members with scalars and members with objects -/

theorem leafAt_of_idle {text back name : List Char} {depth n : Nat} (h : Idle text back name depth n) :
    leafAt text (Outline.scan (text ++ back)) name depth n = none := by
  by_contra hne
  obtain ⟨found, hfound⟩ := Option.ne_none_iff_exists'.mp hne
  obtain ⟨slot, hslot, hkey, -⟩ := leafAt_eq_some_iff.mp hfound
  rw [leaf?_eq_none (h hkey)] at hslot
  cases hslot

/-- A member begins at its place, as deep as its object. -/
theorem Place.isKey {text front rest : List Char} {key : Token} {gap gap' : Space} {value : Value} {depth : Nat}
    (h : Place text front rest key gap gap' value depth) (back : List Char) :
    isKey (Outline.scan (text ++ back)) front.length depth = true := by
  have htext : text ++ back =
      front ++ key.render ++ (gap.text ++ ':' :: gap'.text ++ (value.render ++ rest) ++ back) := by
    rw [h.text_eq, Token.lead]
    simp
  have hstarts :=
    startsLiteral_token h.reached key (gap.text ++ ':' :: gap'.text ++ (value.render ++ rest) ++ back)
    le_rfl (by simp [Token.render])
  rw [htext, Json.isKey, hstarts, List.append_assoc]
  obtain ⟨o, ho⟩ := h.reached
  rw [Outline.depthAt_eq ho]
  simp

/-- **The scalar of a member is found**, if the member has the name and a scalar. -/
theorem Place.leafAt {text front rest : List Char} {key : Token} {gap gap' : Space} {value : Value} {depth : Nat}
    (h : Place text front rest key gap gap' value depth) {name : List Char} (hname : Unquoted name)
    (back : List Char) :
    (leafAt text (Outline.scan (text ++ back)) name depth front.length).map Occurrence.value =
      if key.text = name then value.scalar? (front.length + (key.lead gap gap').length) else none := by
  have hdrop : text.drop front.length = key.lead gap gap' ++ (value.render ++ rest) := by
    rw [h.text_eq, List.drop_left]
  split
  · rename_i heq
    subst heq
    have hleaf : leaf? key.text (text.drop front.length) =
        (scalar? (value.render ++ rest)).map fun slot => slot.behind (key.lead gap gap') := by
      rw [hdrop]
      exact leaf?_of_afterKey? (afterKey?_lead key gap gap' value rest)
    rw [← scalar?_render value h.ends, Json.leafAt, hleaf, h.isKey back]
    cases scalar? (value.render ++ rest) with
    | none => rfl
    | some slot =>
      simp only [Option.map_some, if_true, Slot.occurrence, Slot.behind, List.length_append, Nat.add_assoc]
  · rename_i hne
    rw [leafAt_of_idle]
    · rfl
    · intro _
      rw [hdrop]
      exact afterKey?_lead_of_ne hname hne gap gap' _

theorem parentAt_of_idle {text back leaf name : List Char} {names : List (List Char)} {depth n : Nat}
    (h : Idle text back name depth n) :
    parentAt (text ++ back) (Outline.scan (text ++ back)) leaf name names depth text.length n = none := by
  by_contra hne
  obtain ⟨found, hfound⟩ := Option.ne_none_iff_exists'.mp hne
  obtain ⟨lead, hobject, hkey, -, -⟩ := parentAt_eq_some_iff.mp hfound
  rw [List.take_left, object?_eq_none (h hkey)] at hobject
  cases hobject

/-- A member opens an object if that is its value. -/
theorem object?_lead (key : Token) (gap gap' : Space) (value : Value) (rest : List Char) :
    object? key.text (key.lead gap gap' ++ (value.render ++ rest)) =
      value.inner?.map fun _ => (key.lead gap gap').length := by
  have hread := afterKey?_lead key gap gap' value rest
  cases value with
  | object space members => exact object?_eq_some_iff.mpr ⟨_, _, hread, rfl⟩
  | string token =>
    rw [object?, hread]
    rfl
  | array space items =>
    rw [object?, hread]
    rfl
  | word text =>
    by_contra hne
    obtain ⟨n, hobject⟩ := Option.ne_none_iff_exists'.mp hne
    obtain ⟨lead, tail, hlead, -⟩ := object?_eq_some_iff.mp hobject
    rw [hread] at hlead
    obtain ⟨c, word, htext⟩ := List.exists_cons_of_ne_nil text.ne_nil
    have hbrace : text.text ++ rest = '\x7b' :: tail := congrArg Prod.snd (Option.some.inj hlead)
    rw [htext] at hbrace
    obtain ⟨rfl, -⟩ := List.cons.inj hbrace
    have := text.isVersionChar '\x7b' (by rw [htext]; exact List.mem_cons_self)
    revert this
    decide

/-- A text up to the first member of the object of a member. -/
def frontOfInner (front : List Char) (key : Token) (gap gap' space : Space) : List Char :=
  front ++ key.lead gap gap' ++ ['\x7b'] ++ space.text

/-- The object of a member lies between its braces, one deeper. -/
theorem Place.inner {text front rest : List Char} {key : Token} {gap gap' space : Space} {members : Members}
    {depth : Nat} (h : Place text front rest key gap gap' (.object space members) depth) (back : List Char) :
    text ++ back = frontOfInner front key gap gap' space ++ members.render ++ '\x7d' :: (rest ++ back) ∧
      (Outline.scan (text ++ back)).inLiteral (front ++ key.lead gap gap').length = false ∧
      (Outline.scan (text ++ back)).closingBrace? (front ++ key.lead gap gap').length =
        some (frontOfInner front key gap gap' space ++ members.render).length ∧
      Stretch (frontOfInner front key gap gap' space ++ members.render) (frontOfInner front key gap gap' space) []
        members (depth + 1) := by
  have hreached : Reached (front ++ key.lead gap gap') depth := h.reached.append (key.closed_lead gap gap')
  have hwhole : text ++ back = (front ++ key.lead gap gap') ++
      '\x7b' :: (space.text ++ members.render ++ '\x7d' :: (rest ++ back)) := by
    rw [h.text_eq, Value.render]
    simp
  have hstretch : Stretch (frontOfInner front key gap gap' space ++ members.render)
      (frontOfInner front key gap gap' space) [] members (depth + 1) :=
    ⟨by simp, hreached.opening.append space.closed, ends_nil⟩
  obtain ⟨o, ho⟩ := hreached
  refine ⟨?_, ?_, ?_, hstretch⟩
  · rw [hwhole, frontOfInner]
    simp
  · rw [hwhole]
    exact Outline.inLiteral_opening ho
  · rw [hwhole, Outline.closingBrace?_eq ho (space.closed.append members.closed), frontOfInner]
    simp only [List.length_append, List.length_singleton, Option.some.injEq]
    omega

/-- **The object of a member is searched**, if the member has the name and an object. -/
theorem Place.parentAt {text front rest : List Char} {key : Token} {gap gap' : Space} {value : Value} {depth : Nat}
    (h : Place text front rest key gap gap' value depth) {leaf name : List Char} (hname : Unquoted name)
    {names : List (List Char)} (back : List Char)
    (hinner : ∀ {members text front depth start} (back : List Char), Stretch text front [] members depth →
      start ≤ front.length → Unquoted (front.drop start) →
      (findIn (text ++ back) (Outline.scan (text ++ back)) leaf names depth ⟨start, text.length⟩).map
        Occurrence.value = members.lookup leaf names front.length) :
    (parentAt (text ++ back) (Outline.scan (text ++ back)) leaf name names depth text.length front.length).map
        Occurrence.value =
      if key.text = name then
        value.inner?.bind fun (space, members) =>
          members.lookup leaf names (front.length + (key.lead gap gap').length + 1 + space.text.length)
      else none := by
  have hdrop : ((text ++ back).take text.length).drop front.length =
      key.lead gap gap' ++ (value.render ++ rest) := by
    rw [List.take_left, h.text_eq, List.drop_left]
  by_cases heq : key.text = name
  · subst heq
    rw [if_pos rfl]
    have hobject := object?_lead key gap gap' value rest
    rw [← hdrop] at hobject
    cases value with
    | object space members =>
      obtain ⟨hsplit, hliteral, hclosing, hstretch⟩ := h.inner back
      have hspace : (frontOfInner front key gap gap' space).drop ((front ++ key.lead gap gap').length + 1) =
          space.text := by
        have hlen : (front ++ key.lead gap gap').length + 1 = (front ++ key.lead gap gap' ++ ['\x7b']).length := by
          simp only [List.length_append, List.length_singleton]
        rw [hlen, frontOfInner, List.drop_left]
      have hfound := hinner ('\x7d' :: (rest ++ back)) hstretch (by simp [frontOfInner])
        (hspace ▸ unquoted_of_isQuiet space.isQuiet)
      rw [← hsplit] at hfound
      have hlead : front.length + (key.lead gap gap').length = (front ++ key.lead gap gap').length := by
        rw [List.length_append]
      simp only [Json.parentAt, hobject, Value.inner?, Option.map_some, h.isKey back, hlead, hliteral, hclosing,
        Bool.not_false, Bool.and_self, if_true, Option.getD_some]
      rw [hfound, frontOfInner]
      simp only [List.length_append, List.length_singleton, Option.bind_some]
    | string token => simp only [Json.parentAt, hobject, Value.inner?, Option.map_none, Option.bind_none]
    | word text => simp only [Json.parentAt, hobject, Value.inner?, Option.map_none, Option.bind_none]
    | array space items => simp only [Json.parentAt, hobject, Value.inner?, Option.map_none, Option.bind_none]
  · rw [parentAt_of_idle, if_neg heq]
    · rfl
    · intro _
      rw [h.text_eq, List.drop_left]
      exact afterKey?_lead_of_ne hname heq gap gap' _

/-! ### The lookup -/

/-- A search through a stretch, with no other quotes in it than those of the members. -/
theorem firstAnswer_stretch {text back name : List Char} (hname : Unquoted name) {depth : Nat}
    {f : Nat → Option Occurrence} {answer : Nat → Token → Value → Option Span}
    (hidle : ∀ n, Idle text back name depth n → f n = none)
    (hplace : ∀ {front rest key gap gap' value}, Place text front rest key gap gap' value depth →
      (f front.length).map Occurrence.value = answer (front.length + (key.lead gap gap').length) key value)
    {members : Members} {front rest : List Char} (h : Stretch text front rest members depth) {start : Nat}
    (hstart : start ≤ front.length) (hbefore : Unquoted (front.drop start)) (hrest : Unquoted rest) :
    (firstAnswer f start text.length).map Occurrence.value = members.first answer front.length := by
  have hfront : ∀ n, start ≤ n → n < front.length → f n = none := by
    intro n hs he
    have hlen : (front.take start).length = start := by simpa using hstart
    have hon : IdleOn (front.take start) (front.drop start) (members.render ++ rest) back name depth :=
      idleOn_of_unquoted hbefore
    refine hidle n ?_
    have hidle := hon n (by omega) (by rw [hlen, List.length_drop]; omega)
    rwa [← List.append_assoc, List.take_append_drop, ← h.text_eq] at hidle
  rw [firstAnswer_skip hstart hfront]
  refine firstAnswer_members hname hidle hplace members h fun n hs he => hidle n ?_
  have htext : text = front ++ members.render ++ (rest ++ []) := by rw [h.text_eq]; simp
  by_cases hn : n = text.length
  · intro _
    rw [hn, List.drop_length, afterKey?_nil]
  · have hon : IdleOn (front ++ members.render) rest [] back name depth := idleOn_of_unquoted hrest
    have hlen := congrArg List.length htext
    rw [List.length_append, List.append_nil] at hlen
    have hidle := hon n hs (by omega)
    rwa [← htext] at hidle

/-- **The lookup in the text of an object finds what the lookup in its members finds.** -/
theorem findIn_stretch {leaf : List Char} (hleaf : Unquoted leaf) {names : List (List Char)}
    (hnames : ∀ name ∈ names, Unquoted name) {members : Members} {text front rest : List Char} {depth start : Nat}
    (back : List Char) (h : Stretch text front rest members depth) (hstart : start ≤ front.length)
    (hbefore : Unquoted (front.drop start)) (hrest : Unquoted rest) :
    (findIn (text ++ back) (Outline.scan (text ++ back)) leaf names depth ⟨start, text.length⟩).map
      Occurrence.value = members.lookup leaf names front.length := by
  induction names generalizing members text back front rest depth start with
  | nil =>
    rw [findIn_leaf, List.take_left, Members.lookup]
    refine firstAnswer_stretch hleaf (fun n hn => leafAt_of_idle hn) ?_ h hstart hbefore hrest
    exact fun hplace => hplace.leafAt hleaf back
  | cons name names ih =>
    have hname := hnames name List.mem_cons_self
    have hothers : ∀ name ∈ names, Unquoted name := fun name hmem => hnames name (List.mem_cons_of_mem _ hmem)
    rw [findIn_parent, Members.lookup]
    refine firstAnswer_stretch hname (fun n hn => parentAt_of_idle hn) ?_ h hstart hbefore hrest
    intro front rest key gap gap' value hplace
    exact hplace.parentAt hname back fun back h hstart hbefore =>
      ih hothers back h hstart hbefore (List.forall_mem_nil _)

/-- The text of a document up to its first member. -/
def Document.front (d : Document) : List Char := d.before.text ++ ['\x7b'] ++ d.space.text

theorem Document.render_eq (d : Document) :
    d.render = d.front ++ (d.members.render ++ '\x7d' :: d.behind.text) := by
  rw [Document.render, Document.front]
  simp

/-- A path is looked up in the text of a document as it is in the tree. -/
theorem find?_document (d : Document) {path : KeyPath} (hkeys : ∀ key ∈ path.segments, Unquoted key.toList) :
    (find? d.render path).map Occurrence.value = d.lookup path := by
  obtain ⟨hleaf, hnames⟩ := KeyPath.forall_toList hkeys
  have hreached : Reached d.front 1 := by
    have hbefore : Reached d.before.text 0 := by
      have hnil : Reached [] 0 := ⟨_, Outline.reaches_nil⟩
      exact hnil.append d.before.closed
    exact hbefore.opening.append d.space.closed
  have hstretch : Stretch d.render d.front ('\x7d' :: d.behind.text) d.members 1 :=
    ⟨d.render_eq, hreached, ends_cons (.inr (.inr rfl)) _⟩
  have hbefore : Unquoted (d.front.drop 0) := by
    intro c hc
    simp only [Document.front, List.drop_zero, List.mem_append, List.mem_singleton] at hc
    rcases hc with (hc | rfl) | hc
    · exact unquoted_of_isQuiet d.before.isQuiet c hc
    · decide
    · exact unquoted_of_isQuiet d.space.isQuiet c hc
  have hbehind : Unquoted ('\x7d' :: d.behind.text) := by
    intro c hc
    rcases List.mem_cons.mp hc with rfl | hc
    · decide
    · exact unquoted_of_isQuiet d.behind.isQuiet c hc
  have hfound := findIn_stretch hleaf hnames [] hstretch (Nat.zero_le _) hbefore hbehind
  rw [List.append_nil] at hfound
  rw [Document.lookup, find?, Span.all, hfound, Document.front]
  simp only [List.length_append, List.length_singleton]

/-- **A path is resolved in the text of a document as it is in the tree**, for keys without quotes: the place
is the same, or there is none. -/
theorem resolve_document (d : Document) (path : KeyPath)
    (hkeys : ∀ key ∈ path.segments, ∀ c ∈ key.toList, c ≠ '"' ∧ c ≠ '\'') :
    (Locator.json.resolve (String.ofList d.render) path).map Occurrence.value =
      match d.lookup path with
      | some span => .ok span
      | none => .error (.notFound (.key path.text)) := by
  have hplain : ∀ key ∈ path.segments, Unquoted key.toList := by
    intro key hkey c hc
    obtain ⟨hdouble, hsingle⟩ := hkeys key hkey c hc
    simp [isQuote, hdouble, hsingle]
  have hlookup := find?_document d hplain
  unfold Locator.resolve Locator.find?
  simp only [String.toList_ofList, Locator.keyText]
  rw [← hlookup]
  cases Json.find? d.render path <;> rfl

/-- A string of one character. -/
def Token.char (c : Char) (h : isTokenChar c = true) : Token :=
  ⟨[c], fun d hd => by rwa [List.mem_singleton.mp hd]⟩

/-- A document with a name as a string, in an object of an array and in the object that a path leads to:
`{"a":["b",{"b":"x"}],"a":{"b":"y"}}`. -/
def crowded : Document where
  before := tight
  space := tight
  members :=
    .cons tight (.char 'a' rfl) tight tight
      (.array tight (.cons tight (.string (.char 'b' rfl)) tight (.cons tight
        (.object tight (.cons tight (.char 'b' rfl) tight tight (.string (.char 'x' rfl)) tight .nil)) tight .nil)))
      tight
    (.cons tight (.char 'a' rfl) tight tight
      (.object tight (.cons tight (.char 'b' rfl) tight tight (.string (.char 'y' rfl)) tight .nil)) tight .nil)
  behind := tight

theorem resolve_crowded :
    (Locator.json.resolve (String.ofList crowded.render) ⟨["a"], "b"⟩).map Occurrence.value = .ok ⟨31, 32⟩ := by
  have hkeys : ∀ key ∈ KeyPath.segments ⟨["a"], "b"⟩, ∀ c ∈ key.toList, c ≠ '"' ∧ c ≠ '\'' := by
    simp [KeyPath.segments]
  have hlookup : crowded.lookup ⟨["a"], "b"⟩ = some ⟨31, 32⟩ := by decide +kernel
  rw [resolve_document crowded ⟨["a"], "b"⟩ hkeys, hlookup]

end ManifestBump.Json
