import DesignTokens.Token.Editable
import DesignTokens.Proofs.Token.Bare
import DesignTokens.Proofs.Token.Occurrences

/-!
# Editable properties and tokens

The list of editable properties reads the words of the string literals, and the
search for tokens reads what stands between boundary characters. Both recognise
tokens, in two ways that do not always agree.

* An entry of the list is one of the tokens that are found just if its word is
  modifiers in front of a token of the grammar (`EditableProperty.Sound`).
* A token that is found is one of the entries just if it ends a word of a
  literal and has modifiers without a bracket in front of it
  (`Hit.Plain`).

So the two agree on a text where there are no other entries and no other tokens
(`edited_iff_found`). They differ on others: tokens with a comma between them
are one word of a literal, and behind a number in brackets a word may go on with
anything (`edited_and_found_differ`).
-/

namespace DesignTokens

open Text

/-! ## The two ways to recognise a token -/

/-- The words of the string literals of a text, each with its position in the text. -/
def literalWords (text : List Char) : List (Nat × List Char) :=
  (stringLiterals text).flatMap fun literal =>
    (words ((literal.of text).drop 1).dropLast).map fun (offset, word) =>
      (literal.start + 1 + offset, word)

namespace EditableProperty

/-- The token of the entry ends at a byte of the text, being at the line and column that the entry
shows. -/
def EndsAt (text : List Char) (x : EditableProperty) (stop : Nat) : Prop :=
  ∃ a b, text = a ++ (x.token.toList ++ b) ∧
    LineColumn.behind a = ⟨x.locator.line, x.locator.column⟩ ∧
    stop = byteLength (a ++ x.token.toList)

/-- The word of the entry is modifiers, if any, and a token of its property. -/
def Sound (x : EditableProperty) : Prop :=
  ∃ modifiers, x.token.toList = modifiers ++ bareToken x.token.toList ∧
    modifiers.getLast?.all (· = ':') = true ∧ x.property.IsTokenText (bareToken x.token.toList)

/-- The entry has been read from the token. -/
structure ReadFrom (text : List Char) (x : EditableProperty) (h : Hit) : Prop where
  property : x.property = h.property
  pixels : x.pixels = h.pixels
  stop : x.EndsAt text h.stop
  token : bareToken x.token.toList = h.token

end EditableProperty

namespace Hit

/-- The token lies in one of the string literals of the text. -/
def InLiteral (text : List Char) (h : Hit) : Prop :=
  ∃ literal ∈ stringLiterals text,
    byteOffset text literal.start ≤ h.start ∧ h.stop ≤ byteOffset text literal.stop

/-- The token ends a word of a literal, and what is in front of it in the word is modifiers without
a bracket, if anything. -/
def Plain (text : List Char) (h : Hit) : Prop :=
  ∃ pos modifiers, (pos, modifiers ++ h.token) ∈ literalWords text ∧
    h.start = byteOffset text (pos + modifiers.length) ∧
    '[' ∉ modifiers ∧ modifiers.getLast?.all (· = ':') = true

end Hit

/-- The list of editable properties has this property with these pixels, its token ending here. -/
def Edited (text : List Char) (stop : Nat) (p : Property) (n : Nat) : Prop :=
  ∃ x ∈ editableProperties text, x.EndsAt text stop ∧ x.property = p ∧ x.pixels = some n

/-- A token with these pixels is found in a literal of the text, and ends here. -/
def Found (text : List Char) (stop : Nat) (p : Property) (n : Nat) : Prop :=
  ∃ h ∈ p.hits text, h.InLiteral text ∧ h.stop = stop ∧ h.pixels = some n

/-! ## The words of literals -/

/-- A character that words of literals end at: a blank, or the quote of the literal. -/
def isEdge (c : Char) : Bool := isBlank c || isQuote c

/-- A word of a literal, between two of its blanks and quotes. -/
structure WordAt (a word b text : List Char) : Prop where
  text_eq : text = a ++ (word ++ b)
  ne_nil : word ≠ []
  not_blank : ∀ c ∈ word, isBlank c = false
  before : a.getLast?.all isEdge = true
  behind : b.head?.all isEdge = true

theorem all_of_imp {p q : Char → Bool} (hpq : ∀ {c}, p c = true → q c = true) {c : Option Char}
    (h : c.all p = true) : c.all q = true := by
  cases c with
  | none => rfl
  | some c => exact hpq h

theorem exists_of_mem_wordsFrom : ∀ {cs word : List Char} {atStart : Bool} {pos i : Nat},
    (i, word) ∈ wordsFrom atStart pos cs → ∃ a b, cs = a ++ (word ++ b) ∧ i = pos + a.length ∧
      word ≠ [] ∧ (∀ c ∈ word, isBlank c = false) ∧
      (a.getLast?.map isBlank).getD atStart = true ∧ b.head?.all isBlank = true
  | c :: cs, word, atStart, pos, i, h => by
      have hlater : (i, word) ∈ wordsFrom (isBlank c) (pos + 1) cs →
          ∃ a b, c :: cs = a ++ (word ++ b) ∧ i = pos + a.length ∧ word ≠ [] ∧
            (∀ c ∈ word, isBlank c = false) ∧
            (a.getLast?.map isBlank).getD atStart = true ∧ b.head?.all isBlank = true := by
        intro h
        obtain ⟨a, b, rfl, rfl, hne, hword, hbefore, hbehind⟩ := exists_of_mem_wordsFrom h
        refine ⟨c :: a, b, rfl, by rw [List.length_cons]; omega, hne, hword, ?_, hbehind⟩
        rw [List.getLast?_cons]
        cases ha : a.getLast? <;> rw [ha] at hbefore <;> exact hbefore
      rw [wordsFrom] at h
      split at h
      case isTrue hstart =>
        rcases List.mem_cons.mp h with h | h
        · obtain ⟨rfl, rfl⟩ := Prod.mk.inj h
          obtain ⟨hat, hc⟩ := Bool.and_eq_true_iff.mp hstart
          refine ⟨[], (c :: cs).dropWhile fun d => !isBlank d,
            List.takeWhile_append_dropWhile.symm, rfl, ?_, fun d hd => ?_, hat, ?_⟩
          · rw [List.takeWhile_cons, if_pos hc]
            exact List.cons_ne_nil _ _
          · simpa using List.mem_takeWhile_imp hd
          · exact all_head?_dropWhile isBlank (c :: cs)
        · exact hlater h
      case isFalse => exact hlater h

/-- A literal is a text between two equal quotes. -/
theorem exists_of_mem_stringLiterals {text : List Char} {literal : Span}
    (h : literal ∈ stringLiterals text) : ∃ a quote body b,
      text = a ++ (quote :: (body ++ quote :: b)) ∧ isQuote quote = true ∧
      (∀ c ∈ body, staysInLiteral quote c = true) ∧ literal = ⟨a.length, body.length + 2⟩ ∧
      literal.of text = quote :: (body ++ [quote]) := by
  obtain ⟨a, rest, rfl, hstart, hmatch⟩ := Pattern.exists_of_mem_spansFrom h
  rw [Nat.zero_add] at hstart
  unfold literalPattern at hmatch
  split at hmatch
  case h_1 => cases hmatch
  case h_2 quote cs =>
    split at hmatch
    case isFalse => cases hmatch
    case isTrue hquote =>
      dsimp only at hmatch
      split at hmatch
      case isFalse => cases hmatch
      case isTrue hclosed =>
        obtain ⟨b, hb⟩ := List.head?_eq_some_iff.mp hclosed
        have hcs := List.prefix_iff_eq_append.mp
          (List.takeWhile_prefix (staysInLiteral quote) (l := cs))
        rw [hb] at hcs
        have hstays : ∀ c ∈ cs.takeWhile (staysInLiteral quote), staysInLiteral quote c = true :=
          fun _ hc => List.mem_takeWhile_imp hc
        generalize cs.takeWhile (staysInLiteral quote) = body at hmatch hcs hstays
        obtain rfl : literal = ⟨a.length, body.length + 2⟩ := by
          rw [← hstart, Option.some.inj hmatch]
        refine ⟨a, quote, body, b, by rw [← hcs], hquote, hstays, rfl, ?_⟩
        have hsplit : a ++ quote :: cs = a ++ (quote :: (body ++ [quote]) ++ b) := by
          rw [← hcs]
          simp
        rw [Span.of, hsplit, List.drop_left, List.take_left' (by simp)]

/-- A word of a literal is a stretch of the text that stands between edges, inside the quotes. -/
theorem exists_of_mem_words {text word : List Char} {literal : Span} {offset : Nat}
    (hliteral : literal ∈ stringLiterals text)
    (hword : (offset, word) ∈ words ((literal.of text).drop 1).dropLast) :
    ∃ a b, WordAt a word b text ∧ literal.start + 1 + offset = a.length ∧
      literal.start < a.length ∧ (a ++ word).length < literal.stop := by
  obtain ⟨front, quote, body, rest, htext, hquote, -, rfl, hof⟩ :=
    exists_of_mem_stringLiterals hliteral
  rw [hof, List.drop_succ_cons, List.drop_zero, List.dropLast_concat] at hword
  obtain ⟨a, b, rfl, rfl, hne, hblank, hbefore, hbehind⟩ := exists_of_mem_wordsFrom hword
  refine ⟨front ++ quote :: a, b ++ quote :: rest, ⟨by simp [htext], hne, hblank, ?_, ?_⟩, ?_, ?_,
    ?_⟩
  · rw [List.getLast?_append_of_ne_nil _ (List.cons_ne_nil quote a), List.getLast?_cons]
    cases ha : a.getLast? <;> rw [ha] at hbefore
    · exact Bool.or_eq_true_iff.mpr (.inr hquote)
    · exact Bool.or_eq_true_iff.mpr (.inl hbefore)
  · cases b with
    | nil => exact Bool.or_eq_true_iff.mpr (.inr hquote)
    | cons c b => exact Bool.or_eq_true_iff.mpr (.inl hbehind)
  all_goals
    simp only [List.length_append, List.length_cons, Span.stop]
    omega

/-- The words of literals are stretches of the text that stand between edges. -/
theorem exists_of_mem_literalWords {text word : List Char} {pos : Nat}
    (h : (pos, word) ∈ literalWords text) : ∃ a b, WordAt a word b text ∧ pos = a.length ∧
      ∃ literal ∈ stringLiterals text, literal.start ≤ a.length ∧
        (a ++ word).length ≤ literal.stop := by
  obtain ⟨literal, hliteral, hplace⟩ := List.mem_flatMap.mp h
  obtain ⟨⟨offset, word'⟩, hword, heq⟩ := List.mem_map.mp hplace
  obtain ⟨rfl, rfl⟩ := Prod.mk.inj heq
  obtain ⟨a, b, hat, hpos, hstart, hstop⟩ := exists_of_mem_words hliteral hword
  exact ⟨a, b, hat, hpos, literal, hliteral, hstart.le, hstop.le⟩

/-! ## The entries of the list -/

/-- An entry is read from a word of its literal and shows the place of the word. -/
theorem exists_of_mem_editableInLiteral {text : List Char} {literal : Span} {x : EditableProperty}
    (h : x ∈ editableInLiteral text literal) : ∃ offset n,
      (offset, x.token.toList) ∈ words ((literal.of text).drop 1).dropLast ∧
      LineColumn.behind (text.take (literal.start + 1 + offset))
        = ⟨x.locator.line, x.locator.column⟩ ∧
      x.pixels = some n ∧ classify? x.token.toList = some (x.property, n) := by
  obtain ⟨⟨offset, word⟩, hword, hx⟩ := List.mem_filterMap.mp h
  obtain ⟨⟨p, n⟩, hread, rfl⟩ := Option.map_eq_some_iff.mp hx
  exact ⟨offset, n, by rwa [String.toList_ofList], rfl, rfl, by rwa [String.toList_ofList]⟩

theorem exists_of_mem_editable {text : List Char} {x : EditableProperty}
    (h : x ∈ editableProperties text) : ∃ a b, WordAt a x.token.toList b text ∧
      (a.length, x.token.toList) ∈ literalWords text ∧
      LineColumn.behind a = ⟨x.locator.line, x.locator.column⟩ ∧
      ∃ n, x.pixels = some n ∧ x.property.pixels? x.token.toList = some n := by
  obtain ⟨literal, hliteral, hx⟩ := List.mem_flatMap.mp h
  obtain ⟨offset, n, hword, hshown, hpixels, hread⟩ := exists_of_mem_editableInLiteral hx
  obtain ⟨a, b, hplace, hpos, -⟩ := exists_of_mem_words hliteral hword
  rw [hpos, hplace.text_eq, List.take_left] at hshown
  refine ⟨a, b, hplace, ?_, hshown, n, hpixels, classify?_eq_some_iff.mp hread⟩
  exact List.mem_flatMap.mpr ⟨literal, hliteral, List.mem_map.mpr ⟨_, hword, by rw [← hpos]⟩⟩

theorem exists_editable {text a word b : List Char} (hmem : (a.length, word) ∈ literalWords text)
    (htext : text = a ++ (word ++ b)) {p : Property} {n : Nat} (hn : p.pixels? word = some n) :
    ∃ x ∈ editableProperties text, x.property = p ∧ x.pixels = some n ∧ x.token.toList = word ∧
      LineColumn.behind a = ⟨x.locator.line, x.locator.column⟩ := by
  obtain ⟨literal, hliteral, hplace⟩ := List.mem_flatMap.mp hmem
  obtain ⟨⟨offset, word'⟩, hword, heq⟩ := List.mem_map.mp hplace
  obtain ⟨hpos, rfl⟩ := Prod.mk.inj heq
  have htake : text.take (literal.start + 1 + offset) = a := by
    rw [hpos, htext, List.take_left]
  refine ⟨_, List.mem_flatMap.mpr ⟨literal, hliteral, List.mem_filterMap.mpr ⟨_, hword,
    Option.map_eq_some_iff.mpr ⟨_, classify?_eq_some_iff.mpr hn, rfl⟩⟩⟩, rfl, rfl,
    String.toList_ofList, by rw [← htake]⟩

/-- An entry ends where its word does. -/
theorem endsAt_iff {text a b : List Char} {x : EditableProperty} {stop : Nat}
    (htext : text = a ++ (x.token.toList ++ b))
    (hplace : LineColumn.behind a = ⟨x.locator.line, x.locator.column⟩) :
    x.EndsAt text stop ↔ stop = byteLength (a ++ x.token.toList) := by
  constructor
  · rintro ⟨a', b', htext', hplace', rfl⟩
    rw [LineColumn.eq_of_behind_eq (htext.symm.trans htext') (hplace.trans hplace'.symm)]
  · rintro rfl
    exact ⟨a, b, htext, hplace, rfl⟩

/-! ## Tokens at the end of a word -/

theorem isLead_of_isEdge {c : Char} (h : isEdge c = true) : isLead c = true := by
  simp only [isEdge, isQuote, Bool.or_eq_true, decide_eq_true_eq] at h
  rcases h with h | (rfl | rfl) | rfl
  · simp [isLead, h]
  all_goals decide

theorem isTrail_of_isEdge {c : Char} (h : isEdge c = true) : isTrail c = true := by
  simp only [isEdge, isQuote, Bool.or_eq_true, decide_eq_true_eq] at h
  rcases h with h | (rfl | rfl) | rfl
  · simp [isTrail, h]
  all_goals decide

/-- Of the lead characters only blanks are white space. -/
theorem isWhiteSpace_of_isLead {c : Char} (h : isLead c = true) (hblank : isBlank c = false) :
    isWhiteSpace c = false := by
  simp only [isLead, hblank, Bool.or_eq_true, decide_eq_true_eq, Bool.false_eq_true,
    false_or] at h
  rcases h with (((((rfl | rfl) | rfl) | rfl) | rfl) | rfl) | rfl <;> decide

section

variable {text a b word : List Char} {p : Property}

/-- A token that ends where a word of a literal ends is the end of the word. -/
theorem exists_modifiers {h : Hit} (hword : WordAt a word b text) (hmem : h ∈ p.hits text)
    (hstop : h.stop = byteLength (a ++ word)) :
    ∃ modifiers, word = modifiers ++ h.token ∧ h = p.hitBehind (a ++ modifiers) h.token ∧
      modifiers.getLast?.all (fun c => !isWhiteSpace c) = true := by
  obtain ⟨a', b', hplace, htoken, heq⟩ := exists_of_mem_hits hmem
  have hends : a ++ word = a' ++ h.token := by
    have htext : a ++ word ++ b = a' ++ h.token ++ b' := by
      rw [List.append_assoc, List.append_assoc, ← hword.text_eq, ← hplace.text_eq]
    refine eq_of_byteLength_eq htext ?_
    rw [← hstop, heq]
    rfl
  rcases List.append_eq_append_iff.mp hends with ⟨m, rfl, hm⟩ | ⟨u, rfl, hu⟩
  · refine ⟨m, hm, heq, ?_⟩
    cases hlast : m.getLast? with
    | none => rfl
    | some c =>
        have hlead : isLead c = true := by
          simpa [List.getLast?_append, hlast] using hplace.lead
        have hblank : isBlank c = false :=
          hword.not_blank c (hm ▸ List.mem_append_left _ (List.mem_of_getLast? hlast))
        rw [Option.all_some, isWhiteSpace_of_isLead hlead hblank]
        rfl
  · cases hlast : u.getLast? with
    | none =>
        obtain rfl := List.getLast?_eq_none_iff.mp hlast
        exact ⟨[], hu.symm, by rwa [List.append_nil, List.append_nil], rfl⟩
    | some c =>
        -- the token would reach over the edge in front of the word
        have hedge : isEdge c = true := by
          simpa [List.getLast?_append, hlast] using hword.before
        have hlead := not_isLead_of_isToken htoken c
          (hu ▸ List.mem_append_left _ (List.mem_of_getLast? hlast))
        rw [isLead_of_isEdge hedge] at hlead
        cases hlead

theorem all_getLast?_of_colon {modifiers : List Char} {q : Char → Bool}
    (hcolon : modifiers.getLast?.all (· = ':') = true) (hq : q ':' = true) :
    modifiers.getLast?.all q = true :=
  all_of_imp (fun h => of_decide_eq_true h ▸ hq) hcolon

/-- A token with modifiers in front of it that ends a word of a literal is found there. -/
theorem tokenAt_of_wordAt {modifiers token : List Char}
    (hword : WordAt a (modifiers ++ token) b text)
    (hcolon : modifiers.getLast?.all (· = ':') = true) : TokenAt (a ++ modifiers) token b text := by
  refine ⟨by rw [hword.text_eq]; simp, ?_, ?_⟩
  · have hlead := all_getLast?_of_colon (q := isLead) hcolon rfl
    rw [List.getLast?_append]
    cases hlast : modifiers.getLast? with
    | none => exact all_of_imp isLead_of_isEdge hword.before
    | some c => rwa [hlast] at hlead
  · exact all_of_imp isTrail_of_isEdge hword.behind

/-- A token at the end of a word of a literal lies in the literal. -/
theorem inLiteral_hitBehind {modifiers token : List Char}
    (hword : WordAt a (modifiers ++ token) b text)
    (hmem : (a.length, modifiers ++ token) ∈ literalWords text) :
    (p.hitBehind (a ++ modifiers) token).InLiteral text := by
  obtain ⟨a', -, -, hlength, literal, hliteral, hstart, hstop⟩ := exists_of_mem_literalWords hmem
  have htext : text = a ++ modifiers ++ token ++ b := by
    rw [hword.text_eq]
    simp only [List.append_assoc]
  have hbefore : byteOffset text (a ++ modifiers).length = byteLength (a ++ modifiers) := by
    rw [htext, List.append_assoc (a ++ modifiers), byteOffset_append_length]
  have hbehind : byteOffset text (a ++ modifiers ++ token).length
      = byteLength (a ++ modifiers ++ token) := by
    rw [htext, byteOffset_append_length]
  refine ⟨literal, hliteral, ?_, ?_⟩
  · rw [Property.hitBehind, ← hbefore]
    refine byteOffset_le_byteOffset text ?_
    rw [List.length_append]
    omega
  · rw [Property.hitBehind, ← hbehind]
    refine byteOffset_le_byteOffset text ?_
    simp only [List.length_append] at hstop ⊢
    omega

/-! ## Entries and tokens -/

/-- An entry is a token that is found just if its word is modifiers and a token. -/
theorem exists_readFrom_iff_sound {x : EditableProperty} (hx : x ∈ editableProperties text) :
    (∃ h ∈ x.property.hits text, h.InLiteral text ∧ x.ReadFrom text h) ↔ x.Sound := by
  obtain ⟨a, b, hword, hmem, hplace, n, hpixels, hread⟩ := exists_of_mem_editable hx
  constructor
  · rintro ⟨h, hh, -, hfrom⟩
    obtain ⟨modifiers, hsplit, heq, hlast⟩ :=
      exists_modifiers hword hh ((endsAt_iff hword.text_eq hplace).mp hfrom.stop)
    obtain ⟨-, -, -, htoken, -⟩ := exists_of_mem_hits hh
    have hbare := hfrom.token
    rw [hsplit, bareToken_modifiers htoken hlast] at hbare
    exact ⟨modifiers, by rw [hfrom.token, ← hsplit], hbare.2,
      by rw [hfrom.token]; exact Property.isToken_iff.mp htoken⟩
  · rintro ⟨modifiers, hsplit, hcolon, htoken⟩
    generalize htok : bareToken x.token.toList = token at hsplit htoken
    rw [← Property.isToken_iff] at htoken
    have hends : x.EndsAt text (byteLength (a ++ x.token.toList)) :=
      (endsAt_iff hword.text_eq hplace).mpr rfl
    rw [hsplit] at hword hmem hends
    refine ⟨_, hitBehind_mem_hits (tokenAt_of_wordAt hword hcolon) htoken,
      inLiteral_hitBehind hword hmem, rfl, ?_, ?_, htok⟩
    · rw [hpixels, ← hread, pixels?_of_bareToken htok htoken]
      rfl
    · rw [Property.hitBehind, List.append_assoc]
      exact hends

/-- A token that is found is an entry just if it ends its word behind modifiers without a
bracket. -/
theorem exists_readFrom_iff_plain {h : Hit} (hh : h ∈ p.hits text) {n : Nat}
    (hpixels : h.pixels = some n) :
    (∃ x ∈ editableProperties text, x.ReadFrom text h) ↔ h.Plain text := by
  obtain ⟨a', b', hat, htoken, heq⟩ := exists_of_mem_hits hh
  constructor
  · rintro ⟨x, hx, hfrom⟩
    obtain ⟨a, b, hword, hmem, hplace, -⟩ := exists_of_mem_editable hx
    obtain ⟨modifiers, hsplit, heq', hlast⟩ :=
      exists_modifiers hword hh ((endsAt_iff hword.text_eq hplace).mp hfrom.stop)
    have hbare := hfrom.token
    rw [hsplit, bareToken_modifiers htoken hlast] at hbare
    refine ⟨a.length, modifiers, by rwa [← hsplit], ?_, hbare⟩
    rw [heq', ← List.length_append, hword.text_eq, hsplit, List.append_assoc, ← List.append_assoc a,
      byteOffset_append_length]
    rfl
  · rintro ⟨pos, modifiers, hmem, hstart, hbracket, hcolon⟩
    obtain ⟨a, b, hword, rfl, -⟩ := exists_of_mem_literalWords hmem
    have hlast : modifiers.getLast?.all (fun c => !isWhiteSpace c) = true :=
      all_getLast?_of_colon hcolon rfl
    have hbare := (bareToken_modifiers htoken hlast).mpr ⟨hbracket, hcolon⟩
    have hread : p.pixels? (modifiers ++ h.token) = some n := by
      rw [pixels?_of_bareToken hbare htoken, ← hpixels, heq]
      rfl
    obtain ⟨x, hx, hproperty, hn, htok, hplace⟩ := exists_editable hmem hword.text_eq hread
    have htext : text = a ++ (x.token.toList ++ b) := by rw [htok, hword.text_eq]
    refine ⟨x, hx, ?_, by rw [hn, hpixels], (endsAt_iff htext hplace).mpr ?_, by rw [htok, hbare]⟩
    · rw [hproperty, heq]
      rfl
    · have hstop : h.stop = h.start + byteLength h.token := by
        rw [heq]
        exact byteLength_append ..
      rw [hstop, hstart, htok, hword.text_eq, List.append_assoc, ← List.append_assoc a,
        ← List.length_append, byteOffset_append_length, ← byteLength_append, List.append_assoc]

end

/-- An entry of the list is a token that is found in a literal just if its word is modifiers and a
token, and a token that is found in a literal is an entry just if it ends its word behind modifiers
without a bracket. Where all of them are so, the two ways to recognise tokens agree. -/
theorem edited_iff_found (text : List Char) :
    (∀ x ∈ editableProperties text,
      (∃ h ∈ x.property.hits text, h.InLiteral text ∧ x.ReadFrom text h) ↔ x.Sound) ∧
    (∀ p : Property, ∀ h ∈ p.hits text, h.InLiteral text → h.pixels ≠ none →
      ((∃ x ∈ editableProperties text, x.ReadFrom text h) ↔ h.Plain text)) ∧
    ((∀ x ∈ editableProperties text, x.Sound) →
      (∀ p : Property, ∀ h ∈ p.hits text, h.InLiteral text → h.pixels ≠ none → h.Plain text) →
      ∀ stop p n, Edited text stop p n ↔ Found text stop p n) := by
  have hplain : ∀ p : Property, ∀ h ∈ p.hits text, h.InLiteral text → h.pixels ≠ none →
      ((∃ x ∈ editableProperties text, x.ReadFrom text h) ↔ h.Plain text) := by
    intro p h hh _ hsome
    obtain ⟨n, hn⟩ := Option.ne_none_iff_exists'.mp hsome
    exact exists_readFrom_iff_plain hh hn
  refine ⟨fun x hx => exists_readFrom_iff_sound hx, hplain, fun hsound hall stop p n => ?_⟩
  constructor
  · rintro ⟨x, hx, hends, rfl, hn⟩
    obtain ⟨h, hh, hliteral, hfrom⟩ := (exists_readFrom_iff_sound hx).mpr (hsound x hx)
    obtain ⟨a, b, hword, -, hplace, -⟩ := exists_of_mem_editable hx
    refine ⟨h, hh, hliteral, ?_, hfrom.pixels ▸ hn⟩
    rw [(endsAt_iff hword.text_eq hplace).mp hends, (endsAt_iff hword.text_eq hplace).mp hfrom.stop]
  · rintro ⟨h, hh, hliteral, rfl, hn⟩
    have hsome : h.pixels ≠ none := by rw [hn]; exact Option.some_ne_none n
    obtain ⟨x, hx, hfrom⟩ := (hplain p h hh hliteral hsome).mpr (hall p h hh hliteral hsome)
    exact ⟨x, hx, hfrom.stop, hfrom.property.trans (mem_hits_iff.mp hh).1, hfrom.pixels.trans hn⟩

theorem edited_iff_found_modified :
    let text := "\"md:h-4 px-[3px]\"".toList
    (∀ x ∈ editableProperties text, x.Sound) ∧
      (∀ p : Property, ∀ h ∈ p.hits text, h.InLiteral text → h.pixels ≠ none → h.Plain text) ∧
      (Edited text 7 .height 16 ↔ Found text 7 .height 16) ∧ Edited text 7 .height 16 := by
  intro text
  have hlist : editableProperties text = [⟨.height, "md:h-4", some 16, ⟨1, 2, "literal"⟩⟩,
      ⟨.paddingX, "px-[3px]", some 3, ⟨1, 9, "literal"⟩⟩] := by decide
  have hhits : ∀ p : Property, p.hits text =
      if p = .height then [⟨.height, "h-4".toList, 4, 7, some 16⟩]
      else if p = .paddingX then [⟨.paddingX, "px-[3px]".toList, 8, 16, some 3⟩] else [] := by
    intro p
    cases p <;> decide
  have hsound : ∀ x ∈ editableProperties text, x.Sound := by
    rw [hlist]
    simp only [List.forall_mem_cons, List.not_mem_nil, false_implies, implies_true, and_true]
    exact ⟨⟨"md:".toList, by decide, by decide, Property.isToken_iff.mp (by decide)⟩,
      ⟨[], by decide, by decide, Property.isToken_iff.mp (by decide)⟩⟩
  have hplain : ∀ p : Property, ∀ h ∈ p.hits text, h.InLiteral text → h.pixels ≠ none →
      h.Plain text := by
    intro p h hh _ _
    rw [hhits p] at hh
    split at hh
    case isTrue =>
      obtain rfl := List.mem_singleton.mp hh
      exact ⟨1, "md:".toList, by decide, by decide, by decide, by decide⟩
    case isFalse =>
      split at hh
      case isTrue =>
        obtain rfl := List.mem_singleton.mp hh
        exact ⟨8, [], by decide, by decide, by decide, by decide⟩
      case isFalse => cases hh
  have hedited : Edited text 7 .height 16 :=
    ⟨_, hlist ▸ List.mem_cons_self ..,
      ⟨['"'], " px-[3px]\"".toList, by decide, by decide, by decide⟩, rfl, rfl⟩
  exact ⟨hsound, hplain, (edited_iff_found text).2.2 hsound hplain 7 .height 16, hedited⟩

/-- Without blanks a list is one word, so its tokens are found and are no entries. Behind a number
in brackets anything may follow in an entry, and no token is found. -/
theorem edited_and_found_differ :
    (Found "\"h-4,w-4\"".toList 4 .height 16 ∧ ¬Edited "\"h-4,w-4\"".toList 4 .height 16) ∧
      Edited "\"h-[40px]junk\"".toList 13 .height 40 ∧
      ¬Found "\"h-[40px]junk\"".toList 13 .height 40 := by
  have hfound : Property.height.hits "\"h-4,w-4\"".toList
      = [⟨.height, "h-4".toList, 1, 4, some 16⟩] := by decide
  have hlist : editableProperties "\"h-4,w-4\"".toList = [] := by decide
  have hjunk : editableProperties "\"h-[40px]junk\"".toList
      = [⟨.height, "h-[40px]junk", some 40, ⟨1, 2, "literal"⟩⟩] := by decide
  have hnone : Property.height.hits "\"h-[40px]junk\"".toList = [] := by decide
  refine ⟨⟨?_, ?_⟩, ?_, ?_⟩
  · exact ⟨_, hfound ▸ List.mem_singleton_self _, ⟨⟨0, 9⟩, by decide, by decide, by decide⟩, rfl,
      rfl⟩
  · rintro ⟨x, hx, -⟩
    rw [hlist] at hx
    cases hx
  · exact ⟨_, hjunk ▸ List.mem_singleton_self _, ⟨['"'], ['"'], by decide, by decide, by decide⟩,
      rfl, rfl⟩
  · rintro ⟨h, hh, -⟩
    rw [hnone] at hh
    cases hh

end DesignTokens
