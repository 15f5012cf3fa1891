import DesignTokens.Proofs.Token.Grammar

/-!
# The tokens of a text

The tokens of a property that are found in a text are exactly the words of the
grammar that stand at a place of their own (`mem_occurrences_iff`). They are
listed in the order of the text, and there is a character at least between two
of them (`exists_gap`). What is found behind a lead character does not depend on
the text in front of it, so the tokens of a text can be listed piece by piece
(`occurrences_append`, `occurrences_word`).
-/

namespace DesignTokens

open Text

/-- The occurrence with `n` characters more in front of it. -/
def Occurrence.moved (n : Nat) (o : Occurrence) : Occurrence := { o with start := n + o.start }

section

variable {p : Property}

/-! ## Words of tokens -/

theorem tokenWord_append {word behind : List Char} (hword : ∀ c ∈ word, isTrail c = false)
    (hbehind : behind.head?.all isTrail = true) : tokenWord (word ++ behind) = word := by
  rw [tokenWord, List.takeWhile_append_of_pos fun c hc => by rw [hword c hc]; rfl]
  cases behind with
  | nil => simp
  | cons c behind =>
      have hc : isTrail c = true := by simpa using hbehind
      simp [hc]

theorem not_isTrail_of_isToken {word : List Char} (h : p.isToken word = true) :
    ∀ c ∈ word, isTrail c = false := fun c hc =>
  (not_boundary_of_isTokenChar ((Property.isTokenChar_of_isToken h).2 c hc)).2

theorem not_isLead_of_isToken {word : List Char} (h : p.isToken word = true) :
    ∀ c ∈ word, isLead c = false := fun c hc =>
  (not_boundary_of_isTokenChar ((Property.isTokenChar_of_isToken h).2 c hc)).1

/-- The tokens that are found are the tokens that stand at a place of their own. -/
theorem mem_occurrences_iff {text : List Char} {o : Occurrence} :
    o ∈ p.occurrences text ↔ ∃ a b, TokenAt a o.token b text ∧ p.isToken o.token = true ∧
      o = ⟨p, a.length, o.token, p.pixels? o.token⟩ := by
  constructor
  · intro h
    obtain ⟨⟨pos, rest⟩, hstart, ho⟩ := List.mem_filterMap.mp h
    obtain ⟨a, rfl, rfl, hlead⟩ := mem_tokenStarts_iff.mp hstart
    dsimp only at ho
    split at ho
    case isFalse => cases ho
    case isTrue htoken =>
      cases ho
      refine ⟨a, rest.dropWhile fun c => !isTrail c, ⟨?_, hlead, all_head?_dropWhile isTrail rest⟩,
        htoken, rfl⟩
      rw [tokenWord, List.takeWhile_append_dropWhile]
  · rintro ⟨a, b, ⟨rfl, hlead, htrail⟩, htoken, ho⟩
    have hword := tokenWord_append (not_isTrail_of_isToken htoken) htrail
    refine List.mem_filterMap.mpr ⟨(a.length, o.token ++ b),
      mem_tokenStarts_iff.mpr ⟨a, rfl, rfl, hlead⟩, ?_⟩
    dsimp only
    rw [hword, if_pos htoken]
    exact congrArg some ho.symm

/-! ## The order of tokens -/

theorem lt_of_mem_startsFrom {pos q : Nat} {rest : List Char} : ∀ {cs : List Char} {atLead : Bool},
    (q, rest) ∈ startsFrom atLead pos cs → pos ≤ q := by
  intro cs atLead h
  obtain ⟨a, -, rfl⟩ := exists_of_mem_startsFrom h
  exact Nat.le_add_right ..

theorem pairwise_startsFrom : ∀ (cs : List Char) (atLead : Bool) (pos : Nat),
    (startsFrom atLead pos cs).Pairwise fun x y => x.1 < y.1
  | [], atLead, pos => by cases atLead <;> simp [startsFrom]
  | c :: cs, atLead, pos => by
      have hlater := pairwise_startsFrom cs (isLead c) (pos + 1)
      cases atLead with
      | false => exact hlater
      | true => exact List.pairwise_cons.mpr ⟨fun y hy => lt_of_mem_startsFrom hy, hlater⟩

theorem pairwise_start_occurrences (text : List Char) :
    (p.occurrences text).Pairwise fun o o' => o.start < o'.start := by
  refine List.Pairwise.filterMap _ ?_ (pairwise_startsFrom text true 0)
  intro x y hxy o ho o' ho'
  dsimp only at ho ho'
  split at ho <;> cases ho
  split at ho' <;> cases ho'
  exact hxy

/-- A character at least stands between two tokens: the later one has a lead character in front,
and the earlier one has none. -/
theorem exists_gap {q : Property} {text : List Char} {o o' : Occurrence}
    (h : o ∈ p.occurrences text) (h' : o' ∈ q.occurrences text) (hlt : o.start < o'.start) :
    ∃ a gap b, text = a ++ (o.token ++ (gap ++ (o'.token ++ b))) ∧ gap ≠ [] ∧
      o.start = a.length ∧ o'.start = (a ++ (o.token ++ gap)).length := by
  obtain ⟨a, b, hplace, htoken, ho⟩ := mem_occurrences_iff.mp h
  obtain ⟨a', b', hplace', -, ho'⟩ := mem_occurrences_iff.mp h'
  have hstart : o.start = a.length := by rw [ho]
  have hstart' : o'.start = a'.length := by rw [ho']
  obtain ⟨u, rfl⟩ : ∃ u, a' = a ++ u := by
    refine ⟨a'.drop a.length, ?_⟩
    have htake := congrArg (List.take a.length) (hplace.text_eq.symm.trans hplace'.text_eq)
    rw [List.take_left, List.take_append_of_le_length (by omega)] at htake
    conv_lhs => rw [← List.take_append_drop a.length a', ← htake]
  have hrest : o.token ++ b = u ++ (o'.token ++ b') := by
    have := hplace.text_eq.symm.trans hplace'.text_eq
    rwa [List.append_assoc, List.append_cancel_left_eq] at this
  have hu : u ≠ [] := by
    rintro rfl
    simp [hstart, hstart'] at hlt
  have hnot : ¬∀ c ∈ u, c ∈ o.token := by
    intro hsub
    have hlead := hplace'.lead
    rw [List.getLast?_append_of_ne_nil a hu, List.getLast?_eq_getLast_of_ne_nil hu,
      Option.all_some, not_isLead_of_isToken htoken _ (hsub _ (List.getLast_mem hu))] at hlead
    cases hlead
  rcases List.append_eq_append_iff.mp hrest with ⟨gap, rfl, hb⟩ | ⟨v, hv, -⟩
  · refine ⟨a, gap, b', by rw [hplace'.text_eq]; simp only [List.append_assoc], ?_, hstart, hstart'⟩
    rintro rfl
    exact hnot fun c hc => by simpa using hc
  · exact absurd (fun c hc => hv ▸ List.mem_append_left v hc) hnot

/-! ## The tokens of a text piece by piece -/

/-- The token at the start of a text, the text being at a position. -/
def Property.tokenAt? (p : Property) (place : Nat × List Char) : Option Occurrence :=
  if p.isToken (tokenWord place.2) then
    some ⟨p, place.1, tokenWord place.2, p.pixels? (tokenWord place.2)⟩
  else none

/-- The tokens of a piece of a text, where `atLead` tells whether one may start right away. -/
def Property.occurrencesFrom (p : Property) (atLead : Bool) (pos : Nat) (cs : List Char) :
    List Occurrence :=
  (startsFrom atLead pos cs).filterMap p.tokenAt?

theorem occurrences_eq (text : List Char) : p.occurrences text = p.occurrencesFrom true 0 text :=
  rfl

theorem tokenAt?_nil (pos : Nat) : p.tokenAt? (pos, []) = none := by
  refine if_neg fun h => ?_
  exact (Property.isTokenChar_of_isToken h).1 rfl

theorem occurrencesFrom_nil (atLead : Bool) (pos : Nat) : p.occurrencesFrom atLead pos [] = [] := by
  cases atLead
  · rfl
  · simp [Property.occurrencesFrom, startsFrom, tokenAt?_nil]

theorem occurrencesFrom_false_cons (pos : Nat) (c : Char) (cs : List Char) :
    p.occurrencesFrom false pos (c :: cs) = p.occurrencesFrom (isLead c) (pos + 1) cs := by
  rw [Property.occurrencesFrom, startsFrom, if_neg Bool.false_ne_true, Property.occurrencesFrom]

theorem occurrencesFrom_true_cons (pos : Nat) (c : Char) (cs : List Char) :
    p.occurrencesFrom true pos (c :: cs)
      = (p.tokenAt? (pos, c :: cs)).toList ++ p.occurrencesFrom false pos (c :: cs) := by
  rw [Property.occurrencesFrom, startsFrom]
  simp only [if_true, List.filterMap_cons, occurrencesFrom_false_cons]
  cases p.tokenAt? (pos, c :: cs) <;> rfl

theorem occurrencesFrom_true (pos : Nat) (cs : List Char) :
    p.occurrencesFrom true pos cs
      = (p.tokenAt? (pos, cs)).toList ++ p.occurrencesFrom false pos cs := by
  cases cs with
  | nil => rw [occurrencesFrom_nil, occurrencesFrom_nil, tokenAt?_nil]; rfl
  | cons c cs => exact occurrencesFrom_true_cons pos c cs

theorem occurrencesFrom_add (n : Nat) : ∀ (atLead : Bool) (pos : Nat) (cs : List Char),
    p.occurrencesFrom atLead (n + pos) cs
      = (p.occurrencesFrom atLead pos cs).map (Occurrence.moved n)
  | _, _, [] => by rw [occurrencesFrom_nil, occurrencesFrom_nil]; rfl
  | false, pos, c :: cs => by
      rw [occurrencesFrom_false_cons, occurrencesFrom_false_cons, Nat.add_assoc,
        occurrencesFrom_add n _ _ cs]
  | true, pos, c :: cs => by
      have hhere : p.tokenAt? (n + pos, c :: cs)
          = (p.tokenAt? (pos, c :: cs)).map (Occurrence.moved n) := by
        simp only [Property.tokenAt?]
        split <;> rfl
      rw [occurrencesFrom_true_cons, occurrencesFrom_true_cons, List.map_append,
        occurrencesFrom_false_cons, occurrencesFrom_false_cons, Nat.add_assoc,
        occurrencesFrom_add n _ _ cs, hhere]
      cases p.tokenAt? (pos, c :: cs) <;> rfl

/-- A token does not go on over a lead character, so it is found in front of one or not at all. -/
theorem tokenAt?_append {x rest : List Char} (hne : x ≠ []) (hlead : x.getLast?.all isLead = true)
    (pos : Nat) : p.tokenAt? (pos, x ++ rest) = p.tokenAt? (pos, x) := by
  have hmem : ∃ c ∈ x, isLead c = true :=
    ⟨x.getLast hne, List.getLast_mem hne,
      by simpa [List.getLast?_eq_getLast_of_ne_nil hne] using hlead⟩
  by_cases htrail : ∀ c ∈ x, isTrail c = false
  · -- the word goes over all of `x` in both texts
    have hnot : ∀ word, (∀ c ∈ x, c ∈ word) → p.isToken word = false := by
      intro word hword
      refine Bool.eq_false_iff.mpr fun h => ?_
      obtain ⟨c, hc, hcl⟩ := hmem
      rw [not_isLead_of_isToken h c (hword c hc)] at hcl
      cases hcl
    have hall : ∀ c ∈ x, (!isTrail c) = true := fun c hc => by rw [htrail c hc]; rfl
    have hlong : p.isToken (tokenWord (x ++ rest)) = false := by
      rw [tokenWord, List.takeWhile_append_of_pos hall]
      exact hnot _ fun c hc => List.mem_append_left _ hc
    have hshort : p.isToken (tokenWord x) = false := by
      rw [tokenWord, List.takeWhile_eq_self_iff.mpr hall]
      exact hnot _ fun c hc => hc
    simp [Property.tokenAt?, hlong, hshort]
  · obtain ⟨c, hc, hstop⟩ : ∃ c ∈ x, (!isTrail c) = false := by simpa using htrail
    obtain ⟨u, v, rfl⟩ := List.append_of_mem hc
    have hword : tokenWord (u ++ c :: v ++ rest) = tokenWord (u ++ c :: v) := by
      rw [tokenWord, tokenWord, List.append_assoc, List.cons_append, takeWhile_append_stop hstop,
        takeWhile_append_stop hstop]
    simp only [Property.tokenAt?, hword]

theorem occurrencesFrom_append {rest : List Char} : ∀ {a : List Char} (atLead : Bool) (pos : Nat),
    a ≠ [] → a.getLast?.all isLead = true → p.occurrencesFrom atLead pos (a ++ rest)
      = p.occurrencesFrom atLead pos a ++ p.occurrencesFrom true (pos + a.length) rest
  | c :: a, atLead, pos, hne, hlead => by
      have hbehind : p.occurrencesFrom false pos (c :: a ++ rest)
          = p.occurrencesFrom false pos (c :: a)
            ++ p.occurrencesFrom true (pos + (c :: a).length) rest := by
        rw [List.cons_append, occurrencesFrom_false_cons, occurrencesFrom_false_cons]
        cases a with
        | nil =>
            have hc : isLead c = true := by simpa using hlead
            rw [hc, occurrencesFrom_nil]
            rfl
        | cons d a =>
            have hpos : pos + (c :: d :: a).length = pos + 1 + (d :: a).length := by
              simp only [List.length_cons]
              omega
            rw [hpos, occurrencesFrom_append (isLead c) (pos + 1) (List.cons_ne_nil d a)
              (by rwa [List.getLast?_cons_cons] at hlead)]
      cases atLead with
      | false => exact hbehind
      | true =>
          rw [occurrencesFrom_true, occurrencesFrom_true, tokenAt?_append hne hlead, hbehind,
            List.append_assoc]

/-- The tokens behind a lead character are found without regard to what stands in front. -/
theorem occurrences_append {a rest : List Char} (hlead : a.getLast?.all isLead = true) :
    p.occurrences (a ++ rest)
      = p.occurrences a ++ (p.occurrences rest).map (Occurrence.moved a.length) := by
  cases a with
  | nil =>
      have hmoved : Occurrence.moved ([] : List Char).length = id := by
        funext o
        simp [Occurrence.moved]
      rw [hmoved, List.map_id, occurrences_eq [], occurrencesFrom_nil]
      rfl
  | cons c a =>
      rw [occurrences_eq, occurrencesFrom_append true 0 (List.cons_ne_nil c a) hlead,
        ← occurrences_eq, Nat.zero_add, occurrences_eq rest, ← occurrencesFrom_add, Nat.add_zero]

theorem occurrencesFrom_false_append {b : List Char} : ∀ {word : List Char} (pos : Nat),
    (∀ c ∈ word, isLead c = false) → p.occurrencesFrom false pos (word ++ b)
      = p.occurrencesFrom false (pos + word.length) b
  | [], _, _ => rfl
  | c :: word, pos, h => by
      obtain ⟨hc, hword⟩ := List.forall_mem_cons.mp h
      rw [List.cons_append, occurrencesFrom_false_cons, hc, occurrencesFrom_false_append _ hword,
        List.length_cons, Nat.add_assoc pos, Nat.add_comm 1]

/-- A word without boundary characters is a token or not, and the tokens behind it are found
without regard to it. -/
theorem occurrences_word {word b : List Char} (hlead : ∀ c ∈ word, isLead c = false)
    (htrail : ∀ c ∈ word, isTrail c = false) (hb : b.head?.all isTrail = true) :
    p.occurrences (word ++ b)
      = (if p.isToken word then [⟨p, 0, word, p.pixels? word⟩] else [])
        ++ (p.occurrencesFrom false 0 b).map (Occurrence.moved word.length) := by
  rw [occurrences_eq, occurrencesFrom_true, occurrencesFrom_false_append 0 hlead, Nat.zero_add,
    ← occurrencesFrom_add, Nat.add_zero, Property.tokenAt?]
  dsimp only
  rw [tokenWord_append htrail hb]
  split <;> rfl

/-! ## The bytes of tokens -/

/-- A token as it is reported: where it stands is told in bytes. -/
structure Hit where
  property : Property
  token : List Char
  start : Nat
  stop : Nat
  pixels : Option Nat
  deriving Repr, DecidableEq

/-- The report of an occurrence in a text. -/
def Occurrence.hit (text : List Char) (o : Occurrence) : Hit :=
  ⟨o.property, o.token, o.byteStart text, o.byteStop text, o.pixels⟩

/-- The tokens of a property in a text as they are reported. -/
def Property.hits (p : Property) (text : List Char) : List Hit :=
  (p.occurrences text).map (Occurrence.hit text)

/-- The report of a token of the property that stands behind `a`. -/
def Property.hitBehind (p : Property) (a token : List Char) : Hit :=
  ⟨p, token, byteLength a, byteLength (a ++ token), p.pixels? token⟩

theorem byteStart_append {o : Occurrence} {a : List Char} (hstart : o.start = a.length)
    (b : List Char) : o.byteStart (a ++ b) = byteLength a := by
  rw [Occurrence.byteStart, hstart, byteOffset_append_length]

theorem byteStop_append {o : Occurrence} {a : List Char} (hstart : o.start = a.length)
    (b : List Char) : o.byteStop (a ++ b) = byteLength (a ++ o.token) := by
  rw [Occurrence.byteStop, byteStart_append hstart, byteLength_append]

/-- The reported stretches are just those of the words of the grammar that stand at a place of their
own. -/
theorem mem_hits_iff {text : List Char} {h : Hit} :
    h ∈ p.hits text ↔ h.property = p ∧ p.IsTokenText h.token ∧ h.pixels = p.pixels? h.token ∧
      ∃ a b, TokenAt a h.token b text ∧ h.start = byteLength a ∧
        h.stop = byteLength (a ++ h.token) := by
  rw [Property.hits, List.mem_map, ← Property.isToken_iff]
  constructor
  · rintro ⟨o, ho, rfl⟩
    obtain ⟨a, b, hplace, htoken, heq⟩ := mem_occurrences_iff.mp ho
    have hstart : o.start = a.length := by rw [heq]
    refine ⟨by rw [Occurrence.hit, heq], htoken, by rw [Occurrence.hit, heq], a, b, hplace, ?_, ?_⟩
    · rw [Occurrence.hit, hplace.text_eq, byteStart_append hstart]
    · rw [Occurrence.hit, hplace.text_eq, byteStop_append hstart]
  · obtain ⟨property, token, start, stop, pixels⟩ := h
    rintro ⟨hproperty, htoken, hpixels, a, b, hplace, hstart, hstop⟩
    dsimp only at hproperty htoken hpixels hplace hstart hstop
    subst hproperty hpixels hstart hstop
    let o : Occurrence := ⟨property, a.length, token, property.pixels? token⟩
    refine ⟨o, mem_occurrences_iff.mpr ⟨a, b, hplace, htoken, rfl⟩, ?_⟩
    rw [Occurrence.hit, hplace.text_eq, byteStart_append rfl, byteStop_append rfl]

theorem hitBehind_mem_hits {text a token b : List Char} (hplace : TokenAt a token b text)
    (htoken : p.isToken token = true) : p.hitBehind a token ∈ p.hits text :=
  mem_hits_iff.mpr ⟨rfl, Property.isToken_iff.mp htoken, rfl, a, b, hplace, rfl, rfl⟩

theorem exists_of_mem_hits {text : List Char} {h : Hit} (hmem : h ∈ p.hits text) :
    ∃ a b, TokenAt a h.token b text ∧ p.isToken h.token = true ∧ h = p.hitBehind a h.token := by
  obtain ⟨hproperty, htoken, hpixels, a, b, hplace, hstart, hstop⟩ := mem_hits_iff.mp hmem
  refine ⟨a, b, hplace, Property.isToken_iff.mpr htoken, ?_⟩
  obtain ⟨property, token, start, stop, pixels⟩ := h
  dsimp only at hproperty hpixels hstart hstop
  subst hproperty hpixels hstart hstop
  rfl

/-- The reported stretches go up, and none reaches into the next. -/
theorem pairwise_hits (text : List Char) :
    (p.hits text).Pairwise fun h h' => h.start < h'.start ∧ h.stop ≤ h'.start := by
  refine List.pairwise_map.mpr ((pairwise_start_occurrences text).imp_of_mem ?_)
  intro o o' ho ho' hlt
  obtain ⟨a, gap, b, rfl, -, hstart, hstart'⟩ := exists_gap ho ho' hlt
  obtain ⟨-, -, -, htoken, -⟩ := mem_occurrences_iff.mp ho
  have hpos := Property.byteLength_pos_of_isToken htoken
  have hfirst := byteStart_append hstart (o.token ++ (gap ++ (o'.token ++ b)))
  have hfirst' := byteStop_append hstart (o.token ++ (gap ++ (o'.token ++ b)))
  have hsecond := byteStart_append hstart' (o'.token ++ b)
  simp only [List.append_assoc, byteLength_append] at hfirst hfirst' hsecond
  simp only [Occurrence.hit, hfirst, hfirst', hsecond]
  omega

/-- A word of the grammar is in the text just if it is reported. -/
theorem holdsToken_iff_hit {text token : List Char} :
    p.IsTokenText token ∧ holdsToken text token = true ↔ ∃ h ∈ p.hits text, h.token = token := by
  rw [holdsToken_iff]
  constructor
  · rintro ⟨htoken, a, b, hplace⟩
    exact ⟨_, hitBehind_mem_hits hplace (Property.isToken_iff.mpr htoken), rfl⟩
  · rintro ⟨h, hmem, rfl⟩
    obtain ⟨a, b, hplace, htoken, -⟩ := exists_of_mem_hits hmem
    exact ⟨Property.isToken_iff.mp htoken, a, b, hplace⟩

end

end DesignTokens
