import DesignTokens.Proofs.Text.Template
import DesignTokens.Source.Object

/-!
# The key at the front of a piece

`keyChoices` reads a piece from its end and keeps three answers for each place.
Here they are three functions of the text with an equation for each character
(`keyAt`, `keyInLine`, `keyInBlock`).

The key of a piece is then found for all fillings of a template (`Front`). It is
quoted in all of them, or it is the same characters of the template in all of
them, or it is a hole in all of them. One more case is left: a key that is read
out of a line comment. There the last letter of a word is followed by the colon,
so this key changes with the word; but it is a single letter with digits behind
it (`Short`).
-/

namespace DesignTokens.Source

open Text Template

/-! ## The choices as equations -/

/-- The key behind the blanks and comments at the start of the characters. -/
def keyAt (cs : List Char) : Option Key := (keyChoices cs).1.here

/-- The key behind the line comment that the characters start in. -/
def keyInLine (cs : List Char) : Option Key := (keyChoices cs).1.inLine

/-- The key behind the block comment that the characters start in. -/
def keyInBlock (cs : List Char) : Option Key := (keyChoices cs).1.inBlock

theorem keyAt_blank {c : Char} (h : isBlank c = true) (cs : List Char) :
    keyAt (c :: cs) = keyAt cs := by
  simp [keyAt, keyChoices, h]

theorem keyAt_line (cs : List Char) : keyAt ('/' :: '/' :: cs) = keyInLine cs := rfl

theorem keyAt_block (cs : List Char) : keyAt ('/' :: '*' :: cs) = keyInBlock cs := rfl

theorem keyAt_other {c : Char} {cs : List Char} (hblank : isBlank c = false)
    (hpair : ¬(c = '/' ∧ (cs.head? = some '/' ∨ cs.head? = some '*'))) :
    keyAt (c :: cs) = keyHere? (c :: cs) := by
  simp only [keyAt, keyChoices, hblank, Bool.false_eq_true, if_false]
  split
  case h_1 hc => exact absurd ⟨rfl, .inl hc⟩ hpair
  case h_2 hc => exact absurd ⟨rfl, .inr hc⟩ hpair
  case h_3 => rfl

theorem keyInLine_newline (cs : List Char) : keyInLine ('\n' :: cs) = keyAt ('\n' :: cs) := rfl

theorem keyInLine_cons {c : Char} (h : c ≠ '\n') (cs : List Char) :
    keyInLine (c :: cs) = (keyInLine cs).or (keyAt (c :: cs)) := by
  simp [keyInLine, keyAt, keyChoices, h]

theorem keyInBlock_close (cs : List Char) :
    keyInBlock ('*' :: '/' :: cs) = (keyAt cs).or (keyInBlock ('/' :: cs)) := rfl

theorem keyInBlock_other {c : Char} {cs : List Char} (h : ¬(c = '*' ∧ cs.head? = some '/')) :
    keyInBlock (c :: cs) = keyInBlock cs := by
  simp [keyInBlock, keyChoices, h]

/-! ## Keys at identifiers -/

theorem keyAt_of_isIdent {c : Char} (h : isIdent c = true) (cs : List Char) :
    keyAt (c :: cs) = keyHere? (c :: cs) :=
  keyAt_other (isBlank_of_isIdent h) fun hpair => ne_of_isIdent h (by decide) hpair.1

theorem keyHere?_name {c : Char} {cs rest : List Char} (hc : isIdentStart c = true)
    (hcs : ∀ d ∈ cs, isIdent d = true) (hrest : NoIdent rest.head?) :
    keyHere? (c :: (cs ++ rest)) = (colonBehind? rest).map fun value =>
      ⟨c :: cs, false, (cs ++ rest).length + 1, value.length⟩ := by
  rw [keyHere?, if_pos hc, takeWhile_isIdent_append hcs hrest]
  simp

theorem keyHere?_eq_none {c : Char} (hc : isIdentStart c = false) (hquote : c ≠ '"' ∧ c ≠ '\'')
    (cs : List Char) : keyHere? (c :: cs) = none := by
  simp [keyHere?, hc, hquote.1, hquote.2]

theorem keyHere?_quote {c : Char} (hquote : c = '"' ∨ c = '\'') (cs : List Char) :
    keyHere? (c :: cs) = match cs.dropWhile fun d => d ≠ c && d ≠ '\n' with
      | d :: rest =>
        if d = c then
          (colonBehind? rest).map fun value =>
            ⟨cs.takeWhile fun d => d ≠ c && d ≠ '\n', true, cs.length + 1, value.length⟩
        else none
      | [] => none := by
  have hstart : isIdentStart c = false := by rcases hquote with rfl | rfl <;> decide
  have hc : (c = '"' || c = '\'') = true := by simpa using hquote
  have hdrop : ∀ p : Char → Bool, cs.drop (cs.takeWhile p).length = cs.dropWhile p := fun p => by
    calc cs.drop (cs.takeWhile p).length
        = (cs.takeWhile p ++ cs.dropWhile p).drop (cs.takeWhile p).length := by
          rw [List.takeWhile_append_dropWhile]
      _ = cs.dropWhile p := List.drop_left
  rw [keyHere?, if_neg (by rw [hstart]; decide), if_pos hc]
  cases hclose : cs.dropWhile fun d => d ≠ c && d ≠ '\n' with
  | nil => simp only [hdrop, hclose]
  | cons d rest => simp only [hdrop, hclose]

/-! ## Words in a comment -/

/-- A letter with no other letter behind it. -/
def Short (name : List Char) : Prop :=
  ∃ c ds, name = c :: ds ∧ ∀ d ∈ ds, isIdentStart d = false

section

variable {rest : List Char}

theorem keyInLine_digits : ∀ {w : List Char},
    (∀ c ∈ w, isIdent c = true ∧ isIdentStart c = false) →
      keyInLine (w ++ rest) = keyInLine rest
  | [], _ => rfl
  | c :: w, hw => by
      obtain ⟨hc, hstart⟩ := hw c (List.mem_cons_self ..)
      have hquote : c ≠ '"' ∧ c ≠ '\'' :=
        ⟨ne_of_isIdent hc (by decide), ne_of_isIdent hc (by decide)⟩
      rw [List.cons_append, keyInLine_cons (ne_of_isIdent hc (by decide)), keyAt_of_isIdent hc,
        keyHere?_eq_none hstart hquote, Option.or_none]
      exact keyInLine_digits fun d hd => hw d (List.mem_cons_of_mem c hd)

theorem keyInLine_word_none (hrest : NoIdent rest.head?) (hcolon : colonBehind? rest = none) :
    ∀ {w : List Char}, (∀ c ∈ w, isIdent c = true) → keyInLine (w ++ rest) = keyInLine rest
  | [], _ => rfl
  | c :: w, hw => by
      have hc := hw c (List.mem_cons_self ..)
      have htail : ∀ d ∈ w, isIdent d = true := fun d hd => hw d (List.mem_cons_of_mem c hd)
      have hkey : keyHere? (c :: (w ++ rest)) = none := by
        by_cases hstart : isIdentStart c = true
        · rw [keyHere?_name hstart htail hrest, hcolon, Option.map_none]
        · exact keyHere?_eq_none (Bool.eq_false_iff.mpr hstart)
            ⟨ne_of_isIdent hc (by decide), ne_of_isIdent hc (by decide)⟩ _
      rw [List.cons_append, keyInLine_cons (ne_of_isIdent hc (by decide)), keyAt_of_isIdent hc,
        hkey, Option.or_none]
      exact keyInLine_word_none hrest hcolon htail

/-- With a colon behind it the last letter of a word is a key. -/
theorem keyInLine_word_some {value : List Char} (hrest : NoIdent rest.head?)
    (hcolon : colonBehind? rest = some value) :
    ∀ {w : List Char}, (∀ c ∈ w, isIdent c = true) → (∃ c ∈ w, isIdentStart c = true) →
      ∃ k : Key, k.quoted = false ∧ Short k.text ∧
        keyInLine (w ++ rest) = (keyInLine rest).or (some k)
  | [], _, hstart => by
      obtain ⟨c, hc, -⟩ := hstart
      cases hc
  | c :: w, hw, hstart => by
      have hc := hw c (List.mem_cons_self ..)
      have htail : ∀ d ∈ w, isIdent d = true := fun d hd => hw d (List.mem_cons_of_mem c hd)
      by_cases hlater : ∃ d ∈ w, isIdentStart d = true
      · obtain ⟨k, hquoted, hshort, hk⟩ := keyInLine_word_some hrest hcolon htail hlater
        refine ⟨k, hquoted, hshort, ?_⟩
        rw [List.cons_append, keyInLine_cons (ne_of_isIdent hc (by decide)), hk, Option.or_assoc,
          Option.some_or]
      · have hdigits : ∀ d ∈ w, isIdentStart d = false := fun d hd => by
          rw [← Bool.not_eq_true]
          exact fun hds => hlater ⟨d, hd, hds⟩
        have hcstart : isIdentStart c = true := by
          obtain ⟨d, hd, hds⟩ := hstart
          rcases List.mem_cons.mp hd with rfl | hd
          · exact hds
          · exact absurd ⟨d, hd, hds⟩ hlater
        refine ⟨⟨c :: w, false, (w ++ rest).length + 1, value.length⟩, rfl,
          ⟨c, w, rfl, hdigits⟩, ?_⟩
        rw [List.cons_append, keyInLine_cons (ne_of_isIdent hc (by decide)), keyAt_of_isIdent hc,
          keyHere?_name hcstart htail hrest, hcolon, Option.map_some,
          keyInLine_digits fun d hd => ⟨htail d hd, hdigits d hd⟩]

end

theorem keyInBlock_word {rest : List Char} : ∀ {w : List Char}, (∀ c ∈ w, isIdent c = true) →
    keyInBlock (w ++ rest) = keyInBlock rest
  | [], _ => rfl
  | c :: w, hw => by
      have hc : c ≠ '*' := ne_of_isIdent (hw c (List.mem_cons_self ..)) (by decide)
      rw [List.cons_append, keyInBlock_other fun hpair => hc hpair.1]
      exact keyInBlock_word fun d hd => hw d (List.mem_cons_of_mem c hd)

/-! ## Colons behind a template -/

theorem colonBehind?_fill (t : Template) :
    (∀ w, IsName w → colonBehind? (fill w t) = none) ∨
      ∀ w, IsName w → ∃ value, colonBehind? (fill w t) = some value := by
  have hread : ReadsTo ':' (fun cs => (some (skipBlanks cs)).bind (after? [':'])) t :=
    (reads_skipBlanks t).bind fun _ u _ => readsTo_after (by decide) u
  have hcolon : ∀ cs, colonBehind? cs = (after? [':'] (skipBlanks cs)).map skipBlanks := by
    intro cs
    rw [colonBehind?]
    cases hcs : skipBlanks cs with
    | nil => rfl
    | cons c rest =>
        by_cases hc : c = ':'
        · subst hc
          rfl
        · simp [after?, Ne.symm hc, hc]
  rcases hread with hnone | ⟨s, u, ht, hsome⟩
  · refine .inl fun w hw => ?_
    have : after? [':'] (skipBlanks (fill w t)) = none := hnone w hw
    rw [hcolon, this, Option.map_none]
  · refine .inr fun w hw => ⟨skipBlanks (fill w u), ?_⟩
    have : after? [':'] (skipBlanks (fill w t)) = some (fill w u) := hsome w hw
    rw [hcolon, this, Option.map_some]

/-! ## The key in all fillings -/

/-- What is found at the front of all fillings of a template, `g` being the answer for each word. -/
inductive Front (t : Template) (g : List Char → Option Key) : Prop where
  /-- No key. -/
  | none (h : ∀ w, IsName w → g w = none)
  /-- A quoted key. -/
  | quoted (h : ∀ w, IsName w → ∃ k, g w = some k ∧ k.quoted = true)
  /-- The same characters at the same place. -/
  | literal (s : Template) (c : Char) (u : Template) (name : List Char) (ht : t = s ++ some c :: u)
      (h : ∀ w, IsName w → ∃ k, g w = some k ∧ k.quoted = false ∧ k.text = name ∧
        k.fromKey = (fill w (some c :: u)).length)
  /-- The word in a hole. -/
  | hole (s u : Template) (ht : t = s ++ none :: u)
      (h : ∀ w, IsName w → ∃ k, g w = some k ∧ k.quoted = false ∧ k.text = w ∧
        k.fromKey = (fill w (none :: u)).length)
  /-- A letter out of a line comment. -/
  | short (h : ∀ w, IsName w → ∃ k, g w = some k ∧ k.quoted = false ∧ Short k.text)

namespace Front

variable {t : Template} {g g' : List Char → Option Key}

theorem congr (h : Front t g) (heq : ∀ w, IsName w → g' w = g w) : Front t g' := by
  cases h with
  | none h => exact .none fun w hw => (heq w hw).trans (h w hw)
  | quoted h => exact .quoted fun w hw => heq w hw ▸ h w hw
  | literal s c u name ht h => exact .literal s c u name ht fun w hw => heq w hw ▸ h w hw
  | hole s u ht h => exact .hole s u ht fun w hw => heq w hw ▸ h w hw
  | short h => exact .short fun w hw => heq w hw ▸ h w hw

theorem prepend (h : Front t g) (s : Template) : Front (s ++ t) g := by
  cases h with
  | none h => exact .none h
  | quoted h => exact .quoted h
  | literal s' c u name ht h =>
      exact .literal (s ++ s') c u name (by rw [ht, List.append_assoc]) h
  | hole s' u ht h => exact .hole (s ++ s') u (by rw [ht, List.append_assoc]) h
  | short h => exact .short h

/-- A key is found in all fillings or in none, so the other answer is taken for all or for none. -/
theorem or (h : Front t g) (h' : Front t g') : Front t fun w => (g w).or (g' w) := by
  have hkey : ∀ {P : List Char → Key → Prop}, (∀ w, IsName w → ∃ k, g w = some k ∧ P w k) →
      ∀ w, IsName w → ∃ k, (g w).or (g' w) = some k ∧ P w k := by
    intro P h w hw
    obtain ⟨k, hk, hP⟩ := h w hw
    exact ⟨k, by rw [hk, Option.some_or], hP⟩
  cases h with
  | none h => exact h'.congr fun w hw => by rw [h w hw, Option.none_or]
  | quoted h => exact .quoted (hkey h)
  | literal s c u name ht h => exact .literal s c u name ht (hkey h)
  | hole s u ht h => exact .hole s u ht (hkey h)
  | short h => exact .short (hkey h)

theorem or_short (h : Front t g) (heq : ∀ w, IsName w →
    ∃ k : Key, k.quoted = false ∧ Short k.text ∧ g' w = (g w).or (some k)) : Front t g' := by
  have hkey : ∀ {P : List Char → Key → Prop}, (∀ w, IsName w → ∃ k, g w = some k ∧ P w k) →
      ∀ w, IsName w → ∃ k, g' w = some k ∧ P w k := by
    intro P h w hw
    obtain ⟨k, hk, hP⟩ := h w hw
    obtain ⟨_, -, -, hor⟩ := heq w hw
    exact ⟨k, by rw [hor, hk, Option.some_or], hP⟩
  cases h with
  | none h =>
      refine .short fun w hw => ?_
      obtain ⟨k, hquoted, hshort, hor⟩ := heq w hw
      exact ⟨k, by rw [hor, h w hw, Option.none_or], hquoted, hshort⟩
  | quoted h => exact .quoted (hkey h)
  | literal s c u name ht h => exact .literal s c u name ht (hkey h)
  | hole s u ht h => exact .hole s u ht (hkey h)
  | short h => exact .short (hkey h)

end Front

theorem exists_ident_run : ∀ {u : Template} {c : Char}, Apart (some c :: u) → isIdent c = true →
    ∃ (cs : List Char) (u' : Template), u = cs.map some ++ u' ∧
      (∀ d ∈ cs, isIdent d = true) ∧ ∀ w, NoIdent (fill w u').head?
  | [], _, _, _ => ⟨[], [], rfl, by simp, fun _ _ hd => nomatch hd⟩
  | none :: _, _, h, hc => absurd rfl (h.ne_none hc)
  | some d :: u, _, h, _ => by
      by_cases hd : isIdent d = true
      · obtain ⟨cs, u', rfl, hcs, hu'⟩ := exists_ident_run h.tail hd
        exact ⟨d :: cs, u', rfl, by simpa [hd] using hcs, hu'⟩
      · refine ⟨[], some d :: u, rfl, by simp, fun w e he => ?_⟩
        obtain rfl : d = e := by simpa using he
        exact Bool.eq_false_iff.mpr hd

theorem front_keyHere_hole {u : Template} (h : Apart (none :: u)) :
    Front (none :: u) fun w => keyHere? (fill w (none :: u)) := by
  have hword : ∀ w, IsName w → keyHere? (fill w (none :: u))
      = (colonBehind? (fill w u)).map fun value =>
        ⟨w, false, (fill w (none :: u)).length, value.length⟩ := by
    intro w hw
    obtain ⟨c, cs, rfl, hc⟩ := hw.start
    have hcs : ∀ d ∈ cs, isIdent d = true := fun d hd => hw.all d (List.mem_cons_of_mem c hd)
    rw [fill_none, List.cons_append, keyHere?_name hc hcs h.noIdent_behind]
    rfl
  rcases colonBehind?_fill u with hnone | hsome
  · exact .none fun w hw => by rw [hword w hw, hnone w hw, Option.map_none]
  · refine .hole [] u rfl fun w hw => ?_
    obtain ⟨value, hvalue⟩ := hsome w hw
    exact ⟨_, by rw [hword w hw, hvalue, Option.map_some], rfl, rfl, rfl⟩

theorem front_keyHere_name {c : Char} {u : Template} (h : Apart (some c :: u))
    (hc : isIdentStart c = true) :
    Front (some c :: u) fun w => keyHere? (fill w (some c :: u)) := by
  obtain ⟨cs, u', rfl, hcs, hu'⟩ := exists_ident_run h (isIdent_of_isIdentStart hc)
  have hname : ∀ w, keyHere? (fill w (some c :: (cs.map some ++ u')))
      = (colonBehind? (fill w u')).map fun value =>
        ⟨c :: cs, false, (fill w (some c :: (cs.map some ++ u'))).length, value.length⟩ := by
    intro w
    rw [fill_some, fill_append, fill_map_some, keyHere?_name hc hcs (hu' w)]
    rfl
  rcases colonBehind?_fill u' with hnone | hsome
  · exact .none fun w hw => by rw [hname, hnone w hw, Option.map_none]
  · refine .literal [] c _ (c :: cs) rfl fun w hw => ?_
    obtain ⟨value, hvalue⟩ := hsome w hw
    exact ⟨_, by rw [hname, hvalue, Option.map_some], rfl, rfl, rfl⟩

theorem front_keyHere_quote {c : Char} (hquote : c = '"' ∨ c = '\'') (u : Template) :
    Front (some c :: u) fun w => keyHere? (fill w (some c :: u)) := by
  have hne : ∀ d, isIdent d = true → d ≠ c := by
    intro d hd
    rcases hquote with rfl | rfl <;> exact ne_of_isIdent hd (by decide)
  have hclass : ∀ d, isIdent d = true → (d ≠ c && d ≠ '\n') = true := by
    intro d hd
    simp [hne d hd, ne_of_isIdent hd (show isIdent '\n' = false by decide)]
  -- the closing quote is looked for in the same way in all fillings
  obtain ⟨s, u', -, hdrop⟩ := dropWhile_fill hclass u
  cases u' with
  | nil =>
      refine .none fun w hw => ?_
      rw [fill_some, keyHere?_quote hquote, hdrop w hw.ne_nil hw.all, fill_nil]
  | cons slot u' =>
      cases slot with
      | none =>
          refine .none fun w hw => ?_
          obtain ⟨d, ds, rfl, hd⟩ := hw.start
          rw [fill_some, keyHere?_quote hquote, hdrop _ hw.ne_nil hw.all, fill_none,
          List.cons_append]
          exact if_neg (hne d (isIdent_of_isIdentStart hd))
      | some d =>
          have hkey : ∀ w, IsName w → keyHere? (fill w (some c :: u)) = if d = c then
              (colonBehind? (fill w u')).map fun value =>
                ⟨(fill w u).takeWhile fun d => d ≠ c && d ≠ '\n', true,
                  (fill w u).length + 1, value.length⟩
              else none := by
            intro w hw
            rw [fill_some, keyHere?_quote hquote, hdrop w hw.ne_nil hw.all, fill_some]
          by_cases hdc : d = c
          · rcases colonBehind?_fill u' with hnone | hsome
            · exact .none fun w hw => by
                rw [hkey w hw, if_pos hdc, hnone w hw, Option.map_none]
            · refine .quoted fun w hw => ?_
              obtain ⟨value, hvalue⟩ := hsome w hw
              exact ⟨_, by rw [hkey w hw, if_pos hdc, hvalue, Option.map_some], rfl⟩
          · exact .none fun w hw => by rw [hkey w hw, if_neg hdc]

theorem front_keyHere : ∀ {t : Template}, Apart t → Front t fun w => keyHere? (fill w t)
  | [], _ => .none fun _ _ => rfl
  | none :: _, h => front_keyHere_hole h
  | some c :: u, h => by
      by_cases hc : isIdentStart c = true
      · exact front_keyHere_name h hc
      · by_cases hquote : c = '"' ∨ c = '\''
        · exact front_keyHere_quote hquote u
        · rw [not_or] at hquote
          exact .none fun w _ => keyHere?_eq_none (Bool.eq_false_iff.mpr hc) hquote _

/-- The three choices at the front of the fillings. -/
structure Fronts (t : Template) : Prop where
  here : Front t fun w => keyAt (fill w t)
  inLine : Front t fun w => keyInLine (fill w t)
  inBlock : Front t fun w => keyInBlock (fill w t)

theorem Fronts.hole {u : Template} (h : Apart (none :: u)) (hu : Fronts u) :
    Fronts (none :: u) where
  here := by
    refine (front_keyHere h).congr fun w hw => ?_
    obtain ⟨c, cs, rfl, hc⟩ := hw.start
    exact keyAt_of_isIdent (isIdent_of_isIdentStart hc) _
  inLine := by
    rcases colonBehind?_fill u with hnone | hsome
    · refine (hu.inLine.prepend [none]).congr fun w hw => ?_
      exact keyInLine_word_none h.noIdent_behind (hnone w hw) hw.all
    · refine (hu.inLine.prepend [none]).or_short fun w hw => ?_
      obtain ⟨value, hvalue⟩ := hsome w hw
      obtain ⟨c, cs, rfl, hc⟩ := hw.start
      exact keyInLine_word_some h.noIdent_behind hvalue hw.all ⟨c, List.mem_cons_self .., hc⟩
  inBlock := (hu.inBlock.prepend [none]).congr fun w hw => keyInBlock_word hw.all

theorem Fronts.char {c : Char} {u : Template} (h : Apart (some c :: u)) (hu : Fronts u)
    (htail : Fronts u.tail) : Fronts (some c :: u) := by
  have hmark : ∀ {d : Char}, isIdent d = false → u.head? ≠ some (some d) →
      ∀ w, IsName w → (fill w u).head? ≠ some d := fun hd hhead w hw => head?_fill_ne hd hhead hw
  have hhere : Front (some c :: u) fun w => keyAt (fill w (some c :: u)) := by
    by_cases hblank : isBlank c = true
    · exact (hu.here.prepend [some c]).congr fun w _ => keyAt_blank hblank _
    · rw [Bool.not_eq_true] at hblank
      by_cases hline : c = '/' ∧ u.head? = some (some '/')
      · obtain ⟨rfl, hhead⟩ := hline
        obtain ⟨u, rfl⟩ := List.head?_eq_some_iff.mp hhead
        exact (htail.inLine.prepend [some '/', some '/']).congr fun w _ => keyAt_line _
      · by_cases hblock : c = '/' ∧ u.head? = some (some '*')
        · obtain ⟨rfl, hhead⟩ := hblock
          obtain ⟨u, rfl⟩ := List.head?_eq_some_iff.mp hhead
          exact (htail.inBlock.prepend [some '/', some '*']).congr fun w _ => keyAt_block _
        · refine (front_keyHere h).congr fun w hw => keyAt_other hblank ?_
          rintro ⟨hc, hhead | hhead⟩
          · exact hmark (by decide) (fun hu => hline ⟨hc, hu⟩) w hw hhead
          · exact hmark (by decide) (fun hu => hblock ⟨hc, hu⟩) w hw hhead
  refine ⟨hhere, ?_, ?_⟩
  · by_cases hc : c = '\n'
    · subst hc
      exact hhere.congr fun w _ => keyInLine_newline _
    · exact ((hu.inLine.prepend [some c]).or hhere).congr fun w _ => keyInLine_cons hc _
  · by_cases hclose : c = '*' ∧ u.head? = some (some '/')
    · obtain ⟨rfl, hhead⟩ := hclose
      obtain ⟨u, rfl⟩ := List.head?_eq_some_iff.mp hhead
      have hbehind := htail.here.prepend [some '*', some '/']
      exact (hbehind.or (hu.inBlock.prepend [some '*'])).congr fun w _ => keyInBlock_close _
    · refine (hu.inBlock.prepend [some c]).congr fun w hw => keyInBlock_other ?_
      rintro ⟨hc, hhead⟩
      exact hmark (by decide) (fun hu => hclose ⟨hc, hu⟩) w hw hhead

theorem fronts : ∀ {t : Template}, Apart t → Fronts t
  | [], _ => ⟨.none fun _ _ => rfl, .none fun _ _ => rfl, .none fun _ _ => rfl⟩
  | none :: _, h => .hole h (fronts h.tail)
  | [some _], h => .char h (fronts h.tail) (fronts h.tail)
  | some _ :: _ :: _, h => .char h (fronts h.tail) (fronts h.tail.tail)

/-- The key of a piece is the same in all fillings. -/
theorem front_key {t : Template} (h : Apart t) : Front t fun w => key? (fill w t) :=
  (fronts h).here

end DesignTokens.Source
