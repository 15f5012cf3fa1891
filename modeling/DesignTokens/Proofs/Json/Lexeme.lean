import DesignTokens.Json.Lexeme
import DesignTokens.Proofs.Text.Template

/-!
# Cutting a JSON text

The lexemes of a text are those of its first part and then those of the rest,
unless a number goes on over the cut. So a text that has been read to its end is
read in the same way with more behind it, if that starts with a character that
no number goes on with (`lexemes_append`).
-/

namespace DesignTokens.Json

open Text Number

/-! ## Strings -/

section

variable {s : StringSoFar} {cs rest more : List Char}

theorem readString_unit (a b c d : Char) :
    readString s ('\\' :: 'u' :: a :: b :: c :: d :: rest)
      = (hex4? a b c d).bind fun n => readString (s.pushUnit n) rest := by
  rw [readString]
  cases hex4? a b c d <;> rfl

theorem readString_short {e c : Char} (h : shortEscape? e = some c) :
    readString s ('\\' :: e :: rest) = readString (s.push c) rest := by
  rw [readString, h]
  rintro - - - - - rfl
  cases h

theorem readString_ctrl {c : Char} (hctrl : c.toNat < 0x20) : readString s (c :: rest) = none := by
  have hquote : c ≠ '"' := by
    rintro rfl
    exact absurd hctrl (by decide)
  have hback : c ≠ '\\' := by
    rintro rfl
    exact absurd hctrl (by decide)
  rw [readString, if_pos hctrl]
  · exact hquote
  · exact fun _ _ _ _ _ h => absurd h hback
  · exact fun _ _ h => absurd h hback

theorem readString_char {c : Char} (hquote : c ≠ '"') (hback : c ≠ '\\') (hctrl : ¬c.toNat < 0x20) :
    readString s (c :: rest) = readString (s.push c) rest := by
  rw [readString, if_neg hctrl]
  · exact hquote
  · exact fun _ _ _ _ _ h => absurd h hback
  · exact fun _ _ h => absurd h hback

/-- A string ends with its quote, whatever stands behind it. -/
theorem readString_append {found : Option String} (h : readString s cs = some (found, rest)) :
    readString s (cs ++ more) = some (found, rest ++ more) := by
  fun_induction readString s cs with
  | case1 s rest' =>
      cases h
      exact readString_quote
  | case2 s a b c d rest' n hn ih =>
      simp only [List.cons_append]
      rw [readString_unit, hn]
      exact ih h
  | case3 s a b c d rest' hn => cases h
  | case4 s e rest' hu c hc ih =>
      simp only [List.cons_append]
      rw [readString_short hc]
      exact ih h
  | case5 s e rest' hu hc => cases h
  | case6 s c rest' hq hu he hctrl => cases h
  | case7 s c rest' hq hu he hctrl ih =>
      by_cases hback : c = '\\'
      · -- a backslash at the end of the text
        subst hback
        cases rest' with
        | nil => cases h
        | cons e rest' => exact absurd rfl (he e rest' rfl)
      · rw [List.cons_append, readString_char hq hback hctrl]
        exact ih h
  | case8 s => cases h

theorem length_of_readString {found : Option String} (h : readString s cs = some (found, rest)) :
    rest.length < cs.length := by
  fun_induction readString s cs with
  | case1 s rest' =>
      cases h
      exact Nat.lt_succ_self _
  | case2 s a b c d rest' n hn ih =>
      have := ih h
      simp only [List.length_cons]
      omega
  | case3 s a b c d rest' hn => cases h
  | case4 s e rest' hu c hc ih =>
      have := ih h
      simp only [List.length_cons]
      omega
  | case5 s e rest' hu hc => cases h
  | case6 s c rest' hq hu he hctrl => cases h
  | case7 s c rest' hq hu he hctrl ih =>
      have := ih h
      simp only [List.length_cons]
      omega
  | case8 s => cases h

end

/-! ## Numbers and words -/

/-- No number goes on with the character. -/
structure EndsNumber (x : Char) : Prop where
  digit : x.isDigit = false
  point : x ≠ '.'
  exponent : x ≠ 'e' ∧ x ≠ 'E'

section

variable {x : Char} {cs rest more : List Char}

theorem readFraction_append (hx : EndsNumber x) {fraction : List Char}
    (h : readFraction cs = some (fraction, rest)) :
    readFraction (cs ++ x :: more) = some (fraction, rest ++ x :: more) := by
  rw [readFraction.eq_def] at h
  split at h
  case h_1 cs' =>
    split at h
    case isTrue => cases h
    case isFalse hdigits =>
      cases h
      rw [List.cons_append, readFraction, takeWhile_append_stop hx.digit, if_neg hdigits,
        dropWhile_append_stop hx.digit]
  case h_2 hpoint =>
    cases h
    cases cs with
    | nil =>
        rw [List.nil_append, readFraction]
        rintro _ h
        exact hx.point (List.cons.inj h).1
    | cons c cs =>
        rw [List.cons_append, readFraction]
        rintro more' h
        obtain ⟨rfl, -⟩ := List.cons.inj h
        exact hpoint cs rfl

/-- The sign in front of an exponent, and the digits behind it. -/
def exponentSign (cs : List Char) : Bool × List Char :=
  match cs with
  | '+' :: more => (false, more)
  | '-' :: more => (true, more)
  | _ => (false, cs)

theorem readExponent_cons (e : Char) (cs : List Char) :
    readExponent (e :: cs) =
      if e = 'e' || e = 'E' then
        if ((exponentSign cs).2.takeWhile Char.isDigit).isEmpty then none
        else some (some (if (exponentSign cs).1
            then -(digitsValue ((exponentSign cs).2.takeWhile Char.isDigit) : Int)
            else digitsValue ((exponentSign cs).2.takeWhile Char.isDigit)),
          (exponentSign cs).2.dropWhile Char.isDigit)
      else some (none, e :: cs) := by
  rw [readExponent.eq_def]
  rfl

theorem exponentSign_append (c : Char) (cs more : List Char) :
    exponentSign (c :: cs ++ more)
      = ((exponentSign (c :: cs)).1, (exponentSign (c :: cs)).2 ++ more) := by
  rw [List.cons_append, exponentSign.eq_def, exponentSign.eq_def]
  split <;> simp_all

theorem readExponent_append (hx : EndsNumber x) {exponent : Option Int}
    (h : readExponent cs = some (exponent, rest)) :
    readExponent (cs ++ x :: more) = some (exponent, rest ++ x :: more) := by
  cases cs with
  | nil =>
      cases h
      have hletter : ¬((x = 'e' || x = 'E') = true) := by simp [hx.exponent]
      rw [List.nil_append, readExponent_cons, if_neg hletter]
  | cons e cs =>
      rw [readExponent_cons] at h
      rw [List.cons_append, readExponent_cons]
      split at h
      case isFalse hletter =>
        cases h
        rw [if_neg hletter, List.cons_append]
      case isTrue hletter =>
        split at h
        case isTrue => cases h
        case isFalse hdigits =>
          cases h
          cases cs with
          | nil => exact absurd rfl hdigits
          | cons c cs =>
              rw [if_pos hletter, exponentSign_append, takeWhile_append_stop hx.digit,
                if_neg hdigits, dropWhile_append_stop hx.digit]

theorem readWhole_append (hx : EndsNumber x) {whole : Nat}
    (h : readWhole cs = some (whole, rest)) :
    readWhole (cs ++ x :: more) = some (whole, rest ++ x :: more) := by
  rw [readWhole.eq_def] at h
  split at h
  case h_1 cs' =>
    cases h
    rw [List.cons_append, readWhole]
  case h_2 hzero =>
    split at h
    case isTrue => cases h
    case isFalse hdigits =>
      cases h
      rw [readWhole, takeWhile_append_stop hx.digit, if_neg hdigits,
        dropWhile_append_stop hx.digit]
      rintro cs' hcs
      cases cs with
      | nil => exact hdigits rfl
      | cons c cs =>
          obtain ⟨rfl, -⟩ := List.cons.inj hcs
          exact hzero cs rfl

/-- What is read behind the sign of a number. -/
def readUnsigned (negative : Bool) (cs : List Char) : Option (JsonNumber × List Char) := do
  let (whole, cs) ← readWhole cs
  let (fraction, cs) ← readFraction cs
  let (exponent, cs) ← readExponent cs
  some (⟨negative, whole, fraction, exponent⟩, cs)

theorem readNumber_minus (cs : List Char) : readNumber ('-' :: cs) = readUnsigned true cs := by
  rw [readNumber]
  rfl

theorem readNumber_other (h : cs.head? ≠ some '-') : readNumber cs = readUnsigned false cs := by
  rw [readNumber]
  · rfl
  · rintro more rfl
    exact h rfl

theorem readUnsigned_append (hx : EndsNumber x) {negative : Bool} {n : JsonNumber}
    (h : readUnsigned negative cs = some (n, rest)) :
    readUnsigned negative (cs ++ x :: more) = some (n, rest ++ x :: more) := by
  obtain ⟨⟨whole, cs₁⟩, hwhole, h⟩ := Option.bind_eq_some_iff.mp h
  obtain ⟨⟨fraction, cs₂⟩, hfraction, h⟩ := Option.bind_eq_some_iff.mp h
  obtain ⟨⟨exponent, cs₃⟩, hexponent, h⟩ := Option.bind_eq_some_iff.mp h
  cases h
  simp only [readUnsigned, readWhole_append hx hwhole, readFraction_append hx hfraction,
    readExponent_append hx hexponent, Option.bind_eq_bind, Option.bind_some]

theorem readNumber_append (hx : EndsNumber x) {n : JsonNumber}
    (h : readNumber cs = some (n, rest)) :
    readNumber (cs ++ x :: more) = some (n, rest ++ x :: more) := by
  cases cs with
  | nil => cases h
  | cons c cs =>
      by_cases hc : c = '-'
      · subst hc
        rw [readNumber_minus] at h
        rw [List.cons_append, readNumber_minus]
        exact readUnsigned_append hx h
      · have hminus : ∀ cs : List Char, (c :: cs).head? ≠ some '-' :=
          fun _ hhead => hc (Option.some.inj hhead)
        rw [readNumber_other (hminus cs)] at h
        rw [List.cons_append, readNumber_other (hminus _)]
        exact readUnsigned_append hx h

/-- The three words with their lexemes. -/
def wordLexemes : List (List Char × Lexeme) :=
  [(['n', 'u', 'l', 'l'], .null), (['t', 'r', 'u', 'e'], .bool true),
   (['f', 'a', 'l', 's', 'e'], .bool false)]

theorem exists_of_readWord {l : Lexeme} (h : readWord cs = some (l, rest)) :
    ∃ w, (w, l) ∈ wordLexemes ∧ cs = w ++ rest := by
  rw [readWord] at h
  split at h
  case h_1 hafter =>
    cases h
    exact ⟨_, .head _, after_eq_some_iff.mp hafter⟩
  case h_2 hafter _ =>
    cases h
    exact ⟨_, .tail _ (.head _), after_eq_some_iff.mp hafter⟩
  case h_3 hafter _ _ =>
    cases h
    exact ⟨_, .tail _ (.tail _ (.head _)), after_eq_some_iff.mp hafter⟩
  case h_4 => cases h

end

/-! ## Lexemes -/

/-- The characters that are lexemes of their own. -/
def markLexemes : List (Char × Lexeme) :=
  [('\x7b', .openObject), ('\x7d', .closeObject), ('[', .openArray), (']', .closeArray),
   (',', .comma), (':', .colon)]

section

variable {l : Lexeme} {x : Char} {cs rest more : List Char}

theorem readLexeme_mark {c : Char} (h : (c, l) ∈ markLexemes) (rest : List Char) :
    readLexeme (c :: rest) = some (l, rest) := by
  simp only [markLexemes, List.mem_cons, Prod.mk.injEq, List.not_mem_nil, or_false] at h
  rcases h with ⟨rfl, rfl⟩ | ⟨rfl, rfl⟩ | ⟨rfl, rfl⟩ | ⟨rfl, rfl⟩ | ⟨rfl, rfl⟩ | ⟨rfl, rfl⟩ <;> rfl

theorem readLexeme_word {w : List Char} (h : (w, l) ∈ wordLexemes) (rest : List Char) :
    readLexeme (w ++ rest) = some (l, rest) := by
  simp only [wordLexemes, List.mem_cons, Prod.mk.injEq, List.not_mem_nil, or_false] at h
  rcases h with ⟨rfl, rfl⟩ | ⟨rfl, rfl⟩ | ⟨rfl, rfl⟩ <;> rfl

theorem readLexeme_quote (rest : List Char) :
    readLexeme ('"' :: rest) = (readString {} rest).map fun (s, rest) => (.string s, rest) := rfl

theorem readLexeme_number {n : JsonNumber} (h : readNumber cs = some (n, rest)) :
    readLexeme cs = some (.number n, rest) := by
  rw [readLexeme.eq_def]
  split
  case h_8 => rw [h]
  all_goals cases h

/-- Every lexeme is a mark, a string, a number or a word. -/
theorem readLexeme_cases (h : readLexeme cs = some (l, rest)) :
    (∃ c, (c, l) ∈ markLexemes ∧ cs = c :: rest) ∨
      (∃ body s, cs = '"' :: body ∧ readString {} body = some (s, rest) ∧ l = .string s) ∨
      (∃ n, readNumber cs = some (n, rest) ∧ l = .number n) ∨
      ∃ w, (w, l) ∈ wordLexemes ∧ cs = w ++ rest := by
  rw [readLexeme.eq_def] at h
  split at h
  case h_7 =>
    obtain ⟨⟨s, more⟩, hs, hl⟩ := Option.map_eq_some_iff.mp h
    cases hl
    exact .inr (.inl ⟨_, s, rfl, hs, rfl⟩)
  case h_8 =>
    split at h
    case h_1 n more hn =>
      cases h
      exact .inr (.inr (.inl ⟨n, hn, rfl⟩))
    case h_2 => exact .inr (.inr (.inr (exists_of_readWord h)))
  all_goals
    cases h
    exact .inl ⟨_, by decide, rfl⟩

theorem readLexeme_append (hx : EndsNumber x) (h : readLexeme cs = some (l, rest)) :
    readLexeme (cs ++ x :: more) = some (l, rest ++ x :: more) := by
  rcases readLexeme_cases h with
    ⟨c, hc, rfl⟩ | ⟨body, s, rfl, hs, rfl⟩ | ⟨n, hn, rfl⟩ | ⟨w, hw, rfl⟩
  · exact readLexeme_mark hc _
  · rw [List.cons_append, readLexeme_quote, readString_append hs]
    rfl
  · exact readLexeme_number (readNumber_append hx hn)
  · rw [List.append_assoc]
    exact readLexeme_word hw _

/-- A character of a written number. -/
def IsNumeral (c : Char) : Prop := c.isDigit = true ∨ c ∈ ['-', '+', '.', 'e', 'E']

theorem isNumeral_of_mem_takeWhile {c : Char} (h : c ∈ cs.takeWhile Char.isDigit) : IsNumeral c :=
  .inl (List.mem_takeWhile_imp h)

theorem exists_of_readFraction {fraction : List Char}
    (h : readFraction cs = some (fraction, rest)) :
    ∃ w, cs = w ++ rest ∧ ∀ c ∈ w, IsNumeral c := by
  rw [readFraction.eq_def] at h
  split at h
  case h_1 digits =>
    split at h
    case isTrue => cases h
    case isFalse =>
      cases h
      refine ⟨'.' :: digits.takeWhile Char.isDigit, ?_, ?_⟩
      · rw [List.cons_append, List.takeWhile_append_dropWhile]
      · exact List.forall_mem_cons.mpr ⟨.inr (by decide), fun c => isNumeral_of_mem_takeWhile⟩
  case h_2 =>
    cases h
    exact ⟨[], rfl, nofun⟩

theorem exists_exponentSign (cs : List Char) :
    ∃ w, cs = w ++ (exponentSign cs).2 ∧ ∀ c ∈ w, IsNumeral c := by
  rw [exponentSign.eq_def]
  split
  case h_1 => exact ⟨['+'], rfl, by simp [IsNumeral]⟩
  case h_2 => exact ⟨['-'], rfl, by simp [IsNumeral]⟩
  case h_3 => exact ⟨[], rfl, nofun⟩

theorem exists_of_readExponent {exponent : Option Int}
    (h : readExponent cs = some (exponent, rest)) :
    ∃ w, cs = w ++ rest ∧ ∀ c ∈ w, IsNumeral c := by
  cases cs with
  | nil =>
      cases h
      exact ⟨[], rfl, nofun⟩
  | cons e cs =>
      rw [readExponent_cons] at h
      split at h
      case isFalse =>
        cases h
        exact ⟨[], rfl, nofun⟩
      case isTrue hletter =>
        split at h
        case isTrue => cases h
        case isFalse =>
          cases h
          obtain ⟨sign, hsign, hnumeral⟩ := exists_exponentSign cs
          refine ⟨e :: (sign ++ (exponentSign cs).2.takeWhile Char.isDigit), ?_, ?_⟩
          · rw [List.cons_append, List.append_assoc, List.takeWhile_append_dropWhile, ← hsign]
          · intro c hc
            rcases List.mem_cons.mp hc with rfl | hc
            · have hmark : c = 'e' ∨ c = 'E' := by simpa using hletter
              rcases hmark with rfl | rfl <;> exact .inr (by decide)
            · rcases List.mem_append.mp hc with hc | hc
              · exact hnumeral c hc
              · exact isNumeral_of_mem_takeWhile hc

theorem exists_of_readWhole {whole : Nat} (h : readWhole cs = some (whole, rest)) :
    ∃ w, cs = w ++ rest ∧ w ≠ [] ∧ ∀ c ∈ w, IsNumeral c := by
  rw [readWhole.eq_def] at h
  split at h
  case h_1 =>
    cases h
    exact ⟨['0'], rfl, by simp, by simp [IsNumeral]⟩
  case h_2 =>
    split at h
    case isTrue => cases h
    case isFalse hdigits =>
      cases h
      refine ⟨cs.takeWhile Char.isDigit, ?_, by simpa using hdigits, fun c => ?_⟩
      · rw [List.takeWhile_append_dropWhile]
      · exact isNumeral_of_mem_takeWhile

theorem exists_of_readUnsigned {negative : Bool} {n : JsonNumber}
    (h : readUnsigned negative cs = some (n, rest)) :
    ∃ w, cs = w ++ rest ∧ w ≠ [] ∧ ∀ c ∈ w, IsNumeral c := by
  obtain ⟨⟨whole, cs₁⟩, hwhole, h⟩ := Option.bind_eq_some_iff.mp h
  obtain ⟨⟨fraction, cs₂⟩, hfraction, h⟩ := Option.bind_eq_some_iff.mp h
  obtain ⟨⟨exponent, cs₃⟩, hexponent, h⟩ := Option.bind_eq_some_iff.mp h
  cases h
  obtain ⟨w₁, rfl, hne, h₁⟩ := exists_of_readWhole hwhole
  obtain ⟨w₂, rfl, h₂⟩ := exists_of_readFraction hfraction
  obtain ⟨w₃, rfl, h₃⟩ := exists_of_readExponent hexponent
  refine ⟨w₁ ++ (w₂ ++ w₃), by simp, by simp [hne], fun c hc => ?_⟩
  rcases List.mem_append.mp hc with hc | hc
  · exact h₁ c hc
  · rcases List.mem_append.mp hc with hc | hc
    · exact h₂ c hc
    · exact h₃ c hc

/-- What is read as a number is a row of numerals. -/
theorem exists_of_readNumber {n : JsonNumber} (h : readNumber cs = some (n, rest)) :
    ∃ w, cs = w ++ rest ∧ w ≠ [] ∧ ∀ c ∈ w, IsNumeral c := by
  by_cases hminus : cs.head? = some '-'
  · cases cs with
    | nil => cases hminus
    | cons c cs =>
        obtain rfl := Option.some.inj hminus
        rw [readNumber_minus] at h
        obtain ⟨w, rfl, -, hw⟩ := exists_of_readUnsigned h
        exact ⟨'-' :: w, rfl, List.cons_ne_nil _ _,
          List.forall_mem_cons.mpr ⟨.inr (by decide), hw⟩⟩
  · rw [readNumber_other hminus] at h
    exact exists_of_readUnsigned h

theorem length_of_readLexeme (h : readLexeme cs = some (l, rest)) : rest.length < cs.length := by
  rcases readLexeme_cases h with ⟨c, -, rfl⟩ | ⟨body, s, rfl, hs, -⟩ | ⟨n, hn, -⟩ | ⟨w, hw, rfl⟩
  · exact Nat.lt_succ_self _
  · exact (length_of_readString hs).trans (Nat.lt_succ_self _)
  · obtain ⟨w, rfl, hne, -⟩ := exists_of_readNumber hn
    have hlen := List.length_pos_iff.mpr hne
    rw [List.length_append]
    omega
  · have hpos : ∀ p ∈ wordLexemes, 0 < p.1.length := by decide
    have hlen : 0 < w.length := hpos _ hw
    rw [List.length_append]
    omega

end

/-! ## The lexemes of a text -/

section

variable {l : Lexeme} {x : Char} {cs rest more : List Char}

theorem lexemesWithin_nil (n : Nat) : lexemesWithin n [] = some [] := by
  cases n <;> rfl

theorem lexemesWithin_space {c : Char} (hc : isSpace c = true) (n : Nat) (cs : List Char) :
    lexemesWithin n (c :: cs) = lexemesWithin n cs := by
  rw [lexemesWithin.eq_def, lexemesWithin.eq_def n cs]
  dsimp only
  rw [List.dropWhile_cons_of_pos hc]

theorem lexemesWithin_cons {c : Char} (hc : isSpace c = false) (n : Nat) (cs : List Char) :
    lexemesWithin (n + 1) (c :: cs)
      = (readLexeme (c :: cs)).bind fun p => (lexemesWithin n p.2).map (p.1 :: ·) := by
  rw [lexemesWithin.eq_def]
  dsimp only
  rw [List.dropWhile_cons_of_neg (by simp [hc])]
  dsimp only
  refine Option.bind_congr fun p _ => ?_
  rw [Option.map_eq_bind]
  rfl

/-- How many lexemes are allowed does not matter, as long as there may be one for each character. -/
theorem lexemesWithin_congr : ∀ {n m : Nat} {cs : List Char}, cs.length ≤ n → cs.length ≤ m →
    lexemesWithin n cs = lexemesWithin m cs := by
  suffices h : ∀ (k : Nat) {n m : Nat} {cs : List Char}, cs.length ≤ k → cs.length ≤ n →
      cs.length ≤ m → lexemesWithin n cs = lexemesWithin m cs from
    fun {n m cs} hn hm => h cs.length le_rfl hn hm
  intro k
  induction k with
  | zero =>
      intro n m cs hk hn hm
      obtain rfl := List.length_eq_zero_iff.mp (Nat.le_zero.mp hk)
      rw [lexemesWithin_nil, lexemesWithin_nil]
  | succ k ih =>
      intro n m cs hk hn hm
      cases cs with
      | nil => rw [lexemesWithin_nil, lexemesWithin_nil]
      | cons c cs =>
          rw [List.length_cons] at hk hn hm
          cases hc : isSpace c with
          | true =>
              rw [lexemesWithin_space hc, lexemesWithin_space hc]
              exact ih (by omega) (by omega) (by omega)
          | false =>
              obtain ⟨n, rfl⟩ : ∃ n', n = n' + 1 := ⟨n - 1, by omega⟩
              obtain ⟨m, rfl⟩ : ∃ m', m = m' + 1 := ⟨m - 1, by omega⟩
              rw [lexemesWithin_cons hc, lexemesWithin_cons hc]
              refine Option.bind_congr fun p hp => ?_
              have hlen : p.2.length < cs.length + 1 := length_of_readLexeme hp
              rw [ih (n := n) (m := m) (by omega) (by omega) (by omega)]

theorem lexemes_nil : lexemes [] = some [] := rfl

theorem lexemes_space {c : Char} (hc : isSpace c = true) (cs : List Char) :
    lexemes (c :: cs) = lexemes cs := by
  rw [lexemes, lexemesWithin_space hc]
  exact lexemesWithin_congr (Nat.le_succ _) le_rfl

theorem lexemes_cons {c : Char} (hc : isSpace c = false) (cs : List Char) :
    lexemes (c :: cs)
      = (readLexeme (c :: cs)).bind fun p => (lexemes p.2).map (p.1 :: ·) := by
  rw [lexemes, List.length_cons, lexemesWithin_cons hc]
  refine Option.bind_congr fun p hp => ?_
  have hlen := length_of_readLexeme hp
  rw [List.length_cons] at hlen
  rw [lexemes, lexemesWithin_congr (by omega) le_rfl]

/-- No lexeme starts with a space. -/
theorem readLexeme_space {c : Char} (hc : isSpace c = true) (cs : List Char) :
    readLexeme (c :: cs) = none := by
  simp only [isSpace, Bool.or_eq_true, decide_eq_true_eq] at hc
  rcases hc with ((rfl | rfl) | rfl) | rfl <;> rfl

theorem lexemes_of_read (h : readLexeme cs = some (l, rest)) :
    lexemes cs = (lexemes rest).map (l :: ·) := by
  cases cs with
  | nil => cases h
  | cons c cs =>
      cases hc : isSpace c with
      | true =>
          rw [readLexeme_space hc] at h
          cases h
      | false =>
          rw [lexemes_cons hc, h]
          rfl

theorem lexemes_mark {c : Char} (h : (c, l) ∈ markLexemes) (rest : List Char) :
    lexemes (c :: rest) = (lexemes rest).map (l :: ·) :=
  lexemes_of_read (readLexeme_mark h rest)

/-- Induction along the reading of a text: it steps over a space or takes a lexeme. -/
@[elab_as_elim]
theorem lexemes_induction
    {motive : (cs : List Char) → (ls : List Lexeme) → lexemes cs = some ls → Prop}
    (nil : motive [] [] lexemes_nil)
    (space : ∀ {c cs ls} (hc : isSpace c = true) (h : lexemes cs = some ls), motive cs ls h →
      motive (c :: cs) ls ((lexemes_space hc cs).trans h))
    (cons : ∀ {cs l rest ls} (hread : readLexeme cs = some (l, rest))
      (h : lexemes rest = some ls), motive rest ls h →
      motive cs (l :: ls) ((lexemes_of_read hread).trans (congrArg _ h)))
    {cs : List Char} {ls : List Lexeme} (h : lexemes cs = some ls) : motive cs ls h := by
  suffices hk : ∀ (k : Nat) {cs : List Char} {ls : List Lexeme}, cs.length ≤ k →
      ∀ h : lexemes cs = some ls, motive cs ls h from hk cs.length le_rfl h
  -- the rest behind a lexeme is no part of the list, only shorter
  intro k
  induction k with
  | zero =>
      intro cs ls hk hcs
      obtain rfl := List.length_eq_zero_iff.mp (Nat.le_zero.mp hk)
      obtain rfl := Option.some.inj hcs
      exact nil
  | succ k ih =>
      intro cs ls hk hcs
      cases cs with
      | nil =>
          obtain rfl := Option.some.inj hcs
          exact nil
      | cons c cs =>
          rw [List.length_cons] at hk
          cases hc : isSpace c with
          | true =>
              have hrest : lexemes cs = some ls := (lexemes_space hc cs).symm.trans hcs
              exact space hc hrest (ih (by omega) hrest)
          | false =>
              obtain ⟨⟨l, rest⟩, hread, hmap⟩ :=
                Option.bind_eq_some_iff.mp ((lexemes_cons hc cs).symm.trans hcs)
              obtain ⟨ls, hrest, rfl⟩ := Option.map_eq_some_iff.mp hmap
              have hlen : rest.length < cs.length + 1 := length_of_readLexeme hread
              have hk' : rest.length ≤ k := by omega
              exact cons hread hrest (ih hk' hrest)

/-- A text that can be read to its end is read in the same way with more behind it. -/
theorem lexemes_append (hx : EndsNumber x) {cs : List Char} {ls : List Lexeme}
    (h : lexemes cs = some ls) :
    lexemes (cs ++ x :: more) = (lexemes (x :: more)).map (ls ++ ·) := by
  induction h using lexemes_induction with
  | nil => simp
  | space hc _ ih => rw [List.cons_append, lexemes_space hc, ih]
  | cons hread _ ih =>
      rw [lexemes_of_read (readLexeme_append hx hread), ih, Option.map_map]
      rfl

theorem head_of_readNumber {c : Char} {n : JsonNumber}
    (h : readNumber (c :: cs) = some (n, rest)) : c = '-' ∨ c.isDigit = true := by
  by_cases hc : c = '-'
  · exact .inl hc
  · refine .inr ?_
    have hhead : (c :: cs).head? ≠ some '-' := fun hhead => hc (Option.some.inj hhead)
    rw [readNumber_other hhead] at h
    obtain ⟨⟨whole, cs'⟩, hwhole, -⟩ := Option.bind_eq_some_iff.mp h
    by_contra hdigit
    have htake : (c :: cs).takeWhile Char.isDigit = [] := List.takeWhile_cons_of_neg hdigit
    rw [readWhole, htake] at hwhole
    · cases hwhole
    · rintro more hcs
      obtain ⟨rfl, -⟩ := List.cons.inj hcs
      exact hdigit (by decide)

/-- A character that no lexeme starts with. -/
structure Stray (c : Char) : Prop where
  mark : c ∉ markLexemes.map (·.1)
  quote : c ≠ '"'
  digit : c.isDigit = false
  minus : c ≠ '-'
  word : c ∉ ['n', 't', 'f']

theorem Stray.readLexeme {c : Char} (h : Stray c) (cs : List Char) :
    readLexeme (c :: cs) = none := by
  cases hread : Json.readLexeme (c :: cs) with
  | none => rfl
  | some found =>
      obtain ⟨l, rest⟩ := found
      rcases readLexeme_cases hread with
        ⟨d, hd, heq⟩ | ⟨body, s, heq, -, -⟩ | ⟨n, hn, -⟩ | ⟨w, hw, heq⟩
      · obtain ⟨rfl, -⟩ := List.cons.inj heq
        exact absurd (List.mem_map_of_mem hd) h.mark
      · exact absurd (List.cons.inj heq).1 h.quote
      · rcases head_of_readNumber hn with hminus | hdigit
        · exact absurd hminus h.minus
        · rw [h.digit] at hdigit
          cases hdigit
      · have hstart : ∀ p ∈ wordLexemes, ∃ d ∈ ['n', 't', 'f'], p.1.head? = some d := by decide
        obtain ⟨d, hd, hhead⟩ := hstart _ hw
        have hc : (w ++ rest).head? = some d := by rw [List.head?_append, hhead, Option.some_or]
        rw [← heq, List.head?_cons, Option.some.injEq] at hc
        exact absurd (hc ▸ hd) h.word

theorem Stray.lexemes {c : Char} (h : Stray c) (hc : isSpace c = false) (cs : List Char) :
    lexemes (c :: cs) = none := by
  rw [lexemes_cons hc, h.readLexeme]
  rfl

end

end DesignTokens.Json
