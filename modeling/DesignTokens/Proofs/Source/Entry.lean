import DesignTokens.Proofs.Source.Block
import DesignTokens.Proofs.Text.Word

/-!
# The entries of an object

The brace that matches an opening one is a closing brace, so an object cuts its
text in three parts (`exists_between`). An unquoted key of the object stands in
the text between two characters that are no word characters
(`enclosed_of_mem_entries`). The one exception are the keys that are read out of
a line comment, which are single letters with digits behind them (`Short`).
-/

namespace DesignTokens.Source

open Text

/-! ## The closing brace -/

theorem exists_of_closingFrom : ∀ {divided : List (Char × Region)} {depth pos n : Nat},
    closingFrom depth pos divided = some n →
      ∃ b c, divided.map (·.1) = b ++ '\x7d' :: c ∧ n = pos + b.length ∧
        (depth = 0 → '\x7b' ∈ b)
  | [], _, _, _, h => by cases h
  | (c, r) :: divided, depth, pos, n, h => by
      -- what is found behind the first character
      have behind : ∀ {inside : Nat}, closingFrom inside (pos + 1) divided = some n →
          (depth = 0 → c = '\x7b' ∨ inside = 0) →
          ∃ b d, ((c, r) :: divided).map (·.1) = b ++ '\x7d' :: d ∧ n = pos + b.length ∧
            (depth = 0 → '\x7b' ∈ b) := by
        intro inside hinside hdepth
        obtain ⟨b, d, hb, rfl, hopen⟩ := exists_of_closingFrom hinside
        refine ⟨c :: b, d, by rw [List.map_cons, hb, List.cons_append],
          by rw [List.length_cons]; omega, fun hzero => ?_⟩
        rcases hdepth hzero with rfl | hzero
        · exact List.mem_cons_self ..
        · exact List.mem_cons_of_mem c (hopen hzero)
      rw [closingFrom.eq_def] at h
      dsimp only at h
      split at h
      case isTrue hopen =>
        simp only [Bool.and_eq_true, decide_eq_true_eq] at hopen
        exact behind h fun _ => .inl hopen.2
      case isFalse =>
        split at h
        case isTrue hclose =>
          simp only [Bool.and_eq_true, decide_eq_true_eq] at hclose
          rcases depth with - | - | depth
          · cases h
          · obtain rfl := Option.some.inj h
            exact ⟨[], _, by rw [List.map_cons, hclose.2]; rfl, rfl, by simp⟩
          · exact behind h (by simp)
        case isFalse => exact behind h .inr

/-- The matching brace is a closing brace, and an opening one stands in front of it. -/
theorem exists_of_matchingBrace {text : List Char} {opening closing : Nat}
    (h : matchingBrace? text opening = some closing) :
    ∃ b c, text.drop opening = b ++ '\x7d' :: c ∧ closing = opening + b.length ∧ '\x7b' ∈ b := by
  obtain ⟨b, c, hb, hclosing, hopen⟩ := exists_of_closingFrom h
  rw [map_fst_regions] at hb
  exact ⟨b, c, hb, hclosing, hopen rfl⟩

/-- A text with an object, cut at its two braces. -/
theorem exists_between {text : List Char} {opening closing : Nat}
    (h : matchingBrace? text opening = some closing) :
    ∃ d rest, text = text.take opening ++ d :: (between text opening closing ++ '\x7d' :: rest) ∧
      (text.take opening).length = opening ∧
      closing = opening + 1 + (between text opening closing).length ∧
      (d = '\x7b' ∨ '\x7b' ∈ between text opening closing) := by
  obtain ⟨b, c, hb, rfl, hopen⟩ := exists_of_matchingBrace h
  obtain ⟨d, inside, rfl⟩ := List.exists_cons_of_ne_nil (List.ne_nil_of_mem hopen)
  have hlength : opening ≤ text.length := by
    by_contra hlt
    rw [List.drop_eq_nil_of_le (by omega)] at hb
    cases hb
  have hbetween : between text opening (opening + (d :: inside).length) = inside := by
    rw [between, ← List.drop_drop, hb, List.length_cons]
    have hsub : opening + (inside.length + 1) - (opening + 1) = inside.length := by omega
    rw [hsub, List.cons_append, List.drop_succ_cons, List.drop_zero, List.take_left]
  rw [hbetween]
  refine ⟨d, c, ?_, List.length_take_of_le hlength, by rw [List.length_cons]; omega, ?_⟩
  · rw [← List.cons_append, ← hb, List.take_append_drop]
  · rcases List.mem_cons.mp hopen with h | h
    · exact .inl h.symm
    · exact .inr h

/-- The object of an opening brace, cut at its two braces. -/
theorem exists_object {text : List Char} {opening closing : Nat}
    (h : matchingBrace? text opening = some closing) (hopen : text[opening]? = some '\x7b') :
    ∃ a rest, text = a ++ '\x7b' :: (between text opening closing ++ '\x7d' :: rest) ∧
      a.length = opening ∧ closing = opening + 1 + (between text opening closing).length := by
  obtain ⟨d, rest, htext, hopening, hclosing, -⟩ := exists_between h
  refine ⟨text.take opening, rest, ?_, hopening, hclosing⟩
  have hd : text[opening]? = some d := by
    rw [htext, List.getElem?_append_right hopening.le, hopening, Nat.sub_self,
      List.getElem?_cons_zero]
  obtain rfl : '\x7b' = d := Option.some.inj (hopen.symm.trans hd)
  exact htext

/-! ## The key of a piece -/

/-- The text starts with the word and a character that is no word character. -/
def Leads (w text : List Char) : Prop := ∃ y b, text = w ++ y :: b ∧ isWord y = false

theorem Leads.enclosed {w text : List Char} (h : Leads w text) {x : Char} (hx : isWord x = false)
    (front : List Char) : Enclosed w (front ++ x :: text) := by
  obtain ⟨y, b, rfl, hy⟩ := h
  exact ⟨front, x, y, b, rfl, hx, hy⟩

theorem isWord_of_isBlank {c : Char} (h : isBlank c = true) : isWord c = false := by
  simp only [isBlank, Bool.or_eq_true, decide_eq_true_eq] at h
  rcases h with ((((rfl | rfl) | rfl) | rfl) | rfl) | rfl <;> decide

/-- A colon, perhaps with blanks in front of it, starts with a character that is in no name. -/
theorem exists_of_colonBehind {cs value : List Char} (h : colonBehind? cs = some value) :
    ∃ y b, cs = y :: b ∧ isIdent y = false := by
  cases cs with
  | nil => cases h
  | cons y b =>
      refine ⟨y, b, rfl, ?_⟩
      by_contra hident
      rw [Bool.not_eq_false] at hident
      have hskip : skipBlanks (y :: b) = y :: b :=
        List.dropWhile_cons_of_neg (by rw [isBlank_of_isIdent hident]; decide)
      rw [colonBehind?, hskip] at h
      split at h
      case h_1 hy =>
        obtain ⟨rfl, -⟩ := List.cons.inj hy
        cases hident
      case h_2 => cases h

/-- The characters of an identifier up to its end. -/
theorem exists_run (cs : List Char) :
    ∃ w rest, cs = w ++ rest ∧ (∀ c ∈ w, isIdent c = true) ∧ NoIdent rest.head? := by
  refine ⟨cs.takeWhile isIdent, cs.dropWhile isIdent, List.takeWhile_append_dropWhile.symm,
    fun c hc => List.mem_takeWhile_imp hc, fun d hd => ?_⟩
  have hstop := List.head?_dropWhile_not isIdent cs
  rw [Option.mem_def.mp hd] at hstop
  simpa using hstop

/-- An unquoted key right at the start of the characters leads them. -/
theorem leads_of_keyHere {c : Char} {cs : List Char} {k : Key} (h : keyHere? (c :: cs) = some k)
    (hquoted : k.quoted = false) : isIdent c = true ∧ Leads k.text (c :: cs) := by
  by_cases hstart : isIdentStart c = true
  · obtain ⟨w, rest, rfl, hw, hrest⟩ := exists_run cs
    rw [keyHere?_name hstart hw hrest] at h
    obtain ⟨value, hcolon, rfl⟩ := Option.map_eq_some_iff.mp h
    obtain ⟨y, b, rfl, hy⟩ := exists_of_colonBehind hcolon
    exact ⟨isIdent_of_isIdentStart hstart, y, b, rfl, isWord_of_isIdent_eq_false hy⟩
  · rw [Bool.not_eq_true] at hstart
    by_cases hquote : c = '"' ∨ c = '\''
    · rw [keyHere?_quote hquote] at h
      split at h
      case h_1 =>
        split at h
        case isTrue =>
          obtain ⟨value, -, rfl⟩ := Option.map_eq_some_iff.mp h
          cases hquoted
        case isFalse => cases h
      case h_2 => cases h
    · rw [keyHere?_eq_none hstart (not_or.mp hquote)] at h
      cases h

/-- Where an unquoted key of some characters stands: at their start or enclosed, unless it is read
out of a line comment. -/
def Placed (k : Key) (cs : List Char) : Prop :=
  k.quoted = false → Short k.text ∨ Enclosed k.text cs

theorem Placed.cons {k : Key} {cs : List Char} (h : Placed k cs) (c : Char) :
    Placed k (c :: cs) := fun hquoted =>
  (h hquoted).imp_right fun henclosed => henclosed.append_left [c]

/-- What `keyAt`, `keyInLine` and `keyInBlock` find is placed; `keyAt` may also find a key at the
start, provided that the characters start with an identifier. -/
structure Places (cs : List Char) : Prop where
  here : ∀ k, keyAt cs = some k → Placed k cs ∨
    k.quoted = false ∧ cs.head?.any isIdent = true ∧ Leads k.text cs
  inLine : ∀ k, keyInLine cs = some k → Placed k cs
  inBlock : ∀ k, keyInBlock cs = some k → Placed k cs

/-- A key behind a character that is in no word is placed. -/
theorem Places.behind {cs : List Char} (h : Places cs) {x : Char} (hx : isWord x = false)
    {k : Key} (hk : keyAt cs = some k) : Placed k (x :: cs) := by
  rcases h.here k hk with hplaced | ⟨-, -, hleads⟩
  · exact hplaced.cons x
  · exact fun _ => .inr (hleads.enclosed hx [])

/-- A key in a line comment that starts with an identifier is one behind it, or a single letter of
it with digits. -/
theorem placed_inLine_run {w rest : List Char} (hw : ∀ c ∈ w, isIdent c = true)
    (hrest : NoIdent rest.head?) (h : ∀ k, keyInLine rest = some k → Placed k rest) {k : Key}
    (hk : keyInLine (w ++ rest) = some k) : Placed k (w ++ rest) := by
  have hbehind : keyInLine rest = some k → Placed k (w ++ rest) := fun hk hquoted =>
    (h k hk hquoted).imp_right fun henclosed => henclosed.append_left w
  cases hcolon : colonBehind? rest with
  | none =>
      rw [keyInLine_word_none hrest hcolon hw] at hk
      exact hbehind hk
  | some value =>
      by_cases hstart : ∃ c ∈ w, isIdentStart c = true
      · obtain ⟨k', -, hshort, hline⟩ := keyInLine_word_some hrest hcolon hw hstart
        rw [hline] at hk
        rcases Option.or_eq_some_iff.mp hk with hk | ⟨-, hk⟩
        · exact hbehind hk
        · obtain rfl := Option.some.inj hk
          exact fun _ => .inl hshort
      · have hdigits : ∀ c ∈ w, isIdent c = true ∧ isIdentStart c = false :=
          fun c hc => ⟨hw c hc, by simpa using fun hs => hstart ⟨c, hc, hs⟩⟩
        rw [keyInLine_digits hdigits] at hk
        exact hbehind hk

theorem places_here {c : Char} {cs : List Char} (hrest : Places cs)
    (hbehind : ∀ d rest, cs = d :: rest → Places rest) {k : Key} (hk : keyAt (c :: cs) = some k) :
    Placed k (c :: cs) ∨
      k.quoted = false ∧ (c :: cs).head?.any isIdent = true ∧ Leads k.text (c :: cs) := by
  by_cases hblank : isBlank c = true
  · rw [keyAt_blank hblank] at hk
    exact .inl (hrest.behind (isWord_of_isBlank hblank) hk)
  by_cases hpair : c = '/' ∧ (cs.head? = some '/' ∨ cs.head? = some '*')
  · obtain ⟨rfl, hpair⟩ := hpair
    rcases hpair with hpair | hpair <;> obtain ⟨rest, rfl⟩ := List.head?_eq_some_iff.mp hpair
    · exact .inl ((((hbehind _ rest rfl).inLine k hk).cons _).cons _)
    · exact .inl ((((hbehind _ rest rfl).inBlock k hk).cons _).cons _)
  rw [keyAt_other (by simpa using hblank) hpair] at hk
  cases hquoted : k.quoted with
  | true => exact .inl fun h => absurd (hquoted.symm.trans h) (by decide)
  | false =>
      obtain ⟨hc, hleads⟩ := leads_of_keyHere hk hquoted
      exact .inr ⟨rfl, by simpa using hc, hleads⟩

theorem places (cs : List Char) : Places cs := by
  -- a step goes behind a character, behind a mark of two, or behind a word
  induction hlen : cs.length using Nat.strongRecOn generalizing cs with
  | ind n ih =>
    subst hlen
    cases cs with
    | nil => exact ⟨nofun, nofun, nofun⟩
    | cons c cs =>
        have hrest : Places cs := ih _ (Nat.lt_succ_self _) cs rfl
        have hbehind : ∀ d rest, cs = d :: rest → Places rest := by
          rintro d rest rfl
          exact ih _ (by simp only [List.length_cons]; omega) rest rfl
        refine ⟨fun k => places_here hrest hbehind, fun k hk => ?_, fun k hk => ?_⟩
        · by_cases hc : isIdent c = true
          · obtain ⟨w, rest, hcs, hw, hend⟩ := exists_run (c :: cs)
            cases w with
            | nil =>
                rw [List.nil_append] at hcs
                rw [← hcs] at hend
                exact absurd (hend c rfl) (by simp [hc])
            | cons d w =>
                have hshort : rest.length < (c :: cs).length := by
                  rw [hcs, List.length_append, List.length_cons]
                  omega
                rw [hcs] at hk ⊢
                exact placed_inLine_run hw hend (ih _ hshort rest rfl).inLine hk
          · by_cases hline : c = '\n'
            · subst hline
              rw [keyInLine_newline, keyAt_blank (by decide)] at hk
              exact hrest.behind (by decide) hk
            · rw [keyInLine_cons hline] at hk
              rcases Option.or_eq_some_iff.mp hk with hk | ⟨-, hk⟩
              · exact (hrest.inLine k hk).cons c
              · rcases places_here hrest hbehind hk with hplaced | ⟨-, hident, -⟩
                · exact hplaced
                · exact absurd (by simpa using hident) hc
        · by_cases hclose : c = '*' ∧ cs.head? = some '/'
          · obtain ⟨rfl, hhead⟩ := hclose
            obtain ⟨rest, rfl⟩ := List.head?_eq_some_iff.mp hhead
            rw [keyInBlock_close] at hk
            rcases Option.or_eq_some_iff.mp hk with hk | ⟨-, hk⟩
            · exact ((hbehind _ rest rfl).behind (by decide) hk).cons _
            · exact (hrest.inBlock k hk).cons _
          · rw [keyInBlock_other hclose] at hk
            exact (hrest.inBlock k hk).cons c

/-! ## The keys of an object -/

/-- The first piece of an object starts with it, and every later one behind a comma. -/
theorem exists_segments : ∀ (divided : List (Char × Region)) (depth pos : Nat),
    ∃ n piece later, segmentsFrom depth pos divided = (n, piece) :: later ∧
      (∃ b, divided.map (·.1) = piece ++ b) ∧
      ∀ x ∈ later, ∃ a b, divided.map (·.1) = a ++ ',' :: (x.2 ++ b)
  | [], _, pos => ⟨pos, [], [], rfl, ⟨[], rfl⟩, by simp⟩
  | (c, r) :: divided, depth, pos => by
      by_cases hcomma : (r = .code && depth = 0 && c = ',') = true
      · obtain ⟨n, piece, later, hsegments, ⟨b, hb⟩, hlater⟩ := exists_segments divided 0 (pos + 1)
        rw [segmentsFrom_comma hcomma, hsegments]
        simp only [Bool.and_eq_true, decide_eq_true_eq] at hcomma
        refine ⟨pos, [], _, rfl, ⟨_, rfl⟩, fun x hx => ?_⟩
        rcases List.mem_cons.mp hx with rfl | hx
        · exact ⟨[], b, by rw [List.map_cons, hb, hcomma.2]; rfl⟩
        · obtain ⟨a, b, hx⟩ := hlater x hx
          exact ⟨c :: a, b, by rw [List.map_cons, hx]; rfl⟩
      · obtain ⟨n, piece, later, hsegments, ⟨b, hb⟩, hlater⟩ :=
          exists_segments divided (depthBehind depth c r) (pos + 1)
        refine ⟨pos, c :: piece, later, segmentsFrom_other hcomma hsegments, ⟨b, ?_⟩,
          fun x hx => ?_⟩
        · rw [List.map_cons, hb]
          rfl
        · obtain ⟨a, b, hx⟩ := hlater x hx
          exact ⟨c :: a, b, by rw [List.map_cons, hx]; rfl⟩

/-- An unquoted key of an object is enclosed in the text, unless it is read out of a line
comment. -/
theorem enclosed_of_mem_entries {text : List Char} {opening closing : Nat}
    (hopen : text[opening]? = some '\x7b') (hclosing : matchingBrace? text opening = some closing)
    {e : Entry} (he : e ∈ entries text opening closing) (hquoted : e.quoted = false) :
    Short e.key ∨ Enclosed e.key text := by
  obtain ⟨front, rest, htext, -, -⟩ := exists_object hclosing hopen
  obtain ⟨⟨pos, piece⟩, hpiece, he⟩ := List.mem_filterMap.mp he
  obtain ⟨k, hk, rfl⟩ := Option.map_eq_some_iff.mp he
  -- in front of each piece stands the opening brace or a comma
  obtain ⟨a, x, b, hsplit, hx⟩ : ∃ a x b, text = a ++ x :: (piece ++ b) ∧ isWord x = false := by
    obtain ⟨n, first, later, hsegments, ⟨b, hb⟩, hlater⟩ :=
      exists_segments (regions (between text opening closing)) 0 (opening + 1)
    rw [hsegments] at hpiece
    rw [map_fst_regions] at hb hlater
    rcases List.mem_cons.mp hpiece with hpiece | hpiece
    · obtain ⟨-, rfl⟩ := Prod.mk.inj hpiece
      refine ⟨front, '\x7b', b ++ '\x7d' :: rest, ?_, by decide⟩
      rw [hb] at htext
      simpa using htext
    · obtain ⟨a, b, hb⟩ := hlater _ hpiece
      refine ⟨front ++ '\x7b' :: a, ',', b ++ '\x7d' :: rest, ?_, by decide⟩
      rw [hb] at htext
      simpa using htext
  rcases (places piece).behind hx hk hquoted with hshort | henclosed
  · exact .inl hshort
  · rw [hsplit, ← List.cons_append]
    exact .inr ((henclosed.append_right b).append_left a)

end DesignTokens.Source
