import DesignTokens.Proofs.Json.Compact
import DesignTokens.Proofs.Json.Strings

/-!
# Escapes in a text

A text in which every backslash starts an escape stays so when it is cut
anywhere but inside an escape (`WellEscaped`). Compact texts are of this kind.
Whatever is read from such a text, its strings consist of characters of the text
and of others that are ASCII (`WellEscaped.allStrings_parse`).
-/

namespace DesignTokens.Json

open Text Number

/-! ## Written characters -/

/-- Whether a character is written as an escape. -/
def needsEscape (c : Char) : Bool := c = '"' || c = '\\' || c.toNat < 0x20

/-- The characters of escapes. -/
def escapeChars : List Char := "\\u\"bfnrt0123456789abcdef".toList

theorem escaped_plain {c : Char} (h : needsEscape c = false) : escaped c = [c] := by
  rw [escaped.eq_def]
  split
  case h_8 =>
    simp only [needsEscape, Bool.or_eq_false_iff, decide_eq_false_iff_not] at h
    rw [if_neg h.2]
  all_goals cases h

theorem exists_escaped {c : Char} (h : needsEscape c = true) :
    ∃ es, escaped c = '\\' :: es ∧ ∀ d ∈ es, d ∈ escapeChars := by
  rw [escaped.eq_def]
  split
  case h_8 hquote hback _ _ _ _ _ =>
    have hctrl : c.toNat < 0x20 := by
      simp only [needsEscape, Bool.or_eq_true, decide_eq_true_eq] at h
      exact h.resolve_left fun hc => hc.elim hquote hback
    have hdigits : ∀ n < 0x20, ∀ d ∈ ['u', '0', '0', hexDigit (n / 16), hexDigit (n % 16)],
        d ∈ escapeChars := by decide
    rw [if_pos hctrl]
    exact ⟨_, rfl, hdigits _ hctrl⟩
  all_goals exact ⟨_, rfl, by decide⟩

theorem mem_escaped {c d : Char} (h : d ∈ escaped c) :
    (d = c ∧ needsEscape c = false) ∨ (d ∈ escapeChars ∧ needsEscape c = true) := by
  cases hc : needsEscape c with
  | false =>
      rw [escaped_plain hc] at h
      exact .inl ⟨List.mem_singleton.mp h, rfl⟩
  | true =>
      obtain ⟨es, hes, hchars⟩ := exists_escaped hc
      rw [hes] at h
      rcases List.mem_cons.mp h with rfl | h
      · exact .inr ⟨by decide, rfl⟩
      · exact .inr ⟨hchars d h, rfl⟩

theorem mem_escapeChars {c d : Char} (hc : needsEscape c = true) (h : d ∈ escaped c) :
    d ∈ escapeChars := by
  rcases mem_escaped h with ⟨-, hplain⟩ | ⟨hmem, -⟩
  · rw [hc] at hplain
    cases hplain
  · exact hmem

theorem toNat_lt_of_mem_escapeChars {c : Char} (h : c ∈ escapeChars) : c.toNat < 0x80 := by
  have hlt : ∀ c ∈ escapeChars, c.toNat < 0x80 := by decide
  exact hlt c h

theorem toNat_lt_of_needsEscape {c : Char} (h : needsEscape c = true) : c.toNat < 0x80 := by
  simp only [needsEscape, Bool.or_eq_true, decide_eq_true_eq] at h
  rcases h with (rfl | rfl) | h
  · decide
  · decide
  · omega

/-! ## Well escaped texts -/

/-- Every backslash of the text starts an escape, and all characters outside of escapes have the
property. -/
inductive WellEscaped (P : Char → Prop) : List Char → Prop
  | nil : WellEscaped P []
  | char {c : Char} {w : List Char} (hback : c ≠ '\\') (hc : P c) (h : WellEscaped P w) :
      WellEscaped P (c :: w)
  | escape {c : Char} {w : List Char} (hc : needsEscape c = true) (h : WellEscaped P w) :
      WellEscaped P (escaped c ++ w)

namespace WellEscaped

variable {P : Char → Prop} {c x : Char} {w v : List Char}

theorem append (hw : WellEscaped P w) (hv : WellEscaped P v) : WellEscaped P (w ++ v) := by
  induction hw with
  | nil => exact hv
  | char hback hc _ ih => exact .char hback hc ih
  | escape hc _ ih =>
      rw [List.append_assoc]
      exact .escape hc ih

theorem of_forall (h : ∀ c ∈ w, c ≠ '\\' ∧ P c) : WellEscaped P w := by
  induction w with
  | nil => exact .nil
  | cons c w ih =>
      obtain ⟨hc, hw⟩ := List.forall_mem_cons.mp h
      exact .char hc.1 hc.2 (ih hw)

theorem tail (h : WellEscaped P (c :: w)) (hback : c ≠ '\\') : WellEscaped P w := by
  generalize ht : c :: w = t at h
  cases h with
  | nil => cases ht
  | char _ _ hw =>
      obtain ⟨-, rfl⟩ := List.cons.inj ht
      exact hw
  | escape hc _ =>
      obtain ⟨es, hes, -⟩ := exists_escaped hc
      rw [hes] at ht
      exact absurd (List.cons.inj ht).1 hback

/-- What stands behind characters that are no backslashes. -/
theorem of_append (hback : ∀ c ∈ w, c ≠ '\\') (h : WellEscaped P (w ++ v)) : WellEscaped P v := by
  induction w with
  | nil => exact h
  | cons c w ih =>
      obtain ⟨hc, hw⟩ := List.forall_mem_cons.mp hback
      exact ih hw (h.tail hc)

/-- What stands in front of a character that no escape has. -/
theorem left (hx : x ∉ escapeChars) (h : WellEscaped P (w ++ x :: v)) : WellEscaped P w := by
  generalize ht : w ++ x :: v = t at h
  induction h generalizing w with
  | nil => simp at ht
  | char hback hc _ ih =>
      cases w with
      | nil => exact .nil
      | cons d w =>
          obtain ⟨rfl, htail⟩ := List.cons.inj ht
          exact .char hback hc (ih htail)
  | escape hc _ ih =>
      have hescape : x ∉ escaped _ := fun hmem => hx (mem_escapeChars hc hmem)
      obtain ⟨w', rfl, htail⟩ := exists_of_append_eq hescape ht.symm
      exact .escape hc (ih htail.symm)

theorem forall_mem (hascii : ∀ c : Char, c.toNat < 0x80 → P c) (h : WellEscaped P w) :
    ∀ c ∈ w, P c := by
  induction h with
  | nil => exact nofun
  | char _ hc _ ih => exact List.forall_mem_cons.mpr ⟨hc, ih⟩
  | escape hc _ ih =>
      intro d hd
      rcases List.mem_append.mp hd with hd | hd
      · exact hascii d (toNat_lt_of_mem_escapeChars (mem_escapeChars hc hd))
      · exact ih d hd

end WellEscaped

theorem wellEscaped_quoted {P : Char → Prop} {s : String} (hquote : P '"')
    (h : ∀ c ∈ s.toList, P c) : WellEscaped P (quoted s) := by
  have hinside : ∀ cs : List Char, (∀ c ∈ cs, P c) → WellEscaped P (cs.flatMap escaped) := by
    intro cs hcs
    induction cs with
    | nil => exact .nil
    | cons c cs ih =>
        obtain ⟨hc, hrest⟩ := List.forall_mem_cons.mp hcs
        rw [List.flatMap_cons]
        cases hneeds : needsEscape c with
        | true => exact .escape hneeds (ih hrest)
        | false =>
            have hback : c ≠ '\\' := by
              rintro rfl
              cases hneeds
            rw [escaped_plain hneeds]
            exact .char hback hc (ih hrest)
  exact (WellEscaped.char (by decide) hquote (hinside _ h)).append (.char (by decide) hquote .nil)

theorem known_finish {P : Char → Prop} {s : StringSoFar} (hs : ∀ c ∈ s.done, P c) :
    Known (fun x => ∀ c ∈ x.toList, P c) s.finish := by
  intro x hx
  rw [StringSoFar.finish] at hx
  split at hx
  · cases hx
    intro c hc
    rw [String.toList_ofList, List.mem_reverse] at hc
    exact hs c hc
  · cases hx

section

variable {P : Char → Prop} (hascii : ∀ c : Char, c.toNat < 0x80 → P c)

include hascii

/-- Compact texts are well escaped. -/
theorem joins_wellEscaped :
    Joins (fun s => ∀ c ∈ s.toList, P c) id fun w _ => WellEscaped P w := by
  refine joins_of_append WellEscaped.append (fun h => .of_forall fun c hc => ?_)
    (fun s hs => wellEscaped_quoted (hascii '"' (by decide)) hs) fun h => ?_
  · exact ⟨(h c hc).ne (by decide), hascii c (h c hc).toNat_lt⟩
  · exact (WellEscaped.char (by decide) (hascii _ (by decide)) h).append
      (.char (by decide) (hascii _ (by decide)) .nil)

/-! ## Reading -/

theorem WellEscaped.readString {w : List Char} (hw : WellEscaped P w) :
    ∀ {s : StringSoFar} {found : Option String} {rest : List Char}, (∀ c ∈ s.done, P c) →
      readString s w = some (found, rest) →
      WellEscaped P rest ∧ Known (fun x => ∀ c ∈ x.toList, P c) found := by
  induction hw with
  | nil =>
      intro s found rest _ h
      cases h
  | @char c w hback hc hw ih =>
      intro s found rest hs h
      by_cases hquote : c = '"'
      · subst hquote
        rw [readString_quote] at h
        cases h
        exact ⟨hw, known_finish hs⟩
      · by_cases hctrl : c.toNat < 0x20
        · rw [readString_ctrl hctrl] at h
          cases h
        · rw [readString_char hquote hback hctrl] at h
          exact ih (List.forall_mem_cons.mpr ⟨hc, hs⟩) h
  | @escape c w hc hw ih =>
      intro s found rest hs h
      -- an escape stands for a character below 0x20 or for a mark, which are ASCII
      rw [readString_escaped] at h
      exact ih (List.forall_mem_cons.mpr ⟨hascii c (toNat_lt_of_needsEscape hc), hs⟩) h

theorem WellEscaped.readLexeme {w rest : List Char} {l : Lexeme} (hw : WellEscaped P w)
    (h : readLexeme w = some (l, rest)) :
    WellEscaped P rest ∧ l.Holds (Known fun x => ∀ c ∈ x.toList, P c) := by
  rcases readLexeme_cases h with
    ⟨c, hc, rfl⟩ | ⟨body, s, rfl, hs, rfl⟩ | ⟨n, hn, rfl⟩ | ⟨v, hv, rfl⟩
  · simp only [markLexemes, List.mem_cons, Prod.mk.injEq, List.not_mem_nil, or_false] at hc
    rcases hc with ⟨rfl, rfl⟩ | ⟨rfl, rfl⟩ | ⟨rfl, rfl⟩ | ⟨rfl, rfl⟩ | ⟨rfl, rfl⟩ | ⟨rfl, rfl⟩ <;>
      exact ⟨hw.tail (by decide), trivial⟩
  · have hbody : WellEscaped P body := hw.tail (by decide)
    exact hbody.readString hascii (s := {}) (fun c hc => absurd hc List.not_mem_nil) hs
  · obtain ⟨v, rfl, -, hv⟩ := exists_of_readNumber hn
    refine ⟨hw.of_append fun c hc => ?_, trivial⟩
    rintro rfl
    exact absurd (hv _ hc) (by rw [IsNumeral]; decide)
  · have hback : ∀ p ∈ wordLexemes, ∀ c ∈ p.1, c ≠ '\\' := by decide
    refine ⟨hw.of_append (hback _ hv), ?_⟩
    simp only [wordLexemes, List.mem_cons, Prod.mk.injEq, List.not_mem_nil, or_false] at hv
    rcases hv with ⟨-, rfl⟩ | ⟨-, rfl⟩ | ⟨-, rfl⟩ <;> trivial

theorem WellEscaped.lexemes {w : List Char} {ls : List Lexeme} (hw : WellEscaped P w)
    (h : Json.lexemes w = some ls) :
    ∀ l ∈ ls, l.Holds (Known fun x => ∀ c ∈ x.toList, P c) := by
  induction h using lexemes_induction with
  | nil => exact nofun
  | space hc _ ih =>
      refine ih (hw.tail ?_)
      rintro rfl
      cases hc
  | cons hread _ ih =>
      obtain ⟨hrest, hl⟩ := hw.readLexeme hascii hread
      exact List.forall_mem_cons.mpr ⟨hl, ih hrest⟩

/-- The strings of a document that a well escaped text writes consist of the characters of the
text. -/
theorem WellEscaped.allStrings_parse {w : List Char} {d : Document} (hw : WellEscaped P w)
    (h : parse? (String.ofList w) = some d) :
    AllStrings (Known fun x => ∀ c ∈ x.toList, P c) d := by
  obtain ⟨ls, hls, hd⟩ := Option.bind_eq_some_iff.mp h
  rw [String.toList_ofList] at hls
  exact allStrings_of_ofLexemes (hw.lexemes hascii hls) hd

end

end DesignTokens.Json
