import DesignTokens.Proofs.Rewrite.FreeName
import DesignTokens.Proofs.Rewrite.Sites
import DesignTokens.Proofs.Text.Place
import DesignTokens.Proofs.Token.Bracket
import DesignTokens.Rewrite.Spacing

/-!
# Tokens and where they stand

A token that is found is a word of the text with a place of its own
(`exists_of_mem_occurrences`). Tokens that are found and tokens that are written
are made of the same few characters (`isTokenChar`).
-/

namespace DesignTokens

open Text Rewrite

/-- The characters of tokens: letters, digits, a dash, a point and brackets. -/
def isTokenChar (c : Char) : Bool := c.isAlphanum || c = '-' || c = '.' || c = '[' || c = ']'

theorem isTokenChar_of_isDigit {c : Char} (h : c.isDigit = true) : isTokenChar c = true := by
  simp [isTokenChar, Char.isAlphanum, h]

/-! ## The characters of a token -/

theorem isTokenChar_of_isDecimal {number : List Char} (h : IsDecimal number) :
    ∀ c ∈ number, isTokenChar c = true := by
  rcases h with h | ⟨whole, fraction, hwhole, hfraction, rfl⟩
  · exact fun c hc => isTokenChar_of_isDigit (h.2 c hc)
  · refine List.forall_mem_append.mpr ⟨fun c hc => isTokenChar_of_isDigit (hwhole.2 c hc), ?_⟩
    exact List.forall_mem_cons.mpr
      ⟨by decide, fun c hc => isTokenChar_of_isDigit (hfraction.2 c hc)⟩

theorem isTokenChar_of_bracketed {number : List Char} (h : IsDecimal number) (u : LengthUnit) :
    ∀ c ∈ '[' :: (number ++ (u.text ++ [']'])), isTokenChar c = true := by
  refine List.forall_mem_cons.mpr ⟨by decide, List.forall_mem_append.mpr
    ⟨isTokenChar_of_isDecimal h, List.forall_mem_append.mpr ⟨?_, by decide⟩⟩⟩
  cases u <;> decide

namespace Property

theorem isTokenChar_utility (p : Property) : ∀ c ∈ p.utility.toList, isTokenChar c = true := by
  cases p <;> decide

theorem isTokenChar_scale (p : Property) :
    ∀ e ∈ p.scale, ∀ c ∈ e.1.toList, isTokenChar c = true := by
  cases p <;> decide

theorem utility_ne_nil (p : Property) : p.utility.toList ≠ [] := by
  cases p <;> decide

theorem isTokenChar_of_isKey {p : Property} {key : List Char} (h : p.isKey key = true) :
    ∀ c ∈ key, isTokenChar c = true := by
  rw [isKey, Bool.or_eq_true] at h
  rcases h with h | h
  · obtain ⟨e, he, hkey⟩ := List.any_eq_true.mp h
    simp only [Bool.and_eq_true, decide_eq_true_eq] at hkey
    exact hkey.2 ▸ p.isTokenChar_scale e he
  · split at h
    case h_2 => cases h
    case h_1 d u hbracket =>
      obtain ⟨number, hnumber, rfl⟩ := exists_of_bracket?_eq_some hbracket
      exact isTokenChar_of_bracketed hnumber u

theorem isTokenChar_of_isToken {p : Property} {word : List Char} (h : p.isToken word = true) :
    word ≠ [] ∧ ∀ c ∈ word, isTokenChar c = true := by
  rw [isToken, Bool.or_eq_true] at h
  rcases h with h | h
  · simp only [Bool.and_eq_true, decide_eq_true_eq] at h
    rw [h.2]
    exact ⟨p.utility_ne_nil, p.isTokenChar_utility⟩
  · split at h
    case h_2 => cases h
    case h_1 key hkey =>
      obtain rfl := after_eq_some_iff.mp hkey
      refine ⟨by simp, fun c hc => ?_⟩
      rcases List.mem_append.mp hc with hc | hc
      · rcases List.mem_append.mp hc with hc | hc
        · exact p.isTokenChar_utility c hc
        · obtain rfl := List.mem_singleton.mp hc
          decide
      · exact isTokenChar_of_isKey h c hc

theorem byteLength_pos_of_isToken {p : Property} {word : List Char} (h : p.isToken word = true) :
    0 < byteLength word :=
  byteLength_pos (isTokenChar_of_isToken h).1

/-- A written token has no other characters than one that is found. -/
theorem isTokenChar_token (p : Property) (n : Nat) :
    ∀ c ∈ (p.token n).toList, isTokenChar c = true := by
  have hunit : ∀ c ∈ p.unit.toList, isTokenChar c = true := by
    cases p <;> decide
  intro c hc
  rw [token, scaleToken?] at hc
  cases hfind : p.scale.find? fun e => e.2 = n with
  | some e =>
      have he := p.isTokenChar_scale e (List.mem_of_find?_eq_some hfind)
      rw [hfind, Option.map_some, Option.getD_some, keyToken] at hc
      split at hc
      case isTrue => exact p.isTokenChar_utility c hc
      case isFalse =>
        simp only [String.toList_append, List.mem_append] at hc
        rcases hc with (hc | hc) | hc
        · exact p.isTokenChar_utility c hc
        · exact (by decide : ∀ c ∈ "-".toList, isTokenChar c = true) c hc
        · exact he c hc
  | none =>
      rw [hfind, Option.map_none, Option.getD_none, bracketToken] at hc
      simp only [String.toList_append, List.mem_append] at hc
      rcases hc with (((hc | hc) | hc) | hc) | hc
      · exact p.isTokenChar_utility c hc
      · exact (by decide : ∀ c ∈ "-[".toList, isTokenChar c = true) c hc
      · exact isTokenChar_of_isDigit (isDigit_of_mem_toString hc)
      · exact hunit c hc
      · exact (by decide : ∀ c ∈ "]".toList, isTokenChar c = true) c hc

end Property

/-! ## The place of a token -/

theorem exists_of_mem_startsFrom : ∀ {text rest : List Char} {atLead : Bool} {pos p : Nat},
    (p, rest) ∈ startsFrom atLead pos text → ∃ a, text = a ++ rest ∧ p = pos + a.length
  | [], rest, atLead, pos, p, h => by
      rw [startsFrom] at h
      split at h
      case isTrue =>
        cases List.mem_singleton.mp h
        exact ⟨[], rfl, rfl⟩
      case isFalse => cases h
  | c :: cs, rest, atLead, pos, p, h => by
      have hlater : (p, rest) ∈ startsFrom (isLead c) (pos + 1) cs →
          ∃ a, c :: cs = a ++ rest ∧ p = pos + a.length := by
        intro h
        obtain ⟨a, rfl, rfl⟩ := exists_of_mem_startsFrom h
        exact ⟨c :: a, rfl, by rw [List.length_cons]; omega⟩
      rw [startsFrom] at h
      split at h
      case isTrue =>
        rcases List.mem_cons.mp h with h | h
        · cases h
          exact ⟨[], rfl, rfl⟩
        · exact hlater h
      case isFalse => exact hlater h

/-- A token of a property is a stretch of the text that is a token of it. -/
theorem exists_of_mem_occurrences {p : Property} {text : List Char} {o : Occurrence}
    (h : o ∈ p.occurrences text) :
    ∃ a b, text = a ++ (o.token ++ b) ∧ o.start = a.length ∧ p.isToken o.token = true := by
  obtain ⟨⟨pos, rest⟩, hstart, ho⟩ := List.mem_filterMap.mp h
  dsimp only at ho
  split at ho
  case isFalse => cases ho
  case isTrue htoken =>
    cases ho
    obtain ⟨a, rfl, rfl⟩ := exists_of_mem_startsFrom hstart
    refine ⟨a, rest.dropWhile fun c => !isTrail c, ?_, Nat.zero_add _, htoken⟩
    rw [tokenWord, List.takeWhile_append_dropWhile]

theorem Occurrence.replaceIn_append {o : Occurrence} {a : List Char} (hstart : o.start = a.length)
    (b token : List Char) : o.replaceIn (a ++ (o.token ++ b)) token = a ++ (token ++ b) := by
  rw [replaceIn, stop, hstart, List.take_left, ← List.append_assoc a,
    List.drop_left' (by simp), List.append_assoc]

theorem foldl_earlier_mem : ∀ (os : List Occurrence) (o : Occurrence),
    os.foldl .earlier o ∈ o :: os
  | [], o => List.mem_singleton.mpr rfl
  | o' :: os, o => by
      rw [List.foldl_cons]
      have hmem := foldl_earlier_mem os (o.earlier o')
      rcases List.mem_cons.mp hmem with h | h
      · rw [h, Occurrence.earlier]
        split
        · exact List.mem_cons_of_mem _ (List.mem_cons_self ..)
        · exact List.mem_cons_self ..
      · exact List.mem_cons_of_mem _ (List.mem_cons_of_mem _ h)

/-- The earliest token is the first one of its property. -/
theorem occurrence?_of_firstOccurrence {ps : List Property} {text : List Char} {o : Occurrence}
    (h : firstOccurrence? ps text = some o) : ∃ p ∈ ps, p.occurrence? text = some o := by
  rw [firstOccurrence?] at h
  split at h
  case h_1 => cases h
  case h_2 o' os hos =>
    cases h
    have hmem := foldl_earlier_mem os o'
    rw [← hos] at hmem
    exact List.mem_filterMap.mp hmem

theorem exists_of_firstOccurrence {ps : List Property} {text : List Char} {o : Occurrence}
    (h : firstOccurrence? ps text = some o) : ∃ p ∈ ps, o ∈ p.occurrences text :=
  (occurrence?_of_firstOccurrence h).imp fun _ hp => ⟨hp.1, List.mem_of_mem_head? hp.2⟩

end DesignTokens
