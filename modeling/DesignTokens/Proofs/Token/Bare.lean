import DesignTokens.Proofs.Token.Written

/-!
# Bare tokens

A word is read without the white space around it and without modifiers. What is
left is its bare token. A token at the end of a word is its bare token just if
what is in front of it has no bracket and is empty or ends with a colon
(`bareToken_append_eq_iff`). A bare token belongs to the property of its utility
name, so it is of no account which property is tried first
(`classify?_eq_some_iff`).
-/

namespace DesignTokens

open Text

/-- What a word is read by. -/
def bareToken (word : List Char) : List Char := stripModifiers (trim word)

/-! ## Modifiers -/

theorem afterLastColon_append {u : List Char} (h : ':' ∉ u) (a : List Char) :
    afterLastColon (a ++ u) = afterLastColon a ++ u := behindLast_append h a

theorem afterLastColon_eq_nil_iff {a : List Char} :
    afterLastColon a = [] ↔ a.getLast?.all (· = ':') = true := by
  rw [afterLastColon, List.reverse_eq_nil_iff, ← List.head?_reverse]
  cases a.reverse <;> simp

/-- Modifiers without a bracket are cut off behind their last colon. -/
theorem stripModifiers_append {m t : List Char} (hm : '[' ∉ m) (ht : ':' ∉ t) :
    stripModifiers (m ++ t) = afterLastColon m ++ t := by
  have hbracket : ∀ c ∈ m, decide (c ≠ '[') = true := fun c hc =>
    decide_eq_true fun h => hm (h ▸ hc)
  have hcolon : ':' ∉ t.takeWhile (· ≠ '[') := fun h => ht (List.takeWhile_subset _ h)
  rw [stripModifiers, List.takeWhile_append_of_pos hbracket, List.dropWhile_append_of_pos hbracket,
    afterLastColon_append hcolon, List.append_assoc, List.takeWhile_append_dropWhile]

/-- Nothing is cut off behind a bracket. -/
theorem length_lt_stripModifiers {m : List Char} (hm : '[' ∈ m) (t : List Char) :
    t.length < (stripModifiers (m ++ t)).length := by
  have hne : m.dropWhile (· ≠ '[') ≠ [] := by
    rw [ne_eq, List.dropWhile_eq_nil_iff]
    intro h
    simpa using h '[' hm
  have hpos := List.length_pos_iff.mpr hne
  rw [stripModifiers, List.dropWhile_append, if_neg (by simpa using hne), List.length_append,
    List.length_append]
  omega

theorem stripModifiers_append_eq_iff {m t : List Char} (ht : ':' ∉ t) :
    stripModifiers (m ++ t) = t ↔ '[' ∉ m ∧ m.getLast?.all (· = ':') = true := by
  by_cases hm : '[' ∈ m
  · refine iff_of_false (fun h => ?_) fun h => h.1 hm
    have hlength := length_lt_stripModifiers hm t
    rw [h] at hlength
    exact Nat.lt_irrefl _ hlength
  · rw [stripModifiers_append hm ht, List.append_left_eq_self, afterLastColon_eq_nil_iff,
      and_iff_right hm]

/-- Of a word that ends in a token, only white space at the start is trimmed. -/
theorem exists_trim_append {m t : List Char} (ht : ∀ c ∈ t, isTokenChar c = true) (hne : t ≠ []) :
    ∃ blank rest, m = blank ++ rest ∧ (∀ c ∈ blank, isWhiteSpace c = true) ∧
      trim (m ++ t) = rest ++ t := by
  refine ⟨m.takeWhile isWhiteSpace, m.dropWhile isWhiteSpace,
    List.takeWhile_append_dropWhile.symm, fun c hc => List.mem_takeWhile_imp hc, ?_⟩
  have hsplit : m ++ t = m.takeWhile isWhiteSpace ++ (m.dropWhile isWhiteSpace ++ t) := by
    rw [← List.append_assoc, List.takeWhile_append_dropWhile]
  have htoken : ∀ c ∈ t, isWhiteSpace c = false := fun c hc =>
    isWhiteSpace_of_isTokenChar (ht c hc)
  have hlast : (m.dropWhile isWhiteSpace ++ t).getLast? = some (t.getLast hne) := by
    rw [List.getLast?_append_of_ne_nil _ hne, List.getLast?_eq_some_getLast hne]
  rw [hsplit, trim_blank_append fun c hc => List.mem_takeWhile_imp hc]
  cases hfirst : m.dropWhile isWhiteSpace with
  | nil => exact trim_of_forall_not htoken
  | cons c rest =>
      rw [hfirst] at hlast
      have hstop := List.head?_dropWhile_not isWhiteSpace m
      rw [hfirst] at hstop
      exact trim_of_ends rfl (by simpa using hstop) hlast (htoken _ (List.getLast_mem hne))

/-- A token is the bare one of the word that it ends just if modifiers without a bracket are in
front of it. -/
theorem bareToken_append_eq_iff {m t : List Char} (ht : ∀ c ∈ t, isTokenChar c = true)
    (hne : t ≠ []) (hm : m.getLast?.all (fun c => !isWhiteSpace c) = true) :
    bareToken (m ++ t) = t ↔ '[' ∉ m ∧ m.getLast?.all (· = ':') = true := by
  obtain ⟨blank, rest, rfl, hblank, htrim⟩ := exists_trim_append (m := m) ht hne
  have hcolon : ':' ∉ t := fun h => absurd (ht _ h) (by decide)
  have hbracket : '[' ∉ blank := fun h => absurd (hblank _ h) (by decide)
  rw [bareToken, htrim, stripModifiers_append_eq_iff hcolon]
  cases rest with
  | nil =>
      have hnil : blank = [] := by
        by_contra hne'
        rw [List.append_nil, List.getLast?_eq_some_getLast hne', Option.all_some,
          hblank _ (List.getLast_mem hne')] at hm
        cases hm
      rw [hnil, List.append_nil]
  | cons c rest =>
      rw [List.getLast?_append_of_ne_nil _ (List.cons_ne_nil c rest), List.mem_append, not_or,
        and_iff_right hbracket]

theorem bareToken_modifiers {p : Property} {modifiers token : List Char}
    (htoken : p.isToken token = true)
    (hlast : modifiers.getLast?.all (fun c => !isWhiteSpace c) = true) :
    bareToken (modifiers ++ token) = token ↔
      '[' ∉ modifiers ∧ modifiers.getLast?.all (· = ':') = true :=
  bareToken_append_eq_iff (Property.isTokenChar_of_isToken htoken).2
    (Property.isTokenChar_of_isToken htoken).1 hlast

/-- A word is read as its bare token is, if that is a token. -/
theorem pixels?_of_bareToken {p : Property} {word token : List Char}
    (hbare : bareToken word = token) (htoken : p.isToken token = true) :
    p.pixels? word = p.pixels? token := by
  rw [pixels?_of_isTokenChar p (Property.isTokenChar_of_isToken htoken).2, ← hbare]
  rfl

/-! ## The property of a word -/

namespace Property

theorem takeWhile_of_key {p : Property} {token key : List Char} (h : p.key? token = some key) :
    token.takeWhile (· ≠ '-') = p.utility.toList := by
  rw [key?] at h
  split at h
  case isTrue htoken => rw [htoken, takeWhile_utility]
  case isFalse =>
    obtain rfl := after_eq_some_iff.mp h
    rw [List.append_assoc]
    exact p.takeWhile_utility_append key

/-- No word is read by two properties. -/
theorem eq_of_pixels {p q : Property} {word : List Char} {n m : Nat} (hp : p.pixels? word = some n)
    (hq : q.pixels? word = some m) : p = q := by
  obtain ⟨_, hkey, -⟩ := Option.bind_eq_some_iff.mp hp
  obtain ⟨_, hkey', -⟩ := Option.bind_eq_some_iff.mp hq
  exact utility_inj ((takeWhile_of_key hkey).symm.trans (takeWhile_of_key hkey'))

end Property

/-- Whichever property is asked first, the one that can read a word has it. -/
theorem findSome?_pixels_eq_some_iff {order : List Property} (horder : ∀ p, p ∈ order)
    {word : List Char} {p : Property} {n : Nat} :
    (order.findSome? fun p => (p.pixels? word).map fun n => (p, n)) = some (p, n) ↔
      p.pixels? word = some n := by
  have hread : ∀ {q m}, (order.findSome? fun p => (p.pixels? word).map fun n => (p, n))
      = some (q, m) → q.pixels? word = some m := by
    intro q m h
    obtain ⟨r, -, hr⟩ := List.exists_of_findSome?_eq_some h
    obtain ⟨k, hk, heq⟩ := Option.map_eq_some_iff.mp hr
    cases heq
    exact hk
  refine ⟨hread, fun h => ?_⟩
  cases hfound : order.findSome? fun p => (p.pixels? word).map fun n => (p, n) with
  | none =>
      have hnone := List.findSome?_eq_none_iff.mp hfound p (horder p)
      rw [h] at hnone
      cases hnone
  | some found =>
      obtain ⟨q, m⟩ := found
      have hq := hread hfound
      obtain rfl := Property.eq_of_pixels h hq
      rw [h] at hq
      rw [Option.some.inj hq]

theorem classify?_eq_some_iff {word : List Char} {p : Property} {n : Nat} :
    classify? word = some (p, n) ↔ p.pixels? word = some n :=
  findSome?_pixels_eq_some_iff Property.mem_all

end DesignTokens
