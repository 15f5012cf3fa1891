import Mathlib.Data.Finset.Card
import DesignTokens.Proofs.Text.Word
import DesignTokens.Rewrite.Reserved

/-!
# The names that a renaming tries

A renaming tries a name, then the name with `Variant` behind it, then that with
numbers. All of these are identifiers if the name is one, and all but the first
come to their end in one of few characters. One of them is no word of the text,
and the first such one is taken (`firstFree_freeName`).
-/

namespace DesignTokens.Rewrite

open Text

theorem isDigit_of_mem_toString {n : Nat} {c : Char} (hc : c ∈ (toString n).toList) :
    c.isDigit = true := by
  rw [Nat.toString_eq_repr, Nat.repr_eq_ofList_toDigits, String.toList_ofList] at hc
  exact Nat.isDigit_of_mem_toDigits (by decide) (by decide) hc

theorem toString_inj {m n : Nat} (h : toString m = toString n) : m = n := by
  rw [Nat.toString_eq_repr, Nat.toString_eq_repr, Nat.repr_eq_ofList_toDigits,
    Nat.repr_eq_ofList_toDigits, String.ofList_inj] at h
  rw [← Nat.ofDigitChars_ten_toDigits (n := m), h, Nat.ofDigitChars_ten_toDigits]

theorem isIdent_of_mem_variant : ∀ c ∈ "Variant".toList, isIdent c = true :=
  List.all_eq_true.mp (by decide)

theorem isName_candidateName {name : String} (h : IsName name.toList) :
    ∀ n, IsName (candidateName name n).toList
  | 0 => h
  | 1 => by
      rw [candidateName, String.toList_append]
      exact h.append isIdent_of_mem_variant
  | n + 2 => by
      rw [candidateName, String.toList_append, String.toList_append]
      refine (h.append isIdent_of_mem_variant).append fun c hc => ?_
      exact isIdent_of_isDigit (isDigit_of_mem_toString hc)

/-- All names that are tried start with the name. -/
theorem exists_candidateName_append (name : String) :
    ∀ n, ∃ form, (candidateName name n).toList = name.toList ++ form
  | 0 => ⟨[], (List.append_nil _).symm⟩
  | 1 => ⟨"Variant".toList, String.toList_append ..⟩
  | n + 2 => ⟨"Variant".toList ++ (toString (n + 2)).toList, by
      rw [candidateName, String.toList_append, String.toList_append, List.append_assoc]⟩

/-- The forms of a name come to their end with the last letter of `Variant` or a number. -/
theorem getLast?_candidateName {name : String} {c : Char} :
    ∀ n, (candidateName name (n + 1)).toList.getLast? = some c → c = 't' ∨ c.isDigit = true
  | 0, h => by
      rw [candidateName, String.toList_append, List.getLast?_append] at h
      exact .inl (Option.some.inj h).symm
  | n + 1, h => by
      rw [candidateName, String.toList_append, String.toList_append, List.getLast?_append,
        List.getLast?_append] at h
      cases hdigits : (toString (n + 2)).toList.getLast? with
      | some d =>
          rw [hdigits, Option.some_or, Option.some.injEq] at h
          exact .inr (h ▸ isDigit_of_mem_toString (List.mem_of_getLast? hdigits))
      | none =>
          rw [hdigits, Option.none_or] at h
          exact .inl (Option.some.inj h).symm

theorem isWord_of_getLast?_candidateName {name : String} {c : Char} (n : Nat)
    (h : (candidateName name (n + 1)).toList.getLast? = some c) : isWord c = true := by
  rcases getLast?_candidateName n h with rfl | hdigit
  · decide
  · exact isWord_of_isDigit hdigit

/-! ## The name that is taken -/

/-- The number at the end of a form of a name. -/
def formNumber : Nat → List Char
  | 0 => []
  | n + 1 => (toString (n + 2)).toList

theorem toList_form (name : String) : ∀ n, (candidateName name (n + 1)).toList
    = name.toList ++ "Variant".toList ++ formNumber n
  | 0 => by rw [candidateName, String.toList_append, formNumber, List.append_nil]
  | _ + 1 => by rw [candidateName, String.toList_append, String.toList_append, formNumber]

theorem isWord_of_mem_formNumber : ∀ {n : Nat} {c : Char}, c ∈ formNumber n → isWord c = true
  | _ + 1, _, hc => isWord_of_isDigit (isDigit_of_mem_toString hc)

theorem formNumber_inj : ∀ {m n : Nat}, formNumber m = formNumber n → m = n
  | 0, 0, _ => rfl
  | m + 1, n + 1, h => by
      have hnumber := toString_inj (String.toList_inj.mp h)
      omega
  | 0, n + 1, h => by
      rw [formNumber, formNumber, Nat.toString_eq_repr, Nat.repr_eq_ofList_toDigits,
        String.toList_ofList] at h
      exact absurd h.symm Nat.toDigits_ne_nil
  | n + 1, 0, h => by
      rw [formNumber, formNumber, Nat.toString_eq_repr, Nat.repr_eq_ofList_toDigits,
        String.toList_ofList] at h
      exact absurd h Nat.toDigits_ne_nil

/-- A form of the name stands at the position as a word. -/
def FormAt (name : String) (text : List Char) (n p : Nat) : Prop :=
  ∃ a b, text = a ++ ((candidateName name (n + 1)).toList ++ b) ∧
    Bordered a (candidateName name (n + 1)).toList b ∧ a.length = p

section

variable {name : String} {text : List Char} {m n p : Nat}

theorem FormAt.lt (h : FormAt name text n p) : p < text.length := by
  obtain ⟨a, b, rfl, -, rfl⟩ := h
  have hpos : 0 < "Variant".toList.length := by decide
  simp only [toList_form, List.length_append]
  omega

/-- The last character of a form is a word character, so none stands behind it. -/
theorem wordAt_behind_form {a b : List Char}
    (h : Bordered a (candidateName name (n + 1)).toList b) : wordAt b.head? = false := by
  have hne : (candidateName name (n + 1)).toList ≠ [] := by simp [toList_form]
  obtain ⟨c, hc⟩ := Option.ne_none_iff_exists'.mp (mt List.getLast?_eq_none_iff.mp hne)
  have hword := isWord_of_getLast?_candidateName n hc
  have hbehind := h.behind
  rw [hc, Option.some_or, isBoundary] at hbehind
  simpa [wordAt, hword] using hbehind

theorem FormAt.unique (hm : FormAt name text m p) (hn : FormAt name text n p) : m = n := by
  obtain ⟨a, b, htext, hborder, rfl⟩ := hm
  obtain ⟨a', b', htext', hborder', hlen⟩ := hn
  obtain ⟨rfl, hrest⟩ := List.append_inj (htext.symm.trans htext') hlen.symm
  simp only [toList_form, List.append_assoc, List.append_cancel_left_eq] at hrest
  -- the number is all that stands before the end of the word
  have hrun : ∀ {n : Nat} {b : List Char}, wordAt b.head? = false →
      (formNumber n ++ b).takeWhile isWord = formNumber n := by
    intro n b hb
    rw [List.takeWhile_append_of_pos fun c hc => isWord_of_mem_formNumber hc]
    cases b with
    | nil => simp
    | cons c b => simp [show isWord c = false from hb]
  refine formNumber_inj ?_
  rw [← hrun (wordAt_behind_form hborder), hrest, hrun (wordAt_behind_form hborder')]

end

/-- One of the names to choose from is free: the forms would need more places than there are. -/
theorem find?_candidateName_ne_none (text : List Char) (name : String) :
    ((List.range (text.length + 3)).find? fun n =>
      !holdsName (candidateName name n).toList text) ≠ none := by
  intro hfind
  have hforms : ∀ n ∈ Finset.range (text.length + 1), ∃ p, FormAt name text n p := by
    intro n hn
    have hlt : n + 1 < text.length + 3 := by
      have := Finset.mem_range.mp hn
      omega
    have hheld := List.find?_eq_none.mp hfind (n + 1) (List.mem_range.mpr hlt)
    obtain ⟨a, b, htext, hborder⟩ := holdsName_iff_bordered.mp (by simpa using hheld)
    exact ⟨a.length, a, b, htext, hborder, rfl⟩
  choose! place hplace using hforms
  have hmaps : ∀ n ∈ Finset.range (text.length + 1), place n ∈ Finset.range text.length :=
    fun n hn => Finset.mem_range.mpr (hplace n hn).lt
  have hcard : (Finset.range text.length).card < (Finset.range (text.length + 1)).card := by
    rw [Finset.card_range, Finset.card_range]
    exact Nat.lt_succ_self _
  obtain ⟨m, hm, n, hn, hne, hsame⟩ := Finset.exists_ne_map_eq_of_card_lt_of_maps_to hcard hmaps
  exact absurd ((hplace m hm).unique (hsame ▸ hplace n hn)) hne

/-- The name is the first one to choose from that is no word of the text. -/
def FirstFree (text : List Char) (name taken : String) : Prop :=
  ∃ n, taken = candidateName name n ∧ holdsName taken.toList text = false ∧
    ∀ m < n, holdsName (candidateName name m).toList text = true

theorem firstFree_freeName (text : List Char) (name : String) :
    FirstFree text name (freeName text name) := by
  obtain ⟨n, hn⟩ := Option.ne_none_iff_exists'.mp (find?_candidateName_ne_none text name)
  obtain ⟨hfree, -, hbefore⟩ := List.find?_range_eq_some.mp hn
  rw [freeName, hn, Option.getD_some]
  exact ⟨n, rfl, by simpa using hfree, fun m hm => by simpa using hbefore m hm⟩

/-- The name that is taken is no word of the text. -/
theorem holdsName_freeName (text : List Char) (name : String) :
    holdsName (freeName text name).toList text = false := by
  obtain ⟨_, -, hfree, -⟩ := firstFree_freeName text name
  exact hfree

end DesignTokens.Rewrite
