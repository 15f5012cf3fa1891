import DesignTokens.Proofs.Policy
import DesignTokens.Proofs.Rewrite.FreeName

/-!
# Names that are taken

A renaming must not take a name that the text has already. It looks for a name as
a word, and the ends of a word are told by word characters. The dollar sign is
none of these, though an identifier may have it anywhere. In front of a dollar
sign, or behind one, there is the end of a word only where the identifier goes on.

So a name with a word character at either end is looked for as it should be: what
a renaming takes for it is no identifier of the text. For every other name there
is a text that it is taken for anew though the text has it
(`free_iff_bounded`).
-/

namespace DesignTokens.Rewrite

open Text

/-- The name stands in the text with no identifier character on either side. -/
def IdentIn (name text : List Char) : Prop :=
  ∃ a b, text = a ++ (name ++ b) ∧ identAt a.getLast? = false ∧ identAt b.head? = false

theorem wordAt_of_identAt {c : Option Char} (h : identAt c = false) : wordAt c = false := by
  cases c with
  | none => rfl
  | some c => exact isWord_of_isIdent_eq_false h

section

variable {name text : List Char}

theorem IdentIn.wordIn (h : IdentIn name text) : WordIn name text := by
  obtain ⟨a, b, htext, hbefore, hbehind⟩ := h
  exact ⟨a, b, htext, wordAt_of_identAt hbefore, wordAt_of_identAt hbehind⟩

theorem identIn_self (name : List Char) : IdentIn name name :=
  ⟨[], [], by simp, rfl, rfl⟩

/-- An identifier of the text is found as a word if it starts and ends with a word character. -/
theorem IdentIn.not_bounded (h : IdentIn name text) (hfree : holdsName name text = false) :
    ¬Bounded name := fun hbounded =>
  absurd ((holdsName_iff hbounded).mpr h.wordIn) (by rw [hfree]; decide)

/-- Alone in a text, a name is a word of it just if it starts and ends with a word character. -/
theorem holdsName_self_iff : holdsName name name = true ↔ Bounded name := by
  refine ⟨fun h => ?_, fun h => (holdsName_iff h).mpr (identIn_self name).wordIn⟩
  obtain ⟨a, b, hname, hbefore, hbehind⟩ := holdsName_iff_bordered.mp h
  have hlength := congrArg List.length hname
  simp only [List.length_append] at hlength
  obtain rfl : a = [] := List.length_eq_zero_iff.mp (by omega)
  obtain rfl : b = [] := List.length_eq_zero_iff.mp (by omega)
  rw [isBoundary, List.append_nil] at hbefore
  rw [isBoundary, List.getLast?_nil, Option.or_none] at hbehind
  exact ⟨by simpa [wordAt] using hbefore, by simpa [wordAt] using hbehind⟩

end

/-! ## The name that is taken -/

theorem isIdentifier_of_isName {s : String} (h : IsName s.toList) : isIdentifier s = true := by
  obtain ⟨c, cs, hs, hc⟩ := h.start
  have hcs : ∀ d ∈ cs, isIdent d = true := fun d hd =>
    h.all d (by rw [hs]; exact List.mem_cons_of_mem c hd)
  rw [isIdentifier, hs]
  exact Bool.and_eq_true_iff.mpr ⟨hc, List.all_eq_true.mpr hcs⟩

section

variable {name : String} {text : List Char}

theorem isIdentifier_freeName (h : isIdentifier name = true) (text : List Char) :
    isIdentifier (freeName text name) = true := by
  obtain ⟨n, htaken, -⟩ := firstFree_freeName text name
  rw [htaken]
  exact isIdentifier_of_isName (isName_candidateName (Policy.isName_of_isIdentifier h) n)

/-- Every name to choose from starts as the first one does, and ends so or with a word
character. -/
theorem bounded_candidateName (h : Bounded name.toList) :
    ∀ n, Bounded (candidateName name n).toList
  | 0 => h
  | n + 1 => by
      obtain ⟨form, hform⟩ := exists_candidateName_append name (n + 1)
      refine ⟨by rw [hform, List.head?_append_of_ne_nil _ h.ne_nil]; exact h.first, ?_⟩
      cases hlast : (candidateName name (n + 1)).toList.getLast? with
      | none =>
          rw [List.getLast?_eq_none_iff, hform, List.append_eq_nil_iff] at hlast
          exact absurd hlast.1 h.ne_nil
      | some c => exact isWord_of_getLast?_candidateName n hlast

/-- A name that is no word of the text is taken itself. -/
theorem freeName_of_not_holds (h : holdsName name.toList text = false) :
    freeName text name = name := by
  obtain ⟨n, htaken, -, hbefore⟩ := firstFree_freeName text name
  cases n with
  | zero => exact htaken
  | succ n => exact absurd (hbefore 0 n.succ_pos) (by rw [candidateName, h]; decide)

end

/-- What a renaming takes is an identifier and the first of its names that is no word of the text.
It may stand in the text as an identifier only if it starts or ends with a dollar sign; and the
names for which it never does are those that start and end with a word character. -/
theorem free_iff_bounded {name : String} (h : isIdentifier name = true) :
    (∀ text, isIdentifier (freeName text name) = true ∧
      FirstFree text name (freeName text name) ∧
      (IdentIn (freeName text name).toList text → ¬Bounded (freeName text name).toList)) ∧
    ((∀ text, ¬IdentIn (freeName text name).toList text) ↔ Bounded name.toList) := by
  refine ⟨fun text => ⟨isIdentifier_freeName h text, firstFree_freeName text name,
    fun hident => hident.not_bounded (holdsName_freeName text name)⟩, fun hfree => ?_,
    fun hbounded text hident => ?_⟩
  · -- the name alone is a text that shows it
    by_contra hbounded
    have hself : holdsName name.toList name.toList = false :=
      Bool.eq_false_iff.mpr (mt holdsName_self_iff.mp hbounded)
    refine hfree name.toList ?_
    rw [freeName_of_not_holds hself]
    exact identIn_self name.toList
  · obtain ⟨n, htaken, -⟩ := firstFree_freeName text name
    refine hident.not_bounded (holdsName_freeName text name) ?_
    rw [htaken]
    exact bounded_candidateName hbounded n

theorem free_iff_bounded_kind : isIdentifier "kind" = true ∧
    ¬IdentIn (freeName "const kind = $kind;".toList "kind").toList "const kind = $kind;".toList :=
  ⟨by decide, (free_iff_bounded (by decide)).2.mpr ⟨by decide, by decide⟩ _⟩

/-- A text with a name that starts with a dollar sign and one that ends with it. -/
def dollarText : List Char := "const $kind = kind$;".toList

/-- A name with a dollar sign at an end is taken though the text has it. -/
theorem not_free_dollar :
    (isIdentifier "$kind" = true ∧ IdentIn (freeName dollarText "$kind").toList dollarText) ∧
      isIdentifier "kind$" = true ∧ IdentIn (freeName dollarText "kind$").toList dollarText := by
  have hstart : freeName dollarText "$kind" = "$kind" := by decide
  have hend : freeName dollarText "kind$" = "kind$" := by decide
  refine ⟨⟨by decide, ?_⟩, by decide, ?_⟩
  · rw [hstart]
    exact ⟨"const ".toList, " = kind$;".toList, by decide, by decide, by decide⟩
  · rw [hend]
    exact ⟨"const $kind = ".toList, ";".toList, by decide, by decide, by decide⟩

end DesignTokens.Rewrite
