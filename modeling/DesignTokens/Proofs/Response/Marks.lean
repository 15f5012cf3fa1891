import DesignTokens.Proofs.Response.Repair
import DesignTokens.Response.Component

/-!
# Curly quotation marks are lost

The repairs straighten every quotation mark, also inside strings, and leave all
escapes whole. An escape never stands for a curly mark where the text comes from
a writer. So whatever is found in a repaired text, no string of it has a curly
mark (`allStrings_of_object`).
-/

namespace DesignTokens.Response

open Json Text

/-- The string has no curly quotation mark. -/
def Straight (s : String) : Prop := ∀ c ∈ s.toList, straight c = c

theorem straight_of_lt {c : Char} (h : c.toNat < 0x80) : straight c = c := by
  refine straight_eq_self_iff.mpr fun hmem => ?_
  have hge : ∀ c ∈ ['\u201c', '\u201d', '\u2018', '\u2019'], 0x80 ≤ c.toNat := by decide
  have := hge c hmem
  omega

theorem straight_straight (c : Char) : straight (straight c) = straight c := by
  unfold straight
  split
  · rfl
  · split
    · rfl
    · simp_all

theorem map_straight_escaped {c : Char} (hc : needsEscape c = true) :
    (escaped c).map straight = escaped c := by
  refine (List.map_congr_left fun d hd => ?_).trans (List.map_id _)
  exact straight_of_lt (toNat_lt_of_mem_escapeChars (mem_escapeChars hc hd))

section

variable {P : Char → Prop} {w : List Char}

theorem wellEscaped_straightened (h : WellEscaped P w) :
    WellEscaped (fun c => straight c = c) (w.map straight) := by
  induction h with
  | nil => exact .nil
  | char hback _ _ ih =>
      refine .char (fun heq => hback ?_) (straight_straight _) ih
      exact eq_of_straight_eq (by decide) heq
  | escape hc _ ih =>
      rw [List.map_append, map_straight_escaped hc]
      exact .escape hc ih

theorem dropComment_append_of_forall {v : List Char} (h : ∀ c ∈ v, c ≠ '/') (q : Quoting)
    (w : List Char) : ∃ q', dropComment q (v ++ w) = v ++ dropComment q' w := by
  induction v generalizing q with
  | nil => exact ⟨q, rfl⟩
  | cons c v ih =>
      obtain ⟨hc, hv⟩ := List.forall_mem_cons.mp h
      obtain ⟨q', hq'⟩ := ih hv (q.behind c)
      exact ⟨q', by rw [List.cons_append, dropComment_of_ne hc, hq']; rfl⟩

theorem wellEscaped_dropComment (h : WellEscaped P w) (q : Quoting) :
    WellEscaped P (dropComment q w) := by
  induction h generalizing q with
  | nil => exact .nil
  | @char c w hback hc _ ih =>
      rw [dropComment_cons]
      split
      · exact .nil
      · exact .char hback hc (ih _)
  | @escape c w hc _ ih =>
      have hslash : ∀ d ∈ escaped c, d ≠ '/' := by
        rintro d hd rfl
        exact absurd (mem_escapeChars hc hd) (by decide)
      obtain ⟨q', hq'⟩ := dropComment_append_of_forall hslash q w
      rw [hq']
      exact .escape hc (ih q')

theorem wellEscaped_dropTrailingCommas (h : WellEscaped P w) :
    WellEscaped P (dropTrailingCommas w) := by
  induction h with
  | nil => exact .nil
  | @char c w hback hc _ ih =>
      by_cases hcomma : c = ','
      · subst hcomma
        rw [dropTrailingCommas_comma]
        split
        · exact ih
        · exact .char hback hc ih
      · rw [dropTrailingCommas_of_ne hcomma]
        exact .char hback hc ih
  | @escape c w hc _ ih =>
      have hcomma : ∀ d ∈ escaped c, d ≠ ',' := by
        rintro d hd rfl
        exact absurd (mem_escapeChars hc hd) (by decide)
      rw [dropTrailingCommas_of_forall hcomma]
      exact .escape hc ih

theorem wellEscaped_trim (h : WellEscaped P w) : WellEscaped P (trim w) := by
  obtain ⟨a, b, hw, ha, hb⟩ := exists_trim w
  rw [hw] at h
  have hback : ∀ c ∈ a, c ≠ '\\' := by
    rintro c hc rfl
    exact absurd (ha _ hc) (by decide)
  have hrest := h.of_append hback
  cases b with
  | nil => rwa [List.append_nil] at hrest
  | cons x b =>
      refine hrest.left fun hmem => ?_
      have hspace : ∀ c ∈ escapeChars, isWhiteSpace c = false := by decide
      have := hb x (List.mem_cons_self ..)
      rw [hspace x hmem] at this
      cases this

/-- What is found in a repaired line has no curly quotation marks. -/
theorem allStrings_of_object (hw : WellEscaped P w) (hline : OneLine w) (hne : w ≠ [])
    {b : List Char} (hb : b = [] ∨ b = ['\n']) {v : Value}
    (h : object? (repaired (w ++ b)) = some v) : AllStrings Straight v := by
  have hnewline : WellEscaped (fun c => straight c = c) ['\n'] :=
    .char (by decide) (by decide) .nil
  have hrepaired : WellEscaped (fun c => straight c = c) (repaired (w ++ b)) := by
    have hcommentless := wellEscaped_dropComment (wellEscaped_straightened hw) .outside
    rw [repaired_eq hline hne hb]
    exact wellEscaped_dropTrailingCommas (hcommentless.append hnewline)
  rw [object?] at h
  obtain ⟨v', hv', hobject⟩ := Option.bind_eq_some_iff.mp h
  rw [parseValue?] at hv'
  obtain ⟨d, hd, hvalue⟩ := Option.bind_eq_some_iff.mp hv'
  have hstrings := (wellEscaped_trim hrepaired).allStrings_parse (fun c => straight_of_lt) hd
  split at hobject
  case h_1 =>
    cases hobject
    exact hstrings.value hvalue
  case h_2 => cases hobject

end

end DesignTokens.Response
