import DesignTokens.Proofs.Rewrite.Survival

/-!
# References to theme colors

A reference of the builtin policy has no character of a literal color's ends and
starts with a word that cannot be read as hexadecimal digits. So neither the
replacing of colors nor the renaming of reserved names takes one away
(`referenced_colorEdits`, `referenced_of_renaming`), and one that is written at
some turn of the color pass is there at the end (`referenced_of_writes`).
-/

namespace DesignTokens.Rewrite

open Text

/-- The text holds one of the builtin policy's references to theme colors. -/
def Referenced (text : List Char) : Prop := (Policy.builtin.colorReference? text).isSome = true

instance (text : List Char) : Decidable (Referenced text) :=
  inferInstanceAs (Decidable (_ = true))

theorem referenced_iff {text : List Char} :
    Referenced text ↔ ∃ r ∈ Policy.builtin.colorReferences, r.toList <:+: text := by
  have hne : ∀ r ∈ Policy.builtin.colorReferences, r ≠ "" := by decide
  rw [Referenced, Policy.colorReference?, List.find?_isSome]
  refine exists_congr fun r => and_congr_right fun hr => ?_
  rw [Bool.and_eq_true, decide_eq_true_eq, holds_iff_infix, and_iff_right (hne r hr)]

/-! ## What sets a reference apart -/

/-- Characters that neither a literal color nor the reserved name overlaps. -/
structure Sheltered (v : List Char) : Prop where
  no_mark : ∀ c ∈ ['#', '[', ']'], c ∉ v
  letter : ∃ c ∈ v.takeWhile isWord, isHexDigit c = false
  stop : ∃ c ∈ v, isWord c = false
  clear : Clear "type".toList v

instance (v : List Char) : Decidable (Sheltered v) :=
  decidable_of_iff ((∀ c ∈ ['#', '[', ']'], c ∉ v) ∧
      (∃ c ∈ v.takeWhile isWord, isHexDigit c = false) ∧ (∃ c ∈ v, isWord c = false) ∧
      Clear "type".toList v)
    ⟨fun h => ⟨h.1, h.2.1, h.2.2.1, h.2.2.2⟩, fun h => ⟨h.no_mark, h.letter, h.stop, h.clear⟩⟩

theorem sheltered_reference : ∀ r ∈ Policy.builtin.colorReferences, Sheltered r.toList := by
  decide

section

variable {lit token slot v : List Char}

/-- The digits of a color do not go on with a reference. -/
theorem Sheltered.not_prefix (hv : Sheltered v) {ds rest : List Char}
    (hds : ∀ d ∈ ds, isHexDigit d = true) (hrest : wordAt rest.head? = false) :
    ¬v <+: ds ++ rest := by
  rintro ⟨b, hb⟩
  obtain ⟨c, hc, hhex⟩ := hv.letter
  obtain ⟨x, hx, hword⟩ := hv.stop
  have hrun : (v ++ b).takeWhile isWord = v.takeWhile isWord := by
    obtain ⟨m, n, rfl⟩ := List.append_of_mem hx
    rw [List.append_assoc, List.cons_append, takeWhile_append_stop hword,
      takeWhile_append_stop hword]
  rw [hb, takeWhile_isWord_digits hds hrest] at hrun
  rw [hds c (hrun ▸ hc)] at hhex
  cases hhex

theorem spares_literal (hlit : IsHexColor lit) (hv : Sheltered v) :
    (literalPattern lit).Spares (fun _ => token) v := by
  intro before hit rest h
  obtain ⟨hlen, w, b, heq, hw, hb⟩ := (literalPattern_eq_some_iff hlit).mp h
  obtain ⟨rfl, rfl⟩ := List.append_inj heq (by rw [hlen, length_of_lowered hw])
  obtain ⟨ds, rfl, -, -, hds⟩ := hlit.of_lowered hw
  refine ⟨[], '#', ds, token, rfl, rfl, hv.no_mark _ (by decide), ?_⟩
  rintro x y rfl -
  exact hv.not_prefix (fun d hd => hds d (List.mem_append_right x hd)) hb

theorem spares_bracketed (hlit : IsHexColor lit) (hv : Sheltered v) :
    (bracketedPattern lit).Spares (withSlot slot) v := by
  intro before hit rest h
  obtain ⟨name, w, rfl, hname, -, hw⟩ := eq_of_bracketedPattern h
  obtain ⟨ds, rfl, -, -, hds⟩ := hlit.of_lowered hw
  refine ⟨name, '[', '#' :: ds ++ [']'], slot, rfl, withSlot_eq hname slot _,
    hv.no_mark _ (by decide), ?_⟩
  rintro x y hxy hne hprefix
  rcases List.eq_nil_or_concat y with rfl | ⟨y, e, rfl⟩
  · exact hne rfl
  rw [List.concat_eq_append, ← List.append_assoc] at hxy
  obtain ⟨hdigits, hclose⟩ := List.append_inj' hxy rfl
  obtain rfl : ']' = e := List.singleton_inj.mp hclose
  rw [List.concat_eq_append, List.append_assoc] at hprefix
  -- a reference would have to end within the color
  have hwithin := prefix_of_not_mem (hv.no_mark _ (by decide)) hprefix
  obtain ⟨c, hc, hhex⟩ := hv.letter
  have hmem := (List.takeWhile_prefix isWord).subset hc
  have hcolor : c ∈ '#' :: ds := by
    rw [hdigits]
    exact List.mem_append_right x (hwithin.subset hmem)
  rcases List.mem_cons.mp hcolor with rfl | hcolor
  · exact hv.no_mark _ (by decide) hmem
  · rw [hds c hcolor] at hhex
    cases hhex

/-! ## The color pass -/

theorem Referenced.mono {s t : List Char} (h : Referenced s)
    (hst : ∀ v, Sheltered v → v <:+: s → v <:+: t) : Referenced t := by
  obtain ⟨r, hr, hrs⟩ := referenced_iff.mp h
  exact referenced_iff.mpr ⟨r, hr, hst _ (sheltered_reference r hr) hrs⟩

theorem referenced_bare (hlit : IsHexColor lit) {text : List Char} (h : Referenced text) :
    Referenced ((literalPattern lit).replace (fun _ => token) text) :=
  h.mono fun _ hv hvt =>
    (Pattern.replaced_replace (literalPattern_bounded hlit) text).infix_of
      (spares_literal hlit hv) hvt

theorem referenced_bracketed (hlit : IsHexColor lit) {text : List Char} (h : Referenced text) :
    Referenced (replaceBracketed lit (themeSlot? token) text).1 := by
  cases themeSlot? token with
  | none => exact h
  | some slot =>
      exact h.mono fun _ hv hvt =>
        (Pattern.replaced_replace bracketedPattern_bounded text).infix_of
          (spares_bracketed hlit hv) hvt

/-- Replacing a color takes no reference away. -/
theorem referenced_recolored (hlit : IsHexColor lit) {text : List Char} (h : Referenced text) :
    Referenced (recolored lit token text) :=
  referenced_bare hlit (referenced_bracketed hlit h)

end

theorem referenced_colorEdits {ms : List ColorMapping} (hms : ∀ m ∈ ms, Themed m)
    {text : List Char} (h : Referenced text) : Referenced (runEdits (colorEdits ms) text).1 := by
  refine runEdits_induct h fun e he t ht => ?_
  obtain ⟨m, hm, rfl⟩ := List.mem_map.mp he
  rw [(hms m hm).after]
  exact referenced_recolored (hms m hm).literal ht

theorem referenced_of_renaming {text : List Char} (h : Referenced text) :
    Referenced ((reservedEdit "cva".toList "type" "inputType").after text) := by
  rw [after_reservedEdit]
  split
  case isFalse => exact h
  case isTrue => exact h.mono fun _ hv hvt => infix_renamedText mute_type.name hv.clear hvt _

/-! ## What a mapping writes -/

/-- What the edit of a color mapping writes into a text: the name of a utility with the slot of the
token for the color in brackets, and the token for the color elsewhere. -/
inductive Writes (m : ColorMapping) (text : List Char) : List Char → Prop
  | bracketed {slot : List Char} (hslot : themeSlot? (trim m.replacement.toList) = some slot)
      {s : Span} (hs : s ∈ (bracketedPattern (trim m.literal.toList)).spans text) :
      Writes m text (withSlot slot (s.of text))
  | bare {s : Span} (hs : s ∈ (literalPattern (trim m.literal.toList)).spans (replaceBracketed
        (trim m.literal.toList) (themeSlot? (trim m.replacement.toList)) text).1) :
      Writes m text (trim m.replacement.toList)

theorem Referenced.of_infix {s t : List Char} (h : Referenced s) (hst : s <:+: t) : Referenced t :=
  h.mono fun _ _ hv => hv.trans hst

theorem Themed.referenced_after {m : ColorMapping} (hm : Themed m) {text v : List Char}
    (h : Writes m text v) (hv : Referenced v) : Referenced ((colorEdit m).after text) := by
  rw [hm.after]
  cases h with
  | bracketed hslot hs =>
      refine referenced_bare hm.literal ?_
      rw [hslot]
      exact hv.of_infix (Pattern.infix_replace bracketedPattern_bounded _ hs)
  | bare hs =>
      exact hv.of_infix (Pattern.infix_replace (literalPattern_bounded hm.literal)
        (fun _ => trim m.replacement.toList) hs)

/-- A reference that is written at some turn of the color pass is there behind the pass. -/
theorem referenced_of_writes {ms later : List ColorMapping} {m : ColorMapping}
    (hms : ∀ x ∈ ms ++ m :: later, Themed x) {text v : List Char}
    (h : Writes m (runEdits (colorEdits ms) text).1 v) (hv : Referenced v) :
    Referenced (runEdits (colorEdits (ms ++ m :: later)) text).1 := by
  have hlater : ∀ x ∈ later, Themed x := fun x hx => hms x (by simp [hx])
  rw [colorEdits, List.map_append, runEdits_append, List.map_cons, runEdits_cons]
  exact referenced_colorEdits hlater ((hms m (by simp)).referenced_after h hv)

end DesignTokens.Rewrite
