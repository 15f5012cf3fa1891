import DesignTokens.Proofs.Rewrite.ColorEdit
import DesignTokens.Proofs.Rewrite.Reserved
import DesignTokens.Proofs.Source.Bracket
import DesignTokens.Proofs.Token.Scan

/-!
# Passes that keep the brackets

Three of the four passes write one neutral word for another: a token for a color,
a token for a token, an identifier for an identifier. So the texts before and
behind such a pass are alike, and the braces and parentheses in code stay as
they are, be the text a program or not (`codeBrackets_of_pass`).
-/

namespace DesignTokens.Rewrite

open Text Source

/-- The mapping set writes plain tokens for colors, and for tokens the ones of the scales. -/
structure PlainMappings (m : MappingSet) : Prop where
  color : ∀ c ∈ m.colors, IsHexColor (trim c.literal.toList)
  replacement : ∀ c ∈ m.colors, trim c.replacement.toList ≠ [] ∧ IsPlain (trim c.replacement.toList)
  spacing : ∀ s ∈ m.spacing, ∃ (p : Property) (n : Nat), s.token = p.token n

/-! ## Neutral words -/

theorem IsPlain.neutral {token : List Char} (h : IsPlain token) : ∀ c ∈ token, c ∉ marks := by
  intro c hc
  refine not_mem_marks_of (p := fun c => c.isAlphanum || c = '-') (by decide) ?_
  simpa using h c hc

theorem IsHexColor.neutralWord {w : List Char} (h : IsHexColor w) : NeutralWord w := by
  obtain ⟨ds, rfl, -, -, hds⟩ := h
  refine ⟨List.cons_ne_nil _ _, fun c hc => ?_⟩
  rcases List.mem_cons.mp hc with rfl | hc
  · decide
  · exact not_mem_marks_of (by decide) (hds c hc)

theorem neutral_of_isTokenChar {w : List Char} (h : ∀ c ∈ w, isTokenChar c = true) :
    ∀ c ∈ w, c ∉ marks :=
  fun c hc => not_mem_marks_of (by decide) (h c hc)

/-! ## One edit -/

section

variable {lit token : List Char}

theorem alike_replaceBracketed (hlit : IsHexColor lit) (htoken : IsPlain token) (text : List Char) :
    Alike text (replaceBracketed lit (themeSlot? token) text).1 := by
  cases hslot : themeSlot? token with
  | none => exact Reworded.refl text
  | some slot =>
      obtain ⟨u, -, rfl, -⟩ := exists_of_themeSlot hslot
      refine (Pattern.replaced_replace bracketedPattern_bounded text).reworded ?_
      intro before hit rest hhit
      obtain ⟨name, w, rfl, hname, hlast, hw⟩ := eq_of_bracketedPattern hhit
      have hneutral : NeutralWord name := by
        refine ⟨?_, fun c hc => not_mem_marks_of (by decide) (hname c hc)⟩
        rintro rfl
        cases hlast
      refine ⟨hneutral.append fun c hc => ?_, ?_⟩
      · rcases List.mem_cons.mp hc with rfl | hc
        · decide
        · rcases List.mem_append.mp hc with hc | hc
          · exact (hlit.of_lowered hw).neutralWord.neutral c hc
          · obtain rfl := List.mem_singleton.mp hc
            decide
      · rw [withSlot_eq hname]
        exact hneutral.append fun c hc =>
          htoken.neutral c (List.mem_append_right _ (List.mem_cons_of_mem _ hc))

theorem alike_recolored_bare (hlit : IsHexColor lit) (hne : token ≠ []) (htoken : IsPlain token)
    (text : List Char) : Alike text ((literalPattern lit).replace (fun _ => token) text) := by
  refine (Pattern.replaced_replace (literalPattern_bounded hlit) text).reworded ?_
  intro before hit rest hhit
  exact ⟨(hlit.of_lowered (eq_of_literalPattern hlit hhit)).neutralWord, hne, htoken.neutral⟩

end

theorem codeBrackets_colorEdit {m : MappingSet} (hm : PlainMappings m) {c : ColorMapping}
    (hc : c ∈ m.colors) (text : List Char) :
    codeBrackets ((colorEdit c).after text) = codeBrackets text := by
  have hlit := hm.color c hc
  obtain ⟨hne, htoken⟩ := hm.replacement c hc
  rw [after_colorEdit rfl rfl hlit.ne_nil hne, recolored]
  exact ((alike_replaceBracketed hlit htoken text).codeBrackets_eq.trans
    (alike_recolored_bare hlit hne htoken _).codeBrackets_eq).symm

theorem alike_spacingEdit {m : SpacingMapping} (htoken : ∀ c ∈ trim m.token.toList, c ∉ marks)
    {text : List Char} {changed : List Char × Record} (h : spacingEdit m text = some changed) :
    Alike text changed.1 := by
  rw [spacingEdit] at h
  dsimp only at h
  split at h
  case isTrue => cases h
  case isFalse hne =>
    obtain ⟨o, hfound, h⟩ := Option.bind_eq_some_iff.mp h
    split at h
    case isTrue => cases h
    case isFalse =>
      cases h
      obtain ⟨q, -, ho⟩ := exists_of_firstOccurrence hfound
      obtain ⟨a, b, rfl, hstart, hword⟩ := exists_of_mem_occurrences ho
      obtain ⟨hfound_ne, hfound_chars⟩ := Property.isTokenChar_of_isToken hword
      rw [Occurrence.replaceIn_append hstart]
      refine Reworded.append_left a (.word ⟨⟨hfound_ne, ?_⟩, ?_, htoken⟩ (Reworded.refl b))
      · exact neutral_of_isTokenChar hfound_chars
      · simpa using hne

theorem codeBrackets_spacingEdit {m : SpacingMapping} {p : Property} {n : Nat}
    (hm : m.token = p.token n) (text : List Char) :
    codeBrackets ((spacingEdit m).after text) = codeBrackets text := by
  have htoken : ∀ c ∈ trim m.token.toList, c ∉ marks := by
    intro c hc
    rw [hm] at hc
    exact neutral_of_isTokenChar (p.isTokenChar_token n) c (mem_of_mem_trim hc)
  rw [Edit.after]
  cases hedit : spacingEdit m text with
  | none => rfl
  | some changed =>
      rw [Option.map_some, Option.getD_some]
      exact (alike_spacingEdit htoken hedit).codeBrackets_eq.symm

theorem codeBrackets_reservedEdit (call : List Char) {reserved renamed : String}
    (hreserved : IsName reserved.toList) (hrenamed : IsName renamed.toList) (text : List Char) :
    codeBrackets ((reservedEdit call reserved renamed).after text) = codeBrackets text := by
  rw [after_reservedEdit]
  split
  case isFalse => rfl
  case isTrue =>
    obtain ⟨t, ht⟩ := exists_renamingTemplate hreserved text
    have hfree : IsName (freeName text renamed).toList := isName_candidateName hrenamed _
    have halike : Alike (Template.fill reserved.toList t)
        (Template.fill (freeName text renamed).toList t) :=
      reworded_fill ⟨neutralWord_of_isName hreserved, neutralWord_of_isName hfree⟩ t
    rw [ht.fill_free, ← halike.codeBrackets_eq, ht.fill_name]

theorem mem_of_mem_putWinner {m w : SpacingMapping} : ∀ {ws : List SpacingMapping},
    w ∈ putWinner m ws → w = m ∨ w ∈ ws
  | [], h => .inl (List.mem_singleton.mp h)
  | x :: ws, h => by
      rw [putWinner] at h
      split at h
      case isTrue =>
        rcases List.mem_cons.mp h with rfl | h
        · exact .inl rfl
        · exact .inr (List.mem_cons_of_mem x h)
      case isFalse =>
        rcases List.mem_cons.mp h with rfl | h
        · exact .inr (List.mem_cons_self ..)
        · rcases mem_of_mem_putWinner h with rfl | h
          · exact .inl rfl
          · exact .inr (List.mem_cons_of_mem x h)

theorem mem_of_mem_winners {w : SpacingMapping} {ms : List SpacingMapping} (h : w ∈ winners ms) :
    w ∈ ms := by
  suffices hfold : ∀ {ms ws : List SpacingMapping},
      w ∈ ms.foldl (fun ws m => putWinner m ws) ws → w ∈ ws ∨ w ∈ ms by
    exact (hfold h).resolve_left (List.not_mem_nil)
  intro ms
  induction ms with
  | nil => exact fun h => .inl h
  | cons m ms ih =>
      intro ws h
      rcases ih h with h | h
      · rcases mem_of_mem_putWinner h with rfl | h
        · exact .inr (List.mem_cons_self ..)
        · exact .inl h
      · exact .inr (List.mem_cons_of_mem m h)

/-! ## The passes -/

/-- Of the four passes only the insertion of variants changes the brackets in code. -/
theorem codeBrackets_of_pass {policy : Policy} (hvalid : policy.Valid) {m : MappingSet}
    (hm : PlainMappings m) {pass : Pass} (hpass : pass ≠ .variants) (text : List Char) :
    codeBrackets (runEdits (pass.edits m policy) text).1 = codeBrackets text ∧
      balanceErrors (runEdits (pass.edits m policy) text).1 = balanceErrors text := by
  suffices h : codeBrackets (runEdits (pass.edits m policy) text).1 = codeBrackets text from
    ⟨h, balanceErrors_eq h⟩
  refine runEdits_induct (P := fun t => codeBrackets t = codeBrackets text) rfl ?_
  intro e he t ht
  rw [← ht]
  cases pass with
  | colors =>
      obtain ⟨c, hc, rfl⟩ := List.mem_map.mp he
      exact codeBrackets_colorEdit hm hc t
  | spacing =>
      obtain ⟨s, hs, rfl⟩ := List.mem_map.mp he
      obtain ⟨p, n, htoken⟩ := hm.spacing s (mem_of_mem_winners hs)
      exact codeBrackets_spacingEdit htoken t
  | variants => exact absurd rfl hpass
  | reservedNames =>
      obtain ⟨r, hr, rfl⟩ := List.mem_map.mp he
      obtain ⟨hreserved, hrenamed, -⟩ := hvalid.isName_reserved hr
      exact codeBrackets_reservedEdit _ hreserved hrenamed t

/-- A text whose brackets do not balance, with a color behind a quote that nothing closes. -/
def unbalancedSource : List Char := "f(\x7b '\\bg-[#fff]\n /* h-[9px] */ #FFF".toList

theorem codeBrackets_of_pass_unbalanced :
    codeBrackets
        (runEdits (Pass.edits
          { colors := [⟨"a", " #fff ", "bg-primary"⟩], spacing := [⟨"b", .height, "h-10"⟩] }
          Policy.builtin .colors) unbalancedSource).1 = codeBrackets unbalancedSource ∧
      balanceErrors
        (runEdits (Pass.edits
          { colors := [⟨"a", " #fff ", "bg-primary"⟩], spacing := [⟨"b", .height, "h-10"⟩] }
          Policy.builtin .colors) unbalancedSource).1 = balanceErrors unbalancedSource := by
  refine codeBrackets_of_pass Policy.valid_builtin ⟨?_, ?_, ?_⟩ (by decide) unbalancedSource
  · intro c hc
    obtain rfl := List.mem_singleton.mp hc
    exact ⟨"fff".toList, by decide, by decide, by decide, by decide⟩
  · intro c hc
    obtain rfl := List.mem_singleton.mp hc
    exact ⟨by decide, by rw [IsPlain]; decide⟩
  · intro s hs
    obtain rfl := List.mem_singleton.mp hs
    exact ⟨.height, 40, by decide⟩

end DesignTokens.Rewrite
