import DesignTokens.Proofs.Rewrite.Color
import DesignTokens.Proofs.Rewrite.Edits

/-!
# The edit of a color mapping

An edit rewrites the utilities with the color in brackets first, if the token
has a slot, and then the color wherever else it stands (`after_colorEdit`). What
it rewrites is a name and brackets around the color, or the color itself
(`eq_of_bracketedPattern`, `eq_of_literalPattern`).
-/

namespace DesignTokens.Rewrite

open Text

/-! ## Slots -/

/-- A token with a slot is the name of a utility, a dash and the slot. -/
theorem exists_of_themeSlot {token slot : List Char} (h : themeSlot? token = some slot) :
    ∃ u ∈ colorUtilities, token = u.toList ++ '-' :: slot ∧ slot ≠ [] := by
  rw [themeSlot?] at h
  obtain ⟨⟨utility, rest⟩, hcut, h⟩ := Option.bind_eq_some_iff.mp h
  dsimp only at h
  split at h
  case isFalse => cases h
  case isTrue hslot =>
    cases h
    simp only [Bool.and_eq_true, List.contains_iff_mem, Bool.not_eq_true',
      List.isEmpty_eq_false_iff]
      at hslot
    refine ⟨_, hslot.1.1, ?_, hslot.1.2⟩
    rw [String.toList_ofList]
    exact (cut?_eq_some_iff.mp hcut).1

/-! ## What is found -/

section

variable {lit hit rest : List Char} {before : Option Char}

theorem length_of_lowered {w v : List Char} (h : lowered w = lowered v) : w.length = v.length := by
  have := congrArg List.length h
  simpa [lowered] using this

theorem eq_of_literalPattern (hlit : IsHexColor lit)
    (h : literalPattern lit before (hit ++ rest) = some hit.length) :
    lowered hit = lowered lit := by
  obtain ⟨hlen, w, b, heq, hw, -⟩ := (literalPattern_eq_some_iff hlit).mp h
  have hwl : hit.length = w.length := by rw [hlen, length_of_lowered hw]
  rw [(List.append_inj heq hwl).1, hw]

theorem exists_of_utilityName {n : Nat} (h : utilityName? before rest = some n) :
    ∃ name more, rest = name ++ '[' :: more ∧ n = name.length ∧
      (∀ c ∈ name, isUtilityChar c = true) ∧ name.getLast? = some '-' := by
  rw [utilityName?] at h
  split at h
  case isFalse => cases h
  case isTrue hname =>
    simp only [Bool.and_eq_true, decide_eq_true_eq] at hname
    obtain ⟨⟨-, hlast⟩, hopen⟩ := hname
    obtain ⟨tail, htail⟩ := List.takeWhile_prefix isUtilityChar (l := rest)
    have hdrop : rest.drop (rest.takeWhile isUtilityChar).length = tail := by
      nth_rewrite 2 [← htail]
      exact List.drop_left
    rw [hdrop] at hopen
    cases tail with
    | nil => cases hopen
    | cons c more =>
        obtain rfl := Option.some.inj hopen
        exact ⟨_, more, htail.symm, (Option.some.inj h).symm,
          fun c hc => List.mem_takeWhile_imp hc, hlast⟩

theorem exists_of_bracketedPattern {n : Nat} (h : bracketedPattern lit before rest = some n) :
    ∃ name w more, rest = name ++ '[' :: (w ++ [']']) ++ more ∧
      n = (name ++ '[' :: (w ++ [']'])).length ∧ (∀ c ∈ name, isUtilityChar c = true) ∧
      name.getLast? = some '-' ∧ lowered w = lowered lit := by
  rw [bracketedPattern] at h
  obtain ⟨k, hname, hk⟩ := Option.bind_eq_some_iff.mp h
  obtain ⟨behind, hafter, hclosed⟩ := Option.bind_eq_some_iff.mp hk
  obtain ⟨name, more, rfl, rfl, hall, hlast⟩ := exists_of_utilityName hname
  have hdrop : (name ++ '[' :: more).drop (name.length + 1) = more := by
    rw [← List.singleton_append, ← List.append_assoc]
    exact List.drop_left' (by simp)
  rw [hdrop] at hafter
  obtain ⟨w, rfl, hw⟩ := afterFolded_eq_some_iff.mp hafter
  split at hclosed
  case isFalse => cases hclosed
  case isTrue hclose =>
    cases behind with
    | nil => cases hclose
    | cons c more =>
        obtain rfl := Option.some.inj hclose
        refine ⟨name, w, more, by simp, ?_, hall, hlast, hw⟩
        rw [← Option.some.inj hclosed, ← length_of_lowered hw]
        simp only [List.length_append, List.length_cons, List.length_nil]
        omega

theorem eq_of_bracketedPattern (h : bracketedPattern lit before (hit ++ rest) = some hit.length) :
    ∃ name w, hit = name ++ '[' :: (w ++ [']']) ∧ (∀ c ∈ name, isUtilityChar c = true) ∧
      name.getLast? = some '-' ∧ lowered w = lowered lit := by
  obtain ⟨name, w, more, heq, hlen, hall, hlast, hw⟩ := exists_of_bracketedPattern h
  exact ⟨name, w, (List.append_inj heq hlen).1, hall, hlast, hw⟩

theorem withSlot_eq {name : List Char} (hname : ∀ c ∈ name, isUtilityChar c = true)
    (slot more : List Char) : withSlot slot (name ++ '[' :: more) = name ++ slot := by
  have hopen : isUtilityChar '[' = false := by decide
  rw [withSlot, List.takeWhile_append_of_pos hname, List.takeWhile_cons_of_neg (by simp [hopen]),
    List.append_nil]

theorem literalPattern_bounded (hlit : IsHexColor lit) : (literalPattern lit).Bounded := by
  intro before rest n h
  obtain ⟨rfl, w, b, rfl, hw, -⟩ := (literalPattern_eq_some_iff hlit).mp h
  have hlen := length_of_lowered hw
  obtain ⟨ds, rfl, -⟩ := hlit
  simp only [List.length_cons, List.length_append] at *
  omega

theorem bracketedPattern_bounded : (bracketedPattern lit).Bounded := by
  intro before rest n h
  obtain ⟨name, w, more, rfl, rfl, -⟩ := exists_of_bracketedPattern h
  simp only [List.length_append, List.length_cons]
  omega

end

/-! ## The edit -/

/-- The text with a color replaced: the bracketed places by the slot, the others by the token. -/
def recolored (lit token : List Char) (text : List Char) : List Char :=
  (literalPattern lit).replace (fun _ => token) (replaceBracketed lit (themeSlot? token) text).1

theorem after_colorEdit {m : ColorMapping} {lit token : List Char}
    (hlit : trim m.literal.toList = lit) (htoken : trim m.replacement.toList = token)
    (hne : lit ≠ []) (hne' : token ≠ []) (text : List Char) :
    (colorEdit m).after text = recolored lit token text := by
  have hempty : (lit.isEmpty || token.isEmpty) = false := by simp [hne, hne']
  rw [Edit.after, colorEdit, hlit, htoken]
  simp only [hempty, Bool.false_eq_true, if_false]
  cases hfirst : firstColor? lit (themeSlot? token) text with
  | some span => rfl
  | none =>
      -- where neither pattern finds a place, there is nothing to replace
      rw [firstColor?, Option.or_eq_none_iff] at hfirst
      obtain ⟨hbracketed, hbare⟩ := hfirst
      have hsame : (replaceBracketed lit (themeSlot? token) text).1 = text := by
        cases hslot : themeSlot? token with
        | none => rfl
        | some slot =>
            rw [hslot, Option.bind_some] at hbracketed
            exact Pattern.replace_of_not_occurs (by rw [Pattern.occurs, hbracketed]; rfl)
      rw [recolored, hsame, Pattern.replace_of_not_occurs (by rw [Pattern.occurs, hbare]; rfl)]
      rfl

/-! ## Tokens with a slot -/

/-- The token is made of letters, digits and dashes. -/
def IsPlain (token : List Char) : Prop := ∀ c ∈ token, c.isAlphanum = true ∨ c = '-'

/-- A token that names a slot. -/
structure IsSlotToken (token : List Char) : Prop where
  slot : (themeSlot? token).isSome = true
  plain : IsPlain token

/-- The mapping writes a token with a slot for a color. -/
structure Themed (m : ColorMapping) : Prop where
  literal : IsHexColor (trim m.literal.toList)
  replacement : IsSlotToken (trim m.replacement.toList)

section

variable {lit token slot : List Char}

theorem IsHexColor.ne_nil (h : IsHexColor lit) : lit ≠ [] := by
  obtain ⟨ds, rfl, -⟩ := h
  exact List.cons_ne_nil _ _

theorem IsSlotToken.ne_nil (h : IsSlotToken token) : token ≠ [] := by
  rintro rfl
  exact nomatch h.slot

theorem IsSlotToken.no_hash (h : IsSlotToken token) : '#' ∉ token := by
  intro hmem
  rcases h.plain '#' hmem with hc | hc
  · exact absurd hc (by decide)
  · exact absurd hc (by decide)

theorem isWord_utilities : ∀ u ∈ colorUtilities, ∀ c ∈ u.toList, isWord c = true := by
  decide

/-- No utility has a name that could be taken for hexadecimal digits. -/
theorem exists_not_isHexDigit : ∀ u ∈ colorUtilities, ∃ c ∈ u.toList, isHexDigit c = false := by
  decide

theorem blunt_token (htoken : IsSlotToken token) (hit : List Char) : Blunt hit token where
  no_hash := htoken.no_hash
  start := by
    obtain ⟨slot, hslot⟩ := Option.isSome_iff_exists.mp htoken.slot
    obtain ⟨u, hu, rfl, -⟩ := exists_of_themeSlot hslot
    obtain ⟨c, hc, hhex⟩ := exists_not_isHexDigit u hu
    refine .inl ⟨c, ?_, hhex⟩
    rw [List.takeWhile_append_of_pos (isWord_utilities u hu)]
    exact List.mem_append_left _ hc

theorem blunt_withSlot (htoken : IsSlotToken token) (hslot : themeSlot? token = some slot)
    {before : Option Char} {hit rest : List Char}
    (h : bracketedPattern lit before (hit ++ rest) = some hit.length) :
    Blunt hit (withSlot slot hit) := by
  obtain ⟨name, w, rfl, hname, hlast, -⟩ := eq_of_bracketedPattern h
  rw [withSlot_eq hname]
  refine ⟨fun hmem => ?_, .inr ?_⟩
  · rcases List.mem_append.mp hmem with hmem | hmem
    · exact absurd (hname '#' hmem) (by decide)
    · obtain ⟨u, -, rfl, -⟩ := exists_of_themeSlot hslot
      exact htoken.no_hash (List.mem_append_right _ (List.mem_cons_of_mem _ hmem))
  · -- the name comes to its end with the dash that both have in common
    obtain ⟨n, rfl⟩ := List.getLast?_eq_some_iff.mp hlast
    exact ⟨n, '-', '[' :: (w ++ [']']), slot, by simp, by simp, by decide⟩

theorem colorIn_of_recolored (hlit : IsHexColor lit) (htoken : IsSlotToken token)
    {w text : List Char} (hw : IsHexColor w) (h : ColorIn w (recolored lit token text)) :
    ColorIn w text := by
  obtain ⟨slot, hslot⟩ := Option.isSome_iff_exists.mp htoken.slot
  have hbare : Replaced (literalPattern lit) (fun _ => token) none _ _ :=
    Pattern.replaced_replace (literalPattern_bounded hlit)
      (replaceBracketed lit (themeSlot? token) text).1
  have hmid := colorIn_of_reworded (hbare.reworded fun _ hit _ _ => blunt_token htoken hit) hw h
  rw [hslot] at hmid
  have hbracketed : Replaced (bracketedPattern lit) (withSlot slot) none _ _ :=
    Pattern.replaced_replace bracketedPattern_bounded text
  exact colorIn_of_reworded
    (hbracketed.reworded fun _ _ _ hhit => blunt_withSlot htoken hslot hhit) hw hmid

theorem not_colorIn_recolored (hlit : IsHexColor lit) (htoken : IsSlotToken token)
    {w : List Char} (hw : lowered w = lowered lit) (text : List Char) :
    ¬ColorIn w (recolored lit token text) :=
  not_colorIn_of_replaced hlit (blunt_token htoken)
    (Pattern.replaced_replace (literalPattern_bounded hlit) _) hw

theorem recolored_of_not_colorIn (hlit : IsHexColor lit) {text : List Char}
    (h : ∀ w, lowered w = lowered lit → ¬ColorIn w text) : recolored lit token text = text := by
  have hbare := (first?_literalPattern_eq_none_iff hlit).mpr h
  -- a color in brackets is a color, so there are none of these either
  have hbracketed : (bracketedPattern lit).first? text = none := by
    rw [Pattern.first?, Pattern.firstFrom?_eq_none_iff_forall]
    rintro a b rfl -
    by_contra hsome
    obtain ⟨n, hn⟩ := Option.ne_none_iff_exists'.mp hsome
    obtain ⟨name, w, more, rfl, -, -, -, hw⟩ := exists_of_bracketedPattern hn
    exact h w hw ⟨a ++ (name ++ ['[']), ']' :: more, by simp, rfl⟩
  have hsame : (replaceBracketed lit (themeSlot? token) text).1 = text := by
    cases themeSlot? token with
    | none => rfl
    | some slot => exact Pattern.replace_of_not_occurs (by rw [Pattern.occurs, hbracketed]; rfl)
  rw [recolored, hsame, Pattern.replace_of_not_occurs (by rw [Pattern.occurs, hbare]; rfl)]

end

/-! ## The pass -/

theorem Themed.after {m : ColorMapping} (h : Themed m) (text : List Char) :
    (colorEdit m).after text
      = recolored (trim m.literal.toList) (trim m.replacement.toList) text :=
  after_colorEdit rfl rfl h.literal.ne_nil h.replacement.ne_nil text

/-- Every color behind the pass has been there before. -/
theorem colorIn_of_colorEdits {ms : List ColorMapping} (hms : ∀ m ∈ ms, Themed m)
    {w text : List Char} (hw : IsHexColor w)
    (h : ColorIn w (runEdits (colorEdits ms) text).1) : ColorIn w text := by
  refine runEdits_induct (P := fun t => ColorIn w t → ColorIn w text) id ?_ h
  intro e he t ih hafter
  obtain ⟨m, hm, rfl⟩ := List.mem_map.mp he
  rw [(hms m hm).after] at hafter
  exact ih (colorIn_of_recolored (hms m hm).literal (hms m hm).replacement hw hafter)

/-- None of the mapped colors is left behind the pass, in whatever case. -/
theorem not_colorIn_colorEdits : ∀ {ms : List ColorMapping} {text : List Char},
    (∀ m ∈ ms, Themed m) → ∀ m ∈ ms, ∀ w, lowered w = lowered (trim m.literal.toList) →
      ¬ColorIn w (runEdits (colorEdits ms) text).1
  | [], _, _, _, hm, _, _ => nomatch hm
  | m' :: ms, text, hms, m, hm, w, hw => by
      have hlater : ∀ x ∈ ms, Themed x := fun x hx => hms x (List.mem_cons_of_mem m' hx)
      rw [colorEdits, List.map_cons, runEdits_cons]
      rcases List.mem_cons.mp hm with rfl | hm
      · intro hcolor
        have hthemed := hms m (List.mem_cons_self ..)
        have hbefore := colorIn_of_colorEdits hlater (hthemed.literal.of_lowered hw) hcolor
        rw [hthemed.after] at hbefore
        exact not_colorIn_recolored hthemed.literal hthemed.replacement hw text hbefore
      · exact not_colorIn_colorEdits hlater m hm w hw

/-- A text without any of the mapped colors stays as it is. -/
theorem colorEdits_of_not_colorIn {ms : List ColorMapping} (hms : ∀ m ∈ ms, Themed m)
    {text : List Char}
    (h : ∀ m ∈ ms, ∀ w, lowered w = lowered (trim m.literal.toList) → ¬ColorIn w text) :
    (runEdits (colorEdits ms) text).1 = text := by
  refine runEdits_of_forall_after fun e he => ?_
  obtain ⟨m, hm, rfl⟩ := List.mem_map.mp he
  rw [(hms m hm).after]
  exact recolored_of_not_colorIn (hms m hm).literal (h m hm)

end DesignTokens.Rewrite
