import Mathlib.Data.List.Chain
import DesignTokens.Proofs.Text.Replace
import DesignTokens.Proofs.Text.Trim
import DesignTokens.Text.Slug

/-!
# The shape of a slug

A slug is a row of words of small letters and digits with a single dash between
each two of them. Said of its characters, it is not empty, has no dash at either
end, and no two dashes stand side by side (`IsSlug`).

Every slug has this shape (`isSlug_toList_slug`), and a name of this shape is its
own slug (`slug_of_isSlug`). So the slugs are exactly the names that slugging
leaves as they are, and slugging twice does no more than slugging once
(`slug_canonical`).
-/

namespace DesignTokens.Text

/-- A small letter or a digit. -/
def isSlugChar (c : Char) : Bool := c.isLower || c.isDigit

/-- Small letters, digits and single dashes, with a dash at neither end. -/
structure IsSlug (s : List Char) : Prop where
  ne_nil : s ≠ []
  chars : ∀ c ∈ s, isSlugChar c = true ∨ c = '-'
  first : s.head? ≠ some '-'
  last : s.getLast? ≠ some '-'
  single : s.IsChain fun c d => c = '-' → d ≠ '-'

/-- A word of a slug. -/
structure IsSlugWord (w : List Char) : Prop where
  ne_nil : w ≠ []
  chars : ∀ c ∈ w, isSlugChar c = true

/-! ## Letters in lower case -/

theorem toNat_lt_of_isAlphanum {c : Char} (h : c.isAlphanum = true) : c.toNat < 128 :=
  toNat_lt_of_isWord (by rw [isWord, h, Bool.true_or])

theorem isSlugChar_toLower {c : Char} (h : c.isAlphanum = true) : isSlugChar c.toLower = true :=
  forall_ascii (P := fun c => c.isAlphanum = true → isSlugChar c.toLower = true) (by decide)
    (toNat_lt_of_isAlphanum h) h

theorem isAlphanum_of_isSlugChar {c : Char} (h : isSlugChar c = true) : c.isAlphanum = true := by
  rw [isSlugChar, Bool.or_eq_true] at h
  show (c.isUpper || c.isLower || c.isDigit) = true
  rcases h with h | h <;> simp [h]

theorem toLower_of_isSlugChar {c : Char} (h : isSlugChar c = true) : c.toLower = c :=
  forall_ascii (P := fun c => isSlugChar c = true → c.toLower = c) (by decide)
    (toNat_lt_of_isAlphanum (isAlphanum_of_isSlugChar h)) h

theorem ne_dash_of_isSlugChar {c : Char} (h : isSlugChar c = true) : c ≠ '-' := by
  rintro rfl
  exact absurd h (by decide)

/-! ## Words and dashes -/

theorem IsSlugWord.isSlug {w : List Char} (h : IsSlugWord w) : IsSlug w where
  ne_nil := h.ne_nil
  chars := fun c hc => .inl (h.chars c hc)
  first := fun hdash => ne_dash_of_isSlugChar (h.chars _ (List.mem_of_mem_head? hdash)) rfl
  last := fun hdash => ne_dash_of_isSlugChar (h.chars _ (List.mem_of_getLast? hdash)) rfl
  single := (List.pairwise_of_forall_mem_list fun c hc _ _ hdash =>
    absurd hdash (ne_dash_of_isSlugChar (h.chars c hc))).isChain

/-- A word with a dash in front of a slug makes a slug. -/
theorem IsSlugWord.append {w s : List Char} (hw : IsSlugWord w) (hs : IsSlug s) :
    IsSlug (w ++ '-' :: s) where
  ne_nil := by simp
  chars := List.forall_mem_append.mpr
    ⟨hw.isSlug.chars, List.forall_mem_cons.mpr ⟨.inr rfl, hs.chars⟩⟩
  first := by
    rw [List.head?_append_of_ne_nil _ hw.ne_nil]
    exact hw.isSlug.first
  last := by
    rw [← List.singleton_append, ← List.append_assoc, List.getLast?_append_of_ne_nil _ hs.ne_nil]
    exact hs.last
  single := by
    refine List.isChain_append.mpr ⟨hw.isSlug.single, ?_, fun c hc d _ hdash => ?_⟩
    · exact List.isChain_cons.mpr ⟨fun d hd _ heq => hs.first (heq ▸ hd), hs.single⟩
    · exact absurd (hdash ▸ hc) hw.isSlug.last

theorem isSlug_intercalate : ∀ {w : List Char} {ws : List (List Char)},
    (∀ v ∈ w :: ws, IsSlugWord v) → IsSlug (['-'].intercalate (w :: ws))
  | w, [], h => by
      rw [List.intercalate_singleton]
      exact (h w (List.mem_cons_self ..)).isSlug
  | w, v :: ws, h => by
      obtain ⟨hw, hws⟩ := List.forall_mem_cons.mp h
      rw [List.intercalate_cons_cons, List.append_assoc]
      exact hw.append (isSlug_intercalate hws)

/-- A slug is made of words. -/
theorem IsSlug.exists_words : ∀ {s : List Char}, IsSlug s → ∃ w ws,
    (∀ v ∈ w :: ws, IsSlugWord v) ∧ s = ['-'].intercalate (w :: ws)
  | [], h => absurd rfl h.ne_nil
  | c :: s, h => by
      obtain ⟨hc, hs⟩ := List.forall_mem_cons.mp h.chars
      have hc : isSlugChar c = true := hc.resolve_right fun hdash => h.first (by rw [hdash]; rfl)
      have hletter : IsSlugWord [c] := ⟨List.cons_ne_nil c [], by simpa using hc⟩
      obtain ⟨-, hsingle⟩ := List.isChain_cons.mp h.single
      have hlast := h.last
      match s with
      | [] => exact ⟨[c], [], by simpa using hletter, (List.intercalate_singleton ..).symm⟩
      | d :: s =>
          rw [List.getLast?_cons_cons] at hlast
          by_cases hd : d = '-'
          · -- the word ends here
            subst hd
            obtain ⟨hfirst, hsingle⟩ := List.isChain_cons.mp hsingle
            have hne : s ≠ [] := by
              rintro rfl
              exact hlast rfl
            have hrest : IsSlug s :=
              { ne_nil := hne
                chars := (List.forall_mem_cons.mp hs).2
                first := fun hdash => hfirst '-' hdash rfl rfl
                last := by rwa [List.getLast?_cons_of_ne_nil hne] at hlast
                single := hsingle }
            obtain ⟨w, ws, hws, rfl⟩ := hrest.exists_words
            exact ⟨[c], w :: ws, List.forall_mem_cons.mpr ⟨hletter, hws⟩, rfl⟩
          · have hrest : IsSlug (d :: s) :=
              { ne_nil := List.cons_ne_nil d s
                chars := hs
                first := fun hdash => hd (Option.some.inj hdash)
                last := hlast
                single := hsingle }
            obtain ⟨w, ws, hws, hds⟩ := hrest.exists_words
            obtain ⟨hw, hws⟩ := List.forall_mem_cons.mp hws
            have hcw : IsSlugWord (c :: w) :=
              ⟨List.cons_ne_nil c w, List.forall_mem_cons.mpr ⟨hc, hw.chars⟩⟩
            refine ⟨c :: w, ws, List.forall_mem_cons.mpr ⟨hcw, hws⟩, ?_⟩
            rw [hds]
            cases ws with
            | nil => rw [List.intercalate_singleton, List.intercalate_singleton]
            | cons v ws => rw [List.intercalate_cons_cons, List.intercalate_cons_cons]; rfl

/-! ## Slugging -/

theorem isSep_eq_false {w : List Char} (h : ∀ c ∈ w, c.isAlphanum = true) :
    ∀ c ∈ w, (!c.isAlphanum) = false := fun c hc => by rw [h c hc]; rfl

theorem lowered_intercalate (sep : List Char) : ∀ ws : List (List Char),
    lowered (sep.intercalate ws) = (lowered sep).intercalate (ws.map lowered)
  | [] => rfl
  | [w] => by rw [List.intercalate_singleton, List.map_singleton, List.intercalate_singleton]
  | w :: v :: ws => by
      rw [List.intercalate_cons_cons, List.map_cons, List.map_cons, List.intercalate_cons_cons,
        ← List.map_cons, ← lowered_intercalate sep (v :: ws), lowered, lowered, lowered, lowered,
        List.map_append, List.map_append]

/-- The words of a name that is made of words. -/
theorem slugWords_intercalate : ∀ {w : List Char} {ws : List (List Char)},
    (∀ v ∈ w :: ws, IsSlugWord v) → slugWords (['-'].intercalate (w :: ws)) = w :: ws
  | w, [], h => by
      have hw := h w (List.mem_cons_self ..)
      have hletters := isSep_eq_false fun c hc => isAlphanum_of_isSlugChar (hw.chars c hc)
      rw [List.intercalate_singleton, slugWords, pieces_of_forall hletters,
        List.filter_cons_of_pos (by simpa using hw.ne_nil)]
      rfl
  | w, v :: ws, h => by
      obtain ⟨hw, hws⟩ := List.forall_mem_cons.mp h
      have hletters := isSep_eq_false fun c hc => isAlphanum_of_isSlugChar (hw.chars c hc)
      rw [List.intercalate_cons_cons, List.append_assoc, List.singleton_append, slugWords,
        pieces_append hletters (by decide), List.filter_cons_of_pos (by simpa using hw.ne_nil),
        ← slugWords, slugWords_intercalate hws]

/-- The words that a name is cut into are words of a slug in lower case. -/
theorem isSlugWord_of_mem_slugWords {cs w : List Char} (h : w ∈ slugWords cs) :
    IsSlugWord (lowered w) := by
  obtain ⟨hpiece, hne⟩ := List.mem_filter.mp h
  refine ⟨fun hnil => ?_, fun c hc => ?_⟩
  · rw [lowered, List.map_eq_nil_iff] at hnil
    rw [hnil] at hne
    cases hne
  · obtain ⟨d, hd, rfl⟩ := List.mem_map.mp hc
    have hletter := (mem_and_of_mem_pieces hpiece hd).2
    exact isSlugChar_toLower (by simpa using hletter)

theorem isSlug_toList_slug (name : String) : IsSlug (slug name).toList := by
  rw [slug]
  cases hwords : slugWords name.toList with
  | nil =>
      have hword : IsSlugWord emptySlug.toList := ⟨by decide, by decide⟩
      exact hword.isSlug
  | cons w ws =>
      have hws : ∀ v ∈ (w :: ws).map lowered, IsSlugWord v := by
        intro v hv
        obtain ⟨u, hu, rfl⟩ := List.mem_map.mp hv
        exact isSlugWord_of_mem_slugWords (hwords ▸ hu)
      have hdash : lowered ['-'] = ['-'] := by decide
      rw [String.toList_ofList, lowered_intercalate, hdash]
      exact isSlug_intercalate hws

theorem slug_of_isSlug {name : String} (h : IsSlug name.toList) : slug name = name := by
  obtain ⟨w, ws, hws, hname⟩ := h.exists_words
  have hlowered : lowered name.toList = name.toList := by
    have hsame : ∀ c ∈ name.toList, c.toLower = id c := by
      intro c hc
      rcases h.chars c hc with hletter | rfl
      · exact toLower_of_isSlugChar hletter
      · decide
    rw [lowered, List.map_congr_left hsame, List.map_id]
  have hwords : slugWords name.toList = w :: ws := by rw [hname, slugWords_intercalate hws]
  rw [slug, hwords]
  show String.ofList (lowered (['-'].intercalate (w :: ws))) = name
  rw [← hname, hlowered, String.ofList_toList]

/-- A slug has the shape of one, slugging leaves it as it is, and it leaves no other name as it
is. -/
theorem slug_canonical (name : String) :
    IsSlug (slug name).toList ∧ slug (slug name) = slug name ∧
      (slug name = name ↔ IsSlug name.toList) := by
  have hshape := isSlug_toList_slug name
  exact ⟨hshape, slug_of_isSlug hshape, fun h => h ▸ hshape, slug_of_isSlug⟩

example : slug "  --Input  Field--" = "input-field" := by decide

end DesignTokens.Text
