import DesignTokens.Proofs.Text.Word
import DesignTokens.Proofs.Token.Scan

/-!
# The place of a token

A token stands where a lead character, or nothing, is in front of it and a trail
character, or nothing, behind it (`TokenAt`). Both the tokens that are found and
the question for one token go by that.
-/

namespace DesignTokens

open Text Rewrite

/-- The token stands at a place of its own between the two texts. -/
structure TokenAt (a token b text : List Char) : Prop where
  text_eq : text = a ++ (token ++ b)
  lead : a.getLast?.all isLead = true
  trail : b.head?.all isTrail = true

theorem mem_startsFrom_iff : ∀ {text rest : List Char} {atLead : Bool} {pos p : Nat},
    (p, rest) ∈ startsFrom atLead pos text ↔ ∃ a, text = a ++ rest ∧ p = pos + a.length ∧
      (a.getLast?.map isLead).getD atLead = true
  | [], rest, atLead, pos, p => by
      simp only [startsFrom, List.nil_eq_append_iff]
      constructor
      · intro h
        split at h
        case isTrue hlead =>
          cases List.mem_singleton.mp h
          exact ⟨[], ⟨rfl, rfl⟩, rfl, hlead⟩
        case isFalse => cases h
      · rintro ⟨_, ⟨rfl, rfl⟩, rfl, hlead⟩
        have hlead : atLead = true := hlead
        rw [if_pos hlead]
        exact List.mem_singleton.mpr rfl
  | c :: cs, rest, atLead, pos, p => by
      have hlast : ∀ a : List Char, ((c :: a).getLast?.map isLead).getD atLead
          = (a.getLast?.map isLead).getD (isLead c) := by
        intro a
        rw [List.getLast?_cons]
        cases a.getLast? <;> rfl
      have hsplit : (p, rest) ∈ startsFrom atLead pos (c :: cs) ↔
          (atLead = true ∧ p = pos ∧ rest = c :: cs) ∨
            (p, rest) ∈ startsFrom (isLead c) (pos + 1) cs := by
        rw [startsFrom]
        cases atLead <;> simp
      rw [hsplit, mem_startsFrom_iff]
      constructor
      · rintro (⟨hlead, rfl, rfl⟩ | ⟨a, rfl, rfl, hlead⟩)
        · exact ⟨[], rfl, rfl, hlead⟩
        · exact ⟨c :: a, rfl, by rw [List.length_cons]; omega, by rwa [hlast]⟩
      · rintro ⟨a, htext, rfl, hlead⟩
        cases a with
        | nil => exact .inl ⟨hlead, rfl, htext.symm⟩
        | cons d a =>
            obtain ⟨rfl, rfl⟩ := List.cons.inj htext
            exact .inr ⟨a, rfl, by rw [List.length_cons]; omega, by rwa [hlast] at hlead⟩

theorem mem_tokenStarts_iff {text rest : List Char} {p : Nat} :
    (p, rest) ∈ tokenStarts text ↔
      ∃ a, text = a ++ rest ∧ p = a.length ∧ a.getLast?.all isLead = true := by
  have hlead : ∀ a : List Char,
      (a.getLast?.map isLead).getD true = a.getLast?.all isLead := by
    intro a
    cases a.getLast? <;> rfl
  simp only [tokenStarts, mem_startsFrom_iff, Nat.zero_add, hlead]

/-- A text has a token exactly if the token stands at a place of its own. -/
theorem holdsToken_iff {text token : List Char} :
    holdsToken text token = true ↔ ∃ a b, TokenAt a token b text := by
  rw [holdsToken, List.any_eq_true]
  constructor
  · rintro ⟨⟨p, rest⟩, hstart, h⟩
    obtain ⟨a, rfl, -, hlead⟩ := mem_tokenStarts_iff.mp hstart
    dsimp only at h
    split at h
    case h_1 b hb =>
      obtain rfl := after_eq_some_iff.mp hb
      exact ⟨a, b, rfl, hlead, h⟩
    case h_2 => cases h
  · rintro ⟨a, b, rfl, hlead, htrail⟩
    refine ⟨(a.length, token ++ b), mem_tokenStarts_iff.mpr ⟨a, rfl, rfl, hlead⟩, ?_⟩
    dsimp only
    rw [after_eq_some_iff.mpr rfl]
    exact htrail

/-! ## The characters around a token -/

theorem wordAt_of_isLead {c : Option Char} (h : c.all isLead = true) : wordAt c = false := by
  cases c with
  | none => rfl
  | some c =>
      simp only [Option.all_some, isLead, isBlank, Bool.or_eq_true, decide_eq_true_eq] at h
      rcases h with ((((((((((((rfl | rfl) | rfl) | rfl) | rfl) | rfl) | rfl) | rfl) | rfl) | rfl)
        | rfl) | rfl) | rfl) <;> rfl

theorem wordAt_of_isTrail {c : Option Char} (h : c.all isTrail = true) : wordAt c = false := by
  cases c with
  | none => rfl
  | some c =>
      simp only [Option.all_some, isTrail, isBlank, Bool.or_eq_true, decide_eq_true_eq] at h
      rcases h with (((((((((((rfl | rfl) | rfl) | rfl) | rfl) | rfl) | rfl) | rfl) | rfl) | rfl)
        | rfl) | rfl) <;> rfl

/-- The characters of a written token are those of the utility name, of a key, digits, and those of
the brackets and the unit. -/
theorem mem_token {p : Property} {n : Nat} {c : Char} (h : c ∈ (p.token n).toList) :
    c ∈ p.utility.toList ∨ (∃ e ∈ p.scale, c ∈ e.1.toList) ∨ c.isDigit = true ∨
      c ∈ ['-', '[', ']'] ∨ c ∈ p.unit.toList := by
  have hdash : "-".toList = ['-'] := by decide
  have hopen : "-[".toList = ['-', '['] := by decide
  have hclose : "]".toList = [']'] := by decide
  rw [Property.token, Property.scaleToken?] at h
  cases hfind : p.scale.find? fun e => e.2 = n with
  | some e =>
      have he := List.mem_of_find?_eq_some hfind
      rw [hfind, Option.map_some, Option.getD_some, Property.keyToken] at h
      split at h
      case isTrue => exact .inl h
      case isFalse =>
        simp only [String.toList_append, List.mem_append, hdash, List.mem_singleton] at h
        rcases h with (h | rfl) | h
        · exact .inl h
        · exact .inr (.inr (.inr (.inl (by decide))))
        · exact .inr (.inl ⟨e, he, h⟩)
  | none =>
      rw [hfind, Option.map_none, Option.getD_none, Property.bracketToken] at h
      simp only [String.toList_append, List.mem_append, hopen, hclose, List.mem_singleton] at h
      rcases h with (((h | h) | h) | h) | rfl
      · exact .inl h
      · exact .inr (.inr (.inr (.inl (List.mem_append_left [']'] h))))
      · exact .inr (.inr (.inl (isDigit_of_mem_toString h)))
      · exact .inr (.inr (.inr (.inr h)))
      · exact .inr (.inr (.inr (.inl (by decide))))

/-- The word `type` is in no written token. -/
theorem not_wordIn_type (p : Property) (n : Nat) :
    ¬WordIn "type".toList (p.token n).toList := by
  -- a token with a `y` is one of an axis, and these have no `t`
  have hletter : ('y' ∉ p.utility.toList ∧ (∀ e ∈ p.scale, 'y' ∉ e.1.toList) ∧
        'y' ∉ p.unit.toList) ∨
      ('t' ∉ p.utility.toList ∧ (∀ e ∈ p.scale, 't' ∉ e.1.toList) ∧ 't' ∉ p.unit.toList) := by
    cases p <;> decide
  have hmem : ∀ {c}, c ∈ "type".toList → WordIn "type".toList (p.token n).toList →
      c ∈ (p.token n).toList := by
    rintro c hc ⟨a, b, htoken, -, -⟩
    rw [htoken]
    exact List.mem_append_right a (List.mem_append_left b hc)
  intro h
  rcases hletter with ⟨hutility, hscale, hunit⟩ | ⟨hutility, hscale, hunit⟩
  · rcases mem_token (hmem (c := 'y') (by decide) h) with h | ⟨e, he, h⟩ | h | h | h
    · exact hutility h
    · exact hscale e he h
    · exact absurd h (by decide)
    · exact absurd h (by decide)
    · exact hunit h
  · rcases mem_token (hmem (c := 't') (by decide) h) with h | ⟨e, he, h⟩ | h | h | h
    · exact hutility h
    · exact hscale e he h
    · exact absurd h (by decide)
    · exact absurd h (by decide)
    · exact hunit h

end DesignTokens
