import DesignTokens.Proofs.Token.Occurrences

/-!
# A text as a row of tokens

Every text is a row of its tokens, of whatever properties, with what stands
between them (`exists_shows`). A row is told to be that of a text place by place:
no token starts between two of its tokens, and at each token the boundaries are
right (`Cut`). From that the tokens of each property are read off
(`Cut.occurrencesFrom_eq`).
-/

namespace DesignTokens

open Text

/-- A token of a text with what stands between the token before it and this one. -/
structure Stretch where
  gap : List Char
  property : Property
  token : List Char
  deriving Repr, DecidableEq

/-- The text that a row makes, with what stands behind its last token. -/
def assembled : List Stretch → List Char → List Char
  | [], rest => rest
  | s :: row, rest => s.gap ++ (s.token ++ assembled row rest)

/-- The tokens of a property in a row that starts at a position. -/
def Property.shown (p : Property) : Nat → List Stretch → List Occurrence
  | _, [] => []
  | pos, s :: row =>
    (if s.property = p then [⟨p, pos + s.gap.length, s.token, p.pixels? s.token⟩] else [])
      ++ p.shown (pos + s.gap.length + s.token.length) row

/-- The text is a row that has all of its tokens, each under its property. -/
structure Shows (row : List Stretch) (rest text : List Char) : Prop where
  text_eq : text = assembled row rest
  occurrences_eq : ∀ p : Property, p.occurrences text = p.shown 0 row

/-! ## Rows place by place -/

/-- No token starts in the text, `atLead` telling whether one may start right away. -/
def Tokenless (atLead : Bool) (cs : List Char) : Prop :=
  ∀ p : Property, p.occurrencesFrom atLead 0 cs = []

/-- The tokens of the row are the tokens of the text that the row makes. -/
def Cut : Bool → List Stretch → List Char → Prop
  | atLead, [], rest => Tokenless atLead rest
  | atLead, s :: row, rest =>
    Tokenless atLead s.gap ∧ (s.gap.getLast?.map isLead).getD atLead = true ∧
      s.property.isToken s.token = true ∧ (assembled row rest).head?.all isTrail = true ∧
      Cut false row rest

section

variable {p : Property} {atLead : Bool} {row : List Stretch} {rest : List Char}

theorem Tokenless.occurrencesFrom_eq {cs : List Char} (h : Tokenless atLead cs) (pos : Nat) :
    p.occurrencesFrom atLead pos cs = [] := by
  rw [← Nat.add_zero pos, occurrencesFrom_add, h p, List.map_nil]

/-- Whether a text with a first character ends in a lead character does not depend on what is in
front of it. -/
theorem getLast?_cons_isLead (c : Char) (cs : List Char) (atLead : Bool) :
    ((c :: cs).getLast?.map isLead).getD atLead = (cs.getLast?.map isLead).getD (isLead c) := by
  rw [List.getLast?_cons]
  cases cs.getLast? <;> rfl

theorem all_isLead_cons {c : Char} {cs : List Char}
    (h : (cs.getLast?.map isLead).getD (isLead c) = true) :
    (c :: cs).getLast?.all isLead = true := by
  rw [← getLast?_cons_isLead c cs true] at h
  revert h
  cases (c :: cs).getLast? <;> exact id

theorem occurrencesFrom_gap {gap : List Char} (hgap : Tokenless atLead gap)
    (hlead : (gap.getLast?.map isLead).getD atLead = true) (pos : Nat) (cs : List Char) :
    p.occurrencesFrom atLead pos (gap ++ cs) = p.occurrencesFrom true (pos + gap.length) cs := by
  cases gap with
  | nil =>
      obtain rfl : atLead = true := hlead
      rfl
  | cons c gap =>
      rw [getLast?_cons_isLead] at hlead
      rw [occurrencesFrom_append atLead pos (List.cons_ne_nil c gap) (all_isLead_cons hlead),
        hgap.occurrencesFrom_eq, List.nil_append]

/-- The tokens of a property are read off the row. -/
theorem Cut.occurrencesFrom_eq : ∀ {row : List Stretch} {atLead : Bool} (pos : Nat),
    Cut atLead row rest → p.occurrencesFrom atLead pos (assembled row rest) = p.shown pos row
  | [], _, pos, h => Tokenless.occurrencesFrom_eq h pos
  | s :: row, atLead, pos, ⟨hgap, hlead, htoken, htrail, hrow⟩ => by
      have hhere : p.tokenAt? (pos + s.gap.length, s.token ++ assembled row rest)
          = if s.property = p then some ⟨p, pos + s.gap.length, s.token, p.pixels? s.token⟩
            else none := by
        rw [Property.tokenAt?]
        dsimp only
        rw [tokenWord_append (not_isTrail_of_isToken htoken) htrail]
        split
        case isTrue h => rw [if_pos (Property.eq_of_isToken htoken h)]
        case isFalse h => rw [if_neg fun heq : s.property = p => h (heq ▸ htoken)]
      rw [assembled, occurrencesFrom_gap hgap hlead, occurrencesFrom_true, hhere,
        occurrencesFrom_false_append _ (not_isLead_of_isToken htoken),
        Cut.occurrencesFrom_eq _ hrow, Property.shown]
      split <;> rfl

theorem Cut.shows (h : Cut true row rest) : Shows row rest (assembled row rest) :=
  ⟨rfl, fun _ => (occurrences_eq _).trans (h.occurrencesFrom_eq 0)⟩

/-! ## The row of a text -/

theorem tokenless_nil (atLead : Bool) : Tokenless atLead [] := fun _ => occurrencesFrom_nil ..

/-- A character in front of a text without tokens adds none unless one starts with it. -/
theorem Tokenless.cons {c : Char} {cs : List Char} (h : Tokenless (isLead c) cs)
    (hhere : atLead = true → ∀ p : Property, p.tokenAt? (0, c :: cs) = none) :
    Tokenless atLead (c :: cs) := by
  intro p
  have hlater : p.occurrencesFrom false 0 (c :: cs) = [] := by
    rw [occurrencesFrom_false_cons, h.occurrencesFrom_eq]
  cases atLead with
  | false => exact hlater
  | true => rw [occurrencesFrom_true, hhere rfl p, hlater]; rfl

/-- A character in front of a row belongs to the text between the tokens unless a token starts with
it. -/
theorem Cut.exists_cons {c : Char} (h : Cut (isLead c) row rest)
    (hhere : atLead = true → ∀ p : Property, p.tokenAt? (0, c :: assembled row rest) = none) :
    ∃ row' rest', c :: assembled row rest = assembled row' rest' ∧ Cut atLead row' rest' := by
  cases row with
  | nil => exact ⟨[], c :: rest, rfl, Tokenless.cons h hhere⟩
  | cons s row =>
      obtain ⟨hgap, hlead, htoken, htrail, hrow⟩ := h
      refine ⟨{ s with gap := c :: s.gap } :: row, rest, rfl, hgap.cons fun hat p => ?_,
        (getLast?_cons_isLead ..).trans hlead, htoken, htrail, hrow⟩
      rw [← tokenAt?_append (List.cons_ne_nil c s.gap) (all_isLead_cons hlead)]
      exact hhere hat p

/-- Every text is a row. -/
theorem exists_row (text : List Char) (atLead : Bool) :
    ∃ row rest, text = assembled row rest ∧ Cut atLead row rest := by
  match text with
  | [] => exact ⟨[], [], rfl, tokenless_nil atLead⟩
  | c :: cs =>
      by_cases htoken : atLead = true ∧ ∃ p : Property, p.isToken (tokenWord (c :: cs)) = true
      · obtain ⟨hat, p, htoken⟩ := htoken
        have hlength : ((c :: cs).dropWhile fun c => !isTrail c).length < (c :: cs).length := by
          have hsplit := congrArg List.length
            (List.takeWhile_append_dropWhile (p := fun c => !isTrail c) (l := c :: cs))
          have hpos := List.length_pos_iff.mpr (Property.isTokenChar_of_isToken htoken).1
          rw [tokenWord] at hpos
          rw [List.length_append] at hsplit
          omega
        obtain ⟨row, rest, heq, hrow⟩ := exists_row ((c :: cs).dropWhile fun c => !isTrail c) false
        refine ⟨⟨[], p, tokenWord (c :: cs)⟩ :: row, rest, ?_, tokenless_nil atLead, hat, htoken,
          ?_, hrow⟩
        · rw [assembled, ← heq, List.nil_append, tokenWord, List.takeWhile_append_dropWhile]
        · rw [← heq]
          exact all_head?_dropWhile isTrail _
      · obtain ⟨row, rest, rfl, hrow⟩ := exists_row cs (isLead c)
        refine hrow.exists_cons fun hat p => if_neg fun h => htoken ⟨hat, p, h⟩
termination_by text.length
decreasing_by
  · exact hlength
  · exact Nat.lt_succ_self cs.length

theorem exists_shows (text : List Char) : ∃ row rest, Shows row rest text := by
  obtain ⟨row, rest, rfl, hrow⟩ := exists_row text true
  exact ⟨row, rest, hrow.shows⟩

end

end DesignTokens
