import DesignTokens.Proofs.Source.Cursor
import DesignTokens.Proofs.Text.Replace
import DesignTokens.Source.Structure

/-!
# Brackets in code

The structure check counts the braces and parentheses in code. Which ones are in
code hangs on quotes, comment marks, backslashes and line ends alone; every other
character that is no bracket itself is *neutral*. Two texts that differ in
neutral words only (`Alike`) are therefore divided into code, strings and
comments in the same way and have the same brackets in code
(`Alike.codeBrackets_eq`).

Neither of two such words may be empty: with nothing between them, two slashes
would open a comment.
-/

namespace DesignTokens.Source

open Text

/-- The characters that the structure check counts. -/
def isBracket (c : Char) : Bool := c = '{' || c = '}' || c = '(' || c = ')'

/-- The braces and parentheses of a text that are code, in order. -/
def codeBrackets (text : List Char) : List Char := (codeChars text).filter isBracket

/-- The characters that a text is divided at, and the brackets. -/
def marks : List Char := ['{', '}', '(', ')', '"', '\'', '\x60', '/', '*', '\\', '\n']

/-- A word without any mark. -/
structure NeutralWord (w : List Char) : Prop where
  ne_nil : w ≠ []
  neutral : ∀ c ∈ w, c ∉ marks

/-- The texts differ in neutral words only. -/
abbrev Alike : List Char → List Char → Prop :=
  Reworded fun w v => NeutralWord w ∧ NeutralWord v

/-! ## Neutral characters -/

theorem ne_of_not_mem_marks {c d : Char} (hc : c ∉ marks) (hd : d ∈ marks) : c ≠ d := by
  rintro rfl
  exact hc hd

/-- No character of a class is a mark if no mark belongs to the class. -/
theorem not_mem_marks_of {p : Char → Bool} (hp : ∀ d ∈ marks, p d = false) {c : Char}
    (hc : p c = true) : c ∉ marks := by
  intro hmem
  rw [hp c hmem] at hc
  cases hc

theorem opensString_of_not_mem_marks {c : Char} (hc : c ∉ marks) : opensString c = false := by
  simp only [opensString, Bool.or_eq_false_iff, decide_eq_false_iff_not]
  exact ⟨⟨ne_of_not_mem_marks hc (by decide), ne_of_not_mem_marks hc (by decide)⟩,
    ne_of_not_mem_marks hc (by decide)⟩

theorem isBracket_of_not_mem_marks {c : Char} (hc : c ∉ marks) : isBracket c = false := by
  simp only [isBracket, Bool.or_eq_false_iff, decide_eq_false_iff_not]
  exact ⟨⟨⟨ne_of_not_mem_marks hc (by decide), ne_of_not_mem_marks hc (by decide)⟩,
    ne_of_not_mem_marks hc (by decide)⟩, ne_of_not_mem_marks hc (by decide)⟩

theorem neutralWord_of_isName {w : List Char} (h : IsName w) : NeutralWord w where
  ne_nil := h.ne_nil
  neutral := fun c hc => not_mem_marks_of (by decide) (h.all c hc)

theorem NeutralWord.append {w v : List Char} (hw : NeutralWord w) (hv : ∀ c ∈ v, c ∉ marks) :
    NeutralWord (w ++ v) where
  ne_nil := List.append_ne_nil_of_left_ne_nil hw.ne_nil v
  neutral := by
    intro c hc
    rcases List.mem_append.mp hc with hc | hc
    · exact hw.neutral c hc
    · exact hv c hc

/-! ## Dividing a neutral word -/

namespace Cursor

/-- The string that the cursor stands in, if any, has been opened by a quote. -/
def Opened : Cursor → Prop
  | .string q => opensString q = true
  | .escaped q => opensString q = true
  | _ => True

variable {k : Cursor} {c : Char}

theorem Opened.next (h : k.Opened) (c : Char) (behind : Option Char) :
    (k.next c behind).Opened := by
  cases k <;> simp only [Cursor.next]
  case code =>
    split
    · trivial
    · split
      case isTrue hc => exact hc
      case isFalse => trivial
  all_goals repeat' split
  all_goals first | exact h | trivial

theorem Opened.behindWord (h : k.Opened) : k.behindWord.Opened := by
  cases k <;> exact h

theorem next_of_neutral (hk : k.Opened) (hc : c ∉ marks) (behind : Option Char) :
    k.next c behind = k.behindWord := by
  have hslash : c ≠ '/' := ne_of_not_mem_marks hc (by decide)
  have hstar : c ≠ '*' := ne_of_not_mem_marks hc (by decide)
  have hback : c ≠ '\\' := ne_of_not_mem_marks hc (by decide)
  have hline : c ≠ '\n' := ne_of_not_mem_marks hc (by decide)
  have hopen : opensString c = false := opensString_of_not_mem_marks hc
  cases k <;> simp [next, behindWord, hslash, hline, hback, hstar, hopen]
  case string q =>
    rintro rfl
    simp [Opened, hopen] at hk

theorem region_of_neutral (hc : c ∉ marks) (behind : Option Char) :
    k.region c behind = k.wordRegion := by
  have hslash : c ≠ '/' := ne_of_not_mem_marks hc (by decide)
  have hline : c ≠ '\n' := ne_of_not_mem_marks hc (by decide)
  have hopen : opensString c = false := opensString_of_not_mem_marks hc
  cases k <;> simp [region, wordRegion, hslash, hline, hopen]

/-- Of what stands behind a character only comment marks are looked at. -/
theorem congr_behind (k : Cursor) (c : Char) {a b : Option Char}
    (hslash : a = some '/' ↔ b = some '/') (hstar : a = some '*' ↔ b = some '*') :
    k.region c a = k.region c b ∧ k.next c a = k.next c b := by
  cases k <;> simp [region, next, hslash, hstar]

/-- Behind a character, a neutral one decides no more than the end of the text. -/
theorem region_before_neutral (k : Cursor) (c : Char) {d : Char} (hd : d ∉ marks) :
    k.region c (some d) = k.region c none := by
  have hslash : d ≠ '/' := ne_of_not_mem_marks hd (by decide)
  have hstar : d ≠ '*' := ne_of_not_mem_marks hd (by decide)
  cases k <;> simp [region, hslash, hstar]

theorem next_before_neutral (k : Cursor) (c : Char) {d : Char} (hd : d ∉ marks) :
    k.next c (some d) = k.next c none := by
  have hslash : d ≠ '/' := ne_of_not_mem_marks hd (by decide)
  have hstar : d ≠ '*' := ne_of_not_mem_marks hd (by decide)
  cases k <;> simp [next, hslash, hstar]

end Cursor

theorem scan_neutral : ∀ {w : List Char} {k : Cursor} (rest : List Char), NeutralWord w →
    k.Opened → scan k (w ++ rest) = w.map (·, k.wordRegion) ++ scan k.behindWord rest
  | [], _, _, hw, _ => absurd rfl hw.ne_nil
  | [c], k, rest, hw, hk => by
      have hc := hw.neutral c (List.mem_cons_self ..)
      rw [List.singleton_append, scan, Cursor.region_of_neutral hc, Cursor.next_of_neutral hk hc]
      rfl
  | c :: d :: w, k, rest, hw, hk => by
      have hc := hw.neutral c (List.mem_cons_self ..)
      have htail : NeutralWord (d :: w) :=
        ⟨List.cons_ne_nil d w, fun e he => hw.neutral e (List.mem_cons_of_mem c he)⟩
      rw [List.cons_append, scan, Cursor.region_of_neutral hc, Cursor.next_of_neutral hk hc,
        scan_neutral rest htail hk.behindWord, Cursor.wordRegion_behindWord,
        Cursor.behindWord_behindWord]
      rfl

/-- The brackets of a divided text that are code. -/
def bracketsIn (divided : List (Char × Region)) : List Char :=
  (divided.filterMap fun (c, r) => if r = .code then some c else none).filter isBracket

theorem codeBrackets_eq_scan (text : List Char) :
    codeBrackets text = bracketsIn (scan .code text) := by
  rw [codeBrackets, codeChars, regions_eq_scan, bracketsIn]

theorem bracketsIn_cons_of_not {c : Char} (hc : isBracket c = false) (r : Region)
    (divided : List (Char × Region)) : bracketsIn ((c, r) :: divided) = bracketsIn divided := by
  by_cases hr : r = .code <;> simp [bracketsIn, hr, hc]

theorem bracketsIn_cons_congr (x : Char × Region) {a b : List (Char × Region)}
    (h : bracketsIn a = bracketsIn b) : bracketsIn (x :: a) = bracketsIn (x :: b) := by
  obtain ⟨c, r⟩ := x
  unfold bracketsIn at h
  by_cases hr : r = .code
  · by_cases hc : isBracket c = true <;> simp [bracketsIn, hr, hc, h]
  · simp [bracketsIn, hr, h]

/-- A neutral word has no bracket, and it leaves the cursor where any other one does. -/
theorem bracketsIn_word {w : List Char} {k : Cursor} (rest : List Char) (hw : NeutralWord w)
    (hk : k.Opened) : bracketsIn (scan k (w ++ rest)) = bracketsIn (scan k.behindWord rest) := by
  rw [scan_neutral rest hw hk]
  obtain ⟨-, hneutral⟩ := hw
  induction w with
  | nil => rfl
  | cons c w ih =>
      have hc := isBracket_of_not_mem_marks (hneutral c (List.mem_cons_self ..))
      rw [List.map_cons, List.cons_append, bracketsIn_cons_of_not hc,
        ih fun d hd => hneutral d (List.mem_cons_of_mem c hd)]

/-! ## Texts that are alike -/

namespace Alike

theorem head_eq {s t : List Char} (h : Alike s t) :
    s.head? = t.head? ∨ ∃ c d, s.head? = some c ∧ t.head? = some d ∧ c ∉ marks ∧ d ∉ marks := by
  cases h with
  | nil => exact .inl rfl
  | cons c => exact .inl rfl
  | word hwv _ =>
      obtain ⟨hw, hv⟩ := hwv
      obtain ⟨c, w, rfl⟩ := List.exists_cons_of_ne_nil hw.ne_nil
      obtain ⟨d, v, rfl⟩ := List.exists_cons_of_ne_nil hv.ne_nil
      exact .inr ⟨c, d, rfl, rfl, hw.neutral c (List.mem_cons_self ..),
        hv.neutral d (List.mem_cons_self ..)⟩

/-- In front of texts that are alike a character is divided alike. -/
theorem scan_cons {s t : List Char} (h : Alike s t) (k : Cursor) (c : Char) :
    k.region c s.head? = k.region c t.head? ∧ k.next c s.head? = k.next c t.head? := by
  rcases Alike.head_eq h with heq | ⟨d, e, hs, ht, hd, he⟩
  · rw [heq]
    exact ⟨rfl, rfl⟩
  · rw [hs, ht]
    exact ⟨(k.region_before_neutral c hd).trans (k.region_before_neutral c he).symm,
      (k.next_before_neutral c hd).trans (k.next_before_neutral c he).symm⟩

theorem bracketsIn_eq {s t : List Char} (h : Alike s t) :
    ∀ {k : Cursor}, k.Opened → bracketsIn (scan k s) = bracketsIn (scan k t) := by
  induction h with
  | nil => exact fun _ => rfl
  | @cons c s t h ih =>
      intro k hk
      obtain ⟨hregion, hnext⟩ := Alike.scan_cons h k c
      rw [scan, scan, hregion, hnext]
      exact bracketsIn_cons_congr _ (ih (hk.next c t.head?))
  | word hwv _ ih =>
      intro k hk
      obtain ⟨hw, hv⟩ := hwv
      rw [bracketsIn_word _ hw hk, bracketsIn_word _ hv hk]
      exact ih hk.behindWord

theorem codeBrackets_eq {s t : List Char} (h : Alike s t) : codeBrackets s = codeBrackets t := by
  rw [codeBrackets_eq_scan, codeBrackets_eq_scan]
  exact Alike.bracketsIn_eq h trivial

end Alike

/-! ## The verdict on balance -/

/-- What the structure check has to say about the balance of a text. -/
def balanceErrors (text : List Char) : List String :=
  (balanceError? "braces" ((codeChars text).count '{') ((codeChars text).count '}')).toList
    ++ (balanceError? "parentheses"
      ((codeChars text).count '(') ((codeChars text).count ')')).toList

theorem errors_checkStructure (call text : List Char) :
    ∃ others, (checkStructure call text).errors = balanceErrors text ++ others :=
  ⟨_, List.append_assoc _ _ _⟩

theorem balanceErrors_eq {s t : List Char} (h : codeBrackets s = codeBrackets t) :
    balanceErrors s = balanceErrors t := by
  have hcount : ∀ c, isBracket c = true → (codeChars s).count c = (codeChars t).count c := by
    intro c hc
    rw [← List.count_filter (l := codeChars s) hc, ← List.count_filter (l := codeChars t) hc]
    exact congrArg (List.count c) h
  rw [balanceErrors, balanceErrors, hcount '{' rfl, hcount '}' rfl, hcount '(' rfl, hcount ')' rfl]

end DesignTokens.Source
