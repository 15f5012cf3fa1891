import DesignTokens.Proofs.Text.Template
import DesignTokens.Source.Region

/-!
# Dividing a text character by character

`regions` takes two characters at once where a comment starts or ends and where
a backslash stands in a string. A `Cursor` is a mode that may also stand between
two such characters, so that `scan` takes one character at a time and only looks
at the one behind it (`regionsFrom_eq_scan`).

An identifier character is none of the characters that a cursor goes by. So what
a word in a hole belongs to does not depend on the word, and the fillings of a
template are divided alike (`exists_regions_fill`).
-/

namespace DesignTokens.Source

open Text Template

/-- A mode, or a place between two characters that are taken together. -/
inductive Cursor where
  | code
  | string (quote : Char)
  /-- Behind a backslash in a string. -/
  | escaped (quote : Char)
  | lineComment
  /-- Behind the slash that opens a comment. -/
  | opened
  | blockComment
  /-- Behind the star that closes a comment. -/
  | closing
  deriving Repr, DecidableEq

namespace Cursor

/-- What a character belongs to, given the one behind it. -/
def region : Cursor → Char → Option Char → Region
  | .code, c, behind =>
    if c = '/' && (behind = some '/' || behind = some '*') then .comment
    else if opensString c then .string else .code
  | .string q, c, _ => if c ≠ q && c = '\n' && q ≠ '\x60' then .code else .string
  | .escaped _, _, _ => .string
  | .lineComment, c, _ => if c = '\n' then .code else .comment
  | .opened, _, _ => .comment
  | .blockComment, _, _ => .comment
  | .closing, _, _ => .comment

/-- The cursor behind a character, given the one behind that. -/
def next : Cursor → Char → Option Char → Cursor
  | .code, c, behind =>
    if c = '/' && (behind = some '/' || behind = some '*') then .opened
    else if opensString c then .string c else .code
  | .string q, c, _ =>
    if c = '\\' then .escaped q
    else if c = q || c = '\n' && q ≠ '\x60' then .code
    else .string q
  | .escaped q, _, _ => .string q
  | .lineComment, c, _ => if c = '\n' then .code else .lineComment
  | .opened, c, _ => if c = '/' then .lineComment else .blockComment
  | .blockComment, c, behind =>
    if c = '*' && behind = some '/' then .closing else .blockComment
  | .closing, c, _ => if c = '/' then .code else .blockComment

/-- Outside of code, no character but a line end is code. -/
theorem eq_code_of_region {k : Cursor} {c : Char} {behind : Option Char}
    (h : k.region c behind = .code) (hline : c ≠ '\n') : k = .code := by
  cases k <;> simp [region, hline] at h
  rfl

end Cursor

def Mode.cursor : Mode → Cursor
  | .code => .code
  | .string q => .string q
  | .lineComment => .lineComment
  | .blockComment => .blockComment

/-- Divides a text, one character at a time. -/
def scan : Cursor → List Char → List (Char × Region)
  | _, [] => []
  | k, c :: cs => (c, k.region c cs.head?) :: scan (k.next c cs.head?) cs

theorem regionsFrom_eq_scan (m : Mode) (text : List Char) :
    regionsFrom m text = scan m.cursor text := by
  fun_induction regionsFrom m text <;> simp_all [scan, Mode.cursor, Cursor.region, Cursor.next]
  -- left are the characters that could be the first of two that are taken together
  case case4 c cs hline hblock _ _ =>
    have hpair : ¬(c = '/' ∧ (cs.head? = some '/' ∨ cs.head? = some '*')) := by
      cases cs <;> simp_all
    exact ⟨by tauto, by rw [if_neg hpair]⟩
  case case5 c cs hline hblock _ _ =>
    have hpair : ¬(c = '/' ∧ (cs.head? = some '/' ∨ cs.head? = some '*')) := by
      cases cs <;> simp_all
    exact ⟨by tauto, by rw [if_neg hpair]⟩
  case case7 c cs hescape _ =>
    cases cs <;> simp_all [scan]
  case case9 q c cs hescape _ hline _ =>
    have hends : ¬(c = '\n' ∧ ¬q = '\x60') := fun h => h.2 (hline h.1)
    rw [if_neg hends]
    cases cs <;> simp_all [scan]
  case case13 c cs hclose _ =>
    have hpair : ¬(c = '*' ∧ cs.head? = some '/') := by
      cases cs <;> simp_all
    rw [if_neg hpair]

theorem regions_eq_scan (text : List Char) : regions text = scan .code text :=
  regionsFrom_eq_scan .code text

/-! ## Words in a text -/

namespace Cursor

/-- No identifier character closes the string that the cursor stands in. -/
def Fits : Cursor → Prop
  | .string q => isIdent q = false
  | .escaped q => isIdent q = false
  | _ => True

theorem isIdent_of_opensString {c : Char} (h : opensString c = true) : isIdent c = false := by
  simp only [opensString, Bool.or_eq_true, decide_eq_true_eq] at h
  rcases h with (rfl | rfl) | rfl <;> decide

theorem Fits.next {k : Cursor} (h : k.Fits) (c : Char) (behind : Option Char) :
    (k.next c behind).Fits := by
  cases k <;> simp only [Cursor.next]
  case code =>
    split
    · trivial
    · split
      case isTrue hc => exact isIdent_of_opensString hc
      case isFalse => trivial
  all_goals repeat' split
  all_goals first | exact h | trivial

/-- What an identifier character belongs to. -/
def wordRegion : Cursor → Region
  | .code => .code
  | .string _ => .string
  | .escaped _ => .string
  | .lineComment => .comment
  | .opened => .comment
  | .blockComment => .comment
  | .closing => .comment

def behindWord : Cursor → Cursor
  | .code => .code
  | .string q => .string q
  | .escaped q => .string q
  | .lineComment => .lineComment
  | .opened => .blockComment
  | .blockComment => .blockComment
  | .closing => .blockComment

theorem region_of_isIdent {k : Cursor} {c : Char} (hc : isIdent c = true) (behind : Option Char) :
    k.region c behind = k.wordRegion := by
  have hslash : c ≠ '/' := ne_of_isIdent hc (by decide)
  have hline : c ≠ '\n' := ne_of_isIdent hc (by decide)
  have hopen : opensString c = false := by
    by_contra ho
    rw [Bool.not_eq_false] at ho
    rw [isIdent_of_opensString ho] at hc
    cases hc
  cases k <;> simp [region, wordRegion, hslash, hline, hopen]

theorem next_of_isIdent {k : Cursor} {c : Char} (hk : k.Fits) (hc : isIdent c = true)
    (behind : Option Char) : k.next c behind = k.behindWord := by
  have hslash : c ≠ '/' := ne_of_isIdent hc (by decide)
  have hline : c ≠ '\n' := ne_of_isIdent hc (by decide)
  have hback : c ≠ '\\' := ne_of_isIdent hc (by decide)
  have hstar : c ≠ '*' := ne_of_isIdent hc (by decide)
  have hopen : opensString c = false := by
    by_contra ho
    rw [Bool.not_eq_false] at ho
    rw [isIdent_of_opensString ho] at hc
    cases hc
  cases k <;> simp [next, behindWord, hslash, hline, hback, hstar, hopen]
  case string q => exact fun hcq => absurd hcq (ne_of_isIdent hc hk)

theorem Fits.behindWord {k : Cursor} (h : k.Fits) : k.behindWord.Fits := by
  cases k <;> exact h

@[simp] theorem wordRegion_behindWord (k : Cursor) : k.behindWord.wordRegion = k.wordRegion := by
  cases k <;> rfl

@[simp] theorem behindWord_behindWord (k : Cursor) : k.behindWord.behindWord = k.behindWord := by
  cases k <;> rfl

end Cursor

theorem scan_word {rest : List Char} : ∀ {k : Cursor} {w : List Char}, k.Fits →
    (∀ c ∈ w, isIdent c = true) → w ≠ [] →
    scan k (w ++ rest) = w.map (·, k.wordRegion) ++ scan k.behindWord rest
  | _, [], _, _, h => absurd rfl h
  | k, [c], hk, hw, _ => by
      have hc := hw c (List.mem_cons_self ..)
      simp [scan, Cursor.region_of_isIdent hc, Cursor.next_of_isIdent hk hc]
  | k, c :: d :: w, hk, hw, _ => by
      have hc := hw c (List.mem_cons_self ..)
      have ih : scan k.behindWord (d :: w ++ rest) = (d :: w).map (·, k.behindWord.wordRegion)
          ++ scan k.behindWord.behindWord rest :=
        scan_word hk.behindWord (fun e he => hw e (List.mem_cons_of_mem c he))
          (List.cons_ne_nil d w)
      rw [List.cons_append, scan, Cursor.region_of_isIdent hc, Cursor.next_of_isIdent hk hc, ih]
      simp

/-! ## Divided templates -/

/-- A template with the region of each place. -/
abbrev Marks := List (Slot × Region)

/-- The divided text of a divided template, given the word in the holes. -/
def Marks.fill (w : List Char) (marks : Marks) : List (Char × Region) :=
  marks.flatMap fun (slot, r) => (slot.fill w).map (·, r)

namespace Marks

variable {w : List Char}

@[simp] theorem fill_nil : Marks.fill w [] = [] := rfl

@[simp] theorem fill_some (c : Char) (r : Region) (marks : Marks) :
    Marks.fill w ((some c, r) :: marks) = (c, r) :: Marks.fill w marks := rfl

@[simp] theorem fill_none (r : Region) (marks : Marks) :
    Marks.fill w ((none, r) :: marks) = w.map (·, r) ++ Marks.fill w marks := rfl

theorem map_fst_fill (w : List Char) (marks : Marks) :
    (Marks.fill w marks).map (·.1) = Template.fill w (marks.map (·.1)) := by
  induction marks with
  | nil => rfl
  | cons mark marks ih =>
      obtain ⟨slot, r⟩ := mark
      cases slot with
      | some c => rw [fill_some, List.map_cons, ih, List.map_cons, Template.fill_some]
      | none =>
          rw [fill_none, List.map_append, ih, List.map_map, List.map_cons, Template.fill_none]
          congr 1
          exact List.map_id' w

/-- The region of a character that stands outside the holes. -/
theorem region_fill {c : Char} {r : Region} {ms ms' : Marks} (w : List Char) :
    ((Marks.fill w (ms ++ (some c, r) :: ms')).map (·.2))[(Template.fill w (ms.map (·.1))).length]?
      = some r := by
  have hlen : (Template.fill w (ms.map (·.1))).length = ((Marks.fill w ms).map (·.2)).length := by
    rw [← map_fst_fill, List.length_map, List.length_map]
  have hfill : Marks.fill w (ms ++ (some c, r) :: ms')
      = Marks.fill w ms ++ (c, r) :: Marks.fill w ms' := by
    rw [Marks.fill, List.flatMap_append]
    rfl
  rw [hfill, List.map_append, hlen, List.getElem?_append_right le_rfl, Nat.sub_self]
  rfl

end Marks

theorem Cursor.region_before_ident (k : Cursor) (c : Char) {d : Char} (hd : isIdent d = true) :
    k.region c (some d) = k.region c none := by
  have hslash : d ≠ '/' := ne_of_isIdent hd (by decide)
  have hstar : d ≠ '*' := ne_of_isIdent hd (by decide)
  cases k <;> simp [region, hslash, hstar]

theorem Cursor.next_before_ident (k : Cursor) (c : Char) {d : Char} (hd : isIdent d = true) :
    k.next c (some d) = k.next c none := by
  have hslash : d ≠ '/' := ne_of_isIdent hd (by decide)
  have hstar : d ≠ '*' := ne_of_isIdent hd (by decide)
  cases k <;> simp [next, hslash, hstar]

/-- The fillings of a template are divided alike. -/
theorem exists_scan_fill : ∀ (t : Template) {k : Cursor}, k.Fits →
    ∃ marks : Marks, marks.map (·.1) = t ∧
      ∀ w, IsName w → scan k (fill w t) = Marks.fill w marks
  | [], _, _ => ⟨[], rfl, fun _ _ => rfl⟩
  | none :: t, k, hk => by
      obtain ⟨marks, rfl, h⟩ := exists_scan_fill t hk.behindWord
      refine ⟨(none, k.wordRegion) :: marks, rfl, fun w hw => ?_⟩
      rw [Template.fill_none, scan_word hk hw.all hw.ne_nil, h w hw, Marks.fill_none]
  | some c :: t, k, hk => by
      -- a hole behind the character decides no more than the end of the text
      have hbehind : ∀ w, IsName w →
          k.region c (fill w t).head? = k.region c t.head?.join ∧
            k.next c (fill w t).head? = k.next c t.head?.join := by
        intro w hw
        cases t with
        | nil => exact ⟨rfl, rfl⟩
        | cons slot t =>
            cases slot with
            | some d => exact ⟨rfl, rfl⟩
            | none =>
                obtain ⟨d, ds, rfl, hd⟩ := hw.start
                have hd := isIdent_of_isIdentStart hd
                exact ⟨k.region_before_ident c hd, k.next_before_ident c hd⟩
      obtain ⟨marks, hmarks, h⟩ := exists_scan_fill t (hk.next c t.head?.join)
      refine ⟨(some c, k.region c t.head?.join) :: marks, by rw [List.map_cons, hmarks],
        fun w hw => ?_⟩
      obtain ⟨hregion, hnext⟩ := hbehind w hw
      rw [Template.fill_some, scan, hregion, hnext, h w hw, Marks.fill_some]

theorem exists_regions_fill (t : Template) :
    ∃ marks : Marks, marks.map (·.1) = t ∧
      ∀ w, IsName w → regions (fill w t) = Marks.fill w marks := by
  obtain ⟨marks, ht, h⟩ := exists_scan_fill t (k := .code) trivial
  exact ⟨marks, ht, fun w hw => (regions_eq_scan _).trans (h w hw)⟩

end DesignTokens.Source
