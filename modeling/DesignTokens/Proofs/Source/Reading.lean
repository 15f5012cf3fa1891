import DesignTokens.Proofs.Source.Bracket

/-!
# Reading on from a cursor

A text that is cut in front of a character of no comment mark is divided piece by
piece: each piece from the cursor that the pieces before it have come to
(`scan_append`). A piece that comes back to the cursor it was read from (`ReadsBack`)
can therefore be put in or taken out, and the rest of the text is divided as
before.

White space comes back to a cursor that a line end changes nothing about, which
are code, a string in backticks and a block comment (`Steady`).
-/

namespace DesignTokens.Source

open Text

/-! ## Pieces of a text -/

/-- The cursor behind a text that nothing follows. -/
def Cursor.run : Cursor → List Char → Cursor
  | k, [] => k
  | k, c :: cs => (k.next c cs.head?).run cs

/-- The text does not go on with a comment mark that a character in front of it starts. -/
def StartsFresh (text : List Char) : Prop := ∀ c ∈ text.head?, c ≠ '/' ∧ c ≠ '*'

theorem startsFresh_nil : StartsFresh [] := by simp [StartsFresh]

theorem startsFresh_cons {c : Char} (h : c ≠ '/' ∧ c ≠ '*') (text : List Char) :
    StartsFresh (c :: text) := by
  simpa [StartsFresh] using h

theorem startsFresh_of_forall {w : List Char} (h : ∀ c ∈ w, c ≠ '/' ∧ c ≠ '*') : StartsFresh w :=
  fun c hc => h c (List.mem_of_mem_head? hc)

theorem StartsFresh.append {w v : List Char} (hw : StartsFresh w) (hv : StartsFresh v) :
    StartsFresh (w ++ v) := by
  cases w with
  | nil => exact hv
  | cons c w => exact hw

theorem Cursor.before_startsFresh {t : List Char} (ht : StartsFresh t) (k : Cursor) (c : Char) :
    k.region c t.head? = k.region c none ∧ k.next c t.head? = k.next c none := by
  cases t with
  | nil => exact ⟨rfl, rfl⟩
  | cons d t =>
      obtain ⟨hslash, hstar⟩ := ht d rfl
      cases k <;> simp [Cursor.region, Cursor.next, hslash, hstar]

theorem scan_append {t : List Char} (ht : StartsFresh t) : ∀ (k : Cursor) (s : List Char),
    scan k (s ++ t) = scan k s ++ scan (k.run s) t
  | _, [] => rfl
  | k, [c] => by
      obtain ⟨hregion, hnext⟩ := k.before_startsFresh ht c
      simp [scan, Cursor.run, hregion, hnext]
  | k, c :: d :: s => by
      rw [List.cons_append, scan, scan, scan_append ht _ (d :: s)]
      rfl

namespace Cursor

theorem run_append {t : List Char} (ht : StartsFresh t) : ∀ (k : Cursor) (s : List Char),
    k.run (s ++ t) = (k.run s).run t
  | _, [] => rfl
  | k, [c] => by
      obtain ⟨-, hnext⟩ := k.before_startsFresh ht c
      simp [run, hnext]
  | k, c :: d :: s => by
      rw [List.cons_append, run, run, run_append ht _ (d :: s)]
      rfl

theorem Opened.run : ∀ {k : Cursor} (_ : k.Opened) (s : List Char), (k.run s).Opened
  | _, h, [] => h
  | _, h, c :: s => (h.next c s.head?).run s

/-- Only a backslash takes the next character with it. -/
theorem eq_backslash_of_run {q : Char} : ∀ {k : Cursor} {s : List Char},
    k.run s = .escaped q → s ≠ [] → s.getLast? = some '\\'
  | _, [], _, hne => absurd rfl hne
  | k, [c], h, _ => by
      have hnext : k.next c none = .escaped q := h
      cases k <;> simp only [next] at hnext
      case string p =>
        split at hnext
        case isTrue hc => rw [hc]; rfl
        case isFalse => split at hnext <;> cases hnext
      all_goals repeat' split at hnext
      all_goals cases hnext
  | k, c :: d :: s, h, _ => by
      have hrest : (d :: s).getLast? = some '\\' := eq_backslash_of_run h (List.cons_ne_nil d s)
      rw [List.getLast?_cons_cons, hrest]

end Cursor

theorem bracketsIn_append (a b : List (Char × Region)) :
    bracketsIn (a ++ b) = bracketsIn a ++ bracketsIn b := by
  simp [bracketsIn]

/-! ## Pieces that come back -/

/-- Read from the cursor, the text comes back to it and has the given brackets in code. -/
structure ReadsBack (k : Cursor) (w bs : List Char) : Prop where
  run : k.run w = k
  brackets : bracketsIn (scan k w) = bs

instance (k : Cursor) (w bs : List Char) : Decidable (ReadsBack k w bs) :=
  decidable_of_iff (k.run w = k ∧ bracketsIn (scan k w) = bs)
    ⟨fun h => ⟨h.1, h.2⟩, fun h => ⟨h.1, h.2⟩⟩

section

variable {k : Cursor} {w v bs cs : List Char}

theorem readsBack_nil (k : Cursor) : ReadsBack k [] [] := ⟨rfl, rfl⟩

theorem ReadsBack.append (hw : ReadsBack k w bs) (hv : ReadsBack k v cs) (hfresh : StartsFresh v) :
    ReadsBack k (w ++ v) (bs ++ cs) where
  run := by rw [Cursor.run_append hfresh, hw.run, hv.run]
  brackets := by rw [scan_append hfresh, bracketsIn_append, hw.run, hw.brackets, hv.brackets]

theorem readsBack_flatMap {α : Type} {f : α → List Char} : ∀ {xs : List α},
    (∀ x ∈ xs, ReadsBack k (f x) [] ∧ StartsFresh (f x)) →
      ReadsBack k (xs.flatMap f) [] ∧ StartsFresh (xs.flatMap f)
  | [], _ => ⟨readsBack_nil k, startsFresh_nil⟩
  | x :: xs, h => by
      obtain ⟨hx, hfresh⟩ := h x (List.mem_cons_self ..)
      have hlater : ∀ y ∈ xs, ReadsBack k (f y) [] ∧ StartsFresh (f y) :=
        fun y hy => h y (List.mem_cons_of_mem x hy)
      obtain ⟨hxs, hfreshs⟩ := readsBack_flatMap hlater
      exact ⟨hx.append hxs hfreshs, hfresh.append hfreshs⟩

end

/-! ## Line ends and white space -/

theorem not_mem_marks_of_isWhiteSpace {c : Char} (h : isWhiteSpace c = true) (hline : c ≠ '\n') :
    c ∉ marks :=
  not_mem_marks_of (p := fun c => isWhiteSpace c && c != '\n') (by decide) (by simp [h, hline])

theorem startsFresh_of_isWhiteSpace {w : List Char} (h : ∀ c ∈ w, isWhiteSpace c = true) :
    StartsFresh w :=
  startsFresh_of_forall fun c hc =>
    ⟨by rintro rfl; exact absurd (h _ hc) (by decide),
      by rintro rfl; exact absurd (h _ hc) (by decide)⟩

namespace Cursor

/-- A line end changes nothing. -/
def Steady (k : Cursor) : Prop := k.next '\n' none = k

instance (k : Cursor) : Decidable k.Steady := by
  unfold Steady
  infer_instance

theorem Steady.cases {k : Cursor} (h : k.Steady) :
    k = .code ∨ k = .string '\x60' ∨ k = .blockComment := by
  cases k <;> simp [Steady, next] at h ⊢
  case string => exact h.2

/-- The cursor behind a line end that no backslash takes with it. -/
def nextLine : Cursor → Cursor
  | .code => .code
  | .string q => if q = '\x60' then .string q else .code
  | .escaped q => if q = '\x60' then .string q else .code
  | .lineComment => .code
  | .opened => .blockComment
  | .blockComment => .blockComment
  | .closing => .blockComment

theorem Steady.nextLine {k : Cursor} (h : k.Steady) : k.nextLine = k := by
  rcases h.cases with rfl | rfl | rfl <;> rfl

theorem nextLine_next {k : Cursor} (hk : k.Opened) {c : Char} (hc : isWhiteSpace c = true)
    (behind : Option Char) : (k.next c behind).nextLine = k.nextLine := by
  by_cases hline : c = '\n'
  · subst hline
    cases k <;> simp [next, Cursor.nextLine, opensString]
    case string q =>
      have hne : '\n' ≠ q := by rintro rfl; cases hk
      by_cases hq : q = '\x60' <;> simp [hq, hne]
  · have hneutral := not_mem_marks_of_isWhiteSpace hc hline
    rw [next_of_neutral hk hneutral]
    cases k <;> rfl

/-- White space leads to nothing that a line end would not lead to. -/
theorem nextLine_run : ∀ {k : Cursor}, k.Opened → ∀ {w : List Char},
    (∀ c ∈ w, isWhiteSpace c = true) → (k.run w).nextLine = k.nextLine
  | _, _, [], _ => rfl
  | k, hk, c :: w, hw => by
      have hrest : ∀ d ∈ w, isWhiteSpace d = true := fun d hd => hw d (List.mem_cons_of_mem c hd)
      rw [run, nextLine_run (hk.next c w.head?) hrest,
        nextLine_next hk (hw c (List.mem_cons_self ..))]

theorem run_line {k : Cursor} (hk : k.Opened) (hescaped : ∀ q, k ≠ .escaped q) :
    k.run ['\n'] = k.nextLine := by
  cases k <;> simp [run, next, Cursor.nextLine, opensString]
  case string q =>
    have hne : '\n' ≠ q := by rintro rfl; cases hk
    by_cases hq : q = '\x60' <;> simp [hq, hne]
  case escaped q => exact absurd rfl (hescaped q)

theorem run_comma_line {k : Cursor} (hk : k.Opened) : k.run [',', '\n'] = k.nextLine := by
  have hcomma : ∀ {k : Cursor}, k.Opened → (k.run [',']).nextLine = k.nextLine := by
    intro k hk
    rw [run, run, next_of_neutral hk (by decide)]
    cases k <;> rfl
  have hfree : ∀ q, k.run [','] ≠ .escaped q := fun q h =>
    absurd (eq_backslash_of_run h (List.cons_ne_nil _ _)) (by decide)
  have hfresh : StartsFresh ['\n'] := startsFresh_cons (by decide) []
  rw [← List.singleton_append, run_append hfresh, run_line (hk.run _) hfree, hcomma hk]

end Cursor

/-! ## What comes back to a steady cursor -/

section

variable {k : Cursor} {w : List Char}

theorem Cursor.Steady.next_of_neutral (hk : k.Steady) {c : Char} (hc : c = '\n' ∨ c ∉ marks)
    (behind : Option Char) : k.next c behind = k := by
  rcases hc with rfl | hc
  · rcases hk.cases with rfl | rfl | rfl <;> simp [Cursor.next]
    rfl
  · have hopened : k.Opened := by rcases hk.cases with rfl | rfl | rfl <;> trivial
    rw [Cursor.next_of_neutral hopened hc]
    rcases hk.cases with rfl | rfl | rfl <;> rfl

/-- A row of line ends and neutral characters comes back to a steady cursor. -/
theorem readsBack_of_neutral (hk : k.Steady) : ∀ {w : List Char},
    (∀ c ∈ w, c = '\n' ∨ c ∉ marks) → ReadsBack k w []
  | [], _ => readsBack_nil k
  | c :: w, hw => by
      have hc := hw c (List.mem_cons_self ..)
      have ih : ReadsBack k w [] :=
        readsBack_of_neutral hk fun d hd => hw d (List.mem_cons_of_mem c hd)
      have hbracket : isBracket c = false := by
        rcases hc with rfl | hc
        · rfl
        · exact isBracket_of_not_mem_marks hc
      refine ⟨?_, ?_⟩
      · rw [Cursor.run, hk.next_of_neutral hc, ih.run]
      · rw [scan, hk.next_of_neutral hc, bracketsIn_cons_of_not hbracket, ih.brackets]

theorem readsBack_of_isWhiteSpace (hk : k.Steady) (hw : ∀ c ∈ w, isWhiteSpace c = true) :
    ReadsBack k w [] :=
  readsBack_of_neutral hk fun c hc =>
    or_iff_not_imp_left.mpr fun hline => not_mem_marks_of_isWhiteSpace (hw c hc) hline

end

end DesignTokens.Source
