import Mathlib.Data.List.Infix
import DesignTokens.Policy
import DesignTokens.Proofs.Source.Located

/-!
# Where the variant block stands

The variant block is found by the word `variants` wherever it stands, and its end
by dividing the text from the opening brace on. Divided from there, it is what it
should be: its ends are braces in code, and the braces in code between them close
each other (`InCode`). Divided from its start, the text need not have a single one
of these braces in code: the word may stand in a comment or a string.

The block is in code if and only if the word is, or a line end between the word
and the brace closes the line comment or the string that the word stands in
(`inCode_variantBlock_iff`). A block in a comment is found even where a block in
code follows it (`not_inCode_variantBlock`).
-/

namespace DesignTokens.Source

open Text

/-! ## Blocks in code -/

/-- The braces in code close each other: there are as many of both kinds, and no closing one comes
before the brace that it closes. -/
structure BracesMatch (divided : List (Char × Region)) : Prop where
  count_eq : divided.count ('\x7b', .code) = divided.count ('\x7d', .code)
  count_le : ∀ front, front <+: divided →
    front.count ('\x7d', .code) ≤ front.count ('\x7b', .code)

/-- The ends of the block are braces in code, in this order, and the braces in code between them
close each other. -/
structure InCode (text : List Char) (b : Block) : Prop where
  opening : (regions text)[b.opening]? = some ('\x7b', .code)
  closing : (regions text)[b.closing]? = some ('\x7d', .code)
  lt : b.opening < b.closing
  bracesMatch : BracesMatch (((regions text).take b.closing).drop (b.opening + 1))

theorem openAfter_count {n : Nat} : ∀ {a : List (Char × Region)} {depth : Nat},
    openAfter depth a = some n →
      depth + a.count ('\x7b', .code) = n + a.count ('\x7d', .code)
  | [], _, h => by
      obtain rfl := Option.some.inj h
      rfl
  | (c, r) :: a, depth, h => by
      rcases brace_cases c r with ⟨rfl, rfl⟩ | ⟨rfl, rfl⟩ | ⟨hopen, hclose⟩
      · have ih := openAfter_count (openAfter_open depth a ▸ h)
        rw [List.count_cons_self, List.count_cons_of_ne (by decide)]
        omega
      · rcases depth with - | - | depth
        · cases h
        · cases h
        · have ih := openAfter_count (openAfter_close depth a ▸ h)
          rw [List.count_cons_self, List.count_cons_of_ne (by decide)]
          omega
      · have ih := openAfter_count (openAfter_other hopen hclose depth a ▸ h)
        rwa [List.count_cons_of_ne (by rintro ⟨rfl, rfl⟩; exact hopen rfl),
          List.count_cons_of_ne (by rintro ⟨rfl, rfl⟩; exact hclose rfl)]

/-- Where the depth never comes to the brace that is open in front, the braces close each other. -/
theorem bracesMatch_of_openAfter {divided : List (Char × Region)}
    (h : openAfter 1 divided = some 1) : BracesMatch divided where
  count_eq := by
    have := openAfter_count h
    omega
  count_le := by
    rintro front ⟨back, rfl⟩
    rw [openAfter_append] at h
    obtain ⟨n, hn, -⟩ := Option.bind_eq_some_iff.mp h
    have hpos := openAfter_pos hn Nat.one_pos
    have := openAfter_count hn
    omega

/-- An object with a closed inside is in code if its opening brace is reached in code. -/
theorem inCode_iff {a inside rest : List Char} (h : Closed inside) :
    InCode (a ++ '\x7b' :: (inside ++ '\x7d' :: rest)) ⟨a.length, a.length + 1 + inside.length⟩ ↔
      Cursor.code.run a = .code := by
  have hregions : regions (a ++ '\x7b' :: (inside ++ '\x7d' :: rest))
      = scan .code a ++ scan (Cursor.code.run a) ('\x7b' :: (inside ++ '\x7d' :: rest)) := by
    rw [regions_eq_scan, scan_append (startsFresh_open _)]
  have hlength := length_scan .code a
  constructor
  · intro hblock
    have hopening := hblock.opening
    rw [hregions, List.getElem?_append_right hlength.le, hlength, Nat.sub_self, scan] at hopening
    exact Cursor.eq_code_of_region (Prod.mk.inj (Option.some.inj hopening)).2 (by decide)
  · intro hcode
    rw [hcode, (scan_open _).1, scan_append (startsFresh_cons (by decide) rest), h.code,
      (scan_close rest).1] at hregions
    have hinside := length_scan .code inside
    have hlt : a.length < a.length + 1 + inside.length := by omega
    have hle : (scan .code a).length ≤ a.length + 1 + inside.length := by omega
    refine ⟨?_, ?_, hlt, ?_⟩
    · rw [hregions, List.getElem?_append_right hlength.le, hlength, Nat.sub_self]
      rfl
    · rw [hregions, List.getElem?_append_right hle, hlength, Nat.add_assoc,
        Nat.add_sub_cancel_left, Nat.add_comm 1, List.getElem?_cons_succ,
        List.getElem?_append_right hinside.le, hinside, Nat.sub_self]
      rfl
    · have hbetween : ((regions (a ++ '\x7b' :: (inside ++ '\x7d' :: rest))).take
          (a.length + 1 + inside.length)).drop (a.length + 1) = scan .code inside := by
        rw [hregions, ← List.singleton_append, ← List.append_assoc, ← List.append_assoc,
          List.take_left' (by simp [hlength, hinside]; omega), List.drop_left' (by simp [hlength])]
      rw [hbetween]
      exact bracesMatch_of_openAfter h.level

/-! ## From the word to the brace -/

/-- A line end is code and leads to code, or it changes nothing. -/
theorem line_cases {k : Cursor} (hk : k.Opened) (hsettled : k.behindWord = k)
    (behind : Option Char) :
    (k.region '\n' behind = .code ∧ k.next '\n' behind = .code) ∨
      (k ≠ .code ∧ k.region '\n' behind ≠ .code ∧ k.next '\n' behind = k) := by
  cases k with
  | code => exact .inl ⟨rfl, rfl⟩
  | lineComment => exact .inl ⟨rfl, rfl⟩
  | blockComment => exact .inr ⟨Cursor.noConfusion, Region.noConfusion, rfl⟩
  | string q =>
      have hne : '\n' ≠ q := by rintro rfl; cases hk
      by_cases hq : q = '\x60'
      · exact .inr (by simp [Cursor.region, Cursor.next, hq])
      · exact .inl (by simp [Cursor.region, Cursor.next, hq, hne])
  | _ => cases hsettled

/-- Behind a row of line ends and neutral characters the cursor is in code just if it was before or
one of the line ends is code. -/
theorem run_eq_code_iff : ∀ {k : Cursor} {w : List Char}, k.Opened → k.behindWord = k →
    (∀ c ∈ w, c = '\n' ∨ c ∉ marks) →
      (k.run w = .code ↔ k = .code ∨ ('\n', Region.code) ∈ scan k w)
  | k, [], _, _, _ => by simp [Cursor.run, scan]
  | k, c :: w, hk, hsettled, hw => by
      obtain ⟨hc, hrest⟩ := List.forall_mem_cons.mp hw
      rw [Cursor.run, scan, List.mem_cons]
      rcases hc with rfl | hc
      · rcases line_cases hk hsettled w.head? with ⟨hregion, hnext⟩ | ⟨hcode, hregion, hnext⟩
        · rw [hregion, hnext, run_eq_code_iff (k := .code) trivial rfl hrest]
          simp
        · have hne : ('\n', Region.code) ≠ ('\n', k.region '\n' w.head?) := fun h =>
            hregion (Prod.mk.inj h).2.symm
          rw [hnext, run_eq_code_iff hk hsettled hrest]
          simp only [hne, false_or]
      · have hne : ('\n', Region.code) ≠ (c, k.region c w.head?) := by
          rintro h
          rw [← (Prod.mk.inj h).1] at hc
          exact hc (by decide)
        rw [Cursor.next_of_neutral hk hc, hsettled, run_eq_code_iff hk hsettled hrest]
        simp only [hne, false_or]

/-- What the word, a colon and a brace are read as. -/
theorem exists_of_variantsPattern {before : Option Char} {rest : List Char} {n : Nat}
    (h : variantsPattern before rest = some n) :
    ∃ w behind, rest = 'v' :: (w ++ '\x7b' :: behind) ∧ n = w.length + 2 ∧
      ∀ c ∈ w, c = '\n' ∨ c ∉ marks := by
  rw [variantsPattern_eq, namePattern] at h
  split at h
  case isFalse => cases h
  case isTrue =>
    obtain ⟨behind, hbehind, rfl⟩ := Option.map_eq_some_iff.mp h
    obtain ⟨cs, hname, hread⟩ := Option.bind_eq_some_iff.mp hbehind
    obtain rfl := after_eq_some_iff.mp hname
    obtain ⟨blanks, wide, rfl, hblanks, hwide⟩ := readVariants_eq_some_iff.mp hread
    have hblank : ∀ c, isBlank c = true → c = '\n' ∨ c ∉ marks := fun c hc =>
      or_iff_not_imp_left.mpr (not_mem_marks_of_isWhiteSpace (isWhiteSpace_of_isBlank hc))
    refine ⟨variantsName.tail ++ (blanks ++ ':' :: wide), behind, by simp [variantsName], ?_, ?_⟩
    · simp only [variantsName, List.tail_cons, List.length_append, List.length_cons,
        List.length_nil]
      omega
    · refine List.forall_mem_append.mpr ⟨by decide, List.forall_mem_append.mpr ⟨?_, ?_⟩⟩
      · exact fun c hc => hblank c (hblanks c hc)
      · exact List.forall_mem_cons.mpr ⟨by decide, fun c hc => hblank c (hwide c hc)⟩

/-- The text is cut at the word and at the brace that the block is found by. -/
theorem exists_of_found {call text : List Char} {s : Span} (h : found? call text = some s) :
    ∃ front w behind, text = front ++ 'v' :: (w ++ '\x7b' :: behind) ∧ s.start = front.length ∧
      s.length = w.length + 2 ∧ ∀ c ∈ w, c = '\n' ∨ c ∉ marks := by
  obtain ⟨front, rest, rfl, hstart, before, hmatch⟩ : ∃ front rest, text = front ++ rest ∧
      s.start = front.length ∧ ∃ before, variantsPattern before rest = some s.length := by
    rcases Option.or_eq_some_iff.mp h with h | ⟨-, h⟩
    · exact exists_match_of_firstBehind? h (callEnd_le call text)
    · rw [first?_eq_firstBehind?] at h
      exact exists_match_of_firstBehind? h (Nat.zero_le _)
  obtain ⟨w, behind, rfl, hlength, hw⟩ := exists_of_variantsPattern hmatch
  exact ⟨front, w, behind, rfl, hstart, hlength, hw⟩

/-- The match reaches the brace in code: its word is code, or a line end between the word and the
brace is, which then closes the line comment or the string that the word stands in. -/
def ReachesInCode (text : List Char) (s : Span) : Prop :=
  (regions text)[s.start]? = some ('v', .code) ∨
    ∃ n, s.start < n ∧ n + 1 < s.stop ∧ (regions text)[n]? = some ('\n', .code)

/-- The places of a part between two others. -/
theorem exists_getElem?_iff_mem {α : Type} (front : List α) {w back : List α} {x : α} :
    (∃ n, front.length ≤ n ∧ n < front.length + w.length ∧
      (front ++ (w ++ back))[n]? = some x) ↔ x ∈ w := by
  have hplace : ∀ i < w.length, (front ++ (w ++ back))[front.length + i]? = w[i]? := by
    intro i hi
    rw [List.getElem?_append_right (Nat.le_add_right _ _), Nat.add_sub_cancel_left,
      List.getElem?_append_left hi]
  rw [List.mem_iff_getElem?]
  constructor
  · rintro ⟨n, hle, hlt, hn⟩
    obtain ⟨i, rfl⟩ := Nat.exists_eq_add_of_le hle
    exact ⟨i, by rw [← hplace i (by omega), hn]⟩
  · rintro ⟨i, hi⟩
    have hlt : i < w.length := (List.getElem?_eq_some_iff.mp hi).1
    exact ⟨front.length + i, Nat.le_add_right _ _, by omega, by rw [hplace i hlt, hi]⟩

section

variable {front w : List Char}

/-- The first letter of the word belongs to what the cursor stands in, and the rest of the match is
divided from there. -/
theorem regions_match (front w behind : List Char) :
    regions (front ++ 'v' :: (w ++ '\x7b' :: behind))
        = (scan .code front ++ [('v', (Cursor.code.run front).wordRegion)])
          ++ (scan (Cursor.code.run front).behindWord w
            ++ scan ((Cursor.code.run front).behindWord.run w) ('\x7b' :: behind)) ∧
      Cursor.code.run (front ++ 'v' :: w) = (Cursor.code.run front).behindWord.run w := by
  have hopened : (Cursor.code.run front).Opened := Cursor.Opened.run (k := .code) trivial front
  have hv : 'v' ∉ marks := by decide
  constructor
  · rw [regions_eq_scan, scan_append (startsFresh_cons (by decide) _), scan,
      Cursor.region_of_neutral hv, Cursor.next_of_neutral hopened hv,
      scan_append (startsFresh_open behind), List.append_assoc, List.singleton_append]
  · rw [Cursor.run_append (startsFresh_cons (by decide) w), Cursor.run,
      Cursor.next_of_neutral hopened hv]

theorem reachesInCode_iff (hw : ∀ c ∈ w, c = '\n' ∨ c ∉ marks) {behind : List Char} {s : Span}
    (hstart : s.start = front.length) (hlength : s.length = w.length + 2) :
    ReachesInCode (front ++ 'v' :: (w ++ '\x7b' :: behind)) s ↔
      Cursor.code.run (front ++ 'v' :: w) = .code := by
  obtain ⟨hregions, hrun⟩ := regions_match front w behind
  have hopened : (Cursor.code.run front).Opened := Cursor.Opened.run (k := .code) trivial front
  generalize Cursor.code.run front = k at hregions hrun hopened
  have hfront := length_scan .code front
  have hletter : (regions (front ++ 'v' :: (w ++ '\x7b' :: behind)))[s.start]?
      = some ('v', k.wordRegion) := by
    rw [hregions, List.append_assoc, List.getElem?_append_right (hfront.trans hstart.symm).le,
      hfront, hstart, Nat.sub_self]
    rfl
  have hline : (∃ n, s.start < n ∧ n + 1 < s.stop ∧
      (regions (front ++ 'v' :: (w ++ '\x7b' :: behind)))[n]? = some ('\n', .code)) ↔
        ('\n', Region.code) ∈ scan k.behindWord w := by
    rw [hregions, ← exists_getElem?_iff_mem (scan .code front ++ [('v', k.wordRegion)])]
    refine exists_congr fun n => ?_
    rw [List.length_append, List.length_singleton, hfront, length_scan, Span.stop, hstart, hlength,
      ← and_assoc, ← and_assoc]
    refine and_congr_left fun _ => ?_
    omega
  have hword : k.wordRegion = .code ↔ k.behindWord = .code := by
    cases k <;> simp [Cursor.wordRegion, Cursor.behindWord]
  rw [ReachesInCode, hletter, hline, hrun,
    run_eq_code_iff hopened.behindWord (Cursor.behindWord_behindWord k) hw, ← hword]
  simp

end

/-- The block that is found is one if the text is divided from its opening brace on. Divided from
the start of the text, it is one if and only if the match that it is found by reaches its brace in
code. -/
theorem inCode_variantBlock_iff {call text : List Char} {b : Block}
    (h : variantBlock? call text = some b) :
    InCode (text.drop b.opening) ⟨0, b.closing - b.opening⟩ ∧
      ∃ s, found? call text = some s ∧ s.stop = b.opening + 1 ∧
        (InCode text b ↔ ReachesInCode text s) := by
  rw [variantBlock?_eq_found] at h
  obtain ⟨s, hs, h⟩ := Option.bind_eq_some_iff.mp h
  obtain ⟨closing, hclosing, rfl⟩ := Option.map_eq_some_iff.mp h
  obtain ⟨front, w, behind, htext, hstart, hlength, hw⟩ := exists_of_found hs
  have hstop : s.stop = (front ++ 'v' :: w).length + 1 := by
    rw [Span.stop, hstart, hlength, List.length_append, List.length_cons, Nat.add_assoc]
  have hopening : s.stop - 1 = (front ++ 'v' :: w).length := by rw [hstop, Nat.add_sub_cancel]
  have hcut : text = (front ++ 'v' :: w) ++ '\x7b' :: behind := by
    rw [htext, List.append_assoc, List.cons_append]
  have hbrace : text[s.stop - 1]? = some '\x7b' := by
    rw [hcut, hopening, List.getElem?_append_right le_rfl, Nat.sub_self]
    rfl
  have hclosed := closed_of_matchingBrace hclosing hbrace
  obtain ⟨a, rest, hobject, ha, hclosing⟩ := exists_object hclosing hbrace
  obtain rfl : a = front ++ 'v' :: w :=
    (List.append_inj (hobject.symm.trans hcut) (ha.trans hopening)).1
  generalize between text (s.stop - 1) closing = inside at hobject hclosing hclosed
  rw [← ha] at hclosing ⊢
  refine ⟨?_, s, hs, hstop, ?_⟩
  · have hdrop : text.drop (front ++ 'v' :: w).length = '\x7b' :: (inside ++ '\x7d' :: rest) := by
      rw [hobject, List.drop_left]
    have hlast : closing - (front ++ 'v' :: w).length = 0 + 1 + inside.length := by omega
    have hfrom : InCode ('\x7b' :: (inside ++ '\x7d' :: rest)) ⟨0, 0 + 1 + inside.length⟩ :=
      (inCode_iff (a := []) hclosed).mpr rfl
    rwa [← hdrop, ← hlast] at hfrom
  · rw [hclosing, hobject, inCode_iff hclosed, ← hobject, htext,
      reachesInCode_iff hw hstart hlength]

/-- A block behind a string that a line end closes. -/
def unclosedText : List Char := "import 'variants\n: \x7b sm: \x7b\x7d \x7d".toList

theorem inCode_variantBlock_iff_unclosed :
    variantBlock? "cva".toList unclosedText = some ⟨19, 28⟩ ∧ InCode unclosedText ⟨19, 28⟩ := by
  have hblock : variantBlock? "cva".toList unclosedText = some ⟨19, 28⟩ := by decide
  obtain ⟨-, s, hs, -, hiff⟩ := inCode_variantBlock_iff hblock
  have hfound : found? "cva".toList unclosedText = some ⟨8, 12⟩ := by decide
  obtain rfl : s = ⟨8, 12⟩ := Option.some.inj (hs.symm.trans hfound)
  exact ⟨hblock, hiff.mpr (.inr ⟨16, by decide⟩)⟩

/-- A comment that looks like a block. -/
def commentText : List Char := "// variants: \x7b\x7d\n".toList

/-- The same comment in front of a block. -/
def commentedText : List Char :=
  "cva('', \x7b\n// variants: \x7b\x7d\nvariants: \x7b\x7d\n\x7d)".toList

/-- What looks like a block in a comment is taken for the block. -/
theorem not_inCode_variantBlock :
    (∃ b, variantBlock? Policy.builtin.variantCall.toList commentText = some b ∧
        ¬InCode commentText b) ∧
      ∃ b, variantBlock? Policy.builtin.variantCall.toList commentedText = some b ∧
        ¬InCode commentedText b := by
  have halone : (regions commentText)[13]? = some ('\x7b', .comment) := by decide
  have hbefore : (regions commentedText)[23]? = some ('\x7b', .comment) := by decide
  refine ⟨⟨⟨13, 14⟩, by decide, fun h => ?_⟩, ⟨23, 24⟩, by decide, fun h => ?_⟩
  · exact absurd (halone.symm.trans h.opening) (by decide)
  · exact absurd (hbefore.symm.trans h.opening) (by decide)

end DesignTokens.Source
