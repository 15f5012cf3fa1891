import DesignTokens.Proofs.Source.Closed

/-!
# Finding the variant block

The variant block is found by two patterns, for the call and for the word
`variants`, whose matches come to their end with a bracket (`Ends`). Neither
takes a comma or a bracket before that (`Runs`), so no match reaches over a comma,
an opening brace, or the white space in front of a closing one (`Parted`). What is
put in at such a place, and starts no match of its own (`NoStart`), leaves a
variant block in front of it where it was (`found_insert`). So does anything if
the block stands behind a variant call (`found_of_blockBehindCall`).
-/

namespace DesignTokens.Source

open Text

/-! ## Matches and their ends -/

/-- Where a first match starts and what it takes. -/
theorem exists_of_firstFrom? {p : Pattern} {s : Span} :
    ∀ {text : List Char} {before : Option Char} {pos : Nat}, p.firstFrom? before pos text = some s →
      ∃ a b, text = a ++ b ∧ s.start = pos + a.length ∧ ∃ d, p d b = some s.length
  | [], _, _, h => by cases h
  | c :: cs, before, pos, h => by
      rw [Pattern.firstFrom?] at h
      cases hp : p before (c :: cs) with
      | some n =>
          rw [hp] at h
          obtain rfl := Option.some.inj h
          exact ⟨[], c :: cs, rfl, rfl, before, hp⟩
      | none =>
          rw [hp] at h
          obtain ⟨a, b, rfl, hstart, hmatch⟩ := exists_of_firstFrom? h
          exact ⟨c :: a, b, rfl, by rw [hstart, List.length_cons]; omega, hmatch⟩

/-- The text is cut where a match starts, wherever the search has started. -/
theorem exists_match_of_firstBehind? {p : Pattern} {text : List Char} {pos : Nat} {s : Span}
    (h : p.firstBehind? text pos = some s) (hpos : pos ≤ text.length) :
    ∃ a b, text = a ++ b ∧ s.start = a.length ∧ ∃ d, p d b = some s.length := by
  obtain ⟨a, b, hab, hstart, hmatch⟩ := exists_of_firstFrom? h
  refine ⟨text.take pos ++ a, b, ?_, ?_, hmatch⟩
  · rw [List.append_assoc, ← hab, List.take_append_drop]
  · rw [hstart, List.length_append, List.length_take_of_le hpos]

/-- A pattern whose matches come to their end with the given character. -/
def Ends (last : Char) (p : Pattern) : Prop :=
  ∀ before rest n, p before rest = some n →
    ∃ w behind, rest = w ++ last :: behind ∧ n = w.length + 1

/-- The end of a match, wherever the search has started. -/
theorem Ends.exists_of_firstBehind? {last : Char} {p : Pattern} (hp : Ends last p)
    {text : List Char} {pos : Nat} {s : Span} (h : p.firstBehind? text pos = some s)
    (hpos : pos ≤ text.length) :
    ∃ a b, text = a ++ last :: b ∧ s.stop = a.length + 1 := by
  obtain ⟨a, b, rfl, hstart, before, hmatch⟩ := exists_match_of_firstBehind? h hpos
  obtain ⟨w, behind, rfl, hlength⟩ := hp before b s.length hmatch
  refine ⟨a ++ w, behind, (List.append_assoc ..).symm, ?_⟩
  rw [Span.stop, hstart, hlength, List.length_append, Nat.add_assoc]

theorem after_skipBlanks_iff {x : Char} (hx : isBlank x = false) {cs behind : List Char} :
    after? [x] (skipBlanks cs) = some behind ↔
      ∃ blanks, cs = blanks ++ x :: behind ∧ ∀ c ∈ blanks, isBlank c = true := by
  rw [after_eq_some_iff, List.singleton_append]
  constructor
  · intro h
    obtain ⟨blanks, hcs, hall⟩ := exists_skipBlanks cs
    exact ⟨blanks, h ▸ hcs, hall⟩
  · rintro ⟨blanks, rfl, hall⟩
    rw [skipBlanks, List.dropWhile_append_of_pos hall, List.dropWhile_cons_of_neg (by simp [hx])]

theorem ends_namePattern {name : List Char} {read : List Char → Option (List Char)} {last : Char}
    (hread : ∀ cs behind, read cs = some behind → ∃ w, cs = w ++ last :: behind) :
    Ends last (namePattern name read) := by
  intro before rest n h
  rw [namePattern] at h
  split at h
  case isFalse => cases h
  case isTrue =>
    obtain ⟨behind, hbehind, rfl⟩ := Option.map_eq_some_iff.mp h
    obtain ⟨cs, hname, hcs⟩ := Option.bind_eq_some_iff.mp hbehind
    obtain ⟨w, rfl⟩ := hread cs behind hcs
    obtain rfl := after_eq_some_iff.mp hname
    refine ⟨name ++ w, behind, by rw [List.append_assoc], ?_⟩
    simp only [List.length_append, List.length_cons]
    omega

theorem ends_callPattern (call : List Char) : Ends '(' (callPattern call) := by
  rw [callPattern_eq]
  refine ends_namePattern fun cs behind h => ?_
  obtain ⟨blanks, hcs, -⟩ := (after_skipBlanks_iff (by decide)).mp h
  exact ⟨blanks, hcs⟩

/-- What is read behind the word `variants`: blanks, a colon, blanks and a brace. -/
theorem readVariants_eq_some_iff {cs behind : List Char} : readVariants cs = some behind ↔
    ∃ blanks wide, cs = blanks ++ ':' :: (wide ++ '\x7b' :: behind) ∧
      (∀ c ∈ blanks, isBlank c = true) ∧ ∀ c ∈ wide, isBlank c = true := by
  rw [readVariants, Option.bind_eq_some_iff]
  constructor
  · rintro ⟨more, hcolon, hbrace⟩
    obtain ⟨blanks, rfl, hblanks⟩ := (after_skipBlanks_iff (by decide)).mp hcolon
    obtain ⟨wide, rfl, hwide⟩ := (after_skipBlanks_iff (by decide)).mp hbrace
    exact ⟨blanks, wide, rfl, hblanks, hwide⟩
  · rintro ⟨blanks, wide, rfl, hblanks, hwide⟩
    exact ⟨_, (after_skipBlanks_iff (by decide)).mpr ⟨blanks, rfl, hblanks⟩,
      (after_skipBlanks_iff (by decide)).mpr ⟨wide, rfl, hwide⟩⟩

theorem ends_variantsPattern : Ends '\x7b' variantsPattern := by
  rw [variantsPattern_eq]
  refine ends_namePattern fun cs behind h => ?_
  obtain ⟨blanks, wide, rfl, -, -⟩ := readVariants_eq_some_iff.mp h
  exact ⟨blanks ++ ':' :: wide, by rw [List.append_assoc, List.cons_append]⟩

theorem first?_eq_firstBehind? (p : Pattern) (text : List Char) :
    p.first? text = p.firstBehind? text 0 := rfl

/-! ## The block -/

/-- The place behind the first variant call, or the start of the text. -/
def callEnd (call text : List Char) : Nat := (((callPattern call).first? text).map Span.stop).getD 0

theorem callEnd_le (call text : List Char) : callEnd call text ≤ text.length := by
  rw [callEnd]
  cases h : (callPattern call).first? text with
  | none => exact Nat.zero_le _
  | some s =>
      rw [first?_eq_firstBehind?] at h
      obtain ⟨a, b, rfl, hstop⟩ :=
        (ends_callPattern call).exists_of_firstBehind? h (Nat.zero_le _)
      rw [Option.map_some, Option.getD_some, hstop, List.length_append, List.length_cons]
      omega

/-- The text is cut at the brace that a match for the variants ends with. -/
theorem exists_variants {call text : List Char} {s : Span}
    (h : (variantsPattern.firstBehind? text (callEnd call text)).or (variantsPattern.first? text)
      = some s) : ∃ a b, text = a ++ '\x7b' :: b ∧ s.stop = a.length + 1 := by
  rcases Option.or_eq_some_iff.mp h with h | ⟨-, h⟩
  · exact ends_variantsPattern.exists_of_firstBehind? h (callEnd_le call text)
  · rw [first?_eq_firstBehind?] at h
    exact ends_variantsPattern.exists_of_firstBehind? h (Nat.zero_le _)

theorem opening_of_variantBlock {call text : List Char} {b : Block}
    (h : variantBlock? call text = some b) : text[b.opening]? = some '\x7b' := by
  rw [variantBlock?_eq] at h
  obtain ⟨s, hs, h⟩ := Option.bind_eq_some_iff.mp h
  obtain ⟨closing, -, rfl⟩ := Option.map_eq_some_iff.mp h
  obtain ⟨front, rest, rfl, hstop⟩ := exists_variants hs
  simp [hstop]

/-! ## Matches that are cut -/

/-- A pattern that reads characters that are neither commas nor brackets, the first of them one of
an identifier, up to the given one and no further. -/
structure Runs (last : Char) (p : Pattern) : Prop where
  cut : ∀ before rest n, p before rest = some n →
    ∃ w behind, rest = w ++ last :: behind ∧ n = w.length + 1 ∧
      (∀ c ∈ w, isPlain c = true ∧ c ≠ ',') ∧ ∀ behind', p before (w ++ last :: behind') = some n
  start : ∀ before c cs, isIdent c = false → p before (c :: cs) = none

theorem runs_namePattern {name : List Char} {read : List Char → Option (List Char)} {last : Char}
    (hname : IsName name) (hread : ∀ cs behind, read cs = some behind →
      ∃ w, cs = w ++ last :: behind ∧ (∀ c ∈ w, isPlain c = true ∧ c ≠ ',') ∧
        ∀ behind', read (w ++ last :: behind') = some behind') :
    Runs last (namePattern name read) where
  cut := by
    intro before rest n h
    rw [namePattern] at h
    split at h
    case isFalse => cases h
    case isTrue hboundary =>
      obtain ⟨behind, hbehind, rfl⟩ := Option.map_eq_some_iff.mp h
      obtain ⟨cs, hcs, hrest⟩ := Option.bind_eq_some_iff.mp hbehind
      obtain ⟨w, rfl, hw, hagain⟩ := hread cs behind hrest
      obtain rfl := after_eq_some_iff.mp hcs
      refine ⟨name ++ w, behind, (List.append_assoc ..).symm, ?_, fun c hc => ?_,
        fun behind' => ?_⟩
      · simp only [List.length_append, List.length_cons]
        omega
      · rcases List.mem_append.mp hc with hc | hc
        · exact ⟨isPlain_of_isIdent (hname.all c hc), ne_of_isIdent (hname.all c hc) (by decide)⟩
        · exact hw c hc
      · rw [List.head?_append_of_ne_nil _ hname.ne_nil] at hboundary
        rw [namePattern, List.append_assoc, List.head?_append_of_ne_nil _ hname.ne_nil,
          if_pos hboundary, after_eq_some_iff.mpr rfl, Option.bind_some, hagain, Option.map_some]
        simp only [List.length_append, List.length_cons]
        congr 1
        omega
  start := by
    intro before c cs hc
    obtain ⟨n, ns, rfl, hn⟩ := hname.start
    have hne : n ≠ c := ne_of_isIdent (isIdent_of_isIdentStart hn) hc
    simp [namePattern, after?, hne]

theorem plain_of_isBlank {blanks : List Char} (h : ∀ c ∈ blanks, isBlank c = true) :
    ∀ c ∈ blanks, isPlain c = true ∧ c ≠ ',' :=
  fun c hc => ⟨isPlain_of_isBlank (h c hc), ne_comma_of_isBlank (h c hc)⟩

theorem runs_callPattern {call : List Char} (hcall : IsName call) :
    Runs '(' (callPattern call) := by
  rw [callPattern_eq]
  refine runs_namePattern hcall fun cs behind h => ?_
  obtain ⟨blanks, hcs, hblanks⟩ := (after_skipBlanks_iff (by decide)).mp h
  exact ⟨blanks, hcs, plain_of_isBlank hblanks,
    fun behind' => (after_skipBlanks_iff (by decide)).mpr ⟨blanks, rfl, hblanks⟩⟩

theorem runs_variantsPattern : Runs '\x7b' variantsPattern := by
  rw [variantsPattern_eq]
  refine runs_namePattern isName_variantsName fun cs behind h => ?_
  obtain ⟨blanks, wide, rfl, hblanks, hwide⟩ := readVariants_eq_some_iff.mp h
  refine ⟨blanks ++ ':' :: wide, by simp, fun c hc => ?_, fun behind' => ?_⟩
  · rcases List.mem_append.mp hc with hc | hc
    · exact plain_of_isBlank hblanks c hc
    · rcases List.mem_cons.mp hc with rfl | hc
      · decide
      · exact plain_of_isBlank hwide c hc
  · exact readVariants_eq_some_iff.mpr ⟨blanks, wide, by simp, hblanks, hwide⟩

/-! ## Places that no match reaches over -/

/-- No match that starts in the first part reaches into the second one. -/
def Parted (last : Char) (front back : List Char) : Prop :=
  ∀ u v w behind, front = u ++ v → v ≠ [] → (∀ c ∈ w, isPlain c = true ∧ c ≠ ',') →
    v ++ back = w ++ last :: behind → ∃ more, v = w ++ last :: more

theorem Parted.right {last : Char} (front : List Char) {more back : List Char}
    (h : Parted last (front ++ more) back) : Parted last more back :=
  fun u v w behind hv => h (front ++ u) v w behind (by rw [hv, List.append_assoc])

/-- What a match takes of the second part, if it reaches that far. -/
theorem exists_of_crossing {last : Char} {v w back behind : List Char}
    (h : v ++ back = w ++ last :: behind) :
    (∃ more, v = w ++ last :: more) ∨ ∃ rest, w = v ++ rest ∧ back = rest ++ last :: behind := by
  rcases List.append_eq_append_iff.mp h with ⟨rest, hw, hback⟩ | ⟨rest, hv, hback⟩
  · exact .inr ⟨rest, hw, hback⟩
  · cases rest with
    | nil => exact .inr ⟨[], by simpa using hv.symm, by simpa using hback.symm⟩
    | cons c rest =>
        obtain ⟨rfl, -⟩ := List.cons.inj hback
        exact .inl ⟨rest, hv⟩

theorem parted_of_last {last c : Char} {front : List Char} (hc : ¬(isPlain c = true ∧ c ≠ ','))
    (hlast : front.getLast? = some c) (back : List Char) : Parted last front back := by
  intro u v w behind hfront hv hw heq
  refine (exists_of_crossing heq).resolve_right ?_
  rintro ⟨rest, rfl, -⟩
  rw [hfront, List.getLast?_append_of_ne_nil _ hv] at hlast
  exact hc (hw c (List.mem_append_left rest (List.mem_of_getLast? hlast)))

theorem parted_of_head {last c : Char} (hc : ¬(isPlain c = true ∧ c ≠ ',')) (hne : last ≠ c)
    (front back : List Char) : Parted last front (c :: back) := by
  intro u v w behind _ _ hw heq
  refine (exists_of_crossing heq).resolve_right ?_
  rintro ⟨rest, rfl, hback⟩
  cases rest with
  | nil => exact hne (List.cons.inj hback).1.symm
  | cons d rest =>
      obtain ⟨rfl, -⟩ := List.cons.inj hback
      exact hc (hw c (by simp))

theorem parted_of_closing {last : Char} (hne : last ≠ '\x7d') (hlast : isWhiteSpace last = false)
    (front : List Char) {blank : List Char} (hblank : ∀ c ∈ blank, isWhiteSpace c = true)
    (rest : List Char) : Parted last front (blank ++ '\x7d' :: rest) := by
  intro u v w behind _ _ hw heq
  refine (exists_of_crossing heq).resolve_right ?_
  rintro ⟨taken, rfl, hback⟩
  have hbrace : '\x7d' ∉ taken := fun hmem =>
    absurd (hw _ (List.mem_append_right v hmem)).1 (by decide)
  rcases exists_of_crossing hback with ⟨more, hmore⟩ | ⟨more, rfl, hmore⟩
  · rw [hblank last (by rw [hmore]; simp)] at hlast
    cases hlast
  · cases more with
    | nil => exact hne (List.cons.inj hmore).1.symm
    | cons c more =>
        obtain ⟨rfl, -⟩ := List.cons.inj hmore
        exact hbrace (by simp)

theorem noIdent_closing {blank : List Char} (hblank : ∀ c ∈ blank, isWhiteSpace c = true)
    (rest : List Char) : NoIdent (blank ++ '\x7d' :: rest).head? := by
  cases blank with
  | nil =>
      rintro c ⟨⟩
      decide
  | cons b bs =>
      rintro c ⟨⟩
      exact isIdent_of_isWhiteSpace (hblank b (List.mem_cons_self ..))

/-! ## Searching over an insertion -/

section

variable {last : Char} {p : Pattern} {front back back' : List Char}

theorem Runs.eq_of_parted (hp : Runs last p) (h : Parted last front back)
    (h' : Parted last front back') {u v : List Char} (hfront : front = u ++ v) (hv : v ≠ [])
    (before : Option Char) : p before (v ++ back) = p before (v ++ back') := by
  have hone : ∀ {x y : List Char}, Parted last front x → ∀ n, p before (v ++ x) = some n →
      p before (v ++ y) = some n := by
    intro x y hx n hn
    obtain ⟨w, behind, hrest, -, hw, hagain⟩ := hp.cut _ _ _ hn
    obtain ⟨more, rfl⟩ := hx u v w behind hfront hv hw hrest
    rw [List.append_assoc, List.cons_append]
    exact hagain (more ++ y)
  exact Option.ext fun n => ⟨hone h n, hone h' n⟩

theorem Runs.length_pos (hp : Runs last p) {before : Option Char} {rest : List Char} {n : Nat}
    (h : p before rest = some n) : 0 < n := by
  obtain ⟨w, -, -, rfl, -⟩ := hp.cut _ _ _ h
  exact Nat.succ_pos _

/-- A search finds the same match in the first part, or it goes on behind that. -/
theorem Runs.firstFrom?_cases (hp : Runs last p) : ∀ {front : List Char}, Parted last front back →
    Parted last front back' → ∀ (before : Option Char) (pos : Nat),
      (∃ s, p.firstFrom? before pos (front ++ back) = some s ∧
        p.firstFrom? before pos (front ++ back') = some s ∧ s.stop ≤ pos + front.length) ∨
      (p.firstFrom? before pos (front ++ back)
          = p.firstFrom? (front.getLast?.or before) (pos + front.length) back ∧
        p.firstFrom? before pos (front ++ back')
          = p.firstFrom? (front.getLast?.or before) (pos + front.length) back')
  | [], _, _, _, _ => .inr ⟨rfl, rfl⟩
  | c :: front, h, h', before, pos => by
      have hsame : p before (c :: (front ++ back)) = p before (c :: (front ++ back')) :=
        hp.eq_of_parted h h' (u := []) rfl (List.cons_ne_nil c front) before
      rw [List.cons_append, List.cons_append, Pattern.firstFrom?, Pattern.firstFrom?, ← hsame]
      cases hc : p before (c :: (front ++ back)) with
      | some n =>
          refine .inl ⟨_, rfl, rfl, ?_⟩
          obtain ⟨w, behind, hrest, rfl, hw, -⟩ := hp.cut _ _ _ hc
          obtain ⟨more, hmore⟩ := h [] _ w behind rfl (List.cons_ne_nil c front) hw hrest
          rw [hmore, List.length_append, List.length_cons, Span.stop]
          dsimp only
          omega
      | none =>
          have ih := Runs.firstFrom?_cases hp (h.right [c]) (h'.right [c])
            (some c) (pos + 1)
          have hlast : (c :: front).getLast?.or before = front.getLast?.or (some c) := by
            rw [List.getLast?_cons]
            cases front.getLast? <;> rfl
          rw [hlast, List.length_cons, Nat.add_comm front.length, ← Nat.add_assoc]
          exact ih

theorem firstFrom?_add (p : Pattern) (k : Nat) : ∀ (text : List Char) (before : Option Char)
    (pos : Nat), p.firstFrom? before (pos + k) text
      = (p.firstFrom? before pos text).map fun s => ⟨s.start + k, s.length⟩
  | [], _, _ => rfl
  | c :: cs, before, pos => by
      rw [Pattern.firstFrom?, Pattern.firstFrom?]
      cases p before (c :: cs) with
      | some n => rfl
      | none =>
          rw [← firstFrom?_add p k cs, Nat.add_right_comm]

/-- No match starts in the first part or right behind it, given the character in front. -/
def NoStart (p : Pattern) (before : Option Char) (front back : List Char) : Prop :=
  ∀ u v, front = u ++ v → p (u.getLast?.or before) (v ++ back) = none

theorem NoStart.append {before : Option Char} {a b : List Char}
    (ha : NoStart p before a (b ++ back))
    (hb : NoStart p (a.getLast?.or before) b back) : NoStart p before (a ++ b) back := by
  intro u v huv
  rcases List.append_eq_append_iff.mp huv with ⟨c, rfl, hc⟩ | ⟨c, rfl, rfl⟩
  · have hlast : (a ++ c).getLast?.or before = c.getLast?.or (a.getLast?.or before) := by
      rw [List.getLast?_append, Option.or_assoc]
    rw [hlast]
    exact hb c v hc
  · rw [List.append_assoc]
    exact ha u c rfl

/-- No match starts where no identifier goes on. -/
theorem Runs.eq_none (hp : Runs last p) (hback : NoIdent back.head?) (before : Option Char) :
    p before back = none := by
  cases back with
  | nil =>
      by_contra hsome
      obtain ⟨n, hn⟩ := Option.ne_none_iff_exists'.mp hsome
      obtain ⟨w, behind, hrest, -⟩ := hp.cut _ _ _ hn
      simp at hrest
  | cons c back => exact hp.start _ c back (hback c rfl)

/-- No match starts at characters of no identifier. -/
theorem Runs.noStart_of_noIdent (hp : Runs last p) (hfront : ∀ c ∈ front, isIdent c = false)
    {before : Option Char} (hend : p (front.getLast?.or before) back = none) :
    NoStart p before front back := by
  intro u v huv
  cases v with
  | nil =>
      rw [List.append_nil] at huv
      rwa [← huv]
  | cons c v => exact hp.start _ c (v ++ back) (hfront c (by rw [huv]; simp))

/-- Nothing starts in a gap of such characters in front of a part where nothing starts. -/
theorem Runs.noStart_gap (hp : Runs last p) {gap : List Char} (hgap : ∀ c ∈ gap, isIdent c = false)
    {before : Option Char} (hfront : NoStart p (gap.getLast?.or before) front back) :
    NoStart p before (gap ++ front) back :=
  .append (hp.noStart_of_noIdent hgap (hfront [] front rfl)) hfront

/-- Quotes around a text without a match have none in them, if the opening one counts for
nothing. -/
theorem Runs.noStart_quoted (hp : Runs last p) (hlast : last ≠ '"')
    (hquote : ∀ rest, p (some '"') rest = p none rest) {cs : List Char}
    (hnone : p.occurs cs = false) (hback : NoIdent back.head?) (before : Option Char) :
    NoStart p before ('"' :: (cs ++ ['"'])) back := by
  have hmark : ∀ c ∈ ['"'], isIdent c = false := by decide
  have hinside : NoStart p (some '"') cs ('"' :: back) := by
    intro u v huv
    cases v with
    | nil => exact hp.start _ _ _ (by decide)
    | cons c v =>
        by_contra hsome
        obtain ⟨n, hn⟩ := Option.ne_none_iff_exists'.mp hsome
        obtain ⟨w, behind, hrest, -, hw, hagain⟩ := hp.cut _ _ _ hn
        obtain ⟨more, hmore⟩ := parted_of_head (by decide) hlast cs back u (c :: v) w behind huv
          (List.cons_ne_nil c v) hw hrest
        have hfirst : p.first? cs = none :=
          Option.isNone_iff_eq_none.mp (Option.isSome_eq_false_iff.mp hnone)
        have hnone' := Pattern.firstFrom?_eq_none_iff_forall.mp hfirst u (c :: v) huv
          (List.cons_ne_nil c v)
        have hsame : p (u.getLast?.or (some '"')) (c :: v) = p (u.getLast?.or none) (c :: v) := by
          cases u.getLast? with
          | none => exact hquote (c :: v)
          | some d => rfl
        rw [hnone', hmore, hagain more] at hsame
        cases hsame
  exact hp.noStart_gap hmark (hinside.append (hp.noStart_of_noIdent hmark (hp.eq_none hback _)))

/-- Where no identifier goes on, the character in front does not count. -/
theorem Runs.firstFrom?_before (hp : Runs last p) (hback : NoIdent back.head?)
    (before before' : Option Char) (pos : Nat) :
    p.firstFrom? before pos back = p.firstFrom? before' pos back := by
  cases back with
  | nil => rfl
  | cons c back =>
      rw [Pattern.firstFrom?, Pattern.firstFrom?, hp.start _ _ _ (hback c rfl),
        hp.start _ _ _ (hback c rfl)]

/-- Behind a part without a match, a search finds what it finds without that part. -/
theorem Runs.firstFrom?_insert (hp : Runs last p) {before : Option Char} {x : List Char}
    (hx : NoStart p before x back) (hback : NoIdent back.head?) (pos : Nat) :
    p.firstFrom? before pos (x ++ back)
      = (p.firstFrom? before pos back).map fun s => ⟨s.start + x.length, s.length⟩ := by
  rw [firstFrom?_append hx, hp.firstFrom?_before hback _ before, firstFrom?_add]

theorem Runs.lt_stop (hp : Runs last p) {before : Option Char} {pos : Nat} {text : List Char}
    {s : Span} (h : p.firstFrom? before pos text = some s) : pos < s.stop := by
  obtain ⟨a, b, -, hstart, d, hmatch⟩ := exists_of_firstFrom? h
  have := hp.length_pos hmatch
  rw [Span.stop, hstart]
  omega

end

/-- A search from a place of the first part finds the same match there, or it goes on behind. -/
theorem Runs.firstBehind?_cases {last : Char} {p : Pattern} (hp : Runs last p)
    {front back back' : List Char} (h : Parted last front back) (h' : Parted last front back')
    {start : Nat} (hstart : start ≤ front.length) :
    (∃ s, p.firstBehind? (front ++ back) start = some s ∧
        p.firstBehind? (front ++ back') start = some s ∧ s.stop ≤ front.length) ∨
      (p.firstBehind? (front ++ back) start = p.firstFrom? front.getLast? front.length back ∧
        p.firstBehind? (front ++ back') start
          = p.firstFrom? front.getLast? front.length back') := by
  obtain ⟨a, b, rfl, rfl⟩ : ∃ a b, front = a ++ b ∧ a.length = start :=
    ⟨_, _, (List.take_append_drop start front).symm, List.length_take_of_le hstart⟩
  have hcases := hp.firstFrom?_cases (h.right _) (h'.right _) a.getLast? a.length
  rw [List.getLast?_append, List.length_append]
  simpa only [Pattern.firstBehind?, List.append_assoc, List.take_left, List.drop_left] using hcases

/-! ## The block behind an insertion -/

/-- The match that the block is found by. -/
def found? (call text : List Char) : Option Span :=
  (variantsPattern.firstBehind? text (callEnd call text)).or (variantsPattern.first? text)

theorem variantBlock?_eq_found (call text : List Char) :
    variantBlock? call text = (found? call text).bind fun found =>
      (matchingBrace? text (found.stop - 1)).map fun closing => ⟨found.stop - 1, closing⟩ :=
  variantBlock?_eq call text

/-- A part that is put in between two others where no match reaches over, and starts no call. -/
structure PutIn (call front x back : List Char) : Prop where
  parted : ∀ last, last = '(' ∨ last = '\x7b' →
    Parted last front back ∧ Parted last front (x ++ back)
  no_call : NoStart (callPattern call) front.getLast? x back
  behind : NoIdent back.head?

namespace PutIn

variable {call front x back : List Char}

/-- A call in front of the insertion stays where it is, and one behind it is moved. -/
theorem callEnd_cases (h : PutIn call front x back) (hcall : IsName call) :
    (callEnd call (front ++ back) ≤ front.length ∧
        callEnd call (front ++ (x ++ back)) = callEnd call (front ++ back)) ∨
      (front.length < callEnd call (front ++ back) ∧
        callEnd call (front ++ (x ++ back)) = callEnd call (front ++ back) + x.length) := by
  have hp := runs_callPattern hcall
  obtain ⟨hback, hinsert⟩ := h.parted '(' (.inl rfl)
  have hcases := hp.firstBehind?_cases hback hinsert (Nat.zero_le _)
  rw [callEnd, callEnd, first?_eq_firstBehind?, first?_eq_firstBehind?]
  rcases hcases with ⟨s, hs, hs', hstop⟩ | ⟨hs, hs'⟩
  · rw [hs, hs']
    exact .inl ⟨hstop, rfl⟩
  · rw [hs, hs', hp.firstFrom?_insert h.no_call h.behind]
    cases hfound : (callPattern call).firstFrom? front.getLast? front.length back with
    | none => exact .inl ⟨Nat.zero_le _, rfl⟩
    | some s =>
        refine .inr ⟨hp.lt_stop hfound, ?_⟩
        simp only [Option.map_some, Option.getD_some, Span.stop]
        omega

theorem firstBehind?_of_lt (p : Pattern) {start : Nat} (hstart : front.length < start)
    (hle : start ≤ (front ++ back).length) :
    p.firstBehind? (front ++ (x ++ back)) (start + x.length)
      = (p.firstBehind? (front ++ back) start).map fun s => ⟨s.start + x.length, s.length⟩ := by
  obtain ⟨a, b, rfl, ha⟩ : ∃ a b, back = a ++ b ∧ front.length + a.length = start := by
    rw [List.length_append] at hle
    refine ⟨_, _, (List.take_append_drop (start - front.length) back).symm, ?_⟩
    rw [List.length_take_of_le (by omega)]
    omega
  have hne : a ≠ [] := by
    rintro rfl
    rw [List.length_nil] at ha
    omega
  have hcut : front ++ (a ++ b) = (front ++ a) ++ b ∧ start = (front ++ a).length :=
    ⟨(List.append_assoc ..).symm, by rw [List.length_append, ha]⟩
  have hinsert : front ++ (x ++ (a ++ b)) = (front ++ (x ++ a)) ++ b ∧
      start + x.length = (front ++ (x ++ a)).length := by
    refine ⟨by simp only [List.append_assoc], ?_⟩
    simp only [List.length_append]
    omega
  rw [hinsert.1, hinsert.2, hcut.1, hcut.2, Pattern.firstBehind?, Pattern.firstBehind?,
    List.take_left, List.drop_left, List.take_left, List.drop_left,
    List.getLast?_append_of_ne_nil _ hne, List.getLast?_append_of_ne_nil _ (by simp [hne]),
    List.getLast?_append_of_ne_nil _ hne, ← firstFrom?_add, ← hcut.2, ← hinsert.2]

/-- The match that a block in front of the insertion is found by is found behind it too. What is put
in must not start a block itself, unless it follows the block that follows the call, or no call is
in front of it. -/
theorem found_insert (h : PutIn call front x back) (hcall : IsName call) {s : Span}
    (hfound : found? call (front ++ back) = some s) (hstop : s.stop ≤ front.length)
    (hblock : NoStart variantsPattern front.getLast? x back ∨
      (variantsPattern.firstBehind? (front ++ back) (callEnd call (front ++ back))).isSome = true ∨
      front.length < callEnd call (front ++ back)) :
    found? call (front ++ (x ++ back)) = some s := by
  have hp := runs_variantsPattern
  obtain ⟨hback, hinsert⟩ := h.parted '\x7b' (.inr rfl)
  -- a match behind the first part does not come to its end there
  have hfar : ∀ {before : Option Char} {pos : Nat} {text : List Char}, front.length ≤ pos →
      variantsPattern.firstFrom? before pos text ≠ some s := by
    intro before pos text hpos hs
    have := hp.lt_stop hs
    omega
  have hfirst : variantsPattern.first? (front ++ back) = some s →
      variantsPattern.first? (front ++ (x ++ back)) = some s := by
    rw [first?_eq_firstBehind?, first?_eq_firstBehind?]
    intro hs
    rcases hp.firstBehind?_cases hback hinsert (Nat.zero_le _) with ⟨t, ht, ht', -⟩ | ⟨ht, -⟩
    · rw [ht', ← ht, hs]
    · exact absurd (ht.symm.trans hs) (hfar le_rfl)
  rw [found?] at hfound ⊢
  rcases h.callEnd_cases hcall with ⟨hcallEnd, hsame⟩ | ⟨hcallEnd, hmoved⟩
  · rw [hsame]
    rcases hp.firstBehind?_cases hback hinsert hcallEnd with ⟨t, ht, ht', -⟩ | ⟨ht, ht'⟩
    · rw [ht']
      rwa [ht] at hfound
    · rcases Option.or_eq_some_iff.mp hfound with hs | ⟨hnone, hs⟩
      · exact absurd (ht.symm.trans hs) (hfar le_rfl)
      · have hx : NoStart variantsPattern front.getLast? x back := by
          rcases hblock with hx | hsome | hlt
          · exact hx
          · rw [hnone] at hsome
            cases hsome
          · omega
        rw [ht] at hnone
        rw [ht', hp.firstFrom?_insert hx h.behind, hnone, Option.map_none, Option.none_or]
        exact hfirst hs
  · rw [hmoved, firstBehind?_of_lt _ hcallEnd (callEnd_le call _)]
    rcases Option.or_eq_some_iff.mp hfound with hs | ⟨hnone, hs⟩
    · exact absurd hs (hfar hcallEnd.le)
    · rw [hnone, Option.map_none, Option.none_or]
      exact hfirst hs

end PutIn

/-- The variant call of a text has a variant block behind it. -/
def BlockBehindCall (call text : List Char) : Prop :=
  ∃ s, (callPattern call).first? text = some s ∧
    (variantsPattern.firstBehind? text s.stop).isSome = true

/-- The match behind the variant call is found whatever stands behind it. -/
theorem found_of_blockBehindCall {call front back back' : List Char} (hcall : IsName call)
    (hparted : ∀ last, last = '(' ∨ last = '\x7b' →
      Parted last front back ∧ Parted last front back')
    (hbehind : BlockBehindCall call (front ++ back)) {t : Span}
    (hfound : found? call (front ++ back) = some t) (hstop : t.stop ≤ front.length) :
    found? call (front ++ back') = some t := by
  obtain ⟨s, hs, hsome⟩ := hbehind
  obtain ⟨t', ht'⟩ := Option.isSome_iff_exists.mp hsome
  have hcallEnd : callEnd call (front ++ back) = s.stop := by rw [callEnd, hs]; rfl
  obtain rfl : t' = t := by
    rw [found?, hcallEnd, ht'] at hfound
    exact Option.some.inj hfound
  have hcp := runs_callPattern hcall
  have hvp := runs_variantsPattern
  have hle : s.stop < t'.stop := hvp.lt_stop ht'
  obtain ⟨hback, hback'⟩ := hparted '(' (.inl rfl)
  rw [first?_eq_firstBehind?] at hs
  have hs' : (callPattern call).first? (front ++ back') = some s := by
    rw [first?_eq_firstBehind?]
    rcases hcp.firstBehind?_cases hback hback' (Nat.zero_le _) with ⟨r, hr, hr', -⟩ | ⟨hr, -⟩
    · rw [hr', ← hr, hs]
    · have := hcp.lt_stop (hr.symm.trans hs)
      omega
  have hcallEnd' : callEnd call (front ++ back') = s.stop := by rw [callEnd, hs']; rfl
  obtain ⟨hback, hback'⟩ := hparted '\x7b' (.inr rfl)
  have hfront : s.stop ≤ front.length := by omega
  rw [found?, hcallEnd']
  rcases hvp.firstBehind?_cases hback hback' hfront with ⟨r, hr, hr', -⟩ | ⟨hr, -⟩
  · rw [hr', ← hr, ht']
    rfl
  · have := hvp.lt_stop (hr.symm.trans ht')
    omega

end DesignTokens.Source
