import DesignTokens.Proofs.Rewrite.WrittenEntries

/-!
# Extended objects

What is put into an object stands behind what the object has, with a comma where
there is none (`separator`). The object stays closed (`closed_extended`) and keeps
the keys that stand in code (`exists_kept_entry`). A variant block that is extended,
or that has the object inside, opens where it did: if what is written starts no
block (`variantBlock?_apply`), or if the block stands behind a variant call
(`variantBlock?_behind_call`).
-/

namespace DesignTokens.Rewrite

open Text Source

/-! ## The inside -/

theorem separator_cases (kept : List Char) : separator kept = [] ∨ separator kept = [','] := by
  rw [separator]
  split
  · split
    · exact .inl rfl
    · exact .inr rfl
  · exact .inl rfl

section

variable {kept blank lines white : List Char}

/-- An object stays closed when it is extended. -/
theorem closed_extended (hclosed : Closed (kept ++ blank))
    (hblank : ∀ c ∈ blank, isWhiteSpace c = true)
    (hstarts : StartsEntry (kept ++ separator kept ++ ['\n'])) (hlines : Closed lines)
    {tail : List Char} (htail : lines = '\n' :: tail) (hfresh : StartsFresh tail)
    (hwhite : ∀ c ∈ white, isWhiteSpace c = true) :
    Closed (kept ++ separator kept ++ (lines ++ white)) := by
  have hnone : ∀ {w : List Char}, (∀ c ∈ w, isWhiteSpace c = true) → '\x7b' ∉ w ∧ '\x7d' ∉ w :=
    fun hw => ⟨fun h => absurd (hw _ h) (by decide), fun h => absurd (hw _ h) (by decide)⟩
  have hopen : openAfter 1 (scan .code kept) = some 1 := by
    obtain ⟨-, hlevel⟩ := hclosed
    rw [scan_append (startsFresh_of_isWhiteSpace hblank), openAfter_append] at hlevel
    obtain ⟨n, hn, hrest⟩ := Option.bind_eq_some_iff.mp hlevel
    rw [openAfter_scan (hnone hblank).1 (hnone hblank).2] at hrest
    rw [hn, hrest]
  have hfront : Closed (kept ++ separator kept ++ ['\n']) := by
    obtain ⟨hadded, hnotOpen, hnotClose⟩ : StartsFresh (separator kept ++ ['\n']) ∧
        '\x7b' ∉ separator kept ++ ['\n'] ∧ '\x7d' ∉ separator kept ++ ['\n'] := by
      rcases separator_cases kept with hsep | hsep <;> rw [hsep] <;>
        exact ⟨startsFresh_cons (by decide) _, by decide, by decide⟩
    refine ⟨hstarts.whole.code, ?_⟩
    rw [List.append_assoc, scan_append hadded, openAfter_append, hopen, Option.bind_some]
    exact openAfter_scan hnotOpen hnotClose _ _
  have hclosedTail : Closed tail := by
    subst htail
    exact ⟨hlines.code, hlines.level⟩
  have hall := hfront.append (hclosedTail.append (closed_of_isWhiteSpace hwhite)
    (startsFresh_of_isWhiteSpace hwhite)) (hfresh.append (startsFresh_of_isWhiteSpace hwhite))
  rw [htail]
  simpa using hall

/-- A key in front of a comma that a new line follows is a key of the object. -/
theorem exists_entry_of_cut (hblank : ∀ c ∈ blank, isWhiteSpace c = true) {indent : List Char}
    (hindent : ∀ c ∈ indent, isIndent c = true) {before lead : List Char}
    (hcut : kept ++ separator kept ++ '\n' :: indent = before ++ ',' :: lead)
    (hwhole : Whole before) {pos : Nat} {e : Entry} (he : e ∈ entriesFrom pos before) :
    ∃ e' ∈ entriesFrom pos (kept ++ blank), e'.key = e.key ∧ e'.quoted = e.quoted := by
  have hline : ',' ∉ '\n' :: indent := fun h =>
    absurd (isBlank_newLine hindent _ h) (by decide)
  rw [List.append_assoc] at hcut
  have hbehind : ∀ {more : List Char}, '\n' :: indent ≠ more ++ ',' :: lead :=
    fun h => hline (h ▸ List.mem_append_right _ (List.mem_cons_self ..))
  -- the comma is one of the object, or it is the one that is put in
  rcases List.append_eq_append_iff.mp hcut with ⟨more, rfl, hmore⟩ | ⟨more, rfl, hmore⟩
  · obtain rfl : more = [] := by
      rcases separator_cases kept with hsep | hsep <;> rw [hsep] at hmore
      · exact absurd hmore hbehind
      · cases more with
        | nil => rfl
        | cons c more => exact absurd (List.cons.inj hmore).2 hbehind
    rw [List.append_nil] at hwhole he
    exact exists_of_mem_append_white hblank hwhole.code he
  · cases more with
    | nil =>
        rw [List.append_nil]
        exact exists_of_mem_append_white hblank hwhole.code he
    | cons c more =>
        obtain ⟨rfl, -⟩ := List.cons.inj hmore
        refine ⟨e, ?_, rfl, rfl⟩
        rw [List.append_assoc, List.cons_append, entriesFrom_append_comma hwhole]
        exact List.mem_append_left _ he

/-- A key in code is a key of the extended object too. -/
theorem exists_kept_entry {pos : Nat} {e : Entry} (he : e ∈ entriesFrom pos (kept ++ blank))
    (hquoted : e.quoted = false) (hblank : ∀ c ∈ blank, isWhiteSpace c = true)
    (hstarts : ∀ front back, kept ++ blank = front ++ back → e.keyStart = pos + front.length →
      StartsEntry front) (tail : List Char) :
    ∃ e' ∈ entriesFrom pos (kept ++ tail), e'.quoted = false ∧ e'.key = e.key := by
  obtain ⟨front, blanks, wide, rest, hinside, hname, hblanks, -, hstart, -⟩ :=
    exists_of_mem_entriesFrom he hquoted
  have hstarts := hstarts front _ hinside hstart
  -- the colon is not in the white space behind
  obtain ⟨more, hkept⟩ : ∃ more, kept = front ++ (e.key ++ (blanks ++ ':' :: more)) := by
    have hcut : kept ++ blank = (front ++ e.key ++ blanks) ++ ':' :: (wide ++ rest) := by
      rw [hinside]
      simp
    rcases List.append_eq_append_iff.mp hcut with ⟨a, -, hblankEq⟩ | ⟨a, hkept, hrest⟩
    · exact absurd (hblank ':' (by rw [hblankEq]; simp)) (by decide)
    · cases a with
      | nil =>
          exact absurd (hblank ':' (by rw [← List.nil_append blank, ← hrest]; simp)) (by decide)
      | cons c a =>
          obtain ⟨rfl, -⟩ := List.cons.inj hrest
          exact ⟨a, by rw [hkept]; simp⟩
  obtain ⟨done, -, hentries⟩ := hstarts.exists_entries pos
  obtain ⟨valueStart, later, hentry, -⟩ := hentries blanks (more ++ tail) hname hblanks
  refine ⟨⟨e.key, false, pos + front.length, valueStart⟩, ?_, rfl, rfl⟩
  have htext : kept ++ tail = front ++ (e.key ++ (blanks ++ ':' :: (more ++ tail))) := by
    rw [hkept]
    simp
  rw [htext, hentry]
  exact List.mem_append_right done (List.mem_cons_self ..)

end

/-- The parts of an object that lines are put into. -/
theorem exists_object_shape {text : List Char} {opening closing : Nat}
    (hclosing : matchingBrace? text opening = some closing) (hopen : text[opening]? = some '\x7b')
    {indent : List Char} (hindent : ∀ c ∈ indent, isIndent c = true) (lines : List Char)
    (added : List String) :
    ∃ a kept blank rest lineEnd,
      text = a ++ '\x7b' :: ((kept ++ blank) ++ '\x7d' :: rest) ∧ a.length = opening ∧
      closing = a.length + 1 + (kept ++ blank).length ∧
      between text opening closing = kept ++ blank ∧ trimEnd (kept ++ blank) = kept ∧
      Closed (kept ++ blank) ∧
      (insertBeforeClosing text opening closing lines indent added).Shape text lines
        (a ++ '\x7b' :: kept) blank rest (separator kept) lineEnd := by
  obtain ⟨a, rest, htext, ha, hplace⟩ := exists_object hclosing hopen
  have hclosed := closed_of_matchingBrace hclosing hopen
  obtain ⟨d, blank, rest', lineEnd, hinside, shape⟩ :=
    exists_shape_behind hclosing hindent lines added
  have htake : text.take opening = a := by rw [htext, ← ha, List.take_left]
  rw [htake] at shape
  generalize between text opening closing = inside at *
  generalize hkept : trimEnd inside = kept at *
  subst hinside
  have heq : '\x7b' :: ((kept ++ blank) ++ '\x7d' :: rest)
      = d :: ((kept ++ blank) ++ '\x7d' :: rest') := by
    refine (List.append_right_inj a).mp ?_
    rw [← htext, shape.text_eq]
    simp
  obtain ⟨rfl, htail⟩ := List.cons.inj heq
  obtain rfl : rest = rest' := by simpa using htail
  exact ⟨a, kept, blank, rest, lineEnd, htext, ha, by rw [ha, hplace], rfl, hkept, hclosed, shape⟩

/-! ## The place of the block -/

/-- An insertion is made where no match reaches over. -/
theorem Insertion.Shape.parted {i : Insertion}
    {text lines front blank rest comma lineEnd : List Char}
    (shape : i.Shape text lines front blank rest comma lineEnd) {last : Char}
    (hlast : last = '(' ∨ last = '\x7b') :
    Parted last front (blank ++ '\x7d' :: rest) ∧
      Parted last front (comma ++ lines ++ lineEnd ++ (blank ++ '\x7d' :: rest)) := by
  refine ⟨?_, ?_⟩
  · rcases hlast with rfl | rfl <;>
      exact parted_of_closing (by decide) (by decide) front shape.blank_all rest
  · rcases shape.comma_eq with rfl | ⟨rfl, c, hc, hcut⟩
    · exact parted_of_head (by decide) (by rcases hlast with rfl | rfl <;> decide) front _
    · refine parted_of_last ?_ hc _
      rcases hcut with rfl | rfl <;> decide

/-- The closing brace and what an insertion has in front of it start no match. -/
theorem Insertion.Shape.noStart {i : Insertion} {p : Pattern} {last : Char} (hp : Runs last p)
    {text lines front blank rest comma lineEnd : List Char}
    (shape : i.Shape text lines front blank rest comma lineEnd)
    (hlines : (∀ before, NoStart p before lineEnd (blank ++ '\x7d' :: rest)) →
      ∀ before, NoStart p before (lines ++ lineEnd) (blank ++ '\x7d' :: rest))
    (before : Option Char) :
    NoStart p before (comma ++ lines ++ lineEnd) (blank ++ '\x7d' :: rest) := by
  have hcomma : ∀ c ∈ comma, isIdent c = false := by
    rcases shape.comma_eq with rfl | ⟨rfl, -⟩ <;> decide
  have hlineEnd : ∀ before, NoStart p before lineEnd (blank ++ '\x7d' :: rest) := fun before =>
    hp.noStart_of_noIdent (fun c hc => isIdent_of_isWhiteSpace (shape.lineEnd_all c hc))
      (hp.eq_none (noIdent_closing shape.blank_all rest) _)
  rw [List.append_assoc]
  exact hp.noStart_gap hcomma (hlines hlineEnd _)

/-- The variant block stays where it opens if the same match is found and what it has inside is
closed. -/
theorem variantBlock?_of_found {call text changed a outer rest : List Char} {b : Block}
    (hblock : variantBlock? call text = some b) (ha : a.length = b.opening)
    (hfound : ∀ s, found? call text = some s → s.stop = a.length + 1 →
      found? call changed = some s)
    (htext : changed = a ++ '\x7b' :: (outer ++ '\x7d' :: rest)) (hclosed : Closed outer) :
    variantBlock? call changed = some ⟨a.length, a.length + 1 + outer.length⟩ := by
  rw [variantBlock?_eq_found] at hblock ⊢
  obtain ⟨s, hs, hb⟩ := Option.bind_eq_some_iff.mp hblock
  obtain ⟨closing, -, rfl⟩ := Option.map_eq_some_iff.mp hb
  obtain ⟨u, v, -, hstop⟩ := exists_variants hs
  dsimp only at ha
  rw [hfound s hs (by omega), Option.bind_some, ← ha, htext, matchingBrace?_of_closed hclosed]
  rfl

section

variable {i : Insertion} {text lines a inner blank behind comma lineEnd call : List Char}
  (shape : i.Shape text lines (a ++ '\x7b' :: inner) blank behind comma lineEnd)

include shape

/-- The block is found behind an insertion that starts neither a call nor a block. -/
theorem Insertion.Shape.variantBlock?_apply (hcall : IsName call)
    (hstartCall : NoStart (callPattern call) (a ++ '\x7b' :: inner).getLast?
      (comma ++ lines ++ lineEnd) (blank ++ '\x7d' :: behind)) {b : Block}
    (hblock : variantBlock? call text = some b) (ha : a.length = b.opening)
    (hstart : NoStart variantsPattern (a ++ '\x7b' :: inner).getLast? (comma ++ lines ++ lineEnd)
        (blank ++ '\x7d' :: behind) ∨
      (variantsPattern.firstBehind? text (callEnd call text)).isSome = true ∨
      (a ++ '\x7b' :: inner).length < callEnd call text) {outer rest : List Char}
    (htext : i.apply text = a ++ '\x7b' :: (outer ++ '\x7d' :: rest)) (hclosed : Closed outer) :
    variantBlock? call (i.apply text) = some ⟨a.length, a.length + 1 + outer.length⟩ := by
  refine variantBlock?_of_found hblock ha (fun s hs hstop => ?_) htext hclosed
  have hle : s.stop ≤ (a ++ '\x7b' :: inner).length := by
    rw [hstop, List.length_append, List.length_cons]
    omega
  rw [shape.text_eq] at hs hstart
  rw [shape.apply_eq]
  have hput : PutIn call (a ++ '\x7b' :: inner) (comma ++ lines ++ lineEnd)
      (blank ++ '\x7d' :: behind) :=
    ⟨fun last => shape.parted, hstartCall, noIdent_closing shape.blank_all behind⟩
  exact hput.found_insert hcall hs hle hstart

/-- A block behind a variant call is found behind any insertion into it. -/
theorem Insertion.Shape.variantBlock?_behind_call (hcall : IsName call)
    (hbehind : BlockBehindCall call text) {b : Block} (hblock : variantBlock? call text = some b)
    (ha : a.length = b.opening) {outer rest : List Char}
    (htext : i.apply text = a ++ '\x7b' :: (outer ++ '\x7d' :: rest)) (hclosed : Closed outer) :
    variantBlock? call (i.apply text) = some ⟨a.length, a.length + 1 + outer.length⟩ := by
  refine variantBlock?_of_found hblock ha (fun s hs hstop => ?_) htext hclosed
  have hle : s.stop ≤ (a ++ '\x7b' :: inner).length := by
    rw [hstop, List.length_append, List.length_cons]
    omega
  rw [shape.text_eq] at hs hbehind
  rw [shape.apply_eq]
  exact found_of_blockBehindCall hcall (fun last => shape.parted) hbehind hs hle

end

end DesignTokens.Rewrite
