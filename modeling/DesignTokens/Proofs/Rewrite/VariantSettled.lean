import DesignTokens.Proofs.Rewrite.ExtendedObject

/-!
# Insertions that are settled

Behind an insertion the variant block has the dimension of the mapping, with all
the values that are asked for, and the same mapping asks for nothing more
(`variantEdit_settled`). So it is where the text in front of the insertion can be
read back (`Readable`): the comma that is put in separates the new entry from the
last one, and no key that counts is read out of a comment.

A comment behind the last entry swallows the comma, and the new entry is read as
part of the last one (`not_settled_variantEdit`).
-/

namespace DesignTokens.Rewrite

open Text Source

/-! ## Named entries -/

/-- The first unquoted entry with the name. -/
def firstNamed? (es : List Entry) (name : String) : Option Entry :=
  es.find? fun e => !e.quoted && e.key = name.toList

theorem firstNamed?_eq_none_iff {es : List Entry} {name : String} :
    firstNamed? es name = none ↔ ∀ e ∈ es, e.quoted = false → e.key ≠ name.toList := by
  simp [firstNamed?, List.find?_eq_none]

theorem firstNamed?_append_of_none {es : List Entry} {name : String}
    (h : firstNamed? es name = none) {e : Entry} (hquoted : e.quoted = false)
    (hkey : e.key = name.toList) (later : List Entry) :
    firstNamed? (es ++ e :: later) name = some e := by
  rw [firstNamed?] at h
  rw [firstNamed?, List.find?_append, h, Option.none_or, List.find?_cons_of_pos]
  simp [hquoted, hkey]

/-- An entry is the first one with its name if those in front of it have other names. -/
theorem firstNamed?_before {done later : List Entry} {e found : Entry} {name : String}
    (hpairwise : (done ++ e :: later).Pairwise fun x y => x.keyStart < y.keyStart)
    (hfound : firstNamed? (done ++ e :: later) name = some found)
    (hstart : found.keyStart = e.keyStart) : firstNamed? done name = none ∧ found = e := by
  have hdone : firstNamed? done name = none := by
    by_contra hne
    obtain ⟨x, hx⟩ := Option.ne_none_iff_exists'.mp hne
    have hmem : x ∈ done := List.mem_of_find?_eq_some hx
    rw [firstNamed?] at hx hfound
    rw [List.find?_append, hx, Option.some_or] at hfound
    obtain rfl := Option.some.inj hfound
    have := (List.pairwise_append.mp hpairwise).2.2 _ hmem e (List.mem_cons_self ..)
    omega
  refine ⟨hdone, ?_⟩
  rw [firstNamed?] at hdone hfound
  rw [List.find?_append, hdone, Option.none_or] at hfound
  rcases List.mem_cons.mp (List.mem_of_find?_eq_some hfound) with heq | hlater
  · exact heq
  · have hbehind := (List.pairwise_append.mp hpairwise).2.1
    have := (List.pairwise_cons.mp hbehind).1 found hlater
    omega

/-! ## Settled mappings -/

/-- An entry may start behind what the object has, with the comma and the line end of an
insertion. -/
def Extendable (text : List Char) (opening closing : Nat) : Prop :=
  StartsEntry (trimEnd (between text opening closing)
    ++ separator (trimEnd (between text opening closing)) ++ ['\n'])

instance (text : List Char) (opening closing : Nat) : Decidable (Extendable text opening closing) :=
  inferInstanceAs (Decidable (StartsEntry _))

/-- The text can be read back behind the insertion of a mapping. A new dimension has an object to
extend, and it starts no block itself that would be found before its own. The dimension whose object
is extended is a key in code, and so are the values that it has. -/
structure Readable (call : List Char) (m : VariantMapping) (text : List Char) : Prop where
  dimension : ∀ b, variantBlock? call text = some b →
    firstNamed? (entries text b.opening b.closing) (trimmed m.dimension) = none →
    Extendable text b.opening b.closing ∧
      (EndsInName variantsName (trimmed m.dimension).toList →
        (variantsPattern.firstBehind? text (callEnd call text)).isSome = true ∨
          b.closing < callEnd call text)
  values : ∀ b e closing, variantBlock? call text = some b →
    firstNamed? (entries text b.opening b.closing) (trimmed m.dimension) = some e →
    matchingBrace? text e.valueStart = some closing →
    StartsEntry (between text b.opening e.keyStart) ∧ Extendable text e.valueStart closing ∧
      ∀ v ∈ wantedValues m, ∀ e' ∈ entries text e.valueStart closing, e'.quoted = false →
        e'.key = v.toList → StartsEntry (between text e.valueStart e'.keyStart)

/-- The first entry of the variant block with the name of the dimension is an object that has every
wanted value as an unquoted key. -/
def HasVariants (call : List Char) (m : VariantMapping) (text : List Char) : Prop :=
  ∃ b e closing, variantBlock? call text = some b ∧
    firstNamed? (entries text b.opening b.closing) (trimmed m.dimension) = some e ∧
    text[e.valueStart]? = some '\x7b' ∧ matchingBrace? text e.valueStart = some closing ∧
    ∀ v ∈ wantedValues m, ∃ e' ∈ entries text e.valueStart closing,
      e'.quoted = false ∧ e'.key = v.toList

section

variable {call text : List Char} {m : VariantMapping}

/-- A mapping asks for nothing that is there. -/
theorem HasVariants.variantEdit_eq_none (h : HasVariants call m text) :
    variantEdit call m text = none := by
  obtain ⟨b, e, closing, hblock, hentry, -, hclosing, hvalues⟩ := h
  have hmissing : missingValues text e closing (wantedValues m) = [] := by
    refine List.filter_eq_nil_iff.mpr fun v hv => ?_
    obtain ⟨e', he', hquoted, hkey⟩ := hvalues v hv
    have hany : ((entries text e.valueStart closing).any
        fun e => !e.quoted && e.key = v.toList) = true :=
      List.any_eq_true.mpr ⟨e', he', by simp [hquoted, hkey]⟩
    simp [hany]
  have hinsertion : insertion? call m text = none := by
    cases hi : insertion? call m text with
    | none => rfl
    | some i =>
        rw [insertion?] at hi
        dsimp only at hi
        split at hi
        case isTrue => cases hi
        case isFalse =>
          obtain ⟨b', hblock', hi⟩ := Option.bind_eq_some_iff.mp hi
          obtain rfl := Option.some.inj (hblock.symm.trans hblock')
          split at hi
          case h_2 hnone => exact absurd (hentry.symm.trans hnone) (Option.some_ne_none e)
          case h_1 e' he' =>
            obtain rfl := Option.some.inj (hentry.symm.trans he')
            obtain ⟨-, closing', hclosing', hne, -⟩ := exists_of_valuesInsertion hi
            obtain rfl := Option.some.inj (hclosing.symm.trans hclosing')
            exact absurd hmissing hne
  rw [variantEdit, hinsertion]
  rfl

/-- What an edit of a mapping inserts. -/
theorem exists_of_variantEdit {changed : List Char} {r : Record}
    (h : variantEdit call m text = some (changed, r)) :
    ∃ b, variantBlock? call text = some b ∧
      ((firstNamed? (entries text b.opening b.closing) (trimmed m.dimension) = none ∧
          changed = (dimensionInsertion text b (entries text b.opening b.closing)
            (trimmed m.dimension) (wantedValues m)).apply text) ∨
        ∃ e closing,
          firstNamed? (entries text b.opening b.closing) (trimmed m.dimension) = some e ∧
          text[e.valueStart]? = some '\x7b' ∧ matchingBrace? text e.valueStart = some closing ∧
          missingValues text e closing (wantedValues m) ≠ [] ∧
          changed = (insertBeforeClosing text e.valueStart closing
            (missingLines text e closing (wantedValues m)) (lineIndent text e.keyStart)
            (missingValues text e closing (wantedValues m))).apply text) := by
  obtain ⟨i, hi, hchanged⟩ := Option.bind_eq_some_iff.mp h
  obtain ⟨rfl, -⟩ := Prod.mk.inj (Option.some.inj hchanged)
  rw [insertion?] at hi
  dsimp only at hi
  split at hi
  case isTrue => cases hi
  case isFalse =>
    obtain ⟨b, hblock, hi⟩ := Option.bind_eq_some_iff.mp hi
    refine ⟨b, hblock, ?_⟩
    split at hi
    case h_1 e hfound =>
      obtain ⟨hopen, closing, hclosing, hmissing, rfl⟩ := exists_of_valuesInsertion hi
      exact .inr ⟨e, closing, hfound, hopen, hclosing, hmissing, rfl⟩
    case h_2 hfound =>
      obtain rfl := Option.some.inj hi
      exact .inl ⟨hfound, rfl⟩

/-! ## A new dimension -/

/-- What is to be found behind an insertion: the block, the entry of the dimension, its object. -/
theorem hasVariants_of_object {a inside rest : List Char}
    (hblock : variantBlock? call text = some ⟨a.length, a.length + 1 + inside.length⟩)
    (htext : text = a ++ '\x7b' :: (inside ++ '\x7d' :: rest)) {done later : List Entry}
    {name : List Char} {keyStart valueStart : Nat}
    (hentries : entriesFrom (a.length + 1) inside
      = done ++ ⟨name, false, keyStart, valueStart⟩ :: later)
    (hdone : firstNamed? done (trimmed m.dimension) = none)
    (hname : name = (trimmed m.dimension).toList) {front inner back : List Char}
    (hobject : text = front ++ '\x7b' :: (inner ++ '\x7d' :: back))
    (hfront : front.length = valueStart) (hinner : Closed inner)
    (hvalues : ∀ v ∈ wantedValues m, ∃ e' ∈ entriesFrom (front.length + 1) inner,
      e'.quoted = false ∧ e'.key = v.toList) : HasVariants call m text := by
  refine ⟨_, ⟨name, false, keyStart, valueStart⟩, front.length + 1 + inner.length, hblock, ?_, ?_,
    ?_, fun v hv => ?_⟩
  · rw [htext, entries_object, hentries]
    exact firstNamed?_append_of_none hdone rfl hname later
  · rw [hobject, ← hfront, List.getElem?_append_right le_rfl, Nat.sub_self]
    rfl
  · rw [hobject, ← hfront, matchingBrace?_of_closed hinner]
  · rw [hobject, ← hfront, entries_object]
    exact hvalues v hv

/-- No entry in front of an insertion has a name that no entry of the object has. -/
theorem firstNamed?_done {kept blank indent : List Char} {pos : Nat} {d : String}
    (hblank : ∀ c ∈ blank, isWhiteSpace c = true)
    (hnone : firstNamed? (entriesFrom pos (kept ++ blank)) d = none)
    (hindent : ∀ c ∈ indent, isIndent c = true) {done : List Entry}
    (hdone : ∀ e ∈ done, ∃ before lead, kept ++ separator kept ++ '\n' :: indent
        = before ++ ',' :: lead ∧ Whole before ∧ e ∈ entriesFrom pos before) :
    firstNamed? done d = none := by
  rw [firstNamed?_eq_none_iff] at hnone ⊢
  intro e he hquoted hkey
  obtain ⟨before, lead, hcut, hwhole, he⟩ := hdone e he
  obtain ⟨e', he', hkey', hquoted'⟩ := exists_entry_of_cut hblank hindent hcut hwhole he
  exact hnone e' he' (hquoted'.trans hquoted) (hkey'.trans hkey)

/-- A dimension that is put in is an entry of the block, and the first one with its name. -/
theorem exists_dimension_entry {kept blank indent : List Char} {pos : Nat} {d : String}
    (hblank : ∀ c ∈ blank, isWhiteSpace c = true)
    (hnone : firstNamed? (entriesFrom pos (kept ++ blank)) d = none)
    (hextend : StartsEntry (kept ++ separator kept ++ ['\n']))
    (hindent : ∀ c ∈ indent, isIndent c = true) (hd : isIdentifier d = true) (values : List String)
    (tail : List Char) :
    ∃ done keyStart valueStart later,
      entriesFrom pos (kept ++ separator kept ++ (dimensionLines indent d values ++ tail))
        = done ++ ⟨d.toList, false, keyStart, valueStart⟩ :: later ∧
      firstNamed? done d = none ∧
      valueStart
        = pos + (kept ++ separator kept ++ '\n' :: indent ++ (d.toList ++ [':', ' '])).length := by
  obtain ⟨done, hdone, hentries⟩ := (startsEntry_newLine hindent hextend).exists_entries pos
  obtain ⟨valueStart, later, hentry, hvalueStart⟩ := hentries []
    (' ' :: '\x7b' :: (values.flatMap (valueLine (indent ++ [' ', ' '])) ++ ('\n' :: indent
      ++ '\x7d' :: ',' :: tail))) (Policy.isName_of_isIdentifier hd) (by simp)
  have htext : kept ++ separator kept ++ (dimensionLines indent d values ++ tail)
      = kept ++ separator kept ++ '\n' :: indent ++ (d.toList ++ ([] ++ ':' :: ' ' :: '\x7b' ::
        (values.flatMap (valueLine (indent ++ [' ', ' '])) ++ ('\n' :: indent
          ++ '\x7d' :: ',' :: tail)))) := by
    rw [dimensionLines_eq hd]
    simp
  rw [htext]
  exact ⟨done, _, valueStart, later, hentry, firstNamed?_done hblank hnone hindent hdone,
    hvalueStart [' '] _ rfl (by decide)⟩

/-- Where a dimension is put in, the block has it with all its values. -/
theorem hasVariants_dimension (hcall : IsName call) (hreadable : Readable call m text)
    (hdimension : isIdentifier (trimmed m.dimension) = true)
    (hvalues : ∀ v ∈ wantedValues m, isIdentifier v = true) {b : Block}
    (hblock : variantBlock? call text = some b)
    (hnone : firstNamed? (entries text b.opening b.closing) (trimmed m.dimension) = none) :
    HasVariants call m ((dimensionInsertion text b (entries text b.opening b.closing)
      (trimmed m.dimension) (wantedValues m)).apply text) := by
  obtain ⟨hextend, hname⟩ := hreadable.dimension b hblock hnone
  have hlineIndent : ∀ c ∈ lineIndent text b.opening, isIndent c = true := isIndent_lineIndent
  have hindent : ∀ c ∈ entryIndent text (entries text b.opening b.closing)
      (lineIndent text b.opening), isIndent c = true := isIndent_entryIndent hlineIndent _
  rw [dimensionInsertion]
  generalize entryIndent text (entries text b.opening b.closing) (lineIndent text b.opening)
    = indent at hindent
  obtain ⟨a, kept, blank, rest, lineEnd, -, ha, hplace, hbetween, hkept, hclosed, shape⟩ :=
    exists_object_shape (matchingBrace_of_variantBlock hblock) (opening_of_variantBlock hblock)
      hlineIndent (dimensionLines indent (trimmed m.dimension) (wantedValues m)) (wantedValues m)
  rw [Extendable, hbetween, hkept] at hextend
  rw [entries_eq, hbetween, ← ha] at hnone
  generalize insertBeforeClosing text b.opening b.closing (dimensionLines indent
    (trimmed m.dimension) (wantedValues m)) (lineIndent text b.opening) (wantedValues m)
      = i at shape ⊢
  have hisName := Policy.isName_of_isIdentifier hdimension
  obtain ⟨hinner, hlines⟩ := closed_dimensionLines hindent hdimension hvalues
  have hinside : Closed (kept ++ separator kept
      ++ (dimensionLines indent (trimmed m.dimension) (wantedValues m) ++ (lineEnd ++ blank))) :=
    closed_extended hclosed shape.blank_all hextend hlines (dimensionLines_eq hdimension ..)
      (startsFresh_indent hindent hisName _) fun c hc =>
        (List.mem_append.mp hc).elim (shape.lineEnd_all c) (shape.blank_all c)
  -- the block opens where it did
  have hp := runs_callPattern hcall
  have hstartCall := shape.noStart hp fun hend =>
    noStart_dimensionLines hp hindent hend (matchless_call_identifier hcall hdimension _)
      fun v hv => matchless_call_identifier hcall (hvalues v hv) _
  have hstart : NoStart variantsPattern (a ++ '\x7b' :: kept).getLast? (separator kept
        ++ dimensionLines indent (trimmed m.dimension) (wantedValues m) ++ lineEnd)
        (blank ++ '\x7d' :: rest) ∨
      (variantsPattern.firstBehind? text (callEnd call text)).isSome = true ∨
      (a ++ '\x7b' :: kept).length < callEnd call text := by
    by_cases hends : EndsInName variantsName (trimmed m.dimension).toList
    · refine .inr ((hname hends).imp_right fun hlt => lt_of_le_of_lt ?_ hlt)
      rw [hplace]
      simp only [List.length_append, List.length_cons]
      omega
    · have hp := runs_variantsPattern
      exact .inl (shape.noStart hp (fun hend =>
        noStart_dimensionLines hp hindent hend (matchless_dimension_identifier hdimension hends)
          fun v hv => matchless_value_identifier (hvalues v hv)) _)
  have htext' : i.apply text = a ++ '\x7b' :: ((kept ++ separator kept
        ++ (dimensionLines indent (trimmed m.dimension) (wantedValues m) ++ (lineEnd ++ blank)))
          ++ '\x7d' :: rest) := by
    rw [shape.apply_eq]
    simp
  have hblock' := shape.variantBlock?_apply hcall (hstartCall _) hblock ha hstart htext' hinside
  obtain ⟨done, keyStart, valueStart, later, hentries, hdone, hvalueStart⟩ := exists_dimension_entry
    shape.blank_all hnone hextend hindent hdimension (wantedValues m) (lineEnd ++ blank)
  have hobject : i.apply text
      = (a ++ '\x7b' :: (kept ++ separator kept ++ '\n' :: indent
          ++ ((trimmed m.dimension).toList ++ [':', ' '])))
        ++ '\x7b' :: (((wantedValues m).flatMap (valueLine (indent ++ [' ', ' ']))
          ++ '\n' :: indent) ++ '\x7d' :: ',' :: (lineEnd ++ blank ++ '\x7d' :: rest)) := by
    rw [htext', dimensionLines_eq hdimension]
    simp
  refine hasVariants_of_object hblock' htext' hentries hdone rfl hobject ?_ hinner fun v hv => ?_
  · rw [hvalueStart]
    simp only [List.length_append, List.length_cons, List.length_nil]
    omega
  · have hlead : IsLead ['\n'] := by decide
    have hfirst : StartsEntry ([] ++ ['\n']) := .first hlead
    exact exists_entry_of_mem (isIndent_inner hindent) hfirst hvalues hv _ _

/-! ## New values -/

/-- The parts of a text with a block that has an entry in code whose value is an object: the key
stands behind `front`, and `inside` is the inside of the object. -/
structure Nested (text : List Char) (b : Block) (e : Entry)
    (a front blanks wide inside more rest : List Char) : Prop where
  text_eq : text = (a ++ '\x7b' :: (front ++ (e.key ++ (blanks ++ ':' :: wide))))
    ++ '\x7b' :: (inside ++ '\x7d' :: (more ++ '\x7d' :: rest))
  opening : a.length = b.opening
  keyStart : e.keyStart = a.length + 1 + front.length
  valueStart : e.valueStart = (a ++ '\x7b' :: (front ++ (e.key ++ (blanks ++ ':' :: wide)))).length
  name : IsName e.key
  blanks_all : ∀ c ∈ blanks, isBlank c = true
  wide_all : ∀ c ∈ wide, isBlank c = true
  closed : Closed ((front ++ (e.key ++ (blanks ++ ':' :: wide)))
    ++ '\x7b' :: (inside ++ '\x7d' :: more))

theorem Nested.entries_eq {b : Block} {e : Entry} {a front blanks wide inside more rest : List Char}
    (h : Nested text b e a front blanks wide inside more rest)
    (hclosing : matchingBrace? text b.opening = some b.closing) :
    entries text b.opening b.closing = entriesFrom (a.length + 1) (front ++ (e.key ++ (blanks ++
      ':' :: (wide ++ '\x7b' :: (inside ++ '\x7d' :: more))))) := by
  have htext : text = a ++ '\x7b' :: (((front ++ (e.key ++ (blanks ++ ':' :: wide)))
      ++ '\x7b' :: (inside ++ '\x7d' :: more)) ++ '\x7d' :: rest) := by
    rw [h.text_eq]
    simp
  rw [← h.opening, htext, matchingBrace?_of_closed h.closed] at hclosing
  rw [← h.opening, ← Option.some.inj hclosing, htext, entries_object]
  simp

/-- With another object as its value, the entry is still the first one with its name. -/
theorem Nested.exists_entry {b : Block} {e : Entry}
    {a front blanks wide inside more rest : List Char}
    (h : Nested text b e a front blanks wide inside more rest) (hfront : StartsEntry front)
    (hclosing : matchingBrace? text b.opening = some b.closing) {d : String}
    (hentry : firstNamed? (entries text b.opening b.closing) d = some e) (inner : List Char) :
    ∃ done keyStart valueStart later,
      entriesFrom (a.length + 1) ((front ++ (e.key ++ (blanks ++ ':' :: wide)))
          ++ '\x7b' :: (inner ++ '\x7d' :: more))
        = done ++ ⟨e.key, false, keyStart, valueStart⟩ :: later ∧
      firstNamed? done d = none ∧
      (a ++ '\x7b' :: (front ++ (e.key ++ (blanks ++ ':' :: wide)))).length = valueStart := by
  obtain ⟨done, -, hdone⟩ := hfront.exists_entries (a.length + 1)
  obtain ⟨valueStart, later, hold, -⟩ :=
    hdone blanks (wide ++ '\x7b' :: (inside ++ '\x7d' :: more)) h.name h.blanks_all
  obtain ⟨valueStart', later', hnew, hplace⟩ :=
    hdone blanks (wide ++ '\x7b' :: (inner ++ '\x7d' :: more)) h.name h.blanks_all
  have hnone : firstNamed? done d = none := by
    have hpairwise := pairwise_entriesFrom (a.length + 1) (front ++ (e.key ++ (blanks ++
      ':' :: (wide ++ '\x7b' :: (inside ++ '\x7d' :: more)))))
    rw [h.entries_eq hclosing, hold] at hentry
    rw [hold] at hpairwise
    exact (firstNamed?_before hpairwise hentry h.keyStart).1
  refine ⟨done, a.length + 1 + front.length, valueStart', later', ?_, hnone, ?_⟩
  · rw [← hnew]
    simp
  · rw [hplace wide _ rfl h.wide_all]
    simp only [List.length_append, List.length_cons]
    omega

/-- A key in code has nothing but whole strings, comments and brackets in front of it. -/
theorem run_lead {front key blanks wide : List Char} (hstarts : StartsEntry front)
    (hname : IsName key) (hblanks : ∀ c ∈ blanks, isBlank c = true)
    (hwide : ∀ c ∈ wide, isBlank c = true) :
    Cursor.code.run (front ++ (key ++ (blanks ++ ':' :: wide))) = .code := by
  have hplain : ∀ c ∈ key ++ (blanks ++ ':' :: wide), isPlain c = true := by
    intro c hc
    simp only [List.mem_append, List.mem_cons] at hc
    rcases hc with hc | hc | rfl | hc
    · exact isPlain_of_isIdent (hname.all c hc)
    · exact isPlain_of_isBlank (hblanks c hc)
    · decide
    · exact isPlain_of_isBlank (hwide c hc)
  exact (hstarts.whole.append (whole_of_isPlain hplain) (startsFresh_name hname hblanks wide)).code

/-- The value of an entry in code is an object of the block if it is one at all. -/
theorem exists_nested {b : Block} (hblock : variantBlock? call text = some b) {e : Entry}
    (he : e ∈ entries text b.opening b.closing) (hquoted : e.quoted = false)
    (hstarts : StartsEntry (between text b.opening e.keyStart))
    (hopen : text[e.valueStart]? = some '\x7b') {closing : Nat}
    (hclosing : matchingBrace? text e.valueStart = some closing) :
    ∃ a front blanks wide more rest, StartsEntry front ∧
      Nested text b e a front blanks wide (between text e.valueStart closing) more rest := by
  have hbraces := matchingBrace_of_variantBlock hblock
  have hbrace := opening_of_variantBlock hblock
  obtain ⟨a, rest, htext, ha, -⟩ := exists_object hbraces hbrace
  have houter := closed_of_matchingBrace hbraces hbrace
  obtain ⟨p, rest', htext', hp, -⟩ := exists_object hclosing hopen
  have hinner := closed_of_matchingBrace hclosing hopen
  rw [entries_eq] at he
  generalize between text b.opening b.closing = outer at *
  generalize between text e.valueStart closing = inside at *
  rw [← ha] at he hstarts
  obtain ⟨front, blanks, wide, behind, rfl, hname, hblanks, hwide, hkeyStart, hvalueStart⟩ :=
    exists_of_mem_entriesFrom he hquoted
  have hfront : between text a.length e.keyStart = front := by
    rw [hkeyStart, htext, List.append_assoc]
    exact between_open a front _
  rw [hfront] at hstarts
  -- the brace of the value stands where the entry has its value
  have hcut : p ++ '\x7b' :: (inside ++ '\x7d' :: rest')
      = (a ++ '\x7b' :: (front ++ (e.key ++ (blanks ++ ':' :: wide))))
        ++ (behind ++ '\x7d' :: rest) := by
    rw [← htext', htext]
    simp
  have hplace : e.valueStart
      = (a ++ '\x7b' :: (front ++ (e.key ++ (blanks ++ ':' :: wide)))).length := by
    simp only [hvalueStart, List.length_append, List.length_cons]
    omega
  obtain ⟨hp', hbehind⟩ := List.append_inj hcut (hp.trans hplace)
  subst hp'
  cases behind with
  | nil => exact absurd (List.cons.inj hbehind).1 (by decide)
  | cons c behind =>
      obtain ⟨rfl, hobject⟩ := List.cons.inj hbehind
      have hinsideEq : front ++ (e.key ++ (blanks ++ ':' :: (wide ++ '\x7b' :: behind)))
          = (front ++ (e.key ++ (blanks ++ ':' :: wide))) ++ '\x7b' :: behind := by
        simp
      rw [hinsideEq] at houter
      obtain ⟨more, rfl, rfl⟩ := houter.exists_object (run_lead hstarts hname hblanks hwide) hinner
        hobject.symm
      exact ⟨a, front, blanks, wide, more, rest, hstarts,
        ⟨htext', ha, hkeyStart, hplace, hname, hblanks, hwide, houter⟩⟩

/-- Behind the lines of the values that are missing, an object has every wanted value. -/
theorem exists_wanted {e : Entry} {closing : Nat} {p kept blank rest indent : List Char}
    (htext : text = p ++ '\x7b' :: ((kept ++ blank) ++ '\x7d' :: rest))
    (hp : p.length = e.valueStart)
    (hclosing : closing = p.length + 1 + (kept ++ blank).length)
    (hblank : ∀ c ∈ blank, isWhiteSpace c = true) (hindent : ∀ c ∈ indent, isIndent c = true)
    (hextend : StartsEntry (kept ++ separator kept ++ ['\n']))
    (hvalues : ∀ v ∈ wantedValues m, isIdentifier v = true)
    (hthere : ∀ v ∈ wantedValues m, ∀ e' ∈ entries text e.valueStart closing, e'.quoted = false →
      e'.key = v.toList → StartsEntry (between text e.valueStart e'.keyStart))
    {v : String} (hv : v ∈ wantedValues m) (tail : List Char) :
    ∃ e' ∈ entriesFrom (p.length + 1) (kept ++ separator kept ++
        ((missingValues text e closing (wantedValues m)).flatMap (valueLine indent) ++ tail)),
      e'.quoted = false ∧ e'.key = v.toList := by
  by_cases hmissing : v ∈ missingValues text e closing (wantedValues m)
  · exact exists_entry_of_mem hindent hextend
      (fun u hu => hvalues u (List.mem_of_mem_filter hu)) hmissing _ tail
  · have hany : ((entries text e.valueStart closing).any
        fun e => !e.quoted && e.key = v.toList) = true := by
      by_contra hnone
      exact hmissing (List.mem_filter.mpr ⟨hv, by simpa using hnone⟩)
    obtain ⟨e', he', hfound⟩ := List.any_eq_true.mp hany
    obtain ⟨hquoted, hkey⟩ : e'.quoted = false ∧ e'.key = v.toList := by simpa using hfound
    have hstarts := hthere v hv e' he' hquoted hkey
    rw [← hp, hclosing, htext, entries_object] at he'
    obtain ⟨e'', he'', hquoted', hkey'⟩ := exists_kept_entry he' hquoted hblank
      (fun front back hcut hkeyStart => by
        rw [hkeyStart, ← hp, htext, hcut, List.append_assoc, between_open] at hstarts
        exact hstarts) (separator kept ++
          ((missingValues text e closing (wantedValues m)).flatMap (valueLine indent) ++ tail))
    rw [← List.append_assoc] at he''
    exact ⟨e'', he'', hquoted', hkey'.trans hkey⟩

/-- Where values are put in, the dimension is the entry that it was, with all its values. -/
theorem hasVariants_values (hcall : IsName call) (hreadable : Readable call m text)
    (hvalues : ∀ v ∈ wantedValues m, isIdentifier v = true) {b : Block}
    (hblock : variantBlock? call text = some b) {e : Entry}
    (hentry : firstNamed? (entries text b.opening b.closing) (trimmed m.dimension) = some e)
    (hopen : text[e.valueStart]? = some '\x7b') {closing : Nat}
    (hclosing : matchingBrace? text e.valueStart = some closing)
    (hmissing : missingValues text e closing (wantedValues m) ≠ []) :
    HasVariants call m ((insertBeforeClosing text e.valueStart closing
      (missingLines text e closing (wantedValues m)) (lineIndent text e.keyStart)
      (missingValues text e closing (wantedValues m))).apply text) := by
  obtain ⟨hstarts, hextend, hthere⟩ := hreadable.values b e closing hblock hentry hclosing
  have he : e ∈ entries text b.opening b.closing := List.mem_of_find?_eq_some hentry
  obtain ⟨hquoted, hkey⟩ : e.quoted = false ∧ e.key = (trimmed m.dimension).toList := by
    simpa using List.find?_some hentry
  obtain ⟨a, front, blanks, wide, more, rest, hfront, nested⟩ :=
    exists_nested hblock he hquoted hstarts hopen hclosing
  have hlineIndent : ∀ c ∈ lineIndent text e.keyStart, isIndent c = true := isIndent_lineIndent
  have hindent : ∀ c ∈ entryIndent text (entries text e.valueStart closing)
      (lineIndent text e.keyStart), isIndent c = true := isIndent_entryIndent hlineIndent _
  rw [missingLines]
  generalize entryIndent text (entries text e.valueStart closing) (lineIndent text e.keyStart)
    = indent at hindent
  obtain ⟨p, kept, blank, rest', lineEnd, htext, hp, hplace, hbetween, hkept, hclosed, shape⟩ :=
    exists_object_shape hclosing hopen hlineIndent
      ((missingValues text e closing (wantedValues m)).flatMap (valueLine indent))
      (missingValues text e closing (wantedValues m))
  rw [Extendable, hbetween, hkept] at hextend
  rw [hbetween] at nested
  have hwanted := fun v hv => exists_wanted htext hp hplace shape.blank_all hindent hextend hvalues
    hthere (v := v) hv (lineEnd ++ blank)
  have hmem : ∀ v ∈ missingValues text e closing (wantedValues m), isIdentifier v = true :=
    fun v hv => hvalues v (List.mem_of_mem_filter hv)
  generalize missingValues text e closing (wantedValues m) = missing at *
  generalize insertBeforeClosing text e.valueStart closing (missing.flatMap (valueLine indent))
    (lineIndent text e.keyStart) missing = i at shape ⊢
  -- the object that is extended is the one of the entry
  obtain ⟨rfl, hbehind⟩ := List.append_inj (htext.symm.trans nested.text_eq)
    (hp.trans nested.valueStart)
  obtain rfl : rest' = more ++ '\x7d' :: rest := by simpa using hbehind
  obtain ⟨tail, hlines, hfresh⟩ := exists_newLine hindent hmem hmissing
  have hinner : Closed (kept ++ separator kept
      ++ (missing.flatMap (valueLine indent) ++ (lineEnd ++ blank))) :=
    closed_extended hclosed shape.blank_all hextend (closed_valueLines hindent hmem) hlines hfresh
      fun c hc => (List.mem_append.mp hc).elim (shape.lineEnd_all c) (shape.blank_all c)
  have houter := nested.closed.exchange
    (run_lead hfront nested.name nested.blanks_all nested.wide_all) hclosed hinner
  -- the block opens where it did
  rw [List.append_assoc, List.cons_append] at shape
  have htext' : i.apply text
      = a ++ '\x7b' :: (((front ++ (e.key ++ (blanks ++ ':' :: wide))) ++ '\x7b' :: ((kept
        ++ separator kept ++ (missing.flatMap (valueLine indent) ++ (lineEnd ++ blank)))
          ++ '\x7d' :: more)) ++ '\x7d' :: rest) := by
    rw [shape.apply_eq]
    simp
  have hp := runs_callPattern hcall
  have hp' := runs_variantsPattern
  have hstartCall := shape.noStart hp fun hend =>
    noStart_valueLines hp hindent hend fun v hv => matchless_call_identifier hcall (hmem v hv) _
  have hstart := shape.noStart hp' fun hend =>
    noStart_valueLines hp' hindent hend fun v hv => matchless_value_identifier (hmem v hv)
  have hblock' := shape.variantBlock?_apply hcall (hstartCall _) hblock nested.opening
    (.inl (hstart _)) htext' houter
  obtain ⟨done, keyStart, valueStart, later, hentries, hnone, hvalueStart⟩ :=
    nested.exists_entry hfront (matchingBrace_of_variantBlock hblock) hentry (kept ++ separator kept
      ++ (missing.flatMap (valueLine indent) ++ (lineEnd ++ blank)))
  have hobject : i.apply text
      = (a ++ '\x7b' :: (front ++ (e.key ++ (blanks ++ ':' :: wide)))) ++ '\x7b' :: ((kept
        ++ separator kept ++ (missing.flatMap (valueLine indent) ++ (lineEnd ++ blank)))
          ++ '\x7d' :: (more ++ '\x7d' :: rest)) := by
    rw [htext']
    simp
  exact hasVariants_of_object hblock' htext' hentries hnone hkey hobject hvalueStart hinner hwanted

/-! ## Settled texts -/

/-- Behind an insertion the mapping is there, and it asks for nothing more. -/
theorem variantEdit_settled {policy : Policy} (hpolicy : policy.Valid) {m : VariantMapping}
    {text changed : List Char} {r : Record}
    (hdimension : isIdentifier (trimmed m.dimension) = true)
    (hvalues : ∀ v ∈ wantedValues m, isIdentifier v = true)
    (hreadable : Readable policy.variantCall.toList m text)
    (h : variantEdit policy.variantCall.toList m text = some (changed, r)) :
    HasVariants policy.variantCall.toList m changed ∧
      variantEdit policy.variantCall.toList m changed = none := by
  have hcall := hpolicy.isName_call
  have hvariants : HasVariants policy.variantCall.toList m changed := by
    obtain ⟨b, hblock, ⟨hnone, rfl⟩ | ⟨e, closing, hentry, hopen, hclosing, hmissing, rfl⟩⟩ :=
      exists_of_variantEdit h
    · exact hasVariants_dimension hcall hreadable hdimension hvalues hblock hnone
    · exact hasVariants_values hcall hreadable hvalues hblock hentry hopen hclosing hmissing
  exact ⟨hvariants, hvariants.variantEdit_eq_none⟩

end

/-- Values for a dimension that is there, and a dimension that is not. -/
def moreSizes : VariantMapping := ⟨"a", "size", ["sm", " md "]⟩

def newTone : VariantMapping := ⟨"b", "tone", ["soft"]⟩

/-- A component with comments behind a value and behind a comma. -/
def remarkedSource : List Char :=
  ("cva(\"h-9\", \x7b\n  variants: \x7b\n    size: \x7b sm: \"\" /* px */ \x7d, // \x7d\n"
    ++ "  \x7d\n\x7d)").toList

/-- Between comments both kinds of an insertion are settled. -/
theorem variantEdit_settled_remarkedSource :
    (∃ changed r, variantEdit Policy.builtin.variantCall.toList moreSizes remarkedSource
        = some (changed, r) ∧
      HasVariants Policy.builtin.variantCall.toList moreSizes changed ∧
      variantEdit Policy.builtin.variantCall.toList moreSizes changed = none) ∧
    ∃ changed r, variantEdit Policy.builtin.variantCall.toList newTone remarkedSource
        = some (changed, r) ∧
      HasVariants Policy.builtin.variantCall.toList newTone changed ∧
      variantEdit Policy.builtin.variantCall.toList newTone changed = none := by
  have hblock : variantBlock? Policy.builtin.variantCall.toList remarkedSource
      = some ⟨25, 65⟩ := by decide
  have hsize : firstNamed? (entries remarkedSource 25 65) (trimmed moreSizes.dimension)
      = some ⟨"size".toList, false, 31, 37⟩ := by decide
  have htone : firstNamed? (entries remarkedSource 25 65) (trimmed newTone.dimension) = none := by
    decide
  have hclosing : matchingBrace? remarkedSource 37 = some 55 := by decide
  refine ⟨?_, ?_⟩
  · have hreadable : Readable Policy.builtin.variantCall.toList moreSizes remarkedSource := by
      refine ⟨fun b hb hnone => ?_, fun b e closing hb he hbrace => ?_⟩
      · cases hblock.symm.trans hb
        cases hsize.symm.trans hnone
      · cases hblock.symm.trans hb
        cases hsize.symm.trans he
        cases hclosing.symm.trans hbrace
        decide
    obtain ⟨⟨changed, r⟩, hedit⟩ := Option.isSome_iff_exists.mp (show
      (variantEdit Policy.builtin.variantCall.toList moreSizes remarkedSource).isSome = true by
        decide)
    exact ⟨changed, r, hedit, variantEdit_settled Policy.valid_builtin (by decide) (by decide)
      hreadable hedit⟩
  · have hreadable : Readable Policy.builtin.variantCall.toList newTone remarkedSource := by
      refine ⟨fun b hb _ => ?_, fun b e closing hb he _ => ?_⟩
      · cases hblock.symm.trans hb
        exact ⟨by decide, fun hends =>
          absurd (getLast?_of_endsInName hends (by decide)) (by decide)⟩
      · cases hblock.symm.trans hb
        cases htone.symm.trans he
    obtain ⟨⟨changed, r⟩, hedit⟩ := Option.isSome_iff_exists.mp (show
      (variantEdit Policy.builtin.variantCall.toList newTone remarkedSource).isSome = true by
        decide)
    exact ⟨changed, r, hedit, variantEdit_settled Policy.valid_builtin (by decide) (by decide)
      hreadable hedit⟩

/-- A component with a comment behind its last dimension. -/
def trailingSource : List Char :=
  ("const v = cva(\"h-9\", \x7b\n  variants: \x7b\n    size: \x7b sm: \"h-8\" \x7d // sizes\n"
    ++ "  \x7d,\n\x7d);\n").toList

/-- A comment behind the last dimension takes the comma: the new dimension is read as part of the
last one, and the mapping inserts it once more. -/
theorem not_settled_variantEdit :
    isIdentifier (trimmed newTone.dimension) = true ∧
    (∀ v ∈ wantedValues newTone, isIdentifier v = true) ∧
    ∃ changed r, variantEdit Policy.builtin.variantCall.toList newTone trailingSource
        = some (changed, r) ∧
      changed = ("const v = cva(\"h-9\", \x7b\n  variants: \x7b\n"
        ++ "    size: \x7b sm: \"h-8\" \x7d // sizes,\n"
        ++ "    tone: \x7b\n      soft: \"\",\n    \x7d,\n  \x7d,\n\x7d);\n").toList ∧
      ¬HasVariants Policy.builtin.variantCall.toList newTone changed ∧
      variantEdit Policy.builtin.variantCall.toList newTone changed ≠ none := by
  refine ⟨by decide, by decide, ?_⟩
  have hchanged : (variantEdit Policy.builtin.variantCall.toList newTone trailingSource).map (·.1)
      = some ("const v = cva(\"h-9\", \x7b\n  variants: \x7b\n"
        ++ "    size: \x7b sm: \"h-8\" \x7d // sizes,\n"
        ++ "    tone: \x7b\n      soft: \"\",\n    \x7d,\n  \x7d,\n\x7d);\n").toList := by
    decide
  obtain ⟨⟨changed, r⟩, hedit, hchanged⟩ := Option.map_eq_some_iff.mp hchanged
  dsimp only at hchanged
  have hagain : variantEdit Policy.builtin.variantCall.toList newTone changed ≠ none := by
    rw [hchanged]
    decide
  exact ⟨changed, r, hedit, hchanged, fun h => hagain h.variantEdit_eq_none, hagain⟩

end DesignTokens.Rewrite
