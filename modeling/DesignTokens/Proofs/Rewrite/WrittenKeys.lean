import DesignTokens.Proofs.Rewrite.VariantSettled
import DesignTokens.Proofs.Source.Spelled

/-!
# Written keys are read back

A mapping with a new dimension writes the key of the dimension and those of its
values, identifiers as they stand and other names in quotes. Into a block without
entries it writes just one entry, and what is read of the block behind the
insertion is that entry with those keys (`soleDimension?_variantEdit`).

A name has to be enclosed by its quotes (`Quotable`). Of all characters only the
quotation mark is escaped when a key is written, and nothing is taken back when
it is read. So a name with a quotation mark or a line end is no key, and a
backslash at the end of a name takes the closing quote with it
(`not_soleDimension?_variantEdit`). The block must be one that an entry can be put
into (`Extendable`) and that is found again with the names in it (`KeepsPlace`).
-/

namespace DesignTokens.Rewrite

open Text Source

/-! ## What is read -/

/-- A key as it is read: its characters, and whether it is quoted. -/
abbrev ReadKey := List Char × Bool

def readKey (e : Entry) : ReadKey := (e.key, e.quoted)

/-- How the key of a name should be read: its characters, quoted just if they are no identifier. -/
def keyOf (name : String) : ReadKey := (name.toList, !isIdentifier name)

/-- The key of the only entry of a variant block, and the keys of the object that is its value. -/
def soleDimension? (call text : List Char) : Option (ReadKey × List ReadKey) := do
  let b ← variantBlock? call text
  match entries text b.opening b.closing with
  | [e] =>
    if text[e.valueStart]? = some '\x7b' then
      (matchingBrace? text e.valueStart).map fun closing =>
        (readKey e, (entries text e.valueStart closing).map readKey)
    else none
  | _ => none

/-! ## Names and their keys -/

/-- A name that quotes enclose: it has no quotation mark and no line end, and inside of a string it
leaves no escape open. -/
structure Quotable (s : String) : Prop where
  quote : '"' ∉ s.toList
  line : '\n' ∉ s.toList
  escape : (Cursor.string '"').run s.toList = .string '"'

instance (s : String) : Decidable (Quotable s) :=
  decidable_of_iff ('"' ∉ s.toList ∧ '\n' ∉ s.toList ∧
      (Cursor.string '"').run s.toList = .string '"')
    ⟨fun h => ⟨h.1, h.2.1, h.2.2⟩, fun h => ⟨h.quote, h.line, h.escape⟩⟩

/-- Quotes enclose every name without one, without a backslash and without a line end. -/
theorem quotable_of_forall {s : String}
    (h : ∀ c ∈ s.toList, c ≠ '"' ∧ c ≠ '\\' ∧ c ≠ '\n') : Quotable s := by
  refine ⟨fun hmem => (h _ hmem).1 rfl, fun hmem => (h _ hmem).2.2 rfl, ?_⟩
  generalize s.toList = cs at h
  induction cs with
  | nil => rfl
  | cons c cs ih =>
      obtain ⟨⟨hquote, hback, hline⟩, hcs⟩ := List.forall_mem_cons.mp h
      have hnext : (Cursor.string '"').next c cs.head? = .string '"' := by
        simp [Cursor.next, hquote, hback, hline]
      rw [Cursor.run, hnext, ih hcs]

theorem spells_writtenKey {s : String} (h : Quotable s) :
    Spells (writtenKey s) s.toList (!isIdentifier s) := by
  cases hs : isIdentifier s with
  | true =>
      rw [writtenKey, if_pos hs]
      exact spells_name (Policy.isName_of_isIdentifier hs)
  | false =>
      rw [writtenKey_quoted hs h.quote]
      exact spells_quoted h.quote h.line h.escape

/-! ## Lines of values -/

section

variable {indent : List Char} (hindent : ∀ c ∈ indent, isIndent c = true)

include hindent

theorem isLead_newLine : IsLead ('\n' :: indent) := isLead_of_isBlank (isBlank_newLine hindent)

theorem flat_newLine : Flat ('\n' :: indent) := (isLead_newLine hindent).flat

omit hindent in
theorem valueLine_append (v : String) (rest : List Char) :
    valueLine indent v ++ rest
      = ('\n' :: indent ++ (writtenKey v ++ ':' :: " \"\"".toList)) ++ ',' :: rest := by
  simp [valueLine]

omit hindent in
theorem flat_value {v : String} (hv : Quotable v) :
    Flat (writtenKey v ++ ':' :: " \"\"".toList) :=
  (spells_writtenKey hv).flat_colon (by decide)

omit hindent in
theorem piece_value {v : String} (hv : Quotable v) :
    Piece (writtenKey v ++ ':' :: " \"\"".toList) :=
  (flat_value hv).piece ((spells_writtenKey hv).commaless_colon (by decide))

theorem flat_valueLines : ∀ {values : List String}, (∀ v ∈ values, Quotable v) →
    Flat (values.flatMap (valueLine indent))
  | [], _ => flat_of_isPlain nofun
  | v :: values, h => by
      obtain ⟨hv, hvalues⟩ := List.forall_mem_cons.mp h
      have hcomma : Flat [','] := by decide
      have hline := (flat_newLine hindent).append (flat_value hv)
        ((spells_writtenKey hv).fresh_colon _)
      have hlines := hcomma.append (flat_valueLines hvalues) (startsFresh_valueLines indent values)
      rw [List.flatMap_cons, valueLine_append]
      exact hline.append hlines (startsFresh_cons (by decide) _)

/-- The keys of values are read from their lines, in order. -/
theorem readKeys_valueLines {white : List Char} (hwhite : ∀ c ∈ white, isWhiteSpace c = true) :
    ∀ {values : List String} (pos : Nat), (∀ v ∈ values, Quotable v) →
      (entriesFrom pos (values.flatMap (valueLine indent) ++ white)).map readKey
        = values.map keyOf
  | [], pos, _ => by
      rw [List.flatMap_nil, List.nil_append, entriesFrom_white hwhite]
      rfl
  | v :: values, pos, h => by
      obtain ⟨hv, hvalues⟩ := List.forall_mem_cons.mp h
      have hpiece := piece_value hv
      have hwhole : Whole ('\n' :: indent ++ (writtenKey v ++ ':' :: " \"\"".toList)) :=
        (hpiece.lead (isLead_newLine hindent) ((spells_writtenKey hv).fresh_colon _)).whole
      rw [List.flatMap_cons, List.append_assoc, valueLine_append, entriesFrom_append_comma hwhole,
        (spells_writtenKey hv).entriesFrom (isLead_newLine hindent) hpiece, List.map_append,
        readKeys_valueLines hwhite _ hvalues]
      rfl

/-! ## The lines of a dimension -/

section

variable {d : String} (hd : Quotable d) {values : List String} (hvalues : ∀ v ∈ values, Quotable v)

include hd hvalues

/-- The inside of the object that a dimension is written with. -/
abbrev valuesInside (indent : List Char) (values : List String) : List Char :=
  values.flatMap (valueLine (indent ++ [' ', ' '])) ++ '\n' :: indent

omit hd in
theorem flat_valuesInside : Flat (valuesInside indent values) :=
  (flat_valueLines (isIndent_inner hindent) hvalues).append (flat_newLine hindent)
    (startsFresh_cons (by decide) _)

omit hindent hd hvalues in
theorem dimensionLines_append (indent : List Char) (d : String) (values : List String)
    (rest : List Char) :
    dimensionLines indent d values ++ rest = ('\n' :: indent ++ (writtenKey d ++ ':' :: (' ' ::
      '\x7b' :: (valuesInside indent values ++ ['\x7d'])))) ++ ',' :: rest := by
  rw [dimensionLines_written]
  simp

theorem piece_dimension : Piece (writtenKey d ++ ':' :: (' ' :: '\x7b' ::
    (valuesInside indent values ++ ['\x7d']))) := by
  have hspells := spells_writtenKey hd
  have hfront : Flat (writtenKey d ++ [':', ' ']) := hspells.flat_colon (by decide)
  have hcomma : Commaless (writtenKey d ++ [':', ' ']) := hspells.commaless_colon (by decide)
  have hpiece := piece_object hfront hcomma (flat_valuesInside hindent hvalues)
  rwa [List.append_assoc] at hpiece

theorem closed_writtenDimension : Closed (dimensionLines indent d values) := by
  have hspells := spells_writtenKey hd
  have hfront : Flat ('\n' :: indent ++ (writtenKey d ++ [':', ' '])) :=
    (flat_newLine hindent).append (hspells.flat_colon (by decide)) (hspells.fresh_colon _)
  have hcomma : Flat [','] := by decide
  have hall := hfront.closed.object (flat_valuesInside hindent hvalues).closed hcomma.closed
  rw [dimensionLines_written]
  simpa using hall

/-- An object stays closed when a dimension is put into it. -/
theorem closed_withDimension {kept blank white : List Char} (hclosed : Closed (kept ++ blank))
    (hblank : ∀ c ∈ blank, isWhiteSpace c = true)
    (hextend : StartsEntry (kept ++ separator kept ++ ['\n']))
    (hwhite : ∀ c ∈ white, isWhiteSpace c = true) :
    Closed (kept ++ separator kept ++ (dimensionLines indent d values ++ white)) := by
  have hfresh : StartsFresh (indent ++ (writtenKey d ++ ':' :: ' ' :: '\x7b' ::
      (valuesInside indent values ++ ['\x7d', ',']))) :=
    (startsFresh_of_isWhiteSpace fun c hc => isWhiteSpace_of_isIndent (hindent c hc)).append
      ((spells_writtenKey hd).fresh_colon _)
  refine closed_extended hclosed hblank hextend (closed_writtenDimension hindent hd hvalues) ?_
    hfresh hwhite
  rw [dimensionLines_written]
  simp

/-- A dimension is the only entry of an object that had none. -/
theorem entriesFrom_writtenDimension {kept blank white : List Char} {pos : Nat}
    (hempty : entriesFrom pos (kept ++ blank) = [])
    (hblank : ∀ c ∈ blank, isWhiteSpace c = true)
    (hextend : StartsEntry (kept ++ separator kept ++ ['\n']))
    (hwhite : ∀ c ∈ white, isWhiteSpace c = true) :
    entriesFrom pos (kept ++ separator kept ++ (dimensionLines indent d values ++ white))
      = [⟨d.toList, !isIdentifier d, pos + (kept ++ separator kept ++ '\n' :: indent).length,
        pos + (kept ++ separator kept ++ '\n' :: indent ++ (writtenKey d ++ [':', ' '])).length⟩]
      := by
  have hstarts := startsEntry_newLine hindent hextend
  have hpiece := piece_dimension hindent hd hvalues
  have hspells := spells_writtenKey hd
  have hfresh := hspells.fresh_colon (' ' :: '\x7b' :: (valuesInside indent values ++ ['\x7d']))
  obtain ⟨done, hdone, hentries⟩ := hspells.entries_behind hstarts hpiece pos
  obtain rfl : done = [] := by
    rw [List.eq_nil_iff_forall_not_mem]
    intro e he
    obtain ⟨before, lead, hcut, hwhole, he⟩ := hdone e he
    obtain ⟨e', he', -⟩ := exists_entry_of_cut hblank hindent hcut hwhole he
    rw [hempty] at he'
    cases he'
  have htext : kept ++ separator kept ++ (dimensionLines indent d values ++ white)
      = (kept ++ separator kept ++ '\n' :: indent ++ (writtenKey d ++ ':' :: (' ' :: '\x7b' ::
        (valuesInside indent values ++ ['\x7d'])))) ++ ',' :: white := by
    rw [dimensionLines_append]
    simp only [List.append_assoc]
  have hskip : skipBlanks (' ' :: '\x7b' :: (valuesInside indent values ++ ['\x7d']))
      = '\x7b' :: (valuesInside indent values ++ ['\x7d']) := rfl
  have hvalue : (kept ++ separator kept ++ '\n' :: indent ++ (writtenKey d ++ ':' :: (' ' ::
        '\x7b' :: (valuesInside indent values ++ ['\x7d'])))).length
          - ('\x7b' :: (valuesInside indent values ++ ['\x7d'])).length
      = (kept ++ separator kept ++ '\n' :: indent ++ (writtenKey d ++ [':', ' '])).length := by
    simp only [List.length_append, List.length_cons, List.length_nil]
    omega
  rw [htext, entriesFrom_append_comma (hstarts.whole.append hpiece.whole hfresh), hentries,
    entriesFrom_white hwhite, hskip, hvalue, List.append_nil, List.nil_append]

end

end

/-! ## The block behind an insertion -/

/-- The values that are wanted are the given ones, trimmed, if none is blank or there twice. -/
theorem wantedValues_eq {m : VariantMapping} (hdistinct : (m.values.map trimmed).Nodup)
    (hblank : "" ∉ m.values.map trimmed) : wantedValues m = m.values.map trimmed := by
  have hstep : ∀ {values done : List String}, (done ++ values).Nodup → "" ∉ values →
      values.foldl (fun done v => if v = "" || done.contains v then done else done ++ [v]) done
        = done ++ values := by
    intro values
    induction values with
    | nil => simp
    | cons v values ih =>
        intro done hdistinct hblank
        rw [List.mem_cons, not_or] at hblank
        have hnew : v ∉ done := fun hmem =>
          (List.nodup_append.mp hdistinct).2.2 v hmem v (List.mem_cons_self ..) rfl
        have hcond : ¬(v = "" || done.contains v) = true := by
          simp [Ne.symm hblank.1, hnew]
        rw [List.foldl_cons, if_neg hcond, ih (by simpa using hdistinct) hblank.2,
          List.append_assoc, List.singleton_append]
  exact hstep hdistinct hblank

/-- A mapping with values, distinct and not blank, for a variant block that has no entry. -/
structure FirstDimension (call : List Char) (m : VariantMapping) (text : List Char) (b : Block) :
    Prop where
  block : variantBlock? call text = some b
  no_entry : entries text b.opening b.closing = []
  dimension : trimmed m.dimension ≠ ""
  values : m.values ≠ []
  distinct : (m.values.map trimmed).Nodup
  not_blank : "" ∉ m.values.map trimmed

/-- The names that a mapping writes. -/
def writtenNames (m : VariantMapping) : List String :=
  trimmed m.dimension :: m.values.map trimmed

/-- No name of a mapping starts a variant block where it is written. -/
structure StartsNoBlock (m : VariantMapping) : Prop where
  names : ∀ s ∈ writtenNames m, variantsPattern.occurs s.toList = false
  dimension : isIdentifier (trimmed m.dimension) = true →
    ¬EndsInName variantsName (trimmed m.dimension).toList

/-- The variant block is found with the names of a mapping in it: it stands behind a variant call,
or no name has a call in it. Then no name may start a block either if the search goes back to the
variant block from a call that is not behind it. -/
def KeepsPlace (call : List Char) (m : VariantMapping) (text : List Char) (b : Block) : Prop :=
  BlockBehindCall call text ∨
    (∀ s ∈ writtenNames m, (callPattern call).occurs s.toList = false) ∧
      (StartsNoBlock m ∨ (variantsPattern.firstBehind? text (callEnd call text)).isSome = true ∨
        b.closing < callEnd call text)

section

variable {call text : List Char} {m : VariantMapping} {b : Block}

/-- The first dimension of a block is put into it with all its values. -/
theorem FirstDimension.insertion?_eq (h : FirstDimension call m text b) :
    insertion? call m text
      = some (dimensionInsertion text b [] (trimmed m.dimension) (m.values.map trimmed)) := by
  have hasks : ¬(trimmed m.dimension = "" || (m.values.map trimmed).isEmpty) = true := by
    simp [h.dimension, h.values]
  rw [insertion?, wantedValues_eq h.distinct h.not_blank, if_neg hasks, h.block]
  dsimp only [Option.bind_eq_bind, Option.bind_some]
  rw [h.no_entry]
  rfl

/-- The block opens where it did, and closes with what it has inside then. -/
theorem KeepsPlace.variantBlock?_apply {i : Insertion}
    {indent a kept blank rest lineEnd outer behind : List Char}
    (hplace : KeepsPlace call m text b) (hnames : ∀ s ∈ writtenNames m, Quotable s)
    (hcall : IsName call) (hindent : ∀ c ∈ indent, isIndent c = true)
    (shape : i.Shape text (dimensionLines indent (trimmed m.dimension) (m.values.map trimmed))
      (a ++ '\x7b' :: kept) blank rest (separator kept) lineEnd)
    (hblock : variantBlock? call text = some b) (ha : a.length = b.opening)
    (hclosing : (a ++ '\x7b' :: kept).length ≤ b.closing)
    (htext : i.apply text = a ++ '\x7b' :: (outer ++ '\x7d' :: behind)) (hclosed : Closed outer) :
    variantBlock? call (i.apply text) = some ⟨a.length, a.length + 1 + outer.length⟩ := by
  obtain ⟨hd, hvalues⟩ := List.forall_mem_cons.mp hnames
  rcases hplace with hbehind | ⟨hcalls, hblocks⟩
  · exact shape.variantBlock?_behind_call hcall hbehind hblock ha htext hclosed
  · have hp := runs_callPattern hcall
    obtain ⟨hdCall, hvaluesCall⟩ := List.forall_mem_cons.mp hcalls
    have hstartCall := shape.noStart hp fun hend =>
      noStart_dimensionLines hp hindent hend (matchless_call hcall hd.quote hdCall _)
        fun v hv => matchless_call hcall (hvalues v hv).quote (hvaluesCall v hv) _
    refine shape.variantBlock?_apply hcall (hstartCall _) hblock ha ?_ htext hclosed
    rcases hblocks with ⟨hnone, hends⟩ | hfound | hlt
    · have hp := runs_variantsPattern
      obtain ⟨hdNone, hvaluesNone⟩ := List.forall_mem_cons.mp hnone
      have hstart := shape.noStart hp fun hend =>
        noStart_dimensionLines hp hindent hend (matchless_dimension hd.quote hdNone hends)
          fun v hv => matchless_value (hvalues v hv).quote (hvaluesNone v hv)
      exact .inl (hstart _)
    · exact .inr (.inl hfound)
    · exact .inr (.inr (Nat.lt_of_le_of_lt hclosing hlt))

/-- What is to be read behind an insertion: the block, its entry, and the object of that. -/
theorem soleDimension?_eq {a inside rest front inner back : List Char} {e : Entry}
    (hblock : variantBlock? call text = some ⟨a.length, a.length + 1 + inside.length⟩)
    (htext : text = a ++ '\x7b' :: (inside ++ '\x7d' :: rest))
    (hentry : entriesFrom (a.length + 1) inside = [e])
    (hobject : text = front ++ '\x7b' :: (inner ++ '\x7d' :: back))
    (hfront : front.length = e.valueStart) (hinner : Closed inner) :
    soleDimension? call text
      = some (readKey e, (entriesFrom (front.length + 1) inner).map readKey) := by
  have hentries : entries text a.length (a.length + 1 + inside.length) = [e] := by
    rw [htext, entries_object, hentry]
  have hopen : text[e.valueStart]? = some '\x7b' := by
    rw [hobject, ← hfront, List.getElem?_append_right le_rfl, Nat.sub_self]
    rfl
  have hclosing : matchingBrace? text e.valueStart = some (front.length + 1 + inner.length) := by
    rw [hobject, ← hfront, matchingBrace?_of_closed hinner]
  have hkeys : entries text e.valueStart (front.length + 1 + inner.length)
      = entriesFrom (front.length + 1) inner := by
    rw [hobject, ← hfront, entries_object]
  rw [soleDimension?, hblock]
  dsimp only [Option.bind_eq_bind, Option.bind_some]
  rw [hentries]
  dsimp only
  rw [if_pos hopen, hclosing, Option.map_some, hkeys]

/-- What the edit of a mapping has written into a block without entries is read back: one dimension
with its values, in order, and quoted just where they are no identifiers. -/
theorem soleDimension?_variantEdit {policy : Policy} (hpolicy : policy.Valid)
    (h : FirstDimension policy.variantCall.toList m text b)
    (hextend : Extendable text b.opening b.closing)
    (hplace : KeepsPlace policy.variantCall.toList m text b)
    (hnames : ∀ s ∈ writtenNames m, Quotable s) :
    soleDimension? policy.variantCall.toList
        ((variantEdit policy.variantCall.toList m).after text)
      = some (keyOf (trimmed m.dimension), (m.values.map trimmed).map keyOf) := by
  obtain ⟨hd, hvalues⟩ := List.forall_mem_cons.mp hnames
  have hlineIndent : ∀ c ∈ lineIndent text b.opening, isIndent c = true := isIndent_lineIndent
  rw [after_variantEdit, h.insertion?_eq, Option.map_some, Option.getD_some, dimensionInsertion]
  have hindent : ∀ c ∈ entryIndent text [] (lineIndent text b.opening), isIndent c = true :=
    isIndent_entryIndent hlineIndent []
  generalize entryIndent text [] (lineIndent text b.opening) = indent at hindent
  -- the block, and what is put in behind what it keeps
  obtain ⟨a, kept, blank, rest, lineEnd, -, ha, hclosing, hbetween, hkept, hclosed, shape⟩ :=
    exists_object_shape (matchingBrace_of_variantBlock h.block) (opening_of_variantBlock h.block)
      hlineIndent (dimensionLines indent (trimmed m.dimension) (m.values.map trimmed))
        (m.values.map trimmed)
  rw [Extendable, hbetween, hkept] at hextend
  have hempty : entriesFrom (a.length + 1) (kept ++ blank) = [] := by
    rw [ha, ← hbetween, ← entries_eq, h.no_entry]
  generalize insertBeforeClosing text b.opening b.closing (dimensionLines indent
    (trimmed m.dimension) (m.values.map trimmed)) (lineIndent text b.opening)
      (m.values.map trimmed) = i at shape ⊢
  have hwhite : ∀ c ∈ lineEnd ++ blank, isWhiteSpace c = true := fun c hc =>
    (List.mem_append.mp hc).elim (shape.lineEnd_all c) (shape.blank_all c)
  have hinside : Closed (kept ++ separator kept ++ (dimensionLines indent (trimmed m.dimension)
      (m.values.map trimmed) ++ (lineEnd ++ blank))) :=
    closed_withDimension hindent hd hvalues hclosed shape.blank_all hextend hwhite
  have htext : i.apply text = a ++ '\x7b' :: ((kept ++ separator kept
      ++ (dimensionLines indent (trimmed m.dimension) (m.values.map trimmed)
        ++ (lineEnd ++ blank))) ++ '\x7d' :: rest) := by
    rw [shape.apply_eq]
    simp
  -- the object of the dimension in the same text
  have hobject : i.apply text
      = (a ++ '\x7b' :: (kept ++ separator kept ++ '\n' :: indent
          ++ (writtenKey (trimmed m.dimension) ++ [':', ' '])))
        ++ '\x7b' :: (valuesInside indent (m.values.map trimmed)
          ++ '\x7d' :: ',' :: (lineEnd ++ blank ++ '\x7d' :: rest)) := by
    rw [htext, dimensionLines_written]
    simp
  have hle : (a ++ '\x7b' :: kept).length ≤ b.closing := by
    rw [hclosing]
    simp only [List.length_append, List.length_cons]
    omega
  have hblock := hplace.variantBlock?_apply hnames hpolicy.isName_call hindent shape h.block ha hle
    htext hinside
  rw [soleDimension?_eq hblock htext
    (entriesFrom_writtenDimension hindent hd hvalues hempty shape.blank_all hextend hwhite) hobject
    ?_ (flat_valuesInside hindent hvalues).closed]
  · rw [readKeys_valueLines (isIndent_inner hindent) ?_ _ hvalues]
    · rw [readKey, keyOf]
    · exact fun c hc => isWhiteSpace_of_isBlank (isBlank_newLine hindent c hc)
  · simp only [List.length_append, List.length_cons]
    omega

end

/-- A component whose variants are still to come. -/
def plannedSource : List Char :=
  "cva(\"h-9\", \x7b\n  variants: \x7b // by icon\n  \x7d,\n\x7d)".toList

def iconSizes : VariantMapping := ⟨"a", " icon size ", ["sm", "größe 2", "1\\2", " \x7b // "]⟩

/-- The names of a dimension and of its values are read back, with a backslash between and with
marks of comments and braces. -/
theorem soleDimension?_plannedSource :
    soleDimension? Policy.builtin.variantCall.toList
        ((variantEdit Policy.builtin.variantCall.toList iconSizes).after plannedSource)
      = some (("icon size".toList, true),
        [("sm".toList, false), ("größe 2".toList, true), ("1\\2".toList, true),
          ("\x7b //".toList, true)]) := by
  have hfirst : FirstDimension Policy.builtin.variantCall.toList iconSizes plannedSource
      ⟨25, 40⟩ := by
    refine ⟨?_, ?_, ?_, ?_, ?_, ?_⟩ <;> decide
  have hcall : BlockBehindCall Policy.builtin.variantCall.toList plannedSource :=
    ⟨⟨0, 4⟩, by decide, by decide⟩
  have hread := soleDimension?_variantEdit Policy.valid_builtin hfirst (by decide)
    (.inl hcall) (by decide)
  rw [hread]
  decide

/-- Mappings with names that quotes do not enclose, each with what is read where its edit has put
it: values with a quotation mark, with a line end and with a backslash at the end, and a dimension
with a backslash at the end. -/
def unreadMappings : List (VariantMapping × Option (ReadKey × List ReadKey)) :=
  [(⟨"a", "size", ["sm\"x"]⟩, some (keyOf "size", [])),
    (⟨"a", "size", ["s\nm"]⟩, some (keyOf "size", [])),
    (⟨"a", "size", ["s\\", "lg"]⟩, some (keyOf "size", [keyOf "s\\"])),
    (⟨"a", "size\\", ["sm", "md"]⟩, none)]

/-- Into the empty block behind a variant call these mappings write keys that are not read back.
Behind the third one a value is written once more that it has written. -/
theorem not_soleDimension?_variantEdit :
    (unreadMappings.Forall fun x =>
      FirstDimension Policy.builtin.variantCall.toList x.1 bareSource ⟨42, 46⟩ ∧
      Extendable bareSource 42 46 ∧
      BlockBehindCall Policy.builtin.variantCall.toList bareSource ∧
      soleDimension? Policy.builtin.variantCall.toList
        ((variantEdit Policy.builtin.variantCall.toList x.1).after bareSource) = x.2 ∧
      x.2 ≠ some (keyOf (trimmed x.1.dimension), (x.1.values.map trimmed).map keyOf)) ∧
    variantEdit Policy.builtin.variantCall.toList ⟨"b", "size", ["lg"]⟩
      ((variantEdit Policy.builtin.variantCall.toList ⟨"a", "size", ["s\\", "lg"]⟩).after
        bareSource) ≠ none := by
  have hblock : variantBlock? Policy.builtin.variantCall.toList bareSource = some ⟨42, 46⟩ := by
    decide
  have hentries : entries bareSource 42 46 = [] := by decide
  have hextend : Extendable bareSource 42 46 := by decide
  have hcall : BlockBehindCall Policy.builtin.variantCall.toList bareSource :=
    ⟨⟨17, 4⟩, by decide, by decide⟩
  have hmappings : ∀ x ∈ unreadMappings, trimmed x.1.dimension ≠ "" ∧ x.1.values ≠ [] ∧
      (x.1.values.map trimmed).Nodup ∧ "" ∉ x.1.values.map trimmed := by
    decide
  have hread : ∀ x ∈ unreadMappings,
      soleDimension? Policy.builtin.variantCall.toList
        ((variantEdit Policy.builtin.variantCall.toList x.1).after bareSource) = x.2 ∧
      x.2 ≠ some (keyOf (trimmed x.1.dimension), (x.1.values.map trimmed).map keyOf) := by
    decide
  refine ⟨List.forall_iff_forall_mem.mpr fun x hx => ?_, by decide⟩
  obtain ⟨hdimension, hvalues, hdistinct, hblank⟩ := hmappings x hx
  exact ⟨⟨hblock, hentries, hdimension, hvalues, hdistinct, hblank⟩, hextend, hcall, hread x hx⟩

end DesignTokens.Rewrite
