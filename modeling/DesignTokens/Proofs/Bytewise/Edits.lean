import DesignTokens.Proofs.Bytewise.Block
import DesignTokens.Proofs.Bytewise.Layout
import DesignTokens.Proofs.Bytewise.Token
import DesignTokens.Proofs.Rewrite.Insertion
import DesignTokens.Rewrite.Apply

/-!
# Edits by bytes

A program that makes a change works with the places that searching has given it,
some of them in a text that has been changed since: the snippet behind a change
is cut at a place of the text in front of it. Each program here does what an edit
of the library does (`Performs`), whatever the text.
-/

namespace DesignTokens.Bytewise

open Text Source Rewrite

/-! ## Programs -/

/-- A change of a text, or nothing if there is nothing to do. -/
abbrev Program := List Char → Run (Option (List Char × Record))

/-- A program does on every text what the edit does, without a trap. -/
def Performs (f : Program) (e : Edit) : Prop := ∀ text, f text = .ok (e text)

/-- The text and the records behind a row of programs. -/
def runPrograms : List Program → List Char → Run (List Char × List Record)
  | [], text => return (text, [])
  | f :: fs, text => do
    match ← f text with
    | none => runPrograms fs text
    | some (changed, record) => do
      let (last, records) ← runPrograms fs changed
      return (last, record :: records)

theorem runPrograms_map {α : Type} {f : α → Program} {e : α → Edit} :
    ∀ {ms : List α} {text : List Char}, (∀ m ∈ ms, Performs (f m) (e m)) →
      runPrograms (ms.map f) text = .ok (runEdits (ms.map e) text)
  | [], _, _ => rfl
  | m :: ms, text, h => by
      obtain ⟨hm, hms⟩ := List.forall_mem_cons.mp h
      rw [List.map_cons, List.map_cons, runPrograms, runEdits, hm text, ok_bind]
      cases e m text with
      | none => exact runPrograms_map hms
      | some r =>
          dsimp only
          rw [runPrograms_map hms]
          rfl

/-! ## Colors -/

/-- The program of one color mapping. -/
def colorProgram (m : ColorMapping) : Program := fun text =>
  let literal := trim m.literal.toList
  let replacement := trim m.replacement.toList
  if literal.isEmpty || replacement.isEmpty then return none
  else
    let slot := themeSlot? replacement
    match (firstColor? literal slot text).map (spanBytes text) with
    | none => return none
    | some (start, stop) => do
      let before ← snippet text start stop
      let (bracketless, inBrackets) := replaceBracketed literal slot text
      let bare := (literalPattern literal).spans bracketless
      let changed := rewriteSpans (fun _ => replacement) 0 bare bracketless
      let after ← snippet changed start (start + byteLength replacement)
      return some (changed,
        { pass := .colors
          issueId := some m.issueId
          description := "replaced " ++ toString (inBrackets + bare.length) ++ " occurrence(s) of "
            ++ String.ofList literal ++ " with " ++ String.ofList replacement
          before := before
          after := after })

theorem performs_colorProgram (m : ColorMapping) : Performs (colorProgram m) (colorEdit m) := by
  intro text
  rw [colorProgram, colorEdit]
  dsimp only
  split
  case isTrue => rfl
  case isFalse =>
    cases firstColor? (trim m.literal.toList) (themeSlot? (trim m.replacement.toList)) text with
    | none => rfl
    | some s =>
        have hspan : byteOffset text s.start ≤ byteOffset text s.stop :=
          byteOffset_le_byteOffset text (Nat.le_add_right ..)
        simp only [Option.map_some, spanBytes, snippet_eq _ hspan,
          snippet_eq _ (Nat.le_add_right (byteOffset text s.start) _), ok_bind]
        rfl

/-! ## Spacing -/

/-- The program of the last mapping of a bucket. -/
def spacingProgram (m : SpacingMapping) : Program := fun text => do
  let token := trim m.token.toList
  let bucket := Bucket.of m.property
  if token.isEmpty then return none
  else
    match ← earliestToken? bucket.members text with
    | none => return none
    | some found =>
      if found.token = token then return none
      else do
        let start := found.byteStart text
        let before ← snippet text start (found.byteStop text)
        match ← replaceFirst? found.property text token with
        | none => return none
        | some changed => do
          let after ← snippet changed start (start + byteLength token)
          return some (changed,
            { pass := .spacing
              issueId := some m.issueId
              description := bucket.name ++ ": " ++ String.ofList found.token ++ " -> "
                ++ String.ofList token
              before := before
              after := after })

theorem performs_spacingProgram (m : SpacingMapping) :
    Performs (spacingProgram m) (spacingEdit m) := by
  intro text
  rw [spacingProgram, spacingEdit]
  dsimp only
  split
  case isTrue => rfl
  case isFalse =>
    rw [earliestToken?_eq, ok_bind]
    cases hfound : firstOccurrence? (Bucket.of m.property).members text with
    | none => rfl
    | some found =>
        -- the token is looked for a second time, by its property alone
        obtain ⟨p, -, hp⟩ := occurrence?_of_firstOccurrence hfound
        obtain ⟨rfl, -⟩ := pixels_of_mem_occurrences (List.mem_of_mem_head? hp)
        have hreplace : found.property.replaceFirst? text (trim m.token.toList)
            = some (found.replaceIn text (trim m.token.toList)) := by
          rw [Property.replaceFirst?, hp]
          rfl
        have hspan : found.byteStart text ≤ found.byteStop text := Nat.le_add_right ..
        dsimp only
        rw [Option.bind_eq_bind, Option.bind_some]
        split
        case isTrue => rfl
        case isFalse =>
          rw [snippet_eq _ hspan, ok_bind, replaceFirst?_eq, hreplace, ok_bind]
          dsimp only
          rw [snippet_eq _ (Nat.le_add_right ..)]
          rfl

/-! ## Variants -/

/-- What is to be put into a text: lines behind the last entry of the object between two braces. -/
structure Plan where
  opening : Nat
  closing : Nat
  lines : List Char
  closingIndent : List Char
  added : List String

/-- The indentation of the entries of an object. -/
def entryIndent (text : List Char) (es : List Entry) (outer : List Char) : Run (List Char) :=
  match es.head? with
  | none => return outer ++ [' ', ' ']
  | some e => do
    let own ← ownIndent? text e.keyStart
    return own.getD (outer ++ [' ', ' '])

/-- The plan for the object of a dimension that is there. -/
def valuesPlan? (text : List Char) (entry : Entry) (values : List String) : Run (Option Plan) :=
  if (bytes text)[entry.valueStart]? ≠ some '\x7b' then return none
  else do
    match ← matchingBrace text entry.valueStart with
    | none => return none
    | some closing => do
      let existing ← objectEntries text entry.valueStart closing
      let missing := values.filter fun v => !existing.any fun e => !e.quoted && e.key = v.toList
      if missing.isEmpty then return none
      else do
        let indent ← lineIndent text entry.keyStart
        let inner ← entryIndent text existing indent
        return some ⟨entry.valueStart, closing, missing.flatMap (valueLine inner), indent, missing⟩

/-- The plan for a dimension that is not there. -/
def dimensionPlan (text : List Char) (block : Block) (es : List Entry) (dimension : String)
    (values : List String) : Run Plan := do
  let indent ← lineIndent text block.opening
  let inner ← entryIndent text es indent
  return ⟨block.opening, block.closing, dimensionLines inner dimension values, indent, values⟩

/-- The plan for a mapping, given the name of the variant call. -/
def plan? (call : List Char) (m : VariantMapping) (text : List Char) : Run (Option Plan) :=
  let dimension := trimmed m.dimension
  let values := wantedValues m
  if dimension = "" || values.isEmpty then return none
  else do
    match ← variantBlock call text with
    | none => return none
    | some block => do
      let es ← objectEntries text block.opening block.closing
      match es.find? fun e => !e.quoted && e.key = dimension.toList with
      | some entry => valuesPlan? text entry values
      | none => some <$> dimensionPlan text block es dimension values

/-- The program of one variant mapping. -/
def variantProgram (call : List Char) (m : VariantMapping) : Program := fun text => do
  match ← plan? call m text with
  | none => return none
  | some p => do
    let before ← snippet text p.closing (p.closing + 1)
    let (changed, start, stop) ← splice text p.opening p.closing p.lines p.closingIndent
    let after ← snippet changed start stop
    return some (changed,
      { pass := .variants
        issueId := some m.issueId
        description := "added `" ++ trimmed m.dimension ++ "` values: " ++ commaList p.added
        before := before
        after := after })

/-- A plan puts into the text what an insertion does. -/
structure Plan.Makes (text : List Char) (p : Plan) (i : Insertion) : Prop where
  closing : p.closing = byteOffset text i.closing
  added : p.added = i.added
  splice : splice text p.opening p.closing p.lines p.closingIndent
    = .ok (i.apply text, byteOffset text i.position,
        byteOffset text i.position + byteLength i.segment)

/-- The plan is made without a trap, and there is one if there is an insertion. -/
def Plans (text : List Char) (plan : Run (Option Plan)) (i : Option Insertion) : Prop :=
  ∃ p, plan = .ok p ∧ Option.Rel (Plan.Makes text) p i

section

variable {text : List Char} {opening closing : Nat}

theorem plans_none : Plans text (.ok none) none := ⟨none, rfl, .none⟩

theorem plans_some (h : matchingBrace? text opening = some closing)
    (hopen : text[opening]? = some '\x7b') (lines indent : List Char) (added : List String) :
    Plans text (.ok (some ⟨byteOffset text opening, byteOffset text closing, lines, indent, added⟩))
      (some (insertBeforeClosing text opening closing lines indent added)) :=
  ⟨_, rfl, .some ⟨rfl, rfl, splice_eq h hopen lines indent added⟩⟩

theorem entryIndent_eq {es : List Entry} (hes : ∀ e ∈ es, e.keyStart ≤ text.length)
    (outer : List Char) : entryIndent text (es.map (entryBytes text)) outer
      = .ok (Rewrite.entryIndent text es outer) := by
  cases es with
  | nil => rfl
  | cons e es =>
      rw [entryIndent, List.map_cons, List.head?_cons]
      dsimp only
      rw [entryBytes, ownIndent?_eq (hes e (List.mem_cons_self ..))]
      rfl

theorem any_entryBytes (text : List Char) (es : List Entry) (key : List Char) :
    ((es.map (entryBytes text)).any fun e => !e.quoted && e.key = key)
      = es.any fun e => !e.quoted && e.key = key := by
  rw [List.any_map]
  rfl

theorem plans_valuesPlan? {e : Entry} (hkey : e.keyStart ≤ text.length)
    (hvalue : e.valueStart ≤ text.length) (values : List String) :
    Plans text (valuesPlan? text (entryBytes text e) values)
      (valuesInsertion? text e values) := by
  rw [valuesPlan?, valuesInsertion?, entryBytes]
  dsimp only
  by_cases hopen : text[e.valueStart]? = some '\x7b'
  · have hbyte := (getElem?_bytes_eq_some_iff text (by decide)).mpr hopen
    rw [if_neg (not_not_intro hbyte), if_neg (not_not_intro hopen),
      matchingBrace_byteOffset hvalue, ok_bind]
    cases hclosing : matchingBrace? text e.valueStart with
    | none => exact plans_none
    | some closing =>
        rw [Option.map_some, Option.bind_eq_bind, Option.bind_some]
        dsimp only
        rw [objectEntries_eq hclosing hopen, ok_bind]
        simp only [any_entryBytes]
        split
        case isTrue => exact plans_none
        case isFalse =>
          have hes : ∀ e' ∈ entries text e.valueStart closing, e'.keyStart ≤ text.length :=
            fun e' he' => (le_length_of_mem_entries hclosing he').1
          rw [lineIndent_eq hkey, ok_bind, entryIndent_eq hes, ok_bind]
          exact plans_some hclosing hopen _ _ _
  · have hbyte := mt (getElem?_bytes_eq_some_iff text (by decide)).mp hopen
    rw [if_pos hbyte, if_pos hopen]
    exact plans_none

theorem plans_dimensionPlan {block : Block} {es : List Entry}
    (hes : ∀ e ∈ es, e.keyStart ≤ text.length)
    (h : matchingBrace? text block.opening = some block.closing)
    (hopen : text[block.opening]? = some '\x7b') (dimension : String) (values : List String) :
    Plans text (some <$> dimensionPlan text (blockBytes text block) (es.map (entryBytes text))
      dimension values) (some (dimensionInsertion text block es dimension values)) := by
  have hle : block.opening ≤ text.length := (List.getElem?_eq_some_iff.mp hopen).1.le
  rw [dimensionPlan, blockBytes, lineIndent_eq hle, ok_bind, entryIndent_eq hes, ok_bind]
  exact plans_some h hopen _ _ _

/-- A mapping is planned as the library inserts it. -/
theorem plans_plan? (call : List Char) (m : VariantMapping) (text : List Char) :
    Plans text (plan? call m text) (insertion? call m text) := by
  rw [plan?, insertion?]
  dsimp only
  split
  case isTrue => exact plans_none
  case isFalse =>
    rw [variantBlock_eq, ok_bind]
    cases hblock : variantBlock? call text with
    | none => exact plans_none
    | some block =>
        have hclosing := matchingBrace_of_variantBlock hblock
        have hopen := opening_of_variantBlock hblock
        rw [Option.map_some, Option.bind_eq_bind, Option.bind_some]
        dsimp only
        rw [blockBytes, objectEntries_eq hclosing hopen, ok_bind, List.find?_map]
        have hsame : (fun e : Entry => !e.quoted && e.key = (trimmed m.dimension).toList)
            ∘ entryBytes text = fun e => !e.quoted && e.key = (trimmed m.dimension).toList := rfl
        rw [hsame]
        cases hfind : (entries text block.opening block.closing).find? fun e =>
            !e.quoted && e.key = (trimmed m.dimension).toList with
        | none =>
            exact plans_dimensionPlan (fun e he => (le_length_of_mem_entries hclosing he).1)
              hclosing hopen _ _
        | some e =>
            obtain ⟨hkey, hvalue⟩ :=
              le_length_of_mem_entries hclosing (List.mem_of_find?_eq_some hfind)
            exact plans_valuesPlan? hkey hvalue _

end

theorem performs_variantProgram (call : List Char) (m : VariantMapping) :
    Performs (variantProgram call m) (variantEdit call m) := by
  intro text
  obtain ⟨p, hplan, hmakes⟩ := plans_plan? call m text
  rw [variantProgram, variantEdit, hplan, ok_bind]
  generalize insertion? call m text = i at hmakes ⊢
  cases hmakes with
  | none => rfl
  | some h =>
      dsimp only
      rw [snippet_eq _ (Nat.le_add_right ..), ok_bind, h.splice, ok_bind]
      dsimp only
      rw [snippet_eq _ (Nat.le_add_right ..), h.closing, h.added]
      rfl

end DesignTokens.Bytewise
