import DesignTokens.Proofs.Bytewise.View
import DesignTokens.Proofs.Rewrite.Insertion
import DesignTokens.Proofs.Source.Located

/-!
# The variant pass only inserts

Each mapping of the variant pass is tried on the text that the one before it has
left, and it either leaves that text alone or puts one segment into it, inside
the object that it extends (`Insertion.Within`). So the steps of the pass lead
from the source to its result, one for each record and none besides (`Grown`),
and the segments are told by the numbers of bytes in front of them and in them.
Deleting them from the last to the first gives the source back byte for byte
(`variants_only_insert`).
-/

namespace DesignTokens.Rewrite

open Text Source Bytewise

/-! ## One insertion -/

/-- The object that a mapping extends: the variant block, or the object of an entry in it that has
the name of the dimension. -/
inductive Extends (call : List Char) (m : VariantMapping) (text : List Char) : Block → Prop
  | block {b : Block} (hblock : variantBlock? call text = some b) : Extends call m text b
  | dimension {b : Block} (hblock : variantBlock? call text = some b) {e : Entry}
      (he : e ∈ entries text b.opening b.closing) (hquoted : e.quoted = false)
      (hkey : e.key = (trimmed m.dimension).toList) {closing : Nat}
      (hclosing : matchingBrace? text e.valueStart = some closing) :
      Extends call m text ⟨e.valueStart, closing⟩

/-- The segment of an insertion stands inside an object, and what the object has behind it is white
space. -/
structure Insertion.Within (i : Insertion) (text : List Char) (b : Block) : Prop where
  opening_brace : text[b.opening]? = some '\x7b'
  matching : matchingBrace? text b.opening = some b.closing
  behind_opening : b.opening < i.position
  not_behind_closing : i.position ≤ b.closing
  blank : ∀ c ∈ (text.drop i.position).take (b.closing - i.position), isWhiteSpace c = true
  segment_ne : i.segment ≠ []

section

variable {call text : List Char} {m : VariantMapping}

theorem within_insertBeforeClosing {opening closing : Nat}
    (hopen : text[opening]? = some '\x7b')
    (hclosing : matchingBrace? text opening = some closing) {indent : List Char}
    (hindent : ∀ c ∈ indent, isIndent c = true) {lines : List Char} (hlines : lines ≠ [])
    (added : List String) :
    (insertBeforeClosing text opening closing lines indent added).Within text
      ⟨opening, closing⟩ := by
  obtain ⟨front, blank, rest, comma, lineEnd, shape⟩ := exists_shape hclosing hindent lines added
  have hbehind : opening < (insertBeforeClosing text opening closing lines indent added).position :=
    Nat.lt_of_lt_of_le (Nat.lt_succ_self opening) (Nat.le_add_right ..)
  have hplace : closing = (insertBeforeClosing text opening closing lines indent added).closing :=
    rfl
  generalize insertBeforeClosing text opening closing lines indent added = i at *
  have hcount : closing - i.position = blank.length := by
    rw [hplace, shape.closing_eq, shape.position_eq, Nat.add_sub_cancel_left]
  refine ⟨hopen, hclosing, hbehind, ?_, ?_, ?_⟩
  · show i.position ≤ closing
    rw [hplace, shape.closing_eq, shape.position_eq]
    exact Nat.le_add_right ..
  · intro c hc
    refine shape.blank_all c ?_
    dsimp only at hc
    rwa [hcount, shape.position_eq, shape.text_eq, List.drop_left, List.take_left] at hc
  · rw [shape.segment_eq]
    simp [hlines]

/-- A mapping puts its segment into the object that it extends. -/
theorem Inserts.exists_within {i : Insertion} (h : Inserts call m text i) :
    ∃ b, Extends call m text b ∧ i.Within text b := by
  cases h with
  | dimension block hblock =>
      refine ⟨block, .block hblock, ?_⟩
      exact within_insertBeforeClosing (opening_of_variantBlock hblock)
        (matchingBrace_of_variantBlock hblock) isIndent_lineIndent (by simp [dimensionLines]) _
  | values block hblock e he hquoted hkey hopen closing hclosing hmissing =>
      refine ⟨⟨e.valueStart, closing⟩, .dimension hblock he hquoted hkey hclosing, ?_⟩
      refine within_insertBeforeClosing hopen hclosing isIndent_lineIndent ?_ _
      obtain ⟨v, vs, hvs⟩ := List.exists_cons_of_ne_nil hmissing
      simp [missingLines, hvs, valueLine]

end

/-! ## Deleting a segment -/

/-- Bytes without a number of them behind a place. -/
def deleteBytes (start count : Nat) (bs : List Char) : List Char :=
  bs.take start ++ bs.drop (start + count)

theorem deleteBytes_append (a segment b : List Char) :
    deleteBytes a.length segment.length (a ++ segment ++ b) = a ++ b := by
  rw [deleteBytes, ← List.length_append, List.drop_left, List.append_assoc, List.take_left]

theorem Insertion.deleteBytes_apply (i : Insertion) (text : List Char) :
    deleteBytes (byteOffset text i.position) (byteLength i.segment) (bytes (i.apply text))
      = bytes text := by
  rw [Insertion.apply, bytes_append, bytes_append, byteOffset, ← length_bytes, ← length_bytes,
    deleteBytes_append, ← bytes_append, List.take_append_drop]

/-! ## The steps of the pass -/

/-- A step of the pass: an insertion into a text for a mapping, the object that it extends and the
record that it leaves. -/
structure Step where
  text : List Char
  mapping : VariantMapping
  object : Block
  insertion : Insertion
  record : Record

namespace Step

/-- The text behind a step. -/
def after (s : Step) : List Char := s.insertion.apply s.text

/-- Deletes the segment of a step from bytes. -/
def delete (s : Step) (bs : List Char) : List Char :=
  deleteBytes (byteOffset s.text s.insertion.position) (byteLength s.insertion.segment) bs

theorem delete_after (s : Step) : s.delete (bytes s.after) = bytes s.text :=
  s.insertion.deleteBytes_apply s.text

/-- The step is what its mapping does to its text, and its segment stands inside the object that the
mapping extends. -/
structure Fits (call : List Char) (s : Step) : Prop where
  edit : variantEdit call s.mapping s.text = some (s.after, s.record)
  object : Extends call s.mapping s.text s.object
  within : s.insertion.Within s.text s.object

end Step

/-- The steps lead from a text to another, each from what the one before it has left. -/
inductive Grown (call : List Char) : List Char → List Step → List Char → Prop
  | nil {text : List Char} : Grown call text [] text
  | cons {s : Step} {steps : List Step} {last : List Char} (hfits : s.Fits call)
      (hlater : Grown call s.after steps last) : Grown call s.text (s :: steps) last

section

variable {call text last : List Char}

/-- A mapping that leaves a record makes one step. -/
theorem exists_step_of_variantEdit {m : VariantMapping} {changed : List Char} {r : Record}
    (h : variantEdit call m text = some (changed, r)) :
    ∃ s : Step, s.Fits call ∧ s.text = text ∧ s.mapping = m ∧ s.record = r ∧ s.after = changed := by
  obtain ⟨i, hi, hleft⟩ := Option.bind_eq_some_iff.mp h
  obtain ⟨b, hextends, hwithin⟩ := (inserts_of_insertion hi).exists_within
  obtain ⟨hafter, -⟩ := Prod.mk.inj (Option.some.inj hleft)
  refine ⟨⟨text, m, b, i, r⟩, ⟨?_, hextends, hwithin⟩, rfl, rfl, rfl, hafter⟩
  rw [h, Step.after, hafter]

/-- Deleting the segments from the last to the first undoes the steps. -/
theorem Grown.delete_eq {steps : List Step} (h : Grown call text steps last) :
    steps.foldr Step.delete (bytes last) = bytes text := by
  induction h with
  | nil => rfl
  | @cons s steps last hfits hlater ih => rw [List.foldr_cons, ih, s.delete_after]

/-- The pass makes a step for each record, in the order of the mappings. -/
theorem exists_grown_runEdits : ∀ (ms : List VariantMapping) (text : List Char),
    ∃ steps : List Step, Grown call text steps (runEdits (variantEdits call ms) text).1 ∧
      steps.map (·.record) = (runEdits (variantEdits call ms) text).2 ∧
      (steps.map (·.mapping)).Sublist ms
  | [], _ => ⟨[], .nil, rfl, .refl _⟩
  | m :: ms, text => by
      rw [variantEdits, List.map_cons, runEdits, ← variantEdits]
      cases hedit : variantEdit call m text with
      | none =>
          obtain ⟨steps, hgrown, hrecords, hmappings⟩ := exists_grown_runEdits ms text
          exact ⟨steps, hgrown, hrecords, hmappings.cons m⟩
      | some x =>
          obtain ⟨changed, r⟩ := x
          obtain ⟨steps, hgrown, hrecords, hmappings⟩ := exists_grown_runEdits ms changed
          obtain ⟨s, hfits, rfl, rfl, rfl, rfl⟩ := exists_step_of_variantEdit hedit
          exact ⟨s :: steps, .cons hfits hgrown, congrArg (s.record :: ·) hrecords,
            hmappings.cons_cons s.mapping⟩

end

/-- The pass puts a segment into the object that a mapping extends for each record, and does nothing
else to the text. -/
theorem variants_only_insert (policy : Policy) (ms : List VariantMapping) (text : List Char) :
    ∃ steps : List Step,
      Grown policy.variantCall.toList text steps
        (runEdits (variantEdits policy.variantCall.toList ms) text).1 ∧
      steps.map (·.record) = (runEdits (variantEdits policy.variantCall.toList ms) text).2 ∧
      (steps.map (·.mapping)).Sublist ms ∧
      steps.foldr Step.delete (bytes (runEdits (variantEdits policy.variantCall.toList ms) text).1)
        = bytes text := by
  obtain ⟨steps, hgrown, hrecords, hmappings⟩ := exists_grown_runEdits ms text
  exact ⟨steps, hgrown, hrecords, hmappings, hgrown.delete_eq⟩

end DesignTokens.Rewrite
