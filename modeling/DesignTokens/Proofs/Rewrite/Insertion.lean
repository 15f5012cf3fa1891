import DesignTokens.Proofs.Rewrite.Edits
import DesignTokens.Proofs.Source.Entry
import DesignTokens.Proofs.Text.Trim
import DesignTokens.Rewrite.Variant

/-!
# Where an insertion stands

An insertion is made in front of the white space that the closing brace of an
object has in front of it (`Insertion.Shape`), and what it puts in are the lines
of a new dimension or those of new values of an old one (`Inserts`).
-/

namespace DesignTokens.Rewrite

open Text Source

/-! ## The place of an insertion -/

/-- An insertion of lines into a text, between what is in front of it and the white space that the
closing brace has in front of it. The lines may get a comma before and a line end behind them. -/
structure Insertion.Shape (i : Insertion) (text lines front blank rest comma lineEnd : List Char) :
    Prop where
  text_eq : text = front ++ (blank ++ '\x7d' :: rest)
  position_eq : i.position = front.length
  closing_eq : i.closing = front.length + blank.length
  segment_eq : i.segment = comma ++ lines ++ lineEnd
  blank_all : ∀ c ∈ blank, isWhiteSpace c = true
  lineEnd_all : ∀ c ∈ lineEnd, isWhiteSpace c = true
  comma_eq : comma = [','] ∨
    comma = [] ∧ ∃ c, front.getLast? = some c ∧ (c = ',' ∨ c = '\x7b')

namespace Insertion.Shape

variable {i : Insertion} {text lines front blank rest comma lineEnd : List Char}

theorem apply_eq (shape : i.Shape text lines front blank rest comma lineEnd) :
    i.apply text = front ++ (comma ++ lines ++ lineEnd ++ (blank ++ '\x7d' :: rest)) := by
  rw [Insertion.apply, shape.position_eq, shape.segment_eq, shape.text_eq, List.take_left,
    List.drop_left, List.append_assoc front]

theorem take_closing (shape : i.Shape text lines front blank rest comma lineEnd) :
    text.take i.closing = front ++ blank := by
  rw [shape.closing_eq, shape.text_eq, ← List.append_assoc, ← List.length_append, List.take_left]

end Insertion.Shape

theorem isWhiteSpace_of_isIndent {c : Char} (h : isIndent c = true) : isWhiteSpace c = true := by
  simp only [isIndent, Bool.or_eq_true, decide_eq_true_eq] at h
  rcases h with rfl | rfl <;> decide

theorem isIndent_lineIndent {text : List Char} {pos : Nat} :
    ∀ c ∈ lineIndent text pos, isIndent c = true :=
  fun _ hc => List.mem_takeWhile_imp hc

theorem isIndent_entryIndent {text outer : List Char} (houter : ∀ c ∈ outer, isIndent c = true)
    (es : List Entry) : ∀ c ∈ entryIndent text es outer, isIndent c = true := by
  rw [entryIndent]
  cases hown : es.head?.bind fun e => ownIndent? text e.keyStart with
  | none =>
      intro c hc
      rcases List.mem_append.mp hc with hc | hc
      · exact houter c hc
      · obtain rfl : c = ' ' := by simpa using hc
        rfl
  | some own =>
      obtain ⟨e, -, he⟩ := Option.bind_eq_some_iff.mp hown
      rw [ownIndent?] at he
      split at he
      case isTrue hall =>
        obtain rfl := Option.some.inj he
        exact List.all_eq_true.mp hall
      case isFalse => cases he

/-- The comma behind the last entry of an object, where it has none. -/
def separator (kept : List Char) : List Char :=
  match kept.getLast? with
  | some c => if c = ',' || c = '\x7b' then [] else [',']
  | none => []

/-- Lines are put in between the last entry of an object and the white space behind it. -/
theorem exists_shape_behind {text : List Char} {opening closing : Nat}
    (hclosing : matchingBrace? text opening = some closing) {indent : List Char}
    (hindent : ∀ c ∈ indent, isIndent c = true) (lines : List Char) (added : List String) :
    ∃ d blank rest lineEnd, between text opening closing
        = trimEnd (between text opening closing) ++ blank ∧
      (insertBeforeClosing text opening closing lines indent added).Shape text lines
        (text.take opening ++ d :: trimEnd (between text opening closing)) blank rest
        (separator (trimEnd (between text opening closing))) lineEnd := by
  obtain ⟨d, rest, htext, hopening, hclosing, hd⟩ := exists_between hclosing
  obtain ⟨blank, hinside, hblank⟩ := exists_trimEnd (between text opening closing)
  have hlength : (between text opening closing).length
      = (trimEnd (between text opening closing)).length + blank.length := by
    rw [← List.length_append, ← hinside]
  have hfront : (text.take opening ++ d :: trimEnd (between text opening closing)).length
      = opening + 1 + (trimEnd (between text opening closing)).length := by
    rw [List.length_append, List.length_cons, hopening]
    omega
  refine ⟨d, blank, rest, _, hinside, ?_, hfront.symm, ?_, rfl, hblank, ?_, ?_⟩
  · conv_lhs => rw [htext, hinside]
    simp
  · rw [hfront]
    exact hclosing.trans (by omega)
  · split
    case isTrue => simp
    case isFalse =>
      intro c hc
      rcases List.mem_cons.mp hc with rfl | hc
      · rfl
      · exact isWhiteSpace_of_isIndent (hindent c hc)
  · rw [separator]
    cases hlast : (trimEnd (between text opening closing)).getLast? with
    | none =>
        -- between two braces with nothing but white space, the first one is the opening brace
        have hnil : trimEnd (between text opening closing) = [] :=
          List.getLast?_eq_none_iff.mp hlast
        have hbrace : d = '\x7b' := by
          refine hd.resolve_right fun hmem => ?_
          rw [hinside, hnil, List.nil_append] at hmem
          exact absurd (hblank _ hmem) (by decide)
        exact .inr ⟨rfl, d, by simp [hnil], .inr hbrace⟩
    | some c =>
        by_cases hc : c = ',' || c = '\x7b'
        · refine .inr ⟨if_pos hc, c, ?_, by simpa using hc⟩
          rw [List.getLast?_append_cons, List.getLast?_cons, hlast]
          rfl
        · exact .inl (if_neg hc)

theorem exists_shape {text : List Char} {opening closing : Nat}
    (hclosing : matchingBrace? text opening = some closing) {indent : List Char}
    (hindent : ∀ c ∈ indent, isIndent c = true) (lines : List Char) (added : List String) :
    ∃ front blank rest comma lineEnd,
      (insertBeforeClosing text opening closing lines indent added).Shape text lines
        front blank rest comma lineEnd := by
  obtain ⟨d, blank, rest, lineEnd, -, shape⟩ := exists_shape_behind hclosing hindent lines added
  exact ⟨_, blank, rest, _, lineEnd, shape⟩

/-! ## The lines of an insertion -/

/-- The values that the object of an entry does not have. -/
def missingValues (text : List Char) (e : Entry) (closing : Nat) (values : List String) :
    List String :=
  values.filter fun v =>
    !(entries text e.valueStart closing).any fun e => !e.quoted && e.key = v.toList

/-- The lines of the values that an object does not have. -/
def missingLines (text : List Char) (e : Entry) (closing : Nat) (values : List String) :
    List Char :=
  (missingValues text e closing values).flatMap
    (valueLine (entryIndent text (entries text e.valueStart closing) (lineIndent text e.keyStart)))

/-- The two things that a mapping can put in: a dimension that its variant block does not have, or
values that the object of a dimension does not have. -/
inductive Inserts (call : List Char) (m : VariantMapping) (text : List Char) : Insertion → Prop
  | dimension (block : Block) (hblock : variantBlock? call text = some block) :
      Inserts call m text (dimensionInsertion text block
        (entries text block.opening block.closing) (trimmed m.dimension) (wantedValues m))
  | values (block : Block) (hblock : variantBlock? call text = some block) (e : Entry)
      (he : e ∈ entries text block.opening block.closing) (hquoted : e.quoted = false)
      (hkey : e.key = (trimmed m.dimension).toList)
      (hopen : text[e.valueStart]? = some '\x7b') (closing : Nat)
      (hclosing : matchingBrace? text e.valueStart = some closing)
      (hmissing : missingValues text e closing (wantedValues m) ≠ []) :
      Inserts call m text (insertBeforeClosing text e.valueStart closing
        (missingLines text e closing (wantedValues m)) (lineIndent text e.keyStart)
        (missingValues text e closing (wantedValues m)))

theorem exists_of_valuesInsertion {text : List Char} {e : Entry} {values : List String}
    {i : Insertion} (h : valuesInsertion? text e values = some i) :
    text[e.valueStart]? = some '\x7b' ∧ ∃ closing,
      matchingBrace? text e.valueStart = some closing ∧
      missingValues text e closing values ≠ [] ∧
      i = insertBeforeClosing text e.valueStart closing (missingLines text e closing values)
        (lineIndent text e.keyStart) (missingValues text e closing values) := by
  rw [valuesInsertion?] at h
  split at h
  case isTrue => cases h
  case isFalse hopen =>
    obtain ⟨closing, hclosing, h⟩ := Option.bind_eq_some_iff.mp h
    dsimp only at h
    split at h
    case isTrue => cases h
    case isFalse hmissing =>
      refine ⟨not_not.mp hopen, closing, hclosing, ?_, (Option.some.inj h).symm⟩
      simpa [missingValues] using hmissing

theorem inserts_of_insertion {call text : List Char} {m : VariantMapping} {i : Insertion}
    (h : insertion? call m text = some i) : Inserts call m text i := by
  rw [insertion?] at h
  dsimp only at h
  split at h
  case isTrue => cases h
  case isFalse =>
    obtain ⟨block, hblock, h⟩ := Option.bind_eq_some_iff.mp h
    split at h
    case h_1 e hfound =>
      have hkey := List.find?_some hfound
      simp only [Bool.and_eq_true, Bool.not_eq_true', decide_eq_true_eq] at hkey
      obtain ⟨hopen, closing, hclosing, hmissing, rfl⟩ := exists_of_valuesInsertion h
      exact .values block hblock e (List.mem_of_find?_eq_some hfound) hkey.1 hkey.2 hopen closing
        hclosing hmissing
    case h_2 =>
      obtain rfl := Option.some.inj h
      exact .dimension block hblock

theorem matchingBrace_of_variantBlock {call text : List Char} {block : Block}
    (h : variantBlock? call text = some block) :
    matchingBrace? text block.opening = some block.closing := by
  obtain ⟨found, -, h⟩ := Option.bind_eq_some_iff.mp h
  obtain ⟨closing, hclosing, h⟩ := Option.bind_eq_some_iff.mp h
  obtain rfl := Option.some.inj h
  exact hclosing

theorem after_variantEdit (call : List Char) (m : VariantMapping) (text : List Char) :
    (variantEdit call m).after text = ((insertion? call m text).map (·.apply text)).getD text := by
  rw [Edit.after, variantEdit]
  cases insertion? call m text <;> rfl

/-- Every insertion has its shape, and its lines are those of a dimension or of values. -/
theorem Inserts.exists_shape {call text : List Char} {m : VariantMapping} {i : Insertion}
    (h : Inserts call m text i) :
    ∃ lines indent, (∀ c ∈ indent, isIndent c = true) ∧
      (lines = dimensionLines indent (trimmed m.dimension) i.added ∨
        i.added ≠ [] ∧ lines = i.added.flatMap (valueLine indent)) ∧
      ∃ front blank rest comma lineEnd, i.Shape text lines front blank rest comma lineEnd := by
  cases h with
  | dimension block hblock =>
      have hindent : ∀ c ∈ lineIndent text block.opening, isIndent c = true := isIndent_lineIndent
      exact ⟨_, _, isIndent_entryIndent hindent _, .inl rfl,
        Rewrite.exists_shape (matchingBrace_of_variantBlock hblock) hindent _ _⟩
  | values block hblock e he hquoted hkey hopen closing hclosing hmissing =>
      have hindent : ∀ c ∈ lineIndent text e.keyStart, isIndent c = true := isIndent_lineIndent
      exact ⟨_, _, isIndent_entryIndent hindent _, .inr ⟨hmissing, rfl⟩,
        Rewrite.exists_shape hclosing hindent _ _⟩

end DesignTokens.Rewrite
