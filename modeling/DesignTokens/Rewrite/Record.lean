import DesignTokens.Text.Position

/-!
# Passes and their records

A rewriting runs in four passes. Each change that a pass makes leaves a record
with the text around it before and after. A pass is a list of *edits* tried one
after the other, each on the text that the edit before it has left; an edit
gives the new text and its record, or nothing if it has nothing to do.
-/

namespace DesignTokens.Rewrite

/-- The passes of a rewriting. -/
inductive Pass where
  | colors
  | spacing
  | variants
  | reservedNames
  deriving Repr, DecidableEq

/-- The passes in the order in which they run. -/
def Pass.all : List Pass := [colors, spacing, variants, reservedNames]

/-- The name of a pass. -/
def Pass.name : Pass → String
  | colors => "ColorReplacement"
  | spacing => "SpacingReplacement"
  | variants => "VariantInsertion"
  | reservedNames => "ConflictResolution"

/-- A change that a pass has made. -/
structure Record where
  pass : Pass
  issueId : Option String
  description : String
  before : String
  after : String
  deriving Repr, DecidableEq

/-- A change of a text with its record, if there is anything to change. -/
abbrev Edit := List Char → Option (List Char × Record)

/-- The text and the records behind a row of edits. -/
def runEdits : List Edit → List Char → List Char × List Record
  | [], text => (text, [])
  | edit :: edits, text =>
    match edit text with
    | none => runEdits edits text
    | some (changed, record) =>
      let (last, records) := runEdits edits changed
      (last, record :: records)

/-- Edits that have nothing to do leave the text as it is. -/
theorem runEdits_of_forall_none {edits : List Edit} {text : List Char}
    (h : ∀ e ∈ edits, e text = none) : runEdits edits text = (text, []) := by
  induction edits with
  | nil => rfl
  | cons e es ih =>
    rw [runEdits, h e (List.mem_cons_self ..)]
    exact ih fun e' he' => h e' (List.mem_cons_of_mem _ he')

/-- Without a record the text is the same. -/
theorem runEdits_fst_of_snd_nil {edits : List Edit} {text : List Char}
    (h : (runEdits edits text).2 = []) : (runEdits edits text).1 = text := by
  induction edits generalizing text with
  | nil => rfl
  | cons e es ih =>
    rw [runEdits] at h ⊢
    cases he : e text with
    | none =>
      rw [he] at h
      exact ih h
    | some r =>
      rw [he] at h
      simp at h

end DesignTokens.Rewrite
