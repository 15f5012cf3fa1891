import DesignTokens.Proofs.Bytewise.Object
import DesignTokens.Proofs.Source.Located

/-!
# The variant block by its bytes

The call and the word `variants` are found by patterns, whose matches are given by
their bytes. A match for the variants comes to its end with an opening brace, so
the byte in front of its end is that of the brace (`ends_variantsPattern`), and
from there the matching one is looked for (`variantBlock_eq`).
-/

namespace DesignTokens.Bytewise

open Text Source

/-! ## The search -/

/-- The two ends of a stretch of a text, by their bytes. -/
def spanBytes (text : List Char) (s : Span) : Nat × Nat :=
  (byteOffset text s.start, byteOffset text s.stop)

/-- The leftmost match of a pattern from a place on. -/
def findFrom (p : Pattern) (text : List Char) (start : Nat) : Run (Option (Nat × Nat)) := do
  let position ← boundary text start
  return (p.firstBehind? text position).map (spanBytes text)

/-- The object of the variants, by the bytes of its braces. -/
def variantBlock (call text : List Char) : Run (Option Block) := do
  let start := ((((callPattern call).first? text).map (spanBytes text)).map (·.2)).getD 0
  let behind ← findFrom variantsPattern text start
  match behind.or ((variantsPattern.first? text).map (spanBytes text)) with
  | none => return none
  | some (_, stop) => do
    let opening ← minus stop 1
    match ← matchingBrace text opening with
    | none => return none
    | some closing => return some ⟨opening, closing⟩

/-! ## What is found -/

/-- The block by the bytes of its braces. -/
def blockBytes (text : List Char) (b : Block) : Block :=
  ⟨byteOffset text b.opening, byteOffset text b.closing⟩

theorem findFrom_eq (p : Pattern) {text : List Char} {pos : Nat} (hpos : pos ≤ text.length) :
    findFrom p text (byteOffset text pos)
      = .ok ((p.firstBehind? text pos).map (spanBytes text)) := by
  rw [findFrom, boundary_byteOffset hpos]
  rfl

/-- The variant block is found by its bytes. -/
theorem variantBlock_eq (call text : List Char) :
    variantBlock call text = .ok ((variantBlock? call text).map (blockBytes text)) := by
  have hstart : ((((callPattern call).first? text).map (spanBytes text)).map (·.2)).getD 0
      = byteOffset text (callEnd call text) := by
    rw [callEnd]
    cases (callPattern call).first? text <;> rfl
  rw [variantBlock, hstart, findFrom_eq _ (callEnd_le call text), ok_bind, ← Option.map_or,
    variantBlock?_eq, ← callEnd]
  cases hs : (variantsPattern.firstBehind? text (callEnd call text)).or
      (variantsPattern.first? text) with
  | none => rfl
  | some s =>
      obtain ⟨a, rest, rfl, hstop⟩ := exists_variants hs
      have hbyte : byteOffset (a ++ '\x7b' :: rest) s.stop = byteLength a + 1 := by
        rw [hstop, byteOffset, List.take_length_add_append, byteLength_append]
        rfl
      rw [Option.map_some, spanBytes, hbyte, Option.bind_some, hstop, Nat.add_sub_cancel]
      dsimp only
      rw [minus_of_le (Nat.le_add_left ..), ok_bind, Nat.add_sub_cancel, matchingBrace_eq, ok_bind]
      cases matchingBrace? (a ++ '\x7b' :: rest) a.length with
      | none => rfl
      | some closing =>
          have hopening : byteOffset (a ++ '\x7b' :: rest) a.length = byteLength a := by
            rw [byteOffset, List.take_left]
          rw [Option.map_some, Option.map_some, Option.map_some, blockBytes, hopening]
          rfl

end DesignTokens.Bytewise
