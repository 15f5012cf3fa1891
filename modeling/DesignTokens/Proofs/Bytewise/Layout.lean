import DesignTokens.Proofs.Bytewise.Object
import DesignTokens.Proofs.Text.Trim
import DesignTokens.Rewrite.Variant

/-!
# Layout by bytes

A snippet is cut out of a text at two places that may lie inside a character or
beyond the end; each is moved, byte by byte, to where a character starts. The
steps down come to a stop at the start of the text and the steps up at its end
(`snippet_eq`). Lines are found by the last line break before a place
(`lineIndent_eq`, `ownIndent?_eq`).
-/

namespace DesignTokens.Bytewise

open Text Source Rewrite

/-! ## Snippets -/

/-- Whether a character, or the end of the text, is at a place. -/
def startsHere (text : List Char) (i : Nat) : Bool := (positionOf? text i).isSome

/-- The last place up to the given one where a character starts. -/
def floorFrom (text : List Char) (i : Nat) : Run Nat :=
  if startsHere text i then return i
  else if 0 < i then floorFrom text (i - 1) else throw .underflow

/-- The first place from the given one on where a character starts, or the end of the text. -/
def ceilFrom (text : List Char) (i : Nat) : Run Nat :=
  if startsHere text i then return i
  else if i < byteLength text then ceilFrom text (i + 1) else throw .stuck
termination_by byteLength text - i

/-- The text around the bytes from `start` to `stop`, on one line. -/
def snippet (text : List Char) (start stop : Nat) : Run String := do
  let low ← floorFrom text (min (start - snippetMargin) (byteLength text))
  let high ← ceilFrom text (min (stop + snippetMargin) (byteLength text))
  let shown ← slice text low high
  return String.ofList (shown.map fun c => if c = '\n' then ' ' else c)

theorem startsHere_zero (text : List Char) : startsHere text 0 = true := by
  rw [startsHere, positionOf?]
  rfl

theorem startsHere_cons_of_lt {c : Char} {i : Nat} (hpos : 0 < i) (hi : i < c.utf8Size)
    (cs : List Char) : startsHere (c :: cs) i = false := by
  obtain ⟨i, rfl⟩ := Nat.exists_eq_add_of_le' hpos
  rw [startsHere, positionOf?, if_neg (by omega)]
  · rfl
  · exact Nat.succ_ne_zero i

theorem startsHere_cons_add (c : Char) (cs : List Char) (i : Nat) :
    startsHere (c :: cs) (c.utf8Size + i) = startsHere cs i := by
  rw [startsHere, positionOf?_cons, Option.isSome_map, startsHere]

/-! ### Down -/

/-- Inside the first character, the steps down lead to the start of the text. -/
theorem floorFrom_cons_of_lt {c : Char} (cs : List Char) : ∀ {i : Nat}, i < c.utf8Size →
    floorFrom (c :: cs) i = .ok 0
  | 0, _ => by
      rw [floorFrom, if_pos (startsHere_zero _)]
      rfl
  | i + 1, hi => by
      rw [floorFrom, startsHere_cons_of_lt (Nat.succ_pos i) hi, if_neg Bool.false_ne_true,
        if_pos (Nat.succ_pos i), Nat.add_sub_cancel, floorFrom_cons_of_lt cs (by omega)]

/-- Behind the first character, the steps down are those in the rest. -/
theorem floorFrom_cons_add (c : Char) (cs : List Char) : ∀ {i n : Nat}, floorFrom cs i = .ok n →
    floorFrom (c :: cs) (c.utf8Size + i) = .ok (c.utf8Size + n)
  | 0, n, h => by
      rw [floorFrom, if_pos (startsHere_zero cs)] at h
      obtain rfl : 0 = n := Except.ok.inj h
      rw [floorFrom, startsHere_cons_add, if_pos (startsHere_zero cs)]
      rfl
  | i + 1, n, h => by
      rw [floorFrom] at h ⊢
      rw [startsHere_cons_add]
      cases hstarts : startsHere cs (i + 1) with
      | true =>
          rw [hstarts, if_pos rfl] at h
          obtain rfl : i + 1 = n := Except.ok.inj h
          rfl
      | false =>
          rw [hstarts, if_neg Bool.false_ne_true, if_pos (Nat.succ_pos i)] at h
          rw [if_neg Bool.false_ne_true, if_pos (by omega), ← Nat.add_assoc, Nat.add_sub_cancel]
          exact floorFrom_cons_add c cs h

theorem floorFrom_eq : ∀ (text : List Char) (i : Nat), i ≤ byteLength text →
    floorFrom text i = .ok (byteLength (takeWithin i text))
  | [], i, hi => by
      obtain rfl := Nat.le_zero.mp hi
      rw [floorFrom, if_pos (startsHere_zero _)]
      rfl
  | c :: cs, i, hi => by
      rw [takeWithin]
      by_cases hc : c.utf8Size ≤ i
      · obtain ⟨i, rfl⟩ := Nat.exists_eq_add_of_le hc
        rw [byteLength] at hi
        rw [if_pos hc, Nat.add_sub_cancel_left, byteLength]
        exact floorFrom_cons_add c cs (floorFrom_eq cs i (by omega))
      · rw [if_neg hc, floorFrom_cons_of_lt cs (Nat.lt_of_not_le hc), byteLength_nil]

/-! ### Up -/

/-- Inside the first character, the steps up lead to its end. -/
theorem ceilFrom_cons_of_le {c : Char} (cs : List Char) {i : Nat} (hpos : 0 < i)
    (hi : i ≤ c.utf8Size) : ceilFrom (c :: cs) i = .ok c.utf8Size := by
  obtain ⟨n, hn⟩ := Nat.exists_eq_add_of_le hi
  induction n generalizing i with
  | zero =>
      rw [hn, Nat.add_zero]
      have hstart : startsHere (c :: cs) (i + 0) = true := by
        rw [← hn, ← Nat.add_zero c.utf8Size, startsHere_cons_add]
        exact startsHere_zero cs
      rw [ceilFrom, ← Nat.add_zero i, if_pos hstart]
      rfl
  | succ n ih =>
      rw [ceilFrom, startsHere_cons_of_lt hpos (by omega), if_neg Bool.false_ne_true,
        if_pos (by rw [byteLength]; omega)]
      exact ih (Nat.succ_pos i) (by omega) (by omega)

/-- Behind the first character, the steps up are those in the rest. -/
theorem ceilFrom_cons_add (c : Char) (cs : List Char) {i n : Nat} (h : ceilFrom cs i = .ok n) :
    ceilFrom (c :: cs) (c.utf8Size + i) = .ok (c.utf8Size + n) := by
  fun_induction ceilFrom cs i with
  | case1 i hstarts =>
      obtain rfl : i = n := Except.ok.inj h
      rw [ceilFrom, startsHere_cons_add, if_pos hstarts]
      rfl
  | case2 i hstarts hlt ih =>
      rw [ceilFrom, startsHere_cons_add, if_neg hstarts, if_pos (by rw [byteLength]; omega)]
      exact ih h
  | case3 => cases h

theorem takeBytes_zero (text : List Char) : takeBytes 0 text = [] := by
  cases text <;> rw [takeBytes]

theorem ceilFrom_eq (text : List Char) : ∀ i ≤ byteLength text,
    ceilFrom text i = .ok (byteLength (takeBytes i text)) := by
  induction text with
  | nil =>
      intro i hi
      obtain rfl := Nat.le_zero.mp hi
      rw [ceilFrom, if_pos (startsHere_zero _), takeBytes_zero]
      rfl
  | cons c cs ih =>
      intro i hi
      rcases Nat.eq_zero_or_pos i with rfl | hpos
      · rw [ceilFrom, if_pos (startsHere_zero _), takeBytes_zero]
        rfl
      · have htake : takeBytes i (c :: cs) = c :: takeBytes (i - c.utf8Size) cs := by
          rw [takeBytes]
          exact hpos.ne'
        rw [htake, byteLength]
        by_cases hc : i ≤ c.utf8Size
        · rw [ceilFrom_cons_of_le cs hpos hc, Nat.sub_eq_zero_of_le hc, takeBytes_zero]
          rfl
        · obtain ⟨n, rfl⟩ := Nat.exists_eq_add_of_le (Nat.le_of_not_le hc)
          rw [byteLength] at hi
          rw [Nat.add_sub_cancel_left]
          exact ceilFrom_cons_add c cs (ih n (by omega))

/-! ### Between the two -/

theorem takeWithin_of_le : ∀ {text : List Char} {n : Nat}, byteLength text ≤ n →
    takeWithin n text = text
  | [], _, _ => by rw [takeWithin]
  | c :: cs, n, h => by
      rw [byteLength] at h
      rw [takeWithin, if_pos (by omega), takeWithin_of_le (by omega)]

theorem takeBytes_of_le : ∀ {text : List Char} {n : Nat}, byteLength text ≤ n →
    takeBytes n text = text
  | [], _, _ => by rw [takeBytes]
  | c :: cs, n, h => by
      have hsize := c.utf8Size_pos
      rw [byteLength] at h
      rw [takeBytes, takeBytes_of_le (by omega)]
      rintro rfl
      omega

theorem takeWithin_append_dropBytes : ∀ (n : Nat) (text : List Char),
    takeWithin n text ++ dropBytes n text = text
  | _, [] => by rw [takeWithin, dropBytes, List.nil_append]
  | n, c :: cs => by
      rw [takeWithin, dropBytes]
      split
      case isTrue => rw [List.cons_append, takeWithin_append_dropBytes]
      case isFalse => rw [List.nil_append]

theorem exists_takeBytes : ∀ (n : Nat) (text : List Char), ∃ rest, text = takeBytes n text ++ rest
  | n, [] => ⟨[], by rw [takeBytes]; rfl⟩
  | 0, c :: cs => ⟨c :: cs, by rw [takeBytes]; rfl⟩
  | n + 1, c :: cs => by
      obtain ⟨rest, hrest⟩ := exists_takeBytes (n + 1 - c.utf8Size) cs
      refine ⟨rest, ?_⟩
      rw [takeBytes, List.cons_append, ← hrest]
      exact nofun

/-- The shorter start of a text is found in the longer one. -/
theorem takeWithin_takeBytes : ∀ (text : List Char) {m n : Nat}, m ≤ n →
    takeWithin m (takeBytes n text) = takeWithin m text
  | [], _, _, _ => by rw [takeBytes]
  | c :: cs, m, 0, h => by
      obtain rfl := Nat.le_zero.mp h
      have hsize := c.utf8Size_pos
      rw [takeBytes, takeWithin, takeWithin, if_neg (by omega)]
  | c :: cs, m, n + 1, h => by
      rw [takeBytes, takeWithin, takeWithin]
      · split
        case isTrue => rw [takeWithin_takeBytes cs (by omega)]
        case isFalse => rfl
      · exact nofun

/-- A snippet is cut out of the text at its bytes. -/
theorem snippet_eq (text : List Char) {start stop : Nat} (h : start ≤ stop) :
    snippet text start stop = .ok (Text.snippet text start stop) := by
  have hlow : takeWithin (min (start - snippetMargin) (byteLength text)) text
      = takeWithin (start - snippetMargin) text := by
    rcases Nat.le_total (start - snippetMargin) (byteLength text) with hle | hle
    · rw [Nat.min_eq_left hle]
    · rw [Nat.min_eq_right hle, takeWithin_of_le hle, takeWithin_of_le le_rfl]
  have hhigh : takeBytes (min (stop + snippetMargin) (byteLength text)) text
      = takeBytes (stop + snippetMargin) text := by
    rcases Nat.le_total (stop + snippetMargin) (byteLength text) with hle | hle
    · rw [Nat.min_eq_left hle]
    · rw [Nat.min_eq_right hle, takeBytes_of_le hle, takeBytes_of_le le_rfl]
  obtain ⟨rest, hrest⟩ := exists_takeBytes (stop + snippetMargin) text
  have hcut := takeWithin_append_dropBytes (start - snippetMargin)
    (takeBytes (stop + snippetMargin) text)
  rw [takeWithin_takeBytes text (by omega)] at hcut
  rw [snippet, floorFrom_eq _ _ (Nat.min_le_right ..), ok_bind,
    ceilFrom_eq _ _ (Nat.min_le_right ..), ok_bind, hlow, hhigh, Text.snippet]
  generalize takeWithin (start - snippetMargin) text = low at hcut
  generalize dropBytes (start - snippetMargin) (takeBytes (stop + snippetMargin) text) = shown
    at hcut ⊢
  have hslice := slice_append low shown rest
  rw [← List.append_assoc, hcut, ← byteLength_append, hcut, ← hrest] at hslice
  rw [hslice]
  rfl

/-! ## Lines -/

/-- The place where a line starts. -/
def lineStart (text : List Char) (pos : Nat) : Run Nat := do
  let before ← slice text 0 pos
  return byteLength (dropEndWhile (· ≠ '\n') before)

/-- The indentation of the line that a place is on. -/
def lineIndent (text : List Char) (pos : Nat) : Run (List Char) := do
  let start ← lineStart text pos
  let line ← sliceFrom text start
  return line.takeWhile isIndent

/-- The indentation in front of a place, if nothing else is in front of it on its line. -/
def ownIndent? (text : List Char) (pos : Nat) : Run (Option (List Char)) := do
  let start ← lineStart text pos
  let before ← slice text start pos
  return if before.all isIndent then some before else none

/-- The text cut in front of a line and within it. -/
theorem exists_line {text : List Char} {p : Nat} (hp : p ≤ text.length) :
    ∃ a rest, text = a ++ (lineBefore text p ++ rest) ∧ a.length + (lineBefore text p).length = p ∧
      lineStart text (byteOffset text p) = .ok (byteLength a) := by
  have hcut : dropEndWhile (· ≠ '\n') (text.take p) ++ lineBefore text p = text.take p :=
    dropEndWhile_append _ (text.take p)
  refine ⟨dropEndWhile (· ≠ '\n') (text.take p), text.drop p, ?_, ?_, ?_⟩
  · rw [← List.append_assoc, hcut, List.take_append_drop]
  · rw [← List.length_append, hcut, List.length_take_of_le hp]
  · have hslice := slice_byteOffset (Nat.zero_le p) hp
    rw [lineStart, show 0 = byteOffset text 0 from rfl, hslice]
    rfl

theorem lineIndent_eq {text : List Char} {p : Nat} (hp : p ≤ text.length) :
    lineIndent text (byteOffset text p) = .ok (Rewrite.lineIndent text p) := by
  obtain ⟨a, rest, htext, hlength, hstart⟩ := exists_line hp
  rw [lineIndent, hstart, ok_bind, Rewrite.lineIndent]
  generalize lineBefore text p = line at htext hlength ⊢
  subst hlength htext
  rw [sliceFrom_append, ok_bind, Nat.add_sub_cancel, List.drop_left]
  rfl

theorem ownIndent?_eq {text : List Char} {p : Nat} (hp : p ≤ text.length) :
    ownIndent? text (byteOffset text p) = .ok (Rewrite.ownIndent? text p) := by
  obtain ⟨a, rest, htext, hlength, hstart⟩ := exists_line hp
  rw [ownIndent?, hstart, ok_bind, Rewrite.ownIndent?]
  generalize lineBefore text p = line at htext hlength ⊢
  subst hlength htext
  rw [byteOffset, ← List.append_assoc, ← List.length_append, List.take_left, byteLength_append,
    List.append_assoc, slice_append]
  rfl

/-! ## Insertions -/

/-- Puts lines in behind the last entry of an object; the text and the two ends of what is new. -/
def splice (text : List Char) (opening closing : Nat) (lines closingIndent : List Char) :
    Run (List Char × Nat × Nat) := do
  let inside ← slice text (opening + 1) closing
  let last := opening + byteLength (trimEnd inside)
  let b ← byteAt (bytes text) last
  let blank ← slice text (last + 1) closing
  let segment := (if b = ',' || b = '\x7b' then [] else [',']) ++ lines
    ++ if blank.contains '\n' then [] else '\n' :: closingIndent
  let before ← slice text 0 (last + 1)
  let behind ← sliceFrom text (last + 1)
  return (before ++ segment ++ behind, last + 1, last + 1 + byteLength segment)

/-- The comma that goes behind the last entry of an object. -/
def commaBehind (kept : List Char) : List Char :=
  match kept.getLast? with
  | some c => if c = ',' || c = '\x7b' then [] else [',']
  | none => []

/-- The line end that goes in front of the closing brace of an object. -/
def lineEndBehind (blank closingIndent : List Char) : List Char :=
  if blank.contains '\n' then [] else '\n' :: closingIndent

/-- The last byte of an object without its closing brace, and whether a comma goes behind it. -/
theorem exists_lastByte (a kept rest : List Char) :
    ∃ b, byteAt (bytes ((a ++ '\x7b' :: kept) ++ rest)) (byteLength a + byteLength kept) = .ok b ∧
      (if b = ',' || b = '\x7b' then [] else [',']) = commaBehind kept := by
  rcases List.eq_nil_or_concat' kept with rfl | ⟨kept, c, rfl⟩
  · refine ⟨'\x7b', ?_, rfl⟩
    rw [bytes_append, bytes_append, bytes_cons_of_isAscii (by decide), List.append_assoc,
      byteLength_nil, Nat.add_zero, ← length_bytes]
    exact byteAt_append ..
  · obtain ⟨w, b, hb⟩ := (List.eq_nil_or_concat' (charBytes c)).resolve_left
      (spelling_charBytes.ne_nil c)
    refine ⟨b, ?_, ?_⟩
    · have hbytes : bytes ((a ++ '\x7b' :: (kept ++ [c])) ++ rest)
          = (bytes a ++ '\x7b' :: (bytes kept ++ w)) ++ b :: bytes rest := by
        rw [bytes_append, bytes_append, bytes_cons_of_isAscii (by decide), bytes_append, bytes_cons,
          hb]
        simp
      have hplace : byteLength a + byteLength (kept ++ [c])
          = (bytes a ++ '\x7b' :: (bytes kept ++ w)).length := by
        rw [byteLength_append, byteLength, ← length_charBytes, hb]
        simp only [List.length_append, List.length_cons, List.length_nil, length_bytes,
          byteLength_nil]
        omega
      rw [hbytes, hplace, byteAt_append]
    · rw [commaBehind, List.getLast?_concat]
      cases hc : isAscii c with
      | true =>
          rw [spelling_charBytes.same c hc] at hb
          obtain rfl : c = b := by simpa using congrArg List.getLast? hb
          rfl
      | false =>
          have hneither : ∀ {d}, isAscii d = false → (d = ',' || d = '\x7b') = false := by
            intro d hd
            rw [decide_eq_false (ne_of_not_isAscii hd (by decide)),
              decide_eq_false (ne_of_not_isAscii hd (by decide)), Bool.or_false]
          dsimp only
          rw [hneither hc, hneither ((spelling_charBytes.other c hc).2 b (by simp [hb]))]

/-- Lines are put in between an object's last entry and the white space behind it. -/
theorem splice_append (a : List Char) {kept blank : List Char}
    (hkept : trimEnd (kept ++ blank) = kept) (rest lines indent : List Char) :
    splice ((a ++ '\x7b' :: kept) ++ (blank ++ '\x7d' :: rest)) (byteLength a)
        (byteLength (a ++ '\x7b' :: kept) + byteLength blank) lines indent
      = .ok ((a ++ '\x7b' :: kept) ++ (commaBehind kept ++ lines ++ lineEndBehind blank indent)
            ++ (blank ++ '\x7d' :: rest),
          byteLength (a ++ '\x7b' :: kept), byteLength (a ++ '\x7b' :: kept)
            + byteLength (commaBehind kept ++ lines ++ lineEndBehind blank indent)) := by
  have hlast : byteLength a + byteLength kept + 1 = byteLength (a ++ '\x7b' :: kept) := by
    rw [byteLength_append, byteLength, Nat.add_assoc, Nat.add_comm _ 1]
    rfl
  have hinside : slice ((a ++ '\x7b' :: kept) ++ (blank ++ '\x7d' :: rest)) (byteLength a + 1)
      (byteLength (a ++ '\x7b' :: kept) + byteLength blank) = .ok (kept ++ blank) := by
    have hcut := slice_append (a ++ ['\x7b']) (kept ++ blank) ('\x7d' :: rest)
    rw [byteLength_append, byteLength_append kept, show byteLength ['\x7b'] = 1 from rfl] at hcut
    rw [← hlast, Nat.add_right_comm _ (byteLength kept), Nat.add_assoc _ (byteLength kept)]
    simpa using hcut
  obtain ⟨b, hbyte, hcomma⟩ := exists_lastByte a kept (blank ++ '\x7d' :: rest)
  rw [splice, hinside, ok_bind, hkept]
  dsimp only
  rw [hbyte, ok_bind, hlast, slice_append, ok_bind, slice_zero, ok_bind, sliceFrom_append, ok_bind,
    hcomma]
  rfl

/-- Lines are put in at the bytes of the insertion. -/
theorem splice_eq {text : List Char} {opening closing : Nat}
    (h : matchingBrace? text opening = some closing) (hopen : text[opening]? = some '\x7b')
    (lines indent : List Char) (added : List String) :
    splice text (byteOffset text opening) (byteOffset text closing) lines indent
      = .ok (let i := insertBeforeClosing text opening closing lines indent added
          (i.apply text, byteOffset text i.position,
            byteOffset text i.position + byteLength i.segment)) := by
  obtain ⟨a, rest, htext, rfl, hclosing⟩ := exists_object h hopen
  rw [insertBeforeClosing]
  generalize between text a.length closing = inside at htext hclosing ⊢
  obtain ⟨blank, hinside, -⟩ := exists_trimEnd inside
  have hkept : trimEnd (trimEnd inside ++ blank) = trimEnd inside := by rw [← hinside]
  generalize trimEnd inside = kept at hinside hkept ⊢
  have hsplice := splice_append a hkept rest lines indent
  have hopening : byteOffset text a.length = byteLength a := by
    rw [byteOffset, htext, List.take_left]
  have hcut : text = (a ++ '\x7b' :: kept) ++ (blank ++ '\x7d' :: rest) := by
    rw [htext, hinside]
    simp
  have hposition : a.length + 1 + kept.length = (a ++ '\x7b' :: kept).length := by
    rw [List.length_append, List.length_cons]
    omega
  have hclose : byteOffset text closing
      = byteLength (a ++ '\x7b' :: kept) + byteLength blank := by
    have hlength : closing = ((a ++ '\x7b' :: kept) ++ blank).length := by
      rw [List.length_append, ← hposition, hclosing, hinside, List.length_append, ← Nat.add_assoc]
    rw [byteOffset, hcut, hlength, ← List.append_assoc, List.take_left, byteLength_append]
  rw [← hcut] at hsplice
  rw [hopening, hclose, hsplice]
  dsimp only
  rw [Insertion.apply, hposition, hcut, byteOffset, List.take_left, List.drop_left, hinside,
    List.drop_left]
  rfl

end DesignTokens.Bytewise
