import DesignTokens.Proofs.Source.Reading
import DesignTokens.Proofs.Text.Place

/-!
# A text and its bytes

The library counts characters. A program that works on UTF-8 counts bytes: it
looks at single bytes, and it cuts a text at places that are given as numbers of
bytes. A byte stands here for the character of the same number. So the bytes of a
text are a list of characters again, ASCII characters stand for themselves
(`bytes`), and whatever looks for ASCII characters only finds them in the bytes
where it finds them in the text.

Looking and cutting can go wrong, and `Trap` says how. A `Run` gives a value or
ends in a trap; `byteAt`, `slice` and `minus` are the steps that may end in one.
-/

namespace DesignTokens.Bytewise

open Text

/-! ## Bytes -/

/-- The bytes of a character. -/
def charBytes (c : Char) : List Char :=
  (String.utf8EncodeChar c).map fun b => Char.ofNat b.toNat

/-- The bytes of a text. -/
def bytes (text : List Char) : List Char := text.flatMap charBytes

def isAscii (c : Char) : Bool := c.toNat < 128

/-- An ASCII character is spelled by itself, and any other one by some that are none. -/
structure Spelling (spell : Char → List Char) : Prop where
  same : ∀ c, isAscii c = true → spell c = [c]
  other : ∀ c, isAscii c = false → spell c ≠ [] ∧ ∀ b ∈ spell c, isAscii b = false

theorem toNat_ofNat {n : Nat} (h : n < 256) : (Char.ofNat n).toNat = n := by
  have hvalid : n.isValidChar := .inl (by omega)
  rw [Char.ofNat, dif_pos hvalid]
  rfl

theorem isAscii_ofNat {n : Nat} (hlow : 128 ≤ n) (hhigh : n < 256) :
    isAscii (Char.ofNat (UInt8.ofNat n).toNat) = false := by
  have hbyte : (UInt8.ofNat n).toNat = n := by
    rw [UInt8.toNat_ofNat']
    exact Nat.mod_eq_of_lt hhigh
  rw [hbyte, isAscii, toNat_ofNat hhigh, decide_eq_false_iff_not]
  omega

theorem spelling_charBytes : Spelling charBytes where
  same c hc := by
    have hcode : c.val.toNat < 128 := of_decide_eq_true hc
    have hbyte : (UInt8.ofNat c.val.toNat).toNat = c.toNat := by
      rw [UInt8.toNat_ofNat']
      exact Nat.mod_eq_of_lt (by omega)
    rw [charBytes, String.utf8EncodeChar.eq_def]
    simp only [if_pos (Nat.le_of_lt_succ hcode), List.map_cons, List.map_nil, hbyte,
      Char.ofNat_toNat]
  other c hc := by
    have hcode : ¬c.val.toNat ≤ 127 := fun h => of_decide_eq_false hc (Nat.lt_succ_of_le h)
    refine ⟨fun hnil => String.utf8EncodeChar_ne_nil (List.map_eq_nil_iff.mp hnil), ?_⟩
    rw [charBytes, String.utf8EncodeChar.eq_def]
    simp only [if_neg hcode]
    -- the first byte tells how many there are, the others carry six bits each
    split <;> [skip; split] <;> intro b hb <;>
      simp only [List.map_cons, List.map_nil, List.mem_cons, List.not_mem_nil, or_false] at hb
    · rcases hb with rfl | rfl <;> exact isAscii_ofNat (by omega) (by omega)
    · rcases hb with rfl | rfl | rfl <;> exact isAscii_ofNat (by omega) (by omega)
    · rcases hb with rfl | rfl | rfl | rfl <;> exact isAscii_ofNat (by omega) (by omega)

namespace Spelling

variable {spell : Char → List Char} (h : Spelling spell)

include h

theorem ne_nil (c : Char) : spell c ≠ [] := by
  cases hc : isAscii c with
  | true => simp [h.same c hc]
  | false => exact (h.other c hc).1

theorem reverse : Spelling fun c => (spell c).reverse where
  same c hc := by rw [h.same c hc, List.reverse_singleton]
  other c hc := ⟨by simpa using (h.other c hc).1, by simpa using (h.other c hc).2⟩

/-- At the start of a text an ASCII character is found by its spelling. -/
theorem head?_eq_some_iff {x : Char} (hx : isAscii x = true) (cs : List Char) :
    (cs.flatMap spell).head? = some x ↔ cs.head? = some x := by
  cases cs with
  | nil => exact Iff.rfl
  | cons c cs =>
      cases hc : isAscii c with
      | true => simp [h.same c hc]
      | false =>
          obtain ⟨hne, hall⟩ := h.other c hc
          obtain ⟨b, bs, hbs⟩ := List.exists_cons_of_ne_nil hne
          have hb := hall b (hbs ▸ List.mem_cons_self ..)
          have hneq : ∀ {d}, isAscii d = false → d ≠ x := by
            rintro d hd rfl
            rw [hx] at hd
            cases hd
          simp [hbs, hneq hb, hneq hc]

/-- Whether an ASCII character of some kind stands at the start is told by its spelling. -/
theorem any_head?_eq {p : Char → Bool} (hp : ∀ c, p c = true → isAscii c = true)
    (cs : List Char) : (cs.flatMap spell).head?.any p = cs.head?.any p := by
  rw [Bool.eq_iff_iff, Option.any_eq_true, Option.any_eq_true]
  exact exists_congr fun c =>
    and_congr_left fun hc => h.head?_eq_some_iff (hp c hc) cs

/-- A run of ASCII characters is found by its spelling. -/
theorem takeWhile_eq {p : Char → Bool} (hp : ∀ c, p c = true → isAscii c = true) :
    ∀ cs : List Char, (cs.flatMap spell).takeWhile p = cs.takeWhile p
  | [] => rfl
  | c :: cs => by
      cases hc : isAscii c with
      | true =>
          rw [List.flatMap_cons, h.same c hc, List.singleton_append, List.takeWhile_cons,
            List.takeWhile_cons, takeWhile_eq hp cs]
      | false =>
          obtain ⟨hne, hall⟩ := h.other c hc
          obtain ⟨b, bs, hbs⟩ := List.exists_cons_of_ne_nil hne
          have hno : ∀ {d}, isAscii d = false → ¬p d = true := fun hd hpd => by
            rw [hp _ hpd] at hd
            cases hd
          rw [List.flatMap_cons, hbs, List.cons_append,
            List.takeWhile_cons_of_neg (hno (hall b (hbs ▸ List.mem_cons_self ..))),
            List.takeWhile_cons_of_neg (hno hc)]

theorem dropWhile_eq {p : Char → Bool} (hp : ∀ c, p c = true → isAscii c = true) :
    ∀ cs : List Char, (cs.flatMap spell).dropWhile p = (cs.dropWhile p).flatMap spell
  | [] => rfl
  | c :: cs => by
      cases hc : isAscii c with
      | true =>
          rw [List.flatMap_cons, h.same c hc, List.singleton_append, List.dropWhile_cons,
            List.dropWhile_cons, dropWhile_eq hp cs]
          split
          case isTrue => rfl
          case isFalse => rw [List.flatMap_cons, h.same c hc, List.singleton_append]
      | false =>
          obtain ⟨hne, hall⟩ := h.other c hc
          obtain ⟨b, bs, hbs⟩ := List.exists_cons_of_ne_nil hne
          have hno : ∀ {d}, isAscii d = false → ¬p d = true := fun hd hpd => by
            rw [hp _ hpd] at hd
            cases hd
          rw [List.dropWhile_cons_of_neg (hno hc), List.flatMap_cons, hbs, List.cons_append,
            List.dropWhile_cons_of_neg (hno (hall b (hbs ▸ List.mem_cons_self ..)))]

end Spelling

theorem length_charBytes (c : Char) : (charBytes c).length = c.utf8Size := by
  rw [charBytes, List.length_map, String.length_utf8EncodeChar]

@[simp] theorem bytes_nil : bytes [] = [] := rfl

theorem bytes_cons (c : Char) (cs : List Char) : bytes (c :: cs) = charBytes c ++ bytes cs := rfl

theorem bytes_cons_of_isAscii {c : Char} (hc : isAscii c = true) (cs : List Char) :
    bytes (c :: cs) = c :: bytes cs := by
  rw [bytes_cons, spelling_charBytes.same c hc, List.singleton_append]

@[simp] theorem bytes_append (a b : List Char) : bytes (a ++ b) = bytes a ++ bytes b :=
  List.flatMap_append

@[simp] theorem length_bytes : ∀ text : List Char, (bytes text).length = byteLength text
  | [] => rfl
  | c :: cs => by
      rw [bytes_cons, List.length_append, length_charBytes, length_bytes cs, byteLength]

theorem reverse_bytes (text : List Char) :
    (bytes text).reverse = text.reverse.flatMap fun c => (charBytes c).reverse := by
  rw [bytes, List.reverse_flatMap]
  rfl

/-! ## Classes of ASCII characters -/

theorem isAscii_of_isIdent {c : Char} (h : isIdent c = true) : isAscii c = true := by
  rw [isIdent, Bool.or_eq_true, decide_eq_true_eq] at h
  rcases h with h | rfl
  · exact decide_eq_true (toNat_lt_of_isWord h)
  · decide

theorem isAscii_of_isLayout {c : Char} (h : isLayout c = true) : isAscii c = true := by
  simp only [isLayout, Bool.or_eq_true, decide_eq_true_eq] at h
  rcases h with (((rfl | rfl) | rfl) | rfl) | rfl <;> decide

/-! ## What can go wrong -/

/-- The ways in which a program can go wrong on a text. -/
inductive Trap where
  /-- A place is outside the text. -/
  | outside
  /-- A text is cut inside a character. -/
  | inside
  /-- A slice starts behind its end. -/
  | reversed
  /-- A number would become less than nothing. -/
  | underflow
  /-- A loop does not go on. -/
  | stuck
  deriving Repr, DecidableEq

/-- A value, or what went wrong. -/
abbrev Run := Except Trap

@[simp] theorem ok_bind {α β : Type} (a : α) (f : α → Run β) : (Except.ok a >>= f) = f a := rfl

@[simp] theorem map_ok {α β : Type} (a : α) (f : α → β) : f <$> (Except.ok a : Run α) = .ok (f a) :=
  rfl

/-- The byte at a place. -/
def byteAt (bs : List Char) (i : Nat) : Run Char :=
  match bs[i]? with
  | some b => .ok b
  | none => .error .outside

/-- The bytes from a place on. -/
def bytesFrom (bs : List Char) (i : Nat) : Run (List Char) :=
  if i ≤ bs.length then .ok (bs.drop i) else .error .outside

/-- The bytes up to a place. -/
def bytesTo (bs : List Char) (i : Nat) : Run (List Char) :=
  if i ≤ bs.length then .ok (bs.take i) else .error .outside

/-- The position of the character that starts at the given byte, or of the end of the text. -/
def boundary (text : List Char) (i : Nat) : Run Nat :=
  match positionOf? text i with
  | some p => .ok p
  | none => .error (if i ≤ byteLength text then .inside else .outside)

/-- The characters between two bytes of a text. -/
def slice (text : List Char) (start stop : Nat) : Run (List Char) :=
  if start ≤ stop then do
    let p ← boundary text start
    let q ← boundary text stop
    return (text.take q).drop p
  else .error .reversed

/-- The characters from a byte of a text on. -/
def sliceFrom (text : List Char) (start : Nat) : Run (List Char) :=
  slice text start (byteLength text)

/-- A difference. -/
def minus (m n : Nat) : Run Nat := if n ≤ m then .ok (m - n) else .error .underflow

theorem byteAt_append (a : List Char) (b : Char) (bs : List Char) :
    byteAt (a ++ b :: bs) a.length = .ok b := by
  simp [byteAt]

theorem minus_of_le {m n : Nat} (h : n ≤ m) : minus m n = .ok (m - n) := if_pos h

theorem boundary_append (a b : List Char) : boundary (a ++ b) (byteLength a) = .ok a.length := by
  rw [boundary, positionOf?_append]

theorem boundary_byteOffset {text : List Char} {p : Nat} (hp : p ≤ text.length) :
    boundary text (byteOffset text p) = .ok p := by
  have h := boundary_append (text.take p) (text.drop p)
  rwa [List.take_append_drop, List.length_take_of_le hp] at h

theorem slice_append (a m b : List Char) :
    slice (a ++ (m ++ b)) (byteLength a) (byteLength a + byteLength m) = .ok m := by
  have hstop : boundary (a ++ (m ++ b)) (byteLength a + byteLength m)
      = .ok (a.length + m.length) := by
    rw [← List.append_assoc, ← byteLength_append, boundary_append, List.length_append]
  rw [slice, if_pos (Nat.le_add_right ..), boundary_append, ok_bind, hstop, ok_bind,
    ← List.append_assoc, ← List.length_append, List.take_left, List.drop_left]
  rfl

/-- Nothing is cut between the bytes of one character. -/
example : slice ['a', 'é'] 0 2 = .error .inside := rfl

theorem slice_zero (a b : List Char) : slice (a ++ b) 0 (byteLength a) = .ok a := by
  have h := slice_append [] a b
  rwa [List.nil_append, byteLength_nil, Nat.zero_add] at h

theorem sliceFrom_append (a b : List Char) : sliceFrom (a ++ b) (byteLength a) = .ok b := by
  have h := slice_append a b []
  rwa [List.append_nil, ← byteLength_append] at h

/-- An ASCII character is found at its byte. -/
theorem getElem?_bytes_eq_some_iff (text : List Char) {p : Nat} {x : Char}
    (hx : isAscii x = true) : (bytes text)[byteOffset text p]? = some x ↔ text[p]? = some x := by
  have hdrop : (bytes text).drop (byteOffset text p) = bytes (text.drop p) := by
    conv_lhs => rw [← List.take_append_drop p text, bytes_append]
    rw [byteOffset, List.take_append_drop, ← length_bytes, List.drop_left]
  rw [← List.head?_drop, ← List.head?_drop, hdrop]
  exact spelling_charBytes.head?_eq_some_iff hx _

theorem byteOffset_length (text : List Char) : byteOffset text text.length = byteLength text := by
  rw [byteOffset, List.take_length]

theorem slice_byteOffset {text : List Char} {p q : Nat} (hpq : p ≤ q) (hq : q ≤ text.length) :
    slice text (byteOffset text p) (byteOffset text q) = .ok ((text.take q).drop p) := by
  rw [slice, if_pos (byteOffset_le_byteOffset text hpq), boundary_byteOffset (hpq.trans hq),
    ok_bind, boundary_byteOffset hq]
  rfl

theorem sliceFrom_byteOffset {text : List Char} {p : Nat} (hp : p ≤ text.length) :
    sliceFrom text (byteOffset text p) = .ok (text.drop p) := by
  rw [sliceFrom, ← byteOffset_length, slice_byteOffset hp le_rfl, List.take_length]

end DesignTokens.Bytewise
