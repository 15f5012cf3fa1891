import DesignTokens.Proofs.Bytewise.Lexer
import DesignTokens.Proofs.Source.Entry

/-!
# Objects by their bytes

The readers of objects go through the code of a text and note places: the brace
that matches another one, the stretches between commas, and the keys and values
in them, for which the stretches are cut out of the text. Each of them finds what
the library finds, at the byte of the character that it stands for
(`matchingBrace_eq`, `objectEntries_eq`).
-/

namespace DesignTokens.Bytewise

open Text Source

/-! ## The readers -/

/-- The code between two places, the second one at the latest at the end of the text. -/
def codeBetween (text : List Char) (start stop : Nat) : Run (List (Nat × Char)) :=
  codeFrom (bytes text) start (min stop (byteLength text))

/-- The place of the brace that closes the `depth` open ones. -/
def closingAmong : Nat → List (Nat × Char) → Option Nat
  | _, [] => none
  | depth, (i, b) :: code =>
    if b = '{' then closingAmong (depth + 1) code
    else if b = '}' then
      match depth with
      | 0 => none
      | 1 => some i
      | depth + 2 => closingAmong (depth + 1) code
    else closingAmong depth code

/-- The place of the brace that matches the one at the given place. -/
def matchingBrace (text : List Char) (opening : Nat) : Run (Option Nat) := do
  let code ← codeBetween text opening (byteLength text)
  return closingAmong 0 code

/-- The stretches between the commas that lie in no bracket, each by its two ends. -/
def stretches (depth start : Nat) (stop : Nat) : List (Nat × Char) → List (Nat × Nat)
  | [] => [(start, stop)]
  | (i, b) :: code =>
    if depth = 0 ∧ b = ',' then (start, i) :: stretches depth (i + 1) stop code
    else stretches (depthBehind depth b .code) start stop code

/-- The entry that a stretch holds, by its bytes. -/
def entryIn? (text : List Char) (start stop : Nat) : Run (Option Entry) := do
  let piece ← slice text start stop
  match key? piece with
  | none => return none
  | some k => do
    let quote := if k.quoted then 1 else 0
    let name := byteOffset piece (piece.length - k.fromKey) + quote
    let keyStart ← minus (start + name) quote
    return some ⟨k.text, k.quoted, keyStart, start + byteOffset piece (piece.length - k.fromValue)⟩

/-- The entries of the object between two braces, by their bytes. -/
def objectEntries (text : List Char) (opening closing : Nat) : Run (List Entry) := do
  let code ← codeBetween text (opening + 1) closing
  let found ← (stretches 0 (opening + 1) closing code).mapM fun s => entryIn? text s.1 s.2
  return found.reduceOption

/-! ## The code of a text by its bytes -/

theorem codePlaces_markBytes_of_isAscii {c : Char} (hc : isAscii c = true) (q : Nat)
    (divided : List (Char × Region)) : codePlaces q (markBytes ((c, .code) :: divided))
      = (q, c) :: codePlaces (q + c.utf8Size) (markBytes divided) := by
  have hsize : c.utf8Size = 1 := by
    rw [← length_charBytes, spelling_charBytes.same c hc, List.length_singleton]
  rw [markBytes_cons, spelling_charBytes.same c hc, hsize]
  rfl

/-- Of a character that is no ASCII character or no code, the code has no ASCII byte. -/
theorem exists_codePlaces_markBytes {c : Char} {r : Region}
    (h : r = .code → isAscii c = false) (q : Nat) (divided : List (Char × Region)) :
    ∃ row, (∀ x ∈ row, isAscii x.2 = false) ∧ codePlaces q (markBytes ((c, r) :: divided))
      = row ++ codePlaces (q + c.utf8Size) (markBytes divided) := by
  by_cases hr : r = .code
  · subst hr
    have hbytes := (spelling_charBytes.other c (h rfl)).2
    rw [markBytes_cons, ← length_charBytes]
    generalize charBytes c = w at hbytes
    induction w generalizing q with
    | nil => exact ⟨[], by simp, rfl⟩
    | cons b w ih =>
        obtain ⟨row, hrow, hplaces⟩ := ih (q + 1) fun d hd => hbytes d (List.mem_cons_of_mem b hd)
        refine ⟨(q, b) :: row, ?_, ?_⟩
        · exact List.forall_mem_cons.mpr ⟨hbytes b (List.mem_cons_self ..), hrow⟩
        · rw [List.map_cons, List.cons_append, codePlaces, if_pos rfl, hplaces, List.length_cons,
            Nat.add_right_comm, Nat.add_assoc]
          rfl
  · exact ⟨[], by simp, by
      rw [markBytes_cons, codePlaces_append_of_ne hr, length_charBytes, List.nil_append]⟩

theorem ne_of_not_isAscii {b x : Char} (hb : isAscii b = false) (hx : isAscii x = true) :
    b ≠ x := by
  rintro rfl
  rw [hx] at hb
  cases hb

/-! ## Matching braces -/

theorem closingAmong_other {b : Char} (hopen : b ≠ '\x7b') (hclose : b ≠ '\x7d') (depth i : Nat)
    (code : List (Nat × Char)) : closingAmong depth ((i, b) :: code) = closingAmong depth code := by
  rw [closingAmong.eq_def]
  exact (if_neg hopen).trans (if_neg hclose)

theorem closingAmong_row (depth : Nat) (code : List (Nat × Char)) :
    ∀ {row : List (Nat × Char)}, (∀ x ∈ row, isAscii x.2 = false) →
      closingAmong depth (row ++ code) = closingAmong depth code
  | [], _ => rfl
  | (i, b) :: row, h => by
      obtain ⟨hb, hrow⟩ := List.forall_mem_cons.mp h
      rw [List.cons_append, closingAmong_other (ne_of_not_isAscii hb (by decide))
        (ne_of_not_isAscii hb (by decide)), closingAmong_row depth code hrow]

/-- Among characters and among bytes the same brace is found, or none. -/
def SameClosing (depth p q : Nat) (divided : List (Char × Region)) : Prop :=
  (closingFrom depth p divided = none ∧
    closingAmong depth (codePlaces q (markBytes divided)) = none) ∨
  ∃ front rest, divided.map (·.1) = front ++ rest ∧
    closingFrom depth p divided = some (p + front.length) ∧
    closingAmong depth (codePlaces q (markBytes divided)) = some (q + byteLength front)

theorem SameClosing.cons {depth inside p q : Nat} {c : Char} {r : Region}
    {divided : List (Char × Region)} (h : SameClosing inside (p + 1) (q + c.utf8Size) divided)
    (hchars : closingFrom depth p ((c, r) :: divided) = closingFrom inside (p + 1) divided)
    (hbytes : closingAmong depth (codePlaces q (markBytes ((c, r) :: divided)))
      = closingAmong inside (codePlaces (q + c.utf8Size) (markBytes divided))) :
    SameClosing depth p q ((c, r) :: divided) := by
  rcases h with ⟨h, h'⟩ | ⟨front, rest, hfront, h, h'⟩
  · exact .inl ⟨hchars.trans h, hbytes.trans h'⟩
  · refine .inr ⟨c :: front, rest, by rw [List.map_cons, hfront, List.cons_append], ?_, ?_⟩
    · rw [hchars, h, List.length_cons, Nat.add_right_comm, Nat.add_assoc]
    · rw [hbytes, h', byteLength, Nat.add_assoc]

theorem sameClosing : ∀ (divided : List (Char × Region)) (depth p q : Nat),
    SameClosing depth p q divided
  | [], _, _, _ => .inl ⟨rfl, rfl⟩
  | (c, r) :: divided, depth, p, q => by
      by_cases hopen : r = .code ∧ c = '\x7b'
      · obtain ⟨rfl, rfl⟩ := hopen
        refine (sameClosing divided (depth + 1) (p + 1) _).cons rfl ?_
        rw [codePlaces_markBytes_of_isAscii (by decide)]
        rfl
      · by_cases hclose : r = .code ∧ c = '\x7d'
        · obtain ⟨rfl, rfl⟩ := hclose
          have hplaces := codePlaces_markBytes_of_isAscii (c := '\x7d') (by decide) q divided
          match depth with
          | 0 => exact .inl ⟨rfl, by rw [hplaces]; rfl⟩
          | 1 => exact .inr ⟨[], _, rfl, rfl, by rw [hplaces]; rfl⟩
          | depth + 2 =>
              refine (sameClosing divided (depth + 1) (p + 1) _).cons rfl ?_
              rw [hplaces]
              rfl
        · refine (sameClosing divided depth (p + 1) _).cons
            (closingFrom_other (by simpa using hopen) (by simpa using hclose) depth p divided) ?_
          by_cases hskip : r = .code → isAscii c = false
          · obtain ⟨row, hrow, hplaces⟩ := exists_codePlaces_markBytes hskip q divided
            rw [hplaces, closingAmong_row depth _ hrow]
          · simp only [Classical.not_imp, Bool.not_eq_false] at hskip
            obtain ⟨rfl, hc⟩ := hskip
            rw [codePlaces_markBytes_of_isAscii hc, closingAmong_other (fun h => hopen ⟨rfl, h⟩)
              fun h => hclose ⟨rfl, h⟩]

theorem scan_code_bytes (text : List Char) :
    scan .code (bytes text) = markBytes (regions text) := by
  rw [regions_eq_scan]
  exact scan_bytes (show Cursor.Opened .code from trivial) text

theorem startsFresh_bytes {text : List Char} (h : StartsFresh text) : StartsFresh (bytes text) := by
  intro c hc
  constructor
  · rintro rfl
    exact (h _ ((spelling_charBytes.head?_eq_some_iff (by decide) text).mp hc)).1 rfl
  · rintro rfl
    exact (h _ ((spelling_charBytes.head?_eq_some_iff (by decide) text).mp hc)).2 rfl

/-- The code of a stretch is that of its characters, if no comment mark goes on behind it. -/
theorem codeBetween_append (a m : List Char) {rest : List Char} (hrest : StartsFresh rest) :
    codeBetween (a ++ (m ++ rest)) (byteLength a) (byteLength a + byteLength m)
      = .ok (codePlaces (byteLength a) (markBytes (regions m))) := by
  have hlength : byteLength m = (markBytes (regions m)).length := by
    rw [← length_bytes, ← map_fst_regions m, ← map_fst_markBytes, List.length_map, map_fst_regions]
  have hstop : min (byteLength a + byteLength m) (byteLength (a ++ (m ++ rest)))
      = byteLength a + byteLength m := by
    rw [byteLength_append, byteLength_append]
    omega
  have hdrop : (bytes (a ++ (m ++ rest))).drop (byteLength a) = bytes m ++ bytes rest := by
    rw [bytes_append, ← length_bytes, List.drop_left, bytes_append]
  rw [codeBetween, hstop, codeFrom_eq _ _ le_rfl, hdrop, scan_append (startsFresh_bytes hrest),
    scan_code_bytes, Nat.add_sub_cancel_left, hlength, List.take_left]
  rw [length_bytes, byteLength_append, byteLength_append]
  omega

theorem codeBetween_rest (a rest : List Char) :
    codeBetween (a ++ rest) (byteLength a) (byteLength (a ++ rest))
      = .ok (codePlaces (byteLength a) (markBytes (regions rest))) := by
  have h := codeBetween_append a rest startsFresh_nil
  rwa [List.append_nil, ← byteLength_append] at h

/-- All the code of a text. -/
theorem codeBetween_all (text : List Char) :
    codeBetween text 0 (byteLength text) = .ok (codePlaces 0 (markBytes (regions text))) :=
  codeBetween_rest [] text

theorem matchingBrace_eq (a rest : List Char) : matchingBrace (a ++ rest) (byteLength a)
    = .ok ((matchingBrace? (a ++ rest) a.length).map (byteOffset (a ++ rest))) := by
  rw [matchingBrace, codeBetween_rest, ok_bind, matchingBrace?, List.drop_left]
  rcases sameClosing (regions rest) 0 a.length (byteLength a) with
    ⟨h, h'⟩ | ⟨front, back, hfront, h, h'⟩
  · rw [h, h']
    rfl
  · rw [map_fst_regions] at hfront
    subst hfront
    rw [h, h', Option.map_some, byteOffset, ← List.append_assoc, ← List.length_append,
      List.take_left, byteLength_append]
    rfl

theorem matchingBrace_byteOffset {text : List Char} {p : Nat} (hp : p ≤ text.length) :
    matchingBrace text (byteOffset text p)
      = .ok ((matchingBrace? text p).map (byteOffset text)) := by
  have h := matchingBrace_eq (text.take p) (text.drop p)
  rwa [List.take_append_drop, List.length_take_of_le hp] at h

/-! ## Stretches -/

/-- Pieces with their positions, the first one at `p` and a comma between two. -/
def numbered (p : Nat) : List (List Char) → List (Nat × List Char)
  | [] => []
  | x :: xs => (p, x) :: numbered (p + x.length + 1) xs

/-- The two ends of each of the pieces by their bytes. -/
def pieceEnds (q : Nat) : List (List Char) → List (Nat × Nat)
  | [] => []
  | x :: xs => (q, q + byteLength x) :: pieceEnds (q + byteLength x + 1) xs

/-- The pieces with a comma in front of each. -/
def joined (xs : List (List Char)) : List Char := xs.flatMap (',' :: ·)

theorem depthBehind_of_not_isAscii {c : Char} (hc : isAscii c = false) (depth : Nat) (r : Region) :
    depthBehind depth c r = depth := by
  have hne : ∀ x, isAscii x = true → c ≠ x := fun x hx => ne_of_not_isAscii hc hx
  simp [depthBehind, hne '\x7b' (by decide), hne '[' (by decide), hne '(' (by decide),
    hne '\x7d' (by decide), hne ']' (by decide), hne ')' (by decide)]

theorem stretches_row (depth start stop : Nat) (code : List (Nat × Char)) :
    ∀ {row : List (Nat × Char)}, (∀ x ∈ row, isAscii x.2 = false) →
      stretches depth start stop (row ++ code) = stretches depth start stop code
  | [], _ => rfl
  | (i, b) :: row, h => by
      obtain ⟨hb, hrow⟩ := List.forall_mem_cons.mp h
      rw [List.cons_append, stretches, if_neg fun h => ne_of_not_isAscii hb (by decide) h.2,
        depthBehind_of_not_isAscii hb, stretches_row depth start stop code hrow]

/-- The code between two commas changes nothing but the number of open brackets. -/
theorem stretches_markBytes {c : Char} {r : Region} {depth : Nat}
    (hcomma : ¬(r = .code && depth = 0 && c = ',') = true) (start stop q : Nat)
    (divided : List (Char × Region)) :
    stretches depth start stop (codePlaces q (markBytes ((c, r) :: divided)))
      = stretches (depthBehind depth c r) start stop
          (codePlaces (q + c.utf8Size) (markBytes divided)) := by
  by_cases hskip : r = .code → isAscii c = false
  · obtain ⟨row, hrow, hplaces⟩ := exists_codePlaces_markBytes hskip q divided
    have hdepth : depthBehind depth c r = depth := by
      by_cases hr : r = .code
      · exact depthBehind_of_not_isAscii (hskip hr) depth r
      · exact if_pos hr
    rw [hplaces, stretches_row _ _ _ _ hrow, hdepth]
  · simp only [Classical.not_imp, Bool.not_eq_false] at hskip
    obtain ⟨rfl, hc⟩ := hskip
    rw [codePlaces_markBytes_of_isAscii hc, stretches, if_neg (by simpa using hcomma)]

/-- The pieces of a divided text, and the stretches that they are in its bytes. -/
theorem exists_stretches : ∀ (divided : List (Char × Region)) (depth p q : Nat),
    ∃ x xs, divided.map (·.1) = x ++ joined xs ∧
      segmentsFrom depth p divided = numbered p (x :: xs) ∧
      ∀ start, stretches depth start (q + byteLength (divided.map (·.1)))
          (codePlaces q (markBytes divided))
        = (start, q + byteLength x) :: pieceEnds (q + byteLength x + 1) xs
  | [], _, _, _ => ⟨[], [], rfl, rfl, fun _ => rfl⟩
  | (c, r) :: divided, depth, p, q => by
      have hstop : q + byteLength (((c, r) :: divided).map (·.1))
          = q + c.utf8Size + byteLength (divided.map (·.1)) := by
        rw [List.map_cons, byteLength, Nat.add_assoc]
      rw [hstop]
      by_cases hcomma : (r = .code && depth = 0 && c = ',') = true
      · obtain ⟨x, xs, hchars, hsegments, hstretches⟩ :=
          exists_stretches divided 0 (p + 1) (q + c.utf8Size)
        rw [segmentsFrom_comma hcomma, hsegments]
        simp only [Bool.and_eq_true, decide_eq_true_eq] at hcomma
        obtain ⟨⟨rfl, rfl⟩, rfl⟩ := hcomma
        refine ⟨[], x :: xs, by rw [List.map_cons, hchars]; rfl, rfl, fun start => ?_⟩
        rw [codePlaces_markBytes_of_isAscii (by decide), stretches, if_pos ⟨rfl, rfl⟩, hstretches]
        rfl
      · obtain ⟨x, xs, hchars, hsegments, hstretches⟩ :=
          exists_stretches divided (depthBehind depth c r) (p + 1) (q + c.utf8Size)
        refine ⟨c :: x, xs, by rw [List.map_cons, hchars, List.cons_append], ?_, fun start => ?_⟩
        · rw [segmentsFrom_other hcomma hsegments, numbered, List.length_cons,
            Nat.add_right_comm p 1, Nat.add_assoc p]
        · rw [stretches_markBytes hcomma, hstretches, byteLength, Nat.add_assoc q]

/-! ## Entries -/

/-- The entry with the numbers of bytes before its key and its value. -/
def entryBytes (text : List Char) (e : Entry) : Entry :=
  { e with keyStart := byteOffset text e.keyStart, valueStart := byteOffset text e.valueStart }

/-- The entry that a piece at a position of the text is. -/
def entryAt? (pos : Nat) (piece : List Char) : Option Entry :=
  (key? piece).map fun k =>
    ⟨k.text, k.quoted, pos + (piece.length - k.fromKey), pos + (piece.length - k.fromValue)⟩

theorem byteOffset_append (a m b : List Char) {n : Nat} (hn : n ≤ m.length) :
    byteOffset (a ++ (m ++ b)) (a.length + n) = byteLength a + byteOffset m n := by
  rw [byteOffset, byteOffset, List.take_length_add_append, List.take_append_of_le_length hn,
    byteLength_append]

theorem entryIn?_eq (a piece b : List Char) :
    entryIn? (a ++ (piece ++ b)) (byteLength a) (byteLength a + byteLength piece)
      = .ok ((entryAt? a.length piece).map (entryBytes (a ++ (piece ++ b)))) := by
  rw [entryIn?, slice_append, ok_bind, entryAt?]
  cases key? piece with
  | none => rfl
  | some k =>
      dsimp only
      rw [minus_of_le (by omega), ok_bind, Option.map_some, Option.map_some, entryBytes,
        byteOffset_append _ _ _ (Nat.sub_le ..), byteOffset_append _ _ _ (Nat.sub_le ..),
        ← Nat.add_assoc, Nat.add_sub_cancel]
      rfl

/-- The stretches of the pieces hold the entries that the pieces are. -/
theorem mapM_entryIn? {text rest : List Char} : ∀ {xs : List (List Char)} {x a : List Char},
    text = a ++ (x ++ (joined xs ++ rest)) →
      (pieceEnds (byteLength a) (x :: xs)).mapM (fun s => entryIn? text s.1 s.2)
        = .ok ((numbered a.length (x :: xs)).map fun s =>
            (entryAt? s.1 s.2).map (entryBytes text)) := by
  intro xs
  induction xs with
  | nil =>
      rintro x a rfl
      rw [pieceEnds, List.mapM_cons, entryIn?_eq]
      rfl
  | cons y xs ih =>
      intro x a htext
      have hstep : text = (a ++ x ++ [',']) ++ (y ++ (joined xs ++ rest)) := by
        rw [htext]
        simp [joined]
      have hpos : byteLength (a ++ x ++ [',']) = byteLength a + byteLength x + 1 := by
        rw [byteLength_append, byteLength_append]
        rfl
      have hnumber : (a ++ x ++ [',']).length = a.length + x.length + 1 := by
        rw [List.length_append, List.length_append, List.length_singleton]
      have hlater := ih hstep
      rw [hpos, hnumber] at hlater
      rw [pieceEnds, List.mapM_cons, hlater, numbered, List.map_cons]
      rw [show entryIn? text (byteLength a) (byteLength a + byteLength x)
        = .ok ((entryAt? a.length x).map (entryBytes text)) from htext ▸ entryIn?_eq ..]
      rfl

/-- The entries of an object are found by their bytes. -/
theorem objectEntries_eq {text : List Char} {opening closing : Nat}
    (h : matchingBrace? text opening = some closing) (hopen : text[opening]? = some '\x7b') :
    objectEntries text (byteOffset text opening) (byteOffset text closing)
      = .ok ((entries text opening closing).map (entryBytes text)) := by
  obtain ⟨a, rest, htext, rfl, hclosing⟩ := exists_object h hopen
  generalize hinside : between text a.length closing = inside at htext hclosing
  have hcut : text = (a ++ ['\x7b']) ++ (inside ++ '\x7d' :: rest) := by
    rw [htext, List.append_assoc]
    rfl
  have hstart : byteOffset text a.length + 1 = byteLength (a ++ ['\x7b']) := by
    rw [byteOffset, htext, List.take_left, byteLength_append]
    rfl
  have hstop : byteOffset text closing = byteLength (a ++ ['\x7b']) + byteLength inside := by
    rw [hclosing, byteOffset, hcut, ← List.length_singleton, ← List.length_append,
      ← List.length_append, ← List.append_assoc, List.take_left, byteLength_append]
  obtain ⟨x, xs, hchars, hsegments, hstretches⟩ :=
    exists_stretches (regions inside) 0 (a.length + 1) (byteLength (a ++ ['\x7b']))
  rw [map_fst_regions] at hchars hstretches
  have hfresh : StartsFresh ('\x7d' :: rest) := by
    rintro c ⟨⟩
    decide
  have hcode := codeBetween_append (a ++ ['\x7b']) inside hfresh
  have hfound : text = (a ++ ['\x7b']) ++ (x ++ (joined xs ++ '\x7d' :: rest)) := by
    rw [hcut, hchars, List.append_assoc x]
  rw [objectEntries, hstart, hstop, hcut, hcode, ok_bind, hstretches, ← hcut, ← pieceEnds,
    mapM_entryIn? hfound, ok_bind, entries, hinside, hsegments, List.length_append,
    List.length_singleton]
  refine congrArg Except.ok ?_
  unfold List.reduceOption
  rw [List.filterMap_map, List.map_filterMap]
  rfl

theorem le_of_mem_numbered {s : Nat × List Char} : ∀ {xs : List (List Char)} {x : List Char}
    {p : Nat}, s ∈ numbered p (x :: xs) → s.1 + s.2.length ≤ p + (x ++ joined xs).length
  | [], x, p, h => by
      cases List.mem_singleton.mp h
      rw [List.length_append, ← Nat.add_assoc]
      exact Nat.le_add_right ..
  | y :: xs, x, p, h => by
      have hlength : (x ++ joined (y :: xs)).length = x.length + 1 + (y ++ joined xs).length := by
        simp only [joined, List.flatMap_cons, List.length_append, List.length_cons]
        omega
      rcases List.mem_cons.mp h with rfl | h
      · dsimp only
        omega
      · have hlater := le_of_mem_numbered h
        omega

/-- The key and the value of an entry start within the text. -/
theorem le_length_of_mem_entries {text : List Char} {opening closing : Nat} {e : Entry}
    (h : matchingBrace? text opening = some closing) (he : e ∈ entries text opening closing) :
    e.keyStart ≤ text.length ∧ e.valueStart ≤ text.length := by
  obtain ⟨d, rest, htext, hopening, -, -⟩ := exists_between h
  obtain ⟨⟨pos, piece⟩, hpiece, he⟩ := List.mem_filterMap.mp he
  obtain ⟨k, -, rfl⟩ := Option.map_eq_some_iff.mp he
  obtain ⟨x, xs, hchars, hsegments, -⟩ :=
    exists_stretches (regions (between text opening closing)) 0 (opening + 1) 0
  rw [hsegments] at hpiece
  have hle := le_of_mem_numbered hpiece
  rw [← hchars, map_fst_regions] at hle
  have hlength : opening + 1 + (between text opening closing).length ≤ text.length := by
    conv_rhs => rw [htext]
    simp only [List.length_append, List.length_cons, hopening]
    omega
  dsimp only at hle ⊢
  omega

end DesignTokens.Bytewise
