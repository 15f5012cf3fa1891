import DesignTokens.Proofs.Bytewise.View

/-!
# Finding code byte by byte

A lexer on bytes goes through a text by places. In code it steps over a string or
a comment at once, to the place behind it; within a string it steps over two
bytes behind a backslash, which may lead into the middle of a character or
beyond the end. It finds the code that dividing the bytes finds
(`codeFrom_eq`), so none of its steps is outside the text, and each one leads on.

The bytes of a text are divided as the text is (`scan_bytes`).
-/

namespace DesignTokens.Bytewise

open Text Source

/-! ## The lexer -/

/-- The place behind a string that has been opened by the quote and goes on here. -/
def stringEndFrom (bs : List Char) (quote : Char) (i : Nat) : Run Nat :=
  if i < bs.length then do
    let b ← byteAt bs i
    if b = '\\' then stringEndFrom bs quote (i + 2)
    else if b = quote then return i + 1
    else if b = '\n' ∧ quote ≠ '\x60' then return i
    else stringEndFrom bs quote (i + 1)
  else return bs.length
termination_by bs.length - i

/-- The place behind the string that starts here. -/
def stringEnd (bs : List Char) (start : Nat) : Run Nat := do
  let quote ← byteAt bs start
  stringEndFrom bs quote (start + 1)

/-- How many bytes stand in front of the mark that closes a block comment. -/
def closingMark? : List Char → Option Nat
  | '*' :: '/' :: _ => some 0
  | _ :: bs => (closingMark? bs).map (· + 1)
  | [] => none

/-- The place behind the comment that starts here, if one does. -/
def commentEnd? (bs : List Char) (start : Nat) : Run (Option Nat) :=
  if bs[start]? ≠ some '/' then return none
  else if bs[start + 1]? = some '/' then do
    let rest ← bytesFrom bs start
    return some (start + (rest.takeWhile (· ≠ '\n')).length)
  else if bs[start + 1]? = some '*' then do
    let rest ← bytesFrom bs (start + 2)
    return some (start + 2 + ((closingMark? rest).map (· + 2)).getD rest.length)
  else return none

/-- The code between two places, each byte with its place. -/
def codeFrom (bs : List Char) (pos stop : Nat) : Run (List (Nat × Char)) :=
  if pos < stop then do
    let b ← byteAt bs pos
    if opensString b then do
      let behind ← stringEnd bs pos
      if pos < behind then codeFrom bs behind stop else throw .stuck
    else
      match ← commentEnd? bs pos with
      | some behind => if pos < behind then codeFrom bs behind stop else throw .stuck
      | none => do
        let later ← codeFrom bs (pos + 1) stop
        return (pos, b) :: later
  else return []
termination_by stop - pos

/-! ## Stepping over strings and comments -/

/-- Read from the cursor, `w` belongs to the region, and the rest is read as code. -/
def StepsOver (k : Cursor) (r : Region) (w rest : List Char) : Prop :=
  scan k (w ++ rest) = w.map (·, r) ++ scan .code rest

section

variable {bs w rest : List Char} {r : Region} {k : Cursor} {c : Char}

theorem StepsOver.cons (hregion : k.region c (w ++ rest).head? = r)
    (h : StepsOver (k.next c (w ++ rest).head?) r w rest) : StepsOver k r (c :: w) rest := by
  rw [StepsOver, List.cons_append, scan, hregion, h]
  rfl

theorem lt_of_drop_eq_cons {i : Nat} {cs : List Char} (h : bs.drop i = c :: cs) :
    i < bs.length := by
  by_contra hle
  rw [List.drop_eq_nil_of_le (Nat.le_of_not_lt hle)] at h
  cases h

theorem byteAt_of_drop_eq_cons {i : Nat} {cs : List Char} (h : bs.drop i = c :: cs) :
    byteAt bs i = .ok c := by
  have hget : bs[i]? = some c := by rw [← List.head?_drop, h, List.head?_cons]
  rw [byteAt, hget]

theorem drop_succ_of_drop_eq_cons {i : Nat} {cs : List Char} (h : bs.drop i = c :: cs) :
    bs.drop (i + 1) = cs := by
  rw [← List.drop_drop, h, List.drop_one, List.tail_cons]

theorem length_of_drop_eq {i : Nat} {cs : List Char} (hi : i ≤ bs.length)
    (h : bs.drop i = cs) : bs.length = i + cs.length := by
  rw [← h, List.length_drop]
  omega

theorem stringEndFrom_of_le {q : Char} {i : Nat} (h : bs.length ≤ i) :
    stringEndFrom bs q i = .ok bs.length := by
  rw [stringEndFrom, if_neg (Nat.not_lt.mpr h)]
  rfl

theorem stringEndFrom_of_drop {q : Char} {i : Nat} {cs : List Char} (h : bs.drop i = c :: cs) :
    stringEndFrom bs q i =
      if c = '\\' then stringEndFrom bs q (i + 2)
      else if c = q then .ok (i + 1)
      else if c = '\n' ∧ q ≠ '\x60' then .ok i
      else stringEndFrom bs q (i + 1) := by
  rw [stringEndFrom, if_pos (lt_of_drop_eq_cons h), byteAt_of_drop_eq_cons h]
  rfl

/-- The lexer steps over the rest of a string. -/
theorem exists_stringEndFrom (q : Char) : ∀ (cs : List Char) {i : Nat}, i ≤ bs.length →
    bs.drop i = cs → ∃ w rest, cs = w ++ rest ∧ stringEndFrom bs q i = .ok (i + w.length) ∧
      StepsOver (.string q) .string w rest
  | [], i, hi, hcs => by
      have hlen : bs.length = i := length_of_drop_eq hi hcs
      exact ⟨[], [], rfl, by rw [stringEndFrom_of_le hlen.le, hlen]; rfl, rfl⟩
  | b :: cs, i, hi, hcs => by
      have hnext := drop_succ_of_drop_eq_cons hcs
      rw [stringEndFrom_of_drop hcs]
      by_cases hback : b = '\\'
      · subst hback
        have hregion : ∀ behind, Cursor.region (.string q) '\\' behind = .string := fun _ => by
          simp [Cursor.region]
        rw [if_pos rfl]
        cases cs with
        | nil =>
            have hlen : bs.length = i + 1 := length_of_drop_eq hi hcs
            refine ⟨['\\'], [], rfl, ?_, .cons (hregion _) rfl⟩
            rw [stringEndFrom_of_le (by omega), hlen]
            rfl
        | cons c cs =>
            obtain ⟨w, rest, rfl, hend, hsteps⟩ := exists_stringEndFrom q cs
              (lt_of_drop_eq_cons hnext) (drop_succ_of_drop_eq_cons hnext)
            refine ⟨'\\' :: c :: w, rest, rfl, ?_, .cons (hregion _) (.cons rfl hsteps)⟩
            rw [hend]
            exact congrArg Except.ok (by simp only [List.length_cons]; omega)
      · rw [if_neg hback]
        by_cases hquote : b = q
        · subst hquote
          refine ⟨[b], cs, rfl, if_pos rfl, .cons (by simp [Cursor.region]) ?_⟩
          simp [StepsOver, Cursor.next, hback]
        · rw [if_neg hquote]
          by_cases hline : b = '\n' ∧ q ≠ '\x60'
          · -- the line end closes the string and is code itself
            refine ⟨[], b :: cs, rfl, if_pos hline, ?_⟩
            obtain ⟨rfl, hq⟩ := hline
            simp [StepsOver, scan, Cursor.region, Cursor.next, hquote, hq, opensString]
          · obtain ⟨w, rest, rfl, hend, hsteps⟩ :=
              exists_stringEndFrom q cs (lt_of_drop_eq_cons hcs) hnext
            refine ⟨b :: w, rest, rfl, ?_, .cons ?_ ?_⟩
            · rw [if_neg hline, hend]
              exact congrArg Except.ok (by simp only [List.length_cons]; omega)
            · rw [Cursor.region, if_neg (by simpa [hquote] using hline)]
            · simpa [Cursor.next, hback, hquote, hline] using hsteps

/-- The lexer steps over a string. -/
theorem exists_stringEnd {i : Nat} {cs : List Char} (h : bs.drop i = c :: cs)
    (hc : opensString c = true) :
    ∃ w rest, c :: cs = w ++ rest ∧ w ≠ [] ∧ stringEnd bs i = .ok (i + w.length) ∧
      StepsOver .code .string w rest := by
  obtain ⟨w, rest, rfl, hend, hsteps⟩ :=
    exists_stringEndFrom c cs (lt_of_drop_eq_cons h) (drop_succ_of_drop_eq_cons h)
  have hslash : c ≠ '/' := by
    rintro rfl
    cases hc
  refine ⟨c :: w, rest, rfl, List.cons_ne_nil c w, ?_, .cons ?_ ?_⟩
  · rw [stringEnd, byteAt_of_drop_eq_cons h, ok_bind, hend]
    exact congrArg Except.ok (by simp only [List.length_cons]; omega)
  · simp [Cursor.region, hslash, hc]
  · simpa [Cursor.next, hslash, hc] using hsteps

theorem stepsOver_lineComment : ∀ cs : List Char,
    StepsOver .lineComment .comment (cs.takeWhile (· ≠ '\n')) (cs.dropWhile (· ≠ '\n'))
  | [] => rfl
  | b :: cs => by
      by_cases hline : b = '\n'
      · subst hline
        simp [StepsOver, scan, Cursor.region, Cursor.next, opensString]
      · have ih := stepsOver_lineComment cs
        rw [List.takeWhile_cons_of_pos (by simpa using hline),
          List.dropWhile_cons_of_pos (by simpa using hline)]
        exact .cons (by simp [Cursor.region, hline]) (by simpa [Cursor.next, hline] using ih)

theorem exists_closingMark (cs : List Char) : ∃ w rest, cs = w ++ rest ∧
    ((closingMark? cs).map (· + 2)).getD cs.length = w.length ∧
      StepsOver .blockComment .comment w rest := by
  fun_induction closingMark? cs with
  | case1 bs =>
      exact ⟨['*', '/'], bs, rfl, rfl, by simp [StepsOver, scan, Cursor.region, Cursor.next]⟩
  | case2 b bs hnone ih =>
      obtain ⟨w, rest, rfl, hlen, hsteps⟩ := ih
      refine ⟨b :: w, rest, rfl, ?_, .cons rfl ?_⟩
      · cases hmark : closingMark? (w ++ rest) with
        | none => simpa [hmark] using hlen
        | some n => simpa [hmark] using hlen
      · have hopen : ¬(b = '*' ∧ (w ++ rest).head? = some '/') := by
          rintro ⟨rfl, hhead⟩
          obtain ⟨cs, hcs⟩ := List.head?_eq_some_iff.mp hhead
          exact hnone cs rfl hcs
        have hstays : Cursor.blockComment.next b (w ++ rest).head? = .blockComment := by
          simp only [Cursor.next]
          rw [if_neg (by simpa using hopen)]
        rwa [hstays]
  | case3 => exact ⟨[], [], rfl, rfl, rfl⟩

theorem bytesFrom_of_drop {i : Nat} {cs : List Char} (hi : i ≤ bs.length) (h : bs.drop i = cs) :
    bytesFrom bs i = .ok cs := by
  rw [bytesFrom, if_pos hi, h]

/-- The lexer steps over a comment, or the place is code. -/
theorem exists_commentEnd {i : Nat} {cs : List Char} (h : bs.drop i = c :: cs)
    (hc : opensString c = false) :
    (∃ w rest, c :: cs = w ++ rest ∧ w ≠ [] ∧ commentEnd? bs i = .ok (some (i + w.length)) ∧
      StepsOver .code .comment w rest) ∨
    commentEnd? bs i = .ok none ∧ scan .code (c :: cs) = (c, .code) :: scan .code cs := by
  have hlt := lt_of_drop_eq_cons h
  have hnext := drop_succ_of_drop_eq_cons h
  have hfirst : bs[i]? = some c := by rw [← List.head?_drop, h, List.head?_cons]
  have hsecond : bs[i + 1]? = cs.head? := by rw [← List.head?_drop, hnext]
  rw [commentEnd?, hfirst, hsecond]
  by_cases hslash : c = '/'
  · subst hslash
    rw [if_neg (by simp)]
    by_cases hline : cs.head? = some '/'
    · obtain ⟨cs, rfl⟩ := List.head?_eq_some_iff.mp hline
      refine .inl ⟨'/' :: '/' :: cs.takeWhile (· ≠ '\n'), cs.dropWhile (· ≠ '\n'), ?_, by simp, ?_,
        .cons rfl (.cons rfl (stepsOver_lineComment cs))⟩
      · simp
      · rw [if_pos hline, bytesFrom_of_drop hlt.le h]
        rfl
    · rw [if_neg hline]
      by_cases hblock : cs.head? = some '*'
      · obtain ⟨cs, rfl⟩ := List.head?_eq_some_iff.mp hblock
        obtain ⟨w, rest, rfl, hlen, hsteps⟩ := exists_closingMark cs
        have hle : i + 2 ≤ bs.length := lt_of_drop_eq_cons hnext
        refine .inl ⟨'/' :: '*' :: w, rest, rfl, by simp, ?_, .cons rfl (.cons rfl hsteps)⟩
        rw [if_pos hblock, bytesFrom_of_drop hle (drop_succ_of_drop_eq_cons hnext), ok_bind, hlen,
          List.length_cons, List.length_cons, Nat.add_assoc, Nat.add_comm 2]
        rfl
      · rw [if_neg hblock]
        exact .inr ⟨rfl, by simp [scan, Cursor.region, Cursor.next, hline, hblock, opensString]⟩
  · rw [if_pos (by simpa using hslash)]
    exact .inr ⟨rfl, by simp [scan, Cursor.region, Cursor.next, hslash, hc]⟩

/-! ## The code that is found -/

/-- The code of a divided text, each character with its place. -/
def codePlaces (pos : Nat) : List (Char × Region) → List (Nat × Char)
  | [] => []
  | (c, r) :: marks =>
    if r = .code then (pos, c) :: codePlaces (pos + 1) marks else codePlaces (pos + 1) marks

theorem codePlaces_append_of_ne {marks : List (Char × Region)} (hr : r ≠ .code) :
    ∀ (w : List Char) (pos : Nat),
      codePlaces pos (w.map (·, r) ++ marks) = codePlaces (pos + w.length) marks
  | [], _ => rfl
  | c :: w, pos => by
      rw [List.map_cons, List.cons_append, codePlaces, if_neg hr, codePlaces_append_of_ne hr w,
        List.length_cons, Nat.add_right_comm, Nat.add_assoc]

/-- What is stepped over has no code. -/
theorem StepsOver.codePlaces_take (h : StepsOver .code r w rest) (hr : r ≠ .code)
    (pos n : Nat) : codePlaces pos ((scan .code (w ++ rest)).take n)
      = codePlaces (pos + w.length) ((scan .code rest).take (n - w.length)) := by
  rw [h, List.take_append, ← List.map_take, List.length_map, codePlaces_append_of_ne hr]
  by_cases hn : w.length ≤ n
  · rw [List.take_of_length_le hn]
  · rw [Nat.sub_eq_zero_of_le (Nat.le_of_not_le hn), List.take_zero]
    rfl

/-- The lexer finds the code between two places, without a trap. -/
theorem codeFrom_eq {stop : Nat} (hstop : stop ≤ bs.length) : ∀ (n : Nat) {pos : Nat},
    stop - pos ≤ n → codeFrom bs pos stop
      = .ok (codePlaces pos ((scan .code (bs.drop pos)).take (stop - pos))) := by
  intro n
  induction n with
  | zero =>
      intro pos hn
      rw [codeFrom, if_neg (by omega), Nat.le_zero.mp hn]
      rfl
  | succ n ih =>
      intro pos hn
      by_cases hpos : pos < stop
      · obtain ⟨c, cs, hcs⟩ : ∃ c cs, bs.drop pos = c :: cs :=
          List.exists_cons_of_length_pos (by rw [List.length_drop]; omega)
        rw [codeFrom, if_pos hpos, byteAt_of_drop_eq_cons hcs, ok_bind, hcs]
        -- behind what is stepped over, the rest is read on
        have hskip : ∀ {r w rest}, c :: cs = w ++ rest → w ≠ [] → r ≠ .code →
            StepsOver .code r w rest →
            (if pos < pos + w.length then codeFrom bs (pos + w.length) stop else throw .stuck)
              = .ok (codePlaces pos ((scan .code (c :: cs)).take (stop - pos))) := by
          intro r w rest hsplit hne hr hsteps
          have hlen := List.length_pos_iff.mpr hne
          have hrest : bs.drop (pos + w.length) = rest := by
            rw [← List.drop_drop, hcs, hsplit, List.drop_left]
          rw [if_pos (by omega), ih (by omega), hsplit, hsteps.codePlaces_take hr, hrest,
            Nat.sub_add_eq]
        cases hopen : opensString c with
        | true =>
            obtain ⟨w, rest, hsplit, hne, hend, hsteps⟩ := exists_stringEnd hcs hopen
            rw [if_pos rfl, hend, ok_bind]
            exact hskip hsplit hne (by decide) hsteps
        | false =>
            rw [if_neg (by decide)]
            rcases exists_commentEnd hcs hopen with
              ⟨w, rest, hsplit, hne, hend, hsteps⟩ | ⟨hend, hscan⟩
            · rw [hend, ok_bind]
              exact hskip hsplit hne (by decide) hsteps
            · obtain ⟨m, hm⟩ : ∃ m, stop - pos = m + 1 := ⟨stop - pos - 1, by omega⟩
              rw [hend, ok_bind, ih (by omega), hscan, drop_succ_of_drop_eq_cons hcs, hm,
                List.take_succ_cons, codePlaces, if_pos rfl, show stop - (pos + 1) = m by omega]
              rfl
      · rw [codeFrom, if_neg hpos, Nat.sub_eq_zero_of_le (Nat.le_of_not_lt hpos)]
        rfl

end

/-! ## The bytes of a divided text -/

/-- The bytes of a divided text. -/
def markBytes (divided : List (Char × Region)) : List (Char × Region) :=
  divided.flatMap fun (c, r) => (charBytes c).map (·, r)

theorem markBytes_cons (c : Char) (r : Region) (divided : List (Char × Region)) :
    markBytes ((c, r) :: divided) = (charBytes c).map (·, r) ++ markBytes divided := rfl

theorem map_fst_markBytes (divided : List (Char × Region)) :
    (markBytes divided).map (·.1) = bytes (divided.map (·.1)) := by
  induction divided with
  | nil => rfl
  | cons mark divided ih =>
      rw [markBytes_cons, List.map_append, ih, List.map_map, List.map_cons, bytes_cons]
      congr 1
      exact List.map_id' (charBytes mark.1)

theorem not_mem_marks_of_not_isAscii {c : Char} (hc : isAscii c = false) : c ∉ marks := by
  have hmarks : ∀ d ∈ marks, isAscii d = true := by decide
  intro hmem
  rw [hmarks c hmem] at hc
  cases hc

theorem neutralWord_charBytes {c : Char} (hc : isAscii c = false) : NeutralWord (charBytes c) where
  ne_nil := (spelling_charBytes.other c hc).1
  neutral b hb := not_mem_marks_of_not_isAscii ((spelling_charBytes.other c hc).2 b hb)

/-- The bytes of a text are divided as the text is. -/
theorem scan_bytes : ∀ {k : Cursor}, k.Opened → ∀ text : List Char,
    scan k (bytes text) = markBytes (scan k text)
  | _, _, [] => rfl
  | k, hk, c :: cs => by
      have hnext := (hk.next c cs.head?)
      cases hc : isAscii c with
      | true =>
          have hbehind : ∀ x, isAscii x = true → ((bytes cs).head? = some x ↔ cs.head? = some x) :=
            fun x hx => spelling_charBytes.head?_eq_some_iff hx cs
          obtain ⟨hregion, hcursor⟩ :=
            k.congr_behind c (hbehind '/' (by decide)) (hbehind '*' (by decide))
          rw [bytes_cons_of_isAscii hc, scan, hregion, hcursor, scan_bytes hnext cs, scan,
            markBytes_cons, spelling_charBytes.same c hc]
          rfl
      | false =>
          have hneutral := not_mem_marks_of_not_isAscii hc
          rw [Cursor.next_of_neutral hk hneutral] at hnext
          rw [bytes_cons, scan_neutral _ (neutralWord_charBytes hc) hk, scan_bytes hnext cs, scan,
            Cursor.next_of_neutral hk hneutral, Cursor.region_of_neutral hneutral, markBytes_cons]

end DesignTokens.Bytewise
