import DesignTokens.Proofs.Source.KeyReading

/-!
# The place of a key

A piece starts where its object does, or behind a comma (`exists_of_mem_segmentsFrom`).
So a key that is read stands in the object with a colon behind it, be it in code or
in a comment (`keyBehind_of_mem_entriesFrom`, for an unquoted key spelled out in
`exists_of_mem_entriesFrom`). White space at the end of a piece adds no key and
takes none away (`exists_of_mem_append_white`).
-/

namespace DesignTokens.Source

open Text

/-! ## Pieces of an object -/

/-- A piece ends at the end of the object or in front of a comma. -/
def EndsPiece (back : List Char) : Prop := ∀ c ∈ back.head?, c = ','

/-- The first piece starts with the characters, and each later one behind a comma in code that no
bracket encloses. -/
theorem exists_divided_segments : ∀ (divided : List (Char × Region)) (depth pos : Nat),
    ∃ first later, segmentsFrom depth pos divided = (pos, first.map (·.1)) :: later ∧
      (∃ b, divided = first ++ b ∧ EndsPiece (b.map (·.1))) ∧
      ∀ x ∈ later, ∃ before y b, divided = before ++ (',', .code) :: (y ++ b) ∧
        x = (pos + before.length + 1, y.map (·.1)) ∧ depthAfter depth before = 0 ∧
        EndsPiece (b.map (·.1))
  | [], _, pos => ⟨[], [], rfl, ⟨[], rfl, nofun⟩, nofun⟩
  | (c, r) :: divided, depth, pos => by
      by_cases hcomma : (r = .code && depth = 0 && c = ',') = true
      · obtain ⟨first, later, hsegments, ⟨b, hb, hend⟩, hlater⟩ :=
          exists_divided_segments divided 0 (pos + 1)
        rw [segmentsFrom_comma hcomma, hsegments]
        simp only [Bool.and_eq_true, decide_eq_true_eq] at hcomma
        obtain ⟨⟨rfl, rfl⟩, rfl⟩ := hcomma
        refine ⟨[], _, rfl, ⟨_, rfl, by rintro _ ⟨⟩; rfl⟩, List.forall_mem_cons.mpr ⟨?_, ?_⟩⟩
        · exact ⟨[], first, b, by rw [hb]; rfl, rfl, rfl, hend⟩
        · intro x hx
          obtain ⟨before, y, b, hdivided, rfl, hdepth, hend⟩ := hlater x hx
          refine ⟨(',', .code) :: before, y, b, by rw [hdivided]; rfl, ?_, hdepth, hend⟩
          rw [List.length_cons, Nat.add_right_comm pos 1]
          rfl
      · obtain ⟨first, later, hsegments, ⟨b, hb, hend⟩, hlater⟩ :=
          exists_divided_segments divided (depthBehind depth c r) (pos + 1)
        refine ⟨(c, r) :: first, later, segmentsFrom_other hcomma hsegments,
          ⟨b, by rw [hb]; rfl, hend⟩, fun x hx => ?_⟩
        obtain ⟨before, y, b, hdivided, rfl, hdepth, hend⟩ := hlater x hx
        refine ⟨(c, r) :: before, y, b, by rw [hdivided]; rfl, ?_, hdepth, hend⟩
        rw [List.length_cons, Nat.add_right_comm pos 1]
        rfl

/-- Each piece of an object starts at its start, or behind a comma with a whole text in front. -/
theorem exists_of_mem_segmentsFrom {pos : Nat} {inside : List Char} {x : Nat × List Char}
    (hx : x ∈ segmentsFrom 0 pos (scan .code inside)) :
    ∃ front back, inside = front ++ (x.2 ++ back) ∧ x.1 = pos + front.length ∧
      (front = [] ∨ ∃ before, front = before ++ [','] ∧ Whole before) ∧ EndsPiece back := by
  obtain ⟨first, later, hsegments, ⟨b, hb, hend⟩, hlater⟩ :=
    exists_divided_segments (scan .code inside) 0 pos
  rw [hsegments] at hx
  rcases List.mem_cons.mp hx with rfl | hx
  · refine ⟨[], b.map (·.1), ?_, rfl, .inl rfl, hend⟩
    rw [← map_fst_scan .code inside, hb, List.map_append]
    rfl
  · obtain ⟨before, y, b, hdivided, rfl, hdepth, hend⟩ := hlater x hx
    have hinside : inside = before.map (·.1) ++ ',' :: (y.map (·.1) ++ b.map (·.1)) := by
      rw [← map_fst_scan .code inside, hdivided]
      simp
    -- the comma is code, so what stands in front of it ends in code
    have hscan := scan_append (startsFresh_cons (c := ',') (by decide) (y.map (·.1) ++ b.map (·.1)))
      .code (before.map (·.1))
    rw [← hinside, hdivided, scan] at hscan
    obtain ⟨hbefore, hcomma⟩ := List.append_inj hscan (by rw [length_scan, List.length_map])
    have hcode := Cursor.eq_code_of_region (Prod.mk.inj (List.cons.inj hcomma).1).2.symm (by decide)
    refine ⟨before.map (·.1) ++ [','], b.map (·.1), by rw [hinside]; simp, ?_,
      .inr ⟨_, rfl, hcode, by rw [← hbefore, hdepth]⟩, hend⟩
    rw [List.length_append, List.length_map]
    rfl

/-! ## A key stands in its object -/

theorem skipBlanks_append_back {back : List Char} (hback : EndsPiece back) (more : List Char) :
    skipBlanks (more ++ back) = skipBlanks more ++ back := by
  have hstop : skipBlanks back = back := by
    cases back with
    | nil => rfl
    | cons c back =>
        obtain rfl : c = ',' := hback c rfl
        rfl
  rw [skipBlanks, skipBlanks, List.dropWhile_append]
  split
  case isTrue hempty => rw [List.isEmpty_iff.mp hempty, ← skipBlanks, hstop, List.nil_append]
  case isFalse => rfl

/-- A key of a piece is one of the text that the piece stands in. -/
theorem KeyBehind.embed {Front : List Char → Prop}
    {Spelled : List Char → List Char → Bool → Prop} {pos : Nat} {front piece back : List Char}
    {e : Entry} (hback : EndsPiece back)
    (h : KeyBehind (fun lead => Front (front ++ lead)) Spelled (pos + front.length) piece e) :
    KeyBehind Front Spelled pos (front ++ (piece ++ back)) e := by
  obtain ⟨lead, spelled, blanks, more, rfl, hfront, hspelled, hblanks, hkey, hvalue⟩ := h
  have hskip : (skipBlanks more).length ≤ more.length := (List.dropWhile_sublist _).length_le
  refine ⟨front ++ lead, spelled, blanks, more ++ back, by simp, hfront, hspelled, hblanks, ?_, ?_⟩
  · rw [hkey, List.length_append, Nat.add_assoc]
  · rw [hvalue, skipBlanks_append_back hback]
    simp only [List.length_append, List.length_cons]
    omega

/-- What is read as a key of an object stands there. -/
theorem keyBehind_of_mem_entriesFrom {pos : Nat} {inside : List Char} {e : Entry}
    (he : e ∈ entriesFrom pos inside) : KeyBehind (fun _ => True) ReadsAs pos inside e := by
  obtain ⟨⟨p, piece⟩, hpiece, hread⟩ := List.mem_filterMap.mp he
  obtain ⟨front, back, rfl, hp, -, hback⟩ := exists_of_mem_segmentsFrom hpiece
  obtain rfl : p = pos + front.length := hp
  exact ((keyBehind_of_entryOf? hread).mono (fun _ _ => trivial) fun _ _ _ h => h).embed hback

/-- An unquoted key of an object stands there with a colon behind it. -/
theorem exists_of_mem_entriesFrom {pos : Nat} {inside : List Char} {e : Entry}
    (he : e ∈ entriesFrom pos inside) (hquoted : e.quoted = false) :
    ∃ front blanks wide rest, inside = front ++ (e.key ++ (blanks ++ ':' :: (wide ++ rest))) ∧
      IsName e.key ∧ (∀ c ∈ blanks, isBlank c = true) ∧ (∀ c ∈ wide, isBlank c = true) ∧
      e.keyStart = pos + front.length ∧
      e.valueStart = pos + (front ++ (e.key ++ (blanks ++ ':' :: wide))).length := by
  obtain ⟨front, spelled, blanks, more, rfl, -, hreads, hblanks, hkey, hvalue⟩ :=
    keyBehind_of_mem_entriesFrom he
  obtain ⟨wide, hmore, hwide⟩ := exists_skipBlanks more
  obtain ⟨key, quoted, keyStart, valueStart⟩ := e
  dsimp only at hreads hquoted hkey hvalue ⊢
  subst hquoted
  cases hreads with
  | name hname =>
      refine ⟨front, blanks, wide, skipBlanks more, by rw [← hmore], hname, hblanks, hwide, hkey,
        ?_⟩
      have hlength := congrArg List.length hmore
      rw [hvalue]
      simp only [List.length_append, List.length_cons] at hlength ⊢
      omega

/-! ## White space behind a piece -/

/-- The characters of a key and whether it is quoted. -/
def Key.name (k : Key) : List Char × Bool := (k.text, k.quoted)

theorem isIdent_of_isWhiteSpace {c : Char} (h : isWhiteSpace c = true) : isIdent c = false := by
  have hdollar : c ≠ '$' := by
    rintro rfl
    exact absurd h (by decide)
  rw [isIdent, isWord_of_isWhiteSpace h]
  simpa using hdollar

section

variable {w : List Char} (hw : ∀ c ∈ w, isWhiteSpace c = true)

include hw

theorem keyHere?_white : keyHere? w = none := by
  cases w with
  | nil => rfl
  | cons c w =>
      have hspace := hw c (List.mem_cons_self ..)
      have hstart : isIdentStart c = false := by
        by_contra hstart
        have hident := isIdent_of_isWhiteSpace hspace
        rw [isIdent_of_isIdentStart (by simpa using hstart)] at hident
        cases hident
      refine keyHere?_eq_none hstart ⟨?_, ?_⟩ w <;> (rintro rfl; exact absurd hspace (by decide))

theorem colonBehind?_append_white (cs : List Char) :
    (colonBehind? (cs ++ w)).isSome = (colonBehind? cs).isSome := by
  have hskip : skipBlanks w = [] ∨ ∃ c rest, skipBlanks w = c :: rest ∧ c ≠ ':' := by
    cases hrest : skipBlanks w with
    | nil => exact .inl rfl
    | cons c rest =>
        refine .inr ⟨c, rest, rfl, ?_⟩
        rintro rfl
        have hmem : ':' ∈ w := (List.dropWhile_sublist isBlank).subset
          (show ':' ∈ skipBlanks w by rw [hrest]; exact List.mem_cons_self ..)
        exact absurd (hw _ hmem) (by decide)
  rw [colonBehind?, colonBehind?, skipBlanks, List.dropWhile_append, ← skipBlanks, ← skipBlanks]
  cases hcs : skipBlanks cs with
  | nil =>
      rcases hskip with hskip | ⟨c, rest, hskip, hc⟩ <;> simp [hskip]
      split
      case h_1 heq => exact absurd (List.cons.inj heq).1 hc
      case h_2 => rfl
  | cons c rest =>
      by_cases hc : c = ':'
      · subst hc
        rfl
      · simp [hc]

omit hw in
theorem map_name_congr {o o' : Option (List Char)} {f f' : List Char → Key} {n : List Char × Bool}
    (ho : o.isSome = o'.isSome) (hf : ∀ v, (f v).name = n) (hf' : ∀ v, (f' v).name = n) :
    (o.map f).map Key.name = (o'.map f').map Key.name := by
  cases o <;> cases o' <;> simp_all

/-- White space closes no quote. -/
theorem keyHere?_quote_append_white {c : Char} (hquote : c = '"' ∨ c = '\'') (cs : List Char) :
    (keyHere? (c :: (cs ++ w))).map Key.name = (keyHere? (c :: cs)).map Key.name := by
  rw [keyHere?_quote hquote, keyHere?_quote hquote, List.dropWhile_append]
  cases hclose : cs.dropWhile fun d => d ≠ c && d ≠ '\n' with
  | nil =>
      rw [List.isEmpty_nil, if_pos rfl]
      cases hwhite : w.dropWhile fun d => d ≠ c && d ≠ '\n' with
      | nil => rfl
      | cons d rest =>
          have hd : d ∈ w := (List.dropWhile_sublist _).subset (hwhite ▸ List.mem_cons_self ..)
          have hdc : d ≠ c := by
            rintro rfl
            rcases hquote with rfl | rfl <;> exact absurd (hw _ hd) (by decide)
          simp [hdc]
  | cons d rest =>
      have hd := List.head?_dropWhile_not (fun d => d ≠ c && d ≠ '\n') cs
      rw [hclose] at hd
      have hcs : cs = cs.takeWhile (fun d => d ≠ c && d ≠ '\n') ++ d :: rest := by
        rw [← hclose, List.takeWhile_append_dropWhile]
      have hstop : (cs ++ w).takeWhile (fun d => d ≠ c && d ≠ '\n')
          = cs.takeWhile fun d => d ≠ c && d ≠ '\n' := by
        conv_lhs => rw [hcs, List.append_assoc, List.cons_append,
          takeWhile_append_stop (by simpa using hd)]
        exact List.takeWhile_eq_self_iff.mpr fun e he =>
          List.mem_takeWhile_imp (p := fun d => d ≠ c && d ≠ '\n') he
      rw [List.isEmpty_cons, if_neg (by decide), List.cons_append, hstop]
      dsimp only
      split
      case isTrue =>
        exact map_name_congr (n := (_, true)) (colonBehind?_append_white hw rest) (fun _ => rfl)
          fun _ => rfl
      case isFalse => rfl

theorem keyHere?_append_white (cs : List Char) :
    (keyHere? (cs ++ w)).map Key.name = (keyHere? cs).map Key.name := by
  cases cs with
  | nil =>
      rw [List.nil_append, keyHere?_white hw]
      rfl
  | cons c cs =>
      rw [List.cons_append]
      by_cases hstart : isIdentStart c = true
      · obtain ⟨v, rest, rfl, hv, hrest⟩ := exists_run cs
        have hrest' : NoIdent (rest ++ w).head? := by
          cases rest with
          | nil => exact fun c hc => isIdent_of_isWhiteSpace (hw c (List.mem_of_mem_head? hc))
          | cons d rest => exact hrest
        rw [List.append_assoc, keyHere?_name hstart hv hrest, keyHere?_name hstart hv hrest']
        exact map_name_congr (n := (c :: v, false)) (colonBehind?_append_white hw rest)
          (fun _ => rfl) fun _ => rfl
      by_cases hquote : c = '"' ∨ c = '\''
      · exact keyHere?_quote_append_white hw hquote cs
      · rw [Bool.not_eq_true] at hstart
        rw [keyHere?_eq_none hstart (not_or.mp hquote), keyHere?_eq_none hstart (not_or.mp hquote)]

/-- White space holds no key. -/
theorem keys_white : keyAt w = none ∧ keyInLine w = none ∧ keyInBlock w = none := by
  induction w with
  | nil => exact ⟨rfl, rfl, rfl⟩
  | cons c w ih =>
      obtain ⟨hhere, hline, hblock⟩ := ih (List.forall_mem_cons.mp hw).2
      have hne : ∀ d, isWhiteSpace d = false → c ≠ d := by
        rintro d hd rfl
        rw [hw _ (List.mem_cons_self ..)] at hd
        cases hd
      have hat : keyAt (c :: w) = none := by
        by_cases hblank : isBlank c = true
        · rw [keyAt_blank hblank, hhere]
        · rw [keyAt_other (by simpa using hblank) fun hpair => hne '/' (by decide) hpair.1,
            keyHere?_white hw]
      refine ⟨hat, ?_, ?_⟩
      · by_cases hnewline : c = '\n'
        · subst hnewline
          exact hat
        · rw [keyInLine_cons hnewline, hline, hat]
          rfl
      · rw [keyInBlock_other fun hpair => hne '*' (by decide) hpair.1, hblock]

/-- What `keyAt`, `keyInLine` and `keyInBlock` find is the same with white space behind. -/
structure SameKeys (cs : List Char) (w : List Char) : Prop where
  here : (keyAt (cs ++ w)).map Key.name = (keyAt cs).map Key.name
  inLine : (keyInLine (cs ++ w)).map Key.name = (keyInLine cs).map Key.name
  inBlock : (keyInBlock (cs ++ w)).map Key.name = (keyInBlock cs).map Key.name

theorem sameKeys_cons {c : Char} {cs : List Char} (hrest : SameKeys cs w)
    (hbehind : ∀ d rest, cs = d :: rest → SameKeys rest w) : SameKeys (c :: cs) w := by
  have hhead : ∀ d, isWhiteSpace d = false →
      ((cs ++ w).head? = some d ↔ cs.head? = some d) := by
    intro d hd
    cases cs with
    | cons e cs => rfl
    | nil =>
        refine ⟨fun h => ?_, nofun⟩
        rw [hw d (List.mem_of_mem_head? h)] at hd
        cases hd
  have hor : ∀ {a a' b b' : Option Key}, a.map Key.name = a'.map Key.name →
      b.map Key.name = b'.map Key.name → (a.or b).map Key.name = (a'.or b').map Key.name := by
    intro a a' b b' ha hb
    cases a <;> cases a' <;> simp_all
  have here : (keyAt (c :: cs ++ w)).map Key.name = (keyAt (c :: cs)).map Key.name := by
    rw [List.cons_append]
    by_cases hblank : isBlank c = true
    · rw [keyAt_blank hblank, keyAt_blank hblank, hrest.here]
    by_cases hpair : c = '/' ∧ (cs.head? = some '/' ∨ cs.head? = some '*')
    · obtain ⟨rfl, hpair⟩ := hpair
      rcases hpair with hpair | hpair <;> obtain ⟨rest, rfl⟩ := List.head?_eq_some_iff.mp hpair
      · exact (hbehind _ rest rfl).inLine
      · exact (hbehind _ rest rfl).inBlock
    · have hpair' : ¬(c = '/' ∧ ((cs ++ w).head? = some '/' ∨ (cs ++ w).head? = some '*')) := by
        rwa [hhead '/' (by decide), hhead '*' (by decide)]
      rw [keyAt_other (by simpa using hblank) hpair, keyAt_other (by simpa using hblank) hpair']
      exact keyHere?_append_white hw (c :: cs)
  refine ⟨here, ?_, ?_⟩
  · by_cases hline : c = '\n'
    · subst hline
      exact here
    · rw [List.cons_append, keyInLine_cons hline, keyInLine_cons hline]
      exact hor hrest.inLine here
  · by_cases hclose : c = '*' ∧ cs.head? = some '/'
    · obtain ⟨rfl, hslash⟩ := hclose
      obtain ⟨rest, rfl⟩ := List.head?_eq_some_iff.mp hslash
      have hbehind := (hbehind _ rest rfl).here
      exact hor hbehind hrest.inBlock
    · have hclose' : ¬(c = '*' ∧ (cs ++ w).head? = some '/') := by
        rwa [hhead '/' (by decide)]
      rw [List.cons_append, keyInBlock_other hclose, keyInBlock_other hclose', hrest.inBlock]

theorem sameKeys : ∀ cs : List Char, SameKeys cs w
  | [] => by
      obtain ⟨hhere, hline, hblock⟩ := keys_white hw
      exact ⟨by rw [List.nil_append, hhere]; rfl, by rw [List.nil_append, hline]; rfl,
        by rw [List.nil_append, hblock]; rfl⟩
  | [_] => sameKeys_cons hw (sameKeys []) nofun
  | _ :: d :: cs => sameKeys_cons hw (sameKeys (d :: cs)) (by rintro _ _ ⟨⟩; exact sameKeys cs)

end

/-- Characters without a comma in code go to the last piece in front of them. -/
theorem forall₂_segmentsFrom_append {b : List (Char × Region)}
    (hb : ∀ x ∈ b, x.2 = .code → x.1 ≠ ',') :
    ∀ (a : List (Char × Region)) (depth pos : Nat),
      List.Forall₂ (fun x y => y.1 = x.1 ∧ (y.2 = x.2 ∨ y.2 = x.2 ++ b.map (·.1)))
        (segmentsFrom depth pos a) (segmentsFrom depth pos (a ++ b))
  | [], depth, pos => by
      have hall := segmentsFrom_append (b := []) depth pos hb rfl
      rw [List.append_nil, List.append_nil] at hall
      rw [List.nil_append, hall]
      exact .cons ⟨rfl, .inr rfl⟩ .nil
  | (c, r) :: a, depth, pos => by
      rw [List.cons_append]
      by_cases hcomma : (r = .code && depth = 0 && c = ',') = true
      · rw [segmentsFrom_comma hcomma, segmentsFrom_comma hcomma]
        exact .cons ⟨rfl, .inl rfl⟩ (forall₂_segmentsFrom_append hb a 0 (pos + 1))
      · have ih := forall₂_segmentsFrom_append hb a (depthBehind depth c r) (pos + 1)
        obtain ⟨piece, later, hpiece⟩ := exists_first_segment (depthBehind depth c r) (pos + 1) a
        obtain ⟨piece', later', hpiece'⟩ :=
          exists_first_segment (depthBehind depth c r) (pos + 1) (a ++ b)
        rw [hpiece, hpiece'] at ih
        obtain ⟨⟨-, hsame⟩, hlater⟩ := List.forall₂_cons.mp ih
        rw [segmentsFrom_other hcomma hpiece, segmentsFrom_other hcomma hpiece']
        refine .cons ⟨rfl, hsame.imp ?_ ?_⟩ hlater <;> rintro rfl <;> rfl

/-- Where the white space starts in code, each key in front of it is a key with it. -/
theorem exists_of_mem_append_white {w : List Char} (hw : ∀ c ∈ w, isWhiteSpace c = true)
    {inside : List Char} (hcode : Cursor.code.run inside = .code) {pos : Nat} {e : Entry}
    (he : e ∈ entriesFrom pos inside) :
    ∃ e' ∈ entriesFrom pos (inside ++ w), e'.key = e.key ∧ e'.quoted = e.quoted := by
  have hplain : ∀ c ∈ w, isPlain c = true := fun c hc => isPlain_of_isWhiteSpace (hw c hc)
  have hscan : scan .code (inside ++ w) = scan .code inside ++ w.map (·, .code) := by
    rw [scan_append (startsFresh_of_isWhiteSpace hw), hcode, (scan_of_isPlain hplain).1]
  have hcomma : ∀ x ∈ w.map (·, Region.code), x.2 = .code → x.1 ≠ ',' := by
    intro x hx _
    obtain ⟨c, hc, rfl⟩ := List.mem_map.mp hx
    rintro rfl
    exact absurd (hw _ hc) (by decide)
  obtain ⟨x, hx, he⟩ := List.mem_filterMap.mp he
  obtain ⟨k, hk, rfl⟩ := Option.map_eq_some_iff.mp he
  have hpieces := forall₂_segmentsFrom_append hcomma (scan .code inside) 0 pos
  rw [← hscan, map_fst_code] at hpieces
  obtain ⟨y, hy, hpiece⟩ : ∃ y ∈ segmentsFrom 0 pos (scan .code (inside ++ w)),
      y.2 = x.2 ∨ y.2 = x.2 ++ w := by
    obtain ⟨i, hi, rfl⟩ := List.getElem_of_mem hx
    exact ⟨_, List.get_mem _ ⟨i, hpieces.length_eq ▸ hi⟩, (hpieces.get hi _).2⟩
  have hname : (key? y.2).map Key.name = (key? x.2).map Key.name := by
    rcases hpiece with hpiece | hpiece <;> rw [hpiece]
    exact (sameKeys hw x.2).here
  rw [hk, Option.map_some] at hname
  obtain ⟨k', hk', hname⟩ := Option.map_eq_some_iff.mp hname
  obtain ⟨hkey, hquoted⟩ := Prod.mk.inj hname
  have hy' : entryOf? y = some ⟨k'.text, k'.quoted, y.1 + (y.2.length - k'.fromKey),
      y.1 + (y.2.length - k'.fromValue)⟩ := by
    rw [entryOf?, hk', Option.map_some]
  exact ⟨_, List.mem_filterMap.mpr ⟨y, hy, hy'⟩, hkey, hquoted⟩

end DesignTokens.Source
