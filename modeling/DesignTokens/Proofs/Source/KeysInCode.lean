import DesignTokens.Proofs.Source.Spelled

/-!
# The keys of an object

The keys of an object are those that stand in code, behind nothing but blanks and
comments since the opening brace or the last comma that no bracket encloses, and
in front of a colon (`ListsKeys`). A key is an identifier or a string (`KeyInCode`).

The entries are cut at the same commas (`keyBehind_iff_exists_piece`), but a key is
read by what may be skipped in front of it and by the next quote. So the entries
are those keys if and only if each piece is read as code (`ReadAsCode`): no string
that is a key has an escaped quote or line end in it, and from a piece without a
key in code nothing can be read at all, be it out of a comment or behind one that
is taken to go on (`listsKeys_iff`). Without a backslash it is enough to look at
what stands before each entry (`listsKeys_iff_startsEntry`).
-/

namespace DesignTokens.Source

open Text

/-! ## Strings and keys in code -/

/-- What stands between the quotes of a string. A backslash takes the next character with it;
without one there is no quote of the kind and no line end. -/
inductive InQuotes (q : Char) : List Char → Prop
  | nil : InQuotes q []
  | char {c : Char} {w : List Char} (hquote : c ≠ q) (hescape : c ≠ '\\') (hline : c ≠ '\n')
      (h : InQuotes q w) : InQuotes q (c :: w)
  | escape {c : Char} {w : List Char} (h : InQuotes q w) : InQuotes q ('\\' :: c :: w)

/-- What is a key in code: an identifier or a string. The characters of the key and whether it is
quoted come behind. -/
inductive KeyInCode : List Char → List Char → Bool → Prop
  | name {w : List Char} (h : IsName w) : KeyInCode w w false
  | quoted {q : Char} {w : List Char} (hkind : q = '"' ∨ q = '\'') (h : InQuotes q w) :
      KeyInCode (q :: (w ++ [q])) w true

/-- A string goes on to its closing quote. -/
theorem InQuotes.scan {q : Char} (hkind : q = '"' ∨ q = '\'') {w : List Char}
    (h : InQuotes q w) : (∀ x ∈ scan (.string q) (w ++ [q]), x.2 = .string) ∧
      (Cursor.string q).run (w ++ [q]) = .code := by
  have hescape : q ≠ '\\' := by rcases hkind with rfl | rfl <;> decide
  have hstep : ∀ {k : Cursor} {c : Char} {cs : List Char}, k.region c cs.head? = .string →
      (∀ x ∈ Source.scan (k.next c cs.head?) cs, x.2 = .string) ∧
        (k.next c cs.head?).run cs = .code →
      (∀ x ∈ Source.scan k (c :: cs), x.2 = .string) ∧ k.run (c :: cs) = .code :=
    fun hregion ⟨hscan, hrun⟩ => ⟨List.forall_mem_cons.mpr ⟨hregion, hscan⟩, hrun⟩
  induction h with
  | nil =>
      refine hstep (by simp [Cursor.region]) ?_
      simp [Cursor.next, hescape, Source.scan, Cursor.run]
  | @char c w hquote hback hline _ ih =>
      have hnext : ∀ behind, (Cursor.string q).next c behind = .string q := fun _ => by
        simp [Cursor.next, hquote, hback, hline]
      refine hstep (by simp [Cursor.region, hline]) ?_
      rwa [hnext]
  | @escape c w _ ih =>
      have hnext : ∀ behind, (Cursor.string q).next '\\' behind = .escaped q := fun _ => rfl
      refine hstep (by simp [Cursor.region]) ?_
      rw [hnext]
      exact hstep rfl ih

theorem inQuotes_iff {q : Char} {w : List Char} (hescape : '\\' ∉ w) :
    InQuotes q w ↔ q ∉ w ∧ '\n' ∉ w := by
  constructor
  · intro h
    induction h with
    | nil => exact ⟨List.not_mem_nil, List.not_mem_nil⟩
    | char hquote _ hline _ ih =>
        rw [List.mem_cons, not_or] at hescape
        obtain ⟨hq, hl⟩ := ih hescape.2
        exact ⟨List.not_mem_cons_of_ne_of_not_mem hquote.symm hq,
          List.not_mem_cons_of_ne_of_not_mem hline.symm hl⟩
    | escape _ _ => exact absurd List.mem_cons_self hescape
  · rintro ⟨hquote, hline⟩
    induction w with
    | nil => exact .nil
    | cons c w ih =>
        rw [List.mem_cons, not_or] at hescape hquote hline
        exact .char (Ne.symm hquote.1) (Ne.symm hescape.1) (Ne.symm hline.1)
          (ih hescape.2 hquote.2 hline.2)

/-- Without a backslash, what is a key in code is what is read as one. -/
theorem keyInCode_iff_readsAs {spelled key : List Char} {quoted : Bool} (hescape : '\\' ∉ spelled) :
    KeyInCode spelled key quoted ↔ ReadsAs spelled key quoted := by
  have hinside : ∀ {q : Char} {w : List Char}, spelled = q :: (w ++ [q]) → '\\' ∉ w :=
    fun heq hmem => hescape (heq ▸ List.mem_cons_of_mem _ (List.mem_append_left _ hmem))
  constructor
  · intro h
    cases h with
    | name h => exact .name h
    | quoted hkind h =>
        obtain ⟨hquote, hline⟩ := (inQuotes_iff (hinside rfl)).mp h
        exact .quoted hkind hquote hline
  · intro h
    cases h with
    | name h => exact .name h
    | quoted hkind hquote hline =>
        exact .quoted hkind ((inQuotes_iff (hinside rfl)).mpr ⟨hquote, hline⟩)

namespace KeyInCode

variable {spelled key : List Char} {quoted : Bool}

theorem startsFresh (h : KeyInCode spelled key quoted) (rest : List Char) :
    StartsFresh (spelled ++ rest) := by
  cases h with
  | name h => exact startsFresh_name_append h rest
  | quoted hkind => exact startsFresh_cons (by rcases hkind with rfl | rfl <;> decide) _

/-- A string as it is divided from code. -/
theorem scan_quoted {q : Char} {w : List Char} (hkind : q = '"' ∨ q = '\'') (h : InQuotes q w) :
    (∀ x ∈ scan .code (q :: (w ++ [q])), x.2 = .string) ∧
      Cursor.code.run (q :: (w ++ [q])) = .code := by
  obtain ⟨hscan, hrun⟩ := h.scan hkind
  rcases hkind with rfl | rfl <;> exact ⟨List.forall_mem_cons.mpr ⟨rfl, hscan⟩, hrun⟩

theorem flat (h : KeyInCode spelled key quoted) : Flat spelled := by
  cases h with
  | name h => exact flat_of_isPlain fun c hc => isPlain_of_isIdent (h.all c hc)
  | quoted hkind h =>
      obtain ⟨hscan, hrun⟩ := scan_quoted hkind h
      exact ⟨hrun, fun x hx hcode => absurd (hcode.symm.trans (hscan x hx)) (by decide)⟩

theorem commaless (h : KeyInCode spelled key quoted) : Commaless spelled := by
  cases h with
  | name h => exact commaless_of_not_mem fun hmem => absurd (h.all _ hmem) (by decide)
  | quoted hkind h =>
      obtain ⟨hscan, -⟩ := scan_quoted hkind h
      exact fun x hx hcode => absurd (hcode.symm.trans (hscan x hx)) (by decide)

end KeyInCode

/-! ## Keys of pieces and keys of the object -/

section

variable {Spelled : List Char → List Char → Bool → Prop} {pos : Nat} {inside piece : List Char}
  {e : Entry}

variable (hspelled : ∀ w key quoted, Spelled w key quoted → KeyInCode w key quoted)

include hspelled

/-- The characters up to the colon of the first key belong to the first piece. -/
theorem exists_piece_of_lead (h : KeyBehind IsLead Spelled pos inside e) :
    ∃ x ∈ segmentsFrom 0 pos (scan .code inside), KeyBehind IsLead Spelled x.1 x.2 e := by
  obtain ⟨lead, spelled, blanks, more, rfl, hlead, hkeyed, hblanks, hkey, hvalue⟩ := h
  have hincode := hspelled _ _ _ hkeyed
  have hcolon : ∀ c ∈ blanks ++ [':'], isPlain c = true ∧ c ≠ ',' := by
    refine List.forall_mem_append.mpr ⟨fun c hc => ?_, by decide⟩
    exact ⟨isPlain_of_isBlank (hblanks c hc), ne_comma_of_isBlank (hblanks c hc)⟩
  have hscan : scan .code (lead ++ (spelled ++ (blanks ++ ':' :: more)))
      = (scan .code lead ++ scan .code spelled ++ (blanks ++ [':']).map (·, .code))
        ++ scan .code more := by
    have hfresh : StartsFresh (blanks ++ ':' :: more) :=
      (startsFresh_of_isBlank hblanks).append (startsFresh_cons (by decide) more)
    have hmore := (scan_plain_append more fun c hc => (hcolon c hc).1).1
    rw [List.append_assoc, List.singleton_append] at hmore
    rw [scan_append (hincode.startsFresh _), hlead.code, scan_append hfresh, hincode.flat.code,
      hmore, List.append_assoc, List.append_assoc]
  have hcomma : ∀ x ∈ scan .code lead ++ scan .code spelled
      ++ (blanks ++ [':']).map (·, Region.code), x.2 = .code → x.1 ≠ ',' := by
    refine List.forall_mem_append.mpr
      ⟨List.forall_mem_append.mpr ⟨hlead.not_comma, hincode.commaless⟩, fun x hx _ => ?_⟩
    obtain ⟨c, hc, rfl⟩ := List.mem_map.mp hx
    exact (hcolon c hc).2
  obtain ⟨first, later, hsegments, -⟩ := exists_segments_append hcomma (scan .code more) 0 pos
  rw [← hscan, List.map_append, List.map_append, map_fst_scan, map_fst_scan, map_fst_code]
    at hsegments
  have hmem := List.mem_cons_self (a := (pos, lead ++ spelled ++ (blanks ++ [':']) ++ first))
    (l := later)
  rw [← hsegments] at hmem
  refine ⟨_, hmem, lead, spelled, blanks, first, by simp, hlead, hkeyed, hblanks, hkey, ?_⟩
  -- the piece starts with the text, so the rest of the text is what ends it
  obtain ⟨front, back, htext, hplace, -, hback⟩ := exists_of_mem_segmentsFrom hmem
  obtain rfl : front = [] := List.length_eq_zero_iff.mp (by simpa using hplace)
  obtain rfl : more = first ++ back := by simpa using htext
  have hskip : (skipBlanks first).length ≤ first.length := (List.dropWhile_sublist _).length_le
  rw [hvalue, skipBlanks_append_back hback]
  simp only [List.length_append, List.length_cons, List.length_nil]
  omega

/-- The keys in code of an object are those of its pieces. -/
theorem keyBehind_iff_exists_piece : KeyBehind StartsEntry Spelled pos inside e ↔
    ∃ x ∈ segmentsFrom 0 pos (scan .code inside), KeyBehind IsLead Spelled x.1 x.2 e := by
  constructor
  · rintro ⟨front, spelled, blanks, more, rfl, hfront, hkeyed, hblanks, hkey, hvalue⟩
    cases hfront with
    | first hlead =>
        exact exists_piece_of_lead hspelled
          ⟨front, spelled, blanks, more, rfl, hlead, hkeyed, hblanks, hkey, hvalue⟩
    | @behind before lead hbefore hlead =>
        have hskip : (skipBlanks more).length ≤ more.length := (List.dropWhile_sublist _).length_le
        have hbehind : KeyBehind IsLead Spelled (pos + before.length + 1)
            (lead ++ (spelled ++ (blanks ++ ':' :: more))) e := by
          refine ⟨lead, spelled, blanks, more, rfl, hlead, hkeyed, hblanks, ?_, ?_⟩
          · rw [hkey]
            simp only [List.length_append, List.length_cons]
            omega
          · rw [hvalue]
            simp only [List.length_append, List.length_cons]
            omega
        obtain ⟨x, hx, hpiece⟩ := exists_piece_of_lead hspelled hbehind
        refine ⟨x, ?_, hpiece⟩
        have hscan := scan_append (startsFresh_cons (c := ',') (by decide)
          (lead ++ (spelled ++ (blanks ++ ':' :: more)))) .code before
        rw [hbefore.code] at hscan
        rw [List.append_assoc, List.cons_append, hscan]
        show x ∈ segmentsFrom 0 pos (scan .code before ++ (',', .code) :: scan .code _)
        rw [segmentsFrom_append_comma _ _ hbefore.closed, length_scan]
        exact List.mem_append_right _ hx
  · rintro ⟨x, hx, hpiece⟩
    obtain ⟨front, back, rfl, hplace, hfront, hback⟩ := exists_of_mem_segmentsFrom hx
    rw [hplace] at hpiece
    refine KeyBehind.embed hback (hpiece.mono (fun lead hlead => ?_) fun _ _ _ h => h)
    rcases hfront with rfl | ⟨before, rfl, hbefore⟩
    · exact .first hlead
    · rw [List.append_assoc, List.singleton_append]
      exact .behind hbefore hlead

end

/-! ## The entries are the keys in code -/

/-- The pieces of an object with their positions. -/
def objectPieces (text : List Char) (opening closing : Nat) : List (Nat × List Char) :=
  segmentsFrom 0 (opening + 1) (regions (between text opening closing))

/-- The entries of an object are the keys that stand in code, behind nothing but blanks and comments
since its opening brace or the last comma that no bracket encloses, and in front of a colon. -/
def ListsKeys (text : List Char) (opening closing : Nat) : Prop :=
  ∀ e, e ∈ entries text opening closing ↔
    KeyBehind StartsEntry KeyInCode (opening + 1) (between text opening closing) e

/-- A key in code in which no quote of its kind and no line end is escaped. -/
def PlainKey (w key : List Char) (quoted : Bool) : Prop :=
  KeyInCode w key quoted ∧ ReadsAs w key quoted

/-- The piece is read as it stands in code. -/
structure ReadAsCode (x : Nat × List Char) : Prop where
  /-- A key in code has no escaped quote and no escaped line end. -/
  unescaped : ∀ e, KeyBehind IsLead KeyInCode x.1 x.2 e → KeyBehind IsLead ReadsAs x.1 x.2 e
  /-- A piece without a key in code has nothing that could be read as one. -/
  silent : (∃ e, KeyBehind IsLead KeyInCode x.1 x.2 e) ∨ ∀ e, ¬KeyBehind Skipped ReadsAs x.1 x.2 e

theorem mem_entries_iff {text : List Char} {opening closing : Nat} {e : Entry} :
    e ∈ entries text opening closing ↔
      ∃ x ∈ objectPieces text opening closing, entryOf? x = some e := by
  rw [entries_eq, entriesFrom, List.mem_filterMap, objectPieces, regions_eq_scan]

theorem objectPieces_eq (text : List Char) (opening closing : Nat) :
    objectPieces text opening closing
      = segmentsFrom 0 (opening + 1) (scan .code (between text opening closing)) := by
  rw [objectPieces, regions_eq_scan]

section

variable {text : List Char} {opening closing : Nat}

/-- No place belongs to two pieces. -/
theorem eq_of_mem_objectPieces {x y : Nat × List Char} (hx : x ∈ objectPieces text opening closing)
    (hy : y ∈ objectPieces text opening closing) {n : Nat} (hnx : x.1 ≤ n ∧ n < x.1 + x.2.length)
    (hny : y.1 ≤ n ∧ n < y.1 + y.2.length) : x = y := by
  have hpairwise : (objectPieces text opening closing).Pairwise
      fun x y => x.1 + x.2.length < y.1 := (pairwise_segmentsFrom _ _ _).1
  obtain ⟨i, hi, rfl⟩ := List.getElem_of_mem hx
  obtain ⟨j, hj, rfl⟩ := List.getElem_of_mem hy
  rcases Nat.lt_trichotomy i j with hlt | rfl | hlt
  · have := List.pairwise_iff_getElem.mp hpairwise i j hi hj hlt
    omega
  · rfl
  · have := List.pairwise_iff_getElem.mp hpairwise j i hj hi hlt
    omega

/-- The keys in code are listed just if each piece has the entry that stands in code there. -/
theorem listsKeys_iff_pieces : ListsKeys text opening closing ↔
    ∀ x ∈ objectPieces text opening closing, ∀ e,
      entryOf? x = some e ↔ KeyBehind IsLead KeyInCode x.1 x.2 e := by
  have hkeys : ∀ e, KeyBehind StartsEntry KeyInCode (opening + 1) (between text opening closing) e ↔
      ∃ x ∈ objectPieces text opening closing, KeyBehind IsLead KeyInCode x.1 x.2 e := fun e => by
    rw [objectPieces_eq]
    exact keyBehind_iff_exists_piece fun _ _ _ h => h
  constructor
  · intro h x hx e
    constructor
    · intro he
      obtain ⟨y, hy, hkey⟩ := (hkeys e).mp ((h e).mp (mem_entries_iff.mpr ⟨x, hx, he⟩))
      have hread : KeyBehind Skipped ReadsAs x.1 x.2 e := keyBehind_of_entryOf? he
      obtain rfl := eq_of_mem_objectPieces hx hy hread.keyStart_bounds hkey.keyStart_bounds
      exact hkey
    · intro hkey
      obtain ⟨y, hy, he⟩ := mem_entries_iff.mp ((h e).mpr ((hkeys e).mpr ⟨x, hx, hkey⟩))
      have hread : KeyBehind Skipped ReadsAs y.1 y.2 e := keyBehind_of_entryOf? he
      obtain rfl := eq_of_mem_objectPieces hx hy hkey.keyStart_bounds hread.keyStart_bounds
      exact he
  · intro h e
    rw [mem_entries_iff, hkeys]
    exact exists_congr fun x => and_congr_right fun hx => h x hx e

theorem readAsCode_iff {x : Nat × List Char} : ReadAsCode x ↔
    ∀ e, entryOf? x = some e ↔ KeyBehind IsLead KeyInCode x.1 x.2 e := by
  obtain ⟨pos, piece⟩ := x
  dsimp only
  constructor
  · rintro ⟨hunescaped, hsilent⟩ e
    have hread : ∀ e, KeyBehind IsLead KeyInCode pos piece e → entryOf? (pos, piece) = some e :=
      fun e he => entryOf?_of_isLead (hunescaped e he)
    refine ⟨fun he => ?_, hread e⟩
    rcases hsilent with ⟨e', he'⟩ | hsilent
    · obtain rfl := Option.some.inj (he.symm.trans (hread e' he'))
      exact he'
    · exact absurd (keyBehind_of_entryOf? he) (hsilent e)
  · intro h
    refine ⟨fun e he => ?_, ?_⟩
    · exact (keyBehind_of_entryOf? ((h e).mpr he)).change he.front
    · by_cases hread : ∃ e, KeyBehind Skipped ReadsAs pos piece e
      · obtain ⟨e, he⟩ := hread
        obtain ⟨e', he'⟩ := exists_entryOf? he
        exact .inl ⟨e', (h e').mp he'⟩
      · exact .inr (not_exists.mp hread)

/-- A key in code is an entry if it has no escaped quote and no escaped line end. -/
theorem mem_entries_of_keyBehind {e : Entry}
    (h : KeyBehind StartsEntry PlainKey (opening + 1) (between text opening closing) e) :
    e ∈ entries text opening closing := by
  obtain ⟨x, hx, hkey⟩ := (keyBehind_iff_exists_piece fun _ _ _ h => h.1).mp h
  rw [← objectPieces_eq] at hx
  exact mem_entries_iff.mpr
    ⟨x, hx, entryOf?_of_isLead (hkey.mono (fun _ h => h) fun _ _ _ h => h.2)⟩

/-- In an object without a backslash, the entries are the keys in code if each of them stands where
an entry starts. -/
theorem listsKeys_iff_startsEntry (hescape : '\\' ∉ between text opening closing) :
    ListsKeys text opening closing ↔ ∀ e ∈ entries text opening closing,
      StartsEntry ((between text opening closing).take (e.keyStart - (opening + 1))) := by
  refine ⟨fun h e he => ((h e).mp he).front, fun h e => ⟨fun he => ?_, fun he => ?_⟩⟩
  · have hread := keyBehind_of_mem_entriesFrom (entries_eq text opening closing ▸ he)
    exact (hread.change (h e he)).mono_of_not_mem hescape fun _ _ _ hw =>
      (keyInCode_iff_readsAs hw).mpr
  · exact mem_entries_of_keyBehind (he.mono_of_not_mem hescape fun _ _ _ hw hkey =>
      ⟨hkey, (keyInCode_iff_readsAs hw).mp hkey⟩)

/-- Divided from its opening brace on, the text is divided inside of the object as the inside is.
The entries come in the order of their places, and no key in code is missed that has no escaped
quote and no escaped line end. The entries are all the keys in code and nothing else if and only if
each piece is read as code. -/
theorem listsKeys_iff (hopen : text[opening]? = some '\x7b')
    (hclosing : matchingBrace? text opening = some closing) :
    (∃ behind, regions (text.drop (opening + 1))
        = regions (between text opening closing) ++ ('\x7d', .code) :: behind) ∧
      (entries text opening closing).Pairwise (fun e e' => e.keyStart < e'.keyStart) ∧
      (∀ e, KeyBehind StartsEntry PlainKey (opening + 1) (between text opening closing) e →
        e ∈ entries text opening closing) ∧
      (ListsKeys text opening closing ↔
        ∀ x ∈ objectPieces text opening closing, ReadAsCode x) := by
  refine ⟨?_, ?_, fun _ => mem_entries_of_keyBehind, ?_⟩
  · have hclosed := closed_of_matchingBrace hclosing hopen
    obtain ⟨a, rest, htext, rfl, -⟩ := exists_object hclosing hopen
    generalize between text a.length closing = inside at htext hclosed ⊢
    refine ⟨scan .code rest, ?_⟩
    rw [htext, ← List.drop_drop, List.drop_left, List.drop_succ_cons, List.drop_zero,
      regions_eq_scan, regions_eq_scan, scan_append (startsFresh_cons (by decide) rest),
      hclosed.code, (scan_close rest).1]
  · rw [entries_eq]
    exact pairwise_entriesFrom _ _
  · rw [listsKeys_iff_pieces]
    exact forall_congr' fun x => forall_congr' fun _ => readAsCode_iff.symm

end

/-- Comments in front of keys and a comma behind the last entry. -/
def commentedObject : List Char :=
  "\x7b\n  // sizes: all\n  sm: \"w-1/2\",\n  /* large */ \"lg\": [1, 2],\n\x7d".toList

theorem listsKeys_iff_commentedObject : commentedObject[0]? = some '\x7b' ∧
    matchingBrace? commentedObject 0 = some 61 ∧ ListsKeys commentedObject 0 61 ∧
      ∀ x ∈ objectPieces commentedObject 0 61, ReadAsCode x := by
  have hlists : ListsKeys commentedObject 0 61 :=
    (listsKeys_iff_startsEntry (by decide)).mpr (by decide)
  exact ⟨by decide, by decide, hlists,
    (listsKeys_iff (by decide) (by decide)).2.2.2.mp hlists⟩

/-- A line comment with a colon, and no key behind it. -/
def remarkObject : List Char := "\x7b\n  // sizes: all\n  ...shared,\n\x7d".toList

/-- A computed key with a comment in it, behind another comment. -/
def computedObject : List Char := "\x7b /* m */ [on ? /* wide */ l : xl]: 1 \x7d".toList

/-- A key with a quotation mark in it. -/
def escapedObject : List Char := "\x7b \"a\\\"b\": 1 \x7d".toList

/-- A letter of a comment is an entry, a name in brackets is one, and a key in code is none. -/
theorem not_listsKeys :
    (matchingBrace? remarkObject 0 = some 31 ∧
      entries remarkObject 0 31 = [⟨['s'], false, 11, 14⟩] ∧ ¬ListsKeys remarkObject 0 31) ∧
    (matchingBrace? computedObject 0 = some 38 ∧
      entries computedObject 0 38 = [⟨['l'], false, 27, 31⟩] ∧ ¬ListsKeys computedObject 0 38) ∧
    (matchingBrace? escapedObject 0 = some 12 ∧ entries escapedObject 0 12 = [] ∧
      ¬ListsKeys escapedObject 0 12) := by
  have hnone : entries escapedObject 0 12 = [] := by decide
  refine ⟨⟨by decide, by decide, ?_⟩, ⟨by decide, by decide, ?_⟩,
    by decide, hnone, fun h => ?_⟩
  · exact mt (listsKeys_iff_startsEntry (by decide)).mp (by decide)
  · exact mt (listsKeys_iff_startsEntry (by decide)).mp (by decide)
  · have hkey : KeyBehind StartsEntry KeyInCode 1 (between escapedObject 0 12)
        ⟨"a\\\"b".toList, true, 2, 10⟩ := by
      refine ⟨[' '], "\"a\\\"b\"".toList, [], " 1 ".toList, by decide, .first (by decide), ?_,
        nofun, by decide, by decide⟩
      exact .quoted (.inl rfl) (.char (by decide) (by decide) (by decide)
        (.escape (.char (by decide) (by decide) (by decide) .nil)))
    have hmem := (h _).mpr hkey
    rw [hnone] at hmem
    cases hmem

end DesignTokens.Source
