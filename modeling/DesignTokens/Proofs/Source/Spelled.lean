import DesignTokens.Proofs.Source.Closed

/-!
# Objects that are read back whole

An object is cut into pieces at the commas in code that no bracket encloses. What
has neither brackets nor such a comma in code is one piece (`Flat.piece`), and so
is an object with flat text in it, whatever commas that has (`piece_object`). A
piece that starts with a spelled key and a colon, behind blanks and comments, is
one entry, with the key that is spelled (`Spells.entriesFrom`). A name is spelled
by itself (`spells_name`), and by itself in quotes if they enclose it
(`spells_quoted`).
-/

namespace DesignTokens.Source

open Text

/-! ## Flat texts -/

/-- Read from code, the text ends in code and has no bracket there. -/
structure Flat (w : List Char) : Prop where
  code : Cursor.code.run w = .code
  plain : ∀ x ∈ scan .code w, x.2 = .code → isPlain x.1 = true

/-- The text has no comma in code. -/
def Commaless (w : List Char) : Prop := ∀ x ∈ scan .code w, x.2 = .code → x.1 ≠ ','

instance (w : List Char) : Decidable (Flat w) :=
  decidable_of_iff (Cursor.code.run w = .code ∧
      ∀ x ∈ scan .code w, x.2 = .code → isPlain x.1 = true)
    ⟨fun h => ⟨h.1, h.2⟩, fun h => ⟨h.1, h.2⟩⟩

instance (w : List Char) : Decidable (Commaless w) :=
  inferInstanceAs (Decidable (∀ x ∈ scan .code w, x.2 = .code → x.1 ≠ ','))

theorem flat_of_isPlain {w : List Char} (h : ∀ c ∈ w, isPlain c = true) : Flat w := by
  obtain ⟨hscan, hrun⟩ := scan_of_isPlain h
  refine ⟨hrun, fun x hx _ => ?_⟩
  rw [hscan] at hx
  obtain ⟨c, hc, rfl⟩ := List.mem_map.mp hx
  exact h c hc

theorem commaless_of_not_mem {w : List Char} (h : ',' ∉ w) : Commaless w := by
  rintro x hx - heq
  refine h ?_
  rw [← heq, ← map_fst_scan .code w]
  exact List.mem_map_of_mem hx

theorem IsLead.flat {w : List Char} (h : IsLead w) : Flat w := by
  refine ⟨h.code, fun x hx hcode => ?_⟩
  rcases h.blank x hx with hcomment | ⟨-, hblank⟩
  · exact absurd (hcode.symm.trans hcomment) (by decide)
  · exact isPlain_of_isBlank hblank

theorem depthBehind_of_flat {x : Char × Region} (h : x.2 = .code → isPlain x.1 = true)
    (depth : Nat) : depthBehind depth x.1 x.2 = depth := by
  by_cases hcode : x.2 = .code
  · exact depthBehind_of_isPlain (h hcode) depth x.2
  · rw [depthBehind, if_pos hcode]

section

variable {w v : List Char}

theorem Flat.append (hw : Flat w) (hv : Flat v) (hfresh : StartsFresh v) : Flat (w ++ v) where
  code := by rw [Cursor.run_append hfresh, hw.code, hv.code]
  plain := fun x hx => by
    rw [scan_append hfresh, hw.code] at hx
    exact (List.mem_append.mp hx).elim (hw.plain x) (hv.plain x)

theorem Commaless.append (hw : Commaless w) (hcode : Cursor.code.run w = .code)
    (hv : Commaless v) (hfresh : StartsFresh v) : Commaless (w ++ v) := by
  intro x hx
  rw [scan_append hfresh, hcode] at hx
  exact (List.mem_append.mp hx).elim (hw x) (hv x)

theorem depthAfter_of_flat {divided : List (Char × Region)}
    (h : ∀ x ∈ divided, x.2 = .code → isPlain x.1 = true) (depth : Nat) :
    depthAfter depth divided = depth := by
  induction divided with
  | nil => rfl
  | cons x divided ih =>
      obtain ⟨hx, hrest⟩ := List.forall_mem_cons.mp h
      have hstep : depthAfter depth (x :: divided)
          = depthAfter (depthBehind depth x.1 x.2) divided := rfl
      rw [hstep, depthBehind_of_flat hx, ih hrest]

theorem Flat.whole (h : Flat w) : Whole w := ⟨h.code, depthAfter_of_flat h.plain 0⟩

theorem Flat.closed (h : Flat w) : Closed w := by
  refine ⟨h.code, ?_⟩
  have hlevel : ∀ {divided : List (Char × Region)},
      (∀ x ∈ divided, x.2 = .code → isPlain x.1 = true) → openAfter 1 divided = some 1 := by
    intro divided hdivided
    induction divided with
    | nil => rfl
    | cons x divided ih =>
        obtain ⟨hx, hrest⟩ := List.forall_mem_cons.mp hdivided
        obtain ⟨c, r⟩ := x
        rcases brace_cases c r with ⟨rfl, rfl⟩ | ⟨rfl, rfl⟩ | ⟨hopen, hclose⟩
        · exact absurd (hx rfl) (by decide)
        · exact absurd (hx rfl) (by decide)
        · rw [openAfter_other hopen hclose, ih hrest]
  exact hlevel h.plain

end

/-! ## Single pieces -/

/-- Read from code, the text ends in code, leaves no bracket open, and is not cut at a comma. -/
structure Piece (w : List Char) : Prop where
  whole : Whole w
  single : ∀ pos, segmentsFrom 0 pos (scan .code w) = [(pos, w)]

theorem Flat.piece {w : List Char} (h : Flat w) (hcomma : Commaless w) : Piece w := by
  refine ⟨h.whole, fun pos => ?_⟩
  have hall := segmentsFrom_append (b := []) 0 pos hcomma rfl
  rwa [List.append_nil, List.append_nil, map_fst_scan] at hall

/-- Blanks and comments go with the piece behind them. -/
theorem Piece.lead {lead w : List Char} (hlead : IsLead lead) (hw : Piece w)
    (hfresh : StartsFresh w) : Piece (lead ++ w) := by
  refine ⟨hlead.whole.append hw.whole hfresh, fun pos => ?_⟩
  have hdepth : depthAfter 0 (scan .code lead) = 0 := hlead.whole.closed
  have hall := segmentsFrom_append 0 pos hlead.not_comma (by rw [hdepth]; exact hw.single _)
  rw [scan_append hfresh, hlead.code, hall, map_fst_scan]

/-- Inside of a bracket, commas do not separate. -/
theorem segmentsFrom_enclosed {b : List (Char × Region)} {q : Nat} {more : List Char}
    {later : List (Nat × List Char)} (depth : Nat) : ∀ {a : List (Char × Region)} (pos : Nat),
      (∀ x ∈ a, x.2 = .code → isPlain x.1 = true) →
      segmentsFrom (depth + 1) (pos + a.length) b = (q, more) :: later →
      segmentsFrom (depth + 1) pos (a ++ b) = (pos, a.map (·.1) ++ more) :: later
  | [], pos, _, h => by
      obtain ⟨piece, rest, hpiece⟩ := exists_first_segment (depth + 1) pos b
      have h : segmentsFrom (depth + 1) pos b = (q, more) :: later := h
      rw [hpiece] at h
      obtain ⟨hfirst, rfl⟩ := List.cons.inj h
      obtain ⟨rfl, rfl⟩ := Prod.mk.inj hfirst
      exact hpiece
  | (c, r) :: a, pos, ha, h => by
      obtain ⟨hx, ha⟩ := List.forall_mem_cons.mp ha
      rw [List.length_cons, Nat.add_comm a.length, ← Nat.add_assoc] at h
      have ih := segmentsFrom_enclosed depth (pos + 1) ha h
      rw [← depthBehind_of_flat hx (depth + 1)] at ih
      rw [List.cons_append, segmentsFrom_other (by simp) ih]
      rfl

/-- An object with flat text in it is one piece with what stands in front of it. -/
theorem piece_object {front inner : List Char} (hfront : Flat front) (hcomma : Commaless front)
    (hinner : Flat inner) : Piece (front ++ '\x7b' :: (inner ++ ['\x7d'])) := by
  have hclose : StartsFresh ['\x7d'] := startsFresh_cons (by decide) []
  have hscan : scan .code (front ++ '\x7b' :: (inner ++ ['\x7d']))
      = scan .code front ++ ('\x7b', .code) :: (scan .code inner ++ [('\x7d', .code)]) := by
    rw [scan_append (startsFresh_open _), hfront.code, (scan_open _).1, scan_append hclose,
      hinner.code]
    rfl
  refine ⟨⟨?_, ?_⟩, fun pos => ?_⟩
  · rw [Cursor.run_append (startsFresh_open _), hfront.code, (scan_object hinner.closed 0 []).2]
    rfl
  · rw [hscan, depthAfter_append, depthAfter_of_flat hfront.plain]
    have hopen : ∀ rest, depthAfter 0 (('\x7b', .code) :: rest) = depthAfter 1 rest :=
      fun _ => rfl
    rw [hopen, depthAfter_append, depthAfter_of_flat hinner.plain]
    rfl
  · have hlast : ∀ p, segmentsFrom 1 p [('\x7d', Region.code)] = [(p, ['\x7d'])] := fun _ => rfl
    have hinside : ∀ p, segmentsFrom 1 p (scan .code inner ++ [('\x7d', .code)])
        = [(p, inner ++ ['\x7d'])] := by
      intro p
      rw [segmentsFrom_enclosed 0 p hinner.plain (hlast _), map_fst_scan]
    have hbrace : ∀ p, segmentsFrom 0 p (('\x7b', Region.code)
        :: (scan .code inner ++ [('\x7d', .code)])) = [(p, '\x7b' :: (inner ++ ['\x7d']))] :=
      fun p => segmentsFrom_other (by decide) (hinside (p + 1))
    rw [hscan, segmentsFrom_append 0 pos hcomma
      (by rw [depthAfter_of_flat hfront.plain]; exact hbrace _), map_fst_scan]

theorem entriesFrom_piece {w : List Char} (h : Piece w) {k : Key} (hkey : keyAt w = some k)
    (pos : Nat) : entriesFrom pos w
      = [⟨k.text, k.quoted, pos + (w.length - k.fromKey), pos + (w.length - k.fromValue)⟩] := by
  have hkey : key? w = some k := hkey
  rw [entriesFrom, h.single, List.filterMap_cons, entryOf?, hkey]
  rfl

/-- White space has no entry. -/
theorem entriesFrom_white {w : List Char} (h : ∀ c ∈ w, isWhiteSpace c = true) (pos : Nat) :
    entriesFrom pos w = [] := by
  have hflat : Flat w := flat_of_isPlain fun c hc => isPlain_of_isWhiteSpace (h c hc)
  have hcomma : Commaless w := commaless_of_not_mem fun hmem => absurd (h _ hmem) (by decide)
  have hkey : key? w = none := (keys_white h).1
  rw [entriesFrom, (hflat.piece hcomma).single, List.filterMap_cons, entryOf?, hkey]
  rfl

/-! ## Spelled keys -/

/-- In front of a colon, the text is read as the key. -/
structure Spells (w name : List Char) (quoted : Bool) : Prop where
  flat : Flat w
  commaless : Commaless w
  fresh : StartsFresh w
  key : ∀ rest, keyAt (w ++ ':' :: rest)
    = some ⟨name, quoted, (w ++ ':' :: rest).length, (skipBlanks rest).length⟩

section

variable {w name : List Char} {quoted : Bool}

theorem spells_name (h : IsName name) : Spells name name false where
  flat := flat_of_isPlain fun c hc => isPlain_of_isIdent (h.all c hc)
  commaless := commaless_of_not_mem fun hmem => absurd (h.all _ hmem) (by decide)
  fresh := startsFresh_of_isName h
  key := fun rest => keyAt_name h (List.forall_mem_nil _) rest

/-- What stands in quotes is string up to the closing one. -/
theorem scan_inQuotes : ∀ {cs : List Char} (k : Cursor), k = .string '"' ∨ k = .escaped '"' →
    '\n' ∉ cs → '"' ∉ cs → ∀ x ∈ scan k (cs ++ ['"']), x.2 = .string
  | [], k, hk, _, _ => by
      intro x hx
      obtain rfl := List.mem_singleton.mp hx
      rcases hk with rfl | rfl <;> rfl
  | c :: cs, k, hk, hline, hquote => by
      rw [List.mem_cons, not_or] at hline hquote
      obtain ⟨hline, hlines⟩ := hline
      obtain ⟨hquote, hquotes⟩ := hquote
      have hc : ∀ behind, k.region c behind = .string ∧
          (k.next c behind = .string '"' ∨ k.next c behind = .escaped '"') := by
        intro behind
        rcases hk with rfl | rfl
        · refine ⟨by simp [Cursor.region, Ne.symm hline], ?_⟩
          simp only [Cursor.next, Ne.symm hquote, Ne.symm hline, decide_false, Bool.false_and,
            Bool.or_false, Bool.false_eq_true, if_false]
          split
          · exact .inr rfl
          · exact .inl rfl
        · exact ⟨rfl, .inl rfl⟩
      rw [List.cons_append, scan]
      exact List.forall_mem_cons.mpr ⟨(hc _).1, scan_inQuotes _ (hc _).2 hlines hquotes⟩

/-- Quotes spell a name that they enclose: it has no such quote, no line end, and leaves no escape
open. -/
theorem spells_quoted (hquote : '"' ∉ name) (hline : '\n' ∉ name)
    (hescape : (Cursor.string '"').run name = .string '"') :
    Spells ('"' :: name ++ ['"']) name true := by
  have hclose : StartsFresh ['"'] := startsFresh_cons (by decide) []
  have hstring : ∀ x ∈ scan .code ('"' :: (name ++ ['"'])), x.2 = .string :=
    List.forall_mem_cons.mpr ⟨rfl, scan_inQuotes _ (.inl rfl) hline hquote⟩
  have hnone : ∀ x ∈ scan .code ('"' :: (name ++ ['"'])), x.2 ≠ .code := fun x hx hcode =>
    absurd (hcode.symm.trans (hstring x hx)) (by decide)
  refine ⟨⟨?_, fun x hx hcode => absurd hcode (hnone x hx)⟩,
    fun x hx hcode => absurd hcode (hnone x hx), startsFresh_cons (by decide) _, fun rest => ?_⟩
  · show (Cursor.string '"').run (name ++ ['"']) = .code
    rw [Cursor.run_append hclose, hescape]
    rfl
  · have hname : ∀ d ∈ name, (d ≠ '"' && d ≠ '\n') = true := by
      intro d hd
      simp only [ne_eq, Bool.and_eq_true, decide_eq_true_eq]
      exact ⟨fun heq => hquote (heq ▸ hd), fun heq => hline (heq ▸ hd)⟩
    have htext : '"' :: name ++ ['"'] ++ ':' :: rest = '"' :: (name ++ '"' :: ':' :: rest) := by
      simp
    have hcolon : colonBehind? (':' :: rest) = some (skipBlanks rest) := rfl
    rw [htext, keyAt_other (by decide) (by simp), keyHere?_quote (.inl rfl),
      List.dropWhile_append_of_pos hname, List.takeWhile_append_of_pos hname]
    simp [hcolon]

section

variable {rest : List Char} (hw : Spells w name quoted)

include hw

theorem Spells.fresh_colon (rest : List Char) : StartsFresh (w ++ ':' :: rest) :=
  hw.fresh.append (startsFresh_cons (by decide) rest)

theorem Spells.flat_colon (hrest : Flat (':' :: rest)) : Flat (w ++ ':' :: rest) :=
  hw.flat.append hrest (startsFresh_cons (by decide) rest)

theorem Spells.commaless_colon (hrest : Commaless (':' :: rest)) :
    Commaless (w ++ ':' :: rest) :=
  hw.commaless.append hw.flat.code hrest (startsFresh_cons (by decide) rest)

end

/-- Behind blanks and comments, a piece with a spelled key is one entry. -/
theorem Spells.entriesFrom (hw : Spells w name quoted) {lead rest : List Char}
    (hlead : IsLead lead) (hpiece : Piece (w ++ ':' :: rest)) (pos : Nat) :
    entriesFrom pos (lead ++ (w ++ ':' :: rest)) = [⟨name, quoted, pos + lead.length,
      pos + ((lead ++ (w ++ ':' :: rest)).length - (skipBlanks rest).length)⟩] := by
  have hfresh : StartsFresh (w ++ ':' :: rest) := hw.fresh_colon rest
  have hstart : (lead ++ (w ++ ':' :: rest)).length - (w ++ ':' :: rest).length = lead.length := by
    rw [List.length_append, Nat.add_sub_cancel]
  rw [entriesFrom_piece (hpiece.lead hlead hfresh) (hlead.keyAt hfresh (hw.key rest)), hstart]

/-- Where an entry may start, a piece with a spelled key is the only one behind what stands in
front. -/
theorem Spells.entries_behind (hw : Spells w name quoted) {front rest : List Char}
    (hfront : StartsEntry front) (hpiece : Piece (w ++ ':' :: rest)) (pos : Nat) :
    ∃ done, (∀ e ∈ done, ∃ before lead, front = before ++ ',' :: lead ∧ Whole before ∧
        e ∈ Source.entriesFrom pos before) ∧
      Source.entriesFrom pos (front ++ (w ++ ':' :: rest)) = done ++ [⟨name, quoted,
        pos + front.length,
        pos + ((front ++ (w ++ ':' :: rest)).length - (skipBlanks rest).length)⟩] := by
  cases hfront with
  | first hlead => exact ⟨[], nofun, hw.entriesFrom hlead hpiece pos⟩
  | @behind before lead hbefore hlead =>
      refine ⟨Source.entriesFrom pos before, fun e he => ⟨before, lead, rfl, hbefore, he⟩, ?_⟩
      have hskip : (skipBlanks rest).length ≤ rest.length :=
        (List.dropWhile_sublist _).length_le
      have hstart : pos + before.length + 1 + lead.length
          = pos + (before ++ ',' :: lead).length := by
        rw [List.length_append, List.length_cons]
        omega
      have hvalue : pos + before.length + 1
            + ((lead ++ (w ++ ':' :: rest)).length - (skipBlanks rest).length)
          = pos + ((before ++ ',' :: lead ++ (w ++ ':' :: rest)).length
            - (skipBlanks rest).length) := by
        simp only [List.length_append, List.length_cons]
        omega
      rw [List.append_assoc, List.cons_append, entriesFrom_append_comma hbefore,
        hw.entriesFrom hlead hpiece, hstart, hvalue]
      simp

end

end DesignTokens.Source
