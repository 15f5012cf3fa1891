import DesignTokens.Proofs.Source.Entry
import DesignTokens.Proofs.Source.Reading

/-!
# Where an entry may start

The entries of an object are read piece by piece, and a piece is what stands
between two separating commas. An entry may start behind a text if there is
nothing but blanks and comments since the last separating comma (`StartsEntry`):
whatever stands in front of such a comma is read as before, and a name with a
colon behind it is an entry with that key (`StartsEntry.entries`).
-/

namespace DesignTokens.Source

open Text

/-! ## Pieces of a text in two parts -/

/-- The number of open brackets behind divided characters. -/
def depthAfter (depth : Nat) (divided : List (Char × Region)) : Nat :=
  divided.foldl (fun depth x => depthBehind depth x.1 x.2) depth

theorem depthAfter_append (depth : Nat) (a b : List (Char × Region)) :
    depthAfter depth (a ++ b) = depthAfter (depthAfter depth a) b :=
  List.foldl_append

theorem exists_first_segment (depth pos : Nat) (divided : List (Char × Region)) :
    ∃ piece later, segmentsFrom depth pos divided = (pos, piece) :: later := by
  cases divided with
  | nil => exact ⟨[], [], rfl⟩
  | cons x divided =>
      obtain ⟨c, r⟩ := x
      by_cases hcomma : (r = .code && depth = 0 && c = ',') = true
      · exact ⟨[], _, segmentsFrom_comma hcomma pos divided⟩
      · obtain ⟨n, piece, later, h, -⟩ :=
          exists_segments divided (depthBehind depth c r) (pos + 1)
        exact ⟨_, _, segmentsFrom_other hcomma h⟩

/-- A comma in code that no bracket encloses separates the pieces in front of it from those
behind. -/
theorem segmentsFrom_append_comma (b : List (Char × Region)) :
    ∀ {a : List (Char × Region)} {depth : Nat} (pos : Nat), depthAfter depth a = 0 →
      segmentsFrom depth pos (a ++ (',', .code) :: b)
        = segmentsFrom depth pos a ++ segmentsFrom 0 (pos + a.length + 1) b
  | [], depth, pos, hdepth => by
      obtain rfl : depth = 0 := hdepth
      rfl
  | (c, r) :: a, depth, pos, hdepth => by
      have hlength : pos + ((c, r) :: a).length + 1 = pos + 1 + a.length + 1 := by
        rw [List.length_cons]
        omega
      rw [hlength, List.cons_append]
      by_cases hcomma : (r = .code && depth = 0 && c = ',') = true
      · have hzero : depthAfter 0 a = 0 := by
          simp only [Bool.and_eq_true, decide_eq_true_eq] at hcomma
          obtain ⟨⟨rfl, rfl⟩, rfl⟩ := hcomma
          exact hdepth
        rw [segmentsFrom_comma hcomma, segmentsFrom_comma hcomma,
          segmentsFrom_append_comma b (pos + 1) hzero, List.cons_append]
      · obtain ⟨piece, later, hpiece⟩ :=
          exists_first_segment (depthBehind depth c r) (pos + 1) a
        have ih := segmentsFrom_append_comma b (pos + 1)
          (show depthAfter (depthBehind depth c r) a = 0 from hdepth)
        rw [hpiece, List.cons_append] at ih
        rw [segmentsFrom_other hcomma ih, segmentsFrom_other hcomma hpiece, List.cons_append]

/-- Without a comma in code, a part goes to the first piece of the next one. -/
theorem segmentsFrom_append {b : List (Char × Region)} {q : Nat} {more : List Char}
    {later : List (Nat × List Char)} :
    ∀ {a : List (Char × Region)} (depth pos : Nat), (∀ x ∈ a, x.2 = .code → x.1 ≠ ',') →
      segmentsFrom (depthAfter depth a) (pos + a.length) b = (q, more) :: later →
      segmentsFrom depth pos (a ++ b) = (pos, a.map (·.1) ++ more) :: later
  | [], depth, pos, _, h => by
      obtain ⟨piece, rest, hpiece⟩ := exists_first_segment depth pos b
      have h : segmentsFrom depth pos b = (q, more) :: later := h
      rw [hpiece] at h
      obtain ⟨hfirst, rfl⟩ := List.cons.inj h
      obtain ⟨rfl, rfl⟩ := Prod.mk.inj hfirst
      exact hpiece
  | (c, r) :: a, depth, pos, ha, h => by
      have hcomma : ¬(r = .code && depth = 0 && c = ',') = true := by
        simp only [Bool.and_eq_true, decide_eq_true_eq]
        exact fun h => ha (c, r) (List.mem_cons_self ..) h.1.1 h.2
      rw [List.length_cons, Nat.add_comm a.length, ← Nat.add_assoc] at h
      have ih := segmentsFrom_append (depthBehind depth c r) (pos + 1)
        (fun x hx => ha x (List.mem_cons_of_mem _ hx)) h
      rw [List.cons_append, segmentsFrom_other hcomma ih]
      rfl

theorem exists_segments_append {a : List (Char × Region)} (ha : ∀ x ∈ a, x.2 = .code → x.1 ≠ ',')
    (b : List (Char × Region)) (depth pos : Nat) :
    ∃ first later, segmentsFrom depth pos (a ++ b) = (pos, a.map (·.1) ++ first) :: later ∧
      segmentsFrom (depthAfter depth a) (pos + a.length) b = (pos + a.length, first) :: later := by
  obtain ⟨first, later, hb⟩ := exists_first_segment (depthAfter depth a) (pos + a.length) b
  exact ⟨first, later, segmentsFrom_append depth pos ha hb, hb⟩

/-- A comma at least stands between two pieces, and each piece is a stretch of the characters. -/
theorem pairwise_segmentsFrom : ∀ (divided : List (Char × Region)) (depth pos : Nat),
    (segmentsFrom depth pos divided).Pairwise (fun x y => x.1 + x.2.length < y.1) ∧
      ∀ x ∈ segmentsFrom depth pos divided, ∃ a b, divided.map (·.1) = a ++ (x.2 ++ b) ∧
        x.1 = pos + a.length
  | [], depth, pos => by
      refine ⟨List.pairwise_singleton _ _, fun x hx => ?_⟩
      obtain rfl := List.mem_singleton.mp hx
      exact ⟨[], [], rfl, rfl⟩
  | (c, r) :: divided, depth, pos => by
      have hbehind : ∀ {x : Nat × List Char} {a b : List Char},
          divided.map (·.1) = a ++ (x.2 ++ b) → x.1 = pos + 1 + a.length →
          ∃ a b, ((c, r) :: divided).map (·.1) = a ++ (x.2 ++ b) ∧ x.1 = pos + a.length := by
        intro x a b heq hx
        refine ⟨c :: a, b, by rw [List.map_cons, heq]; rfl, ?_⟩
        rw [List.length_cons]
        omega
      by_cases hcomma : (r = .code && depth = 0 && c = ',') = true
      · obtain ⟨hpairwise, hplace⟩ := pairwise_segmentsFrom divided 0 (pos + 1)
        rw [segmentsFrom_comma hcomma]
        refine ⟨List.pairwise_cons.mpr ⟨fun y hy => ?_, hpairwise⟩, fun x hx => ?_⟩
        · obtain ⟨a, b, -, hy⟩ := hplace y hy
          rw [hy, List.length_nil]
          omega
        · rcases List.mem_cons.mp hx with rfl | hx
          · exact ⟨[], _, rfl, rfl⟩
          · obtain ⟨a, b, heq, hx⟩ := hplace x hx
            exact hbehind heq hx
      · obtain ⟨first, later, hsegments⟩ :=
          exists_first_segment (depthBehind depth c r) (pos + 1) divided
        obtain ⟨hpairwise, hplace⟩ :=
          pairwise_segmentsFrom divided (depthBehind depth c r) (pos + 1)
        rw [hsegments] at hpairwise hplace
        obtain ⟨hfirst, hlater⟩ := List.pairwise_cons.mp hpairwise
        rw [segmentsFrom_other hcomma hsegments]
        refine ⟨List.pairwise_cons.mpr ⟨fun y hy => ?_, hlater⟩, fun x hx => ?_⟩
        · have := hfirst y hy
          simp only [List.length_cons] at this ⊢
          omega
        · rcases List.mem_cons.mp hx with rfl | hx
          · obtain ⟨a, b, heq, ha⟩ := hplace _ (List.mem_cons_self ..)
            obtain rfl : a = [] := List.length_eq_zero_iff.mp (by simpa using ha)
            exact ⟨[], b, by rw [List.map_cons, heq]; rfl, rfl⟩
          · obtain ⟨a, b, heq, hx⟩ := hplace x (List.mem_cons_of_mem _ hx)
            exact hbehind heq hx

/-! ## Whole texts -/

theorem map_fst_scan : ∀ (k : Cursor) (text : List Char), (scan k text).map (·.1) = text
  | _, [] => rfl
  | k, c :: cs => by rw [scan, List.map_cons, map_fst_scan]

theorem length_scan (k : Cursor) (text : List Char) : (scan k text).length = text.length := by
  rw [← List.length_map (·.1), map_fst_scan]

theorem map_fst_code (w : List Char) : (w.map (·, Region.code)).map (·.1) = w := by
  rw [List.map_map]
  exact List.map_id w

/-- Read from code, the text ends in code and leaves no bracket open. -/
structure Whole (text : List Char) : Prop where
  code : Cursor.code.run text = .code
  closed : depthAfter 0 (scan .code text) = 0

instance (text : List Char) : Decidable (Whole text) :=
  decidable_of_iff (Cursor.code.run text = .code ∧ depthAfter 0 (scan .code text) = 0)
    ⟨fun h => ⟨h.1, h.2⟩, fun h => ⟨h.1, h.2⟩⟩

theorem Whole.append {a b : List Char} (ha : Whole a) (hb : Whole b) (hfresh : StartsFresh b) :
    Whole (a ++ b) where
  code := by rw [Cursor.run_append hfresh, ha.code, hb.code]
  closed := by rw [scan_append hfresh, depthAfter_append, ha.code, ha.closed, hb.closed]

/-- The characters that may open a string or a comment, and the brackets. -/
def stops : List Char := ['"', '\'', '\x60', '/', '\x7b', '[', '(', '\x7d', ']', ')']

/-- A character that neither opens a string or a comment nor is a bracket. -/
def isPlain (c : Char) : Bool := !stops.contains c

/-- The characters of a class are plain if no stop belongs to the class. -/
theorem isPlain_of {p : Char → Bool} (hp : ∀ d ∈ stops, p d = false) {c : Char}
    (hc : p c = true) : isPlain c = true := by
  by_contra hplain
  have hmem : c ∈ stops := by simpa [isPlain] using hplain
  rw [hp c hmem] at hc
  cases hc

theorem code_of_isPlain {c : Char} (h : isPlain c = true) (behind : Option Char) :
    Cursor.code.region c behind = .code ∧ Cursor.code.next c behind = .code := by
  have hmem : c ∉ stops := by simpa [isPlain] using h
  simp only [stops, List.mem_cons, not_or] at hmem
  obtain ⟨hdouble, hsingle, hback, hslash, -⟩ := hmem
  simp [Cursor.region, Cursor.next, opensString, hdouble, hsingle, hback, hslash]

theorem depthBehind_of_isPlain {c : Char} (h : isPlain c = true) (depth : Nat) (r : Region) :
    depthBehind depth c r = depth := by
  have hmem : c ∉ stops := by simpa [isPlain] using h
  simp only [stops, List.mem_cons, not_or] at hmem
  obtain ⟨-, -, -, -, hbrackets⟩ := hmem
  simp [depthBehind, hbrackets]

theorem scan_plain_append (rest : List Char) : ∀ {w : List Char}, (∀ c ∈ w, isPlain c = true) →
    scan .code (w ++ rest) = w.map (·, .code) ++ scan .code rest ∧
      Cursor.code.run (w ++ rest) = Cursor.code.run rest
  | [], _ => ⟨rfl, rfl⟩
  | c :: w, h => by
      obtain ⟨hc, hw⟩ := List.forall_mem_cons.mp h
      obtain ⟨hregion, hnext⟩ := code_of_isPlain hc (w ++ rest).head?
      obtain ⟨hscan, hrun⟩ := scan_plain_append rest hw
      rw [List.cons_append, scan, Cursor.run, hregion, hnext]
      exact ⟨by rw [hscan]; rfl, hrun⟩

theorem scan_of_isPlain {w : List Char} (h : ∀ c ∈ w, isPlain c = true) :
    scan .code w = w.map (·, .code) ∧ Cursor.code.run w = .code := by
  have hall := scan_plain_append [] h
  rwa [List.append_nil, scan, Cursor.run, List.append_nil] at hall

theorem depthAfter_of_isPlain {divided : List (Char × Region)} {depth : Nat}
    (h : ∀ x ∈ divided, isPlain x.1 = true) : depthAfter depth divided = depth := by
  induction divided with
  | nil => rfl
  | cons x divided ih =>
      obtain ⟨hx, hdivided⟩ := List.forall_mem_cons.mp h
      have hstep : depthAfter depth (x :: divided)
          = depthAfter (depthBehind depth x.1 x.2) divided := rfl
      rw [hstep, depthBehind_of_isPlain hx, ih hdivided]

theorem whole_of_isPlain {w : List Char} (h : ∀ c ∈ w, isPlain c = true) : Whole w := by
  obtain ⟨hscan, hrun⟩ := scan_of_isPlain h
  refine ⟨hrun, ?_⟩
  rw [hscan]
  refine depthAfter_of_isPlain fun x hx => ?_
  obtain ⟨c, hc, rfl⟩ := List.mem_map.mp hx
  exact h c hc

theorem isPlain_of_isWhiteSpace {c : Char} (h : isWhiteSpace c = true) : isPlain c = true :=
  isPlain_of (by decide) h

theorem isPlain_of_isBlank {c : Char} (h : isBlank c = true) : isPlain c = true :=
  isPlain_of (by decide) h

theorem isPlain_of_isIdent {c : Char} (h : isIdent c = true) : isPlain c = true :=
  isPlain_of (by decide) h

theorem ne_comma_of_isBlank {c : Char} (h : isBlank c = true) : c ≠ ',' := by
  rintro rfl
  exact absurd h (by decide)

theorem startsFresh_of_isBlank {w : List Char} (h : ∀ c ∈ w, isBlank c = true) : StartsFresh w :=
  startsFresh_of_isWhiteSpace fun c hc => isWhiteSpace_of_isBlank (h c hc)

theorem startsFresh_of_isName {w : List Char} (h : IsName w) : StartsFresh w :=
  startsFresh_of_forall fun c hc =>
    ⟨ne_of_isIdent (h.all c hc) (by decide), ne_of_isIdent (h.all c hc) (by decide)⟩

/-! ## Blanks and comments -/

/-- Read from code, the text has nothing but blanks and whole comments. -/
structure IsLead (w : List Char) : Prop where
  code : Cursor.code.run w = .code
  blank : ∀ x ∈ scan .code w, x.2 = .comment ∨ x.2 = .code ∧ isBlank x.1 = true

instance (w : List Char) : Decidable (IsLead w) :=
  decidable_of_iff (Cursor.code.run w = .code ∧
      ∀ x ∈ scan .code w, x.2 = .comment ∨ x.2 = .code ∧ isBlank x.1 = true)
    ⟨fun h => ⟨h.1, h.2⟩, fun h => ⟨h.1, h.2⟩⟩

theorem isLead_of_isBlank {w : List Char} (h : ∀ c ∈ w, isBlank c = true) : IsLead w := by
  obtain ⟨hscan, hrun⟩ := scan_of_isPlain fun c hc => isPlain_of_isBlank (h c hc)
  refine ⟨hrun, fun x hx => ?_⟩
  rw [hscan] at hx
  obtain ⟨c, hc, rfl⟩ := List.mem_map.mp hx
  exact .inr ⟨rfl, h c hc⟩

theorem IsLead.append {v w : List Char} (hv : IsLead v) (hw : IsLead w) (hfresh : StartsFresh w) :
    IsLead (v ++ w) where
  code := by rw [Cursor.run_append hfresh, hv.code, hw.code]
  blank := fun x hx => by
    rw [scan_append hfresh, hv.code] at hx
    exact (List.mem_append.mp hx).elim (hv.blank x) (hw.blank x)

theorem IsLead.whole {w : List Char} (h : IsLead w) : Whole w := by
  refine ⟨h.code, ?_⟩
  have hstep : ∀ {divided : List (Char × Region)},
      (∀ x ∈ divided, x.2 = .comment ∨ x.2 = .code ∧ isBlank x.1 = true) →
        depthAfter 0 divided = 0 := by
    intro divided hdivided
    induction divided with
    | nil => rfl
    | cons x divided ih =>
        obtain ⟨hx, hrest⟩ := List.forall_mem_cons.mp hdivided
        have hdepth : depthBehind 0 x.1 x.2 = 0 := by
          rcases hx with hx | ⟨-, hx⟩
          · rw [depthBehind, hx]
            rfl
          · exact depthBehind_of_isPlain (isPlain_of_isBlank hx) 0 x.2
        have hcons : depthAfter 0 (x :: divided) = depthAfter (depthBehind 0 x.1 x.2) divided := rfl
        rw [hcons, hdepth, ih hrest]
  exact hstep h.blank

theorem IsLead.not_comma {w : List Char} (h : IsLead w) :
    ∀ x ∈ scan .code w, x.2 = .code → x.1 ≠ ',' := by
  rintro ⟨c, r⟩ hx rfl rfl
  rcases h.blank _ hx with hcomment | ⟨-, hblank⟩
  · cases hcomment
  · exact absurd hblank (by decide)

/-- The key that is read from where the cursor stands. -/
def keyFrom : Cursor → List Char → Option Key
  | .lineComment, cs => keyInLine cs
  | .blockComment, cs => keyInBlock cs
  | .opened, cs => if cs.head? = some '/' then keyInLine cs.tail else keyInBlock cs.tail
  | .closing, cs => if cs.head? = some '/' then keyAt cs.tail else keyInBlock cs.tail
  | _, cs => keyAt cs

theorem Cursor.wordRegion_next {k : Cursor} {c : Char} {behind : Option Char}
    (hk : k.wordRegion ≠ .string) (hc : k.region c behind ≠ .string) :
    (k.next c behind).wordRegion ≠ .string := by
  cases k <;> simp only [Cursor.region, Cursor.next] at hc ⊢
  case string q => exact absurd rfl hk
  case escaped q => exact absurd rfl hk
  all_goals repeat' split at hc
  all_goals repeat' split
  all_goals simp_all [Cursor.wordRegion]

/-- A blank or a character of a comment goes with the key that is read behind it. -/
theorem keyFrom_cons {k : Cursor} {c : Char} {cs : List Char} {key : Key}
    (hk : k.wordRegion ≠ .string)
    (hc : k.region c cs.head? = .comment ∨ k.region c cs.head? = .code ∧ isBlank c = true)
    (h : keyFrom (k.next c cs.head?) cs = some key) : keyFrom k (c :: cs) = some key := by
  cases k with
  | string q => exact absurd rfl hk
  | escaped q => exact absurd rfl hk
  | code =>
      by_cases hpair : c = '/' ∧ (cs.head? = some '/' ∨ cs.head? = some '*')
      · obtain ⟨rfl, hpair⟩ := hpair
        have hnext : Cursor.code.next '/' cs.head? = .opened := by
          simp [Cursor.next, hpair]
        rw [hnext] at h
        rcases hpair with hpair | hpair <;>
          (obtain ⟨cs, rfl⟩ := List.head?_eq_some_iff.mp hpair; exact h)
      · have hblank : isBlank c = true := by
          refine hc.elim (fun hcomment => ?_) And.right
          simp only [Cursor.region, Bool.and_eq_true, Bool.or_eq_true,
            decide_eq_true_eq] at hcomment
          rw [if_neg hpair] at hcomment
          split at hcomment <;> cases hcomment
        rw [(code_of_isPlain (isPlain_of_isBlank hblank) cs.head?).2] at h
        exact (keyAt_blank hblank cs).trans h
  | lineComment =>
      by_cases hline : c = '\n'
      · subst hline
        exact (keyInLine_newline cs).trans ((keyAt_blank (by decide) cs).trans h)
      · have hnext : Cursor.lineComment.next c cs.head? = .lineComment := by
          simp [Cursor.next, hline]
        rw [hnext] at h
        have h : keyInLine cs = some key := h
        exact (keyInLine_cons hline cs).trans (by rw [h, Option.some_or])
  | opened =>
      by_cases hslash : c = '/'
      · subst hslash
        exact h
      · have hnext : Cursor.opened.next c cs.head? = .blockComment := if_neg hslash
        rw [hnext] at h
        exact (if_neg (by simpa using hslash)).trans h
  | blockComment =>
      by_cases hclose : c = '*' ∧ cs.head? = some '/'
      · obtain ⟨rfl, hhead⟩ := hclose
        obtain ⟨cs, rfl⟩ := List.head?_eq_some_iff.mp hhead
        have h : keyAt cs = some key := h
        exact (keyInBlock_close cs).trans (by rw [h, Option.some_or])
      · have hnext : Cursor.blockComment.next c cs.head? = .blockComment := by
          simp only [Cursor.next, Bool.and_eq_true, decide_eq_true_eq]
          exact if_neg hclose
        rw [hnext] at h
        exact (keyInBlock_other hclose).trans h
  | closing =>
      by_cases hslash : c = '/'
      · subst hslash
        exact h
      · have hnext : Cursor.closing.next c cs.head? = .blockComment := if_neg hslash
        rw [hnext] at h
        exact (if_neg (by simpa using hslash)).trans h

/-- Blanks and comments go with the key that is read behind them. -/
theorem keyFrom_lead {rest : List Char} {key : Key} (hfresh : StartsFresh rest)
    (hkey : keyAt rest = some key) : ∀ {w : List Char} {k : Cursor}, k.wordRegion ≠ .string →
      k.run w = .code → (∀ x ∈ scan k w, x.2 = .comment ∨ x.2 = .code ∧ isBlank x.1 = true) →
      keyFrom k (w ++ rest) = some key
  | [], k, _, hrun, _ => by
      obtain rfl : k = .code := hrun
      exact hkey
  | c :: w, k, hk, hrun, hlead => by
      rw [scan, List.forall_mem_cons] at hlead
      obtain ⟨hc, hlead⟩ := hlead
      -- what follows decides no more than the end of the lead
      obtain ⟨hregion, hnext⟩ : k.region c (w ++ rest).head? = k.region c w.head? ∧
          k.next c (w ++ rest).head? = k.next c w.head? := by
        cases w with
        | nil => exact k.before_startsFresh hfresh c
        | cons d w => exact ⟨rfl, rfl⟩
      have hstring : k.region c w.head? ≠ .string := by
        intro hstring
        rcases hc with hc | ⟨hc, -⟩ <;> exact absurd (hstring.symm.trans hc) (by decide)
      rw [List.cons_append]
      refine keyFrom_cons hk (by rwa [hregion]) ?_
      rw [hnext]
      exact keyFrom_lead hfresh hkey (Cursor.wordRegion_next hk hstring) hrun hlead

theorem IsLead.keyAt {w rest : List Char} (h : IsLead w) (hfresh : StartsFresh rest) {key : Key}
    (hkey : keyAt rest = some key) : keyAt (w ++ rest) = some key :=
  keyFrom_lead hfresh hkey (k := .code) (by decide) h.code h.blank

/-! ## Entries from a place on -/

/-- The entry of a piece at a position. -/
def entryOf? (x : Nat × List Char) : Option Entry :=
  (key? x.2).map fun k =>
    ⟨k.text, k.quoted, x.1 + (x.2.length - k.fromKey), x.1 + (x.2.length - k.fromValue)⟩

/-- The entries of the inside of an object that starts at a position. -/
def entriesFrom (pos : Nat) (inside : List Char) : List Entry :=
  (segmentsFrom 0 pos (scan .code inside)).filterMap entryOf?

theorem entries_eq (text : List Char) (opening closing : Nat) :
    entries text opening closing = entriesFrom (opening + 1) (between text opening closing) := by
  rw [entries, regions_eq_scan]
  rfl

theorem between_open (a inside rest : List Char) :
    between (a ++ '\x7b' :: (inside ++ rest)) a.length (a.length + 1 + inside.length) = inside := by
  rw [between, ← List.drop_drop, List.drop_left, Nat.add_sub_cancel_left, List.drop_succ_cons,
    List.drop_zero, List.take_left]

theorem entries_object (a inside rest : List Char) :
    entries (a ++ '\x7b' :: (inside ++ '\x7d' :: rest)) a.length (a.length + 1 + inside.length)
      = entriesFrom (a.length + 1) inside := by
  rw [entries_eq, between_open]

/-- Each key starts behind the one in front of it. -/
theorem pairwise_entriesFrom (pos : Nat) (inside : List Char) :
    (entriesFrom pos inside).Pairwise fun e e' => e.keyStart < e'.keyStart := by
  obtain ⟨hpairwise, -⟩ := pairwise_segmentsFrom (scan .code inside) 0 pos
  refine List.Pairwise.filterMap _ (fun x y hxy e he e' he' => ?_) hpairwise
  obtain ⟨k, -, rfl⟩ := Option.map_eq_some_iff.mp he
  obtain ⟨k', -, rfl⟩ := Option.map_eq_some_iff.mp he'
  dsimp only
  omega

theorem entriesFrom_append_comma {a : List Char} (ha : Whole a) (pos : Nat) (b : List Char) :
    entriesFrom pos (a ++ ',' :: b) = entriesFrom pos a ++ entriesFrom (pos + a.length + 1) b := by
  have hscan : scan .code (a ++ ',' :: b) = scan .code a ++ (',', .code) :: scan .code b := by
    rw [scan_append (startsFresh_cons (by decide) b), ha.code]
    rfl
  rw [entriesFrom, hscan, segmentsFrom_append_comma _ _ ha.closed, List.filterMap_append,
    length_scan]
  rfl

section

variable {lead name blanks : List Char}

/-- A name with a colon is a key. -/
theorem keyAt_name (hname : IsName name) (hblanks : ∀ c ∈ blanks, isBlank c = true)
    (rest : List Char) :
    keyAt (name ++ (blanks ++ ':' :: rest)) = some ⟨name, false,
      (name ++ (blanks ++ ':' :: rest)).length, (skipBlanks rest).length⟩ := by
  obtain ⟨c, cs, rfl, hc⟩ := hname.start
  have hcs : ∀ d ∈ cs, isIdent d = true := fun d hd => hname.all d (List.mem_cons_of_mem c hd)
  have hcolon : colonBehind? (blanks ++ ':' :: rest) = some (skipBlanks rest) := by
    rw [colonBehind?, skipBlanks, List.dropWhile_append_of_pos hblanks]
    rfl
  obtain ⟨y, b, hy, hident⟩ := exists_of_colonBehind hcolon
  have hrest : NoIdent (blanks ++ ':' :: rest).head? := by
    rw [hy]
    rintro d ⟨⟩
    exact hident
  rw [List.cons_append, keyAt_of_isIdent (isIdent_of_isIdentStart hc), keyHere?_name hc hcs hrest,
    hcolon]
  rfl

theorem startsFresh_name (hname : IsName name) (hblanks : ∀ c ∈ blanks, isBlank c = true)
    (rest : List Char) : StartsFresh (name ++ (blanks ++ ':' :: rest)) :=
  (startsFresh_of_isName hname).append
    ((startsFresh_of_isBlank hblanks).append (startsFresh_cons (by decide) rest))

/-- A name with a colon, behind blanks and comments, is in the first piece. -/
theorem exists_first_piece (hlead : IsLead lead) (hname : IsName name)
    (hblanks : ∀ c ∈ blanks, isBlank c = true) (pos : Nat) (more : List Char) :
    ∃ first later,
      segmentsFrom 0 pos (scan .code (lead ++ (name ++ (blanks ++ ':' :: more))))
        = (pos, lead ++ (name ++ (blanks ++ ':' :: first))) :: later ∧
      ∀ wide inner, more = wide ++ '\x7b' :: inner → (∀ c ∈ wide, isBlank c = true) →
        ∃ inner', first = wide ++ '\x7b' :: inner' := by
  have hplain : ∀ c ∈ name ++ blanks ++ [':'], isPlain c = true ∧ c ≠ ',' := by
    intro c hc
    simp only [List.mem_append, List.mem_singleton] at hc
    rcases hc with (hc | hc) | rfl
    · exact ⟨isPlain_of_isIdent (hname.all c hc), ne_of_isIdent (hname.all c hc) (by decide)⟩
    · exact ⟨isPlain_of_isBlank (hblanks c hc), ne_comma_of_isBlank (hblanks c hc)⟩
    · decide
  have hscan : scan .code (lead ++ (name ++ (blanks ++ ':' :: more)))
      = (scan .code lead ++ (name ++ blanks ++ [':']).map (·, .code)) ++ scan .code more := by
    have hbody := (scan_plain_append more fun c hc => (hplain c hc).1).1
    rw [scan_append (startsFresh_name hname hblanks more), hlead.code, List.append_assoc, ← hbody]
    simp
  have hcomma : ∀ x ∈ scan .code lead ++ (name ++ blanks ++ [':']).map (·, Region.code),
      x.2 = .code → x.1 ≠ ',' := by
    intro x hx
    rcases List.mem_append.mp hx with hx | hx
    · exact hlead.not_comma x hx
    · obtain ⟨c, hc, rfl⟩ := List.mem_map.mp hx
      exact fun _ => (hplain c hc).2
  obtain ⟨first, later, hall, hmore⟩ := exists_segments_append hcomma (scan .code more) 0 pos
  refine ⟨first, later, ?_, fun wide inner hwide hblank => ?_⟩
  · rw [hscan, hall, List.map_append, map_fst_scan, map_fst_code]
    simp
  · -- the brace does not separate either
    have hopen : scan .code more
        = (wide.map (·, Region.code) ++ [('\x7b', .code)]) ++ scan .code inner := by
      rw [hwide, (scan_plain_append _ fun c hc => isPlain_of_isBlank (hblank c hc)).1,
        List.append_assoc]
      rfl
    have hnot : ∀ x ∈ wide.map (·, Region.code) ++ [('\x7b', .code)], x.2 = .code → x.1 ≠ ',' := by
      intro x hx
      rcases List.mem_append.mp hx with hx | hx
      · obtain ⟨c, hc, rfl⟩ := List.mem_map.mp hx
        exact fun _ => ne_comma_of_isBlank (hblank c hc)
      · obtain rfl := List.mem_singleton.mp hx
        decide
    obtain ⟨inner', rest, hfirst, -⟩ := exists_segments_append hnot (scan .code inner) _ _
    rw [hopen, hfirst] at hmore
    obtain ⟨hpiece, -⟩ := List.cons.inj hmore
    obtain ⟨-, rfl⟩ := Prod.mk.inj hpiece
    exact ⟨inner', by rw [List.map_append, map_fst_code, List.append_assoc]; rfl⟩

/-- Behind blanks and comments, a name with a colon is the first entry. -/
theorem exists_first_entry (hlead : IsLead lead) (hname : IsName name)
    (hblanks : ∀ c ∈ blanks, isBlank c = true) (pos : Nat) (more : List Char) :
    ∃ valueStart later,
      entriesFrom pos (lead ++ (name ++ (blanks ++ ':' :: more)))
        = ⟨name, false, pos + lead.length, valueStart⟩ :: later ∧
      ∀ wide inner, more = wide ++ '\x7b' :: inner → (∀ c ∈ wide, isBlank c = true) →
        valueStart = pos + (lead ++ (name ++ (blanks ++ ':' :: wide))).length := by
  obtain ⟨first, later, hsegments, hopen⟩ := exists_first_piece hlead hname hblanks pos more
  have hkey : key? (lead ++ (name ++ (blanks ++ ':' :: first))) = _ :=
    hlead.keyAt (startsFresh_name hname hblanks first) (keyAt_name hname hblanks first)
  refine ⟨pos + ((lead ++ (name ++ (blanks ++ ':' :: first))).length - (skipBlanks first).length),
    later.filterMap entryOf?, ?_, ?_⟩
  · have hstart : (lead ++ (name ++ (blanks ++ ':' :: first))).length
        - (name ++ (blanks ++ ':' :: first)).length = lead.length := by
      rw [List.length_append, Nat.add_sub_cancel]
    rw [entriesFrom, hsegments, List.filterMap_cons, entryOf?, hkey, Option.map_some, hstart]
  · intro wide inner hwide hblank
    obtain ⟨inner', rfl⟩ := hopen wide inner hwide hblank
    have hskip : skipBlanks (wide ++ '\x7b' :: inner') = '\x7b' :: inner' := by
      rw [skipBlanks, List.dropWhile_append_of_pos hblank]
      rfl
    rw [hskip]
    simp only [List.length_append, List.length_cons]
    omega

end

/-! ## Behind a separating comma -/

/-- A text that an entry may start behind: blanks and comments, at the start of an object or behind
a comma in code that no bracket of the object encloses. -/
inductive StartsEntry : List Char → Prop
  | first {lead : List Char} (hlead : IsLead lead) : StartsEntry lead
  | behind {before lead : List Char} (hbefore : Whole before) (hlead : IsLead lead) :
      StartsEntry (before ++ ',' :: lead)

namespace StartsEntry

variable {front : List Char}

theorem append (h : StartsEntry front) {w : List Char} (hw : IsLead w) (hfresh : StartsFresh w) :
    StartsEntry (front ++ w) := by
  cases h with
  | first hlead => exact .first (hlead.append hw hfresh)
  | behind hbefore hlead =>
      rw [List.append_assoc, List.cons_append]
      exact .behind hbefore (hlead.append hw hfresh)

theorem whole (h : StartsEntry front) : Whole front := by
  cases h with
  | first hlead => exact hlead.whole
  | behind hbefore hlead =>
      obtain ⟨hcode, hclosed⟩ := hlead.whole
      exact hbefore.append ⟨hcode, hclosed⟩ (startsFresh_cons (by decide) _)

theorem iff_exists_comma : StartsEntry front ↔ IsLead front ∨
    ∃ n, n < front.length ∧ front[n]? = some ',' ∧ Whole (front.take n) ∧
      IsLead (front.drop (n + 1)) := by
  constructor
  · intro h
    cases h with
    | first hlead => exact .inl hlead
    | @behind before lead hbefore hlead =>
        refine .inr ⟨before.length, ?_, ?_, ?_, ?_⟩
        · rw [List.length_append, List.length_cons]
          omega
        · rw [List.getElem?_append_right le_rfl, Nat.sub_self]
          rfl
        · rwa [List.take_left]
        · rwa [← List.drop_drop, List.drop_left]
  · rintro (hlead | ⟨n, hn, hcomma, hbefore, hlead⟩)
    · exact .first hlead
    · have hbehind := StartsEntry.behind hbefore hlead
      rw [List.getElem?_eq_getElem hn] at hcomma
      rwa [← Option.some.inj hcomma, List.getElem_cons_drop, List.take_append_drop] at hbehind

instance (front : List Char) : Decidable (StartsEntry front) :=
  decidable_of_iff _ iff_exists_comma.symm

/-- What stands in front is read whatever follows, and a name with a colon that follows is an
entry. -/
theorem exists_entries (h : StartsEntry front) (pos : Nat) :
    ∃ done, (∀ e ∈ done, ∃ before lead, front = before ++ ',' :: lead ∧ Whole before ∧
        e ∈ entriesFrom pos before) ∧
      ∀ {name : List Char} (blanks more : List Char), IsName name →
        (∀ c ∈ blanks, isBlank c = true) → ∃ valueStart later,
          entriesFrom pos (front ++ (name ++ (blanks ++ ':' :: more)))
            = done ++ ⟨name, false, pos + front.length, valueStart⟩ :: later ∧
          ∀ wide inner, more = wide ++ '\x7b' :: inner → (∀ c ∈ wide, isBlank c = true) →
            valueStart = pos + (front ++ (name ++ (blanks ++ ':' :: wide))).length := by
  cases h with
  | first hlead =>
      exact ⟨[], nofun, fun blanks more hname hblanks =>
        exists_first_entry hlead hname hblanks pos more⟩
  | @behind before lead hbefore hlead =>
      refine ⟨entriesFrom pos before, fun e he => ⟨before, lead, rfl, hbefore, he⟩,
        fun {name} blanks more hname hblanks => ?_⟩
      obtain ⟨valueStart, later, hentries, hopen⟩ :=
        exists_first_entry hlead hname hblanks (pos + before.length + 1) more
      have hlength : ∀ w : List Char, pos + before.length + 1 + (lead ++ w).length
          = pos + ((before ++ ',' :: lead) ++ w).length := fun w => by
        simp only [List.length_append, List.length_cons]
        omega
      refine ⟨valueStart, later, ?_, fun wide inner hwide hblank => ?_⟩
      · rw [List.append_assoc, List.cons_append, entriesFrom_append_comma hbefore, hentries]
        simpa using hlength []
      · rw [hopen wide inner hwide hblank, hlength]

end StartsEntry

end DesignTokens.Source
