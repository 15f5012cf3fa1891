import DesignTokens.Proofs.Rewrite.Sites
import DesignTokens.Proofs.Source.Cursor
import DesignTokens.Proofs.Source.Key

/-!
# Sites beside a renamed name

What a name does at a site is told from the characters around it, and a renamed
name may be among them. Of a word the site only sees that it is one, unless it is
a word that joins expressions or one that names are imported and exported with.
So what a name does in one filling of a template it does in another, if the words
of these kinds do not get in its way (`siteKind?_of_fill`); names that are none
of them (`Mute`) never do.
-/

namespace DesignTokens.Rewrite

open Text Source Template

/-- Words in front of names that are no uses. -/
def portingWords : List String := ["import", "export"]

/-- The words that a site is told by. -/
def tellingWords : List String := portingWords ++ joiningWords

/-- A name that no site next to it is told by. -/
structure Mute (w : List Char) : Prop where
  name : IsName w
  silent : String.ofList w ∉ tellingWords

/-! ## What is seen of a text -/

/-- The characters are the same, or both belong to identifiers. -/
def SameMark (c d : Option Char) : Prop :=
  c = d ∨ (c.any isIdent = true ∧ d.any isIdent = true)

theorem SameMark.eq_iff {c d : Option Char} (h : SameMark c d) {x : Char}
    (hx : isIdent x = false) : c = some x ↔ d = some x := by
  rcases h with rfl | ⟨hc, hd⟩
  · exact Iff.rfl
  · constructor
    · rintro rfl
      rw [Option.any_some, hx] at hc
      cases hc
    · rintro rfl
      rw [Option.any_some, hx] at hd
      cases hd

theorem SameMark.noIdent {c d : Option Char} (h : SameMark c d) (hc : NoIdent c) : NoIdent d := by
  rcases h with rfl | ⟨hident, -⟩
  · exact hc
  · cases c with
    | none => cases hident
    | some x =>
        rw [Option.any_some, hc x rfl] at hident
        cases hident

/-- Characters of an identifier, read in either direction. -/
structure IsRun (w : List Char) : Prop where
  ne_nil : w ≠ []
  all : ∀ c ∈ w, isIdent c = true

theorem IsRun.reverse {w : List Char} (h : IsRun w) : IsRun w.reverse :=
  ⟨List.reverse_ne_nil_iff.mpr h.ne_nil, fun c hc => h.all c (List.mem_reverse.mp hc)⟩

theorem IsRun.of_isName {w : List Char} (h : IsName w) : IsRun w := ⟨h.ne_nil, h.all⟩

theorem Mute.isRun {w : List Char} (h : Mute w) : IsRun w := .of_isName h.name

/-- Two texts in which the same can be seen, but for a word at the start, which is `w` in one and
`v` in the other. -/
structure SameView (w v a b : List Char) : Prop where
  head : SameMark a.head? b.head?
  second : ∀ x, isIdent x = false → a.head? = some x → SameMark a[1]? b[1]?
  word : a.takeWhile isIdent = b.takeWhile isIdent ∨
    (a.takeWhile isIdent = w ∧ b.takeWhile isIdent = v)

section

variable {w v : List Char} {s t u : Template} {k : SiteKind}

theorem sameMark_fill (hw : IsRun w) (hv : IsRun v) (t : Template) :
    SameMark (fill w t).head? (fill v t).head? := by
  cases t with
  | nil => exact .inl rfl
  | cons slot t =>
      cases slot with
      | some c => exact .inl rfl
      | none =>
          obtain ⟨c, w, rfl⟩ := List.exists_cons_of_ne_nil hw.ne_nil
          obtain ⟨d, v, rfl⟩ := List.exists_cons_of_ne_nil hv.ne_nil
          exact .inr ⟨hw.all c (List.mem_cons_self ..), hv.all d (List.mem_cons_self ..)⟩

/-- A word that starts with a character is the same in all fillings. -/
theorem takeWhile_fill_of_some {c : Char} (ht : Apart (some c :: t)) :
    (fill w (some c :: t)).takeWhile isIdent = (fill v (some c :: t)).takeWhile isIdent := by
  by_cases hc : isIdent c = true
  · obtain ⟨cs, u, rfl, hcs, hu⟩ := exists_ident_run ht hc
    have hrun : ∀ x,
        (fill x (some c :: (cs.map some ++ u))).takeWhile isIdent = c :: cs := by
      intro x
      rw [fill_some, fill_append, fill_map_some, List.takeWhile_cons_of_pos hc,
        takeWhile_isIdent_append hcs (hu x)]
    rw [hrun, hrun]
  · rw [fill_some, fill_some, List.takeWhile_cons_of_neg hc, List.takeWhile_cons_of_neg hc]

theorem sameView_fill (hw : IsRun w) (hv : IsRun v) (ht : Apart t) :
    SameView w v (fill w t) (fill v t) where
  head := sameMark_fill hw hv t
  second := by
    intro x hx hhead
    cases t with
    | nil => cases hhead
    | cons slot t =>
        cases slot with
        | some c =>
            rw [fill_some, fill_some, List.getElem?_cons_succ, List.getElem?_cons_succ,
              ← List.head?_eq_getElem?, ← List.head?_eq_getElem?]
            exact sameMark_fill hw hv t
        | none =>
            obtain ⟨c, w, rfl⟩ := List.exists_cons_of_ne_nil hw.ne_nil
            obtain rfl : c = x := by simpa using hhead
            rw [hw.all c (List.mem_cons_self ..)] at hx
            cases hx
  word := by
    cases t with
    | nil => exact .inl rfl
    | cons slot t =>
        cases slot with
        | none =>
            refine .inr ⟨?_, ?_⟩
            · rw [fill_none, takeWhile_isIdent_append hw.all ht.noIdent_behind]
            · rw [fill_none, takeWhile_isIdent_append hv.all ht.noIdent_behind]
        | some c => exact .inl (takeWhile_fill_of_some ht)

/-! ## What a site does -/

theorem isIdent_of_isLayout {c : Char} (h : isIdent c = true) : isLayout c = false := by
  by_contra hl
  rw [Bool.not_eq_false] at hl
  have hblank := isBlank_of_isLayout hl
  rw [isBlank_of_isIdent h] at hblank
  cases hblank

theorem fill_reverse (w : List Char) (t : Template) :
    (fill w t).reverse = fill w.reverse t.reverse := by
  induction t with
  | nil => rfl
  | cons slot t ih => cases slot <;> simp [ih]

/-- Behind the layout, the same is seen in all fillings. -/
theorem sameView_dropWhile (hw : IsRun w) (hv : IsRun v) (ht : Apart t) :
    SameView w v ((fill w t).dropWhile isLayout) ((fill v t).dropWhile isLayout) := by
  obtain ⟨s, u, rfl, hdrop⟩ := dropWhile_fill (fun _ => isIdent_of_isLayout) t
  rw [hdrop w hw.ne_nil hw.all, hdrop v hv.ne_nil hv.all]
  exact sameView_fill hw hv ht.right

theorem any_head?_eq (cs : List Char) :
    cs.head?.any (fun c => isIdent c && !c.isDigit)
      = (cs.takeWhile isIdent).head?.any fun c => !c.isDigit := by
  cases cs with
  | nil => rfl
  | cons c cs => cases hc : isIdent c <;> simp [hc]

theorem not_isDigit_of_isIdentStart {c : Char} (h : isIdentStart c = true) : c.isDigit = false := by
  have hcodes : '9'.val.toNat = 57 ∧ 'A'.val.toNat = 65 ∧ 'a'.val.toNat = 97 := by decide
  by_contra hd
  rw [Bool.not_eq_false] at hd
  unfold isIdentStart Char.isAlpha Char.isUpper Char.isLower at h
  simp only [Bool.or_eq_true, decide_eq_true_eq, Char.isDigit, Bool.and_eq_true, ge_iff_le,
    UInt32.le_iff_toNat_le] at h hd
  rcases h with (h | rfl) | rfl
  · omega
  · exact absurd hd (by decide)
  · exact absurd hd (by decide)

theorem any_head?_of_isName (h : IsName w) : (w.head?.any fun c => !c.isDigit) = true := by
  obtain ⟨c, cs, rfl, hc⟩ := h.start
  rw [List.head?_cons, Option.any_some, not_isDigit_of_isIdentStart hc]
  rfl

/-- A word follows that a site in front of it is no site for. -/
def TakesIn (after : List Char) : Prop :=
  after.head?.any (fun c => isIdent c && !c.isDigit) = true ∧ leadingWord after ∉ joiningWords

/-- Names are imported or exported with the word in front. -/
def Ports (before : List Char) : Prop :=
  String.ofList (before.takeWhile isIdent).reverse ∈ portingWords

/-- Between the same marks, what a name does is what it does beside words that take more sites in
and port more names. -/
theorem siteKind?_of_sameView {b b' a a' : List Char} {k : SiteKind}
    (hb : SameView w.reverse v.reverse (b.dropWhile isLayout) (b'.dropWhile isLayout))
    (ha : SameView w v (a.dropWhile isLayout) (a'.dropWhile isLayout))
    (htakes : TakesIn (a'.dropWhile isLayout) → TakesIn (a.dropWhile isLayout))
    (hports : Ports (b'.dropWhile isLayout) → Ports (b.dropWhile isLayout))
    (h : siteKind? b a = some k) : siteKind? b' a' = some k := by
  unfold siteKind? at h ⊢
  generalize b.dropWhile isLayout = b at *
  generalize b'.dropWhile isLayout = b' at *
  generalize a.dropWhile isLayout = a at *
  generalize a'.dropWhile isLayout = a' at *
  have hprev : ∀ x, isIdent x = false → (b.head? = some x ↔ b'.head? = some x) :=
    fun x hx => hb.head.eq_iff hx
  have hnext : ∀ x, isIdent x = false → (a.head? = some x ↔ a'.head? = some x) :=
    fun x hx => ha.head.eq_iff hx
  have harrow : (b'.head? = some '>' ∧ b[1]? = some '=')
      ↔ (b'.head? = some '>' ∧ b'[1]? = some '=') := by
    refine and_congr_right fun h => ?_
    exact (hb.second '>' rfl ((hprev '>' rfl).mpr h)).eq_iff rfl
  have hoptional : (a'.head? = some '?' ∧ a[1]? = some ':')
      ↔ (a'.head? = some '?' ∧ a'[1]? = some ':') := by
    refine and_congr_right fun h => ?_
    exact (ha.second '?' rfl ((hnext '?' rfl).mpr h)).eq_iff rfl
  have hassigns : ((a'.head? = some '=' ∧ ¬a[1]? = some '=') ∧ ¬a[1]? = some '>')
      ↔ ((a'.head? = some '=' ∧ ¬a'[1]? = some '=') ∧ ¬a'[1]? = some '>') := by
    rw [and_assoc, and_assoc]
    refine and_congr_right fun h => ?_
    have hsecond := ha.second '=' rfl ((hnext '=' rfl).mpr h)
    rw [hsecond.eq_iff rfl, hsecond.eq_iff rfl]
  have hnot : ∀ p : Bool, (!p) = true ↔ ¬p = true := by decide
  simp only [TakesIn, Ports, portingWords, List.mem_cons, List.not_mem_nil, or_false]
    at htakes hports
  simp only [hnot, ne_eq, Bool.and_eq_true, Bool.or_eq_true, List.contains_eq_mem,
    decide_eq_true_eq, hprev '?' rfl, hprev '\x7b' rfl, hprev ',' rfl, hprev '>' rfl,
    hnext ':' rfl, hnext '?' rfl, hnext ',' rfl, hnext '\x7d' rfl, hnext '=' rfl, hnext '<' rfl,
    harrow, hoptional, hassigns] at h ⊢
  -- the marks decide alike, so the two differ in the words only
  split
  case isTrue hdeclares => rwa [if_pos hdeclares] at h
  case isFalse hdeclares =>
    rw [if_neg hdeclares] at h
    split
    case isTrue hbinds => rwa [if_pos hbinds] at h
    case isFalse hbinds =>
      rw [if_neg hbinds] at h
      split
      case isTrue hassign => rwa [if_pos hassign] at h
      case isFalse hassign =>
        rw [if_neg hassign] at h
        split at h
        case isTrue => cases h
        case isFalse htaken =>
          rw [if_neg (mt htakes htaken)]
          split at h
          case isTrue => cases h
          case isFalse hported => rwa [if_neg (mt hports hported)]

theorem takesIn_iff {a : List Char} :
    TakesIn a ↔ ((a.takeWhile isIdent).head?.any fun c => !c.isDigit) = true ∧
      String.ofList (a.takeWhile isIdent) ∉ joiningWords := by
  rw [TakesIn, any_head?_eq, leadingWord]

/-- If a word joins an expression only where the other does, it takes in what the other does. -/
theorem takesIn_of_fill (hw : IsName w) (hv : IsName v) (hu : Apart u)
    (hjoins : String.ofList w ∈ joiningWords → String.ofList v ∈ joiningWords)
    (h : TakesIn ((fill v u).dropWhile isLayout)) : TakesIn ((fill w u).dropWhile isLayout) := by
  have hview := sameView_dropWhile (.of_isName hw) (.of_isName hv) hu
  rw [takesIn_iff] at h ⊢
  rcases hview.word with hword | ⟨hword, hword'⟩
  · rwa [hword]
  · rw [hword'] at h
    rw [hword]
    exact ⟨any_head?_of_isName hw, mt hjoins h.2⟩

/-- What a name does in one filling it does in the other, if the words in the holes say no more
against it there. -/
theorem siteKind?_of_fill (hw : IsName w) (hv : IsName v) (hs : Apart s) (hu : Apart u)
    (hjoins : String.ofList w ∈ joiningWords → String.ofList v ∈ joiningWords)
    (hports : Ports ((fill v s).reverse.dropWhile isLayout) →
      Ports ((fill w s).reverse.dropWhile isLayout))
    (h : siteKind? (fill w s).reverse (fill w u) = some k) :
    siteKind? (fill v s).reverse (fill v u) = some k := by
  have hview : SameView w.reverse v.reverse ((fill w s).reverse.dropWhile isLayout)
      ((fill v s).reverse.dropWhile isLayout) := by
    rw [fill_reverse, fill_reverse]
    exact sameView_dropWhile (IsRun.of_isName hw).reverse (IsRun.of_isName hv).reverse hs.reverse
  exact siteKind?_of_sameView hview (sameView_dropWhile (.of_isName hw) (.of_isName hv) hu)
    (takesIn_of_fill hw hv hu hjoins) hports h

/-- Mute names say nothing against a site. -/
theorem siteKind?_fill (hw : Mute w) (hv : Mute v) (hs : Apart s) (hu : Apart u)
    (h : siteKind? (fill w s).reverse (fill w u) = some k) :
    siteKind? (fill v s).reverse (fill v u) = some k := by
  refine siteKind?_of_fill hw.name hv.name hs hu (fun hjoins => ?_) (fun hports => ?_) h
  · exact absurd (List.mem_append_right _ hjoins) hw.silent
  · have hview := sameView_dropWhile hw.isRun.reverse hv.isRun.reverse hs.reverse
    rw [← fill_reverse, ← fill_reverse] at hview
    rcases hview.word with hword | ⟨-, hword⟩
    · rwa [Ports, hword]
    · rw [Ports, hword, List.reverse_reverse] at hports
      exact absurd (List.mem_append_left _ hports) hv.silent

/-! ## Sites of the fillings -/

/-- A name that stands outside the holes is the same site in two fillings, if the same is told of
it there. -/
theorem mem_sites_of_fill {name : List Char} (hname : name ≠ []) (hw : IsName w) (hv : IsName v)
    (hkind : siteKind? (fill w s).reverse (fill w u) = some k →
      siteKind? (fill v s).reverse (fill v u) = some k)
    (h : ((fill w s).length, k) ∈ sites name (fill w (s ++ (name.map some ++ u)))) :
    ((fill v s).length, k) ∈ sites name (fill v (s ++ (name.map some ++ u))) := by
  rw [mem_sites_iff hname] at h ⊢
  obtain ⟨pre, post, htext, hlen, hcode, hbefore, hpoint, hbehind, hk⟩ := h
  rw [fill_append, fill_append, fill_map_some] at htext
  obtain ⟨rfl, hrest⟩ := List.append_inj htext hlen
  obtain rfl := List.append_cancel_left hrest
  rw [List.append_nil] at hbefore hpoint hk
  have hview : SameMark (fill w s).reverse.head? (fill v s).reverse.head? := by
    rw [fill_reverse, fill_reverse]
    exact sameMark_fill (IsRun.of_isName hw).reverse (IsRun.of_isName hv).reverse s.reverse
  refine ⟨fill v s, fill v u, by simp, rfl, ?_, ?_, ?_, ?_, ?_⟩
  · -- the name starts with a character, and that is code in one filling if it is in the other
    obtain ⟨c, name, rfl⟩ := List.exists_cons_of_ne_nil hname
    obtain ⟨marks, hmarks, hregions⟩ := exists_regions_fill (s ++ ((c :: name).map some ++ u))
    obtain ⟨ms, ms', rfl, rfl, hms'⟩ := List.map_eq_append_iff.mp hmarks
    obtain ⟨⟨slot, r⟩, ms', rfl, hslot, -⟩ := List.map_eq_cons_iff.mp hms'
    obtain rfl : slot = some c := hslot
    rw [hregions w hw, Marks.region_fill] at hcode
    rw [hregions v hv, Marks.region_fill, hcode]
  · rw [List.append_nil]
    exact hview.noIdent hbefore
  · rw [List.append_nil]
    exact fun hdot => hpoint ((hview.eq_iff rfl).mpr hdot)
  · exact (sameMark_fill (.of_isName hw) (.of_isName hv) u).noIdent hbehind
  · rw [List.append_nil]
    exact hkind hk

/-- A name that stands outside the holes does the same between mute names. -/
theorem mem_sites_fill {name : List Char} (hname : name ≠ []) (hw : Mute w) (hv : Mute v)
    (hs : Apart s) (hu : Apart u)
    (h : ((fill w s).length, k) ∈ sites name (fill w (s ++ (name.map some ++ u)))) :
    ((fill v s).length, k) ∈ sites name (fill v (s ++ (name.map some ++ u))) :=
  mem_sites_of_fill hname hw.name hv.name (siteKind?_fill hw hv hs hu) h

end

end DesignTokens.Rewrite
