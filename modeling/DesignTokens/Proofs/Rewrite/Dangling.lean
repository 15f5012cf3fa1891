import DesignTokens.Proofs.Rewrite.Reversal
import DesignTokens.Proofs.Source.Reading

/-!
# Reads of a binding that has been renamed

Where something is bound to a reserved name, its renaming takes all sites of the
name along, reads included. No later renaming gives one back, unless it takes the
name itself for the new one or takes away a word that kept a place from being a
site (`Spares`): a word behind the name that does not join it to an expression,
or an `import` or `export` in front. So the name has no site left behind the pass
(`sites_reservedEdits_eq_nil`).

What stands in strings is no site, and expressions in a template string stand in
a string. They are left as they are, with everything else that is no code.
-/

namespace DesignTokens.Rewrite

open Text Source Template

/-! ## The word in front -/

/-- A template comes to its end with layout behind a hole, or the word in front of the layout is the
same in all fillings. -/
theorem hole_or_wordBefore_eq {s : Template} (hs : Apart s) :
    (∃ (s' : Template) (l : List Char), s = s' ++ none :: l.map some ∧
        ∀ c ∈ l, isLayout c = true) ∨
      ∀ w v, IsRun w → IsRun v →
        ((fill w s).reverse.dropWhile isLayout).takeWhile isIdent
          = ((fill v s).reverse.dropWhile isLayout).takeWhile isIdent := by
  induction s using List.reverseRecOn with
  | nil => exact .inr fun _ _ _ _ => rfl
  | append_singleton s slot ih =>
      cases slot with
      | none => exact .inl ⟨s, [], rfl, by simp⟩
      | some c =>
          by_cases hc : isLayout c = true
          · rcases ih hs.left with ⟨s', l, rfl, hl⟩ | hsame
            · refine .inl ⟨s', l ++ [c], by simp, fun d hd => ?_⟩
              rcases List.mem_append.mp hd with hd | hd
              · exact hl d hd
              · exact List.mem_singleton.mp hd ▸ hc
            · refine .inr fun w v hw hv => ?_
              simpa [hc] using hsame w v hw hv
          · refine .inr fun w v hw hv => ?_
            have hrev : Apart (some c :: s.reverse) := by
              simpa using hs.reverse
            have hword : ∀ x, ((fill x (s ++ [some c])).reverse.dropWhile isLayout)
                = fill x.reverse (some c :: s.reverse) := by
              intro x
              rw [fill_reverse, List.reverse_append, List.reverse_singleton, List.singleton_append,
                fill_some, List.dropWhile_cons_of_neg hc]
            rw [hword, hword, takeWhile_fill_of_some hrev]

theorem wordBefore_hole {w : List Char} (hw : IsName w) {s : Template} {l : List Char}
    (hs : Apart (s ++ none :: l.map some)) (hl : ∀ c ∈ l, isLayout c = true) :
    ((fill w (s ++ none :: l.map some)).reverse.dropWhile isLayout).takeWhile isIdent
      = w.reverse := by
  have hreverse : (fill w (s ++ none :: l.map some)).reverse
      = l.reverse ++ (w.reverse ++ (fill w s).reverse) := by simp
  have hname : ∀ c ∈ w.reverse, isIdent c = true :=
    fun c hc => hw.all c (List.mem_reverse.mp hc)
  have hbefore : NoIdent (fill w s).reverse.head? := List.head?_reverse ▸ hs.noIdent_before
  have hstop : (w.reverse ++ (fill w s).reverse).dropWhile isLayout
      = w.reverse ++ (fill w s).reverse := by
    obtain ⟨c, y, hc⟩ := List.exists_cons_of_ne_nil (List.reverse_ne_nil_iff.mpr hw.ne_nil)
    rw [hc, List.cons_append, List.dropWhile_cons_of_neg]
    rw [isIdent_of_isLayout (hname c (hc ▸ List.mem_cons_self ..))]
    decide
  rw [hreverse, List.dropWhile_append_of_pos fun c hc => hl c (List.mem_reverse.mp hc), hstop,
    takeWhile_isIdent_append hname hbefore]

/-- A name with a name right behind it is a site only if the latter joins it to an expression. -/
theorem leadingWord_mem_joiningWords {before after : List Char} {k : SiteKind} {c : Char}
    (h : siteKind? before after = some k) (hc : (after.dropWhile isLayout).head? = some c)
    (hstart : isIdentStart c = true) : leadingWord (after.dropWhile isLayout) ∈ joiningWords := by
  have hident := isIdent_of_isIdentStart hstart
  have hmark : ∀ {x : Char}, isIdent x = false → c ≠ x := fun hx => ne_of_isIdent hident hx
  by_contra hjoins
  simp [siteKind?, hc, hmark (x := ':') rfl, hmark (x := '?') rfl, hmark (x := ',') rfl,
    hmark (x := '\x7d') rfl, hmark (x := '=') rfl, hident, not_isDigit_of_isIdentStart hstart,
    hjoins] at h

/-! ## One renaming -/

/-- Renaming `v` to `w` makes no site of the name `r`. -/
structure Spares (r v w : String) : Prop where
  fresh : w ≠ r
  joins : w ∈ joiningWords → v ∈ joiningWords
  ports : v ∈ portingWords → r ∈ joiningWords → w ∈ portingWords

instance (r v w : String) : Decidable (Spares r v w) :=
  decidable_of_iff (w ≠ r ∧ (w ∈ joiningWords → v ∈ joiningWords) ∧
      (v ∈ portingWords → r ∈ joiningWords → w ∈ portingWords))
    ⟨fun h => ⟨h.1, h.2.1, h.2.2⟩, fun h => ⟨h.fresh, h.joins, h.ports⟩⟩

section

variable {r v w : String} {text : List Char} {t : Template}

/-- A renamed name that stands in front of another one, which is an identifier of its own, stands
in front of a word that joins expressions. -/
theorem mem_joiningWords_of_hole (hr : IsName r.toList) (hv : IsName v.toList)
    {s u : Template} {l : List Char}
    (ht : RenamingTemplate v.toList text (s ++ none :: (l.map some ++ (r.toList.map some ++ u))))
    (hl : ∀ c ∈ l, isLayout c = true) (hbehind : NoIdent (fill v.toList u).head?) :
    r ∈ joiningWords := by
  obtain ⟨k, hsite, -⟩ := mem_renamedSites_iff.mp ((ht.mem_iff _).mpr ⟨s, _, rfl, rfl⟩)
  obtain ⟨pre, post, htext, hlen, -, -, -, -, hk⟩ := (mem_sites_iff hv.ne_nil).mp hsite
  rw [← ht.fill_name, fill_append, fill_none, fill_append, fill_map_some, fill_append,
    fill_map_some] at htext
  obtain ⟨rfl, hrest⟩ := List.append_inj htext hlen
  obtain rfl := List.append_cancel_left hrest
  obtain ⟨c, cs, hcs, hstart⟩ := hr.start
  have hdrop : (l ++ (r.toList ++ fill v.toList u)).dropWhile isLayout
      = r.toList ++ fill v.toList u := by
    rw [List.dropWhile_append_of_pos hl, hcs, List.cons_append, List.dropWhile_cons_of_neg]
    rw [isIdent_of_isLayout (isIdent_of_isIdentStart hstart)]
    decide
  have hjoins := leadingWord_mem_joiningWords (c := c) hk (by rw [hdrop, hcs]; rfl) hstart
  rwa [hdrop, leadingWord, takeWhile_isIdent_append hr.all hbehind, String.ofList_toList] at hjoins

/-- Whatever a name does behind a renaming that spares it, it did before, at a place that was not
renamed. -/
theorem exists_site_of_spares (hr : IsName r.toList) (hv : IsName v.toList)
    (hw : IsName w.toList) (h : Spares r v w) (ht : RenamingTemplate v.toList text t) {p : Nat}
    {k : SiteKind} (hsite : (p, k) ∈ sites r.toList (fill w.toList t)) :
    ∃ q, (q, k) ∈ sites r.toList text ∧ q ∉ renamedSites v.toList text := by
  obtain ⟨pre, post, hfill, rfl, -, hbefore, -, hbehind, -⟩ := (mem_sites_iff hr.ne_nil).mp hsite
  have hlast : NoIdent pre.getLast? := by
    rwa [List.append_nil, List.head?_reverse] at hbefore
  obtain ⟨s, u, rfl, rfl, rfl⟩ := exists_split_of_fill (.of_isName hw) hr
    (mt String.toList_inj.mp h.fresh) ht.apart hfill hlast hbehind
  have hs : Apart s := ht.apart.left
  have hu : Apart u := ht.apart.right.right
  have hkind : siteKind? (fill w.toList s).reverse (fill w.toList u) = some k →
      siteKind? (fill v.toList s).reverse (fill v.toList u) = some k := by
    refine siteKind?_of_fill hw hv hs hu (by simpa using h.joins) fun hports => ?_
    rcases hole_or_wordBefore_eq hs with ⟨s, l, rfl, hl⟩ | hsame
    · -- the word in front is the renamed one
      have ht' : RenamingTemplate v.toList text
          (s ++ none :: (l.map some ++ (r.toList.map some ++ u))) := by simpa using ht
      have hjoins : r ∈ joiningWords := by
        refine mem_joiningWords_of_hole hr hv ht' hl ?_
        exact (sameMark_fill (.of_isName hw) (.of_isName hv) u).noIdent hbehind
      rw [Ports, wordBefore_hole hv hs hl, List.reverse_reverse, String.ofList_toList] at hports
      rw [Ports, wordBefore_hole hw hs hl, List.reverse_reverse, String.ofList_toList]
      exact h.ports hports hjoins
    · rwa [Ports, hsame _ _ (.of_isName hw) (.of_isName hv)]
  refine ⟨(fill v.toList s).length, ?_, ?_⟩
  · rw [← ht.fill_name]
    exact mem_sites_of_fill hr.ne_nil hw hv hkind hsite
  · obtain ⟨c, cs, hcs, -⟩ := hr.start
    rw [hcs] at ht
    exact ht.not_mem hv

theorem sites_eq_nil_of_spares (hr : IsName r.toList) (hv : IsName v.toList)
    (hw : IsName w.toList) (h : Spares r v w) (hnone : sites r.toList text = []) :
    sites r.toList (renamedText v.toList w.toList text) = [] := by
  obtain ⟨t, ht⟩ := exists_renamingTemplate hv text
  rw [ht.fill_free, List.eq_nil_iff_forall_not_mem]
  rintro ⟨p, k⟩ hsite
  obtain ⟨q, hq, -⟩ := exists_site_of_spares hr hv hw h ht hsite
  rw [hnone] at hq
  cases hq

/-- A renaming of what is bound leaves no site of the name. -/
theorem sites_renamedText_eq_nil (hr : IsName r.toList) (hw : IsName w.toList)
    (h : Spares r r w) (hbound : ∃ p, (p, .binding) ∈ sites r.toList text) :
    sites r.toList (renamedText r.toList w.toList text) = [] := by
  obtain ⟨t, ht⟩ := exists_renamingTemplate hr text
  rw [ht.fill_free, List.eq_nil_iff_forall_not_mem]
  rintro ⟨p, k⟩ hsite
  obtain ⟨q, hq, hleft⟩ := exists_site_of_spares hr hr hw h ht hsite
  exact hleft (mem_renamedSites_iff.mpr ⟨k, hq, fun _ => hbound⟩)

end

/-! ## The pass -/

/-- The name is a dimension of the text, and something is bound to it. -/
structure Unbinds (call name text : List Char) : Prop where
  dimension : isDimension call name text = true
  bound : ∃ p, (p, .binding) ∈ sites name text

/-- Each renaming of the row that takes place makes no site of the name `r`. -/
def Spared (call : List Char) (r : String) : List (String × String) → List Char → Prop
  | [], _ => True
  | (v, renamed) :: later, text =>
    (isDimension call v.toList text = true → Spares r v (freeName text renamed)) ∧
      Spared call r later ((reservedEdit call v renamed).after text)

instance decidableSpared (call : List Char) (r : String) :
    ∀ (renamings : List (String × String)) (text : List Char),
      Decidable (Spared call r renamings text)
  | [], _ => isTrue trivial
  | (v, renamed) :: later, text =>
    have := decidableSpared call r later ((reservedEdit call v renamed).after text)
    inferInstanceAs (Decidable (_ ∧ _))

instance (call name text : List Char) : Decidable (Unbinds call name text) :=
  decidable_of_iff (isDimension call name text = true ∧ (sites name text).any (·.2 = .binding))
    ⟨fun h => ⟨h.1, by simpa using h.2⟩, fun h => ⟨h.dimension, by simpa using h.bound⟩⟩

section

variable {call text : List Char} {r : String} {renamings : List (String × String)}

/-- A row of renamings that spare a name gives it no site. -/
theorem sites_runEdits_eq_nil (hr : IsName r.toList)
    (hnames : ∀ x ∈ renamings, IsName x.1.toList ∧ IsName x.2.toList)
    (h : Spared call r renamings text) (hnone : sites r.toList text = []) :
    sites r.toList (runEdits (reservedEdits call renamings) text).1 = [] := by
  induction renamings generalizing text with
  | nil => exact hnone
  | cons x later ih =>
      obtain ⟨hv, hfree⟩ := hnames x (List.mem_cons_self ..)
      rw [reservedEdits, List.map_cons, runEdits_cons]
      refine ih (fun y hy => hnames y (List.mem_cons_of_mem x hy)) h.2 ?_
      rw [after_reservedEdit]
      split
      case isFalse => exact hnone
      case isTrue hdim =>
        exact sites_eq_nil_of_spares hr hv (isName_candidateName hfree _) (h.1 hdim) hnone

theorem notCode_runEdits (hnames : ∀ x ∈ renamings, IsName x.1.toList ∧ IsName x.2.toList)
    (text : List Char) :
    notCode (runEdits (reservedEdits call renamings) text).1 = notCode text := by
  refine runEdits_induct (P := fun t => notCode t = notCode text) rfl fun e he t ht => ?_
  obtain ⟨x, hx, rfl⟩ := List.mem_map.mp he
  obtain ⟨hv, hfree⟩ := hnames x hx
  rw [after_reservedEdit]
  split
  case isFalse => exact ht
  case isTrue =>
    have hnew : IsName (freeName t x.2).toList := isName_candidateName hfree _
    rw [← ht, notCode_renamedText hv hnew]

end

/-- A component that passes its dimension on. -/
def passingSource : List Char :=
  ("cva(\x7bvariants: \x7btype: \x7b\x7d\x7d\x7d); " ++
    "(\x7b type \x7d) => type ?? v(\x7b type \x7d)").toList

/-- The name is read in code, or spread there, or is an expression of a template string. -/
inductive Dangles (name text : List Char) : Prop where
  | use {p : Nat} {k : SiteKind} (site : (p, k) ∈ sites name text) (reads : k ≠ .declaration)
  | spread {pre post : List Char} (stands : text = pre ++ ("...".toList ++ (name ++ post)))
      (code : Cursor.code.run pre = .code) (ends : NoIdent post.head?)
  | interpolated {pre post : List Char}
      (stands : text = pre ++ ("$\x7b".toList ++ (name ++ '\x7d' :: post)))
      (quoted : Cursor.code.run pre = .string '\x60')

/-- No read is left of a name that something was bound to. -/
def NothingDangles (policy : Policy) (text : List Char) : Prop :=
  ∀ earlier x later, policy.reserved = earlier ++ x :: later →
    Unbinds policy.variantCall.toList x.1.toList
      (runEdits (reservedEdits policy.variantCall.toList earlier) text).1 →
    ¬Dangles x.1.toList
      (runEdits (reservedEdits policy.variantCall.toList policy.reserved) text).1

theorem not_nothingDangles_of_use {policy : Policy} {text : List Char}
    {earlier later : List (String × String)} {x : String × String}
    (hturn : policy.reserved = earlier ++ x :: later)
    (hbound : Unbinds policy.variantCall.toList x.1.toList
      (runEdits (reservedEdits policy.variantCall.toList earlier) text).1)
    (huse : ((sites x.1.toList (runEdits (reservedEdits policy.variantCall.toList
      policy.reserved) text).1).any fun s => s.2 ≠ .declaration) = true) :
    ¬NothingDangles policy text := by
  obtain ⟨⟨p, k⟩, hsite, hreads⟩ := List.any_eq_true.mp huse
  exact fun h => h earlier x later hturn hbound (.use hsite (by simpa using hreads))

/-- A component that names a class after its dimension. -/
def quotingSource : List Char :=
  ("cva(\x7bvariants: \x7btype: \x7b\x7d\x7d\x7d); " ++
    "(\x7b type \x7d) => v(\x60is-$\x7btype\x7d\x60)").toList

/-- A policy that gives a name back. -/
def returningPolicy : Policy :=
  { Policy.builtin with reserved := [("kind", "mood"), ("type", "kind")] }

def returningSource : List Char :=
  ("cva(\x7bvariants: \x7bkind: \x7b\x7d, type: \x7b\x7d\x7d\x7d); " ++
    "(\x7b kind, type \x7d) => kind + type").toList

/-- A policy with a new name that joins what is in front of it to an expression. -/
def joiningPolicy : Policy := { Policy.builtin with reserved := [("type", "as")] }

def joiningSource : List Char :=
  "cva(\x7bvariants: \x7btype: \x7b\x7d\x7d\x7d); (\x7b type \x7d) => type type".toList

/-- A policy that takes away the word that names are imported with. -/
def portingPolicy : Policy :=
  { Policy.builtin with reserved := [("as", "aside"), ("import", "load")] }

def portingSource : List Char :=
  ("cva(\x7bvariants: \x7bas: \x7b\x7d, import: \x7b\x7d\x7d\x7d); " ++
    "(\x7b as, import \x7d) => import as").toList

end DesignTokens.Rewrite
