import DesignTokens.Proofs.Rewrite.Survival
import DesignTokens.Proofs.Text.Replace

/-!
# Undoing a renaming

The new name of a renaming is no identifier of the text before it. So in the
renamed text it stands in the holes of the template and nowhere else, and writing
the old name for it wherever it is an identifier fills the holes as they were
(`replace_fill`). All holes are code: what belongs to a string or a comment is
the same in both texts (`notCode_renamedText`).

The builtin renaming is undone in this way whatever the text
(`reservedNames_undone`).
-/

namespace DesignTokens.Rewrite

open Text Source Template

/-! ## Identifiers of a text -/

/-- A name where it is an identifier of its own. -/
def identifierPattern (name : List Char) : Pattern := fun before rest =>
  match after? name rest with
  | some behind => if identAt before || identAt behind.head? then none else some name.length
  | none => none

theorem identifierPattern_eq_some_iff {name rest : List Char} {before : Option Char} {n : Nat} :
    identifierPattern name before rest = some n ↔
      ∃ behind, rest = name ++ behind ∧ NoIdent before ∧ NoIdent behind.head? ∧
        n = name.length := by
  rw [identifierPattern]
  cases hafter : after? name rest with
  | none =>
      refine ⟨nofun, ?_⟩
      rintro ⟨behind, hrest, -⟩
      rw [after_eq_some_iff.mpr hrest] at hafter
      cases hafter
  | some behind =>
      have hrest := after_eq_some_iff.mp hafter
      simp only [noIdent_iff]
      constructor
      · intro h
        split at h
        case isTrue => cases h
        case isFalse hends =>
          simp only [Bool.or_eq_true, not_or, Bool.not_eq_true] at hends
          exact ⟨behind, hrest, hends.1, hends.2, (Option.some.inj h).symm⟩
      · rintro ⟨behind', hrest', hbefore, hbehind, rfl⟩
        rw [List.append_cancel_left (hrest.symm.trans hrest'), hbefore, hbehind]
        rfl

theorem identifierPattern_bounded {name : List Char} (hname : name ≠ []) :
    (identifierPattern name).Bounded := by
  intro before rest n h
  obtain ⟨behind, rfl, -, -, rfl⟩ := identifierPattern_eq_some_iff.mp h
  exact ⟨List.length_pos_iff.mpr hname, by simp⟩

/-! ## Filling the holes as they were -/

section

variable {name w : List Char}

theorem noIdent_getLast?_fill (hw : IsRun w) (hv : IsRun name) {s : Template}
    (h : NoIdent (fill w s).getLast?) : NoIdent (fill name s).getLast? := by
  rw [← List.head?_reverse, fill_reverse] at h ⊢
  exact (sameMark_fill hw.reverse hv.reverse s.reverse).noIdent h

/-- One walk over a filling, behind the filling of `s`: it stops at each hole and nowhere else. -/
theorem fill_of_replaced (hname : IsName name) (hw : IsName w) {before : Option Char}
    {text out : List Char}
    (h : Replaced (identifierPattern w) (fun _ => name) before text out) :
    ∀ {s t : Template}, Apart (s ++ t) → (∀ p, ¬Stands w (fill name (s ++ t)) p) →
      before = (fill w s).getLast? → text = fill w t → out = fill name t := by
  have hrun : IsRun w := ⟨hw.ne_nil, hw.all⟩
  have hrun' : IsRun name := ⟨hname.ne_nil, hname.all⟩
  have hlast : ∀ s, (fill w (s ++ [none])).getLast? = w.getLast? := fun s => by
    rw [fill_append, fill_none, fill_nil, List.append_nil,
      List.getLast?_append_of_ne_nil _ hw.ne_nil]
  induction h with
  | nil =>
      intro s t _ _ _ ht
      cases t with
      | nil => rfl
      | cons slot t => exact absurd ht.symm (List.ne_nil_of_length_pos
          (length_fill_pos hw (List.cons_ne_nil slot t)))
  | @keep before c cs out hnone _ ih =>
      intro s t hapart hfree hbefore ht
      cases t with
      | nil => cases ht
      | cons slot t =>
          cases slot with
          | some d =>
              obtain ⟨rfl, rfl⟩ := List.cons.inj ht
              have hsplit : s ++ some c :: t = (s ++ [some c]) ++ t := by simp
              rw [hsplit] at hapart hfree
              rw [ih hapart hfree (by simp) rfl]
              rfl
          | none =>
              have hmatch : identifierPattern w before (c :: cs) = some w.length := by
                refine identifierPattern_eq_some_iff.mpr ⟨fill w t, ht, ?_, ?_, rfl⟩
                · rw [hbefore]
                  exact hapart.noIdent_before
                · exact hapart.right.noIdent_behind
              rw [hnone] at hmatch
              cases hmatch
  | @found before hit rest out _ hmatch _ ih =>
      intro s t hapart hfree hbefore ht
      obtain ⟨behind, hhit, hfront, hbehind, hlen⟩ := identifierPattern_eq_some_iff.mp hmatch
      obtain ⟨rfl, rfl⟩ := List.append_inj hhit hlen
      cases t with
      | nil => simp [hw.ne_nil] at ht
      | cons slot t =>
          cases slot with
          | none =>
              have hsplit : s ++ none :: t = (s ++ [none]) ++ t := by simp
              rw [hsplit] at hapart hfree
              obtain rfl := List.append_cancel_left (ht : hit ++ rest = hit ++ fill hit t)
              rw [ih hapart hfree (hlast s).symm rfl]
              rfl
          | some c =>
              -- outside the holes the name would stand in the other filling too
              obtain ⟨u, hu, hrest⟩ :=
                eq_append_of_fill hapart.right hw.all (by simp) ht.symm
              refine absurd ⟨fill name s, fill name u, ?_, rfl, ?_, ?_⟩ (hfree (fill name s).length)
              · rw [hu, fill_append, fill_append, fill_map_some]
              · exact noIdent_getLast?_fill hrun hrun' (hbefore ▸ hfront)
              · exact (sameMark_fill hrun hrun' u).noIdent (hrest ▸ hbehind)

/-- Writing the old name for the new one fills the holes as they were, if the new one is no
identifier of the old text. -/
theorem replace_fill (hname : IsName name) (hw : IsName w) {t : Template} (ht : Apart t)
    (hfree : ∀ p, ¬Stands w (fill name t) p) :
    (identifierPattern w).replace (fun _ => name) (fill w t) = fill name t :=
  fill_of_replaced hname hw
    (Pattern.replaced_replace (identifierPattern_bounded hw.ne_nil) (fill w t))
    (s := []) ht hfree rfl rfl

/-! ## Strings and comments -/

/-- The characters of a text that belong to strings and comments, with what they belong to. -/
def notCode (text : List Char) : List (Char × Region) :=
  (regions text).filter fun x => x.2 ≠ .code

theorem filter_fill_of_code {marks : Marks} (h : ∀ r, (none, r) ∈ marks → r = .code)
    (w : List Char) : (marks.fill w).filter (fun x => x.2 ≠ .code)
      = (marks.fill []).filter (fun x => x.2 ≠ .code) := by
  induction marks with
  | nil => rfl
  | cons mark marks ih =>
      have hlater := ih fun r hr => h r (List.mem_cons_of_mem _ hr)
      obtain ⟨slot, r⟩ := mark
      cases slot with
      | some c =>
          rw [Marks.fill_some, Marks.fill_some, List.filter_cons, List.filter_cons, hlater]
      | none =>
          obtain rfl := h r (List.mem_cons_self ..)
          have hword : (w.map (·, Region.code)).filter (fun x => x.2 ≠ .code) = [] := by simp
          rw [Marks.fill_none, Marks.fill_none, List.filter_append, hword, hlater]
          rfl

/-- A renaming leaves strings and comments as they are. -/
theorem notCode_renamedText (hname : IsName name) (hw : IsName w) (text : List Char) :
    notCode (renamedText name w text) = notCode text := by
  obtain ⟨t, ht⟩ := exists_renamingTemplate hname text
  obtain ⟨marks, rfl, hregions⟩ := exists_regions_fill t
  have hcode : ∀ r, (none, r) ∈ marks → r = .code := by
    intro r hr
    obtain ⟨ms, ms', rfl⟩ := List.append_of_mem hr
    -- the place of the hole is a site, and those are code
    have hplace : (fill name (ms.map (·.1))).length ∈ renamedSites name text :=
      (ht.mem_iff _).mpr ⟨ms.map (·.1), ms'.map (·.1), by simp, rfl⟩
    obtain ⟨k, hsite, -⟩ := mem_renamedSites_iff.mp hplace
    obtain ⟨-, -, -, -, hregion, -⟩ := (mem_sites_iff hname.ne_nil).mp hsite
    rw [← ht.fill_name, hregions name hname] at hregion
    obtain ⟨c, cs, rfl, -⟩ := hname.start
    have hlen : (fill (c :: cs) (ms.map (·.1))).length
        = ((Marks.fill (c :: cs) ms).map (·.2)).length := by
      rw [← Marks.map_fst_fill, List.length_map, List.length_map]
    have hfill : Marks.fill (c :: cs) (ms ++ (none, r) :: ms')
        = Marks.fill (c :: cs) ms ++ (c, r) :: (cs.map (·, r) ++ Marks.fill (c :: cs) ms') := by
      rw [Marks.fill, List.flatMap_append]
      rfl
    rw [hfill, List.map_append, hlen, List.getElem?_append_right le_rfl, Nat.sub_self] at hregion
    exact Option.some.inj hregion
  rw [ht.fill_free, notCode, notCode, hregions w hw, filter_fill_of_code hcode w]
  conv_rhs => rw [← ht.fill_name, hregions name hname, filter_fill_of_code hcode name]

end

/-! ## The builtin renaming -/

theorem not_stands_freeName_inputType (text : List Char) (p : Nat) :
    ¬Stands (freeName text "inputType").toList text p := by
  rintro ⟨pre, post, htext, -, hbefore, hbehind⟩
  have hword := isWordName_freeName_inputType text
  have hbounded : Bounded (freeName text "inputType").toList := by
    constructor
    · obtain ⟨c, cs, hcs⟩ := List.exists_cons_of_ne_nil hword.ne_nil
      rw [hcs]
      exact hword.all c (hcs ▸ List.mem_cons_self ..)
    · rw [List.getLast?_eq_some_getLast hword.ne_nil]
      exact hword.all _ (List.getLast_mem hword.ne_nil)
  have hheld : holdsName (freeName text "inputType").toList text = true :=
    (holdsName_iff hbounded).mpr
      ⟨pre, post, htext, wordAt_of_noIdent hbefore, wordAt_of_noIdent hbehind⟩
  rw [holdsName_freeName] at hheld
  cases hheld

/-- The builtin renaming takes a name that is no identifier of the text, leaves strings and comments
as they are, and is undone by writing the old name wherever the new one is an identifier. -/
theorem reservedNames_undone (text : List Char) (m : MappingSet) :
    let free := (freeName text "inputType").toList
    let changed := (runEdits (Pass.reservedNames.edits m Policy.builtin) text).1
    (changed ≠ text → changed = renamedText "type".toList free text) ∧
      (∀ p, ¬Stands free text p) ∧
      notCode changed = notCode text ∧
      (identifierPattern free).replace (fun _ => "type".toList) changed = text := by
  intro free changed
  have hfree := not_stands_freeName_inputType text
  have hname : IsName free := (mute_freeName_inputType text).name
  have hchanged : changed = if isDimension "cva".toList "type".toList text then
      renamedText "type".toList free text else text :=
    (reservedEdits_builtin text).trans (after_reservedEdit ..)
  by_cases hdim : isDimension "cva".toList "type".toList text = true
  · rw [if_pos hdim] at hchanged
    obtain ⟨t, ht⟩ := exists_renamingTemplate mute_type.name text
    refine ⟨fun _ => hchanged, hfree, ?_, ?_⟩
    · rw [hchanged]
      exact notCode_renamedText mute_type.name hname text
    · rw [hchanged, ht.fill_free, replace_fill mute_type.name hname ht.apart, ht.fill_name]
      rwa [ht.fill_name]
  · rw [if_neg hdim] at hchanged
    refine ⟨fun h => absurd hchanged h, hfree, by rw [hchanged], ?_⟩
    -- a text without holes
    have hsame := replace_fill mute_type.name hname (apart_map_some text) (w := free)
      (by rwa [fill_map_some])
    rw [fill_map_some, fill_map_some] at hsame
    rw [hchanged, hsame]

end DesignTokens.Rewrite
