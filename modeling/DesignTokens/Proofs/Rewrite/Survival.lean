import Mathlib.Data.List.Infix
import DesignTokens.Proofs.Rewrite.Settled
import DesignTokens.Proofs.Text.Word

/-!
# What a renaming leaves in place

A renaming puts a word in the place of a name that stands by itself. Where no
word goes on over the ends of a stretch of the text, and the name does not stand
in the stretch as a word, the stretch stands in the renamed text as it was
(`exists_renamedCut`). So names that are words of the text are words of the
renamed text (`holdsName_renamedText`), and a stretch without word characters
next to it has the same two characters next to it (`exists_renamedText`).
-/

namespace DesignTokens.Rewrite

open Text Source Template

/-! ## Cuts of a template -/

/-- A name that has word characters only. -/
structure IsWordName (name : List Char) : Prop where
  ne_nil : name ≠ []
  all : ∀ c ∈ name, isWord c = true

section

variable {name free w : List Char}

/-- A cut of a text is a cut of its template, or goes through one of the holes. -/
theorem exists_cut_or_hole : ∀ {t : Template} {a b : List Char}, fill name t = a ++ b →
    (∃ s u, t = s ++ u ∧ fill name s = a ∧ fill name u = b) ∨
      ∃ s u x y, t = s ++ none :: u ∧ name = x ++ y ∧ x ≠ [] ∧ y ≠ [] ∧
        fill name s ++ x = a ∧ y ++ fill name u = b
  | [], a, b, h => by
      obtain ⟨rfl, rfl⟩ := List.append_eq_nil_iff.mp h.symm
      exact .inl ⟨[], [], rfl, rfl, rfl⟩
  | slot :: t, [], b, h => .inl ⟨[], slot :: t, rfl, rfl, h⟩
  | some c :: t, d :: a, b, h => by
      obtain ⟨rfl, htail⟩ := List.cons.inj h
      rcases exists_cut_or_hole htail with
        ⟨s, u, rfl, rfl, rfl⟩ | ⟨s, u, x, y, rfl, hxy, hx, hy, rfl, rfl⟩
      · exact .inl ⟨some c :: s, u, rfl, rfl, rfl⟩
      · exact .inr ⟨some c :: s, u, x, y, rfl, hxy, hx, hy, rfl, rfl⟩
  | none :: t, d :: a, b, h => by
      rw [fill_none] at h
      rcases List.append_eq_append_iff.mp h with ⟨a', ha, ht⟩ | ⟨y, hy, hb⟩
      · rw [ha]
        rcases exists_cut_or_hole ht with
          ⟨s, u, rfl, rfl, rfl⟩ | ⟨s, u, x, y, rfl, hxy, hx, hy, rfl, rfl⟩
        · exact .inl ⟨none :: s, u, rfl, rfl, rfl⟩
        · exact .inr ⟨none :: s, u, x, y, rfl, hxy, hx, hy, by simp, rfl⟩
      · by_cases hempty : y = []
        · subst hempty
          rw [List.append_nil] at hy
          exact .inl ⟨[none], t, rfl, by simp [hy], hb.symm⟩
        · exact .inr ⟨[], t, d :: a, y, rfl, hy, List.cons_ne_nil d a, hempty, rfl, hb.symm⟩

/-- Where no word goes on over a cut, the template of a text is cut too. -/
theorem exists_cut (hname : IsWordName name) {t : Template} {a b : List Char}
    (h : fill name t = a ++ b) (hcut : wordAt a.getLast? = false ∨ wordAt b.head? = false) :
    ∃ s u, t = s ++ u ∧ fill name s = a ∧ fill name u = b := by
  rcases exists_cut_or_hole h with hcut' | ⟨s, u, x, y, -, rfl, hx, hy, rfl, rfl⟩
  · exact hcut'
  · -- the two characters of the name next to the cut are word characters
    have hlast := hname.all _ (List.mem_append_left y (List.getLast_mem hx))
    obtain ⟨d, y, rfl⟩ := List.exists_cons_of_ne_nil hy
    have hhead := hname.all d (by simp)
    rw [List.getLast?_append_of_ne_nil _ hx, List.getLast?_eq_some_getLast hx] at hcut
    simp [wordAt, hlast, hhead] at hcut

/-- A template without a hole is the text that it stands for. -/
theorem eq_map_some_of_not_mem : ∀ {v : Template}, none ∉ v → v = (fill name v).map some
  | [], _ => rfl
  | none :: v, h => absurd (List.mem_cons_self ..) h
  | some c :: v, h => by
      have hlater : none ∉ v := fun hmem => h (List.mem_cons_of_mem _ hmem)
      rw [fill_some, List.map_cons, ← eq_map_some_of_not_mem hlater]

/-- A part of a template in which the word of the holes does not stand as a word has no hole. -/
theorem eq_map_some_of_not_wordIn {s v u : Template} (h : Apart (s ++ (v ++ u)))
    (hv : ¬WordIn name (fill name v)) : v = (fill name v).map some := by
  refine eq_map_some_of_not_mem fun hmem => ?_
  obtain ⟨x, y, rfl⟩ := List.append_of_mem hmem
  have hapart : Apart (x ++ none :: y) := h.right.left
  refine hv ⟨fill name x, fill name y, by simp, wordAt_of_noIdent hapart.noIdent_before,
    wordAt_of_noIdent hapart.right.noIdent_behind⟩

/-- Two fillings of a part end alike, or both with a word character. -/
theorem getLast?_fill_cases (hname : IsWordName name) (hfree : IsWordName free) (s : Template) :
    (fill free s).getLast? = (fill name s).getLast? ∨
      wordAt (fill free s).getLast? = true ∧ wordAt (fill name s).getLast? = true := by
  have hhole : ∀ {w : List Char} (s : Template), IsWordName w →
      wordAt (fill w (s ++ [none])).getLast? = true := by
    intro w s hw
    rw [fill_append, fill_none, fill_nil, List.append_nil,
      List.getLast?_append_of_ne_nil _ hw.ne_nil, List.getLast?_eq_some_getLast hw.ne_nil]
    exact hw.all _ (List.getLast_mem hw.ne_nil)
  rcases List.eq_nil_or_concat s with rfl | ⟨s, slot, rfl⟩
  · exact .inl rfl
  · rw [List.concat_eq_append]
    cases slot with
    | none => exact .inr ⟨hhole s hfree, hhole s hname⟩
    | some c => exact .inl (by simp)

/-- Two fillings of a part start alike, or both with a word character. -/
theorem head?_fill_cases (hname : IsWordName name) (hfree : IsWordName free) (u : Template) :
    (fill free u).head? = (fill name u).head? ∨
      wordAt (fill free u).head? = true ∧ wordAt (fill name u).head? = true := by
  have hhole : ∀ {w : List Char} (u : Template), IsWordName w →
      wordAt (fill w (none :: u)).head? = true := by
    intro w u hw
    obtain ⟨c, cs, rfl⟩ := List.exists_cons_of_ne_nil hw.ne_nil
    exact hw.all c (List.mem_cons_self ..)
  cases u with
  | nil => exact .inl rfl
  | cons slot u =>
      cases slot with
      | none => exact .inr ⟨hhole u hfree, hhole u hname⟩
      | some c => exact .inl rfl

/-! ## Stretches that stay -/

/-- A stretch in which the name does not stand as a word stays, if no word goes on over its ends. -/
theorem exists_renamedCut (hname : IsName name) (hword : IsWordName name) (hw : ¬WordIn name w)
    {a b : List Char} (ha : wordAt a.getLast? = false ∨ wordAt (w ++ b).head? = false)
    (hb : wordAt w.getLast? = false ∨ wordAt b.head? = false) (free : List Char) :
    ∃ s u : Template, fill name s = a ∧ fill name u = b ∧
      renamedText name free (a ++ (w ++ b)) = fill free s ++ (w ++ fill free u) := by
  obtain ⟨t, ht⟩ := exists_renamingTemplate hname (a ++ (w ++ b))
  obtain ⟨s, r, rfl, hs, hr⟩ := exists_cut hword ht.fill_name ha
  obtain ⟨v, u, rfl, hv, hu⟩ := exists_cut hword hr hb
  have hsome : v = w.map some := by
    rw [← hv] at hw ⊢
    exact eq_map_some_of_not_wordIn ht.apart hw
  refine ⟨s, u, hs, hu, ?_⟩
  rw [ht.fill_free, fill_append, fill_append, hsome, fill_map_some]

/-- A stretch between two characters that are no word characters, in which the name does not stand
as a word, stands between the same two characters in the renamed text. -/
theorem exists_renamedText (hname : IsName name) (hword : IsWordName name)
    (hfree : IsWordName free) (hw : ¬WordIn name w) {a b : List Char}
    (ha : wordAt a.getLast? = false) (hb : wordAt b.head? = false) :
    ∃ a' b', renamedText name free (a ++ (w ++ b)) = a' ++ (w ++ b') ∧
      a'.getLast? = a.getLast? ∧ b'.head? = b.head? := by
  obtain ⟨s, u, rfl, rfl, htext⟩ := exists_renamedCut hname hword hw (.inl ha) (.inr hb) free
  refine ⟨_, _, htext, ?_, ?_⟩
  · refine (getLast?_fill_cases hword hfree s).resolve_right fun h => ?_
    rw [ha] at h
    exact nomatch h.2
  · refine (head?_fill_cases hword hfree u).resolve_right fun h => ?_
    rw [hb] at h
    exact nomatch h.2

/-- A name that a text holds is held by the renamed text too, unless it has the renamed name as a
word of its own. -/
theorem holdsName_renamedText (hname : IsName name) (hword : IsWordName name)
    (hfree : IsWordName free) (hw : ¬WordIn name w) {text : List Char}
    (h : holdsName w text = true) : holdsName w (renamedText name free text) = true := by
  obtain ⟨a, b, rfl, hborder⟩ := holdsName_iff_bordered.mp h
  -- at a word boundary no word goes on
  have hcut : ∀ {c d}, isBoundary c d = true → wordAt c = false ∨ wordAt d = false := by
    intro c d h
    rw [isBoundary] at h
    cases hc : wordAt c <;> cases hd : wordAt d <;> simp_all
  have hbehind : wordAt w.getLast? = false ∨ wordAt b.head? = false := by
    cases hlast : w.getLast? with
    | none => exact .inl rfl
    | some c =>
        have := hborder.behind
        rw [hlast, Option.some_or] at this
        exact hcut this
  obtain ⟨s, u, rfl, rfl, htext⟩ :=
    exists_renamedCut hname hword hw (hcut hborder.before) hbehind free
  refine holdsName_iff_bordered.mpr ⟨_, _, htext, hborder.congr ?_ ?_⟩
  · rcases getLast?_fill_cases hword hfree s with h | h
    · rw [h]
    · rw [h.1, h.2]
  · rcases head?_fill_cases hword hfree u with h | h
    · rw [h]
    · rw [h.1, h.2]

end

/-! ## Characters that no name overlaps -/

/-- No place where the name stands by itself has a character in common with a place of `v`. -/
structure Clear (name v : List Char) : Prop where
  start : ∃ c ∈ v.take 1, c ∉ name.tail
  stop : v.reverse.takeWhile isIdent = [] ∨ ¬(v.reverse.takeWhile isIdent).reverse <+: name
  inside : ¬name <:+: v

instance (name v : List Char) : Decidable (Clear name v) :=
  decidable_of_iff ((∃ c ∈ v.take 1, c ∉ name.tail) ∧
      (v.reverse.takeWhile isIdent = [] ∨ ¬(v.reverse.takeWhile isIdent).reverse <+: name) ∧
      ¬name <:+: v)
    ⟨fun h => ⟨h.1, h.2.1, h.2.2⟩, fun h => ⟨h.start, h.stop, h.inside⟩⟩

theorem infix_renamedText {name v text : List Char} (hname : IsName name) (hv : Clear name v)
    (h : v <:+: text) (free : List Char) : v <:+: renamedText name free text := by
  obtain ⟨t, ht⟩ := exists_renamingTemplate hname text
  obtain ⟨a, b, hab⟩ := h
  rw [← ht.fill_name, List.append_assoc] at hab
  rw [ht.fill_free]
  rcases exists_cut_or_hole hab.symm with ⟨s, r, rfl, -, hr⟩ | ⟨s, u, x, y, -, hxy, hx, hy, -, hb⟩
  · have hapart := ht.apart.right
    rcases exists_cut_or_hole hr with ⟨m, u, rfl, hm, -⟩ | ⟨m, u, x, y, rfl, hxy, hx, -, hm, -⟩
    · -- no hole is among the characters
      have hsome : m = v.map some := by
        rw [← hm]
        refine eq_map_some_of_not_mem fun hmem => hv.inside ?_
        obtain ⟨p, q, rfl⟩ := List.append_of_mem hmem
        exact ⟨fill name p, fill name q, by rw [← hm]; simp⟩
      refine ⟨fill free s, fill free u, ?_⟩
      rw [fill_append, fill_append, hsome, fill_map_some, List.append_assoc]
    · -- a hole would start at the last word of the characters
      have hident : ∀ c ∈ x.reverse, isIdent c = true := fun c hc =>
        hname.all c (hxy ▸ List.mem_append_left y (List.mem_reverse.mp hc))
      have hbefore : NoIdent (fill name m).reverse.head? :=
        List.head?_reverse ▸ hapart.noIdent_before
      have hrun : v.reverse.takeWhile isIdent = x.reverse := by
        rw [← hm, List.reverse_append, takeWhile_isIdent_append hident hbefore]
      rcases hv.stop with hstop | hstop
      · exact absurd (List.reverse_eq_nil_iff.mp (hrun ▸ hstop)) hx
      · exact absurd ⟨y, by rw [hrun, List.reverse_reverse, ← hxy]⟩ hstop
  · -- a hole would end behind the first of the characters
    obtain ⟨c, hc, hfirst⟩ := hv.start
    obtain ⟨vs, rfl⟩ : ∃ vs, v = c :: vs := by
      cases v with
      | nil => cases hc
      | cons d vs => exact ⟨vs, by rw [List.mem_singleton.mp hc]⟩
    obtain ⟨d, y, rfl⟩ := List.exists_cons_of_ne_nil hy
    obtain ⟨e, x, rfl⟩ := List.exists_cons_of_ne_nil hx
    obtain ⟨rfl, -⟩ := List.cons.inj hb
    exact absurd (by rw [hxy]; simp) hfirst

/-! ## The builtin renaming -/

theorem isWordName_type : IsWordName "type".toList :=
  ⟨by decide, List.all_eq_true.mp (by decide)⟩

theorem isWordName_freeName_inputType (text : List Char) :
    IsWordName (freeName text "inputType").toList where
  ne_nil := (mute_freeName_inputType text).name.ne_nil
  all := by
    have hform : ∀ c ∈ ("inputType" ++ "Variant").toList, isWord c = true :=
      List.all_eq_true.mp (by decide)
    have hcandidate : ∀ n, ∀ c ∈ (candidateName "inputType" n).toList, isWord c = true
      | 0 => List.all_eq_true.mp (by decide)
      | 1 => hform
      | n + 2 => by
          intro c hc
          rw [candidateName, String.toList_append] at hc
          rcases List.mem_append.mp hc with hc | hc
          · exact hform c hc
          · exact isWord_of_isDigit (isDigit_of_mem_toString hc)
    exact hcandidate _

/-- A name that a text holds is held behind the builtin renaming too, unless it has the word `type`
in it. -/
theorem holdsName_of_renaming {w : List Char} (hw : ¬WordIn "type".toList w) {text : List Char}
    (h : holdsName w text = true) :
    holdsName w ((reservedEdit "cva".toList "type" "inputType").after text) = true := by
  rw [after_reservedEdit]
  split
  case isFalse => exact h
  case isTrue =>
    exact holdsName_renamedText mute_type.name isWordName_type
      (isWordName_freeName_inputType text) hw h

/-- What the builtin renaming leaves in place. -/
theorem exists_builtinRenaming {w : List Char} (hw : ¬WordIn "type".toList w) {a b : List Char}
    (ha : wordAt a.getLast? = false) (hb : wordAt b.head? = false) :
    ∃ a' b', (reservedEdit "cva".toList "type" "inputType").after (a ++ (w ++ b))
        = a' ++ (w ++ b') ∧ a'.getLast? = a.getLast? ∧ b'.head? = b.head? := by
  rw [after_reservedEdit]
  split
  case isFalse => exact ⟨a, b, rfl, rfl, rfl⟩
  case isTrue =>
    exact exists_renamedText mute_type.name isWordName_type (isWordName_freeName_inputType _) hw
      ha hb

end DesignTokens.Rewrite
