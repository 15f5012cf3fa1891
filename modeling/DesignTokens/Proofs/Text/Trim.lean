import DesignTokens.Proofs.Text.Lines
import DesignTokens.Proofs.Text.Template

/-!
# Trimmed texts and lists of items

White space at the end of a text does not show in the trimmed text, and white
space around a comma-separated list does not show in its items. So the items that
a comma list was made of can be read from it, trimmed and without blank ones,
unless one of them has a comma of its own (`listItems_commaList`).
-/

namespace DesignTokens.Text

/-! ## Trimming -/

theorem dropEndWhile_append (p : Char → Bool) (cs : List Char) :
    dropEndWhile p cs ++ (cs.reverse.takeWhile p).reverse = cs := by
  rw [dropEndWhile, ← List.reverse_append, List.takeWhile_append_dropWhile, List.reverse_reverse]

/-- A text is cut in front of the white space at its end. -/
theorem exists_trimEnd (cs : List Char) :
    ∃ b, cs = trimEnd cs ++ b ∧ ∀ c ∈ b, isWhiteSpace c = true :=
  ⟨(cs.reverse.takeWhile isWhiteSpace).reverse, (dropEndWhile_append isWhiteSpace cs).symm,
    fun _ hc => List.mem_takeWhile_imp (List.mem_reverse.mp hc)⟩

theorem trimEnd_append_blank {b : List Char} (hb : ∀ c ∈ b, isWhiteSpace c = true)
    (cs : List Char) : trimEnd (cs ++ b) = trimEnd cs := by
  rw [trimEnd, dropEndWhile, List.reverse_append,
    List.dropWhile_append_of_pos fun c hc => hb c (List.mem_reverse.mp hc)]
  rfl

theorem trim_append_blank {b : List Char} (hb : ∀ c ∈ b, isWhiteSpace c = true)
    (cs : List Char) : trim (cs ++ b) = trim cs := by
  rw [trim, List.dropWhile_append]
  split
  case isTrue hempty =>
    rw [trim, List.isEmpty_iff.mp hempty, List.dropWhile_eq_nil_iff.mpr hb]
  case isFalse => exact trimEnd_append_blank hb _

theorem trim_blank_append {a : List Char} (ha : ∀ c ∈ a, isWhiteSpace c = true)
    (cs : List Char) : trim (a ++ cs) = trim cs := by
  rw [trim, List.dropWhile_append_of_pos ha, trim]

/-- Trimming stops at the ends of a part that starts and ends with no white space. -/
theorem trim_append {c d : Char} {front : List Char} (hfirst : front.head? = some c)
    (hc : isWhiteSpace c = false) (hlast : front.getLast? = some d)
    (hd : isWhiteSpace d = false) (cs : List Char) : trim (front ++ cs) = front ++ trimEnd cs := by
  obtain ⟨w, rfl⟩ := List.head?_eq_some_iff.mp hfirst
  obtain ⟨v, hv⟩ := List.getLast?_eq_some_iff.mp hlast
  have hstop : ∀ b : List Char, (b ++ d :: v.reverse).dropWhile isWhiteSpace
      = b.dropWhile isWhiteSpace ++ d :: v.reverse := fun b => dropWhile_append_stop hd b _
  rw [trim, List.cons_append, List.dropWhile_cons_of_neg (by simp [hc]), ← List.cons_append, hv,
    trimEnd, dropEndWhile, List.reverse_append, List.reverse_append, List.reverse_singleton,
    List.singleton_append, hstop, List.reverse_append, trimEnd, dropEndWhile]
  simp

theorem trim_of_ends {cs : List Char} {c d : Char} (hfirst : cs.head? = some c)
    (hc : isWhiteSpace c = false) (hlast : cs.getLast? = some d) (hd : isWhiteSpace d = false) :
    trim cs = cs := by
  have htrim := trim_append hfirst hc hlast hd []
  simpa [trimEnd, dropEndWhile] using htrim

theorem trim_of_forall_not {cs : List Char} (h : ∀ c ∈ cs, isWhiteSpace c = false) :
    trim cs = cs := by
  cases hfirst : cs.head? with
  | none =>
      rw [List.head?_eq_none_iff.mp hfirst]
      rfl
  | some c =>
      have hne : cs ≠ [] := by rintro rfl; cases hfirst
      exact trim_of_ends hfirst (h c (List.mem_of_mem_head? hfirst))
        (List.getLast?_eq_some_getLast hne) (h _ (List.getLast_mem hne))

theorem isWhiteSpace_of_mem_getLast?_trimEnd {cs : List Char} {c : Char}
    (h : c ∈ (trimEnd cs).getLast?) : isWhiteSpace c = false := by
  rw [trimEnd, dropEndWhile, List.getLast?_reverse, Option.mem_def] at h
  have hstop := List.head?_dropWhile_not isWhiteSpace cs.reverse
  rw [h] at hstop
  simpa using hstop

theorem isWhiteSpace_of_mem_head?_trim {cs : List Char} {c : Char} (h : c ∈ (trim cs).head?) :
    isWhiteSpace c = false := by
  obtain ⟨b, hb, -⟩ := exists_trimEnd (cs.dropWhile isWhiteSpace)
  have hstop := List.head?_dropWhile_not isWhiteSpace cs
  rw [Option.mem_def, trim] at h
  rw [hb, List.head?_append, h, Option.some_or] at hstop
  simpa using hstop

theorem trim_trim (cs : List Char) : trim (trim cs) = trim cs := by
  rcases hfirst : (trim cs).head? with _ | c
  · rw [List.head?_eq_none_iff.mp hfirst]
    rfl
  · obtain ⟨d, hlast⟩ : ∃ d, (trim cs).getLast? = some d := by
      rw [← Option.ne_none_iff_exists', ne_eq, List.getLast?_eq_none_iff]
      rintro hnil
      rw [hnil] at hfirst
      cases hfirst
    exact trim_of_ends hfirst (isWhiteSpace_of_mem_head?_trim hfirst) hlast
      (isWhiteSpace_of_mem_getLast?_trimEnd hlast)

theorem toList_trimmed (s : String) : (trimmed s).toList = trim s.toList := String.toList_ofList

theorem trimmed_trimmed (s : String) : trimmed (trimmed s) = trimmed s := by
  rw [trimmed, toList_trimmed, trim_trim, ← trimmed]

/-- Trimming leaves nothing of white space, and of nothing else. -/
theorem trim_eq_nil_iff {cs : List Char} : trim cs = [] ↔ ∀ c ∈ cs, isWhiteSpace c = true := by
  constructor
  · intro h
    obtain ⟨b, hcs, hb⟩ := exists_trimEnd (cs.dropWhile isWhiteSpace)
    rw [← trim, h, List.nil_append] at hcs
    have hfront : ∀ c ∈ cs.takeWhile isWhiteSpace, isWhiteSpace c = true :=
      fun _ hc => List.mem_takeWhile_imp hc
    rw [← List.takeWhile_append_dropWhile (p := isWhiteSpace) (l := cs), hcs]
    exact List.forall_mem_append.mpr ⟨hfront, hb⟩
  · intro h
    rw [trim, List.dropWhile_eq_nil_iff.mpr h]
    rfl

theorem isBlankText_iff {s : String} : isBlankText s = true ↔ trimmed s = "" := by
  rw [isBlankText, List.all_eq_true, ← trim_eq_nil_iff, ← toList_trimmed,
    String.toList_eq_nil_iff]

/-! ## Lists of items -/

/-- What is in a joined list is in one of the lists or in what stands between them. -/
theorem mem_or_of_mem_intercalate_list {α : Type} {sep : List α} {c : α} :
    ∀ {items : List (List α)}, c ∈ sep.intercalate items → c ∈ sep ∨ ∃ w ∈ items, c ∈ w
  | [], h => absurd h List.not_mem_nil
  | [w], h => .inr ⟨w, List.mem_singleton.mpr rfl, by rwa [List.intercalate_singleton] at h⟩
  | w :: v :: items, h => by
      rw [List.intercalate_cons_cons, List.mem_append, List.mem_append] at h
      rcases h with (h | h) | h
      · exact .inr ⟨w, List.mem_cons_self .., h⟩
      · exact .inl h
      · rcases mem_or_of_mem_intercalate_list h with h | ⟨u, hu, h⟩
        · exact .inl h
        · exact .inr ⟨u, List.mem_cons_of_mem w hu, h⟩

/-- The characters of joined strings are those of the strings and of what stands between them. -/
theorem mem_or_of_mem_intercalate {sep : String} {c : Char} {items : List String}
    (h : c ∈ (sep.intercalate items).toList) : c ∈ sep.toList ∨ ∃ s ∈ items, c ∈ s.toList := by
  rw [String.toList_intercalate] at h
  refine (mem_or_of_mem_intercalate_list h).imp_right fun ⟨w, hw, hc⟩ => ?_
  obtain ⟨s, hs, rfl⟩ := List.mem_map.mp hw
  exact ⟨s, hs, hc⟩

/-- Joined strings start with the first of them. -/
theorem exists_intercalate_cons (sep s : String) (items : List String) :
    ∃ more, (sep.intercalate (s :: items)).toList = s.toList ++ more := by
  cases items with
  | nil => exact ⟨[], by rw [String.intercalate_singleton, List.append_nil]⟩
  | cons t items =>
      refine ⟨sep.toList ++ (sep.intercalate (t :: items)).toList, ?_⟩
      rw [String.intercalate_cons_cons, String.toList_append, String.toList_append,
        List.append_assoc]

/-- Joined strings end with one of them. -/
theorem exists_intercalate_last (sep : String) : ∀ {items : List String}, items ≠ [] →
    ∃ s ∈ items, ∃ w, (sep.intercalate items).toList = w ++ s.toList
  | [s], _ => ⟨s, List.mem_singleton.mpr rfl, [], by rw [String.intercalate_singleton]; rfl⟩
  | s :: t :: items, _ => by
      obtain ⟨u, hu, w, hw⟩ := exists_intercalate_last sep (List.cons_ne_nil t items)
      refine ⟨u, List.mem_cons_of_mem s hu, s.toList ++ sep.toList ++ w, ?_⟩
      rw [String.intercalate_cons_cons, String.toList_append, String.toList_append, hw]
      simp only [List.append_assoc]

/-- Each of the joined strings but the first stands behind a separator. -/
theorem exists_intercalate_mem (sep : String) {s : String} : ∀ {t : String} {items : List String},
    s ∈ items →
      ∃ w more, (sep.intercalate (t :: items)).toList = w ++ sep.toList ++ (s.toList ++ more)
  | t, u :: items, h => by
      rw [String.intercalate_cons_cons, String.toList_append, String.toList_append]
      rcases List.mem_cons.mp h with rfl | h
      · obtain ⟨more, hmore⟩ := exists_intercalate_cons sep s items
        exact ⟨t.toList, more, by rw [hmore]⟩
      · obtain ⟨w, more, hmore⟩ := exists_intercalate_mem sep (t := u) h
        exact ⟨t.toList ++ sep.toList ++ w, more, by rw [hmore]; simp only [List.append_assoc]⟩

theorem exists_pieces_cons (isSep : Char → Bool) : ∀ cs : List Char,
    ∃ p ps, pieces isSep cs = p :: ps
  | [] => ⟨[], [], rfl⟩
  | c :: cs => by
      obtain ⟨p, ps, h⟩ := exists_pieces_cons isSep cs
      rw [pieces, h]
      cases isSep c
      · exact ⟨c :: p, ps, rfl⟩
      · exact ⟨[], p :: ps, rfl⟩

theorem pieces_eq_splitOnP (isSep : Char → Bool) : ∀ cs : List Char,
    pieces isSep cs = cs.splitOnP isSep
  | [] => rfl
  | c :: cs => by
      rw [pieces, pieces_eq_splitOnP isSep cs, List.splitOnP_cons_eq_if_modifyHead]
      obtain ⟨p, ps, hcs⟩ := List.exists_cons_of_ne_nil (List.splitOnP_ne_nil isSep cs)
      rw [hcs]
      cases isSep c <;> rfl

/-- The items of a list are the parts between its commas, trimmed and without blank ones. -/
theorem listItems_eq (cs : List Char) :
    listItems cs = (((cs.splitOn ',').map trim).filter (· ≠ [])).map String.ofList := by
  have hsep : (fun c => decide (c = ',')) = fun c => c == ',' := by
    funext c
    rfl
  rw [listItems, pieces_eq_splitOnP, hsep, ← List.splitOn,
    ← List.filterMap_eq_map (f := String.ofList), List.filterMap_filter]
  congr 1
  funext p
  cases p <;> rfl

theorem pieces_free_append {isSep : Char → Bool} {cs p : List Char} {ps : List (List Char)}
    (h : pieces isSep cs = p :: ps) : ∀ {a : List Char}, (∀ c ∈ a, isSep c = false) →
      pieces isSep (a ++ cs) = (a ++ p) :: ps
  | [], _ => h
  | c :: a, ha => by
      obtain ⟨hc, ha⟩ := List.forall_mem_cons.mp ha
      rw [List.cons_append, pieces, hc, pieces_free_append h ha, List.cons_append]

/-- What is put behind a text goes to its last piece. -/
theorem exists_pieces_append {isSep : Char → Bool} {b : List Char}
    (hb : ∀ c ∈ b, isSep c = false) : ∀ cs : List Char,
      ∃ ps p, pieces isSep cs = ps ++ [p] ∧ pieces isSep (cs ++ b) = ps ++ [p ++ b]
  | [] => ⟨[], [], rfl, pieces_of_forall hb⟩
  | c :: cs => by
      obtain ⟨ps, p, hcs, happend⟩ := exists_pieces_append hb cs
      rw [List.cons_append, pieces, pieces, hcs, happend]
      cases isSep c with
      | true => exact ⟨[] :: ps, p, rfl, rfl⟩
      | false =>
          cases ps with
          | nil => exact ⟨[], c :: p, rfl, rfl⟩
          | cons q qs => exact ⟨(c :: q) :: qs, p, rfl, rfl⟩

theorem mem_and_of_mem_pieces {isSep : Char → Bool} {c : Char} : ∀ {cs p : List Char},
    p ∈ pieces isSep cs → c ∈ p → c ∈ cs ∧ isSep c = false
  | [], p, hp, hc => by
      obtain rfl := List.mem_singleton.mp hp
      cases hc
  | d :: cs, p, hp, hc => by
      have ih : ∀ p ∈ pieces isSep cs, c ∈ p → c ∈ d :: cs ∧ isSep c = false :=
        fun _ hp hc => (mem_and_of_mem_pieces hp hc).imp_left (List.mem_cons_of_mem d)
      obtain ⟨q, qs, hcs⟩ := exists_pieces_cons isSep cs
      rw [hcs] at ih
      rw [pieces, hcs] at hp
      cases hd : isSep d with
      | true =>
          rw [hd] at hp
          rcases List.mem_cons.mp hp with rfl | hp
          · cases hc
          · exact ih p hp hc
      | false =>
          obtain ⟨hq, hqs⟩ := List.forall_mem_cons.mp ih
          rw [hd] at hp
          rcases List.mem_cons.mp hp with rfl | hp
          · rcases List.mem_cons.mp hc with rfl | hc
            · exact ⟨List.mem_cons_self .., hd⟩
            · exact hq hc
          · exact hqs p hp hc

/-- White space separates no items. -/
theorem ne_comma_of_isWhiteSpace {w : List Char} (h : ∀ c ∈ w, isWhiteSpace c = true) :
    ∀ c ∈ w, decide (c = ',') = false := by
  rintro c hc
  rw [decide_eq_false_iff_not]
  rintro rfl
  exact absurd (h _ hc) (by decide)

theorem listItems_blank_append {a : List Char} (ha : ∀ c ∈ a, isWhiteSpace c = true)
    (cs : List Char) : listItems (a ++ cs) = listItems cs := by
  obtain ⟨p, ps, hcs⟩ := exists_pieces_cons (· = ',') cs
  rw [listItems, listItems, pieces_free_append hcs (ne_comma_of_isWhiteSpace ha), hcs,
    List.map_cons, List.map_cons, trim_blank_append ha]

theorem listItems_append_blank {b : List Char} (hb : ∀ c ∈ b, isWhiteSpace c = true)
    (cs : List Char) : listItems (cs ++ b) = listItems cs := by
  obtain ⟨ps, p, hcs, happend⟩ := exists_pieces_append (ne_comma_of_isWhiteSpace hb) cs
  rw [listItems, listItems, hcs, happend, List.map_append, List.map_append, List.map_singleton,
    List.map_singleton, trim_append_blank hb]

theorem listItems_skipBlanks (cs : List Char) : listItems (skipBlanks cs) = listItems cs := by
  have hblank : ∀ c ∈ cs.takeWhile isBlank, isWhiteSpace c = true :=
    fun c hc => isWhiteSpace_of_isBlank (List.mem_takeWhile_imp hc)
  rw [← listItems_blank_append hblank, skipBlanks, List.takeWhile_append_dropWhile]

theorem listItems_trimEnd (cs : List Char) : listItems (trimEnd cs) = listItems cs := by
  obtain ⟨b, hcs, hb⟩ := exists_trimEnd cs
  conv_rhs => rw [hcs]
  exact (listItems_append_blank hb _).symm

theorem listItems_of_not_mem {s : String} (h : ',' ∉ s.toList) :
    listItems s.toList = [trimmed s].filter (· ≠ "") := by
  have hpieces : pieces (· = ',') s.toList = [s.toList] :=
    pieces_of_forall (no_separator h)
  have hempty : trimmed s = "" ↔ (trim s.toList).isEmpty = true := by
    rw [trimmed, ← String.toList_inj, String.toList_ofList, List.isEmpty_iff]
    rfl
  rw [listItems, hpieces, List.map_singleton, List.filterMap_cons]
  by_cases hs : (trim s.toList).isEmpty = true
  · simp [hempty.mpr hs, List.isEmpty_iff.mp hs]
  · have hne : trimmed s ≠ "" := fun h => hs (hempty.mp h)
    rw [List.filter_cons_of_pos (by simpa using hne)]
    simp [hs, trimmed]

theorem pieces_append_sep {isSep : Char → Bool} {x : Char} (hx : isSep x = true)
    (more : List Char) : ∀ cs : List Char,
      pieces isSep (cs ++ x :: more) = pieces isSep cs ++ pieces isSep more
  | [] => by simp [pieces, hx]
  | c :: cs => by
      obtain ⟨p, ps, h⟩ := exists_pieces_cons isSep cs
      rw [List.cons_append, pieces, pieces, pieces_append_sep hx more cs, h]
      cases isSep c <;> rfl

theorem listItems_append_comma (cs more : List Char) :
    listItems (cs ++ ',' :: more) = listItems cs ++ listItems more := by
  rw [listItems, listItems, listItems, pieces_append_sep (by decide), List.map_append,
    List.filterMap_append]

theorem toList_commaList (s t : String) (items : List String) :
    (commaList (s :: t :: items)).toList
      = s.toList ++ ',' :: ([' '] ++ (commaList (t :: items)).toList) := by
  rw [commaList, String.intercalate_cons_cons, String.toList_append, String.toList_append,
    List.append_assoc]
  rfl

/-- An item is trimmed and not empty, and has no comma and nothing that the text does not have. -/
theorem of_mem_listItems {cs : List Char} {s : String} (h : s ∈ listItems cs) :
    s ≠ "" ∧ trimmed s = s ∧ ∀ c ∈ s.toList, c ∈ cs ∧ c ≠ ',' := by
  obtain ⟨p, hp, hs⟩ := List.mem_filterMap.mp h
  obtain ⟨q, hq, rfl⟩ := List.mem_map.mp hp
  split at hs
  case isTrue => cases hs
  case isFalse hne =>
    obtain rfl := Option.some.inj hs
    refine ⟨fun hempty => hne ?_, ?_, fun c hc => ?_⟩
    · rw [List.isEmpty_iff, ← String.toList_ofList (l := trim q), hempty]
      rfl
    · rw [trimmed, String.toList_ofList, trim_trim]
    · rw [String.toList_ofList] at hc
      have hpiece := mem_and_of_mem_pieces hq (mem_of_mem_trim hc)
      exact hpiece.imp_right of_decide_eq_false

/-- The items of a comma list, trimmed and without blank ones. -/
theorem listItems_commaList : ∀ {items : List String}, (∀ s ∈ items, ',' ∉ s.toList) →
    listItems (commaList items).toList = (items.map trimmed).filter (· ≠ "")
  | [], _ => rfl
  | [s], h => by
      rw [commaList, String.intercalate_singleton, List.map_singleton]
      exact listItems_of_not_mem (h s (List.mem_singleton.mpr rfl))
  | s :: t :: items, h => by
      obtain ⟨hs, hitems⟩ := List.forall_mem_cons.mp h
      have ih := listItems_commaList hitems
      rw [toList_commaList, listItems_append_comma, listItems_of_not_mem hs,
        listItems_blank_append (by decide), ih, ← List.filter_append, List.map_cons]
      rfl

/-- An item without a comma is one of the items that are read, whatever the others are. -/
theorem mem_listItems_commaList {s : String} (hcomma : ',' ∉ s.toList) (hne : trimmed s ≠ "") :
    ∀ {items : List String}, s ∈ items → trimmed s ∈ listItems (commaList items).toList
  | [t], hs => by
      obtain rfl := List.mem_singleton.mp hs
      rw [commaList, String.intercalate_singleton, listItems_of_not_mem hcomma]
      simpa using hne
  | t :: u :: items, hs => by
      rw [toList_commaList, listItems_append_comma, listItems_blank_append (by decide)]
      rcases List.mem_cons.mp hs with rfl | hs
      · rw [listItems_of_not_mem hcomma]
        exact List.mem_append_left _ (by simpa using hne)
      · exact List.mem_append_right _ (mem_listItems_commaList hcomma hne hs)

end DesignTokens.Text
