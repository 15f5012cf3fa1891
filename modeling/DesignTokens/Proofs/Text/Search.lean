import DesignTokens.Proofs.Text.Template

/-!
# Searching for a name in a template

The patterns of this library that look for a name look for it as a word of its
own and read on behind it. Such a search finds the same place in all fillings of
a template, with one exception: where the word in the holes comes to its end
with that very name (`EndsInName`), as `my$variants` does with `variants`, a
dollar sign being no word character. `firstFrom?_fill` is the search for all
other words.
-/

namespace DesignTokens.Text

/-- The word comes to its end with the name, which has a word boundary in front of it there. -/
def EndsInName (name w : List Char) : Prop :=
  ∃ u, w = u ++ name ∧ isBoundary u.getLast? name.head? = true

theorem getLast?_of_endsInName {name w : List Char} (h : EndsInName name w) (hname : name ≠ []) :
    w.getLast? = name.getLast? := by
  obtain ⟨u, rfl, -⟩ := h
  rw [List.getLast?_append_of_ne_nil _ hname]

/-- A name behind a word boundary, and what is read behind the name. -/
def namePattern (name : List Char) (read : List Char → Option (List Char)) : Pattern :=
  fun before rest =>
    if isBoundary before rest.head? then
      ((after? name rest).bind read).map fun behind => rest.length - behind.length
    else none

/-- A name that is read from a word and what follows the word is read from the word alone. -/
theorem exists_of_after_append {rest x : List Char} (hrest : NoIdent rest.head?) :
    ∀ {name v : List Char}, (∀ c ∈ name, isIdent c = true) →
      after? name (v ++ rest) = some x → ∃ y, v = name ++ y ∧ x = y ++ rest
  | [], v, _, h => ⟨v, rfl, (Option.some.inj h).symm⟩
  | p :: ps, [], hname, h => by
      cases rest with
      | nil => cases h
      | cons c rest =>
          have hpc : p ≠ c := ne_of_isIdent (hname p (List.mem_cons_self ..)) (hrest c rfl)
          simp [after?, hpc] at h
  | p :: ps, c :: v, hname, h => by
      by_cases hpc : p = c
      · subst hpc
        rw [List.cons_append, after?, if_pos rfl] at h
        obtain ⟨y, rfl, rfl⟩ :=
          exists_of_after_append hrest (fun d hd => hname d (List.mem_cons_of_mem _ hd)) h
        exact ⟨y, rfl, rfl⟩
      · simp [after?, hpc] at h

section

variable {name w : List Char} {read : List Char → Option (List Char)}

/-- No match starts in a word, unless the word comes to its end with the name and what follows is
read on. -/
theorem namePattern_in_word {u v rest : List Char} {before : Option Char} (hname : IsName name)
    (hread : ∀ c cs, isIdent c = true → read (c :: cs) = none) (hw : IsName w)
    (hends : EndsInName name w → read rest = none) (huv : w = u ++ v) (hbefore : NoIdent before)
    (hrest : NoIdent rest.head?) :
    namePattern name read (u.getLast?.or before) (v ++ rest) = none := by
  rw [namePattern]
  split
  case isFalse => rfl
  case isTrue hb =>
    cases ha : after? name (v ++ rest) with
    | none => rfl
    | some x =>
        obtain ⟨y, rfl, rfl⟩ := exists_of_after_append hrest hname.all ha
        cases y with
        | nil =>
            have hword : EndsInName name w := by
              refine ⟨u, by simpa using huv, ?_⟩
              rw [List.append_nil, List.head?_append_of_ne_nil _ hname.ne_nil] at hb
              cases hu : u.getLast? with
              | some c => rwa [hu, Option.some_or] at hb
              | none =>
                  rw [hu, Option.none_or, isBoundary, wordAt_of_noIdent hbefore] at hb
                  exact hb
            rw [Option.bind_some, List.nil_append, hends hword]
            rfl
        | cons c y =>
            have hc : isIdent c = true := hw.all c (by rw [huv]; simp)
            rw [Option.bind_some, List.cons_append, hread c _ hc]
            rfl

/-- A quotation mark in front of a match is as good as none. -/
theorem namePattern_quote (rest : List Char) :
    namePattern name read (some '"') rest = namePattern name read none rest := by
  have hmark : wordAt (some '"') = wordAt none := by decide
  rw [namePattern, namePattern, isBoundary, isBoundary, hmark]

end

namespace Template

variable {w : List Char} {s t u : Template}

/-- A character behind a hole is in no identifier; else the character in front is always the
same. -/
theorem getLast_fill {c : Char} (h : Apart (s ++ some c :: u)) :
    isIdent c = false ∨ ∃ before, ∀ w, (fill w s).getLast? = before := by
  rcases List.eq_nil_or_concat s with rfl | ⟨s, slot, rfl⟩
  · exact .inr ⟨none, fun _ => rfl⟩
  · cases slot with
    | some d => exact .inr ⟨some d, fun w => by simp⟩
    | none =>
        rw [List.concat_eq_append, List.append_assoc] at h
        exact .inl ((List.isChain_cons_cons.mp h.right).1.1 rfl)

variable {name : List Char} {read : List Char → Option (List Char)} {last : Char}

/-- Outside of the holes a name is found alike in all fillings. -/
theorem namePattern_fill {c : Char} (hname : IsName name) (hread : ∀ t, ReadsTo last read t)
    (h : Apart (s ++ some c :: u)) :
    (∀ w, IsName w →
        namePattern name read (fill w s).getLast? (fill w (some c :: u)) = none) ∨
      ∃ m r, some c :: u = m ++ some last :: r ∧ ∀ w, IsName w →
        namePattern name read (fill w s).getLast? (fill w (some c :: u))
          = some ((fill w m).length + 1) := by
  obtain ⟨n, ns, rfl, hn⟩ := hname.start
  rcases getLast_fill h with hc | ⟨before, hbefore⟩
  · have hnc : n ≠ c := ne_of_isIdent (isIdent_of_isIdentStart hn) hc
    exact .inl fun w _ => by simp [namePattern, after?, hnc]
  · have hreads : ReadsTo last (fun cs => (after? (n :: ns) cs).bind read) (some c :: u) :=
      (reads_after_name hname.all h.right (by simp)).bind fun _ _ _ => hread _
    by_cases hb : isBoundary before (some c) = true
    · rcases hreads with hnone | ⟨m, r, hm, hsome⟩
      · refine .inl fun w hw => ?_
        have hfill : (after? (n :: ns) (fill w (some c :: u))).bind read = none := hnone w hw
        rw [namePattern, hbefore, hfill, fill_some, List.head?_cons, if_pos hb, Option.map_none]
      · refine .inr ⟨m, r, hm, fun w hw => ?_⟩
        have hfill : (after? (n :: ns) (fill w (some c :: u))).bind read = some (fill w r) :=
          hsome w hw
        rw [namePattern, hbefore, hfill, fill_some, List.head?_cons, if_pos hb, Option.map_some,
          ← fill_some, hm]
        simp only [fill_append, fill_some, List.length_append, List.length_cons, Option.some.injEq]
        omega
    · exact .inl fun w _ => by
        rw [namePattern, hbefore, fill_some, List.head?_cons, if_neg hb]

end Template

theorem firstFrom?_append {p : Pattern} {rest : List Char} :
    ∀ {w : List Char} {before : Option Char} {pos : Nat},
      (∀ u v, w = u ++ v → p (u.getLast?.or before) (v ++ rest) = none) →
      p.firstFrom? before pos (w ++ rest)
        = p.firstFrom? (w.getLast?.or before) (pos + w.length) rest
  | [], _, _, _ => rfl
  | c :: w, before, pos, h => by
      have hc : p before (c :: (w ++ rest)) = none := h [] (c :: w) rfl
      rw [List.cons_append, Pattern.firstFrom?, hc, firstFrom?_append]
      · rw [List.getLast?_cons, List.length_cons, Nat.add_right_comm]
        cases w.getLast? <;> rfl
      · rintro u v rfl
        have := h (c :: u) v rfl
        rw [List.getLast?_cons] at this
        cases hu : u.getLast? <;> rw [hu] at this <;> exact this

namespace Template

variable {name : List Char} {read : List Char → Option (List Char)} {last : Char}

/-- The search for a name finds nothing in any filling, or the same place in all of them. -/
theorem firstFrom?_fill (hname : IsName name) (hread : ∀ t, ReadsTo last read t)
    (hident : ∀ c cs, isIdent c = true → read (c :: cs) = none) :
    ∀ {u s : Template}, Apart (s ++ u) →
      (∀ w, IsName w → ¬EndsInName name w →
        (namePattern name read).firstFrom? (fill w s).getLast? (fill w s).length (fill w u)
          = none) ∨
      ∃ a b r, u = a ++ b ++ some last :: r ∧ ∀ w, IsName w → ¬EndsInName name w →
        (namePattern name read).firstFrom? (fill w s).getLast? (fill w s).length (fill w u)
          = some ⟨(fill w (s ++ a)).length, (fill w b).length + 1⟩
  | [], _, _ => .inl fun _ _ _ => rfl
  | slot :: u, s, h => by
      have hnext : Apart ((s ++ [slot]) ++ u) := by simpa using h
      -- the search goes on behind the place unless it ends at it
      have hstep : (∃ b r, slot :: u = b ++ some last :: r ∧ ∀ w, IsName w → ¬EndsInName name w →
            (namePattern name read).firstFrom? (fill w s).getLast? (fill w s).length
              (fill w (slot :: u)) = some ⟨(fill w s).length, (fill w b).length + 1⟩) ∨
          ∀ w, IsName w → ¬EndsInName name w →
            (namePattern name read).firstFrom? (fill w s).getLast? (fill w s).length
              (fill w (slot :: u))
            = (namePattern name read).firstFrom? (fill w (s ++ [slot])).getLast?
              (fill w (s ++ [slot])).length (fill w u) := by
        cases slot with
        | some c =>
            rcases namePattern_fill hname hread h with hnone | ⟨b, r, hb, hsome⟩
            · refine .inr fun w hw _ => ?_
              have := hnone w hw
              rw [fill_some] at this ⊢
              rw [Pattern.firstFrom?, this]
              simp
            · refine .inl ⟨b, r, hb, fun w hw _ => ?_⟩
              have := hsome w hw
              rw [fill_some] at this ⊢
              rw [Pattern.firstFrom?, this]
        | none =>
            refine .inr fun w hw hends => ?_
            rw [fill_none, firstFrom?_append fun x y hxy =>
              namePattern_in_word hname hident hw (absurd · hends) hxy h.noIdent_before
                h.right.noIdent_behind]
            simp [Option.or, List.getLast?_append]
      rcases hstep with ⟨b, r, hb, hsome⟩ | hstep
      · exact .inr ⟨[], b, r, by simpa using hb, fun w hw hends => by
          rw [hsome w hw hends, List.append_nil]⟩
      · rcases firstFrom?_fill hname hread hident hnext with hnone | ⟨a, b, r, rfl, hsome⟩
        · exact .inl fun w hw hends => (hstep w hw hends).trans (hnone w hw hends)
        · refine .inr ⟨slot :: a, b, r, rfl, fun w hw hends => ?_⟩
          rw [hstep w hw hends, hsome w hw hends, List.append_assoc]
          rfl

end Template

end DesignTokens.Text
