import DesignTokens.Proofs.Token.Written

/-!
# The tokens that are offered

For a number of pixels its own token of the scale is offered, then those of the
nearest numbers below and above on the scale, and the number in brackets last
(`tokenOptions_eq`). A scale is searched as it stands, in whatever order its
numbers come. No token is offered twice, and each is read back as the number that
it is offered for (`tokenOptions_exact`).
-/

namespace DesignTokens

namespace Property

/-- The numbers on the scale of a property. -/
def values (p : Property) : List Nat := p.scale.map (·.2)

/-- The numbers on the scale that are offered for a number: this one itself, the greatest below it
and the least above it, each if there is one. -/
def neighbours (p : Property) (n : Nat) : List Nat :=
  (if n ∈ p.values then [n] else []) ++ (p.values.filter (· < n)).max?.toList
    ++ (p.values.filter (n < ·)).min?.toList

/-! ## Neighbours on a scale -/

section

variable {step : Option (String × Nat) → String × Nat → Option (String × Nat)} {keep : Nat → Bool}
  {choose : Nat → Nat → Nat} (hskip : ∀ best e, keep e.2 = false → step best e = best)
  (hfirst : ∀ e, keep e.2 = true → step none e = some e)
  (hchoose : ∀ b e, keep e.2 = true → (step (some b) e).map (·.2) = some (choose b.2 e.2))

include hskip hchoose

/-- A search along a scale chooses among what it has and the numbers that it does not skip. -/
theorem map_foldl_some (scale : Scale) (b : String × Nat) :
    (scale.foldl step (some b)).map (·.2)
      = some (((scale.map (·.2)).filter keep).foldl choose b.2) := by
  induction scale generalizing b with
  | nil => rfl
  | cons e scale ih =>
      rw [List.foldl_cons, List.map_cons]
      by_cases hkeep : keep e.2 = true
      · obtain ⟨b', hb', hchosen⟩ := Option.map_eq_some_iff.mp (hchoose b e hkeep)
        rw [hb', ih, hchosen, List.filter_cons_of_pos hkeep, List.foldl_cons]
      · rw [hskip _ e (by simpa using hkeep), ih, List.filter_cons_of_neg hkeep]

include hfirst

theorem map_foldl_none {pick : List Nat → Option Nat} (hnil : pick [] = none)
    (hcons : ∀ v vs, pick (v :: vs) = some (vs.foldl choose v)) (scale : Scale) :
    (scale.foldl step none).map (·.2) = pick ((scale.map (·.2)).filter keep) := by
  induction scale with
  | nil => exact hnil.symm
  | cons e scale ih =>
      rw [List.foldl_cons, List.map_cons]
      by_cases hkeep : keep e.2 = true
      · rw [hfirst e hkeep, map_foldl_some hskip hchoose, List.filter_cons_of_pos hkeep, hcons]
      · rw [hskip _ e (by simpa using hkeep), ih, List.filter_cons_of_neg hkeep]

end

/-- What is found along a scale is an entry of it. -/
theorem mem_of_foldl_none {step : Option (String × Nat) → String × Nat → Option (String × Nat)}
    (hstep : ∀ best e, step best e = best ∨ step best e = some e) {scale : Scale}
    {b : String × Nat} (h : scale.foldl step none = some b) : b ∈ scale := by
  refine List.foldlRecOn (motive := fun best => ∀ {b}, best = some b → b ∈ scale) scale step
    (fun h => by cases h) (fun best hbest e he b' hb' => ?_) h
  rcases hstep best e with hsame | hentry
  · exact hbest (hsame.symm.trans hb')
  · obtain rfl := Option.some.inj (hentry.symm.trans hb')
    exact he

/-- What is found below is the greatest of the numbers below. -/
theorem map_below? (p : Property) (n : Nat) :
    (p.below? n).map (·.2) = (p.values.filter (· < n)).max? := by
  refine map_foldl_none (fun best e he => if_pos (by simpa using he))
    (fun e he => if_neg (by simpa using he)) (fun b e he => ?_) rfl (fun v vs => rfl) p.scale
  have hn : ¬n ≤ e.2 := by simpa using he
  dsimp only
  rw [if_neg hn]
  split
  case isTrue hb => rw [Nat.max_eq_left hb.le]; rfl
  case isFalse hb => rw [Nat.max_eq_right (Nat.le_of_not_lt hb)]; rfl

/-- What is found above is the least of the numbers above. -/
theorem map_above? (p : Property) (n : Nat) :
    (p.above? n).map (·.2) = (p.values.filter (n < ·)).min? := by
  refine map_foldl_none (fun best e he => if_pos (by simpa using he))
    (fun e he => if_neg (by simpa using he)) (fun b e he => ?_) rfl (fun v vs => rfl) p.scale
  have hn : ¬e.2 ≤ n := by simpa using he
  dsimp only
  rw [if_neg hn]
  split
  case isTrue hb => rw [Nat.min_eq_right hb.le]; rfl
  case isFalse hb => rw [Nat.min_eq_left (Nat.le_of_not_lt hb)]; rfl

section

variable {p : Property} {n : Nat} {e : String × Nat}

theorem mem_values (h : e ∈ p.scale) : e.2 ∈ p.values := List.mem_map_of_mem h

theorem mem_scale_of_below? (h : p.below? n = some e) : e ∈ p.scale := by
  refine mem_of_foldl_none (fun best e => ?_) h
  repeat' split
  all_goals first | exact .inl rfl | exact .inr rfl

theorem mem_scale_of_above? (h : p.above? n = some e) : e ∈ p.scale := by
  refine mem_of_foldl_none (fun best e => ?_) h
  repeat' split
  all_goals first | exact .inl rfl | exact .inr rfl

/-! ## The tokens of a scale -/

/-- A number on the scale is written by its own key. -/
theorem token_of_mem (p : Property) (e : String × Nat) (he : e ∈ p.scale) :
    p.token e.2 = p.keyToken e.1 := by
  rw [token, scaleToken?, find?_entry he (decide_eq_true rfl), Option.map_some, Option.getD_some]
  intro x hx hnumber
  exact List.inj_on_of_nodup_map p.nodup_numbers hx he (of_decide_eq_true hnumber)

theorem le_maxPixels_of_mem (p : Property) : ∀ v ∈ p.values, v ≤ maxPixels := by
  cases p <;> decide

/-- The tokens of entries of the scale are those of their numbers. -/
theorem map_keyToken {found : Option (String × Nat)} (h : ∀ e ∈ found, e ∈ p.scale) :
    (found.map fun e => p.keyToken e.1).toList = (found.map (·.2)).toList.map p.token := by
  cases found with
  | none => rfl
  | some e => simp [p.token_of_mem e (h e rfl)]

theorem toList_scaleToken? (p : Property) (n : Nat) :
    (p.scaleToken? n).toList = (if n ∈ p.values then [n] else []).map p.token := by
  have hvalue : (p.scale.find? fun e => e.2 = n).map (·.2)
      = if n ∈ p.values then some n else none := by
    cases hfind : p.scale.find? fun e => e.2 = n with
    | none =>
        rw [if_neg, Option.map_none]
        intro hmem
        obtain ⟨e, he, rfl⟩ := List.mem_map.mp hmem
        simpa using List.find?_eq_none.mp hfind e he
    | some e =>
        obtain rfl : e.2 = n := by simpa using List.find?_some hfind
        rw [if_pos (mem_values (List.mem_of_find?_eq_some hfind)), Option.map_some]
  rw [scaleToken?, map_keyToken fun e he => List.mem_of_find?_eq_some he, hvalue]
  split <;> rfl

/-- What is offered for a number are the tokens of its neighbours on the scale and the number in
brackets. -/
theorem tokenOptions_eq (p : Property) (n : Nat) :
    p.tokenOptions n = (p.neighbours n).map p.token ++ [p.bracketToken n] := by
  rw [tokenOptions, toList_scaleToken?, map_keyToken fun e he => mem_scale_of_below? he,
    map_keyToken fun e he => mem_scale_of_above? he, map_below?, map_above?, neighbours,
    List.map_append, List.map_append]

/-! ## Reading the offered tokens back -/

theorem mem_neighbours_iff {v : Nat} : v ∈ p.neighbours n ↔
    v ∈ p.values ∧ v = n ∨ (p.values.filter (· < n)).max? = some v ∨
      (p.values.filter (n < ·)).min? = some v := by
  have hself : v ∈ (if n ∈ p.values then [n] else []) ↔ v ∈ p.values ∧ v = n := by
    split
    case isTrue h => simp only [List.mem_singleton]; exact ⟨fun hv => ⟨hv ▸ h, hv⟩, And.right⟩
    case isFalse h => simp only [List.not_mem_nil, false_iff]; exact fun hv => h (hv.2 ▸ hv.1)
  simp only [neighbours, List.mem_append, Option.mem_toList, hself, or_assoc]

theorem mem_values_of_mem_neighbours {v : Nat} (h : v ∈ p.neighbours n) : v ∈ p.values := by
  rcases mem_neighbours_iff.mp h with h | h | h
  · exact h.1
  · exact List.mem_of_mem_filter (List.max?_mem h)
  · exact List.mem_of_mem_filter (List.min?_mem h)

theorem nodup_neighbours (p : Property) (n : Nat) : (p.neighbours n).Nodup := by
  have hbelow : ∀ v ∈ (p.values.filter (· < n)).max?, v < n := fun v hv => by
    simpa using (List.mem_filter.mp (List.max?_mem hv)).2
  have habove : ∀ v ∈ (p.values.filter (n < ·)).min?, n < v := fun v hv => by
    simpa using (List.mem_filter.mp (List.min?_mem hv)).2
  rw [neighbours]
  generalize (p.values.filter (· < n)).max? = below at hbelow
  generalize (p.values.filter (n < ·)).min? = above at habove
  cases below <;> cases above <;> split <;> simp_all <;> omega

theorem token_inj {m n : Nat} (hm : m ≤ maxPixels) (hn : n ≤ maxPixels)
    (h : p.token m = p.token n) : m = n :=
  Option.some.inj (by rw [← p.pixels?_token hm, h, p.pixels?_token hn])

theorem bracket_not_mem_keyToken (he : e ∈ p.scale) : '[' ∉ (p.keyToken e.1).toList := by
  have hutility : ∀ p : Property, '[' ∉ p.utility.toList := by
    intro p
    cases p <;> decide
  have hkey := p.bracket_not_mem_key e he
  rw [keyToken]
  split
  · exact hutility p
  · simp [hutility p, hkey]

/-- No token of the scale has a bracket. -/
theorem token_ne_bracketToken {v : Nat} (hv : v ∈ p.values) (n : Nat) :
    p.token v ≠ p.bracketToken n := by
  obtain ⟨e, he, rfl⟩ := List.mem_map.mp hv
  intro h
  refine bracket_not_mem_keyToken he ?_
  rw [← p.token_of_mem e he, h, toList_bracketToken]
  simp

/-- For a number of pixels no token is offered twice, the token that is written for it is among
those that are offered, the one in brackets is the last, and they are read back, in order, as the
number itself if it is on the scale, the greatest number below it on the scale and the least above
it if there are any, and the number itself. -/
theorem tokenOptions_exact (p : Property) {n : Nat} (hn : n ≤ maxPixels) :
    (p.tokenOptions n).Nodup ∧ p.token n ∈ p.tokenOptions n ∧
      (p.tokenOptions n).getLast? = some (p.bracketToken n) ∧
      (p.tokenOptions n).map (fun t => p.pixels? t.toList) = (p.neighbours n ++ [n]).map some := by
  have hle : ∀ v ∈ p.neighbours n, v ≤ maxPixels := fun v hv =>
    p.le_maxPixels_of_mem v (mem_values_of_mem_neighbours hv)
  rw [tokenOptions_eq]
  refine ⟨?_, ?_, List.getLast?_concat .., ?_⟩
  · refine List.Nodup.append ?_ (List.nodup_singleton _) ?_
    · exact (p.nodup_neighbours n).map_on fun v hv w hw => token_inj (hle v hv) (hle w hw)
    · rw [List.disjoint_singleton]
      intro hmem
      obtain ⟨v, hv, heq⟩ := List.mem_map.mp hmem
      exact token_ne_bracketToken (mem_values_of_mem_neighbours hv) n heq
  · rcases p.token_cases n with ⟨e, he, rfl, -⟩ | h
    · refine List.mem_append_left _ (List.mem_map_of_mem (mem_neighbours_iff.mpr (.inl ?_)))
      exact ⟨mem_values he, rfl⟩
    · rw [h]
      exact List.mem_append_right _ (List.mem_singleton_self _)
  · have hread : ((p.neighbours n).map p.token).map (fun t => p.pixels? t.toList)
        = (p.neighbours n).map some := by
      rw [List.map_map]
      exact List.map_congr_left fun v hv => p.pixels?_token (hle v hv)
    rw [List.map_append, List.map_append, hread, List.map_singleton, List.map_singleton,
      p.pixels?_bracketToken hn]

theorem tokenOptions_exact_above_gap :
    100 ≤ maxPixels ∧ Property.borderRadius.tokenOptions 100
        = ["rounded-3xl", "rounded-full", "rounded-[100px]"] ∧
      (Property.borderRadius.tokenOptions 100).Nodup ∧
      (Property.borderRadius.tokenOptions 100).map
        (fun t => Property.borderRadius.pixels? t.toList) = [some 24, some 9999, some 100] := by
  have hlist : Property.borderRadius.tokenOptions 100
      = ["rounded-3xl", "rounded-full", "rounded-[100px]"] := by decide
  have hexact := tokenOptions_exact .borderRadius (n := 100) (by decide)
  exact ⟨by decide, hlist, hexact.1, hexact.2.2.2.trans (by decide)⟩

end

end Property
end DesignTokens
