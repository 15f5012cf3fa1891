import Mathlib.Data.List.Nodup
import DesignTokens.Compliance.Validation
import DesignTokens.Proofs.Text.Template

/-!
# Groups of spacing lines

The lines of a spec that speak of one property make one group, which asks for at
least one length, and for no length above the greatest number of pixels
(`wellGrouped_spacingGroups`). The finding for a group starts with the name of
its property, and is known by it (`eq_of_prefix_spacingIssue`).
-/

namespace DesignTokens

open Text

/-- Each property has one group, with lengths that a token can stand for. -/
structure WellGrouped (groups : List SpacingGroup) : Prop where
  nodup : (groups.map (·.1)).Nodup
  ne_nil : ∀ g ∈ groups, g.2 ≠ []
  bounded : ∀ g ∈ groups, ∀ n ∈ g.2, n ≤ maxPixels

section

variable {property : Property} {pixels : Nat}

theorem mem_properties_addRequirement {p : Property} : ∀ {groups : List SpacingGroup},
    p ∈ (addRequirement property pixels groups).map (·.1) ↔
      p = property ∨ p ∈ groups.map (·.1)
  | [] => by simp [addRequirement]
  | (q, values) :: groups => by
      rw [addRequirement]
      split
      case isTrue h => simp [h]
      case isFalse =>
        simp only [List.map_cons, List.mem_cons, mem_properties_addRequirement]
        tauto

theorem nodup_addRequirement : ∀ {groups : List SpacingGroup},
    (groups.map (·.1)).Nodup → ((addRequirement property pixels groups).map (·.1)).Nodup
  | [], _ => by simp [addRequirement]
  | (q, values) :: groups, h => by
      obtain ⟨hq, hgroups⟩ := List.nodup_cons.mp h
      rw [addRequirement]
      split
      case isTrue => exact List.nodup_cons.mpr ⟨hq, hgroups⟩
      case isFalse hne =>
        refine List.nodup_cons.mpr ⟨fun hmem => ?_, nodup_addRequirement hgroups⟩
        rcases mem_properties_addRequirement.mp hmem with rfl | hmem
        · exact hne rfl
        · exact hq hmem

/-- A group behind a requirement has a length, and its lengths are old ones or the required one. -/
theorem mem_addRequirement {g : SpacingGroup} : ∀ {groups : List SpacingGroup},
    g ∈ addRequirement property pixels groups → g ∈ groups ∨
      g.2 ≠ [] ∧ ∀ n ∈ g.2, n = pixels ∨ ∃ old ∈ groups, n ∈ old.2
  | [], h => by
      obtain rfl := List.mem_singleton.mp h
      exact .inr ⟨List.cons_ne_nil _ _, fun n hn => .inl (List.mem_singleton.mp hn)⟩
  | (q, values) :: groups, h => by
      rw [addRequirement] at h
      split at h
      case isTrue =>
        rcases List.mem_cons.mp h with rfl | h
        · dsimp only
          split
          case isTrue => exact .inl (List.mem_cons_self ..)
          case isFalse =>
            refine .inr ⟨by simp, fun n hn => ?_⟩
            rcases List.mem_append.mp hn with hn | hn
            · exact .inr ⟨_, List.mem_cons_self .., hn⟩
            · exact .inl (List.mem_singleton.mp hn)
        · exact .inl (List.mem_cons_of_mem _ h)
      case isFalse =>
        rcases List.mem_cons.mp h with rfl | h
        · exact .inl (List.mem_cons_self ..)
        · rcases mem_addRequirement h with h | ⟨hne, hvalues⟩
          · exact .inl (List.mem_cons_of_mem _ h)
          · refine .inr ⟨hne, fun n hn => (hvalues n hn).imp_right ?_⟩
            rintro ⟨old, hold, hn⟩
            exact ⟨old, List.mem_cons_of_mem _ hold, hn⟩

theorem WellGrouped.addRequirement {groups : List SpacingGroup} (h : WellGrouped groups)
    (hpixels : pixels ≤ maxPixels) : WellGrouped (addRequirement property pixels groups) where
  nodup := nodup_addRequirement h.nodup
  ne_nil := by
    intro g hg
    rcases mem_addRequirement hg with hg | ⟨hne, -⟩
    · exact h.ne_nil g hg
    · exact hne
  bounded := by
    intro g hg n hn
    rcases mem_addRequirement hg with hg | ⟨-, hvalues⟩
    · exact h.bounded g hg n hn
    · rcases hvalues n hn with rfl | ⟨old, hold, hn⟩
      · exact hpixels
      · exact h.bounded old hold n hn

end

theorem pixels_le_of_spacingRequirement {line : String} {r : SpacingRequirement}
    (h : spacingRequirement? line = some r) : r.pixels ≤ maxPixels := by
  obtain ⟨_, -, h⟩ := Option.bind_eq_some_iff.mp h
  obtain ⟨_, -, h⟩ := Option.bind_eq_some_iff.mp h
  obtain ⟨_, -, h⟩ := Option.bind_eq_some_iff.mp h
  obtain ⟨_, -, h⟩ := Option.bind_eq_some_iff.mp h
  obtain rfl := Option.some.inj h
  exact Nat.min_le_right _ _

theorem wellGrouped_spacingGroups (lines : List String) : WellGrouped (spacingGroups lines) := by
  suffices h : ∀ (rs : List SpacingRequirement) (groups : List SpacingGroup),
      (∀ r ∈ rs, r.pixels ≤ maxPixels) → WellGrouped groups →
      WellGrouped (rs.foldl (fun groups r => addRequirement r.property r.pixels groups) groups) by
    refine h _ [] (fun r hr => ?_) ⟨List.nodup_nil, by simp, by simp⟩
    obtain ⟨line, -, hline⟩ := List.mem_filterMap.mp hr
    exact pixels_le_of_spacingRequirement hline
  intro rs
  induction rs with
  | nil => exact fun _ _ h => h
  | cons r rs ih =>
      intro groups hrs h
      obtain ⟨hr, hrs⟩ := List.forall_mem_cons.mp hrs
      exact ih _ hrs (h.addRequirement hr)

/-- The group of a property is known by its property. -/
theorem WellGrouped.eq_of_mem {groups : List SpacingGroup} (h : WellGrouped groups)
    {g g' : SpacingGroup} (hg : g ∈ groups) (hg' : g' ∈ groups) (heq : g.1 = g'.1) : g = g' :=
  List.inj_on_of_nodup_map h.nodup hg hg' heq

/-! ## The finding for a group -/

theorem colon_not_mem_name (p : Property) : ':' ∉ p.name.toList := by
  cases p <;> decide

theorem name_inj {p q : Property} (h : p.name = q.name) : p = q :=
  Option.some.inj (by rw [← Property.ofName?_name p, h, Property.ofName?_name])

/-- The finding of a group starts with the name of its property and no other. -/
theorem eq_of_prefix_spacingIssue {p : Property} {g : SpacingGroup}
    (h : (p.name ++ ": ").toList <+: (spacingIssue g).toList) : g.1 = p := by
  obtain ⟨q, values⟩ := g
  obtain ⟨rest, hrest⟩ := h
  have htext : spacingIssue (q, values)
      = q.name ++ (": " ++ ("expected " ++ describeTargets q values)) := by
    have hwords : ": expected " = ": " ++ "expected " := by decide
    rw [spacingIssue, hwords]
    simp only [String.append_assoc]
  have hcolon : ": ".toList = ':' :: " ".toList := by decide
  have htake : ∀ (r : Property) (cs : List Char),
      (r.name.toList ++ ':' :: cs).takeWhile (· ≠ ':') = r.name.toList := by
    intro r cs
    rw [takeWhile_append_stop (by decide), List.takeWhile_eq_self_iff]
    rintro c hc
    refine decide_eq_true fun h => colon_not_mem_name r ?_
    rwa [← h]
  have hname := htake p (" ".toList ++ rest)
  rw [← List.cons_append, ← hcolon, ← List.append_assoc, ← String.toList_append, hrest, htext,
    String.toList_append, String.toList_append, hcolon, List.cons_append, htake] at hname
  exact name_inj (String.toList_inj.mp hname)

end DesignTokens
