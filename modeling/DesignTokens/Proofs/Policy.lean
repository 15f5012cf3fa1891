import DesignTokens.Proofs.Json.Members
import DesignTokens.Proofs.Text.Template
import DesignTokens.Record.Parse

/-!
# Policies that are accepted

A policy is accepted where `Policy.parse` gives one back. `Policy.Valid` is what
the rest relies on: nothing is wrong with the policy, and its reserved names are
distinct. The check does not look at the latter; it follows from the reader,
which settles the members of an object.
-/

namespace DesignTokens

open Json Text

/-- What is known of an accepted policy. -/
structure Policy.Valid (p : Policy) : Prop where
  no_fault : p.fault? = none
  nodup : (p.reserved.map (·.1)).Nodup

namespace Policy

theorem valid_builtin : builtin.Valid where
  no_fault := fault?_builtin
  nodup := by decide

/-- Sorting keeps the names of an object distinct. -/
theorem nodup_sortByName {α : Type} {members : List (String × α)}
    (h : (members.map (·.1)).Nodup) : ((sortByName members).map (·.1)).Nodup :=
  ((List.mergeSort_perm members _).map _).nodup_iff.mpr h

theorem nodup_readMap {α : Type} {read : Reader α} {d : Document} {members : List (String × α)}
    (h : readMap read d = some members) : (members.map (·.1)).Nodup := by
  cases d with
  | object ms =>
      obtain ⟨read, -, rfl⟩ := Option.map_eq_some_iff.mp h
      exact nodup_lastWins read
  | _ => cases h

theorem nodup_readUnchecked {d : Document} {p : Policy} (h : readUnchecked d = some p) :
    (p.reserved.map (·.1)).Nodup := by
  simp only [readUnchecked, Option.bind_eq_bind, Option.bind_eq_some_iff] at h
  obtain ⟨fields, -, h⟩ := h
  split at h
  case h_2 => cases h
  case h_1 reserved =>
    simp only [Option.bind_eq_some_iff] at h
    obtain ⟨_, -, _, -, _, -, _, -, _, -, _, -, members, hmembers, h⟩ := h
    cases h
    obtain ⟨d, -, hd⟩ := Option.bind_eq_some_iff.mp hmembers
    exact nodup_sortByName (nodup_readMap hd)

theorem valid_of_checked {p p' : Policy} (h : p.checked = .ok p')
    (hnodup : (p.reserved.map (·.1)).Nodup) : p'.Valid := by
  rw [checked] at h
  cases hfault : p.fault? with
  | some fault =>
      rw [hfault] at h
      cases h
  | none =>
      rw [hfault] at h
      cases h
      exact ⟨hfault, hnodup⟩

theorem bind_orFail {α β : Type} {f : Failure} {x : Option α} {g : α → Outcome β} {b : β}
    (h : (orFail f x).bind g = .ok b) : ∃ a, x = some a ∧ g a = .ok b := by
  cases x with
  | none => cases h
  | some a => exact ⟨a, rfl, h⟩

/-- A policy that is read from a text is valid. -/
theorem valid_of_parse {text : String} {p : Policy} (h : parse text = .ok p) : p.Valid := by
  obtain ⟨d, -, h⟩ := bind_orFail h
  obtain ⟨p', hread, h⟩ := bind_orFail h
  exact valid_of_checked h (nodup_readUnchecked hread)

/-! ## Names of a valid policy -/

theorem isName_of_isIdentifier {s : String} (h : isIdentifier s = true) : IsName s.toList := by
  rw [isIdentifier] at h
  split at h
  case h_1 => cases h
  case h_2 c cs hs =>
    rw [Bool.and_eq_true, List.all_eq_true] at h
    rw [hs]
    refine ⟨⟨c, cs, rfl, h.1⟩, fun d hd => ?_⟩
    rcases List.mem_cons.mp hd with rfl | hd
    · exact isIdent_of_isIdentStart h.1
    · exact h.2 d hd

theorem renamingFault?_eq_none {x : String × String} (h : renamingFault? x = none) :
    IsName x.1.toList ∧ IsName x.2.toList ∧ x.1 ≠ x.2 := by
  obtain ⟨name, renamed⟩ := x
  rw [renamingFault?] at h
  split at h
  case isTrue => cases h
  case isFalse hident =>
    split at h
    case isTrue => cases h
    case isFalse hne =>
      simp only [Bool.or_eq_true, Bool.not_eq_true', not_or, Bool.not_eq_false] at hident
      exact ⟨isName_of_isIdentifier hident.1, isName_of_isIdentifier hident.2, hne⟩

namespace Valid

variable {p : Policy}

theorem isName_call (h : p.Valid) : IsName p.variantCall.toList := by
  have hfault := h.no_fault
  rw [fault?] at hfault
  split at hfault
  · cases hfault
  · split at hfault
    case isTrue => cases hfault
    case isFalse hident => exact isName_of_isIdentifier (by simpa using hident)

theorem isName_reserved (h : p.Valid) {x : String × String} (hx : x ∈ p.reserved) :
    IsName x.1.toList ∧ IsName x.2.toList ∧ x.1 ≠ x.2 := by
  have hrenamings : p.reserved.findSome? renamingFault? = none := by
    have hfault := h.no_fault
    rw [fault?] at hfault
    repeat' split at hfault
    all_goals first | cases hfault | exact hfault
  exact renamingFault?_eq_none (List.findSome?_eq_none_iff.mp hrenamings x hx)

end Valid

end Policy

end DesignTokens
