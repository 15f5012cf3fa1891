import Mathlib.Data.List.Nodup
import DesignTokens.Json.Basic

/-!
# Members of distinct names

`putMember` puts a member in the place of an earlier one of the same name, so
that names stay distinct however often it is used. A list whose repetitions are
settled has distinct names for that reason.
-/

namespace DesignTokens.Json

variable {α : Type}

/-- A name that is there keeps its place; a new one comes last. -/
theorem map_fst_putMember (name : String) (v : α) :
    ∀ members : List (String × α), (putMember name v members).map (·.1)
      = if name ∈ members.map (·.1) then members.map (·.1) else members.map (·.1) ++ [name]
  | [] => rfl
  | (n, w) :: rest => by
      by_cases h : n = name
      · simp [putMember, h]
      · have ih := map_fst_putMember name v rest
        have hne : name ≠ n := fun e => h e.symm
        simp only [putMember, if_neg h, List.map_cons, ih, List.mem_cons, hne, false_or]
        split <;> rfl

theorem mem_map_fst_putMember {name other : String} {v : α} {members : List (String × α)} :
    other ∈ (putMember name v members).map (·.1)
      ↔ other = name ∨ other ∈ members.map (·.1) := by
  rw [map_fst_putMember]
  split
  · rename_i h
    exact ⟨Or.inr, fun ho => ho.elim (fun e => e ▸ h) id⟩
  · rw [List.mem_append, List.mem_singleton, or_comm]

theorem nodup_putMember {name : String} {v : α} {members : List (String × α)}
    (h : (members.map (·.1)).Nodup) : ((putMember name v members).map (·.1)).Nodup := by
  rw [map_fst_putMember]
  split
  · exact h
  · rename_i hnew
    rw [← List.concat_eq_append]
    exact h.concat hnew

theorem putMember_ne_nil (name : String) (v : α) (members : List (String × α)) :
    putMember name v members ≠ [] := by
  cases members with
  | nil => exact List.cons_ne_nil _ _
  | cons m rest =>
      rw [putMember]
      split <;> exact List.cons_ne_nil _ _

/-- Settled members have distinct names. -/
theorem nodup_lastWins (members : List (String × α)) : ((lastWins members).map (·.1)).Nodup := by
  suffices h : ∀ done : List (String × α), (done.map (·.1)).Nodup →
      ((members.foldl (fun done m => putMember m.1 m.2 done) done).map (·.1)).Nodup by
    exact h [] List.nodup_nil
  induction members with
  | nil => exact fun done hd => hd
  | cons m rest ih => exact fun done hd => ih _ (nodup_putMember hd)

theorem putMember_of_not_mem {name : String} (v : α) : ∀ {members : List (String × α)},
    name ∉ members.map (·.1) → putMember name v members = members ++ [(name, v)]
  | [], _ => rfl
  | (n, w) :: rest, h => by
      rw [List.map_cons, List.mem_cons, not_or] at h
      rw [putMember, if_neg (Ne.symm h.1), putMember_of_not_mem v h.2]
      rfl

/-- Members of distinct names have nothing to settle. -/
theorem lastWins_of_nodup {members : List (String × α)} (h : (members.map (·.1)).Nodup) :
    lastWins members = members := by
  suffices hfold : ∀ done : List (String × α), ((done ++ members).map (·.1)).Nodup →
      members.foldl (fun done m => putMember m.1 m.2 done) done = done ++ members by
    exact hfold [] h
  clear h
  induction members with
  | nil => exact fun done _ => (List.append_nil done).symm
  | cons m rest ih =>
      intro done hd
      have hnew : m.1 ∉ done.map (·.1) := by
        rw [List.map_append, List.nodup_append] at hd
        intro hmem
        exact hd.2.2 m.1 hmem m.1 (List.mem_cons_self ..) rfl
      rw [List.foldl_cons, putMember_of_not_mem m.2 hnew, ih _ (by simpa using hd)]
      simp

theorem putMember_map {β : Type} (g : α → β) (name : String) (v : α) :
    ∀ members : List (String × α), putMember name (g v) (members.map fun m => (m.1, g m.2))
      = (putMember name v members).map fun m => (m.1, g m.2)
  | [] => rfl
  | (n, w) :: rest => by
      by_cases h : n = name
      · simp [putMember, h]
      · simp [putMember, h, putMember_map g name v rest]

theorem lastWins_map {β : Type} (g : α → β) (members : List (String × α)) :
    lastWins (members.map fun m => (m.1, g m.2))
      = (lastWins members).map fun m => (m.1, g m.2) := by
  suffices hfold : ∀ done : List (String × α),
      (members.map fun m => (m.1, g m.2)).foldl (fun done m => putMember m.1 m.2 done)
        (done.map fun m => (m.1, g m.2))
      = (members.foldl (fun done m => putMember m.1 m.2 done) done).map fun m => (m.1, g m.2) by
    exact hfold []
  induction members with
  | nil => exact fun done => rfl
  | cons m rest ih =>
      intro done
      rw [List.map_cons, List.foldl_cons, List.foldl_cons, ← ih, ← putMember_map]

theorem length_foldl_putMember_le (members : List (String × α)) :
    ∀ done : List (String × α),
      (members.foldl (fun done m => putMember m.1 m.2 done) done).length
        ≤ done.length + members.length := by
  induction members with
  | nil => exact fun done => Nat.le_refl _
  | cons m rest ih =>
      intro done
      have hput : (putMember m.1 m.2 done).length ≤ done.length + 1 := by
        have hnames := congrArg List.length (map_fst_putMember m.1 m.2 done)
        split at hnames <;>
          simp only [List.length_map, List.length_append, List.length_singleton] at hnames <;> omega
      have hrest := ih (putMember m.1 m.2 done)
      rw [List.foldl_cons, List.length_cons]
      omega

/-- If no member gets lost, there was nothing to settle. -/
theorem lastWins_eq_self_of_length {members : List (String × α)}
    (h : (lastWins members).length = members.length) : lastWins members = members := by
  suffices hfold : ∀ done : List (String × α),
      (members.foldl (fun done m => putMember m.1 m.2 done) done).length
        = done.length + members.length →
      members.foldl (fun done m => putMember m.1 m.2 done) done = done ++ members by
    exact hfold [] (by rw [List.length_nil, Nat.zero_add]; exact h)
  clear h
  induction members with
  | nil => exact fun done _ => (List.append_nil done).symm
  | cons m rest ih =>
      intro done hd
      rw [List.foldl_cons, List.length_cons] at hd
      have hle := length_foldl_putMember_le rest (putMember m.1 m.2 done)
      have hnew : m.1 ∉ done.map (·.1) := by
        intro hmem
        have hnames := congrArg List.length (map_fst_putMember m.1 m.2 done)
        rw [if_pos hmem, List.length_map, List.length_map] at hnames
        omega
      rw [putMember_of_not_mem m.2 hnew] at hd
      rw [List.foldl_cons, putMember_of_not_mem m.2 hnew, ih _ (by simp at hd ⊢; omega)]
      simp

end DesignTokens.Json
