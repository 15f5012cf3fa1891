import Mathlib.Data.List.Basic
import DesignTokens.Issue.Basic
import DesignTokens.Proofs.Rewrite.FreeName

/-!
# Ids of issues

An id is a kind and a digest with a dash between them, and a number behind
another dash where issues share these. As neither a kind nor a digest has a dash,
an id can be read back into its base and its number (`numberedId_inj`), and the
issues of a list get ids of their own, however many share a digest
(`pairwise_id_assignIds`).
-/

namespace DesignTokens

open Text Rewrite

/-! ## Reading an id back -/

/-- Texts that end alike in a stretch without a character, in front of which it stands, are equal
in both parts. -/
theorem append_cons_inj {x : Char} {a b s t : List Char} (hs : x ∉ s) (ht : x ∉ t)
    (h : a ++ x :: s = b ++ x :: t) : a = b ∧ s = t := by
  rcases List.append_eq_append_iff.mp h with ⟨m, rfl, hm⟩ | ⟨m, rfl, hm⟩
  · cases m with
    | nil => exact ⟨by simp, (List.cons.inj hm).2⟩
    | cons c m =>
        obtain ⟨-, rfl⟩ := List.cons.inj hm
        exact absurd (by simp) hs
  · cases m with
    | nil => exact ⟨by simp, (List.cons.inj hm).2.symm⟩
    | cons c m =>
        obtain ⟨-, rfl⟩ := List.cons.inj hm
        exact absurd (by simp) ht

theorem dash_not_mem_toString (n : Nat) : '-' ∉ (toString n).toList := fun h =>
  absurd (isDigit_of_mem_toString h) (by decide)

namespace Issue

variable {digestOf : Issue → String}

theorem dash_not_mem_name (k : IssueKind) : '-' ∉ k.name.toList := by
  cases k <;> decide

theorem toList_numberedId (b : String) {n : Nat} (h : ¬n ≤ 1) :
    (numberedId b n).toList = b.toList ++ '-' :: (toString n).toList := by
  rw [numberedId, if_neg h, String.toList_append, String.toList_append, List.append_assoc]
  rfl

/-- An id tells its base and its number, provided that a base has one dash. -/
theorem numberedId_inj {b c : String} (hb : b.toList.count '-' = 1) (hc : c.toList.count '-' = 1)
    {m n : Nat} (hm : 0 < m) (hn : 0 < n) (h : numberedId b m = numberedId c n) :
    b = c ∧ m = n := by
  -- an id with a number has one dash more than its base
  have hcount : ∀ {s : String} {n : Nat}, s.toList.count '-' = 1 →
      (numberedId s n).toList.count '-' = if n ≤ 1 then 1 else 2 := by
    intro s n hs
    split
    case isTrue hn => rw [numberedId, if_pos hn, hs]
    case isFalse hn =>
      rw [toList_numberedId s hn, List.count_append, List.count_cons_self, hs,
        List.count_eq_zero.mpr (dash_not_mem_toString n)]
  have hdashes : (if m ≤ 1 then 1 else 2) = if n ≤ 1 then 1 else 2 := by
    rw [← hcount hb, ← hcount hc, h]
  by_cases hm1 : m ≤ 1
  · have hn1 : n ≤ 1 := by
      by_contra hn1
      simp [hm1, hn1] at hdashes
    rw [numberedId, numberedId, if_pos hm1, if_pos hn1] at h
    exact ⟨h, by omega⟩
  · have hn1 : ¬n ≤ 1 := by
      intro hn1
      simp [hm1, hn1] at hdashes
    have hlist := congrArg String.toList h
    rw [toList_numberedId b hm1, toList_numberedId c hn1] at hlist
    obtain ⟨hbase, hnumber⟩ :=
      append_cons_inj (dash_not_mem_toString m) (dash_not_mem_toString n) hlist
    exact ⟨String.toList_inj.mp hbase, toString_inj (String.toList_inj.mp hnumber)⟩

/-! ## The ids of a list -/

/-- A base has one dash if no digest has one. -/
theorem count_baseId {i : Issue} (h : '-' ∉ (digestOf i).toList) :
    (baseId digestOf i).toList.count '-' = 1 := by
  have hname : i.kind.name.toList.count '-' = 0 :=
    List.count_eq_zero.mpr (dash_not_mem_name i.kind)
  rw [baseId, String.toList_append, String.toList_append, List.count_append, List.count_append,
    hname, List.count_eq_zero.mpr h]
  rfl

theorem exists_of_mem_assignIdsAfter : ∀ {issues : List Issue} {used : List String} {j : Issue},
    j ∈ assignIdsAfter digestOf used issues → ∃ i ∈ issues, ∃ n,
      used.count (baseId digestOf i) < n ∧ j = { i with id := numberedId (baseId digestOf i) n }
  | i :: is, used, j, h => by
      rw [assignIdsAfter] at h
      rcases List.mem_cons.mp h with rfl | h
      · exact ⟨i, List.mem_cons_self .., _, Nat.lt_succ_self _, rfl⟩
      · obtain ⟨i', hi', n, hn, rfl⟩ := exists_of_mem_assignIdsAfter h
        exact ⟨i', List.mem_cons_of_mem i hi', n, lt_of_le_of_lt List.count_le_count_cons hn, rfl⟩

theorem pairwise_id_assignIdsAfter (hdigest : ∀ i, '-' ∉ (digestOf i).toList) :
    ∀ (issues : List Issue) (used : List String),
      (assignIdsAfter digestOf used issues).Pairwise fun i j => i.id ≠ j.id
  | [], _ => List.Pairwise.nil
  | i :: is, used => by
      rw [assignIdsAfter]
      refine List.Pairwise.cons (fun j hj heq => ?_) (pairwise_id_assignIdsAfter hdigest is _)
      obtain ⟨i', -, n, hn, rfl⟩ := exists_of_mem_assignIdsAfter hj
      obtain ⟨hbase, hnumber⟩ := numberedId_inj (count_baseId (hdigest i))
        (count_baseId (hdigest i')) (Nat.succ_pos _) (Nat.lt_of_le_of_lt (Nat.zero_le _) hn) heq
      rw [hbase, List.count_cons_self] at hn
      rw [hbase] at hnumber
      omega

/-- Assigning ids changes nothing but the ids. -/
theorem map_assignIdsAfter {α : Type} {f : Issue → α}
    (hf : ∀ (i : Issue) (id : String), f { i with id := id } = f i) :
    ∀ (issues : List Issue) (used : List String),
      (assignIdsAfter digestOf used issues).map f = issues.map f
  | [], _ => rfl
  | i :: is, used => by
      rw [assignIdsAfter, List.map_cons, hf, map_assignIdsAfter hf is, List.map_cons]

/-- Issues of one list have ids of their own. -/
theorem pairwise_id_assignIds (hdigest : ∀ i, '-' ∉ (digestOf i).toList) (issues : List Issue) :
    (assignIds digestOf issues).Pairwise fun i j => i.id ≠ j.id :=
  pairwise_id_assignIdsAfter hdigest issues []

/-- An issue of a list with its ids is one of the list, up to its id. -/
theorem exists_of_mem_assignIds {issues : List Issue} {j : Issue}
    (h : j ∈ assignIds digestOf issues) : ∃ i ∈ issues, ∃ id, j = { i with id := id } := by
  obtain ⟨i, hi, n, -, rfl⟩ := exists_of_mem_assignIdsAfter h
  exact ⟨i, hi, _, rfl⟩

theorem exists_mem_assignIdsAfter {i : Issue} : ∀ {issues : List Issue} {used : List String},
    i ∈ issues → ∃ id, { i with id := id } ∈ assignIdsAfter digestOf used issues
  | j :: is, used, h => by
      rw [assignIdsAfter]
      rcases List.mem_cons.mp h with rfl | h
      · exact ⟨_, List.mem_cons_self ..⟩
      · obtain ⟨id, hid⟩ := exists_mem_assignIdsAfter h
        exact ⟨id, List.mem_cons_of_mem _ hid⟩

/-- Every issue of a list gets an id. -/
theorem exists_mem_assignIds {issues : List Issue} {i : Issue} (h : i ∈ issues) :
    ∃ id, { i with id := id } ∈ assignIds digestOf issues :=
  exists_mem_assignIdsAfter h

theorem dash_not_mem_digest (i : Issue) : '-' ∉ (digest i).toList := by
  have hdigit : ∀ n < 16, Nat.digitChar n ≠ '-' := by decide
  rw [digest, Sha256.hexOfString, String.toList_ofList, List.mem_flatMap]
  rintro ⟨b, -, hb⟩
  have hbyte := b.toNat_lt
  rcases List.mem_cons.mp hb with hb | hb
  · exact hdigit _ (by omega) hb.symm
  · exact hdigit _ (by omega) (List.mem_singleton.mp hb).symm

/-- The first issue of a list with the id of one of its issues is that issue. -/
theorem find?_id {issues : List Issue} (h : issues.Pairwise fun i j => i.id ≠ j.id) {i : Issue}
    (hi : i ∈ issues) : issues.find? (fun j => j.id = i.id) = some i := by
  obtain ⟨before, behind, rfl⟩ := List.append_of_mem hi
  rw [List.find?_eq_some_iff_append]
  refine ⟨by simp, before, behind, rfl, fun j hj => ?_⟩
  have hne := (List.pairwise_append.mp h).2.2 j hj i (List.mem_cons_self ..)
  simpa using hne

end Issue

end DesignTokens
