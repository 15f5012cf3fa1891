import Mathlib.Algebra.GroupWithZero.Nat
import DesignTokens.Proofs.Policy
import DesignTokens.Proofs.Rewrite.Balance

/-!
# The records of a rewriting

A rewriting tells what it has done, and tells all of it (`audited_applyTraced`).
The edits that have something to do lead from the source to the result, each from
the text that the one before it has left, and there is one record for each of
them and none besides (`Trail`). So without a record nothing has changed.

The edits of a pass are one for each mapping, for each bucket or for each
reserved name, and a record carries the pass and the id of the edit that left it.
Therefore the records of a pass answer to what the pass has been asked for, at
most one record to each (`Answers`). The numbers of the result are those that are
kept while the passes run (`countPasses`).
-/

namespace DesignTokens.Rewrite

open Text Source

/-! ## Trails -/

/-- The edits lead from a text to another, each from the text that the one before it has left, and
each leaves its record. -/
inductive Trail : List Edit → List Char → List Record → List Char → Prop
  | nil {text : List Char} : Trail [] text [] text
  | cons {e : Edit} {es : List Edit} {text changed last : List Char} {r : Record}
      {rs : List Record} (hedit : e text = some (changed, r)) (hlater : Trail es changed rs last) :
      Trail (e :: es) text (r :: rs) last

section

variable {es es' : List Edit} {text mid last : List Char} {rs rs' : List Record}

theorem Trail.append (h : Trail es text rs mid) (h' : Trail es' mid rs' last) :
    Trail (es ++ es') text (rs ++ rs') last := by
  induction h with
  | nil => exact h'
  | cons hedit _ ih => exact .cons hedit (ih h')

/-- A record was left by its edit. -/
theorem Trail.forall₂ (h : Trail es text rs last) :
    List.Forall₂ (fun e r => ∃ t changed, e t = some (changed, r)) es rs := by
  induction h with
  | nil => exact .nil
  | cons hedit _ ih => exact .cons ⟨_, _, hedit⟩ ih

theorem Trail.exists_edit (h : Trail es text rs last) {r : Record} (hr : r ∈ rs) :
    ∃ e ∈ es, ∃ t changed, e t = some (changed, r) := by
  induction h with
  | nil => cases hr
  | @cons e _ _ _ _ _ _ hedit _ ih =>
      rcases List.mem_cons.mp hr with rfl | hr
      · exact ⟨e, List.mem_cons_self .., _, _, hedit⟩
      · obtain ⟨e', he', hleft⟩ := ih hr
        exact ⟨e', List.mem_cons_of_mem e he', hleft⟩

theorem Trail.eq_of_nil (h : Trail es text [] last) : last = text := by
  cases h with
  | nil => rfl

theorem exists_trail_runEdits : ∀ (edits : List Edit) (text : List Char),
    ∃ made : List Edit, made.Sublist edits ∧
      Trail made text (runEdits edits text).2 (runEdits edits text).1
  | [], _ => ⟨[], .refl _, .nil⟩
  | e :: es, text => by
      rw [runEdits]
      cases hedit : e text with
      | none =>
          obtain ⟨made, hmade, htrail⟩ := exists_trail_runEdits es text
          exact ⟨made, hmade.cons e, htrail⟩
      | some x =>
          obtain ⟨made, hmade, htrail⟩ := exists_trail_runEdits es x.1
          exact ⟨e :: made, hmade.cons_cons e, .cons hedit htrail⟩

/-- The edits of all passes that have something to do lead from the source to the result. -/
theorem exists_trail_runPasses (m : MappingSet) (policy : Policy) :
    ∀ (ps : List Pass) (text : List Char), ∃ made : List Edit,
      made.Sublist (ps.flatMap (Pass.edits m policy)) ∧
        Trail made text (runPasses m policy ps text).2 (runPasses m policy ps text).1
  | [], _ => ⟨[], .refl _, .nil⟩
  | p :: ps, text => by
      obtain ⟨made, hmade, htrail⟩ := exists_trail_runEdits (p.edits m policy) text
      obtain ⟨later, hlater, htrail'⟩ :=
        exists_trail_runPasses m policy ps (runEdits (p.edits m policy) text).1
      exact ⟨made ++ later, hmade.append hlater, htrail.append htrail'⟩

end

/-! ## The records of a pass -/

section

variable {m : MappingSet} {policy : Policy} {p : Pass} {ps : List Pass} {text : List Char}

theorem pass_of_mem_runEdits {r : Record} (h : r ∈ (runEdits (p.edits m policy) text).2) :
    r.pass = p := by
  obtain ⟨made, hmade, htrail⟩ := exists_trail_runEdits (p.edits m policy) text
  obtain ⟨e, he, t, changed, hedit⟩ := htrail.exists_edit h
  exact pass_of_mem_edits (hmade.subset he) hedit

theorem pass_of_mem_runPasses : ∀ {ps : List Pass} {text : List Char} {r : Record},
    r ∈ (runPasses m policy ps text).2 → r.pass ∈ ps
  | p :: ps, _, r, h => by
      rcases List.mem_append.mp h with h | h
      · rw [pass_of_mem_runEdits h]
        exact List.mem_cons_self ..
      · exact List.mem_cons_of_mem p (pass_of_mem_runPasses h)

/-- Passes in some order leave records in that order. -/
theorem pairwise_runPasses {R : Pass → Pass → Prop} (hrefl : ∀ p, R p p) :
    ∀ {ps : List Pass} {text : List Char}, ps.Pairwise R →
      (runPasses m policy ps text).2.Pairwise fun a b => R a.pass b.pass
  | [], _, _ => .nil
  | p :: ps, text, h => by
      obtain ⟨hfirst, hlater⟩ := List.pairwise_cons.mp h
      refine List.pairwise_append.mpr ⟨?_, pairwise_runPasses hrefl hlater, ?_⟩
      · refine List.pairwise_iff_forall_sublist.mpr fun {a b} hab => ?_
        have ha := pass_of_mem_runEdits (hab.subset (List.mem_cons_self ..))
        have hb := pass_of_mem_runEdits
          (hab.subset (List.mem_cons_of_mem a (List.mem_singleton_self b)))
        rw [ha, hb]
        exact hrefl p
      · intro a ha b hb
        rw [pass_of_mem_runEdits ha]
        exact hfirst b.pass (pass_of_mem_runPasses hb)

/-- The records that are marked with a pass. -/
def recordsOf (p : Pass) (records : List Record) : List Record :=
  records.filter fun r => r.pass = p

theorem recordsOf_eq_self {records : List Record} (h : ∀ r ∈ records, r.pass = p) :
    recordsOf p records = records :=
  List.filter_eq_self.mpr fun r hr => decide_eq_true (h r hr)

theorem recordsOf_eq_nil {records : List Record} (h : ∀ r ∈ records, r.pass ≠ p) :
    recordsOf p records = [] :=
  List.filter_eq_nil_iff.mpr fun r hr => by simpa using h r hr

/-- The records that are marked with a pass are those that the pass has left, on whatever text the
passes before it have made. -/
theorem exists_recordsOf_runPasses : ∀ {ps : List Pass} (text : List Char), ps.Nodup → p ∈ ps →
    ∃ t, recordsOf p (runPasses m policy ps text).2 = (runEdits (p.edits m policy) t).2
  | q :: ps, text, hnodup, hp => by
      obtain ⟨hq, hnodup⟩ := List.nodup_cons.mp hnodup
      rw [runPasses, recordsOf, List.filter_append]
      by_cases heq : p = q
      · subst heq
        refine ⟨text, ?_⟩
        have hnone :
            recordsOf p (runPasses m policy ps (runEdits (p.edits m policy) text).1).2 = [] :=
          recordsOf_eq_nil fun r hr hrp => hq (hrp ▸ pass_of_mem_runPasses hr)
        have hself : recordsOf p (runEdits (p.edits m policy) text).2
            = (runEdits (p.edits m policy) text).2 :=
          recordsOf_eq_self fun r hr => pass_of_mem_runEdits hr
        rw [recordsOf] at hnone hself
        rw [hnone, hself, List.append_nil]
      · have hnone : recordsOf p (runEdits (q.edits m policy) text).2 = [] :=
          recordsOf_eq_nil fun r hr hrp => heq (hrp.symm.trans (pass_of_mem_runEdits hr))
        rw [recordsOf] at hnone
        rw [hnone, List.nil_append]
        exact exists_recordsOf_runPasses _ hnodup ((List.mem_cons.mp hp).resolve_left heq)

end

/-! ## Records that answer to what was asked for -/

/-- Each record was left by the edit of something asked for and has its id. The records stand in the
order of what they answer to, and there is one to each at most. -/
def Answers {α : Type} (edit : α → Edit) (id : α → Option String) (asked : List α)
    (records : List Record) : Prop :=
  ∃ used : List α, used.Sublist asked ∧
    List.Forall₂ (fun x r => r.issueId = id x ∧ ∃ t changed, edit x t = some (changed, r))
      used records

theorem answers_runEdits {α : Type} {edit : α → Edit} {id : α → Option String}
    (hid : ∀ x t changed r, edit x t = some (changed, r) → r.issueId = id x) (asked : List α)
    (text : List Char) : Answers edit id asked (runEdits (asked.map edit) text).2 := by
  obtain ⟨made, hmade, htrail⟩ := exists_trail_runEdits (asked.map edit) text
  obtain ⟨used, hused, rfl⟩ := List.sublist_map_iff.mp hmade
  refine ⟨used, hused, ?_⟩
  refine (List.forall₂_map_left_iff.mp htrail.forall₂).imp fun x r hleft => ?_
  obtain ⟨t, changed, hedit⟩ := hleft
  exact ⟨hid x t changed r hedit, t, changed, hedit⟩

/-! ## Numbers -/

/-- The number of records of each pass that has left any. -/
def counts (ps : List Pass) (records : List Record) : List (String × Nat) :=
  ps.filterMap fun p =>
    let n := records.countP fun r => r.pass = p
    if n = 0 then none else some (p.name, n)

theorem mem_counts_iff {ps : List Pass} {records : List Record} {name : String} {n : Nat} :
    (name, n) ∈ counts ps records
      ↔ n ≠ 0 ∧ ∃ p ∈ ps, p.name = name ∧ (recordsOf p records).length = n := by
  simp only [counts, List.mem_filterMap, recordsOf, ← List.countP_eq_length_filter,
    Option.ite_none_left_eq_some, Option.some.injEq, Prod.mk.injEq]
  constructor
  · rintro ⟨p, hp, hn, hname, rfl⟩
    exact ⟨hn, p, hp, hname, rfl⟩
  · rintro ⟨hn, p, hp, hname, rfl⟩
    exact ⟨p, hp, hn, hname, rfl⟩

theorem sum_counts (ps : List Pass) (records : List Record) :
    ((counts ps records).map (·.2)).sum
      = (ps.map fun p => records.countP fun r => r.pass = p).sum := by
  induction ps with
  | nil => rfl
  | cons p ps ih =>
      rw [List.map_cons, List.sum_cons, ← ih, counts, counts, List.filterMap_cons]
      by_cases hn : records.countP (fun r => r.pass = p) = 0
      · simp only [hn, if_true, Nat.zero_add]
      · simp only [if_neg hn, List.map_cons, List.sum_cons]

theorem sublist_counts (ps : List Pass) (records : List Record) :
    ((counts ps records).map (·.1)).Sublist (ps.map Pass.name) := by
  induction ps with
  | nil => exact .slnil
  | cons p ps ih =>
      rw [counts, List.filterMap_cons]
      by_cases hn : records.countP (fun r => r.pass = p) = 0
      · simp only [hn, if_true]
        exact ih.cons p.name
      · simp only [if_neg hn]
        exact ih.cons_cons p.name

/-- Every record is counted for one pass. -/
theorem sum_countP_pass (records : List Record) :
    (Pass.all.map fun p => records.countP fun r => r.pass = p).sum = records.length := by
  induction records with
  | nil => rfl
  | cons r records ih =>
      simp only [Pass.all, List.map_cons, List.map_nil, List.sum_cons, List.sum_nil,
        List.countP_cons, List.length_cons] at ih ⊢
      cases r.pass <;> simp <;> omega

/-! ## Numbers kept while the passes run -/

/-- Adds to the count of a name, among counts sorted by name. -/
def addCount (name : String) (n : Nat) : List (String × Nat) → List (String × Nat)
  | [] => [(name, n)]
  | (other, k) :: rest =>
    if other = name then (other, k + n) :: rest
    else if name < other then (name, n) :: (other, k) :: rest
    else (other, k) :: addCount name n rest

/-- The numbers behind one more pass, given how many records it has left. -/
def Stats.next (s : Stats) (p : Pass) (left : Nat) : Stats :=
  if left = 0 then { s with passesExecuted := s.passesExecuted + 1 }
  else ⟨s.passesExecuted + 1, s.transformations + left, addCount p.name left s.byPass⟩

/-- The numbers behind a row of passes, kept while they run. -/
def countPasses (m : MappingSet) (policy : Policy) : List Pass → List Char → Stats → Stats
  | [], _, s => s
  | p :: ps, text, s =>
    let (changed, records) := runEdits (p.edits m policy) text
    countPasses m policy ps changed (s.next p records.length)

/-- Counts are sorted by name, and no name is counted twice. -/
def Sorted (byName : List (String × Nat)) : Prop := byName.Pairwise fun a b => a.1 < b.1

theorem Sorted.nodup {byName : List (String × Nat)} (h : Sorted byName) :
    (byName.map (·.1)).Nodup :=
  List.pairwise_map.mpr (h.imp String.ne_of_lt)

theorem Sorted.eq_of_perm {a b : List (String × Nat)} (ha : Sorted a) (hb : Sorted b)
    (hperm : a.Perm b) : a = b :=
  hperm.eq_of_pairwise (fun _ _ _ _ hlt hgt => absurd hgt (String.lt_asymm hlt)) ha hb

theorem sorted_mergeSort {byName : List (String × Nat)} (h : (byName.map (·.1)).Nodup) :
    Sorted (byName.mergeSort fun a b => a.1 ≤ b.1) := by
  have hperm := List.mergeSort_perm byName fun a b => decide (a.1 ≤ b.1)
  have htrans : ∀ a b c : String × Nat,
      decide (a.1 ≤ b.1) → decide (b.1 ≤ c.1) → decide (a.1 ≤ c.1) := fun a b c hab hbc =>
    decide_eq_true (String.le_trans (of_decide_eq_true hab) (of_decide_eq_true hbc))
  have htotal : ∀ a b : String × Nat, decide (a.1 ≤ b.1) || decide (b.1 ≤ a.1) := fun a b => by
    simpa using String.le_total a.1 b.1
  have hle := List.pairwise_mergeSort htrans htotal byName
  have hne : ((byName.mergeSort fun a b => a.1 ≤ b.1).map (·.1)).Nodup :=
    (hperm.map (·.1)).nodup_iff.mpr h
  refine (hle.and (List.pairwise_map.mp hne)).imp fun {a b} hab => ?_
  exact String.not_le.mp fun hba =>
    hab.2 (String.le_antisymm (of_decide_eq_true hab.1) hba)

theorem perm_byPass (records : List Record) :
    (Stats.of records).byPass.Perm (counts Pass.all records) :=
  List.mergeSort_perm ..

theorem sorted_byPass (records : List Record) : Sorted (Stats.of records).byPass :=
  sorted_mergeSort ((sublist_counts Pass.all records).nodup (by decide))

theorem perm_addCount {name : String} {n : Nat} : ∀ {byName : List (String × Nat)},
    name ∉ byName.map (·.1) → (addCount name n byName).Perm ((name, n) :: byName)
  | [], _ => .refl _
  | (other, k) :: rest, h => by
      rw [List.map_cons, List.mem_cons, not_or] at h
      rw [addCount, if_neg (Ne.symm h.1)]
      split
      · exact .refl _
      · exact ((perm_addCount h.2).cons (other, k)).trans (.swap ..)

theorem Sorted.addCount {name : String} {n : Nat} : ∀ {byName : List (String × Nat)},
    Sorted byName → name ∉ byName.map (·.1) → Sorted (addCount name n byName)
  | [], _, _ => List.pairwise_singleton ..
  | (other, k) :: rest, h, hname => by
      rw [List.map_cons, List.mem_cons, not_or] at hname
      obtain ⟨hother, hrest⟩ := List.pairwise_cons.mp h
      rw [Rewrite.addCount, if_neg (Ne.symm hname.1)]
      split
      case isTrue hlt =>
        refine List.pairwise_cons.mpr ⟨fun x hx => ?_, h⟩
        rcases List.mem_cons.mp hx with rfl | hx
        · exact hlt
        · exact String.lt_trans hlt (hother x hx)
      case isFalse hlt =>
        have hlater : other < name := String.not_le.mp fun hle =>
          hname.1 (String.le_antisymm hle (String.not_lt.mp hlt))
        refine List.pairwise_cons.mpr ⟨fun x hx => ?_, Sorted.addCount hrest hname.2⟩
        rcases List.mem_cons.mp ((perm_addCount hname.2).subset hx) with rfl | hx
        · exact hlater
        · exact hother x hx

/-- The numbers are those of an earlier moment with so many passes and records and with the given
counts of further names. -/
structure Stats.Behind (before after : Stats) (passes made : Nat)
    (more : List (String × Nat)) : Prop where
  passesExecuted : after.passesExecuted = before.passesExecuted + passes
  transformations : after.transformations = before.transformations + made
  sorted : Sorted after.byPass
  perm : after.byPass.Perm (more ++ before.byPass)

theorem Stats.Behind.trans {a b c : Stats} {i j k l : Nat} {more later : List (String × Nat)}
    (h : b.Behind c i j later) (h' : a.Behind b k l more) :
    a.Behind c (k + i) (l + j) (more ++ later) where
  passesExecuted := by rw [h.passesExecuted, h'.passesExecuted, Nat.add_assoc]
  transformations := by rw [h.transformations, h'.transformations, Nat.add_assoc]
  sorted := h.sorted
  perm := by
    refine (h.perm.trans (h'.perm.append_left later)).trans ?_
    rw [List.append_assoc]
    exact List.perm_append_comm_assoc ..

section

variable {m : MappingSet} {policy : Policy} {p : Pass} {ps : List Pass} {s : Stats}

/-- The count of a pass, if it has left any record. -/
def countOf (p : Pass) (left : Nat) : List (String × Nat) :=
  if left = 0 then [] else [(p.name, left)]

theorem Stats.behind_next (hs : Sorted s.byPass) (hp : p.name ∉ s.byPass.map (·.1)) (left : Nat) :
    s.Behind (s.next p left) 1 left (countOf p left) := by
  rw [Stats.next, countOf]
  split
  case isTrue hleft => exact ⟨rfl, by rw [hleft]; rfl, hs, .refl _⟩
  case isFalse => exact ⟨rfl, rfl, hs.addCount hp, perm_addCount hp⟩

theorem counts_cons {records later : List Record} (hrecords : ∀ r ∈ records, r.pass = p)
    (hlater : ∀ r ∈ later, r.pass ∈ ps) (hp : p ∉ ps) :
    counts (p :: ps) (records ++ later) = countOf p records.length ++ counts ps later := by
  have hfirst : (records ++ later).countP (fun r => r.pass = p) = records.length := by
    have hself : records.countP (fun r => r.pass = p) = records.length :=
      List.countP_eq_length.mpr fun r hr => decide_eq_true (hrecords r hr)
    have hnone : later.countP (fun r => r.pass = p) = 0 :=
      List.countP_eq_zero.mpr fun r hr hrp => hp (of_decide_eq_true hrp ▸ hlater r hr)
    rw [List.countP_append, hself, hnone, Nat.add_zero]
  have hother : ∀ q ∈ ps, (records ++ later).countP (fun r => r.pass = q)
      = later.countP fun r => r.pass = q := by
    intro q hq
    have hnone : records.countP (fun r => r.pass = q) = 0 :=
      List.countP_eq_zero.mpr fun r hr hrq =>
        hp (hrecords r hr ▸ of_decide_eq_true hrq ▸ hq)
    rw [List.countP_append, hnone, Nat.zero_add]
  have hrest : counts ps (records ++ later) = counts ps later :=
    List.filterMap_congr fun q hq => by rw [hother q hq]
  rw [← hrest, counts, List.filterMap_cons, hfirst, counts, countOf]
  by_cases hn : records.length = 0
  · simp only [hn, if_true, List.nil_append]
  · simp only [if_neg hn, List.singleton_append]

/-- The numbers that passes of distinct names leave are those of their records. -/
theorem behind_countPasses : ∀ {ps : List Pass} (text : List Char) {s : Stats},
    (ps.map Pass.name).Nodup → Sorted s.byPass → (∀ p ∈ ps, p.name ∉ s.byPass.map (·.1)) →
    s.Behind (countPasses m policy ps text s) ps.length (runPasses m policy ps text).2.length
      (counts ps (runPasses m policy ps text).2)
  | [], _, _, _, hs, _ => ⟨rfl, rfl, hs, .refl _⟩
  | p :: ps, text, s, hnames, hs, hnew => by
      rw [List.map_cons, List.nodup_cons] at hnames
      obtain ⟨hp, hps⟩ := List.forall_mem_cons.mp hnew
      have hnext := Stats.behind_next hs hp (runEdits (p.edits m policy) text).2.length
      have hlater := behind_countPasses (runEdits (p.edits m policy) text).1 hnames.2 hnext.sorted
        fun q hq hmem => by
          obtain ⟨x, hx, hname⟩ := List.mem_map.mp hmem
          rcases List.mem_append.mp (hnext.perm.subset hx) with hx | hx
          · rw [countOf] at hx
            split at hx
            · exact List.not_mem_nil hx
            · obtain rfl := List.mem_singleton.mp hx
              exact hnames.1 (List.mem_map.mpr ⟨q, hq, hname.symm⟩)
          · exact hps q hq (hname ▸ List.mem_map_of_mem hx)
      have hboth := hlater.trans hnext
      rw [countPasses, runPasses]
      dsimp only
      rw [counts_cons (fun r hr => pass_of_mem_runEdits hr) (fun r hr => pass_of_mem_runPasses hr)
        fun hmem => hnames.1 (List.mem_map_of_mem hmem), List.length_append, List.length_cons,
        Nat.add_comm ps.length 1]
      exact hboth

/-- The numbers of a result are those kept while its passes ran. -/
theorem stats_applyTraced (m : MappingSet) (policy : Policy) (text : List Char) :
    (applyTraced text m policy).stats = countPasses m policy Pass.all text ⟨0, 0, []⟩ := by
  have hbehind : Stats.Behind ⟨0, 0, []⟩ (countPasses m policy Pass.all text ⟨0, 0, []⟩)
      Pass.all.length (runPasses m policy Pass.all text).2.length
      (counts Pass.all (runPasses m policy Pass.all text).2) :=
    behind_countPasses text (by decide) .nil fun _ _ => List.not_mem_nil
  obtain ⟨hexecuted, hmade, hsorted, hperm⟩ := hbehind
  rw [List.append_nil] at hperm
  have hbyPass := hsorted.eq_of_perm (sorted_byPass _) (hperm.trans (perm_byPass _).symm)
  rw [Nat.zero_add] at hexecuted hmade
  cases hafter : countPasses m policy Pass.all text ⟨0, 0, []⟩ with
  | mk executed made byPass =>
      rw [hafter] at hexecuted hmade hbyPass
      dsimp only at hexecuted hmade hbyPass
      rw [hexecuted, hmade, hbyPass]
      rfl

end

/-! ## One token to a bucket -/

/-- The buckets of mappings. -/
def buckets (ms : List SpacingMapping) : List Bucket := ms.map fun m => Bucket.of m.property

theorem buckets_putWinner (m : SpacingMapping) : ∀ ws : List SpacingMapping,
    buckets (putWinner m ws)
      = if Bucket.of m.property ∈ buckets ws then buckets ws
        else buckets ws ++ [Bucket.of m.property]
  | [] => rfl
  | w :: ws => by
      have ih := buckets_putWinner m ws
      rw [putWinner]
      by_cases heq : Bucket.of w.property = Bucket.of m.property
      · rw [if_pos heq, if_pos (heq ▸ List.mem_cons_self ..)]
        exact congrArg (· :: buckets ws) heq.symm
      · have hmem : Bucket.of m.property ∈ buckets (w :: ws)
            ↔ Bucket.of m.property ∈ buckets ws := by
          rw [buckets, List.map_cons, List.mem_cons, or_iff_right (Ne.symm heq), buckets]
        rw [if_neg heq]
        refine (congrArg (Bucket.of w.property :: ·) ih).trans ?_
        simp only [hmem]
        split <;> rfl

theorem nodup_buckets_putWinner {ws : List SpacingMapping} (m : SpacingMapping)
    (h : (buckets ws).Nodup) : (buckets (putWinner m ws)).Nodup := by
  rw [buckets_putWinner]
  split
  case isTrue => exact h
  case isFalse hnew =>
    refine List.nodup_append.mpr ⟨h, List.nodup_singleton _, fun a ha b hb hab => ?_⟩
    exact hnew (List.mem_singleton.mp hb ▸ hab ▸ ha)

/-- At most one mapping of a bucket is acted on. -/
theorem nodup_buckets_winners (ms : List SpacingMapping) : (buckets (winners ms)).Nodup := by
  suffices hfold : ∀ (ms ws : List SpacingMapping), (buckets ws).Nodup →
      (buckets (ms.foldl (fun ws m => putWinner m ws) ws)).Nodup from hfold ms [] .nil
  intro ms
  induction ms with
  | nil => exact fun _ h => h
  | cons m ms ih => exact fun ws h => ih (putWinner m ws) (nodup_buckets_putWinner m h)

/-! ## The whole of it -/

/-- The place of a pass among the passes. -/
def Pass.place (p : Pass) : Nat := Pass.all.idxOf p

/-- The records and numbers of a result tell what has been done, and all of it. -/
structure Audited (text : List Char) (m : MappingSet) (policy : Policy) (r : Result) : Prop where
  transformations : r.stats.transformations = r.records.length
  sum_byPass : (r.stats.byPass.map (·.2)).sum = r.records.length
  mem_byPass : ∀ name n, (name, n) ∈ r.stats.byPass
    ↔ n ≠ 0 ∧ ∃ p : Pass, p.name = name ∧ (recordsOf p r.records).length = n
  sorted_byPass : Sorted r.stats.byPass
  /-- The numbers are those that are kept while the passes run. -/
  kept : r.stats = countPasses m policy Pass.all text ⟨0, 0, []⟩
  ordered : r.records.Pairwise fun a b => a.pass.place ≤ b.pass.place
  colors : Answers colorEdit (some ·.issueId) m.colors (recordsOf .colors r.records)
  spacing : Answers spacingEdit (some ·.issueId) (winners m.spacing) (recordsOf .spacing r.records)
  mem_winners : ∀ w ∈ winners m.spacing, w ∈ m.spacing
  nodup_winners : (buckets (winners m.spacing)).Nodup
  variants : Answers (variantEdit policy.variantCall.toList) (some ·.issueId) m.variants
    (recordsOf .variants r.records)
  reserved : Answers (fun x => reservedEdit policy.variantCall.toList x.1 x.2) (fun _ => none)
    policy.reserved (recordsOf .reservedNames r.records)
  nodup_reserved : (policy.reserved.map (·.1)).Nodup
  /-- The edits that left the records lead from the source to the result. -/
  trail : ∃ made : List Edit, made.Sublist (Pass.all.flatMap (Pass.edits m policy)) ∧
    Trail made text r.records r.text
  silent : r.records = [] → r.text = text

theorem Pass.mem_all (p : Pass) : p ∈ Pass.all := by cases p <;> decide

theorem Pass.nodup_all : Pass.all.Nodup := by decide

section

variable {m : MappingSet} {policy : Policy} {text : List Char}

theorem answers_applyTraced {α : Type} {edit : α → Edit} {id : α → Option String} (p : Pass)
    (asked : List α) (hid : ∀ x t changed r, edit x t = some (changed, r) → r.issueId = id x)
    (hedits : p.edits m policy = asked.map edit) :
    Answers edit id asked (recordsOf p (applyTraced text m policy).records) := by
  obtain ⟨t, ht⟩ : ∃ t, recordsOf p (applyTraced text m policy).records
      = (runEdits (p.edits m policy) t).2 :=
    exists_recordsOf_runPasses text Pass.nodup_all p.mem_all
  rw [ht, hedits]
  exact answers_runEdits hid asked t

/-- A rewriting by a valid policy tells all that it has done. -/
theorem audited_applyTraced (hpolicy : policy.Valid) (text : List Char) (m : MappingSet) :
    Audited text m policy (applyTraced text m policy) := by
  obtain ⟨made, hmade, htrail⟩ := exists_trail_runPasses m policy Pass.all text
  have hbyPass := perm_byPass (applyTraced text m policy).records
  have hordered : (runPasses m policy Pass.all text).2.Pairwise
      fun a b => a.pass.place ≤ b.pass.place :=
    pairwise_runPasses (R := fun p q => p.place ≤ q.place) (fun p => Nat.le_refl _) (by decide)
  exact
    { transformations := rfl
      sum_byPass := ((hbyPass.map fun x => x.2).sum_nat).trans
        ((sum_counts ..).trans (sum_countP_pass _))
      mem_byPass := fun name n =>
        hbyPass.mem_iff.trans <| mem_counts_iff.trans <| and_congr_right fun _ =>
          ⟨fun ⟨p, _, h⟩ => ⟨p, h⟩, fun ⟨p, h⟩ => ⟨p, p.mem_all, h⟩⟩
      sorted_byPass := sorted_byPass _
      kept := stats_applyTraced m policy text
      ordered := hordered
      colors := answers_applyTraced .colors m.colors (fun _ _ _ _ h => (left_colorEdit h).2) rfl
      spacing := answers_applyTraced .spacing (winners m.spacing)
        (fun _ _ _ _ h => (left_spacingEdit h).2) rfl
      mem_winners := fun _ hw => mem_of_mem_winners hw
      nodup_winners := nodup_buckets_winners m.spacing
      variants := answers_applyTraced .variants m.variants
        (fun _ _ _ _ h => (left_variantEdit h).2) rfl
      reserved := answers_applyTraced .reservedNames policy.reserved
        (fun _ _ _ _ h => (left_reservedEdit h).2) rfl
      nodup_reserved := hpolicy.nodup
      trail := ⟨made, hmade, htrail⟩
      silent := fun h => by
        have h' : (runPasses m policy Pass.all text).2 = [] := h
        rw [h'] at htrail
        exact htrail.eq_of_nil }

end

/-- A source in which each pass finds something to do. -/
def busySource : List Char :=
  ("function B(\x7b type \x7d) \x7b \x7d\n"
    ++ "cva(\"bg-[#fff] h-[40px]\", \x7b variants: \x7b type: \x7b a: \"\" \x7d \x7d \x7d)").toList

/-- Mappings for `busySource`, two of them for one bucket. -/
def busyMappings : MappingSet where
  colors := [⟨"color", "#fff", "bg-primary"⟩]
  spacing := [⟨"tall", .height, "h-8"⟩, ⟨"taller", .height, "h-10"⟩]
  variants := [⟨"variant", "type", ["b"]⟩]

theorem audited_busySource :
    Policy.builtin.Valid ∧
      Audited busySource busyMappings Policy.builtin
        (applyTraced busySource busyMappings Policy.builtin) ∧
      (applyTraced busySource busyMappings Policy.builtin).records.map
          (fun r => (r.pass, r.issueId))
        = [(.colors, some "color"), (.spacing, some "taller"), (.variants, some "variant"),
          (.reservedNames, none)] :=
  ⟨Policy.valid_builtin, audited_applyTraced Policy.valid_builtin busySource busyMappings,
    by decide⟩

end DesignTokens.Rewrite
