import DesignTokens.Proofs.Source.KeyPlace

/-!
# Closed texts

The brace that matches an opening one is the first one behind a text that closes
every brace it opens and no other (`Closed`). So what stands between two matching
braces is closed (`closed_of_matchingBrace`), and any closed text can stand there
(`matchingBrace?_of_closed`). An object inside of another one can be exchanged
(`Closed.exchange`).
-/

namespace DesignTokens.Source

open Text

/-! ## Open braces -/

/-- The number of open braces behind divided characters, unless they close the last one that is
open before them. -/
def openAfter : Nat → List (Char × Region) → Option Nat
  | depth, [] => some depth
  | depth, (c, r) :: cs =>
    if r = .code && c = '\x7b' then openAfter (depth + 1) cs
    else if r = .code && c = '\x7d' then
      match depth with
      | 0 => none
      | 1 => none
      | depth + 2 => openAfter (depth + 1) cs
    else openAfter depth cs

theorem openAfter_open (depth : Nat) (cs : List (Char × Region)) :
    openAfter depth (('\x7b', .code) :: cs) = openAfter (depth + 1) cs := rfl

theorem openAfter_close (depth : Nat) (cs : List (Char × Region)) :
    openAfter (depth + 2) (('\x7d', .code) :: cs) = openAfter (depth + 1) cs := rfl

theorem openAfter_other {c : Char} {r : Region} (hopen : ¬(r = .code && c = '\x7b') = true)
    (hclose : ¬(r = .code && c = '\x7d') = true) (depth : Nat) (cs : List (Char × Region)) :
    openAfter depth ((c, r) :: cs) = openAfter depth cs := by
  rw [openAfter.eq_def]
  exact (if_neg hopen).trans (if_neg hclose)

/-- Opening braces, closing braces and other characters. -/
theorem brace_cases (c : Char) (r : Region) :
    (c = '\x7b' ∧ r = .code) ∨ (c = '\x7d' ∧ r = .code) ∨
      (¬(r = .code && c = '\x7b') = true ∧ ¬(r = .code && c = '\x7d') = true) := by
  by_cases hopen : (r = .code && c = '\x7b') = true
  · simp only [Bool.and_eq_true, decide_eq_true_eq] at hopen
    exact .inl hopen.symm
  · by_cases hclose : (r = .code && c = '\x7d') = true
    · simp only [Bool.and_eq_true, decide_eq_true_eq] at hclose
      exact .inr (.inl hclose.symm)
    · exact .inr (.inr ⟨hopen, hclose⟩)

theorem openAfter_append (b : List (Char × Region)) : ∀ (a : List (Char × Region)) (depth : Nat),
    openAfter depth (a ++ b) = (openAfter depth a).bind (openAfter · b)
  | [], _ => rfl
  | (c, r) :: a, depth => by
      rw [List.cons_append]
      rcases brace_cases c r with ⟨rfl, rfl⟩ | ⟨rfl, rfl⟩ | ⟨hopen, hclose⟩
      · exact openAfter_append b a (depth + 1)
      · rcases depth with - | - | depth
        · rfl
        · rfl
        · exact openAfter_append b a (depth + 1)
      · rw [openAfter_other hopen hclose, openAfter_other hopen hclose, openAfter_append b a]

theorem openAfter_add {n : Nat} (k : Nat) : ∀ {a : List (Char × Region)} {depth : Nat},
    openAfter depth a = some n → openAfter (depth + k) a = some (n + k)
  | [], _, h => congrArg (Option.map (· + k)) h
  | (c, r) :: a, depth, h => by
      rcases brace_cases c r with ⟨rfl, rfl⟩ | ⟨rfl, rfl⟩ | ⟨hopen, hclose⟩
      · rw [openAfter_open] at h ⊢
        rw [Nat.add_right_comm]
        exact openAfter_add k h
      · rcases depth with - | - | depth
        · cases h
        · cases h
        · rw [openAfter_close] at h
          have hdepth : depth + 1 + 1 + k = depth + k + 2 := by omega
          rw [hdepth, openAfter_close, Nat.add_right_comm]
          exact openAfter_add k h
      · rw [openAfter_other hopen hclose] at h ⊢
        exact openAfter_add k h

theorem openAfter_pos {n : Nat} : ∀ {a : List (Char × Region)} {depth : Nat},
    openAfter depth a = some n → 0 < depth → 0 < n
  | [], _, h, hdepth => by
      obtain rfl := Option.some.inj h
      exact hdepth
  | (c, r) :: a, depth, h, hdepth => by
      rcases brace_cases c r with ⟨rfl, rfl⟩ | ⟨rfl, rfl⟩ | ⟨hopen, hclose⟩
      · exact openAfter_pos (openAfter_open depth a ▸ h) (Nat.succ_pos _)
      · rcases depth with - | - | depth
        · cases h
        · cases h
        · exact openAfter_pos (openAfter_close depth a ▸ h) (Nat.succ_pos _)
      · rw [openAfter_other hopen hclose] at h
        exact openAfter_pos h hdepth

theorem openAfter_of_no_brace {depth : Nat} : ∀ {a : List (Char × Region)},
    (∀ x ∈ a, x.1 ≠ '\x7b' ∧ x.1 ≠ '\x7d') → openAfter depth a = some depth
  | [], _ => rfl
  | (c, r) :: a, h => by
      obtain ⟨⟨hopen, hclose⟩, ha⟩ := List.forall_mem_cons.mp h
      rw [openAfter_other (by simp [hopen]) (by simp [hclose]), openAfter_of_no_brace ha]

theorem openAfter_scan {w : List Char} (hopen : '\x7b' ∉ w) (hclose : '\x7d' ∉ w) (k : Cursor)
    (depth : Nat) : openAfter depth (scan k w) = some depth := by
  refine openAfter_of_no_brace fun x hx => ?_
  have hmem : x.1 ∈ w := by
    rw [← map_fst_scan k w]
    exact List.mem_map_of_mem hx
  exact ⟨fun heq => hopen (heq ▸ hmem), fun heq => hclose (heq ▸ hmem)⟩

/-! ## The closing brace -/

theorem closingFrom_append {n : Nat} (b : List (Char × Region)) :
    ∀ {a : List (Char × Region)} {depth pos : Nat}, openAfter depth a = some n →
      closingFrom depth pos (a ++ b) = closingFrom n (pos + a.length) b
  | [], _, _, h => by
      obtain rfl := Option.some.inj h
      rfl
  | (c, r) :: a, depth, pos, h => by
      rw [List.cons_append, List.length_cons, Nat.add_comm a.length, ← Nat.add_assoc]
      rcases brace_cases c r with ⟨rfl, rfl⟩ | ⟨rfl, rfl⟩ | ⟨hopen, hclose⟩
      · rw [closingFrom_open rfl]
        exact closingFrom_append b (openAfter_open depth a ▸ h)
      · rcases depth with - | - | depth
        · cases h
        · cases h
        · exact closingFrom_append b (openAfter_close depth a ▸ h)
      · rw [closingFrom_other hopen hclose]
        exact closingFrom_append b (openAfter_other hopen hclose depth a ▸ h)

/-- The closing brace is in code, and behind what stands in front of it one brace is open. -/
theorem exists_divided_of_closingFrom {n : Nat} : ∀ {divided : List (Char × Region)}
    {depth pos : Nat}, closingFrom depth pos divided = some n →
      ∃ a b, divided = a ++ ('\x7d', .code) :: b ∧ openAfter depth a = some 1 ∧ n = pos + a.length
  | [], _, _, h => nomatch h
  | (c, r) :: divided, depth, pos, h => by
      rcases brace_cases c r with ⟨rfl, rfl⟩ | ⟨rfl, rfl⟩ | ⟨hopen, hclose⟩
      · rw [closingFrom_open rfl] at h
        obtain ⟨a, b, rfl, ha, rfl⟩ := exists_divided_of_closingFrom h
        exact ⟨_ :: a, b, rfl, ha, by rw [List.length_cons]; omega⟩
      · rcases depth with - | - | depth
        · cases h
        · obtain rfl := Option.some.inj h
          exact ⟨[], divided, rfl, rfl, rfl⟩
        · have h : closingFrom (depth + 1) (pos + 1) divided = some n := h
          obtain ⟨a, b, rfl, ha, rfl⟩ := exists_divided_of_closingFrom h
          exact ⟨_ :: a, b, rfl, ha, by rw [List.length_cons]; omega⟩
      · rw [closingFrom_other hopen hclose] at h
        obtain ⟨a, b, rfl, ha, rfl⟩ := exists_divided_of_closingFrom h
        exact ⟨_ :: a, b, rfl, (openAfter_other hopen hclose depth a).trans ha,
          by rw [List.length_cons]; omega⟩

/-! ## Closed texts -/

/-- Read from code, the text ends in code and closes every brace that it opens and no other. -/
structure Closed (text : List Char) : Prop where
  code : Cursor.code.run text = .code
  level : openAfter 1 (scan .code text) = some 1

theorem Closed.append {a b : List Char} (ha : Closed a) (hb : Closed b) (hfresh : StartsFresh b) :
    Closed (a ++ b) where
  code := by rw [Cursor.run_append hfresh, ha.code, hb.code]
  level := by
    rw [scan_append hfresh, openAfter_append, ha.level, ha.code, Option.bind_some, hb.level]

theorem closed_of_isPlain {w : List Char} (h : ∀ c ∈ w, isPlain c = true) : Closed w := by
  refine ⟨(scan_of_isPlain h).2, openAfter_scan ?_ ?_ _ _⟩ <;>
    exact fun hmem => absurd (h _ hmem) (by decide)

theorem scan_open (cs : List Char) :
    scan .code ('\x7b' :: cs) = ('\x7b', .code) :: scan .code cs ∧
      Cursor.code.run ('\x7b' :: cs) = Cursor.code.run cs :=
  ⟨rfl, rfl⟩

theorem scan_close (cs : List Char) :
    scan .code ('\x7d' :: cs) = ('\x7d', .code) :: scan .code cs ∧
      Cursor.code.run ('\x7d' :: cs) = Cursor.code.run cs :=
  ⟨rfl, rfl⟩

/-- Any closed text can stand between two matching braces. -/
theorem matchingBrace?_of_closed {inside : List Char} (h : Closed inside) (a rest : List Char) :
    matchingBrace? (a ++ '\x7b' :: (inside ++ '\x7d' :: rest)) a.length
      = some (a.length + 1 + inside.length) := by
  have hscan : scan .code (inside ++ '\x7d' :: rest)
      = scan .code inside ++ ('\x7d', .code) :: scan .code rest := by
    rw [scan_append (startsFresh_cons (by decide) rest), h.code, (scan_close rest).1]
  rw [matchingBrace?, List.drop_left, regions_eq_scan, (scan_open _).1, closingFrom_open rfl, hscan,
    closingFrom_append _ h.level, length_scan]
  rfl

/-- What stands between two matching braces is closed. -/
theorem closed_of_matchingBrace {text : List Char} {opening closing : Nat}
    (h : matchingBrace? text opening = some closing) (hopen : text[opening]? = some '\x7b') :
    Closed (between text opening closing) := by
  obtain ⟨a, rest, htext, rfl, hclosing⟩ := exists_object h hopen
  generalize between text a.length closing = inside at htext hclosing ⊢
  subst htext
  rw [matchingBrace?, List.drop_left, regions_eq_scan, (scan_open _).1, closingFrom_open rfl] at h
  obtain ⟨front, back, hscan, hlevel, hplace⟩ := exists_divided_of_closingFrom h
  rw [scan_append (startsFresh_cons (by decide) rest)] at hscan
  have hlength : (scan .code inside).length = front.length := by
    rw [length_scan]
    omega
  obtain ⟨rfl, hback⟩ := List.append_inj hscan hlength
  rw [scan] at hback
  exact ⟨Cursor.eq_code_of_region (Prod.mk.inj (List.cons.inj hback).1).2 (by decide), hlevel⟩

/-! ## Objects inside of objects -/

section

variable {inner inner' : List Char}

/-- A closed object in code leaves everything behind it as it is. -/
theorem scan_object (h : Closed inner) (depth : Nat) (rest : List Char) :
    openAfter (depth + 1) (scan .code ('\x7b' :: (inner ++ '\x7d' :: rest)))
        = openAfter (depth + 1) (scan .code rest) ∧
      Cursor.code.run ('\x7b' :: (inner ++ '\x7d' :: rest)) = Cursor.code.run rest := by
  have hfresh : StartsFresh ('\x7d' :: rest) := startsFresh_cons (by decide) rest
  constructor
  · have hlevel : openAfter (depth + 1 + 1) (scan .code inner) = some (depth + 1 + 1) := by
      rw [Nat.add_comm (depth + 1)]
      exact openAfter_add _ h.level
    rw [(scan_open _).1, openAfter_open, scan_append hfresh, openAfter_append, hlevel, h.code,
      Option.bind_some, (scan_close rest).1, openAfter_close]
  · rw [(scan_open _).2, Cursor.run_append hfresh, h.code, (scan_close rest).2]

theorem startsFresh_open (cs : List Char) : StartsFresh ('\x7b' :: cs) :=
  startsFresh_cons (by decide) cs

theorem Closed.object {front rest : List Char} (hfront : Closed front) (hinner : Closed inner)
    (hrest : Closed rest) : Closed (front ++ '\x7b' :: (inner ++ '\x7d' :: rest)) where
  code := by
    rw [Cursor.run_append (startsFresh_open _), hfront.code, (scan_object hinner 0 rest).2,
      hrest.code]
  level := by
    rw [scan_append (startsFresh_open _), openAfter_append, hfront.level, hfront.code,
      Option.bind_some, (scan_object hinner 0 rest).1, hrest.level]

/-- A closed object in code can be exchanged for another one. -/
theorem Closed.exchange {front rest : List Char}
    (h : Closed (front ++ '\x7b' :: (inner ++ '\x7d' :: rest)))
    (hfront : Cursor.code.run front = .code) (hinner : Closed inner) (hinner' : Closed inner') :
    Closed (front ++ '\x7b' :: (inner' ++ '\x7d' :: rest)) := by
  obtain ⟨hcode, hlevel⟩ := h
  rw [Cursor.run_append (startsFresh_open _), hfront, (scan_object hinner 0 rest).2] at hcode
  rw [scan_append (startsFresh_open _), openAfter_append, hfront] at hlevel
  refine ⟨?_, ?_⟩
  · rw [Cursor.run_append (startsFresh_open _), hfront, (scan_object hinner' 0 rest).2, hcode]
  · rw [scan_append (startsFresh_open _), openAfter_append, hfront, ← hlevel]
    cases hn : openAfter 1 (scan .code front) with
    | none => rfl
    | some n =>
        obtain ⟨m, rfl⟩ := Nat.exists_eq_succ_of_ne_zero (openAfter_pos hn Nat.one_pos).ne'
        exact (scan_object hinner' m rest).1.trans (scan_object hinner m rest).1.symm

/-- An object that starts in a closed text also ends there. -/
theorem Closed.exists_object {front back rest rest' : List Char}
    (h : Closed (front ++ '\x7b' :: back)) (hfront : Cursor.code.run front = .code)
    (hinner : Closed inner) (hobject : back ++ '\x7d' :: rest = inner ++ '\x7d' :: rest') :
    ∃ more, back = inner ++ '\x7d' :: more ∧ rest' = more ++ '\x7d' :: rest := by
  obtain ⟨hcode, hlevel⟩ := h
  rw [Cursor.run_append (startsFresh_open _), hfront, (scan_open _).2] at hcode
  rw [scan_append (startsFresh_open _), openAfter_append, hfront, (scan_open _).1] at hlevel
  obtain ⟨n, hn, hlevel⟩ := Option.bind_eq_some_iff.mp hlevel
  rw [openAfter_open] at hlevel
  have hpos : 0 < n := openAfter_pos hn Nat.one_pos
  have hinnerLevel : openAfter (n + 1) (scan .code inner) = some (n + 1) := by
    rw [Nat.add_comm n]
    exact openAfter_add n hinner.level
  -- behind the inner object one more brace is open than at the end
  have hne : back ≠ inner := by
    rintro rfl
    rw [hlevel] at hinnerLevel
    have := Option.some.inj hinnerLevel
    omega
  rcases List.append_eq_append_iff.mp hobject with ⟨more, hmore, heq⟩ | ⟨more, rfl, heq⟩
  · cases more with
    | nil => exact absurd (by simpa using hmore.symm) hne
    | cons c more =>
        obtain ⟨rfl, -⟩ := List.cons.inj heq
        rw [hmore, scan_append (startsFresh_cons (by decide) more), openAfter_append, hlevel,
          hcode, Option.bind_some] at hinnerLevel
        cases hinnerLevel
  · cases more with
    | nil => exact absurd (List.append_nil inner) hne
    | cons c more =>
        obtain ⟨rfl, rfl⟩ := List.cons.inj heq
        exact ⟨more, rfl, rfl⟩

end

end DesignTokens.Source
