import DesignTokens.Proofs.Text.Template

/-!
# Replacing the matches of a pattern

`Pattern.replace` lists the matches of a text first and rewrites the listed
stretches afterwards. `Replaced` is the same as one walk over the text: a
character at which nothing matches stays, and a match is rewritten as a whole.
A fact about a replacement is proved by induction on that walk
(`replaced_replace`).

Most of what a replacement keeps does not hang on where the pattern matches, but
only on what is written for what. `Reworded R` is that weaker view: two texts
that are the same but for stretches that `R` relates.
-/

namespace DesignTokens.Text

/-! ## Texts that differ in stretches -/

/-- The texts are the same but for stretches that the relation holds between. -/
inductive Reworded (R : List Char → List Char → Prop) : List Char → List Char → Prop
  | nil : Reworded R [] []
  | cons (c : Char) {s t : List Char} : Reworded R s t → Reworded R (c :: s) (c :: t)
  | word {w v s t : List Char} : R w v → Reworded R s t → Reworded R (w ++ s) (v ++ t)

namespace Reworded

variable {R : List Char → List Char → Prop}

theorem refl : ∀ t : List Char, Reworded R t t
  | [] => .nil
  | c :: t => .cons c (refl t)

theorem append_left (u : List Char) {s t : List Char} (h : Reworded R s t) :
    Reworded R (u ++ s) (u ++ t) := by
  induction u with
  | nil => exact h
  | cons c u ih => exact .cons c ih

end Reworded

theorem reworded_fill {R : List Char → List Char → Prop} {w v : List Char} (h : R w v) :
    ∀ t : Template, Reworded R (Template.fill w t) (Template.fill v t)
  | [] => .nil
  | some c :: t => .cons c (reworded_fill h t)
  | none :: t => .word h (reworded_fill h t)

/-! ## One walk over the text -/

/-- A text and what replacing makes of it, behind a given character. -/
inductive Replaced (p : Pattern) (rewrite : List Char → List Char) :
    Option Char → List Char → List Char → Prop
  | nil {before : Option Char} : Replaced p rewrite before [] []
  | keep {before : Option Char} {c : Char} {cs out : List Char} :
      p before (c :: cs) = none → Replaced p rewrite (some c) cs out →
      Replaced p rewrite before (c :: cs) (c :: out)
  | found {before : Option Char} {hit rest out : List Char} :
      hit ≠ [] → p before (hit ++ rest) = some hit.length →
      Replaced p rewrite hit.getLast? rest out →
      Replaced p rewrite before (hit ++ rest) (rewrite hit ++ out)

namespace Pattern

/-- A match takes a character at least, and no more than there are. -/
def Bounded (p : Pattern) : Prop :=
  ∀ before rest n, p before rest = some n → 0 < n ∧ n ≤ rest.length

variable {p : Pattern} {rewrite : List Char → List Char}

theorem pos_le_start_of_mem :
    ∀ {text : List Char} {before : Option Char} {pos skip : Nat} {s : Span},
    s ∈ p.spansFrom before pos skip text → pos + skip ≤ s.start
  | [], _, _, _, _, h => by simp [spansFrom] at h
  | c :: cs, before, pos, skip + 1, s, h => by
      have hlater : pos + 1 + skip ≤ s.start := pos_le_start_of_mem h
      omega
  | c :: cs, before, pos, 0, s, h => by
      rw [spansFrom] at h
      cases hp : p before (c :: cs) with
      | none =>
          rw [hp] at h
          have hlater : pos + 1 + 0 ≤ s.start := pos_le_start_of_mem h
          omega
      | some n =>
          rw [hp, List.mem_cons] at h
          rcases h with rfl | h
          · exact Nat.le_refl pos
          · have hlater : pos + 1 + (n - 1) ≤ s.start := pos_le_start_of_mem h
            omega

/-- The matches of a text follow each other without overlap. -/
theorem pairwise_spansFrom : ∀ (text : List Char) (before : Option Char) (pos skip : Nat),
    (p.spansFrom before pos skip text).Pairwise fun s s' => s.stop ≤ s'.start
  | [], _, _, _ => .nil
  | c :: cs, _, pos, skip + 1 => pairwise_spansFrom cs (some c) (pos + 1) skip
  | c :: cs, before, pos, 0 => by
      rw [spansFrom]
      cases p before (c :: cs) with
      | none => exact pairwise_spansFrom cs (some c) (pos + 1) 0
      | some n =>
          refine List.pairwise_cons.mpr ⟨fun s hs => ?_, pairwise_spansFrom cs (some c) (pos + 1) _⟩
          have hlater : pos + 1 + (n - 1) ≤ s.start := pos_le_start_of_mem hs
          rw [Span.stop]
          dsimp only
          omega

/-- The characters of a match are passed over. -/
theorem spansFrom_append : ∀ (w rest : List Char) (before : Option Char) (pos : Nat),
    p.spansFrom before pos w.length (w ++ rest)
      = p.spansFrom (w.getLast?.or before) (pos + w.length) 0 rest
  | [], _, _, _ => rfl
  | c :: w, rest, before, pos => by
      rw [List.cons_append, List.length_cons, spansFrom, spansFrom_append w rest,
        List.getLast?_cons, Nat.add_right_comm]
      cases w.getLast? <;> rfl

/-- A character in front of all stretches stays. -/
theorem rewriteSpans_cons {spans : List Span} {pos : Nat} (h : ∀ s ∈ spans, pos + 1 ≤ s.start)
    (c : Char) (cs : List Char) :
    rewriteSpans rewrite pos spans (c :: cs) = c :: rewriteSpans rewrite (pos + 1) spans cs := by
  cases spans with
  | nil => rfl
  | cons s ss =>
      obtain ⟨n, hn⟩ := Nat.exists_eq_add_of_le (h s (List.mem_cons_self ..))
      have hpos : s.start - pos = n + 1 := by omega
      have hpos' : s.start - (pos + 1) = n := by omega
      simp [rewriteSpans, hpos, hpos']

theorem replaced_rewriteSpans (hp : p.Bounded) (text : List Char) (before : Option Char)
    (pos : Nat) : Replaced p rewrite before text
      (rewriteSpans rewrite pos (p.spansFrom before pos 0 text) text) := by
  -- the induction is on the length, because the walk passes over a match at once
  induction hlen : text.length using Nat.strongRecOn generalizing text before pos with
  | ind len ih =>
    subst hlen
    cases text with
    | nil => exact .nil
    | cons c cs =>
        rw [spansFrom]
        cases hc : p before (c :: cs) with
        | none =>
            dsimp only
            have hlater : ∀ s ∈ p.spansFrom (some c) (pos + 1) 0 cs, pos + 1 ≤ s.start := by
              intro s hs
              have := pos_le_start_of_mem hs
              omega
            rw [rewriteSpans_cons hlater]
            exact .keep hc (ih cs.length (Nat.lt_succ_self _) cs (some c) (pos + 1) rfl)
        | some n =>
            obtain ⟨hn, hle⟩ := hp before (c :: cs) n hc
            obtain ⟨n, rfl⟩ := Nat.exists_eq_add_of_le' hn
            rw [List.length_cons, Nat.succ_le_succ_iff] at hle
            obtain ⟨w, rest, rfl, rfl⟩ : ∃ w rest, cs = w ++ rest ∧ n = w.length :=
              ⟨cs.take n, cs.drop n, (List.take_append_drop n cs).symm, by simp [hle]⟩
            have hshort : rest.length < (c :: (w ++ rest)).length := by
              simp only [List.length_cons, List.length_append]
              omega
            have hrest := ih rest.length hshort rest (c :: w).getLast? (pos + (w.length + 1)) rfl
            have hspans : p.spansFrom (some c) (pos + 1) (w.length + 1 - 1) (w ++ rest)
                = p.spansFrom (c :: w).getLast? (pos + (w.length + 1)) 0 rest := by
              rw [Nat.add_sub_cancel, spansFrom_append, List.getLast?_cons]
              congr 1
              · cases w.getLast? <;> rfl
              · omega
            simp only [rewriteSpans, hspans, Nat.sub_self, List.drop_zero, List.take_zero,
              List.nil_append, Span.stop]
            rw [← List.cons_append, ← List.length_cons, List.take_left, List.drop_left]
            exact .found (List.cons_ne_nil c w) hc hrest

theorem replaced_replace (hp : p.Bounded) (text : List Char) :
    Replaced p rewrite none text (p.replace rewrite text) :=
  replaced_rewriteSpans hp text none 0

/-- A search finds nothing exactly if the pattern matches at no place. -/
theorem firstFrom?_eq_none_iff_forall : ∀ {text : List Char} {before : Option Char} {pos : Nat},
    p.firstFrom? before pos text = none ↔
      ∀ a b, text = a ++ b → b ≠ [] → p (a.getLast?.or before) b = none
  | [], _, _ => by
      refine ⟨fun _ a b hab hb => ?_, fun _ => rfl⟩
      exact absurd (List.append_eq_nil_iff.mp hab.symm).2 hb
  | c :: cs, before, pos => by
      have hlast : ∀ a : List Char, (c :: a).getLast?.or before = a.getLast?.or (some c) := by
        intro a
        rw [List.getLast?_cons]
        cases a.getLast? <;> rfl
      constructor
      · intro h a b hab hb
        rw [firstFrom?] at h
        cases hc : p before (c :: cs) with
        | some n =>
            rw [hc] at h
            cases h
        | none =>
            rw [hc] at h
            cases a with
            | nil =>
                obtain rfl : c :: cs = b := hab
                exact hc
            | cons d a =>
                obtain ⟨rfl, rfl⟩ := List.cons.inj hab
                rw [hlast]
                exact firstFrom?_eq_none_iff_forall.mp h a b rfl hb
      · intro h
        rw [firstFrom?, show p before (c :: cs) = none from h [] _ rfl (List.cons_ne_nil c cs)]
        refine firstFrom?_eq_none_iff_forall.mpr fun a b hab hb => ?_
        rw [← hlast]
        exact h (c :: a) b (congrArg (c :: ·) hab) hb

/-- If a pattern matches only at a certain character, and the rest of a match is free of that
character, then no place where it matches is passed over. -/
theorem mem_spansFrom {x : Char} (hx : ∀ before rest n, p before rest = some n →
    ∃ cs, rest = x :: cs ∧ x ∉ cs.take (n - 1)) :
    ∀ {a b : List Char} {before : Option Char} {pos skip n : Nat},
      x ∉ (a ++ b).take skip → p (a.getLast?.or before) b = some n →
      ⟨pos + a.length, n⟩ ∈ p.spansFrom before pos skip (a ++ b)
  | [], b, before, pos, skip, n, hskip, hb => by
      obtain ⟨cs, rfl, -⟩ := hx _ _ _ hb
      cases skip with
      | succ skip => simp at hskip
      | zero =>
          rw [List.nil_append, spansFrom, show p before (x :: cs) = some n from hb]
          exact List.mem_cons_self ..
  | c :: a, b, before, pos, skip, n, hskip, hb => by
      have hlast : (c :: a).getLast?.or before = a.getLast?.or (some c) := by
        rw [List.getLast?_cons]
        cases a.getLast? <;> rfl
      rw [hlast] at hb
      have hrest : ∀ skip, x ∉ (a ++ b).take skip →
          ⟨pos + (c :: a).length, n⟩ ∈ p.spansFrom (some c) (pos + 1) skip (a ++ b) := by
        intro skip hskip
        have hstep : (⟨pos + 1 + a.length, n⟩ : Span)
            ∈ p.spansFrom (some c) (pos + 1) skip (a ++ b) := mem_spansFrom hx hskip hb
        rwa [Nat.add_assoc, Nat.add_comm 1] at hstep
      rw [List.cons_append]
      cases skip with
      | succ skip =>
          rw [spansFrom]
          refine hrest skip fun hmem => hskip ?_
          rw [List.cons_append, List.take_succ_cons]
          exact List.mem_cons_of_mem c hmem
      | zero =>
          rw [spansFrom]
          cases hc : p before (c :: (a ++ b)) with
          | none => exact hrest 0 (by simp)
          | some k =>
              obtain ⟨cs, hcs, hfree⟩ := hx _ _ _ hc
              obtain ⟨-, rfl⟩ := List.cons.inj hcs
              exact List.mem_cons_of_mem _ (hrest (k - 1) hfree)

/-- If no match of a pattern has a certain character, then what matches right behind that character
is listed. -/
theorem mem_spansFrom_behind {x : Char} (hp : p.Bounded)
    (hx : ∀ before rest n, p before rest = some n → x ∉ rest.take n) {b : List Char} {n : Nat}
    (hb : p (some x) b = some n) :
    ∀ {w : List Char} {before : Option Char} {pos skip : Nat}, skip ≤ w.length →
      ⟨pos + (w.length + 1), n⟩ ∈ p.spansFrom before pos skip (w ++ x :: b)
  | [], before, pos, skip, hskip => by
      obtain rfl : skip = 0 := Nat.le_zero.mp hskip
      have hnone : p before (x :: b) = none := by
        rw [Option.eq_none_iff_forall_ne_some]
        intro k hk
        obtain ⟨j, rfl⟩ := Nat.exists_eq_succ_of_ne_zero (Nat.ne_of_gt (hp _ _ _ hk).1)
        exact hx _ _ _ hk (by simp)
      have hlength := (hp _ _ _ hb).2
      cases b with
      | nil => exact absurd (hp _ _ _ hb).1 (by simp at hlength; omega)
      | cons d b =>
          rw [List.nil_append, spansFrom, hnone, spansFrom, hb]
          exact List.mem_cons_self ..
  | c :: w, before, pos, skip, hskip => by
      have hrest : ∀ skip, skip ≤ w.length → (⟨pos + ((c :: w).length + 1), n⟩ : Span)
          ∈ p.spansFrom (some c) (pos + 1) skip (w ++ x :: b) := by
        intro skip hskip
        have hstep : (⟨pos + 1 + (w.length + 1), n⟩ : Span)
            ∈ p.spansFrom (some c) (pos + 1) skip (w ++ x :: b) :=
          mem_spansFrom_behind hp hx hb hskip
        rwa [Nat.add_assoc, Nat.add_comm 1] at hstep
      rw [List.cons_append]
      cases skip with
      | succ skip => exact hrest skip (Nat.le_of_succ_le_succ hskip)
      | zero =>
          rw [spansFrom]
          cases hc : p before (c :: (w ++ x :: b)) with
          | none => exact hrest 0 (Nat.zero_le _)
          | some k =>
              -- a longer match would have the character
              have hk : k ≤ (c :: w).length := by
                by_contra hlt
                obtain ⟨j, rfl⟩ := Nat.exists_eq_add_of_lt (Nat.lt_of_not_le hlt)
                refine hx _ _ _ hc ?_
                rw [← List.cons_append, Nat.add_assoc, List.take_length_add_append]
                exact List.mem_append_right _ (by simp)
              exact List.mem_cons_of_mem _ (hrest (k - 1) (by simp at hk; omega))

/-- A match that is listed is one at its place. -/
theorem exists_of_mem_spansFrom : ∀ {text : List Char} {before : Option Char} {pos skip : Nat}
    {s : Span}, s ∈ p.spansFrom before pos skip text →
      ∃ a b, text = a ++ b ∧ s.start = pos + a.length ∧ p (a.getLast?.or before) b = some s.length
  | [], _, _, _, _, h => by simp [spansFrom] at h
  | c :: cs, before, pos, skip, s, h => by
      have hrest : ∀ skip, s ∈ p.spansFrom (some c) (pos + 1) skip cs →
          ∃ a b, c :: cs = a ++ b ∧ s.start = pos + a.length ∧
            p (a.getLast?.or before) b = some s.length := by
        intro skip hs
        obtain ⟨a, b, rfl, hstart, hb⟩ := exists_of_mem_spansFrom hs
        refine ⟨c :: a, b, rfl, by rw [hstart, List.length_cons]; omega, ?_⟩
        rw [List.getLast?_cons]
        cases ha : a.getLast? <;> rw [ha] at hb <;> exact hb
      cases skip with
      | succ skip => exact hrest skip h
      | zero =>
          rw [spansFrom] at h
          cases hc : p before (c :: cs) with
          | none =>
              rw [hc] at h
              exact hrest 0 h
          | some n =>
              rw [hc, List.mem_cons] at h
              rcases h with rfl | h
              · exact ⟨[], c :: cs, rfl, rfl, hc⟩
              · exact hrest (n - 1) h

end Pattern

/-- What a replacement makes of a text is the text, but for what is written for each match. -/
theorem Replaced.reworded {p : Pattern} {rewrite : List Char → List Char}
    {R : List Char → List Char → Prop}
    (hR : ∀ before hit rest, p before (hit ++ rest) = some hit.length → R hit (rewrite hit))
    {before : Option Char} {s t : List Char} (h : Replaced p rewrite before s t) :
    Reworded R s t := by
  induction h with
  | nil => exact .nil
  | keep _ _ ih => exact .cons _ ih
  | found _ hhit _ ih => exact .word (hR _ _ _ hhit) ih

/-! ## Stretches that a replacement leaves -/

/-- Each match is rewritten behind a front only, and the characters `v` reach from nowhere into what
is rewritten: they lack its first character, and they do not start further on. -/
def Pattern.Spares (p : Pattern) (rewrite : List Char → List Char) (v : List Char) : Prop :=
  ∀ before hit rest, p before (hit ++ rest) = some hit.length →
    ∃ front c cs out, hit = front ++ c :: cs ∧ rewrite hit = front ++ out ∧ c ∉ v ∧
      ∀ x y, cs = x ++ y → y ≠ [] → ¬v <+: y ++ rest

theorem prefix_of_not_mem {c : Char} {u front cs : List Char} (hc : c ∉ u)
    (h : u <+: front ++ c :: cs) : u <+: front := by
  obtain ⟨b, hb⟩ := h
  rcases List.append_eq_append_iff.mp hb with ⟨x, rfl, -⟩ | ⟨x, rfl, hx⟩
  · exact List.prefix_append u x
  · cases x with
    | nil => simp
    | cons d x =>
        obtain ⟨rfl, -⟩ := List.cons.inj hx
        exact absurd (by simp) hc

namespace Replaced

variable {p : Pattern} {rewrite : List Char → List Char} {before : Option Char}
  {s t u v : List Char}

theorem prefix_of (hp : p.Spares rewrite v) (h : Replaced p rewrite before s t)
    (hu : ∀ c ∈ u, c ∈ v) (hus : u <+: s) : u <+: t := by
  induction h generalizing u with
  | nil => exact hus
  | keep _ _ ih =>
      cases u with
      | nil => exact List.nil_prefix
      | cons d u =>
          obtain ⟨rfl, hrest⟩ := List.cons_prefix_cons.mp hus
          have hlater := ih (fun c hc => hu c (List.mem_cons_of_mem _ hc)) hrest
          exact List.cons_prefix_cons.mpr ⟨rfl, hlater⟩
  | found _ hhit _ _ =>
      obtain ⟨front, c, cs, w, rfl, hwrite, hc, -⟩ := hp _ _ _ hhit
      rw [hwrite, List.append_assoc]
      rw [List.append_assoc] at hus
      exact (prefix_of_not_mem (fun hmem => hc (hu c hmem)) hus).trans (List.prefix_append ..)

/-- Characters that a replacement reaches nowhere are in the text behind it. -/
theorem infix_of (hp : p.Spares rewrite v) (h : Replaced p rewrite before s t) (hv : v <:+: s) :
    v <:+: t := by
  induction h with
  | nil => exact hv
  | keep hnone hrest ih =>
      rcases List.infix_cons_iff.mp hv with hv | hv
      · exact (prefix_of hp (.keep hnone hrest) (fun _ => id) hv).isInfix
      · exact List.infix_cons (ih hv)
  | @found before hit rest out _ hhit hrest ih =>
      obtain ⟨a, b, hab⟩ := hv
      obtain ⟨front, c, cs, w, rfl, hwrite, hc, hfurther⟩ := hp _ _ _ hhit
      have hlater : v <:+: rest → v <:+: front ++ w ++ out := fun h =>
        (ih h).trans (List.suffix_append ..).isInfix
      rw [hwrite]
      rw [List.append_assoc, List.append_assoc] at hab
      rcases List.append_eq_append_iff.mp hab with ⟨x, rfl, hx⟩ | ⟨x, rfl, hx⟩
      · -- they start within the front, and so they end there
        obtain ⟨y, rfl⟩ := prefix_of_not_mem hc ⟨b, hx⟩
        exact ⟨a, y ++ (w ++ out), by simp⟩
      · cases x with
        | nil =>
            obtain ⟨y, hy⟩ : _ <+: ([] : List Char) := prefix_of_not_mem hc ⟨b, hx.symm⟩
            obtain ⟨rfl, -⟩ := List.append_eq_nil_iff.mp hy
            exact List.nil_infix
        | cons d x =>
            obtain ⟨rfl, htail⟩ := List.cons.inj hx
            rcases List.append_eq_append_iff.mp htail with ⟨z, rfl, hz⟩ | ⟨y, hy, hrest'⟩
            · exact hlater ⟨z, b, by rw [hz, List.append_assoc]⟩
            · cases y with
              | nil => exact hlater ⟨[], b, by simpa using hrest'⟩
              | cons e y =>
                  exact absurd ⟨b, hrest'⟩ (hfurther x (e :: y) hy (List.cons_ne_nil e y))

end Replaced

/-! ## What is written -/

/-- The stretches follow each other from the position on. -/
def Ordered : Nat → List Span → Prop
  | _, [] => True
  | pos, s :: ss => pos ≤ s.start ∧ Ordered s.stop ss

theorem Ordered.mono {pos pos' : Nat} (hle : pos' ≤ pos) :
    ∀ {ss : List Span}, Ordered pos ss → Ordered pos' ss
  | [], _ => trivial
  | _ :: _, h => ⟨Nat.le_trans hle h.1, h.2⟩

theorem Ordered.le_start {s : Span} : ∀ {pos : Nat} {ss : List Span}, Ordered pos ss → s ∈ ss →
    pos ≤ s.start
  | pos, s' :: ss, h, hs => by
      rcases List.mem_cons.mp hs with rfl | hs
      · exact h.1
      · have hlater : s'.start + s'.length ≤ s.start := h.2.le_start hs
        have := h.1
        omega

theorem ordered_spansFrom {p : Pattern} (hp : p.Bounded) :
    ∀ {text : List Char} {before : Option Char} {pos skip : Nat},
      Ordered (pos + skip) (p.spansFrom before pos skip text)
  | [], _, _, _ => trivial
  | c :: cs, before, pos, skip + 1 => by
      have hskip : pos + (skip + 1) = pos + 1 + skip := by omega
      rw [Pattern.spansFrom, hskip]
      exact ordered_spansFrom hp
  | c :: cs, before, pos, 0 => by
      rw [Pattern.spansFrom]
      cases hc : p before (c :: cs) with
      | none =>
          have hlater : Ordered (pos + 1 + 0) (p.spansFrom (some c) (pos + 1) 0 cs) :=
            ordered_spansFrom hp
          exact hlater.mono (Nat.le_succ pos)
      | some n =>
          have hstop : pos + n = pos + 1 + (n - 1) := by
            have := (hp _ _ _ hc).1
            omega
          refine ⟨Nat.le_refl pos, ?_⟩
          rw [Span.stop, hstop]
          exact ordered_spansFrom hp

/-- What is written for a stretch is in the rewritten text. -/
theorem infix_rewriteSpans (rewrite : List Char → List Char) {s : Span} :
    ∀ {spans : List Span} {pos : Nat} (cs : List Char), Ordered pos spans → s ∈ spans →
      rewrite ((cs.drop (s.start - pos)).take s.length) <:+: rewriteSpans rewrite pos spans cs
  | s' :: ss, pos, cs, h, hs => by
      rw [rewriteSpans]
      rcases List.mem_cons.mp hs with rfl | hs
      · exact ⟨_, _, rfl⟩
      · have hlater := infix_rewriteSpans rewrite ((cs.drop (s'.start - pos)).drop s'.length) h.2 hs
        have hsum : s'.start - pos + (s'.length + (s.start - s'.stop)) = s.start - pos := by
          have hfirst := h.1
          have hle : s'.start + s'.length ≤ s.start := h.2.le_start hs
          have hstop : s'.stop = s'.start + s'.length := rfl
          omega
        rw [List.drop_drop, List.drop_drop, hsum] at hlater
        exact hlater.trans (List.suffix_append ..).isInfix

theorem Pattern.infix_replace {p : Pattern} (hp : p.Bounded) (rewrite : List Char → List Char)
    {text : List Char} {s : Span} (hs : s ∈ p.spans text) :
    rewrite (s.of text) <:+: p.replace rewrite text := by
  have hordered : Ordered (0 + 0) (p.spans text) := ordered_spansFrom hp
  exact infix_rewriteSpans rewrite text hordered hs

end DesignTokens.Text
