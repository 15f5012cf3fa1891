import Mathlib.Data.List.TakeWhile
import DesignTokens.Compliance.Validation
import DesignTokens.Proofs.Text.Replace
import DesignTokens.Rewrite.Color

/-!
# Colors that are written out

A color written out is a hash sign and three to six hexadecimal digits, and it
counts where it ends as a word (`ColorIn`). Both the list of a source's colors
(`mem_literalColors_iff`) and the search for a mapped color go by that.

Rewriting colors brings in none. What is written for a color has no hash sign,
and it starts with a word that is not all hexadecimal digits, so the digits in
front of it do not end as a word there (`Blunt`). `colorIn_of_reworded` says so
for any rewording of that kind.
-/

namespace DesignTokens.Rewrite

open Text

/-- A hash sign and three to six hexadecimal digits. -/
def IsHexColor (w : List Char) : Prop :=
  ∃ ds, w = '#' :: ds ∧ 3 ≤ ds.length ∧ ds.length ≤ 6 ∧ ∀ d ∈ ds, isHexDigit d = true

/-- The word stands in the text and ends as a word there. -/
def ColorIn (w text : List Char) : Prop :=
  ∃ a b, text = a ++ (w ++ b) ∧ wordAt b.head? = false

/-! ## Letters in either case -/

theorem toLower_of_le {c : Char} (h : 128 ≤ c.toNat) : c.toLower = c := by
  unfold Char.toLower
  split
  case isFalse => rfl
  case isTrue hup =>
    have : c.toNat ≤ 90 := hup.2
    omega

theorem isHexDigit_toLower (c : Char) : isHexDigit c.toLower = isHexDigit c := by
  by_cases hc : c.toNat < 128
  · exact forall_ascii (P := fun c => isHexDigit c.toLower = isHexDigit c) (by decide) hc
  · rw [toLower_of_le (Nat.le_of_not_lt hc)]

theorem eq_hash_of_toLower {c : Char} (h : c.toLower = '#') : c = '#' := by
  by_cases hc : c.toNat < 128
  · exact forall_ascii (P := fun c => c.toLower = '#' → c = '#') (by decide) hc h
  · rwa [toLower_of_le (Nat.le_of_not_lt hc)] at h

theorem toNat_lt_of_isHexDigit {c : Char} (h : isHexDigit c = true) : c.toNat < 128 := by
  simp only [isHexDigit, Char.isDigit, Bool.or_eq_true, Bool.and_eq_true, decide_eq_true_eq] at h
  rcases h with (h | h) | h
  all_goals
    have hle := UInt32.le_iff_toNat_le.mp h.2
    exact lt_of_le_of_lt hle (by decide)

theorem isWord_of_isHexDigit {c : Char} (h : isHexDigit c = true) : isWord c = true :=
  forall_ascii (P := fun c => isHexDigit c = true → isWord c = true) (by decide)
    (toNat_lt_of_isHexDigit h) h

theorem isAlphanum_of_isHexDigit {c : Char} (h : isHexDigit c = true) : c.isAlphanum = true :=
  forall_ascii (P := fun c => isHexDigit c = true → c.isAlphanum = true) (by decide)
    (toNat_lt_of_isHexDigit h) h

/-! ## Where a color stands -/

theorem afterFolded_eq_some_iff : ∀ {lit cs behind : List Char},
    afterFolded? lit cs = some behind ↔ ∃ w, cs = w ++ behind ∧ lowered w = lowered lit
  | [], cs, behind => by
      simp [afterFolded?, lowered]
  | p :: ps, [], behind => by
      simp [afterFolded?, lowered]
  | p :: ps, c :: cs, behind => by
      rw [afterFolded?]
      split
      case isTrue h =>
        have hpc : p.toLower = c.toLower := by simpa [sameLetter] using h
        rw [afterFolded_eq_some_iff]
        constructor
        · rintro ⟨w, rfl, hw⟩
          exact ⟨c :: w, rfl, by rw [lowered, List.map_cons, ← hpc]; exact congrArg _ hw⟩
        · rintro ⟨w, hcs, hw⟩
          cases w with
          | nil => cases hw
          | cons d w =>
              obtain ⟨-, rfl⟩ := List.cons.inj hcs
              exact ⟨w, rfl, (List.cons.inj hw).2⟩
      case isFalse h =>
        refine ⟨nofun, ?_⟩
        rintro ⟨w, hcs, hw⟩
        cases w with
        | nil => cases hw
        | cons d w =>
            obtain ⟨rfl, -⟩ := List.cons.inj hcs
            exact absurd (by simpa [sameLetter] using (List.cons.inj hw).1.symm) h

theorem IsHexColor.of_lowered {w lit : List Char} (h : IsHexColor lit)
    (hw : lowered w = lowered lit) : IsHexColor w := by
  obtain ⟨ds, rfl, hmin, hmax, hds⟩ := h
  have hlen : w.length = ds.length + 1 := by
    have := congrArg List.length hw
    simpa [lowered] using this
  cases w with
  | nil => cases hw
  | cons c es =>
      obtain ⟨hc, hes⟩ := List.cons.inj hw
      rw [List.length_cons, Nat.succ_inj] at hlen
      refine ⟨es, by rw [eq_hash_of_toLower hc], by omega, by omega, fun e he => ?_⟩
      have hmem : e.toLower ∈ ds.map Char.toLower := hes ▸ List.mem_map_of_mem he
      obtain ⟨d, hd, hde⟩ := List.mem_map.mp hmem
      rw [← isHexDigit_toLower, ← hde, isHexDigit_toLower]
      exact hds d hd

theorem IsHexColor.last {w : List Char} (h : IsHexColor w) :
    w.getLast?.any Char.isAlphanum = true := by
  obtain ⟨ds, rfl, hmin, -, hds⟩ := h
  cases hlast : ds.getLast? with
  | none =>
      rw [List.getLast?_eq_none_iff.mp hlast] at hmin
      simp at hmin
  | some d =>
      rw [List.getLast?_cons, hlast]
      exact isAlphanum_of_isHexDigit (hds d (List.mem_of_getLast? hlast))

theorem literalPattern_eq_some_iff {lit : List Char} (hlit : IsHexColor lit)
    {before : Option Char} {rest : List Char} {n : Nat} :
    literalPattern lit before rest = some n ↔
      n = lit.length ∧ ∃ w b, rest = w ++ b ∧ lowered w = lowered lit ∧ wordAt b.head? = false := by
  rw [literalPattern]
  cases hafter : afterFolded? lit rest with
  | none =>
      refine ⟨nofun, ?_⟩
      rintro ⟨-, w, b, hrest, hw, -⟩
      rw [afterFolded_eq_some_iff.mpr ⟨w, hrest, hw⟩] at hafter
      cases hafter
  | some behind =>
      obtain ⟨w, rfl, hw⟩ := afterFolded_eq_some_iff.mp hafter
      simp only [hlit.last, Bool.true_and]
      constructor
      · intro h
        split at h
        case isTrue => cases h
        case isFalse hword =>
          exact ⟨(Option.some.inj h).symm, w, behind, rfl, hw, by simpa using hword⟩
      · rintro ⟨rfl, v, b, hrest, hv, hb⟩
        have hlen : w.length = v.length := by
          have := congrArg List.length (hw.trans hv.symm)
          simpa [lowered] using this
        obtain ⟨-, rfl⟩ := List.append_inj hrest hlen
        rw [if_neg (by simp [hb])]

/-- The search for a color finds nothing exactly if the color stands nowhere, in whatever case. -/
theorem first?_literalPattern_eq_none_iff {lit text : List Char} (hlit : IsHexColor lit) :
    (literalPattern lit).first? text = none ↔
      ∀ w, lowered w = lowered lit → ¬ColorIn w text := by
  rw [Pattern.first?, Pattern.firstFrom?_eq_none_iff_forall]
  constructor
  · rintro h w hw ⟨a, b, rfl, hb⟩
    have hne : w ++ b ≠ [] := by
      obtain ⟨ds, rfl, -⟩ := hlit.of_lowered hw
      exact List.cons_ne_nil _ _
    have hsome : literalPattern lit (a.getLast?.or none) (w ++ b) = some lit.length :=
      (literalPattern_eq_some_iff hlit).mpr ⟨rfl, w, b, rfl, hw, hb⟩
    rw [h a (w ++ b) rfl hne] at hsome
    cases hsome
  · intro h a b hab _
    by_contra hsome
    obtain ⟨n, hn⟩ := Option.ne_none_iff_exists'.mp hsome
    obtain ⟨-, w, b', rfl, hw, hb'⟩ := (literalPattern_eq_some_iff hlit).mp hn
    exact h w hw ⟨a, b', hab, hb'⟩

/-! ## The list of colors -/

theorem isHexDigit_of_wordAt {b : List Char} (hb : wordAt b.head? = false) :
    b.takeWhile isHexDigit = [] := by
  cases b with
  | nil => rfl
  | cons c b =>
      refine List.takeWhile_cons_of_neg fun hc => ?_
      have hword : isWord c = false := hb
      rw [isWord_of_isHexDigit hc] at hword
      cases hword

theorem literalColor_eq_some_iff {before : Option Char} {rest : List Char} {n : Nat} :
    literalColor before rest = some n ↔
      ∃ w b, rest = w ++ b ∧ n = w.length ∧ IsHexColor w ∧ wordAt b.head? = false := by
  constructor
  · intro h
    unfold literalColor at h
    split at h
    case h_2 => cases h
    case h_1 cs =>
      dsimp only at h
      split at h
      case isFalse => cases h
      case isTrue hends =>
        simp only [Bool.and_eq_true, decide_eq_true_eq, Bool.not_eq_true'] at hends
        have hprefix : (cs.takeWhile isHexDigit).take 6 <+: cs :=
          (List.take_prefix _ _).trans (List.takeWhile_prefix _)
        obtain ⟨b, hb⟩ := hprefix
        have hdrop : cs.drop ((cs.takeWhile isHexDigit).take 6).length = b := by
          nth_rewrite 2 [← hb]
          exact List.drop_left
        rw [hdrop] at hends
        refine ⟨'#' :: (cs.takeWhile isHexDigit).take 6, b, ?_, ?_, ⟨_, rfl, hends.1, ?_, ?_⟩,
          hends.2⟩
        · rw [List.cons_append, hb]
        · exact (Option.some.inj h).symm
        · exact List.length_take_le _ _
        · exact fun d hd => List.mem_takeWhile_imp (List.mem_of_mem_take hd)
  · rintro ⟨w, b, rfl, rfl, ⟨ds, rfl, hmin, hmax, hds⟩, hb⟩
    have htake : (ds ++ b).takeWhile isHexDigit = ds := by
      rw [List.takeWhile_append_of_pos hds, isHexDigit_of_wordAt hb, List.append_nil]
    rw [List.cons_append, literalColor]
    simp [htake, List.take_of_length_le hmax, hmin, hb]

theorem mem_foldl_distinct {x : String} : ∀ {l seen : List String},
    x ∈ l.foldl (fun seen c => if seen.contains c then seen else seen ++ [c]) seen
      ↔ x ∈ seen ∨ x ∈ l
  | [], seen => by simp
  | c :: l, seen => by
      rw [List.foldl_cons, mem_foldl_distinct, List.mem_cons]
      by_cases hc : c ∈ seen
      · rw [if_pos (by simpa using hc)]
        constructor
        · rintro (h | h)
          · exact .inl h
          · exact .inr (.inr h)
        · rintro (h | rfl | h)
          · exact .inl h
          · exact .inl hc
          · exact .inr h
      · rw [if_neg (by simpa using hc), List.mem_append, List.mem_singleton, or_assoc]

/-- The colors of a source are the ones that stand in it. -/
theorem mem_literalColors_iff {c : String} {text : List Char} :
    c ∈ literalColors text ↔ IsHexColor c.toList ∧ ColorIn c.toList text := by
  rw [literalColors, mem_foldl_distinct, or_iff_right (List.not_mem_nil), List.mem_map]
  constructor
  · rintro ⟨s, hs, rfl⟩
    obtain ⟨a, b, rfl, hstart, hb⟩ := Pattern.exists_of_mem_spansFrom hs
    obtain ⟨w, b, rfl, hlen, hw, hb⟩ := literalColor_eq_some_iff.mp hb
    have hof : s.of (a ++ (w ++ b)) = w := by
      rw [Span.of, hstart, hlen, Nat.zero_add, List.drop_left, List.take_left]
    rw [hof, String.toList_ofList]
    exact ⟨hw, a, b, rfl, hb⟩
  · rintro ⟨hw, a, b, rfl, hb⟩
    -- a color has no hash sign but its first character, so none stands inside another one
    have hhash : ∀ before rest n, literalColor before rest = some n →
        ∃ cs, rest = '#' :: cs ∧ '#' ∉ cs.take (n - 1) := by
      intro before rest n h
      obtain ⟨w, b, rfl, rfl, ⟨ds, rfl, -, -, hds⟩, -⟩ := literalColor_eq_some_iff.mp h
      refine ⟨ds ++ b, rfl, fun hmem => ?_⟩
      rw [List.length_cons, Nat.add_sub_cancel, List.take_left] at hmem
      exact absurd (hds '#' hmem) (by decide)
    have hmem : (⟨0 + a.length, c.toList.length⟩ : Span)
        ∈ literalColor.spansFrom none 0 0 (a ++ (c.toList ++ b)) :=
      Pattern.mem_spansFrom hhash (by simp)
        (literalColor_eq_some_iff.mpr ⟨_, b, rfl, rfl, hw, hb⟩)
    refine ⟨_, hmem, ?_⟩
    rw [Span.of, Nat.zero_add, List.drop_left, List.take_left, String.ofList_toList]

/-! ## Rewording that brings in no color -/

/-- What is written has no hash sign, and hexadecimal digits in front of it end as a word there only
if they did so before: it starts with a word that has another letter, or its first word is the one
that was there. -/
structure Blunt (w v : List Char) : Prop where
  no_hash : '#' ∉ v
  start : (∃ d ∈ v.takeWhile isWord, isHexDigit d = false) ∨
    ∃ n x w' v', w = n ++ x :: w' ∧ v = n ++ x :: v' ∧ isWord x = false

theorem wordAt_head_dropWhile (cs : List Char) :
    wordAt (cs.dropWhile isWord).head? = false := by
  induction cs with
  | nil => rfl
  | cons c cs ih =>
      rw [List.dropWhile_cons]
      split
      case isTrue => exact ih
      case isFalse hc => simpa [wordAt] using hc

/-- Digits that end as a word are the word that the text starts with. -/
theorem takeWhile_isWord_digits {ds b : List Char} (hds : ∀ d ∈ ds, isHexDigit d = true)
    (hb : wordAt b.head? = false) : (ds ++ b).takeWhile isWord = ds := by
  rw [List.takeWhile_append_of_pos fun d hd => isWord_of_isHexDigit (hds d hd)]
  cases b with
  | nil => simp
  | cons c b =>
      have hc : isWord c = false := hb
      simp [hc]

theorem Blunt.exists_digits {w v s t ds b : List Char} (h : Blunt w v)
    (hds : ∀ d ∈ ds, isHexDigit d = true) (hb : wordAt b.head? = false)
    (heq : v ++ t = ds ++ b) : ∃ b', w ++ s = ds ++ b' ∧ wordAt b'.head? = false := by
  have hword : (v ++ t).takeWhile isWord = ds := by
    rw [heq, takeWhile_isWord_digits hds hb]
  rcases h.start with ⟨d, hd, hhex⟩ | ⟨n, x, w', v', rfl, rfl, hx⟩
  · have hmem : d ∈ ds := by
      rw [← hword, List.takeWhile_append]
      split
      · exact List.mem_append_left _ ((List.takeWhile_prefix isWord).subset hd)
      · exact hd
    rw [hds d hmem] at hhex
    cases hhex
  · have hsame : (n ++ x :: w' ++ s).takeWhile isWord = ds := by
      rw [← hword, List.append_assoc, List.append_assoc, List.cons_append, List.cons_append,
        takeWhile_append_stop hx, takeWhile_append_stop hx]
    refine ⟨(n ++ x :: w' ++ s).dropWhile isWord, ?_, wordAt_head_dropWhile _⟩
    nth_rewrite 1 [← List.takeWhile_append_dropWhile (p := isWord) (l := n ++ x :: w' ++ s)]
    rw [hsame]

theorem exists_digits_of_reworded {s t : List Char} (h : Reworded Blunt s t) :
    ∀ {ds b : List Char}, t = ds ++ b → (∀ d ∈ ds, isHexDigit d = true) → wordAt b.head? = false →
      ∃ b', s = ds ++ b' ∧ wordAt b'.head? = false := by
  induction h with
  | nil => exact fun heq _ _ => ⟨[], by rw [(List.append_eq_nil_iff.mp heq.symm).1]; rfl, rfl⟩
  | @cons c s t _ ih =>
      intro ds b heq hds hb
      cases ds with
      | nil =>
          rw [List.nil_append] at heq
          rw [← heq] at hb
          exact ⟨c :: s, rfl, hb⟩
      | cons d ds =>
          obtain ⟨rfl, htail⟩ := List.cons.inj heq
          obtain ⟨b', rfl, hb'⟩ := ih htail (fun d hd => hds d (List.mem_cons_of_mem _ hd)) hb
          exact ⟨b', rfl, hb'⟩
  | word hwv _ _ => exact fun heq hds hb => hwv.exists_digits hds hb heq

/-- A word that starts with a character does not start in a stretch without that character. -/
theorem colorIn_of_reworded {w s t : List Char} (h : Reworded Blunt s t) (hw : IsHexColor w)
    (hcolor : ColorIn w t) : ColorIn w s := by
  obtain ⟨ds, rfl, -, -, hds⟩ := hw
  induction h with
  | nil =>
      obtain ⟨a, b, heq, -⟩ := hcolor
      simp at heq
  | @cons c s t h ih =>
      obtain ⟨a, b, heq, hb⟩ := hcolor
      cases a with
      | nil =>
          obtain ⟨rfl, htail⟩ := List.cons.inj heq
          obtain ⟨b', rfl, hb'⟩ := exists_digits_of_reworded h htail hds hb
          exact ⟨[], b', rfl, hb'⟩
      | cons d a =>
          obtain ⟨rfl, rfl⟩ := List.cons.inj heq
          obtain ⟨a', b', rfl, hb'⟩ := ih ⟨a, b, rfl, hb⟩
          exact ⟨c :: a', b', rfl, hb'⟩
  | @word w v s t hwv _ ih =>
      obtain ⟨a, b, heq, hb⟩ := hcolor
      obtain ⟨a', -, rfl⟩ := exists_of_append_eq hwv.no_hash heq
      obtain ⟨a, b', rfl, hb'⟩ := ih ⟨a', b, rfl, hb⟩
      exact ⟨w ++ a, b', (List.append_assoc ..).symm, hb'⟩

/-- Replacing every place of a color leaves none. -/
theorem not_colorIn_of_replaced {lit : List Char} (hlit : IsHexColor lit)
    {rewrite : List Char → List Char} (hblunt : ∀ hit, Blunt hit (rewrite hit))
    {before : Option Char} {s t : List Char} (h : Replaced (literalPattern lit) rewrite before s t)
    {w : List Char} (hw : lowered w = lowered lit) : ¬ColorIn w t := by
  have hcolor := hlit.of_lowered hw
  obtain ⟨ds, rfl, -, -, hds⟩ := hcolor
  induction h with
  | nil =>
      rintro ⟨a, b, heq, -⟩
      simp at heq
  | @keep before c s t hnone h ih =>
      rintro ⟨a, b, heq, hb⟩
      cases a with
      | nil =>
          obtain ⟨rfl, htail⟩ := List.cons.inj heq
          -- the color would stand in the text before, and so be a match
          obtain ⟨b', rfl, hb'⟩ :=
            exists_digits_of_reworded (h.reworded fun _ hit _ _ => hblunt hit) htail hds hb
          have hsome : literalPattern lit before ('#' :: ds ++ b') = some lit.length :=
            (literalPattern_eq_some_iff hlit).mpr ⟨rfl, '#' :: ds, b', rfl, hw, hb'⟩
          rw [List.cons_append, hnone] at hsome
          cases hsome
      | cons d a =>
          obtain ⟨rfl, rfl⟩ := List.cons.inj heq
          exact ih ⟨a, b, rfl, hb⟩
  | @found before hit rest out _ _ _ ih =>
      rintro ⟨a, b, heq, hb⟩
      obtain ⟨a', -, rfl⟩ := exists_of_append_eq (hblunt hit).no_hash heq
      exact ih ⟨a', b, rfl, hb⟩

end DesignTokens.Rewrite
