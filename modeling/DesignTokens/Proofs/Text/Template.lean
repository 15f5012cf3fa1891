import Mathlib.Data.List.Chain
import Mathlib.Data.List.TakeWhile
import DesignTokens.Text.Pattern

/-!
# Templates

A *template* is a text with holes in it, and a text in which a name has been
replaced by another one is one template filled with two words. This is how
renamings are reasoned about: `t.fill w` is the text, and a fact about all words
`w` is a fact about every renaming of it.

The holes of a template stand apart (`Apart`): neither an identifier character
nor another hole is next to a hole. So a word that fills the holes is always an
identifier of its own, and whatever reads a text by identifiers reads every
filling in the same way. The lemmas here say so for the readers of names and
blanks (`Reads`) and for the search of a pattern (`firstFrom?_fill`). They all
have one form: nothing is found in any filling, or there is one split of the
template that tells for every word where it is found.
-/

namespace DesignTokens.Text

/-! ## Rows of characters -/

theorem after_eq_some_iff : ∀ {name cs behind : List Char},
    after? name cs = some behind ↔ cs = name ++ behind
  | [], _, _ => Option.some_inj
  | _ :: _, [], _ => by simp [after?]
  | p :: ps, c :: cs, behind => by
      rw [after?, List.cons_append, List.cons.injEq]
      split
      case isTrue h =>
        rw [after_eq_some_iff]
        exact ⟨fun hcs => ⟨h.symm, hcs⟩, fun hcs => hcs.2⟩
      case isFalse h =>
        constructor
        · intro hnone
          cases hnone
        · rintro ⟨rfl, -⟩
          exact absurd rfl h

/-- A part that a text holds stands in it in a row. -/
theorem holds_iff_infix {part : List Char} : ∀ {text : List Char},
    holds part text = true ↔ part <:+: text
  | [] => by simp [holds]
  | c :: cs => by
      have hprefix : (after? part (c :: cs)).isSome = true ↔ part <+: c :: cs := by
        rw [Option.isSome_iff_exists]
        exact ⟨fun ⟨b, hb⟩ => ⟨b, (after_eq_some_iff.mp hb).symm⟩,
          fun ⟨b, hb⟩ => ⟨b, after_eq_some_iff.mpr hb.symm⟩⟩
      rw [holds, Bool.or_eq_true, hprefix, holds_iff_infix, List.infix_cons_iff]

/-- A text is cut at its first separator. -/
theorem cut?_eq_some_iff {sep : Char} : ∀ {cs a b : List Char},
    cut? sep cs = some (a, b) ↔ cs = a ++ sep :: b ∧ sep ∉ a
  | [], _, _ => by simp [cut?]
  | c :: cs, a, b => by
      rw [cut?]
      split
      case isTrue h =>
        subst h
        cases a with
        | nil => simp
        | cons d a => simp +contextual
      case isFalse h =>
        cases a with
        | nil => simpa using fun heq => absurd heq h
        | cons d a =>
            have hrest : cut? sep cs = some (a, b) ↔ cs = a ++ sep :: b ∧ sep ∉ a := cut?_eq_some_iff
            rw [Option.map_eq_some_iff]
            constructor
            · rintro ⟨⟨a', b'⟩, hcut, heq⟩
              cases heq
              obtain ⟨rfl, hmem⟩ := hrest.mp hcut
              exact ⟨rfl, List.not_mem_cons_of_ne_of_not_mem (Ne.symm h) hmem⟩
            · rintro ⟨heq, hmem⟩
              obtain ⟨rfl, rfl⟩ := List.cons.inj heq
              exact ⟨(a, b), hrest.mpr ⟨rfl, fun hin => hmem (List.mem_cons_of_mem _ hin)⟩, rfl⟩

theorem takeWhile_append_stop {p : Char → Bool} {x : Char} (hx : p x = false) :
    ∀ n y : List Char, (n ++ x :: y).takeWhile p = n.takeWhile p
  | [], y => by simp [hx]
  | c :: n, y => by
      rw [List.cons_append, List.takeWhile_cons, List.takeWhile_cons, takeWhile_append_stop hx n y]

theorem dropWhile_append_stop {p : Char → Bool} {x : Char} (hx : p x = false) :
    ∀ n y : List Char, (n ++ x :: y).dropWhile p = n.dropWhile p ++ x :: y
  | [], y => by simp [hx]
  | c :: n, y => by
      rw [List.cons_append, List.dropWhile_cons, List.dropWhile_cons]
      split
      case isTrue => exact dropWhile_append_stop hx n y
      case isFalse => rfl

/-- The rest that is left where characters have been dropped starts with none of them. -/
theorem all_head?_dropWhile (p : Char → Bool) (cs : List Char) :
    (cs.dropWhile fun c => !p c).head?.all p = true := by
  have hstop := List.head?_dropWhile_not (fun c => !p c) cs
  cases h : (cs.dropWhile fun c => !p c).head? with
  | none => rfl
  | some c =>
      rw [h] at hstop
      simpa using hstop

theorem exists_of_append_eq {x : Char} {v t a b : List Char} (hv : x ∉ v)
    (heq : v ++ t = a ++ x :: b) : ∃ a', a = v ++ a' ∧ t = a' ++ x :: b := by
  rcases List.append_eq_append_iff.mp heq with ⟨a', ha, ht⟩ | ⟨c, hv', hc⟩
  · exact ⟨a', ha, ht⟩
  · cases c with
    | nil => exact ⟨[], by simpa using hv'.symm, by simpa using hc.symm⟩
    | cons d c =>
        obtain ⟨rfl, -⟩ := List.cons.inj hc
        exact absurd (hv' ▸ by simp) hv

/-- What trimming takes away from a text is white space on both sides. -/
theorem exists_trim (cs : List Char) :
    ∃ a b, cs = a ++ (trim cs ++ b) ∧ (∀ c ∈ a, isWhiteSpace c = true) ∧
      ∀ c ∈ b, isWhiteSpace c = true := by
  have hstart := List.takeWhile_append_dropWhile (p := isWhiteSpace) (l := cs)
  have hend := List.takeWhile_append_dropWhile (p := isWhiteSpace)
    (l := (cs.dropWhile isWhiteSpace).reverse)
  refine ⟨cs.takeWhile isWhiteSpace,
    ((cs.dropWhile isWhiteSpace).reverse.takeWhile isWhiteSpace).reverse,
    ?_, fun c hc => List.mem_takeWhile_imp hc, fun c hc => ?_⟩
  · rw [trim, trimEnd, dropEndWhile, ← List.reverse_append, hend, List.reverse_reverse, hstart]
  · exact List.mem_takeWhile_imp (List.mem_reverse.mp hc)

theorem mem_of_mem_trim {c : Char} {cs : List Char} (h : c ∈ trim cs) : c ∈ cs := by
  obtain ⟨a, b, hcs, -, -⟩ := exists_trim cs
  rw [hcs]
  exact List.mem_append_right a (List.mem_append_left b h)

/-! ## Names -/

theorem toNat_lt_of_isWord {c : Char} (h : isWord c = true) : c.toNat < 128 := by
  unfold isWord Char.isAlphanum Char.isAlpha Char.isUpper Char.isLower Char.isDigit at h
  simp only [Bool.or_eq_true, Bool.and_eq_true, decide_eq_true_eq] at h
  rcases h with ((h | h) | h) | rfl
  · exact lt_of_le_of_lt (UInt32.le_iff_toNat_le.mp h.2) (by decide)
  · exact lt_of_le_of_lt (UInt32.le_iff_toNat_le.mp h.2) (by decide)
  · exact lt_of_le_of_lt (UInt32.le_iff_toNat_le.mp h.2) (by decide)
  · decide

/-- What holds of all ASCII characters is decided character by character. -/
theorem forall_ascii {P : Char → Prop} (h : ∀ n : Fin 128, P (Char.ofNat n)) {c : Char}
    (hc : c.toNat < 128) : P c := by
  have := h ⟨c.toNat, hc⟩
  rwa [Char.ofNat_toNat] at this

theorem isWhiteSpace_of_isWord {c : Char} (h : isWord c = true) : isWhiteSpace c = false :=
  forall_ascii (P := fun c => isWord c = true → isWhiteSpace c = false) (by decide)
    (toNat_lt_of_isWord h) h

theorem isWord_of_isWhiteSpace {c : Char} (h : isWhiteSpace c = true) : isWord c = false := by
  by_contra hword
  rw [isWhiteSpace_of_isWord (by simpa using hword)] at h
  cases h

/-- The characters of an identifier. -/
structure IsName (w : List Char) : Prop where
  start : ∃ c cs, w = c :: cs ∧ isIdentStart c = true
  all : ∀ c ∈ w, isIdent c = true

theorem isIdent_of_isIdentStart {c : Char} (h : isIdentStart c = true) : isIdent c = true := by
  simp only [isIdentStart, Bool.or_eq_true] at h
  simp only [isIdent, isWord, Char.isAlphanum, Bool.or_eq_true]
  tauto

theorem IsName.ne_nil {w : List Char} (h : IsName w) : w ≠ [] := by
  obtain ⟨c, cs, rfl, -⟩ := h.start
  exact List.cons_ne_nil _ _

theorem IsName.length_pos {w : List Char} (h : IsName w) : 0 < w.length :=
  List.length_pos_iff.mpr h.ne_nil

theorem isWord_of_isDigit {c : Char} (hc : c.isDigit = true) : isWord c = true := by
  simp [isWord, Char.isAlphanum, hc]

theorem isIdent_of_isDigit {c : Char} (hc : c.isDigit = true) : isIdent c = true := by
  rw [isIdent, isWord_of_isDigit hc, Bool.true_or]

theorem ne_of_isIdent {c d : Char} (hc : isIdent c = true) (hd : isIdent d = false) : c ≠ d := by
  rintro rfl
  rw [hc] at hd
  cases hd

theorem isBlank_of_isIdent {c : Char} (h : isIdent c = true) : isBlank c = false := by
  by_contra hb
  rw [Bool.not_eq_false] at hb
  simp only [isBlank, Bool.or_eq_true, decide_eq_true_eq] at hb
  rcases hb with ((((rfl | rfl) | rfl) | rfl) | rfl) | rfl <;> revert h <;> decide

theorem IsName.append {w v : List Char} (hw : IsName w) (hv : ∀ c ∈ v, isIdent c = true) :
    IsName (w ++ v) := by
  obtain ⟨c, cs, rfl, hc⟩ := hw.start
  refine ⟨⟨c, cs ++ v, rfl, hc⟩, fun d hd => ?_⟩
  rcases List.mem_append.mp hd with hd | hd
  · exact hw.all d hd
  · exact hv d hd

/-- The character, if there is one, does not belong to an identifier. -/
def NoIdent (c : Option Char) : Prop := ∀ d ∈ c, isIdent d = false

theorem wordAt_of_noIdent {c : Option Char} (h : NoIdent c) : wordAt c = false := by
  cases c with
  | none => rfl
  | some d =>
      have hd := h d rfl
      rw [isIdent, Bool.or_eq_false_iff] at hd
      exact hd.1

theorem takeWhile_isIdent_append {w rest : List Char} (hw : ∀ c ∈ w, isIdent c = true)
    (hrest : NoIdent rest.head?) : (w ++ rest).takeWhile isIdent = w := by
  rw [List.takeWhile_append_of_pos hw]
  cases rest with
  | nil => simp
  | cons c rest => simp [hrest c rfl]

/-! ## Templates and their fillings -/

/-- A place of a template: a character, or a hole. -/
abbrev Slot := Option Char

namespace Slot

/-- What stands in a place, given the word in the holes. -/
def fill (w : List Char) : Slot → List Char
  | some c => [c]
  | none => w

/-- Whether a place belongs to an identifier; a hole does. -/
def inIdent : Slot → Bool
  | some c => isIdent c
  | none => true

end Slot

/-- A text with holes. -/
abbrev Template := List Slot

namespace Template

/-- The text of a template, given the word in the holes. -/
def fill (w : List Char) (t : Template) : List Char := t.flatMap (Slot.fill w)

variable {w : List Char} {s t u : Template}

@[simp] theorem fill_nil : fill w [] = [] := rfl

@[simp] theorem fill_some (c : Char) (t : Template) : fill w (some c :: t) = c :: fill w t := rfl

@[simp] theorem fill_none (t : Template) : fill w (none :: t) = w ++ fill w t := rfl

@[simp] theorem fill_append (s t : Template) : fill w (s ++ t) = fill w s ++ fill w t :=
  List.flatMap_append

@[simp] theorem fill_map_some (cs : List Char) : fill w (cs.map some) = cs := by
  induction cs with
  | nil => rfl
  | cons c cs ih => rw [List.map_cons, fill_some, ih]

theorem head?_fill_ne {d : Char} (hd : isIdent d = false) (hu : u.head? ≠ some (some d))
    (hw : IsName w) : (fill w u).head? ≠ some d := by
  cases u with
  | nil => simp
  | cons slot u =>
      cases slot with
      | some c => simpa using hu
      | none =>
          obtain ⟨c, cs, rfl, hc⟩ := hw.start
          simpa using ne_of_isIdent (isIdent_of_isIdentStart hc) hd

theorem length_fill_pos (hw : IsName w) (ht : t ≠ []) : 0 < (fill w t).length := by
  cases t with
  | nil => exact absurd rfl ht
  | cons slot t =>
      cases slot with
      | some c => simp
      | none =>
          have hpos := hw.length_pos
          rw [fill_none, List.length_append]
          omega

/-- A place of a template is known by the length of the text before it. -/
theorem prefix_unique (hw : IsName w) :
    ∀ {s s' u u' : Template}, s ++ u = s' ++ u' → (fill w s).length = (fill w s').length → s = s'
  | [], [], _, _, _, _ => rfl
  | [], slot :: s', _, _, _, hlen => by
      have := length_fill_pos hw (List.cons_ne_nil slot s')
      rw [fill_nil, List.length_nil] at hlen
      omega
  | slot :: s, [], _, _, _, hlen => by
      have := length_fill_pos hw (List.cons_ne_nil slot s)
      rw [fill_nil, List.length_nil] at hlen
      omega
  | slot :: s, slot' :: s', u, u', heq, hlen => by
      simp only [List.cons_append, List.cons.injEq] at heq
      obtain ⟨rfl, heq⟩ := heq
      have hlen' : (fill w s).length = (fill w s').length := by
        cases slot <;> simpa using hlen
      rw [prefix_unique hw heq hlen']

theorem none_not_mem_map_some (cs : List Char) : none ∉ cs.map some := by
  intro h
  obtain ⟨c, -, hc⟩ := List.mem_map.mp h
  cases hc

/-- The holes of a template that starts with characters and a hole. -/
theorem eq_append_hole_iff {cs : List Char} :
    cs.map some ++ none :: t = s ++ none :: u ↔
      s = cs.map some ∧ u = t ∨ ∃ s', s = cs.map some ++ none :: s' ∧ t = s' ++ none :: u := by
  constructor
  · intro h
    rcases List.append_eq_append_iff.mp h with ⟨s', rfl, hs'⟩ | ⟨s', hs, hs'⟩
    · cases s' with
      | nil => exact .inl ⟨List.append_nil _, (List.cons.inj hs').2.symm⟩
      | cons slot s' =>
          obtain ⟨rfl, rfl⟩ := List.cons.inj hs'
          exact .inr ⟨s', rfl, rfl⟩
    · cases s' with
      | nil =>
          rw [List.append_nil] at hs
          exact .inl ⟨hs.symm, (List.cons.inj hs').2⟩
      | cons slot s' =>
          obtain ⟨rfl, -⟩ := List.cons.inj hs'
          exact absurd (hs ▸ by simp) (none_not_mem_map_some cs)
  · rintro (⟨rfl, rfl⟩ | ⟨s', rfl, rfl⟩)
    · rfl
    · simp

/-! ## Holes that stand apart -/

/-- No identifier character and no other hole is next to a hole. -/
def Apart (t : Template) : Prop :=
  t.IsChain fun a b => (a = none → Slot.inIdent b = false) ∧ (b = none → Slot.inIdent a = false)

namespace Apart

theorem tail {slot : Slot} (h : Apart (slot :: t)) : Apart t := List.IsChain.tail h

theorem left (h : Apart (s ++ t)) : Apart s := List.IsChain.left_of_append h

theorem right (h : Apart (s ++ t)) : Apart t := List.IsChain.right_of_append h

theorem reverse (h : Apart t) : Apart t.reverse := by
  rw [Apart, List.isChain_reverse]
  exact List.IsChain.imp (fun a b hab => ⟨hab.2, hab.1⟩) h

theorem noIdent_behind (h : Apart (none :: t)) : NoIdent (fill w t).head? := by
  cases t with
  | nil =>
      rintro d hd
      cases hd
  | cons slot t =>
      have hslot := (List.isChain_cons_cons.mp h).1.1 rfl
      cases slot with
      | none => exact nomatch hslot
      | some c =>
          rintro d hd
          obtain rfl : c = d := by simpa using hd
          exact hslot

theorem noIdent_before (h : Apart (s ++ none :: t)) : NoIdent (fill w s).getLast? := by
  rcases List.eq_nil_or_concat s with rfl | ⟨s, slot, rfl⟩
  · rintro d hd
    cases hd
  · rw [List.concat_eq_append, List.append_assoc] at h
    have hslot := (List.isChain_cons_cons.mp h.right).1.2 rfl
    cases slot with
    | none => exact nomatch hslot
    | some c =>
        rintro d hd
        obtain rfl : c = d := by simpa using hd
        exact hslot

theorem ne_none {c : Char} {slot : Slot} (h : Apart (some c :: slot :: t))
    (hc : isIdent c = true) : slot ≠ none := by
  intro hslot
  have hno : isIdent c = false := (List.isChain_cons_cons.mp h).1.2 hslot
  rw [hc] at hno
  cases hno

end Apart

theorem apart_map_some : ∀ cs : List Char, Apart (cs.map some)
  | [] => List.IsChain.nil
  | [_] => List.IsChain.singleton _
  | _ :: d :: cs =>
      List.isChain_cons_cons.mpr ⟨⟨by simp, by simp⟩, apart_map_some (d :: cs)⟩

theorem apart_hole {cs : List Char} (hcs : NoIdent cs.getLast?) (ht : Apart t)
    (hhead : ∀ slot ∈ t.head?, Slot.inIdent slot = false) : Apart (cs.map some ++ none :: t) := by
  refine List.isChain_append.mpr ⟨apart_map_some cs, ?_, ?_⟩
  · cases t with
    | nil => exact List.IsChain.singleton _
    | cons slot t =>
        refine List.isChain_cons_cons.mpr ⟨⟨fun _ => hhead slot rfl, ?_⟩, ht⟩
        rintro rfl
        exact nomatch hhead none rfl
  · intro slot hslot hole _
    rw [List.getLast?_map, Option.mem_def, Option.map_eq_some_iff] at hslot
    obtain ⟨c, hc, rfl⟩ := hslot
    exact ⟨by simp, fun _ => hcs c hc⟩

/-! ## Reading a filling -/

/-- What a reader leaves of a filling is one part of the template, whatever the word. -/
def Reads (read : List Char → Option (List Char)) (t : Template) : Prop :=
  (∀ w, IsName w → read (fill w t) = none) ∨
    ∃ s u, t = s ++ u ∧ ∀ w, IsName w → read (fill w t) = some (fill w u)

/-- Like `Reads`, and the last character that is read is a given one. -/
def ReadsTo (last : Char) (read : List Char → Option (List Char)) (t : Template) : Prop :=
  (∀ w, IsName w → read (fill w t) = none) ∨
    ∃ s u, t = s ++ some last :: u ∧ ∀ w, IsName w → read (fill w t) = some (fill w u)

theorem ReadsTo.reads {last : Char} {read : List Char → Option (List Char)}
    (h : ReadsTo last read t) : Reads read t := by
  rcases h with h | ⟨s, u, rfl, h⟩
  · exact .inl h
  · exact .inr ⟨s ++ [some last], u, by simp, h⟩

theorem Reads.bind {last : Char} {f g : List Char → Option (List Char)} (hf : Reads f t)
    (hg : ∀ s u, t = s ++ u → ReadsTo last g u) : ReadsTo last (fun cs => (f cs).bind g) t := by
  rcases hf with hf | ⟨s, u, rfl, hf⟩
  · exact .inl fun w hw => by simp only [hf w hw, Option.bind_none]
  · rcases hg s u rfl with hg | ⟨s', u, rfl, hg⟩
    · exact .inl fun w hw => by simp only [hf w hw, Option.bind_some, hg w hw]
    · refine .inr ⟨s ++ s', u, (List.append_assoc ..).symm, fun w hw => ?_⟩
      simp only [hf w hw, Option.bind_some, hg w hw]

/-- A stretch is left out of all fillings alike if its class holds all of an identifier or none
of it. -/
theorem dropWhile_fill {p : Char → Bool} {b : Bool} (hp : ∀ c, isIdent c = true → p c = b) :
    ∀ t : Template, ∃ s u, t = s ++ u ∧
      ∀ w, w ≠ [] → (∀ c ∈ w, isIdent c = true) → (fill w t).dropWhile p = fill w u
  | [] => ⟨[], [], rfl, fun _ _ _ => rfl⟩
  | some c :: t => by
      by_cases hc : p c = true
      · obtain ⟨s, u, rfl, h⟩ := dropWhile_fill hp t
        refine ⟨some c :: s, u, rfl, fun w hne hw => ?_⟩
        rw [fill_some, List.dropWhile_cons_of_pos hc, h w hne hw]
      · refine ⟨[], some c :: t, rfl, fun w _ _ => ?_⟩
        rw [fill_some, List.dropWhile_cons_of_neg hc]
  | none :: t => by
      cases b with
      | true =>
          obtain ⟨s, u, rfl, h⟩ := dropWhile_fill hp t
          refine ⟨none :: s, u, rfl, fun w hne hw => ?_⟩
          rw [fill_none, List.dropWhile_append_of_pos fun c hc => hp c (hw c hc), h w hne hw]
      | false =>
          refine ⟨[], none :: t, rfl, fun w hne hw => ?_⟩
          obtain ⟨c, cs, rfl⟩ := List.exists_cons_of_ne_nil hne
          rw [fill_none, List.cons_append,
            List.dropWhile_cons_of_neg (by rw [hp c (hw c (List.mem_cons_self ..))]; decide)]

theorem reads_skipBlanks (t : Template) : Reads (fun cs => some (skipBlanks cs)) t := by
  obtain ⟨s, u, ht, h⟩ := dropWhile_fill (fun _ => isBlank_of_isIdent) t
  exact .inr ⟨s, u, ht, fun w hw => congrArg some (h w hw.ne_nil hw.all)⟩

theorem readsTo_after {c : Char} (hc : isIdent c = false) (t : Template) :
    ReadsTo c (after? [c]) t := by
  cases t with
  | nil => exact .inl fun _ _ => rfl
  | cons slot t =>
      cases slot with
      | some d =>
          by_cases hcd : c = d
          · subst hcd
            exact .inr ⟨[], t, rfl, fun w _ => by simp [after?]⟩
          · exact .inl fun w _ => by simp [after?, hcd]
      | none =>
          refine .inl fun w hw => ?_
          obtain ⟨d, ds, rfl, hd⟩ := hw.start
          have hcd : c ≠ d := (ne_of_isIdent (isIdent_of_isIdentStart hd) hc).symm
          simp [after?, hcd]

/-- A name is read alike from all fillings that do not start with a hole. -/
theorem reads_after_name : ∀ {name : List Char} {t : Template}, (∀ c ∈ name, isIdent c = true) →
    Apart t → t.head? ≠ some none → Reads (after? name) t
  | [], t, _, _, _ => .inr ⟨[], t, rfl, fun _ _ => rfl⟩
  | _ :: _, [], _, _, _ => .inl fun _ _ => rfl
  | _ :: _, none :: _, _, _, hhead => absurd rfl hhead
  | p :: ps, some c :: t, hname, ht, _ => by
      by_cases hpc : p = c
      · subst hpc
        have hrest : t.head? ≠ some none := by
          cases t with
          | nil => simp
          | cons slot t => simpa using ht.ne_none (hname p (List.mem_cons_self ..))
        rcases reads_after_name (fun d hd => hname d (List.mem_cons_of_mem _ hd)) ht.tail hrest with
          h | ⟨s, u, rfl, h⟩
        · exact .inl fun w hw => by simpa [after?] using h w hw
        · exact .inr ⟨some p :: s, u, rfl, fun w hw => by simpa [after?] using h w hw⟩
      · exact .inl fun w _ => by simp [after?, hpc]

end Template

end DesignTokens.Text
