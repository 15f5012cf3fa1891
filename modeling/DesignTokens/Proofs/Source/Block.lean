import DesignTokens.Proofs.Source.Cursor
import DesignTokens.Proofs.Source.Key
import DesignTokens.Proofs.Text.Search
import DesignTokens.Source.Block

/-!
# The variant block of a template

The variant block of a filling and its entries lie at the same place of the
template whatever the word, as long as the word does not bring in the name of
the call or the word `variants` (`Plain`). Each key of the block is then one of
three things (`BlockKey.cases`): a short key out of a line comment, characters
of the template, which every filling has as a key, or a hole, whose word is a
key in every filling.
-/

namespace DesignTokens.Source

open Text Template

/-! ## Matching braces -/

theorem closingFrom_open {c : Char} {r : Region} (h : (r = .code && c = '\x7b') = true)
    (depth pos : Nat) (cs : List (Char × Region)) :
    closingFrom depth pos ((c, r) :: cs) = closingFrom (depth + 1) (pos + 1) cs := by
  rw [closingFrom.eq_def]
  exact if_pos h

theorem closingFrom_other {c : Char} {r : Region} (hopen : ¬(r = .code && c = '\x7b') = true)
    (hclose : ¬(r = .code && c = '\x7d') = true) (depth pos : Nat) (cs : List (Char × Region)) :
    closingFrom depth pos ((c, r) :: cs) = closingFrom depth (pos + 1) cs := by
  rw [closingFrom.eq_def]
  exact (if_neg hopen).trans (if_neg hclose)

theorem closingFrom_word {r : Region} {rest : List (Char × Region)} {depth : Nat} :
    ∀ {w : List Char} {pos : Nat}, (∀ c ∈ w, isIdent c = true) →
      closingFrom depth pos (w.map (·, r) ++ rest) = closingFrom depth (pos + w.length) rest
  | [], _, _ => rfl
  | c :: w, pos, hw => by
      have hc := hw c (List.mem_cons_self ..)
      have hopen : c ≠ '\x7b' := ne_of_isIdent hc (by decide)
      have hclose : c ≠ '\x7d' := ne_of_isIdent hc (by decide)
      rw [List.map_cons, List.cons_append, closingFrom_other (by simp [hopen]) (by simp [hclose]),
        closingFrom_word fun d hd => hw d (List.mem_cons_of_mem c hd), List.length_cons,
        Nat.add_right_comm, Nat.add_assoc]

/-- The closing brace of a divided template. -/
def ClosesIn (depth : Nat) (marks : Marks) : Prop :=
  (∀ w pos, IsName w → closingFrom depth pos (marks.fill w) = none) ∨
    ∃ s u, marks.map (·.1) = s ++ some '\x7d' :: u ∧ ∀ w pos, IsName w →
      closingFrom depth pos (marks.fill w) = some (pos + (fill w s).length)

theorem ClosesIn.cons {depth inside : Nat} {slot : Slot} {r : Region} {marks : Marks}
    (h : ClosesIn inside marks)
    (hstep : ∀ w pos, IsName w → closingFrom depth pos (Marks.fill w ((slot, r) :: marks))
      = closingFrom inside (pos + (slot.fill w).length) (marks.fill w)) :
    ClosesIn depth ((slot, r) :: marks) := by
  rcases h with h | ⟨s, u, hu, h⟩
  · exact .inl fun w pos hw => (hstep w pos hw).trans (h w _ hw)
  · refine .inr ⟨slot :: s, u, by rw [List.map_cons, hu, List.cons_append], fun w pos hw => ?_⟩
    rw [hstep w pos hw, h w _ hw, fill, fill, List.flatMap_cons, List.length_append, Nat.add_assoc]

theorem closesIn : ∀ (marks : Marks) (depth : Nat), ClosesIn depth marks
  | [], _ => .inl fun _ _ _ => rfl
  | (none, r) :: marks, depth =>
      (closesIn marks depth).cons fun w pos hw => by
        rw [Marks.fill_none, closingFrom_word hw.all]
        rfl
  | (some c, r) :: marks, depth => by
      by_cases hopen : (r = .code && c = '\x7b') = true
      · refine (closesIn marks (depth + 1)).cons fun w pos _ => ?_
        exact closingFrom_open hopen depth pos _
      · by_cases hclose : (r = .code && c = '\x7d') = true
        · match depth with
          | 0 =>
              refine .inl fun w pos _ => ?_
              rw [Marks.fill_some, closingFrom, if_neg hopen, if_pos hclose]
          | 1 =>
              simp only [Bool.and_eq_true, decide_eq_true_eq] at hclose
              refine .inr ⟨[], marks.map (·.1), by simp [hclose], fun w pos _ => ?_⟩
              rw [Marks.fill_some, closingFrom, if_neg hopen, if_pos (by simp [hclose])]
              rfl
          | depth + 2 =>
              refine (closesIn marks (depth + 1)).cons fun w pos _ => ?_
              rw [Marks.fill_some, closingFrom, if_neg hopen, if_pos hclose]
              rfl
        · refine (closesIn marks depth).cons fun w pos _ => ?_
          exact closingFrom_other hopen hclose depth pos _

/-! ## Pieces between commas -/

/-- The number of open brackets behind a character. -/
def depthBehind (depth : Nat) (c : Char) (r : Region) : Nat :=
  if r ≠ .code then depth
  else if c = '\x7b' || c = '[' || c = '(' then depth + 1
  else if c = '\x7d' || c = ']' || c = ')' then depth - 1
  else depth

theorem depthBehind_of_isIdent {c : Char} (hc : isIdent c = true) (depth : Nat) (r : Region) :
    depthBehind depth c r = depth := by
  have hne : ∀ d, isIdent d = false → c ≠ d := fun d hd => ne_of_isIdent hc hd
  simp [depthBehind, hne '\x7b' (by decide), hne '[' (by decide), hne '(' (by decide),
    hne '\x7d' (by decide), hne ']' (by decide), hne ')' (by decide)]

theorem segmentsFrom_comma {c : Char} {r : Region} {depth : Nat}
    (h : (r = .code && depth = 0 && c = ',') = true) (pos : Nat) (cs : List (Char × Region)) :
    segmentsFrom depth pos ((c, r) :: cs) = (pos, []) :: segmentsFrom 0 (pos + 1) cs := by
  rw [segmentsFrom, if_pos h]

theorem segmentsFrom_other {c : Char} {r : Region} {depth pos p : Nat} {cs : List (Char × Region)}
    {piece : List Char} {later : List (Nat × List Char)}
    (hcomma : ¬(r = .code && depth = 0 && c = ',') = true)
    (h : segmentsFrom (depthBehind depth c r) (pos + 1) cs = (p, piece) :: later) :
    segmentsFrom depth pos ((c, r) :: cs) = (pos, c :: piece) :: later := by
  rw [segmentsFrom, if_neg hcomma]
  rw [depthBehind] at h
  simp only [h]

theorem segmentsFrom_word {r : Region} {rest : List (Char × Region)} {depth : Nat} :
    ∀ {w : List Char} {pos : Nat} {piece : List Char} {later : List (Nat × List Char)},
      (∀ c ∈ w, isIdent c = true) →
      segmentsFrom depth (pos + w.length) rest = (pos + w.length, piece) :: later →
      segmentsFrom depth pos (w.map (·, r) ++ rest) = (pos, w ++ piece) :: later
  | [], _, _, _, _, h => h
  | c :: w, pos, piece, later, hw, h => by
      have hc := hw c (List.mem_cons_self ..)
      have ih : segmentsFrom depth (pos + 1) (w.map (·, r) ++ rest)
          = (pos + 1, w ++ piece) :: later :=
        segmentsFrom_word (fun d hd => hw d (List.mem_cons_of_mem c hd))
          (by rwa [List.length_cons, Nat.add_comm w.length, ← Nat.add_assoc] at h)
      have hcomma : c ≠ ',' := ne_of_isIdent hc (by decide)
      refine segmentsFrom_other (p := pos + 1) (by simp [hcomma]) ?_
      rw [depthBehind_of_isIdent hc]
      exact ih

/-- The pieces of a divided template: the first one, and each later one with what stands before
it. -/
structure Pieces (depth : Nat) (marks : Marks) where
  first : Template
  later : List (Template × Template)
  first_part : ∃ u, marks.map (·.1) = first ++ u
  later_part : ∀ x ∈ later, ∃ u, marks.map (·.1) = x.1 ++ x.2 ++ u
  segments : ∀ w pos, IsName w → segmentsFrom depth pos (marks.fill w)
    = (pos, fill w first) :: later.map fun x => (pos + (fill w x.1).length, fill w x.2)

def Pieces.cons {depth inside : Nat} {slot : Slot} {r : Region} {marks : Marks}
    (ps : Pieces inside marks)
    (hstep : ∀ w pos piece later, IsName w →
      segmentsFrom inside (pos + (slot.fill w).length) (marks.fill w)
        = (pos + (slot.fill w).length, piece) :: later →
      segmentsFrom depth pos (Marks.fill w ((slot, r) :: marks))
        = (pos, slot.fill w ++ piece) :: later) :
    Pieces depth ((slot, r) :: marks) where
  first := slot :: ps.first
  later := ps.later.map fun x => (slot :: x.1, x.2)
  first_part := by
    obtain ⟨u, hu⟩ := ps.first_part
    exact ⟨u, by rw [List.map_cons, hu, List.cons_append]⟩
  later_part := by
    intro x hx
    obtain ⟨y, hy, rfl⟩ := List.mem_map.mp hx
    obtain ⟨u, hu⟩ := ps.later_part y hy
    exact ⟨u, by rw [List.map_cons, hu]; rfl⟩
  segments := by
    intro w pos hw
    rw [hstep w pos _ _ hw (ps.segments w _ hw), List.map_map]
    simp [fill, Nat.add_assoc, Function.comp_def]

def Pieces.comma {c : Char} {r : Region} {depth : Nat} {marks : Marks} (ps : Pieces 0 marks)
    (h : (r = .code && depth = 0 && c = ',') = true) : Pieces depth ((some c, r) :: marks) where
  first := []
  later := ([some c], ps.first) :: ps.later.map fun x => (some c :: x.1, x.2)
  first_part := ⟨_, rfl⟩
  later_part := by
    intro x hx
    rcases List.mem_cons.mp hx with rfl | hx
    · obtain ⟨u, hu⟩ := ps.first_part
      exact ⟨u, by rw [List.map_cons, hu]; rfl⟩
    · obtain ⟨y, hy, rfl⟩ := List.mem_map.mp hx
      obtain ⟨u, hu⟩ := ps.later_part y hy
      exact ⟨u, by rw [List.map_cons, hu]; rfl⟩
  segments := by
    intro w pos hw
    rw [Marks.fill_some, segmentsFrom_comma h, ps.segments w _ hw]
    simp [Nat.add_assoc, Nat.add_comm 1, Function.comp_def]

namespace Pieces

variable {depth : Nat} {marks : Marks}

def all (ps : Pieces depth marks) : List (Template × Template) := ([], ps.first) :: ps.later

theorem part (ps : Pieces depth marks) {x : Template × Template} (hx : x ∈ ps.all) :
    ∃ u, marks.map (·.1) = x.1 ++ x.2 ++ u := by
  rcases List.mem_cons.mp hx with rfl | hx
  · exact ps.first_part
  · exact ps.later_part x hx

theorem segments_all (ps : Pieces depth marks) {w : List Char} (hw : IsName w) (pos : Nat) :
    segmentsFrom depth pos (marks.fill w)
      = ps.all.map fun x => (pos + (fill w x.1).length, fill w x.2) := by
  rw [ps.segments w pos hw]
  rfl

end Pieces

/-- All fillings of a template are cut into the same pieces. -/
theorem exists_pieces : ∀ (marks : Marks) (depth : Nat), Nonempty (Pieces depth marks)
  | [], _ => ⟨⟨[], [], ⟨[], rfl⟩, by simp, fun _ _ _ => rfl⟩⟩
  | (none, r) :: marks, depth => by
      obtain ⟨ps⟩ := exists_pieces marks depth
      exact ⟨ps.cons fun w pos piece later hw h => segmentsFrom_word hw.all h⟩
  | (some c, r) :: marks, depth => by
      by_cases hcomma : (r = .code && depth = 0 && c = ',') = true
      · obtain ⟨ps⟩ := exists_pieces marks 0
        exact ⟨ps.comma hcomma⟩
      · obtain ⟨ps⟩ := exists_pieces marks (depthBehind depth c r)
        exact ⟨ps.cons fun w pos piece later _ h => segmentsFrom_other hcomma h⟩

/-! ## The block -/

def variantsName : List Char := ['v', 'a', 'r', 'i', 'a', 'n', 't', 's']

theorem toList_variants : "variants".toList = variantsName := by decide

theorem isName_variantsName : IsName variantsName :=
  ⟨⟨'v', ['a', 'r', 'i', 'a', 'n', 't', 's'], rfl, by decide⟩, List.all_eq_true.mp (by decide)⟩

/-- What is read behind the name of a call. -/
def readCall (cs : List Char) : Option (List Char) := after? ['('] (skipBlanks cs)

/-- What is read behind the word `variants`. -/
def readVariants (cs : List Char) : Option (List Char) :=
  (after? [':'] (skipBlanks cs)).bind fun more => after? ['\x7b'] (skipBlanks more)

theorem readsTo_readCall (t : Template) : ReadsTo '(' readCall t :=
  (reads_skipBlanks t).bind fun _ u _ => readsTo_after (by decide) u

theorem readsTo_readVariants (t : Template) : ReadsTo '\x7b' readVariants t := by
  have hcolon : ReadsTo ':' (fun cs => (some (skipBlanks cs)).bind (after? [':'])) t :=
    (reads_skipBlanks t).bind fun _ u _ => readsTo_after (by decide) u
  exact hcolon.reads.bind fun _ u _ =>
    (reads_skipBlanks u).bind fun _ u _ => readsTo_after (by decide) u

theorem readCall_eq_none {c : Char} (hc : isIdent c = true) (cs : List Char) :
    readCall (c :: cs) = none := by
  have hparen : '(' ≠ c := (ne_of_isIdent hc (by decide)).symm
  simp [readCall, skipBlanks, isBlank_of_isIdent hc, after?, hparen]

theorem readVariants_eq_none {c : Char} (hc : isIdent c = true) (cs : List Char) :
    readVariants (c :: cs) = none := by
  have hcolon : ':' ≠ c := (ne_of_isIdent hc (by decide)).symm
  simp [readVariants, skipBlanks, isBlank_of_isIdent hc, after?, hcolon]

theorem callPattern_eq (call : List Char) : callPattern call = namePattern call readCall := by
  funext before rest
  rw [callPattern, namePattern]
  cases isBoundary before rest.head? with
  | false => rfl
  | true =>
      cases after? call rest with
      | none => rfl
      | some behind =>
          rw [Option.map_some, Option.bind_some, readCall]
          cases skipBlanks behind with
          | nil => rfl
          | cons c cs =>
              by_cases hc : c = '('
              · subst hc
                rfl
              · simp [after?, Ne.symm hc, hc]

theorem variantsPattern_eq : variantsPattern = namePattern variantsName readVariants := by
  funext before rest
  have hboundary : ∀ behind, after? variantsName rest = some behind →
      isBoundary before rest.head? = !wordAt before := by
    intro behind h
    cases rest with
    | nil => cases h
    | cons c cs =>
        by_cases hc : 'v' = c
        · subst hc
          cases hb : wordAt before <;> simp [isBoundary, hb] <;> decide
        · have hnone : after? variantsName (c :: cs) = none := if_neg hc
          rw [hnone] at h
          cases h
  rw [variantsPattern, namePattern, toList_variants]
  cases hname : after? variantsName rest with
  | none => simp
  | some behind =>
      rw [hboundary behind hname, Option.map_some, Option.bind_some, readVariants]
      cases wordAt before with
      | true => rfl
      | false =>
          cases skipBlanks behind with
          | nil => rfl
          | cons c cs =>
              by_cases hc : c = ':'
              · subst hc
                simp only [after?, if_true, Option.bind_some]
                cases skipBlanks cs with
                | nil => rfl
                | cons d ds =>
                    by_cases hd : d = '\x7b'
                    · subst hd
                      rfl
                    · simp [after?, Ne.symm hd, hd]
              · simp [after?, Ne.symm hc, hc]

/-- A word that brings in neither the name of the call nor the word `variants`. -/
structure Plain (call w : List Char) : Prop where
  isName : IsName w
  not_call : ¬EndsInName call w
  not_variants : ¬EndsInName variantsName w

section

variable {call : List Char} {t : Template}

theorem exists_start (hcall : IsName call) (h : Apart t) :
    ∃ s r, t = s ++ r ∧ ∀ w, Plain call w →
      (((callPattern call).first? (fill w t)).map Span.stop).getD 0 = (fill w s).length := by
  rw [callPattern_eq]
  rcases firstFrom?_fill (s := []) hcall readsTo_readCall (fun _ cs hc => readCall_eq_none hc cs) h
    with hnone | ⟨a, b, r, ht, hsome⟩
  · refine ⟨[], t, rfl, fun w hw => ?_⟩
    have hfirst : (namePattern call readCall).first? (fill w t) = none :=
      hnone w hw.isName hw.not_call
    rw [hfirst]
    rfl
  · refine ⟨a ++ b ++ [some '('], r, by simpa using ht, fun w hw => ?_⟩
    have hfirst : (namePattern call readCall).first? (fill w t)
        = some ⟨(fill w ([] ++ a)).length, (fill w b).length + 1⟩ := hsome w hw.isName hw.not_call
    rw [hfirst]
    simp [Span.stop]

theorem exists_opening_behind (call : List Char) {s r : Template} (h : Apart (s ++ r)) :
    (∀ w, Plain call w →
        variantsPattern.firstBehind? (fill w (s ++ r)) (fill w s).length = none) ∨
      ∃ a r', s ++ r = a ++ some '\x7b' :: r' ∧ ∀ w, Plain call w →
        ∃ f, variantsPattern.firstBehind? (fill w (s ++ r)) (fill w s).length = some f ∧
          f.stop - 1 = (fill w a).length := by
  have hbehind : ∀ w, variantsPattern.firstBehind? (fill w (s ++ r)) (fill w s).length
      = (namePattern variantsName readVariants).firstFrom? (fill w s).getLast? (fill w s).length
        (fill w r) := by
    intro w
    rw [variantsPattern_eq, Pattern.firstBehind?, fill_append, List.take_left, List.drop_left]
  rcases firstFrom?_fill isName_variantsName readsTo_readVariants
    (fun _ cs hc => readVariants_eq_none hc cs) h with hnone | ⟨a, b, r', ht, hsome⟩
  · exact .inl fun w hw => (hbehind w).trans (hnone w hw.isName hw.not_variants)
  · refine .inr ⟨s ++ a ++ b, r', by simp [ht], fun w hw => ?_⟩
    refine ⟨_, (hbehind w).trans (hsome w hw.isName hw.not_variants), ?_⟩
    simp only [Span.stop, fill_append, List.length_append]
    omega

theorem variantBlock?_eq (call text : List Char) :
    variantBlock? call text
      = ((variantsPattern.firstBehind? text
          ((((callPattern call).first? text).map Span.stop).getD 0)).or
        (variantsPattern.first? text)).bind fun found =>
          (matchingBrace? text (found.stop - 1)).map fun closing =>
            ⟨found.stop - 1, closing⟩ := by
  simp only [variantBlock?, Option.bind_eq_bind, Option.map_eq_bind]
  rfl

theorem exists_opening (hcall : IsName call) (h : Apart t) :
    (∀ w, Plain call w → variantBlock? call (fill w t) = none) ∨
      ∃ a r, t = a ++ some '\x7b' :: r ∧ ∀ w, Plain call w →
        variantBlock? call (fill w t)
          = (matchingBrace? (fill w t) (fill w a).length).map fun closing =>
            ⟨(fill w a).length, closing⟩ := by
  obtain ⟨s, r, rfl, hstart⟩ := exists_start hcall h
  have hfirst : ∀ w, variantsPattern.first? (fill w (s ++ r))
      = variantsPattern.firstBehind? (fill w ([] ++ (s ++ r))) (fill w []).length := by
    intro w
    simp [Pattern.first?, Pattern.firstBehind?]
  rcases exists_opening_behind call h with hnone | ⟨a, r', ht, hsome⟩
  · rcases exists_opening_behind call (s := []) (r := s ++ r) h
      with hnone' | ⟨a, r', ht, hsome⟩
    · refine .inl fun w hw => ?_
      rw [variantBlock?_eq, hstart w hw, hnone w hw, hfirst, hnone' w hw]
      rfl
    · refine .inr ⟨a, r', ht, fun w hw => ?_⟩
      obtain ⟨f, hf, hstop⟩ := hsome w hw
      rw [variantBlock?_eq, hstart w hw, hnone w hw, hfirst, hf, Option.none_or, Option.bind_some,
        hstop]
  · refine .inr ⟨a, r', ht, fun w hw => ?_⟩
    obtain ⟨f, hf, hstop⟩ := hsome w hw
    rw [variantBlock?_eq, hstart w hw, hf, Option.some_or, Option.bind_some, hstop]

/-- The block lies at the same place of all fillings. -/
theorem variantBlock?_fill (hcall : IsName call) (h : Apart t) :
    (∀ w, Plain call w → variantBlock? call (fill w t) = none) ∨
      ∃ a b c, t = a ++ some '\x7b' :: (b ++ some '\x7d' :: c) ∧ ∀ w, Plain call w →
        variantBlock? call (fill w t)
          = some ⟨(fill w a).length, (fill w a).length + 1 + (fill w b).length⟩ := by
  rcases exists_opening hcall h with hnone | ⟨a, r, rfl, hblock⟩
  · exact .inl hnone
  · obtain ⟨marks, hmarks, hregions⟩ := exists_regions_fill (some '\x7b' :: r)
    have hclosing : ∀ w, IsName w →
        matchingBrace? (fill w (a ++ some '\x7b' :: r)) (fill w a).length
          = closingFrom 0 (fill w a).length (marks.fill w) := by
      intro w hw
      rw [matchingBrace?, fill_append, List.drop_left, hregions w hw]
    rcases closesIn marks 0 with hnone | ⟨s, c, hs, hsome⟩
    · refine .inl fun w hw => ?_
      rw [hblock w hw, hclosing w hw.isName, hnone w _ hw.isName, Option.map_none]
    · rw [hmarks] at hs
      cases s with
      | nil => simp at hs
      | cons slot b =>
          simp only [List.cons_append, List.cons.injEq] at hs
          obtain ⟨rfl, rfl⟩ := hs
          refine .inr ⟨a, b, c, rfl, fun w hw => ?_⟩
          rw [hblock w hw, hclosing w hw.isName, hsome w _ hw.isName, Option.map_some, fill_some,
            List.length_cons]
          congr 2
          omega

/-! ## The keys of the block -/

/-- The variant block of the text has the unquoted key, at the given position. -/
def BlockKey (call text key : List Char) (pos : Nat) : Prop :=
  ∃ b, variantBlock? call text = some b ∧ ∃ e ∈ entries text b.opening b.closing,
    e.quoted = false ∧ e.key = key ∧ e.keyStart = pos

theorem blockKey_iff {text key : List Char} {b : Block} {n : Nat}
    (hblock : variantBlock? call text = some b) :
    BlockKey call text key n ↔ ∃ pos piece k,
      (pos, piece) ∈ segmentsFrom 0 (b.opening + 1) (regions (between text b.opening b.closing)) ∧
      key? piece = some k ∧ k.quoted = false ∧ k.text = key ∧
        pos + (piece.length - k.fromKey) = n := by
  constructor
  · rintro ⟨b', hb', e, he, hquoted, hkey, hn⟩
    rw [hblock, Option.some.injEq] at hb'
    subst hb'
    obtain ⟨⟨pos, piece⟩, hpiece, hmap⟩ := List.mem_filterMap.mp he
    obtain ⟨k, hk, rfl⟩ := Option.map_eq_some_iff.mp hmap
    exact ⟨pos, piece, k, hpiece, hk, hquoted, hkey, hn⟩
  · rintro ⟨pos, piece, k, hpiece, hk, hquoted, hkey, hn⟩
    let e : Entry :=
      ⟨k.text, k.quoted, pos + (piece.length - k.fromKey), pos + (piece.length - k.fromValue)⟩
    refine ⟨b, hblock, e, List.mem_filterMap.mpr ⟨(pos, piece), hpiece, ?_⟩, hquoted, hkey, hn⟩
    exact Option.map_eq_some_iff.mpr ⟨k, hk, rfl⟩

theorem between_fill {w : List Char} {a b c : Template} :
    between (fill w (a ++ some '\x7b' :: (b ++ some '\x7d' :: c))) (fill w a).length
      ((fill w a).length + 1 + (fill w b).length) = fill w b := by
  have hdrop : (fill w (a ++ some '\x7b' :: (b ++ some '\x7d' :: c))).drop ((fill w a).length + 1)
      = fill w b ++ '\x7d' :: fill w c := by
    rw [fill_append, fill_some, ← List.drop_drop, List.drop_left]
    simp
  rw [between, hdrop, Nat.add_sub_cancel_left, List.take_left]

/-- The pieces of the block lie at the same places of all fillings. -/
theorem exists_blockPieces (hcall : IsName call) (h : Apart t) :
    ∃ parts : List (Template × Template), (∀ x ∈ parts, ∃ u, t = x.1 ++ x.2 ++ u) ∧
      ∀ w, Plain call w → ∀ key n, BlockKey call (fill w t) key n ↔
        ∃ x ∈ parts, ∃ k, key? (fill w x.2) = some k ∧ k.quoted = false ∧ k.text = key ∧
          (fill w x.1).length + ((fill w x.2).length - k.fromKey) = n := by
  rcases variantBlock?_fill hcall h with hnone | ⟨a, b, c, rfl, hsome⟩
  · refine ⟨[], by simp, fun w hw key n => ?_⟩
    simp [BlockKey, hnone w hw]
  · obtain ⟨marks, rfl, hregions⟩ := exists_regions_fill b
    obtain ⟨ps⟩ := exists_pieces marks 0
    refine ⟨ps.all.map fun x => (a ++ some '\x7b' :: x.1, x.2), fun y hy => ?_, ?_⟩
    · obtain ⟨x, hx, rfl⟩ := List.mem_map.mp hy
      obtain ⟨u, hu⟩ := ps.part hx
      exact ⟨u ++ some '\x7d' :: c, by simp [hu]⟩
    · intro w hw key n
      have hplace : ∀ x : Template × Template,
          (fill w (a ++ some '\x7b' :: x.1)).length
            = (fill w a).length + 1 + (fill w x.1).length := fun x => by
        simp only [fill_append, fill_some, List.length_append, List.length_cons]
        omega
      rw [blockKey_iff (hsome w hw)]
      simp only [between_fill, hregions w hw.isName, ps.segments_all hw.isName, List.mem_map]
      constructor
      · rintro ⟨_, _, k, ⟨x, hx, hpiece⟩, hk⟩
        cases hpiece
        exact ⟨_, ⟨x, hx, rfl⟩, k, by rwa [hplace x]⟩
      · rintro ⟨_, ⟨x, hx, rfl⟩, k, hk⟩
        rw [hplace x] at hk
        exact ⟨_, _, k, ⟨x, hx, rfl⟩, hk⟩

/-- A key of the block of a filling is a short one, or characters that all fillings have as a key,
or the word in a hole, which is a key in all fillings. -/
theorem BlockKey.cases (hcall : IsName call) (h : Apart t) {w key : List Char} {n : Nat}
    (hw : Plain call w) (hkey : BlockKey call (fill w t) key n) :
    Short key ∨
      (∃ s c u, t = s ++ some c :: u ∧ n = (fill w s).length ∧
        ∀ w', Plain call w' → BlockKey call (fill w' t) key (fill w' s).length) ∨
      ∃ s u, t = s ++ none :: u ∧ n = (fill w s).length ∧ key = w ∧
        ∀ w', Plain call w' → BlockKey call (fill w' t) w' (fill w' s).length := by
  obtain ⟨parts, hparts, hblock⟩ := exists_blockPieces hcall h
  obtain ⟨x, hx, k, hk, hquoted, rfl, rfl⟩ := (hblock w hw key n).mp hkey
  obtain ⟨v, ht⟩ := hparts x hx
  have hapart : Apart x.2 := by
    rw [ht] at h
    exact h.left.right
  have hpart : ∀ {s u : Template} {slot : Slot}, x.2 = s ++ slot :: u →
      t = (x.1 ++ s) ++ slot :: (u ++ v) := fun hs => by simp [ht, hs]
  have hplace : ∀ (w : List Char) {s u : Template} {slot : Slot}, x.2 = s ++ slot :: u →
      (fill w x.1).length + ((fill w x.2).length - (fill w (slot :: u)).length)
        = (fill w (x.1 ++ s)).length := fun w s u slot hs => by
    rw [hs]
    simp only [fill_append, List.length_append]
    omega
  -- a key of the piece is a key of the block in each filling
  have hback : ∀ {w : List Char} {s u : Template} {slot : Slot} {k : Key}, Plain call w →
      x.2 = s ++ slot :: u → key? (fill w x.2) = some k → k.quoted = false →
      k.fromKey = (fill w (slot :: u)).length →
      BlockKey call (fill w t) k.text (fill w (x.1 ++ s)).length := by
    intro w s u slot k hw hs hk hquoted hfrom
    exact (hblock w hw _ _).mpr ⟨x, hx, k, hk, hquoted, rfl, by rw [hfrom, hplace w hs]⟩
  cases front_key hapart with
  | none hnone =>
      rw [hnone w hw.isName] at hk
      cases hk
  | quoted hall =>
      obtain ⟨k', hk', hquoted'⟩ := hall w hw.isName
      rw [hk, Option.some.injEq] at hk'
      rw [← hk', hquoted] at hquoted'
      cases hquoted'
  | short hall =>
      obtain ⟨k', hk', -, hshort⟩ := hall w hw.isName
      rw [hk, Option.some.injEq] at hk'
      exact .inl (hk' ▸ hshort)
  | literal s d u name hs hall =>
      obtain ⟨k', hk', -, htext, hfrom⟩ := hall w hw.isName
      rw [hk, Option.some.injEq] at hk'
      subst hk'
      refine .inr (.inl ⟨x.1 ++ s, d, u ++ v, hpart hs, ?_, fun w' hw' => ?_⟩)
      · rw [hfrom, hplace w hs]
      · obtain ⟨k', hk', hquoted', htext', hfrom'⟩ := hall w' hw'.isName
        rw [htext, ← htext']
        exact hback hw' hs hk' hquoted' hfrom'
  | hole s u hs hall =>
      obtain ⟨k', hk', -, htext, hfrom⟩ := hall w hw.isName
      rw [hk, Option.some.injEq] at hk'
      subst hk'
      refine .inr (.inr ⟨x.1 ++ s, u ++ v, hpart hs, ?_, htext, fun w' hw' => ?_⟩)
      · rw [hfrom, hplace w hs]
      · obtain ⟨k', hk', hquoted', htext', hfrom'⟩ := hall w' hw'.isName
        have hkey' := hback hw' hs hk' hquoted' hfrom'
        rwa [htext'] at hkey'

end

end DesignTokens.Source
