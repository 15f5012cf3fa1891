import DesignTokens.Proofs.Bytewise.View
import DesignTokens.Proofs.Text.Trim
import DesignTokens.Proofs.Token.Occurrences

/-!
# Tokens by their bytes

A scanner looks for the tokens of a property one after the other, each time from
the end of the last one on. A token takes a byte at least and starts behind the
place where the search for it started, so the places go up and the search comes
to an end (`exists_tokensFrom`). What is replaced is the stretch of the first
token, from one byte of a character to another (`replaceFirst?_eq`).
-/

namespace DesignTokens.Bytewise

open Text

/-! ## Reading a token -/

/-- The token without the modifiers in front of it. -/
def stripModifiers (token : List Char) : Run (List Char) := do
  let front ← slice token 0 (byteLength (token.takeWhile (· ≠ '[')))
  if front.contains ':' then sliceFrom token (byteLength (dropEndWhile (· ≠ ':') front))
  else return token

/-- The pixels that a token of a property stands for. -/
def pixels? (p : Property) (token : List Char) : Run (Option Nat) := do
  let bare ← stripModifiers (trim token)
  return p.barePixels? bare

theorem stripModifiers_eq (token : List Char) :
    stripModifiers token = .ok (DesignTokens.stripModifiers token) := by
  have hcut : token.takeWhile (· ≠ '[') ++ token.dropWhile (· ≠ '[') = token :=
    List.takeWhile_append_dropWhile
  rw [stripModifiers, DesignTokens.stripModifiers]
  generalize token.takeWhile (· ≠ '[') = front at hcut ⊢
  generalize token.dropWhile (· ≠ '[') = rest at hcut ⊢
  subst hcut
  rw [slice_zero, ok_bind, afterLastColon]
  split
  case isTrue =>
    have h := sliceFrom_append (dropEndWhile (· ≠ ':') front)
      ((front.reverse.takeWhile (· ≠ ':')).reverse ++ rest)
    rwa [← List.append_assoc, dropEndWhile_append] at h
  case isFalse hcolon =>
    have hall : front.reverse.takeWhile (· ≠ ':') = front.reverse := by
      refine List.takeWhile_eq_self_iff.mpr fun c hc => decide_eq_true fun h => hcolon ?_
      exact List.contains_iff_mem.mpr (h ▸ List.mem_reverse.mp hc)
    rw [hall, List.reverse_reverse]
    rfl

theorem pixels?_eq (p : Property) (token : List Char) :
    pixels? p token = .ok (p.pixels? token) := by
  rw [pixels?, stripModifiers_eq]
  rfl

/-! ## The tokens of a property -/

/-- Whether a search from a place on can find a token: the token starts the text, or its lead
character is not before the place. -/
def isAhead (text : List Char) (pos : Nat) (o : Occurrence) : Bool :=
  (pos = 0 && o.start = 0) || pos < o.byteStart text

/-- The leftmost token from a place on. -/
def tokenFrom? (p : Property) (text : List Char) (pos : Nat) : Run (Option Occurrence) := do
  let _ ← boundary text pos
  return (p.occurrences text).find? (isAhead text pos)

/-- The tokens from a place on. -/
def tokensFrom (p : Property) (text : List Char) (pos : Nat) : Run (List Occurrence) :=
  if pos ≤ byteLength text then do
    match ← tokenFrom? p text pos with
    | none => return []
    | some o => do
      let pixels ← pixels? p o.token
      if pos < o.byteStop text then do
        let later ← tokensFrom p text (o.byteStop text)
        return { o with pixels } :: later
      else throw .stuck
  else return []
termination_by byteLength text + 1 - pos

/-- The first token of a property. -/
def firstToken? (p : Property) (text : List Char) : Run (Option Occurrence) := do
  let found ← tokensFrom p text 0
  return found.head?

/-- The earliest token among several properties. -/
def earliestToken? (ps : List Property) (text : List Char) : Run (Option Occurrence) := do
  let found ← ps.mapM fun p => firstToken? p text
  match found.reduceOption with
  | [] => return none
  | o :: os => return some (os.foldl .earlier o)

/-- The text with the first token of a property replaced, if the property has one. -/
def replaceFirst? (p : Property) (text token : List Char) : Run (Option (List Char)) := do
  match ← firstToken? p text with
  | none => return none
  | some o => do
    let before ← slice text 0 (o.byteStart text)
    let _ ← slice text (o.byteStart text) (o.byteStop text)
    let behind ← sliceFrom text (o.byteStop text)
    return some (before ++ token ++ behind)

section

variable {p : Property} {text : List Char} {o : Occurrence}

/-- A token cuts its text in three parts. -/
theorem exists_cut (h : o ∈ p.occurrences text) :
    ∃ a b, text = a ++ (o.token ++ b) ∧ o.start = a.length ∧ o.byteStart text = byteLength a ∧
      o.byteStop text = byteLength a + byteLength o.token ∧ 0 < byteLength o.token := by
  obtain ⟨a, b, htext, hstart, htoken⟩ := exists_of_mem_occurrences h
  have hbyte : o.byteStart text = byteLength a := by rw [htext, byteStart_append hstart]
  exact ⟨a, b, htext, hstart, hbyte, by rw [Occurrence.byteStop, hbyte],
    Property.byteLength_pos_of_isToken htoken⟩

theorem pixels_of_mem_occurrences (h : o ∈ p.occurrences text) :
    o.property = p ∧ o.pixels = p.pixels? o.token := by
  obtain ⟨a, b, -, -, heq⟩ := mem_occurrences_iff.mp h
  rw [heq]
  exact ⟨rfl, rfl⟩

/-- A token that a search finds is behind the place where the search started. -/
theorem lt_byteStop_of_isAhead {pos : Nat} (h : o ∈ p.occurrences text)
    (hahead : isAhead text pos o = true) : pos < o.byteStop text := by
  obtain ⟨a, b, -, hstart, hbyte, hstop, hpos⟩ := exists_cut h
  rw [isAhead, hbyte] at hahead
  simp only [Bool.or_eq_true, Bool.and_eq_true, decide_eq_true_eq] at hahead
  omega

theorem tokenFrom?_append (p : Property) (a b : List Char) :
    tokenFrom? p (a ++ b) (byteLength a)
      = .ok ((p.occurrences (a ++ b)).find? (isAhead (a ++ b) (byteLength a))) := by
  rw [tokenFrom?, boundary_append]
  rfl

/-- The search for the tokens from a place on comes to an end, and the leftmost is the first. -/
theorem exists_tokensFrom (p : Property) (text : List Char) (pos : Nat)
    (hpos : ∃ a b, text = a ++ b ∧ pos = byteLength a) :
    ∃ found, tokensFrom p text pos = .ok found ∧
      found.head? = (p.occurrences text).find? (isAhead text pos) := by
  induction hn : byteLength text - pos using Nat.strongRecOn generalizing pos with
  | ind n ih =>
    obtain ⟨a, b, htext, hplace⟩ := hpos
    have hfirst := tokenFrom?_append p a b
    rw [← htext, ← hplace] at hfirst
    have hle : pos ≤ byteLength text := by
      rw [hplace, htext, byteLength_append]
      exact Nat.le_add_right ..
    rw [tokensFrom, if_pos hle, hfirst, ok_bind]
    cases hfind : (p.occurrences text).find? (isAhead text pos) with
    | none => exact ⟨[], rfl, rfl⟩
    | some o =>
        have hmem := List.mem_of_find?_eq_some hfind
        have hlt := lt_byteStop_of_isAhead hmem (List.find?_some hfind)
        obtain ⟨a', b', htext', -, -, hstop, -⟩ := exists_cut hmem
        have hend : ∃ a b, text = a ++ b ∧ o.byteStop text = byteLength a :=
          ⟨a' ++ o.token, b', by rw [List.append_assoc, ← htext'],
            by rw [hstop, byteLength_append]⟩
        have hwithin : o.byteStop text ≤ byteLength text := by
          rw [hstop, htext', byteLength_append, byteLength_append]
          omega
        obtain ⟨later, hlater, -⟩ := ih _ (by omega) (o.byteStop text) hend rfl
        refine ⟨o :: later, ?_, rfl⟩
        dsimp only
        rw [pixels?_eq, ok_bind, if_pos hlt, hlater, ← (pixels_of_mem_occurrences hmem).2]
        rfl

theorem firstToken?_eq (p : Property) (text : List Char) :
    firstToken? p text = .ok (p.occurrence? text) := by
  obtain ⟨found, hfound, hhead⟩ := exists_tokensFrom p text 0 ⟨[], text, rfl, rfl⟩
  rw [firstToken?, hfound, ok_bind, hhead, Property.occurrence?]
  have hall : ∀ o ∈ p.occurrences text, isAhead text 0 o = true := by
    intro o ho
    obtain ⟨a, b, -, hstart, hbyte, -, -⟩ := exists_cut ho
    rw [isAhead, hstart, hbyte]
    cases a with
    | nil => rfl
    | cons c a =>
        have hsize := c.utf8Size_pos
        rw [decide_eq_true (show 0 < byteLength (c :: a) by rw [byteLength]; omega), Bool.or_true]
  cases hos : p.occurrences text with
  | nil => rfl
  | cons o os =>
      rw [List.find?_cons, hall o (hos ▸ List.mem_cons_self ..)]
      rfl

theorem earliestToken?_eq (ps : List Property) (text : List Char) :
    earliestToken? ps text = .ok (firstOccurrence? ps text) := by
  have hfound : (ps.mapM fun p => firstToken? p text) = .ok (ps.map (·.occurrence? text)) := by
    simp only [firstToken?_eq]
    exact List.mapM_pure
  rw [earliestToken?, hfound, ok_bind, firstOccurrence?]
  unfold List.reduceOption
  rw [List.filterMap_map, Function.id_comp]
  cases ps.filterMap (·.occurrence? text) <;> rfl

theorem replaceFirst?_eq (p : Property) (text token : List Char) :
    replaceFirst? p text token = .ok (p.replaceFirst? text token) := by
  rw [replaceFirst?, firstToken?_eq, ok_bind, Property.replaceFirst?]
  cases ho : p.occurrence? text with
  | none => rfl
  | some o =>
      obtain ⟨a, b, htext, hstart, hbyte, hstop, -⟩ := exists_cut (List.mem_of_mem_head? ho)
      have hreplace := Occurrence.replaceIn_append hstart b token
      dsimp only
      rw [hbyte, hstop]
      generalize o.token = old at htext hstop hreplace ⊢
      subst htext
      have hbehind := sliceFrom_append (a ++ old) b
      rw [List.append_assoc, byteLength_append] at hbehind
      rw [slice_zero, ok_bind, slice_append, ok_bind, hbehind, ok_bind, Option.map_some, hreplace,
        List.append_assoc]
      rfl

end

end DesignTokens.Bytewise
