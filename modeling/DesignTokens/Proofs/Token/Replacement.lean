import DesignTokens.Proofs.Token.Occurrences
import DesignTokens.Proofs.Token.Written

/-!
# Replacing a token

A token is cut off from what is in front of it and behind it by boundary
characters, and another token has none of them. So a replacement makes no token
and breaks none, of whatever property: the tokens in front stay, those behind
move by the difference of the lengths, and the new token is the only one in the
place of the old one (`hits_cut`). In particular a number of pixels that is
written in the place of the first token is read there again
(`hits_replaceFirst`).
-/

namespace DesignTokens

open Text

namespace Hit

/-- The report with `n` bytes more in front of the token. -/
def moved (n : Nat) (h : Hit) : Hit := { h with start := n + h.start, stop := n + h.stop }

/-- The report of a token after `token` has been written over `first`: a token that stands behind it
moves by the difference of the lengths. -/
def shifted (first : Hit) (token : List Char) (h : Hit) : Hit :=
  if first.stop ≤ h.start then
    { h with
      start := h.start - byteLength first.token + byteLength token
      stop := h.stop - byteLength first.token + byteLength token }
  else h

end Hit

/-- The tokens of a text that another one goes in front of, which ends in no lead character. -/
def Property.hitsBehind (p : Property) (b : List Char) : List Hit :=
  (p.occurrencesFrom false 0 b).map (Occurrence.hit b)

section

variable {p q : Property} {a b word : List Char}

/-! ## The tokens around a word -/

theorem hit_append {o : Occurrence} (h : o ∈ p.occurrences a) (rest : List Char) :
    o.hit (a ++ rest) = o.hit a := by
  obtain ⟨front, back, rfl, hstart, -⟩ := exists_of_mem_occurrences h
  have hfront := byteStart_append hstart (o.token ++ back)
  have hfront' := byteStart_append hstart (o.token ++ back ++ rest)
  rw [← List.append_assoc front] at hfront'
  simp only [Occurrence.hit, Occurrence.byteStop, hfront, hfront']

theorem hit_moved (a b : List Char) (o : Occurrence) :
    (o.moved a.length).hit (a ++ b) = (o.hit b).moved (byteLength a) := by
  have hstart : byteOffset (a ++ b) (a.length + o.start) = byteLength a + byteOffset b o.start := by
    rw [byteOffset, List.take_length_add_append, byteLength_append, byteOffset]
  simp only [Occurrence.hit, Occurrence.moved, Hit.moved, Occurrence.byteStop, Occurrence.byteStart,
    hstart, Nat.add_assoc]

theorem occurrences_cut (hplace : TokenAt a word b (a ++ (word ++ b)))
    (hword : p.isToken word = true) : q.occurrences (a ++ (word ++ b))
      = q.occurrences a ++ ((if q.isToken word then [⟨q, a.length, word, q.pixels? word⟩] else [])
          ++ (q.occurrencesFrom false 0 b).map (Occurrence.moved (a ++ word).length)) := by
  rw [occurrences_append hplace.lead, occurrences_word (not_isLead_of_isToken hword)
    (not_isTrail_of_isToken hword) hplace.trail, List.map_append, List.map_map]
  congr 2
  · split <;> rfl
  · refine List.map_congr_left fun o _ => ?_
    simp only [Function.comp_apply, Occurrence.moved, List.length_append, Nat.add_assoc]

/-- The tokens of a text are those in front of one of them, this one if it is of the property, and
those behind it. -/
theorem hits_cut (hplace : TokenAt a word b (a ++ (word ++ b))) (hword : p.isToken word = true) :
    q.hits (a ++ (word ++ b))
      = q.hits a ++ ((if q = p then [p.hitBehind a word] else [])
          ++ (q.hitsBehind b).map (Hit.moved (byteLength (a ++ word)))) := by
  have hcut := occurrences_cut (q := q) hplace hword
  have hthis : (if q.isToken word then [(⟨q, a.length, word, q.pixels? word⟩ : Occurrence)]
      else []).map (Occurrence.hit (a ++ (word ++ b)))
        = if q = p then [p.hitBehind a word] else [] := by
    by_cases hq : q = p
    · subst hq
      have hstart := byteStart_append (o := ⟨q, a.length, word, q.pixels? word⟩) rfl (word ++ b)
      have hstop := byteStop_append (o := ⟨q, a.length, word, q.pixels? word⟩) rfl (word ++ b)
      rw [if_pos hword, if_pos rfl, List.map_singleton, Occurrence.hit, hstart, hstop]
      rfl
    · have hnot : ¬q.isToken word = true := fun h => hq (Property.eq_of_isToken h hword)
      rw [if_neg hnot, if_neg hq, List.map_nil]
  rw [Property.hits, hcut, List.map_append, List.map_append, hthis, Property.hits,
    Property.hitsBehind, List.map_map, List.map_map]
  congr 1
  · exact List.map_congr_left fun o ho => hit_append ho _
  · congr 1
    refine List.map_congr_left fun o _ => ?_
    rw [Function.comp_apply, ← List.append_assoc, hit_moved, Function.comp_apply]

/-! ## Writing over a token -/

theorem start_lt_of_mem_hits {h : Hit} (hmem : h ∈ q.hits a) : h.start < byteLength a := by
  obtain ⟨front, back, hplace, htoken, heq⟩ := exists_of_mem_hits hmem
  have hpos := Property.byteLength_pos_of_isToken htoken
  have hstart : h.start = byteLength front := by rw [heq]; rfl
  rw [hstart, hplace.text_eq, byteLength_append, byteLength_append]
  omega

theorem map_shifted_hits (token : List Char) :
    (q.hits a).map ((p.hitBehind a word).shifted token) = q.hits a := by
  refine (List.map_congr_left fun h hmem => if_neg ?_).trans (List.map_id _)
  have hstart := start_lt_of_mem_hits hmem
  have hstop : (p.hitBehind a word).stop = byteLength a + byteLength word := byteLength_append ..
  omega

theorem shifted_moved (token : List Char) (h : Hit) :
    (p.hitBehind a word).shifted token (h.moved (byteLength (a ++ word)))
      = h.moved (byteLength (a ++ token)) := by
  have hbehind : (p.hitBehind a word).stop ≤ (h.moved (byteLength (a ++ word))).start :=
    Nat.le_add_right ..
  have hlength : ∀ n, byteLength (a ++ word) + n - byteLength word + byteLength token
      = byteLength (a ++ token) + n := by
    intro n
    rw [byteLength_append, byteLength_append]
    omega
  rw [Hit.shifted, if_pos hbehind]
  simp only [Hit.moved, Property.hitBehind, hlength]

theorem map_shifted_moved (a word token : List Char) (hs : List Hit) :
    (hs.map (Hit.moved (byteLength (a ++ word)))).map ((p.hitBehind a word).shifted token)
      = hs.map (Hit.moved (byteLength (a ++ token))) := by
  rw [List.map_map]
  exact List.map_congr_left fun h _ => shifted_moved token h

/-- The tokens of another property stay as they are where a token is written over another one. -/
theorem hits_replaced {token : List Char} (hplace : TokenAt a word b (a ++ (word ++ b)))
    (hword : p.isToken word = true) (htoken : p.isToken token = true) (hq : q ≠ p) :
    q.hits (a ++ (token ++ b))
      = (q.hits (a ++ (word ++ b))).map ((p.hitBehind a word).shifted token) := by
  rw [hits_cut ⟨rfl, hplace.lead, hplace.trail⟩ htoken, hits_cut hplace hword, if_neg hq,
    if_neg hq, List.nil_append, List.nil_append, List.map_append, map_shifted_hits,
    map_shifted_moved]

/-- The first token is the one with no token in front of it. -/
theorem replaceFirst?_cut (hplace : TokenAt a word b (a ++ (word ++ b)))
    (hword : p.isToken word = true) (hfront : p.hits a = []) (token : List Char) :
    p.replaceFirst? (a ++ (word ++ b)) token = some (a ++ (token ++ b)) := by
  rw [Property.replaceFirst?, Property.occurrence?, occurrences_cut hplace hword, if_pos hword,
    List.map_eq_nil_iff.mp hfront, List.nil_append, List.singleton_append, List.head?_cons,
    Option.map_some, Occurrence.replaceIn_append (o := ⟨p, a.length, word, p.pixels? word⟩) rfl]

theorem exists_of_hits_eq_cons {text : List Char} {first : Hit} {later : List Hit}
    (h : p.hits text = first :: later) : ∃ a b, TokenAt a first.token b text ∧
      p.isToken first.token = true ∧ first = p.hitBehind a first.token ∧ p.hits a = [] ∧
      later = (p.hitsBehind b).map (Hit.moved (byteLength (a ++ first.token))) := by
  obtain ⟨a, b, hplace, htoken, hfirst⟩ :=
    exists_of_mem_hits (h ▸ List.mem_cons_self .. : first ∈ p.hits text)
  have hcut := hits_cut (q := p) (hplace.text_eq ▸ hplace) htoken
  rw [← hplace.text_eq, h, if_pos rfl, ← hfirst] at hcut
  cases hfront : p.hits a with
  | nil =>
      rw [hfront] at hcut
      exact ⟨a, b, hplace, htoken, hfirst, hfront, (List.cons.inj hcut).2⟩
  | cons h hs =>
      rw [hfront] at hcut
      have hlt : h.start < byteLength a :=
        start_lt_of_mem_hits (q := p) (hfront ▸ List.mem_cons_self ..)
      rw [← (List.cons.inj hcut).1, hfirst] at hlt
      exact absurd hlt (Nat.lt_irrefl _)

end

/-- A number of pixels that is written for a property takes the place of its first token. A text
without one is left alone. Otherwise nothing but the bytes of the token changes, the new token
is read as that number and starts where the old one did, and the other tokens of the property and
all tokens of the others are the same as before. -/
theorem hits_replaceFirst (p : Property) (text : List Char) {n : Nat} (hn : n ≤ maxPixels) :
    let token := (p.token n).toList
    (p.replaceFirst? text token = none ↔ p.hits text = []) ∧
      ∀ first later, p.hits text = first :: later →
        ∃ a b, text = a ++ (first.token ++ b) ∧ first.start = byteLength a ∧
          p.replaceFirst? text token = some (a ++ (token ++ b)) ∧
          p.hits (a ++ (token ++ b))
            = ⟨p, token, first.start, first.start + byteLength token, some n⟩
              :: later.map (first.shifted token) ∧
          ∀ q ≠ p, q.hits (a ++ (token ++ b)) = (q.hits text).map (first.shifted token) := by
  intro token
  refine ⟨by simp [Property.replaceFirst?, Property.occurrence?, Property.hits], ?_⟩
  intro first later hhits
  obtain ⟨a, b, hplace, hword, hfirst, hfront, rfl⟩ := exists_of_hits_eq_cons hhits
  have htoken : p.isToken token = true := p.isToken_token n
  have hstart : first.start = byteLength a := by rw [hfirst]; rfl
  have hreplaced : p.replaceFirst? text token = some (a ++ (token ++ b)) := by
    rw [hplace.text_eq]
    exact replaceFirst?_cut (hplace.text_eq ▸ hplace) hword hfront token
  refine ⟨a, b, hplace.text_eq, hstart, hreplaced, ?_, fun q hq => ?_⟩
  · have hnew : p.hitBehind a token
        = ⟨p, token, first.start, first.start + byteLength token, some n⟩ := by
      rw [Property.hitBehind, byteLength_append, hstart, p.pixels?_token hn]
    have hlater := map_shifted_moved (p := p) a first.token token (p.hitsBehind b)
    rw [← hfirst] at hlater
    rw [hits_cut ⟨rfl, hplace.lead, hplace.trail⟩ htoken, hfront, if_pos rfl, hnew, hlater]
    rfl
  · rw [hfirst, hplace.text_eq]
    exact hits_replaced (hplace.text_eq ▸ hplace) hword htoken hq

theorem hits_replaceFirst_outside_scale :
    let text := "é:h-1 px-2,h-2.5".toList
    33 ≤ maxPixels ∧ ∃ new, Property.height.replaceFirst? text "h-[33px]".toList = some new ∧
      Property.height.hits new = [⟨.height, "h-[33px]".toList, 3, 11, some 33⟩,
        ⟨.height, "h-2.5".toList, 17, 22, some 10⟩] ∧
      Property.paddingX.hits new = [⟨.paddingX, "px-2".toList, 12, 16, some 8⟩] := by
  have hfound : Property.height.hits "é:h-1 px-2,h-2.5".toList
      = [⟨.height, "h-1".toList, 3, 6, some 4⟩, ⟨.height, "h-2.5".toList, 12, 17, some 10⟩] := by
    decide
  have hspelled : (Property.height.token 33).toList = "h-[33px]".toList := by decide
  obtain ⟨a, b, -, -, hnew, hheight, hothers⟩ :=
    (hits_replaceFirst .height "é:h-1 px-2,h-2.5".toList (n := 33) (by decide)).2 _ _ hfound
  rw [hspelled] at hnew hheight hothers
  exact ⟨by decide, _, hnew, hheight.trans (by decide),
    (hothers .paddingX (by decide)).trans (by decide)⟩

end DesignTokens
