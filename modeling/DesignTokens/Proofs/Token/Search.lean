import DesignTokens.Proofs.Text.Replace
import DesignTokens.Proofs.Token.Occurrences

/-!
# Searching for tokens

A search reads a text from left to right. At each place it tries the ways to go
on in a fixed order: the start of the text before a lead character, a value
before the bare name, the longer keys before the shorter ones, and it takes the
first way behind which a token may end. Behind a token it goes on with the
character that ended it, which may be in front of the next token.

The order does not matter, because a token can end in one place only
(`tokenEnd?_eq`), and nothing is missed, because a token holds no character that
one may follow (`searched_eq`). So the search finds exactly the tokens of the
text, from the first to the last (`hits_exact`).
-/

namespace DesignTokens

open Text

/-! ## The search -/

namespace Property

/-- The texts that may be left behind a value: keys are tried first, the longest before the others,
and then a number in brackets. -/
def behindValues (p : Property) (cs : List Char) : List (List Char) :=
  let keys := (p.scale.map (·.1)).filter fun k => k ≠ ""
  let longestFirst := keys.mergeSort fun a b => b.length ≤ a.length
  longestFirst.filterMap (fun k => after? k.toList cs)
    ++ ((bracket? cs).map fun (_, _, behind) => behind).toList

/-- The texts that may be left behind a token, in the order in which they are tried. -/
def behindTokens (p : Property) (cs : List Char) : List (List Char) :=
  match after? p.utility.toList cs with
  | none => []
  | some more =>
    ((after? ['-'] more).map p.behindValues).getD [] ++ if p = .borderRadius then [more] else []

/-- The text behind the token that a text starts with: the first that a token may end in front
of. -/
def tokenEnd? (p : Property) (cs : List Char) : Option (List Char) :=
  (p.behindTokens cs).find? endsHere

/-- A token, with the lead character in front of it unless it starts the text. -/
def tokenPattern (p : Property) : Pattern := fun before cs =>
  let here := if before.isNone then p.tokenEnd? cs else none
  let next := match cs with
    | c :: cs => if isLead c then p.tokenEnd? cs else none
    | [] => none
  (here.or next).map fun behind => cs.length - behind.length

/-- The token of a match of the search. -/
def foundAt (p : Property) (text : List Char) (s : Span) : Occurrence :=
  let token := (s.of text).dropWhile isLead
  ⟨p, s.stop - token.length, token, p.pixels? token⟩

/-- The tokens that the search finds. -/
def searched (p : Property) (text : List Char) : List Occurrence :=
  (p.tokenPattern.spans text).map (p.foundAt text)

end Property

section

variable {p : Property}

/-! ## Where a token ends -/

theorem mem_behindValues_iff {cs behind : List Char} :
    behind ∈ p.behindValues cs ↔ ∃ key, p.isKey key = true ∧ cs = key ++ behind := by
  simp only [Property.behindValues, List.mem_append, List.mem_filterMap, List.mem_mergeSort,
    List.mem_filter, List.mem_map, decide_eq_true_eq, after_eq_some_iff, Option.mem_toList,
    Option.map_eq_some_iff, Property.isKey_iff]
  constructor
  · rintro (⟨_, ⟨⟨e, he, rfl⟩, hne⟩, rfl⟩ | ⟨⟨d, u, _⟩, hread, rfl⟩)
    · exact ⟨_, .inl ⟨e, he, hne, rfl⟩, rfl⟩
    · obtain ⟨key, hkey, rfl⟩ := isBracketed_of_bracket hread
      exact ⟨key, .inr hkey, rfl⟩
  · rintro ⟨_, ⟨e, he, hne, rfl⟩ | hkey, rfl⟩
    · exact .inl ⟨e.1, ⟨⟨e, he, rfl⟩, hne⟩, rfl⟩
    · obtain ⟨d, u, hread⟩ := exists_bracket_append hkey behind
      exact .inr ⟨(d, u, behind), hread, rfl⟩

theorem mem_behindTokens_iff {cs behind : List Char} :
    behind ∈ p.behindTokens cs ↔ ∃ token, p.isToken token = true ∧ cs = token ++ behind := by
  constructor
  · intro h
    rw [Property.behindTokens] at h
    split at h
    case h_1 => cases h
    case h_2 more hmore =>
      obtain rfl := after_eq_some_iff.mp hmore
      rcases List.mem_append.mp h with hvalue | hbare
      · cases hdash : after? ['-'] more with
        | none => simp [hdash] at hvalue
        | some value =>
            rw [hdash, Option.map_some, Option.getD_some] at hvalue
            obtain ⟨key, hkey, rfl⟩ := mem_behindValues_iff.mp hvalue
            obtain rfl := after_eq_some_iff.mp hdash
            exact ⟨p.utility.toList ++ '-' :: key,
              Property.isToken_iff.mpr (.inl ⟨key, Property.isKey_iff.mp hkey, rfl⟩), by simp⟩
      · split at hbare
        case isFalse => cases hbare
        case isTrue hp =>
          obtain rfl := List.mem_singleton.mp hbare
          exact ⟨p.utility.toList, Property.isToken_iff.mpr (.inr ⟨hp, by rw [hp]; rfl⟩), rfl⟩
  · rintro ⟨token, htoken, rfl⟩
    rcases Property.isToken_iff.mp htoken with ⟨key, hkey, rfl⟩ | ⟨rfl, rfl⟩
    · have hname : after? p.utility.toList (p.utility.toList ++ '-' :: key ++ behind)
          = some ('-' :: (key ++ behind)) := after_eq_some_iff.mpr (by simp)
      have hdash : after? ['-'] ('-' :: (key ++ behind)) = some (key ++ behind) := rfl
      rw [Property.behindTokens, hname]
      dsimp only
      rw [hdash, Option.map_some, Option.getD_some]
      exact List.mem_append_left _
        (mem_behindValues_iff.mpr ⟨key, Property.isKey_iff.mpr hkey, rfl⟩)
    · have hname : after? Property.borderRadius.utility.toList ("rounded".toList ++ behind)
          = some behind := after_eq_some_iff.mpr rfl
      rw [Property.behindTokens, hname]
      exact List.mem_append_right _ (List.mem_singleton_self behind)

theorem dropWhile_of_behindTokens {cs behind : List Char} (h : behind ∈ p.behindTokens cs)
    (hend : endsHere behind = true) :
    p.isToken (tokenWord cs) = true ∧ behind = cs.dropWhile fun c => !isTrail c := by
  obtain ⟨token, htoken, rfl⟩ := mem_behindTokens_iff.mp h
  have hword := tokenWord_append (not_isTrail_of_isToken htoken) hend
  refine ⟨hword.symm ▸ htoken, ?_⟩
  have hcut : tokenWord (token ++ behind) ++ (token ++ behind).dropWhile (fun c => !isTrail c)
      = token ++ behind := List.takeWhile_append_dropWhile
  rw [hword] at hcut
  exact (List.append_cancel_left hcut).symm

/-- Whatever the order of the ways, a token ends at the first trail character or nowhere. -/
theorem tokenEnd?_eq (cs : List Char) :
    p.tokenEnd? cs
      = if p.isToken (tokenWord cs) then some (cs.dropWhile fun c => !isTrail c) else none := by
  rw [Property.tokenEnd?]
  cases hfind : (p.behindTokens cs).find? endsHere with
  | some behind =>
      obtain ⟨htoken, hbehind⟩ :=
        dropWhile_of_behindTokens (List.mem_of_find?_eq_some hfind) (List.find?_some hfind)
      rw [if_pos htoken, hbehind]
  | none =>
      refine (if_neg fun htoken => ?_).symm
      have hmem : (cs.dropWhile fun c => !isTrail c) ∈ p.behindTokens cs :=
        mem_behindTokens_iff.mpr ⟨_, htoken, List.takeWhile_append_dropWhile.symm⟩
      exact List.find?_eq_none.mp hfind _ hmem (all_head?_dropWhile isTrail cs)

/-! ## What the search finds -/

theorem length_tokenEnd? (cs : List Char) (n : Nat) :
    (p.tokenEnd? cs).map (fun behind => cs.length + n - behind.length)
      = if p.isToken (tokenWord cs) then some ((tokenWord cs).length + n) else none := by
  have hlength : (tokenWord cs).length + (cs.dropWhile fun c => !isTrail c).length = cs.length := by
    rw [← List.length_append, tokenWord, List.takeWhile_append_dropWhile]
  rw [tokenEnd?_eq]
  split
  · rw [Option.map_some]
    congr 1
    omega
  · rfl

theorem tokenPattern_behind (before c : Char) (cs : List Char) :
    p.tokenPattern (some before) (c :: cs)
      = if isLead c && p.isToken (tokenWord cs) then some ((tokenWord cs).length + 1)
        else none := by
  have hlength := length_tokenEnd? (p := p) cs 1
  rw [Property.tokenPattern]
  cases isLead c with
  | false => rfl
  | true =>
      simp only [Option.isNone_some, Bool.false_eq_true, if_false, if_true, Option.none_or,
        List.length_cons, Bool.true_and]
      exact hlength

theorem tokenPattern_start (c : Char) (cs : List Char) :
    p.tokenPattern none (c :: cs)
      = if p.isToken (tokenWord (c :: cs)) then some (tokenWord (c :: cs)).length
        else p.tokenPattern (some c) (c :: cs) := by
  have hlength := length_tokenEnd? (p := p) (c :: cs) 0
  have hend := tokenEnd?_eq (p := p) (c :: cs)
  rw [Property.tokenPattern, Property.tokenPattern]
  simp only [Option.isNone_none, if_true, Option.isNone_some, Bool.false_eq_true, if_false,
    Option.none_or]
  by_cases htoken : p.isToken (tokenWord (c :: cs)) = true
  · rw [if_pos htoken] at hend hlength
    rw [if_pos htoken, hend, Option.some_or, ← hend]
    exact hlength
  · rw [if_neg htoken] at hend
    rw [if_neg htoken, hend, Option.none_or]

theorem foundAt_eq {a lead token b : List Char} (htoken : ∀ c ∈ token, isLead c = false)
    (hlead : ∀ c ∈ lead, isLead c = true) :
    p.foundAt (a ++ (lead ++ (token ++ b))) ⟨a.length, token.length + lead.length⟩
      = ⟨p, a.length + lead.length, token, p.pixels? token⟩ := by
  have hof : (⟨a.length, token.length + lead.length⟩ : Span).of (a ++ (lead ++ (token ++ b)))
      = lead ++ token := by
    rw [Span.of, List.drop_left, ← List.append_assoc]
    exact List.take_left' (by rw [List.length_append, Nat.add_comm])
  have hdrop : (lead ++ token).dropWhile isLead = token := by
    rw [List.dropWhile_append_of_pos hlead]
    cases token with
    | nil => rfl
    | cons c token => simp [htoken c (List.mem_cons_self ..)]
  rw [Property.foundAt, hof, hdrop, Span.stop]
  congr 1
  dsimp only
  omega

/-- A token that starts a text is found at once. -/
theorem occurrencesFrom_token (pos : Nat) {cs : List Char} (h : p.isToken (tokenWord cs) = true) :
    p.occurrencesFrom true pos cs
      = ⟨p, pos, tokenWord cs, p.pixels? (tokenWord cs)⟩ ::
        p.occurrencesFrom false (pos + (tokenWord cs).length)
          (cs.dropWhile fun c => !isTrail c) := by
  have hcut : tokenWord cs ++ (cs.dropWhile fun c => !isTrail c) = cs :=
    List.takeWhile_append_dropWhile
  have hbehind := occurrencesFrom_false_append (p := p)
    (b := cs.dropWhile fun c => !isTrail c) pos (not_isLead_of_isToken h)
  rw [hcut] at hbehind
  rw [occurrencesFrom_true, Property.tokenAt?, if_pos h, hbehind]
  rfl

theorem occurrencesFrom_no_token (pos : Nat) {cs : List Char} {atLead : Bool}
    (h : (atLead && p.isToken (tokenWord cs)) = false) :
    p.occurrencesFrom atLead pos cs = p.occurrencesFrom false pos cs := by
  cases atLead with
  | false => rfl
  | true =>
      rw [Bool.true_and] at h
      rw [occurrencesFrom_true, Property.tokenAt?, h]
      rfl

/-- The search goes on behind a token that it has found. -/
theorem found_token {text a cs : List Char} (lead : List Char) (htext : text = a ++ (lead ++ cs))
    (hlead : ∀ c ∈ lead, isLead c = true) (htoken : p.isToken (tokenWord cs) = true)
    (before : Option Char)
    (hbehind : ∀ last : Char, (p.tokenPattern.spansFrom (some last)
        (a.length + lead.length + (tokenWord cs).length) 0 (cs.dropWhile fun c => !isTrail c)).map
          (p.foundAt text)
      = p.occurrencesFrom false (a.length + lead.length + (tokenWord cs).length)
          (cs.dropWhile fun c => !isTrail c)) :
    p.foundAt text ⟨a.length, (tokenWord cs).length + lead.length⟩ ::
        (p.tokenPattern.spansFrom before (a.length + lead.length) (tokenWord cs).length cs).map
          (p.foundAt text)
      = p.occurrencesFrom true (a.length + lead.length) cs := by
  have hcut : tokenWord cs ++ (cs.dropWhile fun c => !isTrail c) = cs :=
    List.takeWhile_append_dropWhile
  obtain ⟨last, hlast⟩ : ∃ last, (tokenWord cs).getLast?.or before = some last := by
    have hne := (Property.isTokenChar_of_isToken htoken).1
    exact ⟨_, by rw [List.getLast?_eq_getLast_of_ne_nil hne, Option.some_or]⟩
  have hspans := Pattern.spansFrom_append (p := p.tokenPattern) (tokenWord cs)
    (cs.dropWhile fun c => !isTrail c) before (a.length + lead.length)
  rw [hcut, hlast] at hspans
  have hfound := foundAt_eq (p := p) (a := a) (b := cs.dropWhile fun c => !isTrail c)
    (not_isLead_of_isToken htoken) hlead
  rw [hcut, ← htext] at hfound
  rw [hspans, hbehind last, occurrencesFrom_token _ htoken, hfound]

/-- Behind its first character a text has the tokens that the search finds there. -/
theorem found_behind (text : List Char) : ∀ (cs a : List Char) (before : Char),
    text = a ++ cs →
      (p.tokenPattern.spansFrom (some before) a.length 0 cs).map (p.foundAt text)
        = p.occurrencesFrom false a.length cs := by
  intro cs
  -- the induction is on the length, because the search passes over a token at once
  induction hn : cs.length using Nat.strongRecOn generalizing cs with
  | ind n ih =>
    intro a before htext
    cases cs with
    | nil => rw [occurrencesFrom_nil]; rfl
    | cons c cs =>
        have hlater : ∀ before, (p.tokenPattern.spansFrom (some before) (a.length + 1) 0 cs).map
            (p.foundAt text) = p.occurrencesFrom false (a.length + 1) cs := by
          intro before
          have hnext := ih cs.length (by rw [← hn]; simp) cs rfl (a ++ [c]) before (by simp [htext])
          simpa using hnext
        rw [Pattern.spansFrom, tokenPattern_behind, occurrencesFrom_false_cons]
        by_cases hfound : (isLead c && p.isToken (tokenWord cs)) = true
        · obtain ⟨hlead, htoken⟩ := Bool.and_eq_true_iff.mp hfound
          rw [if_pos hfound, hlead]
          refine found_token [c] (by simpa using htext) (by simpa using hlead) htoken
            (some c) fun last => ?_
          have hshorter : (cs.dropWhile fun c => !isTrail c).length < n := by
            rw [← hn, List.length_cons]
            exact Nat.lt_succ_of_le (List.length_dropWhile_le ..)
          have hcut : tokenWord cs ++ (cs.dropWhile fun c => !isTrail c) = cs :=
            List.takeWhile_append_dropWhile
          have hnext := ih _ hshorter _ rfl (a ++ c :: tokenWord cs) last
            (by rw [htext, List.append_assoc, List.cons_append, hcut])
          have hlength : (a ++ c :: tokenWord cs).length
              = a.length + [c].length + (tokenWord cs).length := by
            simp only [List.length_append, List.length_cons, List.length_nil]
            omega
          rwa [hlength] at hnext
        · rw [if_neg hfound, occurrencesFrom_no_token _ (by simpa using hfound)]
          exact hlater c

/-- The search finds the tokens of the text. -/
theorem searched_eq (p : Property) (text : List Char) : p.searched text = p.occurrences text := by
  rw [Property.searched, Pattern.spans, occurrences_eq]
  cases text with
  | nil => rw [occurrencesFrom_nil]; rfl
  | cons c cs =>
      rw [Pattern.spansFrom, tokenPattern_start]
      by_cases htoken : p.isToken (tokenWord (c :: cs)) = true
      · obtain ⟨k, hk⟩ := Nat.exists_eq_succ_of_ne_zero
          fun h => (Property.isTokenChar_of_isToken htoken).1 (List.length_eq_zero_iff.mp h)
        have hcut : tokenWord (c :: cs) ++ ((c :: cs).dropWhile fun c => !isTrail c) = c :: cs :=
          List.takeWhile_append_dropWhile
        have hempty : c :: cs = [] ++ ([] ++ c :: cs) := rfl
        have hfound := found_token (p := p) [] hempty (by simp) htoken none fun last => by
          simpa using found_behind (p := p) (c :: cs) _ (tokenWord (c :: cs)) last hcut.symm
        rw [hk] at hfound
        rw [if_pos htoken, hk]
        exact hfound
      · have hrest := found_behind (p := p) (c :: cs) (c :: cs) [] c rfl
        rw [Pattern.spansFrom] at hrest
        rw [if_neg htoken, occurrencesFrom_no_token 0 (by simpa using htoken)]
        exact hrest

end

/-- The search reports exactly the words of the grammar that stand between a lead and a trail
character, from the first to the last and without overlaps, and these are the words that the
question for one token says yes to. -/
theorem hits_exact (p : Property) (text : List Char) :
    (p.hits text).Pairwise (fun h h' => h.start < h'.start ∧ h.stop ≤ h'.start) ∧
      (∀ h : Hit, h ∈ p.hits text ↔
        h.property = p ∧ p.IsTokenText h.token ∧ h.pixels = p.pixels? h.token ∧
          ∃ a b, TokenAt a h.token b text ∧ h.start = byteLength a ∧
            h.stop = byteLength (a ++ h.token)) ∧
      (∀ token, p.IsTokenText token ∧ holdsToken text token = true ↔
        ∃ h ∈ p.hits text, h.token = token) ∧
      (p.searched text).map (Occurrence.hit text) = p.hits text :=
  ⟨pairwise_hits text, fun _ => mem_hits_iff, fun _ => holdsToken_iff_hit,
    by rw [searched_eq, Property.hits]⟩

example : (Property.padding.hits "p-1,p-10 p-1.5)p-2 é:p-[3px] px-1".toList).map (·.start)
    = [0, 4, 9, 22] := by decide

end DesignTokens
