import DesignTokens.Proofs.Bytewise.Object
import DesignTokens.Proofs.Rewrite.FreeName
import DesignTokens.Proofs.Rewrite.SiteKind
import DesignTokens.Proofs.Text.Trim

/-!
# Sites of a name by their bytes

What a name does at a site is told from the bytes around it, the first ones that
are no layout, on either side. Those are looked for step by step, and where there
are none the ends of the text are met. All that a site is told by is ASCII, so
the bytes tell what the characters tell (`siteKind?_bytes`), and the sites are
found at the bytes of their characters (`renamedSites_eq`).
-/

namespace DesignTokens.Bytewise

open Text Source Rewrite

/-! ## Looking around -/

/-- The bytes between two places. -/
def bytesBetween (bs : List Char) (start stop : Nat) : Run (List Char) :=
  if start ≤ stop then do
    let before ← bytesTo bs stop
    return before.drop start
  else .error .reversed

/-- The nearest byte before a place that is no layout. -/
def signBefore? (bs : List Char) (pos : Nat) : Run (Option Char) := do
  let before ← bytesTo bs pos
  return before.reverse.find? fun b => !isLayout b

/-- The place of the nearest byte from a place on that is no layout, or the end. -/
def nextSign (bs : List Char) (pos : Nat) : Nat :=
  (((bs.drop pos).findIdx? fun b => !isLayout b).map (pos + ·)).getD bs.length

/-- The identifier that starts at a place. -/
def wordFrom (bs : List Char) (pos : Nat) : Run (List Char) :=
  bytesBetween bs pos (pos + ((bs.drop pos).takeWhile isIdent).length)

/-- The place behind the nearest byte before a place that is no layout. -/
def signEnd (bs : List Char) (pos : Nat) : Run Nat := do
  let before ← bytesTo bs pos
  minus pos (before.reverse.takeWhile isLayout).length

/-- The identifier that comes to its end at the nearest byte before a place that is no layout. -/
def wordBefore (bs : List Char) (pos : Nat) : Run (List Char) := do
  let stop ← signEnd bs pos
  let before ← bytesTo bs stop
  let start ← minus stop (before.reverse.takeWhile isIdent).length
  bytesBetween bs start stop

/-- The byte before the nearest byte before a place that is no layout. -/
def secondBefore? (bs : List Char) (pos : Nat) : Run (Option Char) := do
  let stop ← signEnd bs pos
  if 2 ≤ stop then some <$> byteAt bs (stop - 2) else return none

/-! ## The kind of a site -/

/-- Whether a word follows that takes a name in. -/
def takenIn (bs : List Char) (next : Nat) : Run Bool :=
  if bs[next]?.any fun b => isIdent b && !b.isDigit then do
    let word ← wordFrom bs next
    return !joiningWords.contains (String.ofList word)
  else return false

/-- Whether a name is imported or exported. -/
def ported (bs : List Char) (start : Nat) : Run Bool := do
  let word ← wordBefore bs start
  return String.ofList word = "import" || String.ofList word = "export"

/-- Whether an arrow comes to its end in front of a name. -/
def arrowBefore (bs : List Char) (start : Nat) (prev : Option Char) : Run Bool :=
  if prev = some '>' then do
    let second ← secondBefore? bs start
    return second = some '='
  else return false

/-- Whether a name stands behind or in front of an angle bracket that is no part of an arrow. -/
def bracketed (bs : List Char) (start : Nat) (prev next : Option Char) : Run Bool := do
  let arrow ← arrowBefore bs start prev
  return (prev = some '>' && !arrow) || next = some '<'

/-- What a name does that stands between two places. -/
def siteAt? (bs : List Char) (start stop : Nat) : Run (Option SiteKind) := do
  let prev ← signBefore? bs start
  let nextAt := nextSign bs stop
  let next := bs[nextAt]?
  let next2 := bs[nextAt + 1]?
  let assigns := next = some '=' && next2 ≠ some '=' && next2 ≠ some '>'
  if prev ≠ some '?' && (next = some ':' || (next = some '?' && next2 = some ':')) then
    return some .declaration
  else if (prev = some '\x7b' || prev = some ',')
      && (next = some ',' || next = some '\x7d' || assigns) then
    return some .binding
  else if assigns then return none
  else if ← takenIn bs nextAt then return none
  else if ← ported bs start then return none
  else if ← bracketed bs start prev next then return none
  else return some .read

section

variable (a c : List Char)

theorem bytesTo_append : bytesTo (a ++ c) a.length = .ok a := by
  rw [bytesTo, if_pos (by rw [List.length_append]; omega), List.take_left]

theorem bytesBetween_append (w : List Char) :
    bytesBetween (a ++ (w ++ c)) a.length (a.length + w.length) = .ok w := by
  rw [bytesBetween, if_pos (Nat.le_add_right ..), ← List.length_append, ← List.append_assoc,
    bytesTo_append, ok_bind, List.drop_left]
  rfl

theorem signBefore?_append :
    signBefore? (a ++ c) a.length = .ok (a.reverse.dropWhile isLayout).head? := by
  rw [signBefore?, bytesTo_append, ok_bind, List.find?_not_eq_head?_dropWhile]
  rfl

/-- The characters before a place, cut where the layout in front of the place starts. -/
theorem exists_layout : ∃ u v, a = u ++ v ∧ u.reverse = a.reverse.dropWhile isLayout ∧
    v.reverse = a.reverse.takeWhile isLayout :=
  ⟨dropEndWhile isLayout a, (a.reverse.takeWhile isLayout).reverse,
    (dropEndWhile_append isLayout a).symm, List.reverse_reverse _, List.reverse_reverse _⟩

theorem signEnd_append :
    signEnd (a ++ c) a.length = .ok (a.reverse.dropWhile isLayout).length := by
  obtain ⟨u, v, rfl, hu, hv⟩ := exists_layout a
  rw [signEnd, bytesTo_append, ok_bind, ← hu, ← hv, List.length_reverse, List.length_reverse,
    List.length_append, minus_of_le (Nat.le_add_left ..), Nat.add_sub_cancel]

theorem wordBefore_append : wordBefore (a ++ c) a.length
    = .ok ((a.reverse.dropWhile isLayout).takeWhile isIdent).reverse := by
  rw [wordBefore, signEnd_append, ok_bind]
  obtain ⟨u, v, rfl, hu, -⟩ := exists_layout a
  rw [← hu, List.length_reverse, List.append_assoc, bytesTo_append, ok_bind]
  have hcut := (dropEndWhile_append isIdent u).symm
  generalize dropEndWhile isIdent u = front at hcut
  generalize hw : (u.reverse.takeWhile isIdent).reverse = w at hcut
  have hlength : (u.reverse.takeWhile isIdent).length = w.length := by
    rw [← hw, List.length_reverse]
  rw [hlength]
  subst hcut
  rw [List.length_append, minus_of_le (Nat.le_add_left ..), ok_bind, Nat.add_sub_cancel,
    List.append_assoc, bytesBetween_append]

theorem secondBefore?_append :
    secondBefore? (a ++ c) a.length = .ok (a.reverse.dropWhile isLayout)[1]? := by
  rw [secondBefore?, signEnd_append, ok_bind]
  obtain ⟨u, v, rfl, hu, -⟩ := exists_layout a
  rw [← hu, List.length_reverse]
  rcases List.eq_nil_or_concat' u with rfl | ⟨u, y, rfl⟩
  · rfl
  rcases List.eq_nil_or_concat' u with rfl | ⟨u, x, rfl⟩
  · rfl
  · have hlength : (u ++ [x] ++ [y]).length = u.length + 2 := by simp
    rw [hlength, if_pos (Nat.le_add_left ..), Nat.add_sub_cancel, List.append_assoc,
      List.append_assoc, List.append_assoc, List.singleton_append, byteAt_append, map_ok]
    simp

variable {bs : List Char} {pos : Nat}

theorem getD_findIdx? : ∀ (rest : List Char) {pos n : Nat}, n = pos + rest.length →
    ((rest.findIdx? fun b => !isLayout b).map (pos + ·)).getD n
      = pos + (rest.takeWhile isLayout).length
  | [], _, _, hn => hn
  | b :: rest, pos, n, hn => by
      rw [List.findIdx?_cons, List.takeWhile_cons]
      cases hb : isLayout b with
      | false => rfl
      | true =>
          have hlater : ((rest.findIdx? fun b => !isLayout b).map (· + 1)).map (pos + ·)
              = (rest.findIdx? fun b => !isLayout b).map (pos + 1 + ·) := by
            rw [Option.map_map]
            refine congrFun (congrArg _ (funext fun m => ?_)) _
            exact Nat.add_right_comm pos m 1
          rw [Bool.not_true, if_neg Bool.false_ne_true, if_pos rfl, hlater,
            getD_findIdx? rest (by rw [hn, List.length_cons]; omega), List.length_cons]
          omega

/-- Behind the layout, the text goes on. -/
theorem drop_nextSign (hpos : pos ≤ bs.length) :
    nextSign bs pos ≤ bs.length ∧ bs.drop (nextSign bs pos) = (bs.drop pos).dropWhile isLayout := by
  have hlength : bs.length = pos + (bs.drop pos).length := by
    rw [List.length_drop]
    omega
  have hnext : nextSign bs pos = pos + ((bs.drop pos).takeWhile isLayout).length :=
    getD_findIdx? _ hlength
  generalize hv : (bs.drop pos).takeWhile isLayout = v at hnext
  generalize hu : (bs.drop pos).dropWhile isLayout = u
  have hcut : bs.drop pos = v ++ u := by
    rw [← hv, ← hu, List.takeWhile_append_dropWhile]
  rw [hnext, ← List.drop_drop, hcut, List.drop_left, hlength, hcut, List.length_append]
  exact ⟨by omega, rfl⟩

theorem wordFrom_eq (hpos : pos ≤ bs.length) :
    wordFrom bs pos = .ok ((bs.drop pos).takeWhile isIdent) := by
  obtain ⟨a, rest, rfl, rfl⟩ : ∃ a rest, bs = a ++ rest ∧ pos = a.length :=
    ⟨bs.take pos, bs.drop pos, (List.take_append_drop pos bs).symm,
      (List.length_take_of_le hpos).symm⟩
  rw [wordFrom, List.drop_left]
  have hcut : rest = rest.takeWhile isIdent ++ rest.dropWhile isIdent :=
    List.takeWhile_append_dropWhile.symm
  generalize rest.takeWhile isIdent = w at hcut ⊢
  rw [hcut, bytesBetween_append]

theorem takenIn_eq (hpos : pos ≤ bs.length) : takenIn bs pos
    = .ok ((bs.drop pos).head?.any (fun b => isIdent b && !b.isDigit)
        && !joiningWords.contains (leadingWord (bs.drop pos))) := by
  rw [takenIn, ← List.head?_drop, wordFrom_eq hpos, ok_bind]
  cases (bs.drop pos).head?.any fun b => isIdent b && !b.isDigit <;> rfl

theorem ported_append : ported (a ++ c) a.length
    = .ok (String.ofList ((a.reverse.dropWhile isLayout).takeWhile isIdent).reverse = "import"
      || String.ofList ((a.reverse.dropWhile isLayout).takeWhile isIdent).reverse = "export") := by
  rw [ported, wordBefore_append, ok_bind]
  rfl

theorem bracketed_append (prev next : Option Char) : bracketed (a ++ c) a.length prev next
    = .ok ((prev = some '>' && !(prev = some '>' && (a.reverse.dropWhile isLayout)[1]? = some '='))
      || next = some '<') := by
  rw [bracketed, arrowBefore]
  split
  case isTrue h =>
    rw [secondBefore?_append, ok_bind, decide_eq_true h, Bool.true_and]
    rfl
  case isFalse h =>
    rw [decide_eq_false h, Bool.false_and]
    rfl

/-- Between two places, what a name does is told from the bytes around it. -/
theorem siteAt?_append (w : List Char) :
    siteAt? (a ++ (w ++ c)) a.length (a.length + w.length) = .ok (siteKind? a.reverse c) := by
  have hpos : a.length + w.length ≤ (a ++ (w ++ c)).length := by
    simp only [List.length_append]
    omega
  obtain ⟨hle, hdrop⟩ := drop_nextSign hpos
  have hbehind : (a ++ (w ++ c)).drop (a.length + w.length) = c := by
    rw [← List.length_append, ← List.append_assoc, List.drop_left]
  have htaken := takenIn_eq hle
  rw [hbehind] at hdrop
  rw [hdrop] at htaken
  rw [siteAt?, signBefore?_append, ok_bind]
  have hnext2 : (a ++ (w ++ c))[nextSign (a ++ (w ++ c)) (a.length + w.length) + 1]?
      = (c.dropWhile isLayout)[1]? := by
    rw [← hdrop, List.getElem?_drop]
  simp only [hnext2, htaken, ported_append, bracketed_append, ok_bind]
  rw [← List.head?_drop, hdrop, siteKind?]
  simp only [apply_ite Except.ok]
  rfl

end

/-! ## Signs -/

/-- The same ASCII characters stand at the start of two texts. -/
structure SameSigns (cs ds : List Char) : Prop where
  head : ∀ x, isAscii x = true → (cs.head? = some x ↔ ds.head? = some x)
  second : ∀ x y, isAscii x = true → isAscii y = true → cs.head? = some x →
    (cs[1]? = some y ↔ ds[1]? = some y)
  word : cs.takeWhile isIdent = ds.takeWhile isIdent

theorem sameSigns_flatMap {spell : Char → List Char} (h : Spelling spell) (cs : List Char) :
    SameSigns (cs.flatMap spell) cs where
  head x hx := h.head?_eq_some_iff hx cs
  second x y hx hy hhead := by
    rw [h.head?_eq_some_iff hx] at hhead
    obtain ⟨cs, rfl⟩ := List.head?_eq_some_iff.mp hhead
    rw [List.flatMap_cons, h.same x hx, List.singleton_append, List.getElem?_cons_succ,
      List.getElem?_cons_succ, ← List.head?_eq_getElem?, ← List.head?_eq_getElem?]
    exact h.head?_eq_some_iff hy cs
  word := h.takeWhile_eq (fun _ => isAscii_of_isIdent) cs

section

variable {a a' b b' : List Char}

theorem SameSigns.decide_head (h : SameSigns a a') {x : Char} (hx : isAscii x = true) :
    decide (a.head? = some x) = decide (a'.head? = some x) :=
  decide_eq_decide.mpr (h.head x hx)

theorem SameSigns.decide_second (h : SameSigns a a') {x y : Char} (hx : isAscii x = true)
    (hy : isAscii y = true) : (decide (a'.head? = some x) && decide (a[1]? = some y))
      = (decide (a'.head? = some x) && decide (a'[1]? = some y)) := by
  by_cases hhead : a'.head? = some x
  · rw [decide_eq_decide.mpr (h.second x y hx hy ((h.head x hx).mpr hhead))]
  · rw [decide_eq_false hhead, Bool.false_and, Bool.false_and]

/-- What a name does is told from the ASCII characters around it. -/
theorem siteKind?_of_sameSigns (hb : SameSigns (b.dropWhile isLayout) (b'.dropWhile isLayout))
    (ha : SameSigns (a.dropWhile isLayout) (a'.dropWhile isLayout)) :
    siteKind? b a = siteKind? b' a' := by
  unfold siteKind?
  generalize b.dropWhile isLayout = b at *
  generalize b'.dropWhile isLayout = b' at *
  generalize a.dropWhile isLayout = a at *
  generalize a'.dropWhile isLayout = a' at *
  have hassigns : (decide (a.head? = some '=') && decide (a[1]? ≠ some '=')
      && decide (a[1]? ≠ some '>')) = (decide (a'.head? = some '=') && decide (a'[1]? ≠ some '=')
      && decide (a'[1]? ≠ some '>')) := by
    by_cases hhead : a.head? = some '='
    · simp only [hhead, (ha.head '=' (by decide)).mp hhead, ne_eq,
        ha.second '=' '=' (by decide) (by decide) hhead,
        ha.second '=' '>' (by decide) (by decide) hhead]
    · rw [← ha.decide_head (by decide), decide_eq_false hhead, Bool.false_and, Bool.false_and,
        Bool.false_and, Bool.false_and]
  have hprev : ∀ x, isAscii x = true → decide (b.head? = some x) = decide (b'.head? = some x) :=
    fun x hx => hb.decide_head hx
  have hnext : ∀ x, isAscii x = true → decide (a.head? = some x) = decide (a'.head? = some x) :=
    fun x hx => ha.decide_head hx
  have hquestion : decide (b.head? ≠ some '?') = decide (b'.head? ≠ some '?') := by
    rw [decide_not, decide_not, hprev '?' (by decide)]
  simp only [hassigns, hquestion, hprev '\x7b' (by decide), hprev ',' (by decide),
    hprev '>' (by decide), hnext ':' (by decide), hnext ',' (by decide), hnext '\x7d' (by decide),
    hnext '?' (by decide), hnext '<' (by decide), any_head?_eq, leadingWord, ha.word, hb.word,
    ha.decide_second (show isAscii '?' = true by decide) (show isAscii ':' = true by decide),
    hb.decide_second (show isAscii '>' = true by decide) (show isAscii '=' = true by decide)]

theorem siteKind?_bytes (pre post : List Char) :
    siteKind? (bytes pre).reverse (bytes post) = siteKind? pre.reverse post := by
  refine siteKind?_of_sameSigns ?_ ?_
  · rw [reverse_bytes, spelling_charBytes.reverse.dropWhile_eq fun _ => isAscii_of_isLayout]
    exact sameSigns_flatMap spelling_charBytes.reverse _
  · rw [bytes, spelling_charBytes.dropWhile_eq fun _ => isAscii_of_isLayout]
    exact sameSigns_flatMap spelling_charBytes _

end

end DesignTokens.Bytewise
