import DesignTokens.Proofs.Json.Compact
import DesignTokens.Response.Braces
import DesignTokens.Response.Fence

/-!
# Finding a compact text in a response

In a compact text all braces outside the strings match, and nothing in a string
ends it early. So a search for the brace that closes an object passes over every
compact text within the object (`passed_compactChars`).

A block of JSON is another matter: its body ends at the first three back quotes,
and these may stand in a string. The body is then the text up to some back quote
in it (`exists_untilFence`).
-/

namespace DesignTokens.Response

open Json Text

/-! ## Strings -/

/-- Starting there, a reader of the characters is never outside of strings, and ends inside one. -/
def StaysInside : Quoting → List Char → Prop
  | q, [] => q = .inside
  | q, c :: cs => q ≠ .outside ∧ StaysInside (q.behind c) cs

theorem behind_of_ne {c : Char} (hquote : c ≠ '"') (hback : c ≠ '\\') :
    Quoting.behind .inside c = .inside := by
  rw [Quoting.behind.eq_def]
  split <;> simp_all

theorem staysInside_append {v : List Char} (hv : StaysInside .inside v) :
    ∀ {w : List Char} {q : Quoting}, StaysInside q w → StaysInside q (w ++ v)
  | [], _, hw => hw ▸ hv
  | _ :: _, _, hw => ⟨hw.1, staysInside_append hv hw.2⟩

theorem staysInside_of_forall : ∀ {w : List Char}, (∀ c ∈ w, c ≠ '"' ∧ c ≠ '\\') →
    StaysInside .inside w
  | [], _ => rfl
  | c :: w, h => by
      obtain ⟨hquote, hback⟩ := h c (List.mem_cons_self ..)
      refine ⟨by decide, ?_⟩
      rw [behind_of_ne hquote hback]
      exact staysInside_of_forall fun d hd => h d (List.mem_cons_of_mem c hd)

theorem hexDigit_ne : ∀ n < 16, hexDigit n ≠ '"' ∧ hexDigit n ≠ '\\' := by decide

theorem staysInside_escaped (c : Char) : StaysInside .inside (escaped c) := by
  rw [escaped.eq_def]
  split
  case h_8 hquote hback _ _ _ _ _ =>
    split
    case isTrue hctrl =>
      have hhigh := hexDigit_ne (c.toNat / 16) (by omega)
      have hlow := hexDigit_ne (c.toNat % 16) (by omega)
      refine ⟨by decide, by decide, staysInside_of_forall fun d hd => ?_⟩
      simp only [List.mem_cons, List.not_mem_nil, or_false] at hd
      rcases hd with rfl | rfl | rfl | rfl
      · decide
      · decide
      · exact hhigh
      · exact hlow
    case isFalse => exact ⟨by decide, behind_of_ne hquote hback⟩
  all_goals exact ⟨by decide, by decide, rfl⟩

theorem staysInside_flatMap (cs : List Char) : StaysInside .inside (cs.flatMap escaped) := by
  induction cs with
  | nil => rfl
  | cons c cs ih => exact staysInside_append ih (staysInside_escaped c)

/-! ## Braces -/

/-- A search for the end of an object passes over the text. -/
def Passed (w : List Char) : Prop :=
  ∀ depth more, untilClosed? .outside (depth + 1) (w ++ more)
    = (untilClosed? .outside (depth + 1) more).map (w ++ ·)

theorem Passed.append {w v : List Char} (hw : Passed w) (hv : Passed v) : Passed (w ++ v) := by
  intro depth more
  rw [List.append_assoc, hw, hv, Option.map_map]
  congr 1
  funext rest
  exact (List.append_assoc ..).symm

theorem passed_nil : Passed [] := by
  intro depth more
  simp

theorem behind_outside {c : Char} (hquote : c ≠ '"') : Quoting.behind .outside c = .outside := by
  rw [Quoting.behind]
  exact hquote

theorem passed_char {c : Char} (hopen : c ≠ '\x7b') (hclose : c ≠ '\x7d') (hquote : c ≠ '"') :
    Passed [c] := by
  intro depth more
  rw [List.singleton_append, untilClosed?_other (fun _ => hopen) (fun _ => hclose),
    behind_outside hquote]
  rfl

theorem passed_of_forall : ∀ {w : List Char}, (∀ c ∈ w, c ≠ '\x7b' ∧ c ≠ '\x7d' ∧ c ≠ '"') →
    Passed w
  | [], _ => passed_nil
  | c :: w, h => by
      obtain ⟨hopen, hclose, hquote⟩ := h c (List.mem_cons_self ..)
      exact (passed_char hopen hclose hquote).append
        (passed_of_forall fun d hd => h d (List.mem_cons_of_mem c hd))

theorem untilClosed?_of_staysInside {depth : Nat} {more : List Char} :
    ∀ {w : List Char} {q : Quoting}, StaysInside q w →
      untilClosed? q depth (w ++ more) = (untilClosed? .inside depth more).map (w ++ ·)
  | [], _, h => by
      obtain rfl := h
      simp
  | c :: w, q, h => by
      have ih : untilClosed? (q.behind c) depth (w ++ more)
          = (untilClosed? .inside depth more).map (w ++ ·) := untilClosed?_of_staysInside h.2
      rw [List.cons_append, untilClosed?_other (fun hq => absurd hq h.1)
        (fun hq => absurd hq h.1), ih, Option.map_map]
      rfl

theorem passed_quoted (s : String) : Passed (quoted s) := by
  intro depth more
  have hopen : quoted s ++ more = '"' :: (s.toList.flatMap escaped ++ '"' :: more) := by
    simp [quoted]
  have hclose : untilClosed? .inside (depth + 1) ('"' :: more)
      = (untilClosed? .outside (depth + 1) more).map ('"' :: ·) :=
    untilClosed?_other (by decide) (by decide)
  rw [hopen, untilClosed?_other (by decide) (by decide), Quoting.behind,
    untilClosed?_of_staysInside (staysInside_flatMap _), hclose, Option.map_map, Option.map_map]
  congr 1
  funext rest
  simp [quoted]

/-- An object is passed over if what stands between its braces is. -/
theorem Passed.object {w : List Char} (h : Passed w) : Passed ('\x7b' :: w ++ ['\x7d']) := by
  intro depth more
  have hclose : untilClosed? .outside (depth + 2) ('\x7d' :: more)
      = (untilClosed? .outside (depth + 1) more).map ('\x7d' :: ·) := by
    rw [untilClosed?_close, if_neg (by omega)]
    rfl
  rw [List.append_assoc, List.cons_append, untilClosed?_open, h (depth + 1),
    List.singleton_append, hclose, Option.map_map, Option.map_map]
  congr 1
  funext rest
  simp

theorem joins_passed (P : String → Prop) : Joins P id fun w _ => Passed w :=
  joins_of_append Passed.append
    (fun h => passed_of_forall fun c hc =>
      ⟨(h c hc).ne (by decide), (h c hc).ne (by decide), (h c hc).ne (by decide)⟩)
    (fun s _ => passed_quoted s) Passed.object

theorem passed_compactChars {P : String → Prop} {v : Value} (h : Printable P v) :
    Passed (compactChars v) :=
  (joins_passed P).of_printable h

theorem fromBrace_append {before : List Char} (hbefore : '\x7b' ∉ before) (more : List Char) :
    fromBrace (before ++ '\x7b' :: more) = '\x7b' :: more := by
  rw [fromBrace, dropWhile_append_stop (by decide), List.dropWhile_eq_nil_iff.mpr, List.nil_append]
  intro c hc
  rw [decide_eq_true_eq]
  rintro rfl
  exact hbefore hc

/-- The first object of a text is found, whatever stands behind it. -/
theorem balancedObject?_append {before w : List Char} (hbefore : '\x7b' ∉ before) (hw : Passed w)
    (more : List Char) :
    balancedObject? (before ++ '\x7b' :: (w ++ '\x7d' :: more))
      = some ('\x7b' :: (w ++ ['\x7d'])) := by
  have hclose : untilClosed? .outside 1 ('\x7d' :: more) = some ['\x7d'] := by
    rw [untilClosed?_close, if_pos le_rfl]
  rw [balancedObject?, fromBrace_append hbefore, untilClosed?_open, hw 0, hclose]
  rfl

theorem outermostBraces?_append {before more : List Char} (hbefore : '\x7b' ∉ before)
    (hmore : '\x7d' ∉ more) (w : List Char) :
    outermostBraces? (before ++ '\x7b' :: (w ++ '\x7d' :: more))
      = some ('\x7b' :: (w ++ ['\x7d'])) := by
  have hreverse : ('\x7b' :: (w ++ '\x7d' :: more)).reverse
      = more.reverse ++ '\x7d' :: (w.reverse ++ ['\x7b']) := by simp
  have hdrop : more.reverse.dropWhile (· ≠ '\x7d') = [] := by
    refine List.dropWhile_eq_nil_iff.mpr fun c hc => ?_
    rw [decide_eq_true_eq]
    rintro rfl
    exact hmore (List.mem_reverse.mp hc)
  rw [outermostBraces?, fromBrace_append hbefore, hreverse, dropWhile_append_stop (by decide),
    hdrop]
  simp

/-! ## Fences -/

theorem after?_fence (more : List Char) : after? fence (fence ++ more) = some more :=
  after_eq_some_iff.mpr rfl

theorem after?_fence_eq_none {c : Char} (hc : c ≠ '\x60') (cs : List Char) :
    after? fence (c :: cs) = none := by
  rw [fence, after?, if_neg hc.symm]

/-- The body of a block is the whole text in front of a fence, or what stands in front of some back
quote in it. -/
theorem exists_untilFence (more : List Char) : ∀ w : List Char,
    ∃ body, untilFence? (w ++ (fence ++ more)) = some body ∧
      (body = w ∨ ∃ rest, w = body ++ '\x60' :: rest)
  | [] => by
      refine ⟨[], ?_, .inl rfl⟩
      rfl
  | c :: w => by
      rw [List.cons_append, untilFence?]
      cases hafter : after? fence (c :: (w ++ (fence ++ more))) with
      | some behind =>
          have hc : c = '\x60' := by
            by_contra hc
            rw [after?_fence_eq_none hc] at hafter
            cases hafter
          exact ⟨[], by simp, .inr ⟨w, by rw [hc]; rfl⟩⟩
      | none =>
          obtain ⟨body, hbody, hcut⟩ := exists_untilFence more w
          refine ⟨c :: body, by simp [hbody], ?_⟩
          rcases hcut with rfl | ⟨rest, rfl⟩
          · exact .inl rfl
          · exact .inr ⟨rest, rfl⟩

theorem blockAt?_eq_none {c : Char} (hc : c ≠ '\x60') (cs : List Char) :
    blockAt? (c :: cs) = none := by
  rw [blockAt?, after?_fence_eq_none hc]
  rfl

theorem fencedBlocks_append {before : List Char} (h : '\x60' ∉ before) (text : List Char) :
    fencedBlocks (before ++ text) = fencedBlocks text := by
  induction before with
  | nil => rfl
  | cons c before ih =>
      rw [List.mem_cons, not_or] at h
      rw [List.cons_append, fencedBlocks, blocksFrom, blockAt?_eq_none (Ne.symm h.1)]
      exact ih h.2

/-- The first line of a block of JSON. -/
def jsonFence : List Char := fence ++ ['j', 's', 'o', 'n', '\n']

theorem blockAt?_jsonFence {inside body : List Char} (h : untilFence? inside = some body) :
    blockAt? (jsonFence ++ inside)
      = some ⟨['j', 's', 'o', 'n'], body, jsonFence.length + body.length + fence.length⟩ := by
  have hopen : after? fence (jsonFence ++ inside)
      = some ('j' :: 's' :: 'o' :: 'n' :: '\n' :: inside) := after?_fence _
  have hlength : (jsonFence ++ inside).length - inside.length = jsonFence.length := by
    rw [List.length_append, Nat.add_sub_cancel]
  rw [blockAt?, hopen]
  simp only [Option.bind_eq_bind, Option.bind_some]
  have hletters : ('j' :: 's' :: 'o' :: 'n' :: '\n' :: inside).takeWhile Char.isAlpha
      = ['j', 's', 'o', 'n'] := rfl
  have htail : (('j' :: 's' :: 'o' :: 'n' :: '\n' :: inside).dropWhile Char.isAlpha).dropWhile
      (fun c => c = ' ' || c = '\t') = '\n' :: inside := rfl
  rw [hletters, htail, afterLineEnd?, Option.bind_some, h, Option.bind_some, hlength]

theorem jsonBlock?_append {before inside body : List Char} (hbefore : '\x60' ∉ before)
    (h : untilFence? inside = some body) :
    fencedBody? ["json"] (before ++ (jsonFence ++ inside)) = some body := by
  have hblocks : ∃ later, fencedBlocks (jsonFence ++ inside)
      = ⟨['j', 's', 'o', 'n'], body, jsonFence.length + body.length + fence.length⟩ :: later := by
    have hblock := blockAt?_jsonFence h
    rw [jsonFence, fence, List.cons_append, List.cons_append] at hblock ⊢
    rw [fencedBlocks, blocksFrom, hblock]
    exact ⟨_, rfl⟩
  obtain ⟨later, hlater⟩ := hblocks
  have hlanguage : ["json"].contains (String.ofList (lowered ['j', 's', 'o', 'n'])) = true := by
    decide
  rw [fencedBody?, fencedBlocks_append hbefore, hlater]
  simp only [List.find?_cons, hlanguage, Option.map_some]

theorem blocksFrom_append (w more : List Char) (skip : Nat) :
    blocksFrom (skip + w.length) (w ++ more) = blocksFrom skip more := by
  induction w with
  | nil => rfl
  | cons c w ih => exact ih

/-- A character that ends the first line of a block too early. -/
structure Obstructs (x : Char) : Prop where
  letter : x.isAlpha = false
  blank : x ≠ ' ' ∧ x ≠ '\t'
  lineEnd : x ≠ '\n' ∧ x ≠ '\r'
  quote : x ≠ '\x60'

theorem afterLineEnd?_eq_none {c : Char} (hc : c ≠ '\n' ∧ c ≠ '\r') (cs : List Char) :
    afterLineEnd? (c :: cs) = none := by
  rw [afterLineEnd?]
  · exact fun _ heq => hc.2 (List.cons.inj heq).1
  · exact fun _ heq => hc.1 (List.cons.inj heq).1

theorem blockAt?_eq_none_of_line {x : Char} (hx : Obstructs x) {w : List Char}
    (hw : '\n' ∉ w ∧ '\r' ∉ w) (more : List Char) : blockAt? (w ++ x :: more) = none := by
  rw [blockAt?]
  cases hopen : after? fence (w ++ x :: more) with
  | none => rfl
  | some opened =>
      have hquote : x ∉ fence := by simp [fence, hx.quote]
      obtain ⟨w', rfl, rfl⟩ := exists_of_append_eq hquote (after_eq_some_iff.mp hopen).symm
      -- behind the language and the blanks stands a character of the line, at the latest `x`
      have hblank : (decide (x = ' ') || decide (x = '\t')) = false := by simp [hx.blank]
      have htail : ∀ c ∈ (w'.dropWhile Char.isAlpha).dropWhile fun c => c = ' ' || c = '\t',
          c ≠ '\n' ∧ c ≠ '\r' := by
        intro c hc
        have hmem : c ∈ fence ++ w' :=
          List.mem_append_right _ ((List.dropWhile_suffix _).mem ((List.dropWhile_suffix _).mem hc))
        refine ⟨?_, ?_⟩ <;> rintro rfl
        · exact hw.1 hmem
        · exact hw.2 hmem
      simp only [Option.bind_eq_bind, Option.bind_some]
      rw [dropWhile_append_stop hx.letter, dropWhile_append_stop hblank]
      generalize (w'.dropWhile Char.isAlpha).dropWhile (fun c => c = ' ' || c = '\t') = u at htail
      cases u with
      | nil => rw [List.nil_append, afterLineEnd?_eq_none hx.lineEnd, Option.bind_none]
      | cons c u =>
          rw [List.cons_append, afterLineEnd?_eq_none (htail c (List.mem_cons_self ..)),
            Option.bind_none]

/-- No block opens on the last line in front of a fence. -/
theorem blocksFrom_line {x : Char} (hx : Obstructs x) : ∀ {w : List Char} (skip : Nat),
    '\n' ∉ w ∧ '\r' ∉ w → blocksFrom skip (w ++ x :: '\n' :: fence) = []
  | [], skip, h => by
      have hend : ∀ skip, blocksFrom skip ('\n' :: fence) = [] := by
        intro skip
        rcases skip with _ | _ | _ | _ | _ | skip <;> rfl
      cases skip with
      | zero =>
          rw [List.nil_append, blocksFrom, ← List.nil_append (x :: _),
            blockAt?_eq_none_of_line hx h]
          exact hend 0
      | succ skip => exact hend skip
  | c :: w, skip, h => by
      have hw : '\n' ∉ w ∧ '\r' ∉ w :=
        ⟨fun hmem => h.1 (List.mem_cons_of_mem c hmem),
          fun hmem => h.2 (List.mem_cons_of_mem c hmem)⟩
      cases skip with
      | zero =>
          have hnone := blockAt?_eq_none_of_line hx h ('\n' :: fence)
          rw [List.cons_append] at hnone ⊢
          rw [blocksFrom, hnone]
          exact blocksFrom_line hx 0 hw
      | succ skip => exact blocksFrom_line hx skip hw

/-- A block of JSON on one line is the only block of its response. -/
theorem fencedBlocks_jsonFence {x : Char} (hx : Obstructs x) {w body : List Char}
    (hw : '\n' ∉ w ∧ '\r' ∉ w) (hbody : untilFence? (w ++ x :: '\n' :: fence) = some body) :
    ∃ length, fencedBlocks (jsonFence ++ (w ++ x :: '\n' :: fence))
      = [⟨['j', 's', 'o', 'n'], body, length⟩] := by
  have hblock := blockAt?_jsonFence hbody
  refine ⟨jsonFence.length + body.length + fence.length, ?_⟩
  have hskip : jsonFence.length + body.length + fence.length - 1
      = (body.length + fence.length) + jsonFence.tail.length := by
    simp [jsonFence]
    omega
  have hcons : ∀ more, jsonFence ++ more = '\x60' :: (jsonFence.tail ++ more) := fun _ => rfl
  rw [hcons] at hblock ⊢
  rw [fencedBlocks, blocksFrom, hblock]
  dsimp only
  rw [hskip, blocksFrom_append, blocksFrom_line hx _ hw]

end DesignTokens.Response
