import DesignTokens.Proofs.Source.Piece

/-!
# How a key is read

A piece of an object is read as blanks and comments, a key, and a colon. The
comments are not taken as the text is divided, but in any way that lets a key
follow: a line comment may end at every place of its line, and a block comment at
each of the closing marks behind it (`Skipped`). A quoted key goes on to the next
quote of its kind, whatever stands in front of that (`ReadsAs`).

What is read is there to be read (`keyBehind_of_entryOf?`), and where there is
something to be read, something is (`exists_entryOf?`). What stands behind blanks
and comments as the text is divided is read before everything else
(`entryOf?_of_isLead`).
-/

namespace DesignTokens.Source

open Text

/-! ## Colons -/

theorem exists_skipBlanks (cs : List Char) :
    ∃ blanks, cs = blanks ++ skipBlanks cs ∧ ∀ c ∈ blanks, isBlank c = true :=
  ⟨cs.takeWhile isBlank, List.takeWhile_append_dropWhile.symm,
    fun _ hc => List.mem_takeWhile_imp hc⟩

theorem colonBehind?_eq_some_iff {cs value : List Char} : colonBehind? cs = some value ↔
    ∃ blanks more, cs = blanks ++ ':' :: more ∧ (∀ c ∈ blanks, isBlank c = true) ∧
      value = skipBlanks more := by
  rw [colonBehind?]
  constructor
  · intro h
    obtain ⟨blanks, hcs, hblanks⟩ := exists_skipBlanks cs
    split at h
    case h_1 more hskip => exact ⟨blanks, more, hskip ▸ hcs, hblanks, (Option.some.inj h).symm⟩
    case h_2 => cases h
  · rintro ⟨blanks, more, rfl, hblanks, rfl⟩
    rw [skipBlanks, List.dropWhile_append_of_pos hblanks]
    rfl

theorem noIdent_colon {blanks : List Char} (hblanks : ∀ c ∈ blanks, isBlank c = true)
    (more : List Char) : NoIdent (blanks ++ ':' :: more).head? := by
  obtain ⟨y, b, hy, hident⟩ := exists_of_colonBehind
    (colonBehind?_eq_some_iff.mpr ⟨blanks, more, rfl, hblanks, rfl⟩)
  rw [hy]
  rintro d ⟨⟩
  exact hident

/-! ## Keys -/

/-- What is read as a key: an identifier, or what stands between two quotes without such a quote
and without a line end. The key and whether it is quoted come behind. -/
inductive ReadsAs : List Char → List Char → Bool → Prop
  | name {w : List Char} (h : IsName w) : ReadsAs w w false
  | quoted {q : Char} {w : List Char} (hkind : q = '"' ∨ q = '\'') (hquote : q ∉ w)
      (hline : '\n' ∉ w) : ReadsAs (q :: (w ++ [q])) w true

theorem keyHere?_of_readsAs {spelled key blanks : List Char} {quoted : Bool}
    (h : ReadsAs spelled key quoted) (hblanks : ∀ c ∈ blanks, isBlank c = true)
    (more : List Char) : keyHere? (spelled ++ (blanks ++ ':' :: more)) = some ⟨key, quoted,
      (spelled ++ (blanks ++ ':' :: more)).length, (skipBlanks more).length⟩ := by
  have hcolon : colonBehind? (blanks ++ ':' :: more) = some (skipBlanks more) :=
    colonBehind?_eq_some_iff.mpr ⟨blanks, more, rfl, hblanks, rfl⟩
  cases h with
  | name h =>
      obtain ⟨c, cs, rfl, hc⟩ := h.start
      have hcs : ∀ d ∈ cs, isIdent d = true := fun d hd => h.all d (List.mem_cons_of_mem c hd)
      rw [List.cons_append, keyHere?_name hc hcs (noIdent_colon hblanks more), hcolon]
      rfl
  | @quoted q _ hkind hquote hline =>
      have hinside : ∀ d ∈ key, (d ≠ q && d ≠ '\n') = true := by
        intro d hd
        simp only [ne_eq, Bool.and_eq_true, decide_eq_true_eq]
        exact ⟨fun heq => hquote (heq ▸ hd), fun heq => hline (heq ▸ hd)⟩
      rw [List.cons_append, List.append_assoc, keyHere?_quote hkind,
        List.dropWhile_append_of_pos hinside, List.takeWhile_append_of_pos hinside]
      simp [hcolon]

theorem exists_of_keyHere? {cs : List Char} {k : Key} (h : keyHere? cs = some k) :
    ∃ spelled blanks more, cs = spelled ++ (blanks ++ ':' :: more) ∧
      ReadsAs spelled k.text k.quoted ∧ (∀ c ∈ blanks, isBlank c = true) ∧
      k.fromKey = cs.length ∧ k.fromValue = (skipBlanks more).length := by
  cases cs with
  | nil => cases h
  | cons c cs =>
      by_cases hstart : isIdentStart c = true
      · obtain ⟨w, rest, rfl, hw, hrest⟩ := exists_run cs
        rw [keyHere?_name hstart hw hrest] at h
        obtain ⟨value, hcolon, rfl⟩ := Option.map_eq_some_iff.mp h
        obtain ⟨blanks, more, rfl, hblanks, rfl⟩ := colonBehind?_eq_some_iff.mp hcolon
        have hname : IsName (c :: w) :=
          ⟨⟨c, w, rfl, hstart⟩, List.forall_mem_cons.mpr ⟨isIdent_of_isIdentStart hstart, hw⟩⟩
        exact ⟨c :: w, blanks, more, rfl, .name hname, hblanks, rfl, rfl⟩
      · rw [Bool.not_eq_true] at hstart
        by_cases hkind : c = '"' ∨ c = '\''
        · rw [keyHere?_quote hkind] at h
          split at h
          case h_2 => cases h
          case h_1 d rest hclose =>
            split at h
            case isFalse => cases h
            case isTrue hd =>
              subst hd
              obtain ⟨value, hcolon, rfl⟩ := Option.map_eq_some_iff.mp h
              obtain ⟨blanks, more, rfl, hblanks, rfl⟩ := colonBehind?_eq_some_iff.mp hcolon
              have hinside : ∀ e ∈ cs.takeWhile fun e => e ≠ d && e ≠ '\n', e ≠ d ∧ e ≠ '\n' := by
                intro e he
                simpa using List.mem_takeWhile_imp he
              refine ⟨d :: (cs.takeWhile (fun e => e ≠ d && e ≠ '\n') ++ [d]), blanks, more, ?_,
                .quoted hkind (fun hmem => (hinside d hmem).1 rfl)
                  (fun hmem => (hinside '\n' hmem).2 rfl), hblanks, rfl, rfl⟩
              rw [List.cons_append, List.append_assoc, List.singleton_append, ← hclose,
                List.takeWhile_append_dropWhile]
        · rw [keyHere?_eq_none hstart (not_or.mp hkind)] at h
          cases h

/-- The first character of a key is no blank and opens no comment. -/
theorem keyAt_of_keyHere? {cs : List Char} {k : Key} (h : keyHere? cs = some k) :
    keyAt cs = some k := by
  obtain ⟨spelled, blanks, more, rfl, hreads, -⟩ := exists_of_keyHere? h
  obtain ⟨key, quoted, fromKey, fromValue⟩ := k
  dsimp only at hreads
  cases hreads with
  | name hname =>
      obtain ⟨c, cs, hcs, hc⟩ := hname.start
      rw [hcs] at h ⊢
      rwa [List.cons_append, keyAt_of_isIdent (isIdent_of_isIdentStart hc)]
  | @quoted q _ hkind =>
      rw [List.cons_append] at h ⊢
      rwa [keyAt_other (by rcases hkind with rfl | rfl <;> decide)
        (by rcases hkind with rfl | rfl <;> exact fun hpair => absurd hpair.1 (by decide))]

/-! ## Blanks and comments -/

/-- What may be read as blanks and comments. A line comment may stop short of the end of its line,
and a block comment may go on over a closing mark. -/
inductive Skipped : List Char → Prop
  | nil : Skipped []
  | blank {c : Char} {w : List Char} (hc : isBlank c = true) (h : Skipped w) : Skipped (c :: w)
  | line {s w : List Char} (hs : '\n' ∉ s) (h : Skipped w) : Skipped ('/' :: '/' :: (s ++ w))
  | block {s w : List Char} (h : Skipped w) : Skipped ('/' :: '*' :: (s ++ '*' :: '/' :: w))

/-- The key that is read stands behind what is skipped. -/
structure Reads (cs : List Char) : Prop where
  here : ∀ k, keyAt cs = some k → ∃ skip rest, cs = skip ++ rest ∧ Skipped skip ∧
    keyHere? rest = some k
  inLine : ∀ k, keyInLine cs = some k → ∃ s skip rest, cs = s ++ (skip ++ rest) ∧ '\n' ∉ s ∧
    Skipped skip ∧ keyHere? rest = some k
  inBlock : ∀ k, keyInBlock cs = some k → ∃ s skip rest, cs = s ++ '*' :: '/' :: (skip ++ rest) ∧
    Skipped skip ∧ keyHere? rest = some k

theorem reads_cons {c : Char} {cs : List Char} (hrest : Reads cs)
    (hbehind : ∀ d rest, cs = d :: rest → Reads rest) : Reads (c :: cs) := by
  have here : ∀ k, keyAt (c :: cs) = some k → ∃ skip rest, c :: cs = skip ++ rest ∧
      Skipped skip ∧ keyHere? rest = some k := by
    intro k hk
    by_cases hblank : isBlank c = true
    · rw [keyAt_blank hblank] at hk
      obtain ⟨skip, rest, rfl, hskip, hkey⟩ := hrest.here k hk
      exact ⟨c :: skip, rest, rfl, .blank hblank hskip, hkey⟩
    by_cases hpair : c = '/' ∧ (cs.head? = some '/' ∨ cs.head? = some '*')
    · obtain ⟨rfl, hpair⟩ := hpair
      rcases hpair with hpair | hpair <;> obtain ⟨cs, rfl⟩ := List.head?_eq_some_iff.mp hpair
      · obtain ⟨s, skip, rest, rfl, hs, hskip, hkey⟩ := (hbehind _ cs rfl).inLine k hk
        exact ⟨'/' :: '/' :: (s ++ skip), rest, by simp, .line hs hskip, hkey⟩
      · obtain ⟨s, skip, rest, rfl, hskip, hkey⟩ := (hbehind _ cs rfl).inBlock k hk
        exact ⟨'/' :: '*' :: (s ++ '*' :: '/' :: skip), rest, by simp, .block hskip, hkey⟩
    · rw [keyAt_other (by simpa using hblank) hpair] at hk
      exact ⟨[], c :: cs, rfl, .nil, hk⟩
  refine ⟨here, fun k hk => ?_, fun k hk => ?_⟩
  · by_cases hline : c = '\n'
    · subst hline
      obtain ⟨skip, rest, hcs, hskip, hkey⟩ := here k hk
      exact ⟨[], skip, rest, hcs, List.not_mem_nil, hskip, hkey⟩
    · rw [keyInLine_cons hline] at hk
      rcases Option.or_eq_some_iff.mp hk with hk | ⟨-, hk⟩
      · obtain ⟨s, skip, rest, rfl, hs, hskip, hkey⟩ := hrest.inLine k hk
        exact ⟨c :: s, skip, rest, rfl, by simp [Ne.symm hline, hs], hskip, hkey⟩
      · obtain ⟨skip, rest, hcs, hskip, hkey⟩ := here k hk
        exact ⟨[], skip, rest, hcs, List.not_mem_nil, hskip, hkey⟩
  · by_cases hclose : c = '*' ∧ cs.head? = some '/'
    · obtain ⟨rfl, hhead⟩ := hclose
      obtain ⟨cs, rfl⟩ := List.head?_eq_some_iff.mp hhead
      rw [keyInBlock_close] at hk
      rcases Option.or_eq_some_iff.mp hk with hk | ⟨-, hk⟩
      · obtain ⟨skip, rest, rfl, hskip, hkey⟩ := (hbehind _ cs rfl).here k hk
        exact ⟨[], skip, rest, rfl, hskip, hkey⟩
      · obtain ⟨s, skip, rest, hcs, hskip, hkey⟩ := hrest.inBlock k hk
        exact ⟨'*' :: s, skip, rest, by rw [hcs]; rfl, hskip, hkey⟩
    · rw [keyInBlock_other hclose] at hk
      obtain ⟨s, skip, rest, rfl, hskip, hkey⟩ := hrest.inBlock k hk
      exact ⟨c :: s, skip, rest, rfl, hskip, hkey⟩

theorem reads : ∀ cs : List Char, Reads cs
  | [] => ⟨nofun, nofun, nofun⟩
  | [_] => reads_cons ⟨nofun, nofun, nofun⟩ nofun
  | _ :: d :: cs => reads_cons (reads (d :: cs)) (by rintro _ _ ⟨⟩; exact reads cs)

theorem isSome_keyInLine {w : List Char} (h : (keyAt w).isSome) : ∀ {s : List Char}, '\n' ∉ s →
    (keyInLine (s ++ w)).isSome
  | [], _ => by
      rw [List.nil_append]
      cases w with
      | nil => exact h
      | cons c w =>
          by_cases hline : c = '\n'
          · subst hline
            exact h
          · rw [keyInLine_cons hline, Option.isSome_or, h, Bool.or_true]
  | c :: s, hs => by
      rw [List.mem_cons, not_or] at hs
      rw [List.cons_append, keyInLine_cons (Ne.symm hs.1), Option.isSome_or,
        isSome_keyInLine h hs.2, Bool.true_or]

theorem isSome_keyInBlock {w : List Char} (h : (keyAt w).isSome) : ∀ s : List Char,
    (keyInBlock (s ++ '*' :: '/' :: w)).isSome
  | [] => by rw [List.nil_append, keyInBlock_close, Option.isSome_or, h, Bool.true_or]
  | c :: s => by
      have ih := isSome_keyInBlock h s
      rw [List.cons_append]
      by_cases hclose : c = '*' ∧ (s ++ '*' :: '/' :: w).head? = some '/'
      · obtain ⟨rfl, hhead⟩ := hclose
        obtain ⟨cs, hcs⟩ := List.head?_eq_some_iff.mp hhead
        rw [hcs] at ih ⊢
        rw [keyInBlock_close, Option.isSome_or, ih, Bool.or_true]
      · rwa [keyInBlock_other hclose]

/-- Where a key stands behind what may be skipped, a key is read. -/
theorem Skipped.isSome_keyAt {skip rest : List Char} (h : Skipped skip)
    (hrest : (keyAt rest).isSome) : (keyAt (skip ++ rest)).isSome := by
  induction h with
  | nil => exact hrest
  | blank hc _ ih => rwa [List.cons_append, keyAt_blank hc]
  | line hs _ ih =>
      simp only [List.cons_append, List.append_assoc]
      exact isSome_keyInLine ih hs
  | block _ ih =>
      simp only [List.cons_append, List.append_assoc]
      exact isSome_keyInBlock ih _

/-! ## The entry of a piece -/

/-- Behind such a front the text has a key that is spelled so, and a colon behind it. The entry
tells the key and its place, the text being at the position. -/
def KeyBehind (Front : List Char → Prop) (Spelled : List Char → List Char → Bool → Prop)
    (pos : Nat) (text : List Char) (e : Entry) : Prop :=
  ∃ front spelled blanks more, text = front ++ (spelled ++ (blanks ++ ':' :: more)) ∧
    Front front ∧ Spelled spelled e.key e.quoted ∧ (∀ c ∈ blanks, isBlank c = true) ∧
    e.keyStart = pos + front.length ∧
    e.valueStart = pos + (text.length - (skipBlanks more).length)

section

variable {pos : Nat} {piece : List Char} {e : Entry}

theorem KeyBehind.mono {Front Front' : List Char → Prop}
    {Spelled Spelled' : List Char → List Char → Bool → Prop}
    (h : KeyBehind Front Spelled pos piece e) (hfront : ∀ w, Front w → Front' w)
    (hspelled : ∀ w key quoted, Spelled w key quoted → Spelled' w key quoted) :
    KeyBehind Front' Spelled' pos piece e := by
  obtain ⟨front, spelled, blanks, more, htext, hf, hs, hplace⟩ := h
  exact ⟨front, spelled, blanks, more, htext, hfront _ hf, hspelled _ _ _ hs, hplace⟩

/-- A character that the text does not have is not in the key either. -/
theorem KeyBehind.mono_of_not_mem {Front : List Char → Prop}
    {Spelled Spelled' : List Char → List Char → Bool → Prop} {c : Char}
    (h : KeyBehind Front Spelled pos piece e) (hc : c ∉ piece)
    (hspelled : ∀ w key quoted, c ∉ w → Spelled w key quoted → Spelled' w key quoted) :
    KeyBehind Front Spelled' pos piece e := by
  obtain ⟨front, spelled, blanks, more, rfl, hf, hs, hplace⟩ := h
  simp only [List.mem_append, not_or] at hc
  exact ⟨front, spelled, blanks, more, rfl, hf, hspelled _ _ _ hc.2.1 hs, hplace⟩

/-- The front is what stands before the key. -/
theorem KeyBehind.front {Front : List Char → Prop}
    {Spelled : List Char → List Char → Bool → Prop} (h : KeyBehind Front Spelled pos piece e) :
    Front (piece.take (e.keyStart - pos)) := by
  obtain ⟨front, spelled, blanks, more, rfl, hfront, -, -, hkey, -⟩ := h
  rwa [hkey, Nat.add_sub_cancel_left, List.take_left]

theorem KeyBehind.keyStart_bounds {Front : List Char → Prop}
    {Spelled : List Char → List Char → Bool → Prop} (h : KeyBehind Front Spelled pos piece e) :
    pos ≤ e.keyStart ∧ e.keyStart < pos + piece.length := by
  obtain ⟨front, spelled, blanks, more, rfl, -, -, -, hkey, -⟩ := h
  simp only [hkey, List.length_append, List.length_cons]
  omega

/-- The front can be any other that is told by what stands before the key. -/
theorem KeyBehind.change {Front Front' : List Char → Prop}
    {Spelled : List Char → List Char → Bool → Prop} (h : KeyBehind Front Spelled pos piece e)
    (hfront : Front' (piece.take (e.keyStart - pos))) : KeyBehind Front' Spelled pos piece e := by
  obtain ⟨front, spelled, blanks, more, rfl, -, hspelled, hblanks, hkey, hvalue⟩ := h
  rw [hkey, Nat.add_sub_cancel_left, List.take_left] at hfront
  exact ⟨front, spelled, blanks, more, rfl, hfront, hspelled, hblanks, hkey, hvalue⟩

/-- What is read is there to be read. -/
theorem keyBehind_of_entryOf? (h : entryOf? (pos, piece) = some e) :
    KeyBehind Skipped ReadsAs pos piece e := by
  obtain ⟨k, hk, rfl⟩ := Option.map_eq_some_iff.mp h
  obtain ⟨skip, rest, hpiece, hskip, hkey⟩ := (reads piece).here k hk
  obtain ⟨spelled, blanks, more, rfl, hreads, hblanks, hfromKey, hfromValue⟩ :=
    exists_of_keyHere? hkey
  refine ⟨skip, spelled, blanks, more, hpiece, hskip, hreads, hblanks, ?_, ?_⟩
  · dsimp only
    rw [hfromKey, hpiece, List.length_append, Nat.add_sub_cancel]
  · dsimp only
    rw [hfromValue]

/-- Where there is something to be read, something is. -/
theorem exists_entryOf? (h : KeyBehind Skipped ReadsAs pos piece e) :
    ∃ e', entryOf? (pos, piece) = some e' := by
  obtain ⟨skip, spelled, blanks, more, rfl, hskip, hreads, hblanks, -⟩ := h
  have hrest := keyAt_of_keyHere? (keyHere?_of_readsAs hreads hblanks more)
  obtain ⟨k, hk⟩ :=
    Option.isSome_iff_exists.mp (hskip.isSome_keyAt (Option.isSome_of_eq_some hrest))
  exact ⟨_, Option.map_eq_some_iff.mpr ⟨k, hk, rfl⟩⟩

theorem startsFresh_name_append {w : List Char} (h : IsName w) (rest : List Char) :
    StartsFresh (w ++ rest) := by
  obtain ⟨c, cs, rfl, hc⟩ := h.start
  have hident := isIdent_of_isIdentStart hc
  exact startsFresh_cons ⟨ne_of_isIdent hident (by decide), ne_of_isIdent hident (by decide)⟩ _

theorem ReadsAs.startsFresh {spelled key : List Char} {quoted : Bool}
    (h : ReadsAs spelled key quoted) (rest : List Char) : StartsFresh (spelled ++ rest) := by
  cases h with
  | name h => exact startsFresh_name_append h rest
  | quoted hkind => exact startsFresh_cons (by rcases hkind with rfl | rfl <;> decide) _

/-- What stands behind blanks and comments, as the text is divided, is read before all else. -/
theorem entryOf?_of_isLead (h : KeyBehind IsLead ReadsAs pos piece e) :
    entryOf? (pos, piece) = some e := by
  obtain ⟨lead, spelled, blanks, more, rfl, hlead, hreads, hblanks, hkey, hvalue⟩ := h
  have hrest := keyAt_of_keyHere? (keyHere?_of_readsAs hreads hblanks more)
  have hk : key? (lead ++ (spelled ++ (blanks ++ ':' :: more))) = _ :=
    hlead.keyAt (hreads.startsFresh _) hrest
  obtain ⟨key, quoted, keyStart, valueStart⟩ := e
  dsimp only at hk hkey hvalue ⊢
  rw [entryOf?, hk, Option.map_some, hkey, hvalue]
  simp

end

end DesignTokens.Source
