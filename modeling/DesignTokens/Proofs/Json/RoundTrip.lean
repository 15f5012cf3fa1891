import Mathlib.Data.List.TakeWhile
import DesignTokens.Json.Parser
import DesignTokens.Json.Printer
import DesignTokens.Proofs.Json.Lexeme
import DesignTokens.Proofs.Json.Members

/-!
# Reading what has been written

The compact text of a value is read back as the value (`parse?_compact`,
`parseValue?_compact`). The proof goes through the lexemes: the text is cut into
the lexemes of the value, one piece of the value after the other, and the reader
takes these lexemes from wherever a value may start to the place behind it.

The text of a value can be read if its numbers are natural (`Printable`), and the
value is found again if nothing is left to settle: if its members have distinct
names, its numbers are in range and it is not too deep (`Written`). All records
of the library are written as such values.
-/

namespace DesignTokens.Json

open Text Number

/-! ## Strings -/

theorem hex4?_hexDigit : ∀ n < 0x20,
    hex4? '0' '0' (hexDigit (n / 16)) (hexDigit (n % 16)) = some n := by
  decide

theorem pushUnit_of_lt {s : StringSoFar} {n : Nat} (h : n < 0x20) :
    s.pushUnit n = s.push (Char.ofNat n) := by
  have hhigh : isHighHalf n = false := by
    simp only [isHighHalf, Bool.and_eq_false_iff, decide_eq_false_iff_not]
    omega
  have hlow : isLowHalf n = false := by
    simp only [isLowHalf, Bool.and_eq_false_iff, decide_eq_false_iff_not]
    omega
  rw [StringSoFar.pushUnit, hhigh, hlow]
  rfl

/-- A written character is read as itself. -/
theorem readString_escaped (s : StringSoFar) (c : Char) (rest : List Char) :
    readString s (escaped c ++ rest) = readString (s.push c) rest := by
  rw [escaped.eq_def]
  split
  case h_8 hquote hback _ _ _ _ _ =>
    split
    case isTrue hctrl =>
      simp only [List.cons_append, List.nil_append]
      rw [readString_unit, hex4?_hexDigit _ hctrl, Option.bind_some, pushUnit_of_lt hctrl,
        Char.ofNat_toNat]
    case isFalse hctrl => exact readString_char hquote hback hctrl
  all_goals exact readString_short rfl

theorem finish_foldl_push (cs done : List Char) :
    (cs.foldl StringSoFar.push ⟨done, none, true⟩).finish
      = some (String.ofList (done.reverse ++ cs)) := by
  induction cs generalizing done with
  | nil => simp [StringSoFar.finish]
  | cons c cs ih =>
      rw [List.foldl_cons]
      have hstep : StringSoFar.push ⟨done, none, true⟩ c = ⟨c :: done, none, true⟩ := rfl
      rw [hstep, ih, List.reverse_cons, List.append_assoc]
      rfl

theorem readString_written (s : StringSoFar) (cs rest : List Char) :
    readString s (cs.flatMap escaped ++ '"' :: rest)
      = some ((cs.foldl StringSoFar.push s).finish, rest) := by
  induction cs generalizing s with
  | nil => exact readString_quote
  | cons c cs ih =>
      rw [List.flatMap_cons, List.append_assoc, readString_escaped, ih, List.foldl_cons]

theorem lexemes_quoted (s : String) (rest : List Char) :
    lexemes (quoted s ++ rest) = (lexemes rest).map (.string (some s) :: ·) := by
  have htext : quoted s ++ rest = '"' :: (s.toList.flatMap escaped ++ '"' :: rest) := by
    simp [quoted]
  rw [htext]
  refine lexemes_of_read ?_
  rw [readLexeme_quote, readString_written, finish_foldl_push, List.reverse_nil, List.nil_append,
    String.ofList_toList]
  rfl

/-! ## Numbers -/

theorem digitsValue_toDigits (n : Nat) : digitsValue (Nat.toDigits 10 n) = n :=
  Nat.ofDigitChars_ten_toDigits

/-- No number but zero is written with a zero in front. -/
theorem head?_toDigits : ∀ {n : Nat}, 0 < n → (Nat.toDigits 10 n).head? ≠ some '0' := by
  intro n
  induction n using Nat.strongRecOn with
  | ind n ih =>
      intro hpos
      by_cases hn : n < 10
      · have hdigit : ∀ d < 10, 0 < d → Nat.digitChar d ≠ '0' := by decide
        rw [Nat.toDigits_of_lt_base hn]
        exact fun h => hdigit n hn hpos (Option.some.inj h)
      · have hlater := ih (n / 10) (by omega) (by omega)
        rw [Nat.toDigits_of_base_le (by decide) (by omega)]
        rwa [List.head?_append_of_ne_nil _ Nat.toDigits_ne_nil]

theorem readWhole_toDigits (n : Nat) : readWhole (Nat.toDigits 10 n) = some (n, []) := by
  have hdigits : ∀ c ∈ Nat.toDigits 10 n, c.isDigit = true :=
    fun c hc => Nat.isDigit_of_mem_toDigits (by decide) (by decide) hc
  by_cases hn : n = 0
  · subst hn
    rfl
  · rw [readWhole, List.takeWhile_eq_self_iff.mpr hdigits, List.dropWhile_eq_nil_iff.mpr hdigits,
      digitsValue_toDigits, if_neg]
    · simp
    · rintro cs h
      refine head?_toDigits (Nat.pos_of_ne_zero hn) ?_
      rw [h]
      rfl

theorem text_ofNat (n : Nat) : JsonNumber.text (.ofNat n) = Nat.toDigits 10 n := by
  simp [JsonNumber.text, JsonNumber.ofNat]

theorem isDigit_of_mem_text {n : Nat} {c : Char} (h : c ∈ JsonNumber.text (.ofNat n)) :
    c.isDigit = true := by
  rw [text_ofNat] at h
  exact Nat.isDigit_of_mem_toDigits (by decide) (by decide) h

theorem lexemes_number (n : Nat) :
    lexemes (JsonNumber.text (.ofNat n)) = some [.number (.ofNat n)] := by
  have hminus : (Nat.toDigits 10 n).head? ≠ some '-' := by
    intro h
    have hdigit := Nat.isDigit_of_mem_toDigits (by decide) (by decide) (List.mem_of_head? h)
    exact absurd hdigit (by decide)
  have hread : readNumber (Nat.toDigits 10 n) = some (.ofNat n, []) := by
    rw [readNumber_other hminus, readUnsigned, readWhole_toDigits]
    rfl
  rw [text_ofNat, lexemes_of_read (readLexeme_number hread)]
  rfl

/-! ## Values -/

mutual

def valueLexemes : Value → List Lexeme
  | .null => [.null]
  | .bool b => [.bool b]
  | .number n => [.number n]
  | .string s => [.string (some s)]
  | .array items => .openArray :: (itemLexemes items ++ [.closeArray])
  | .object members => .openObject :: (memberLexemes members ++ [.closeObject])

def itemLexemes : List Value → List Lexeme
  | [] => []
  | [v] => valueLexemes v
  | v :: vs => valueLexemes v ++ .comma :: itemLexemes vs

def memberLexemes : List (String × Value) → List Lexeme
  | [] => []
  | [(n, v)] => .string (some n) :: .colon :: valueLexemes v
  | (n, v) :: ms => .string (some n) :: .colon :: (valueLexemes v ++ .comma :: memberLexemes ms)

end

/-- All numbers of the value are natural, and all its strings and names have the property. -/
inductive Printable (P : String → Prop) : Value → Prop
  | null : Printable P .null
  | bool (b : Bool) : Printable P (.bool b)
  | nat (n : Nat) : Printable P (.nat n)
  | string {s : String} (h : P s) : Printable P (.string s)
  | array {items : List Value} (h : ∀ v ∈ items, Printable P v) : Printable P (.array items)
  | object {members : List (String × Value)} (hnames : ∀ m ∈ members, P m.1)
      (h : ∀ m ∈ members, Printable P m.2) : Printable P (.object members)

/-- The value can be read back inside `depth` lists and objects. -/
inductive Written : Nat → Value → Prop
  | null {depth : Nat} : Written depth .null
  | bool {depth : Nat} (b : Bool) : Written depth (.bool b)
  | nat {depth n : Nat} (h : (JsonNumber.ofNat n).inRange = true) : Written depth (.nat n)
  | string {depth : Nat} (s : String) : Written depth (.string s)
  | array {depth : Nat} {items : List Value} (h : ∀ v ∈ items, Written depth v) :
      Written (depth + 1) (.array items)
  | object {depth : Nat} {members : List (String × Value)} (hnames : (members.map (·.1)).Nodup)
      (h : ∀ m ∈ members, Written depth m.2) : Written (depth + 1) (.object members)

theorem Written.printable {depth : Nat} {v : Value} (h : Written depth v) :
    Printable (fun _ => True) v := by
  induction h with
  | null => exact .null
  | bool b => exact .bool b
  | nat => exact .nat _
  | string s => exact .string trivial
  | array _ ih => exact .array ih
  | object _ _ ih => exact .object (fun _ _ => trivial) ih

/-! ## Cutting -/

theorem endsNumber_comma : EndsNumber ',' := ⟨by decide, by decide, by decide⟩

theorem endsNumber_close {c : Char} (h : c = ']' ∨ c = '\x7d') : EndsNumber c := by
  rcases h with rfl | rfl <;> exact ⟨by decide, by decide, by decide⟩

theorem lexemes_items : ∀ {items : List Value},
    (∀ v ∈ items, lexemes (compactChars v) = some (valueLexemes v)) →
    lexemes (compactItems items) = some (itemLexemes items)
  | [], _ => rfl
  | [v], h => h v (List.mem_singleton_self v)
  | v :: v' :: vs, h => by
      have ih := lexemes_items fun x hx => h x (List.mem_cons_of_mem v hx)
      rw [compactItems, lexemes_append endsNumber_comma (h v (List.mem_cons_self ..)),
        lexemes_mark (by decide : (',', Lexeme.comma) ∈ markLexemes), ih]
      · rfl
      · exact List.cons_ne_nil _ _

theorem lexemes_members : ∀ {members : List (String × Value)},
    (∀ m ∈ members, lexemes (compactChars m.2) = some (valueLexemes m.2)) →
    lexemes (compactMembers members) = some (memberLexemes members)
  | [], _ => rfl
  | [(n, v)], h => by
      rw [compactMembers, lexemes_quoted,
        lexemes_mark (by decide : (':', Lexeme.colon) ∈ markLexemes),
        h (n, v) (List.mem_singleton_self _)]
      rfl
  | (n, v) :: m :: ms, h => by
      have ih := lexemes_members fun x hx => h x (List.mem_cons_of_mem (n, v) hx)
      rw [compactMembers, lexemes_quoted,
        lexemes_mark (by decide : (':', Lexeme.colon) ∈ markLexemes),
        lexemes_append endsNumber_comma (h (n, v) (List.mem_cons_self ..)),
        lexemes_mark (by decide : (',', Lexeme.comma) ∈ markLexemes), ih]
      · rfl
      · exact List.cons_ne_nil _ _

theorem lexemes_compact {P : String → Prop} {v : Value} (h : Printable P v) :
    lexemes (compactChars v) = some (valueLexemes v) := by
  induction h with
  | null => exact lexemes_of_read (readLexeme_word (.head _) [])
  | bool b =>
      cases b with
      | true => exact lexemes_of_read (readLexeme_word (.tail _ (.head _)) [])
      | false => exact lexemes_of_read (readLexeme_word (.tail _ (.tail _ (.head _))) [])
  | nat => exact lexemes_number _
  | @string s =>
      have := lexemes_quoted s []
      rwa [List.append_nil] at this
  | array h ih =>
      rw [compactChars, List.cons_append,
        lexemes_mark (by decide : ('[', Lexeme.openArray) ∈ markLexemes),
        lexemes_append (endsNumber_close (.inl rfl)) (lexemes_items ih)]
      rfl
  | object hnames h ih =>
      rw [compactChars, List.cons_append,
        lexemes_mark (by decide : ('\x7b', Lexeme.openObject) ∈ markLexemes),
        lexemes_append (endsNumber_close (.inr rfl)) (lexemes_members ih)]
      rfl

/-! ## Structure -/

open Reading in
/-- A list that has been opened goes on as a list with a value to come, unless it ends. -/
theorem step_firstItem {l : Lexeme} (h : l ≠ .closeArray) (frames : List Frame) :
    step (.firstItem frames) l = step (.value (.array [] :: frames)) l := by
  cases l <;> first | rfl | exact absurd rfl h

/-- The lexemes of a value do not start with the end of a list. -/
theorem exists_valueLexemes (v : Value) :
    ∃ l ls, valueLexemes v = l :: ls ∧ l ≠ .closeArray := by
  cases v <;> exact ⟨_, _, rfl, nofun⟩

theorem foldlM_firstItem (v : Value) (frames : List Frame) (more : List Lexeme) :
    (valueLexemes v ++ more).foldlM Reading.step (.firstItem frames)
      = (valueLexemes v ++ more).foldlM Reading.step (.value (.array [] :: frames)) := by
  obtain ⟨l, ls, hv, hl⟩ := exists_valueLexemes v
  rw [hv, List.cons_append, List.foldlM_cons, List.foldlM_cons, step_firstItem hl]

mutual

/-- The lexemes of a value take the reader from its place to the place behind it. -/
theorem foldlM_value : ∀ (v : Value) (frames : List Frame) (more : List Lexeme),
    (valueLexemes v ++ more).foldlM Reading.step (.value frames)
      = more.foldlM Reading.step (.behind (document v) frames)
  | .null, _, _ => rfl
  | .bool _, _, _ => rfl
  | .number _, _, _ => rfl
  | .string _, _, _ => rfl
  | .array [], _, _ => rfl
  | .array (v :: vs), frames, more => by
      have hitems := foldlM_items (v :: vs) (List.cons_ne_nil v vs) [] frames more
      have hopen : (valueLexemes (.array (v :: vs)) ++ more).foldlM Reading.step (.value frames)
          = (itemLexemes (v :: vs) ++ .closeArray :: more).foldlM Reading.step
            (.firstItem frames) := by
        rw [valueLexemes, List.cons_append, List.append_assoc]
        rfl
      obtain ⟨rest, hrest⟩ : ∃ rest, itemLexemes (v :: vs) = valueLexemes v ++ rest := by
        cases vs with
        | nil => exact ⟨[], (List.append_nil _).symm⟩
        | cons v' vs => exact ⟨_, rfl⟩
      rw [hopen, hrest, List.append_assoc, foldlM_firstItem, ← List.append_assoc, ← hrest, hitems]
      rfl
  | .object [], _, _ => rfl
  | .object (m :: ms), frames, more => by
      have hmembers := foldlM_members (m :: ms) (List.cons_ne_nil m ms) [] frames more
      have hopen : (valueLexemes (.object (m :: ms)) ++ more).foldlM Reading.step (.value frames)
          = (memberLexemes (m :: ms) ++ .closeObject :: more).foldlM Reading.step
            (.firstName frames) := by
        rw [valueLexemes, List.cons_append, List.append_assoc]
        rfl
      obtain ⟨n, rest, hrest⟩ : ∃ n rest, memberLexemes (m :: ms) = .string n :: rest := by
        cases ms <;> exact ⟨_, _, rfl⟩
      rw [hopen, hrest]
      rw [hrest] at hmembers
      exact hmembers

theorem foldlM_items : ∀ (items : List Value), items ≠ [] → ∀ (done : List Document)
    (frames : List Frame) (more : List Lexeme),
    (itemLexemes items ++ .closeArray :: more).foldlM Reading.step (.value (.array done :: frames))
      = more.foldlM Reading.step (.behind (.array (done.reverse ++ itemDocuments items)) frames)
  | [], h, _, _, _ => absurd rfl h
  | [v], _, done, frames, more => by
      have hv := foldlM_value v (.array done :: frames) (.closeArray :: more)
      rw [itemLexemes, hv, List.foldlM_cons, itemDocuments, itemDocuments, ← List.reverse_cons]
      rfl
  | v :: v' :: vs, _, done, frames, more => by
      have hv := foldlM_value v (.array done :: frames)
        (.comma :: (itemLexemes (v' :: vs) ++ .closeArray :: more))
      have ih := foldlM_items (v' :: vs) (List.cons_ne_nil v' vs) (document v :: done) frames more
      rw [itemLexemes, List.append_assoc, List.cons_append, hv, List.foldlM_cons]
      · rw [List.reverse_cons, List.append_assoc, List.singleton_append, ← itemDocuments] at ih
        exact ih
      · exact List.cons_ne_nil _ _

theorem foldlM_members : ∀ (members : List (String × Value)), members ≠ [] →
    ∀ (done : List (Option String × Document)) (frames : List Frame) (more : List Lexeme),
    (memberLexemes members ++ .closeObject :: more).foldlM Reading.step (.name done frames)
      = more.foldlM Reading.step
        (.behind (.object (done.reverse ++ memberDocuments members)) frames)
  | [], h, _, _, _ => absurd rfl h
  | [(n, v)], _, done, frames, more => by
      have hv := foldlM_value v (.object done (some n) :: frames) (.closeObject :: more)
      rw [memberDocuments, memberDocuments, ← List.reverse_cons]
      exact hv
  | (n, v) :: m :: ms, _, done, frames, more => by
      have hv := foldlM_value v (.object done (some n) :: frames)
        (.comma :: (memberLexemes (m :: ms) ++ .closeObject :: more))
      have ih := foldlM_members (m :: ms) (List.cons_ne_nil m ms) ((some n, document v) :: done)
        frames more
      rw [List.reverse_cons, List.append_assoc, List.singleton_append, ← memberDocuments] at ih
      have hlexemes : memberLexemes ((n, v) :: m :: ms) ++ .closeObject :: more
          = .string (some n) :: .colon :: (valueLexemes v
            ++ .comma :: (memberLexemes (m :: ms) ++ .closeObject :: more)) := by
        rw [memberLexemes]
        · simp
        · exact List.cons_ne_nil _ _
      rw [hlexemes, ← ih]
      exact hv

end

theorem ofLexemes?_valueLexemes (v : Value) : ofLexemes? (valueLexemes v) = some (document v) := by
  have h := foldlM_value v [] []
  rw [List.append_nil] at h
  rw [ofLexemes?, h]
  rfl

/-! ## Settling -/

theorem itemValues?_documents {depth : Nat} : ∀ {items : List Value},
    (∀ v ∈ items, value? depth (document v) = some v) →
    itemValues? depth (itemDocuments items) = some items
  | [], _ => rfl
  | v :: vs, h => by
      have ih := itemValues?_documents fun x hx => h x (List.mem_cons_of_mem v hx)
      rw [itemDocuments, itemValues?, h v (List.mem_cons_self ..), ih]
      rfl

theorem memberValues?_documents {depth : Nat} : ∀ {members : List (String × Value)},
    (∀ m ∈ members, value? depth (document m.2) = some m.2) →
    memberValues? depth (memberDocuments members) = some members
  | [], _ => rfl
  | (n, v) :: ms, h => by
      have ih := memberValues?_documents fun x hx => h x (List.mem_cons_of_mem (n, v) hx)
      rw [memberDocuments, memberValues?, h (n, v) (List.mem_cons_self ..), ih]
      rfl

theorem value?_document {depth : Nat} {v : Value} (h : Written depth v) :
    value? depth (document v) = some v := by
  induction h with
  | null => rfl
  | bool => rfl
  | nat h =>
      rw [Json.nat, document, value?, if_pos h]
  | string => rfl
  | array h ih =>
      rw [document, value?, itemValues?_documents ih]
      rfl
  | object hnames h ih =>
      rw [document, value?, memberValues?_documents ih, Option.map_some, lastWins_of_nodup hnames]

theorem parse?_compact {P : String → Prop} {v : Value} (h : Printable P v) :
    parse? (compact v) = some (document v) := by
  rw [parse?, compact, String.toList_ofList, lexemes_compact h, Option.bind_some,
    ofLexemes?_valueLexemes]

theorem parseValue?_compact {v : Value} (h : Written maxDepth v) :
    parseValue? (compact v) = some v := by
  rw [parseValue?, parse?_compact h.printable, Option.bind_some, value?_document h]

end DesignTokens.Json
