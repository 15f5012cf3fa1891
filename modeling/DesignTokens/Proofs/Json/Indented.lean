import DesignTokens.Proofs.Json.RoundTrip

/-!
# Reading indented texts

The two layouts of a value differ in the space between its lexemes and in nothing
else. So the indented text is cut into the same lexemes as the compact one
(`lexemes_indented`), and it is read as the same document (`parse?_indented`).
-/

namespace DesignTokens.Json

/-- A line break ends a number, so it is safe to cut there. -/
theorem endsNumber_newLine : EndsNumber '\n' := ⟨by decide, by decide, by decide⟩

theorem lexemes_newLine (level : Nat) (rest : List Char) :
    lexemes (newLine level ++ rest) = lexemes rest := by
  have hblanks : ∀ n : Nat, lexemes (List.replicate n ' ' ++ rest) = lexemes rest := by
    intro n
    induction n with
    | zero => rfl
    | succ n ih => rw [List.replicate_succ, List.cons_append, lexemes_space (by decide), ih]
  rw [newLine, List.cons_append, lexemes_space (by decide), hblanks]

/-- A text that has been read to its end, with a line break and the end of a list or an object
behind it. -/
theorem lexemes_closed {cs : List Char} {ls : List Lexeme} {close : Char} {l : Lexeme}
    (h : lexemes cs = some ls) (hclose : (close, l) ∈ markLexemes) (level : Nat) :
    lexemes (cs ++ (newLine level ++ [close])) = some (ls ++ [l]) := by
  have hbreak : newLine level ++ [close]
      = '\n' :: (List.replicate (2 * level) ' ' ++ [close]) := rfl
  rw [hbreak, lexemes_append endsNumber_newLine h, ← hbreak, lexemes_newLine,
    lexemes_mark hclose]
  rfl

theorem lexemes_indentedItems {level : Nat} : ∀ {items : List Value},
    (∀ v ∈ items, lexemes (indentedChars level v) = some (valueLexemes v)) →
    lexemes (indentedItems level items) = some (itemLexemes items)
  | [], _ => rfl
  | [v], h => (lexemes_newLine level _).trans (h v (List.mem_singleton_self v))
  | v :: v' :: vs, h => by
      have ih := lexemes_indentedItems fun x hx => h x (List.mem_cons_of_mem v hx)
      rw [indentedItems, List.append_assoc, lexemes_newLine,
        lexemes_append endsNumber_comma (h v (List.mem_cons_self ..)),
        lexemes_mark (by decide : (',', Lexeme.comma) ∈ markLexemes), ih]
      · rfl
      · exact List.cons_ne_nil _ _

/-- The name of a member with its colon, in front of the rest of an object. -/
theorem lexemes_memberName (level : Nat) (name : String) (rest : List Char) :
    lexemes (newLine level ++ quoted name ++ ':' :: ' ' :: rest)
      = (lexemes rest).map (.string (some name) :: .colon :: ·) := by
  rw [List.append_assoc, lexemes_newLine, lexemes_quoted,
    lexemes_mark (by decide : (':', Lexeme.colon) ∈ markLexemes), lexemes_space (by decide),
    Option.map_map]
  rfl

theorem lexemes_indentedMembers {level : Nat} : ∀ {members : List (String × Value)},
    (∀ m ∈ members, lexemes (indentedChars level m.2) = some (valueLexemes m.2)) →
    lexemes (indentedMembers level members) = some (memberLexemes members)
  | [], _ => rfl
  | [(n, v)], h => by
      rw [indentedMembers, lexemes_memberName, h (n, v) (List.mem_singleton_self _)]
      rfl
  | (n, v) :: m :: ms, h => by
      have ih := lexemes_indentedMembers fun x hx => h x (List.mem_cons_of_mem (n, v) hx)
      rw [indentedMembers, lexemes_memberName,
        lexemes_append endsNumber_comma (h (n, v) (List.mem_cons_self ..)),
        lexemes_mark (by decide : (',', Lexeme.comma) ∈ markLexemes), ih]
      · rfl
      · exact List.cons_ne_nil _ _

theorem lexemes_indented {P : String → Prop} {v : Value} (h : Printable P v) :
    ∀ level, lexemes (indentedChars level v) = some (valueLexemes v) := by
  induction h with
  | null => exact fun _ => lexemes_compact (.null (P := P))
  | bool b => exact fun _ => lexemes_compact (.bool (P := P) b)
  | nat n => exact fun _ => lexemes_compact (.nat (P := P) n)
  | string h => exact fun _ => lexemes_compact (.string h)
  | @array items h ih =>
      intro level
      cases items with
      | nil => rfl
      | cons v vs =>
          have hitems := lexemes_indentedItems fun x hx => ih x hx (level + 1)
          rw [indentedChars, List.cons_append, List.cons_append, List.append_assoc,
            lexemes_mark (by decide : ('[', Lexeme.openArray) ∈ markLexemes),
            lexemes_closed hitems (by decide : (']', Lexeme.closeArray) ∈ markLexemes)]
          · rfl
          · exact List.cons_ne_nil _ _
  | @object members hnames h ih =>
      intro level
      cases members with
      | nil => rfl
      | cons m ms =>
          have hmembers := lexemes_indentedMembers fun x hx => ih x hx (level + 1)
          rw [indentedChars, List.cons_append, List.cons_append, List.append_assoc,
            lexemes_mark (by decide : ('\x7b', Lexeme.openObject) ∈ markLexemes),
            lexemes_closed hmembers (by decide : ('\x7d', Lexeme.closeObject) ∈ markLexemes)]
          · rfl
          · exact List.cons_ne_nil _ _

theorem parse?_indented {P : String → Prop} {v : Value} (h : Printable P v) :
    parse? (indented v) = some (document v) := by
  rw [parse?, indented, String.toList_ofList, lexemes_indented h, Option.bind_some,
    ofLexemes?_valueLexemes]

end DesignTokens.Json
