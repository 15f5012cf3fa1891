import DesignTokens.Proofs.Json.RoundTrip

/-!
# How a compact text is joined

A compact text is joined from words, numbers and quoted strings by brackets,
commas and colons. A relation between texts that respects this way of joining
(`Joins`) therefore relates the text of a value to the text of the value with its
strings changed (`Joins.compactChars`). With nothing changed this is how a
property of compact texts is proved.
-/

namespace DesignTokens.Json

mutual

/-- The value with all its strings and names changed. -/
def mapStrings (f : String → String) : Value → Value
  | .null => .null
  | .bool b => .bool b
  | .number n => .number n
  | .string s => .string (f s)
  | .array items => .array (mapItems f items)
  | .object members => .object (mapMembers f members)

def mapItems (f : String → String) : List Value → List Value
  | [] => []
  | v :: vs => mapStrings f v :: mapItems f vs

def mapMembers (f : String → String) : List (String × Value) → List (String × Value)
  | [] => []
  | (n, v) :: ms => (f n, mapStrings f v) :: mapMembers f ms

end

theorem mapItems_eq (f : String → String) (items : List Value) :
    mapItems f items = items.map (mapStrings f) := by
  induction items with
  | nil => rfl
  | cons v vs ih => rw [mapItems, ih, List.map_cons]

theorem mapMembers_eq (f : String → String) (members : List (String × Value)) :
    mapMembers f members = members.map fun m => (f m.1, mapStrings f m.2) := by
  induction members with
  | nil => rfl
  | cons m ms ih =>
      obtain ⟨n, v⟩ := m
      rw [mapMembers, ih, List.map_cons]

mutual

theorem mapStrings_id : ∀ v : Value, mapStrings id v = v
  | .null => rfl
  | .bool _ => rfl
  | .number _ => rfl
  | .string _ => rfl
  | .array items => by rw [mapStrings, mapItems_id items]
  | .object members => by rw [mapStrings, mapMembers_id members]

theorem mapItems_id : ∀ items : List Value, mapItems id items = items
  | [] => rfl
  | v :: vs => by rw [mapItems, mapStrings_id v, mapItems_id vs]

theorem mapMembers_id : ∀ members : List (String × Value), mapMembers id members = members
  | [] => rfl
  | (n, v) :: ms => by rw [mapMembers, mapStrings_id v, mapMembers_id ms, id]

end

theorem compactMembers_cons (x m : String × Value) (ms : List (String × Value)) :
    compactMembers (x :: m :: ms)
      = (quoted x.1 ++ ':' :: compactChars x.2) ++ ',' :: compactMembers (m :: ms) := by
  obtain ⟨n, v⟩ := x
  rw [compactMembers, List.append_assoc, List.cons_append]
  exact List.cons_ne_nil m ms

/-- The relation holds of the pieces of compact texts, where strings with the property are changed,
and is respected by joining them. -/
structure Joins (P : String → Prop) (f : String → String) (Q : List Char → List Char → Prop) :
    Prop where
  word : ∀ w ∈ wordLexemes, Q w.1 w.1
  number : ∀ n, Q (JsonNumber.text (.ofNat n)) (JsonNumber.text (.ofNat n))
  string : ∀ s, P s → Q (quoted s) (quoted (f s))
  emptyArray : Q ['[', ']'] ['[', ']']
  emptyObject : Q ['\x7b', '\x7d'] ['\x7b', '\x7d']
  array : ∀ {a b}, Q a b → Q ('[' :: a ++ [']']) ('[' :: b ++ [']'])
  object : ∀ {a b}, Q a b → Q ('\x7b' :: a ++ ['\x7d']) ('\x7b' :: b ++ ['\x7d'])
  member : ∀ {s a b}, P s → Q a b → Q (quoted s ++ ':' :: a) (quoted (f s) ++ ':' :: b)
  comma : ∀ {a b a' b'}, Q a b → Q a' b' → Q (a ++ ',' :: a') (b ++ ',' :: b')

namespace Joins

variable {P : String → Prop} {f : String → String} {Q : List Char → List Char → Prop}

theorem compactItems (hQ : Joins P f Q) : ∀ (v : Value) (vs : List Value),
    (∀ x ∈ v :: vs, Q (compactChars x) (compactChars (mapStrings f x))) →
    Q (Json.compactItems (v :: vs)) (Json.compactItems (mapItems f (v :: vs)))
  | v, [], h => h v (List.mem_cons_self ..)
  | v, v' :: vs, h => by
      have ih := hQ.compactItems v' vs fun x hx => h x (List.mem_cons_of_mem v hx)
      exact hQ.comma (h v (List.mem_cons_self ..)) ih

theorem compactMembers (hQ : Joins P f Q) : ∀ (m : String × Value) (ms : List (String × Value)),
    (∀ x ∈ m :: ms, P x.1) →
    (∀ x ∈ m :: ms, Q (compactChars x.2) (compactChars (mapStrings f x.2))) →
    Q (Json.compactMembers (m :: ms)) (Json.compactMembers (mapMembers f (m :: ms)))
  | (n, v), [], hn, h => hQ.member (hn _ (List.mem_cons_self ..)) (h _ (List.mem_cons_self ..))
  | x, m :: ms, hn, h => by
      have ih := hQ.compactMembers m ms (fun y hy => hn y (List.mem_cons_of_mem x hy))
        fun y hy => h y (List.mem_cons_of_mem x hy)
      have hfirst := hQ.member (hn x (List.mem_cons_self ..)) (h x (List.mem_cons_self ..))
      rw [mapMembers_eq, List.map_cons] at ih
      rw [compactMembers_cons, mapMembers_eq, List.map_cons, List.map_cons, compactMembers_cons]
      exact hQ.comma hfirst ih

theorem compactChars (hQ : Joins P f Q) {v : Value} (h : Printable P v) :
    Q (Json.compactChars v) (Json.compactChars (mapStrings f v)) := by
  induction h with
  | null => exact hQ.word _ (.head _)
  | bool b =>
      cases b with
      | true => exact hQ.word _ (.tail _ (.head _))
      | false => exact hQ.word _ (.tail _ (.tail _ (.head _)))
  | nat n => exact hQ.number n
  | string h => exact hQ.string _ h
  | @array items _ ih =>
      cases items with
      | nil => exact hQ.emptyArray
      | cons v vs => exact hQ.array (hQ.compactItems v vs ih)
  | @object members hnames _ ih =>
      cases members with
      | nil => exact hQ.emptyObject
      | cons m ms => exact hQ.object (hQ.compactMembers m ms hnames ih)

theorem members_of_printable (hQ : Joins P f Q) {m : String × Value} {ms : List (String × Value)}
    (h : ∀ x ∈ m :: ms, P x.1 ∧ Printable P x.2) :
    Q (Json.compactMembers (m :: ms)) (Json.compactMembers (mapMembers f (m :: ms))) :=
  hQ.compactMembers m ms (fun x hx => (h x hx).1) fun x hx => hQ.compactChars (h x hx).2

/-- A property of texts that respects joining holds of compact texts. -/
theorem of_printable {R : List Char → Prop} (hR : Joins P id fun a _ => R a) {v : Value}
    (h : Printable P v) : R (Json.compactChars v) :=
  hR.compactChars h

end Joins

/-! ## Properties of compact texts -/

/-- A character of a compact text outside of strings, braces apart. -/
def Structural (c : Char) : Prop := c.isDigit = true ∨ c ∈ "nulltruefalse[],:".toList

theorem Structural.ne {c d : Char} (h : Structural c)
    (hd : d.isDigit = false ∧ d ∉ "nulltruefalse[],:".toList) : c ≠ d := by
  rintro rfl
  rcases h with hdigit | hmem
  · rw [hd.1] at hdigit
    cases hdigit
  · exact hd.2 hmem

theorem Structural.toNat_lt {c : Char} (h : Structural c) : c.toNat < 0x80 := by
  rcases h with hdigit | hmem
  · have hnine : '9'.toNat < 0x80 := by decide
    rw [Char.isDigit_iff_toNat] at hdigit
    omega
  · have hascii : ∀ c ∈ "nulltruefalse[],:".toList, c.toNat < 0x80 := by decide
    exact hascii c hmem

/-- A property of texts is one of compact texts if it holds of strings and of what stands outside of
them, and goes on to joined texts and to objects. -/
theorem joins_of_append {P : String → Prop} {R : List Char → Prop}
    (happend : ∀ {w v : List Char}, R w → R v → R (w ++ v))
    (hstructural : ∀ {w : List Char}, (∀ c ∈ w, Structural c) → R w)
    (hquoted : ∀ s, P s → R (quoted s))
    (hobject : ∀ {w : List Char}, R w → R ('\x7b' :: w ++ ['\x7d'])) :
    Joins P id fun w _ => R w := by
  have hmark : ∀ {c : Char}, c ∈ "nulltruefalse[],:".toList → R [c] := by
    intro c hc
    refine hstructural fun d hd => .inr ?_
    rwa [List.mem_singleton.mp hd]
  have hnil : R [] := hstructural fun c hc => absurd hc List.not_mem_nil
  exact {
    word := fun w hw => by
      have hwords : ∀ w ∈ wordLexemes, ∀ c ∈ w.1, c ∈ "nulltruefalse[],:".toList := by decide
      exact hstructural fun c hc => .inr (hwords w hw c hc)
    number := fun n => hstructural fun c hc => .inl (isDigit_of_mem_text hc)
    string := hquoted
    emptyArray := happend (hmark (c := '[') (by decide)) (hmark (c := ']') (by decide))
    emptyObject := hobject hnil
    array := fun h => happend (happend (hmark (c := '[') (by decide)) h)
      (hmark (c := ']') (by decide))
    object := hobject
    member := fun hs h => happend (hquoted _ hs) (happend (hmark (c := ':') (by decide)) h)
    comma := fun h h' => happend h (happend (hmark (c := ',') (by decide)) h') }

end DesignTokens.Json
