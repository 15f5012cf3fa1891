import DesignTokens.Json.Parser
import DesignTokens.Proofs.Json.Members

/-!
# The strings of a document

Reading only takes apart and puts together: the strings and names of a document
are strings of its lexemes (`allStrings_of_ofLexemes`), and those of the settled
value are strings of the document (`AllStrings.value`). So a property of all
strings that are cut out of a text goes on to what the text means.
-/

namespace DesignTokens.Json

/-- All strings and names of the tree have the property. -/
inductive AllStrings {σ : Type} (P : σ → Prop) : Json σ → Prop
  | null : AllStrings P .null
  | bool (b : Bool) : AllStrings P (.bool b)
  | number (n : JsonNumber) : AllStrings P (.number n)
  | string {s : σ} (h : P s) : AllStrings P (.string s)
  | array {items : List (Json σ)} (h : ∀ d ∈ items, AllStrings P d) : AllStrings P (.array items)
  | object {members : List (σ × Json σ)} (hnames : ∀ m ∈ members, P m.1)
      (h : ∀ m ∈ members, AllStrings P m.2) : AllStrings P (.object members)

/-- The string is missing or has the property. -/
def Known (P : String → Prop) (s : Option String) : Prop := ∀ x ∈ s, P x

variable {P : String → Prop}

/-! ## From lexemes to documents -/

def Lexeme.Holds (P : Option String → Prop) : Lexeme → Prop
  | .string s => P s
  | _ => True

section

variable {Q : Option String → Prop}

def Frame.Holds (Q : Option String → Prop) : Frame → Prop
  | .array done => ∀ d ∈ done, AllStrings Q d
  | .object done s => (∀ m ∈ done, Q m.1 ∧ AllStrings Q m.2) ∧ Q s

/-- All strings that the reading has come across have the property. -/
def Reading.Holds (Q : Option String → Prop) : Reading → Prop
  | .value frames => ∀ f ∈ frames, f.Holds Q
  | .firstItem frames => ∀ f ∈ frames, f.Holds Q
  | .firstName frames => ∀ f ∈ frames, f.Holds Q
  | .name done frames => (∀ m ∈ done, Q m.1 ∧ AllStrings Q m.2) ∧ ∀ f ∈ frames, f.Holds Q
  | .colon done s frames => ∀ f ∈ .object done s :: frames, f.Holds Q
  | .behind d frames => AllStrings Q d ∧ ∀ f ∈ frames, f.Holds Q

theorem holds_start {frames : List Frame} {l : Lexeme} {r : Reading}
    (hframes : ∀ f ∈ frames, f.Holds Q) (hl : l.Holds Q) (h : Reading.start frames l = some r) :
    r.Holds Q := by
  cases l with
  | openObject | openArray =>
      cases h
      exact hframes
  | null =>
      cases h
      exact ⟨.null, hframes⟩
  | bool b =>
      cases h
      exact ⟨.bool b, hframes⟩
  | number n =>
      cases h
      exact ⟨.number n, hframes⟩
  | string s =>
      cases h
      exact ⟨.string hl, hframes⟩
  | closeObject | closeArray | comma | colon => cases h

theorem allStrings_object {members : List (Option String × Document)}
    (h : ∀ m ∈ members, Q m.1 ∧ AllStrings Q m.2) : AllStrings Q (.object members.reverse) := by
  refine .object (fun m hm => ?_) fun m hm => ?_
  · exact (h m (List.mem_reverse.mp hm)).1
  · exact (h m (List.mem_reverse.mp hm)).2

theorem holds_step {r r' : Reading} {l : Lexeme} (hr : r.Holds Q) (hl : l.Holds Q)
    (h : r.step l = some r') : r'.Holds Q := by
  fun_cases Reading.step r l
  case case1 frames => exact holds_start hr hl h
  case case2 frames =>
    cases h
    exact ⟨.array nofun, hr⟩
  case case3 frames hclose =>
    rw [Reading.step] at h
    swap
    · exact hclose
    refine holds_start (fun f hf => ?_) hl h
    rcases List.mem_cons.mp hf with rfl | hf
    · exact nofun
    · exact hr f hf
  case case4 frames =>
    cases h
    exact ⟨.object nofun nofun, hr⟩
  case case5 frames s =>
    cases h
    exact List.forall_mem_cons.mpr ⟨⟨nofun, hl⟩, hr⟩
  case case6 done frames s =>
    cases h
    exact List.forall_mem_cons.mpr ⟨⟨hr.1, hl⟩, hr.2⟩
  case case7 done s frames =>
    cases h
    exact hr
  case case8 d done frames =>
    cases h
    obtain ⟨hd, hframes⟩ := hr
    obtain ⟨hdone, hrest⟩ := List.forall_mem_cons.mp hframes
    exact List.forall_mem_cons.mpr ⟨List.forall_mem_cons.mpr ⟨hd, hdone⟩, hrest⟩
  case case9 d done frames =>
    cases h
    obtain ⟨hd, hframes⟩ := hr
    obtain ⟨hdone, hrest⟩ := List.forall_mem_cons.mp hframes
    refine ⟨.array fun x hx => ?_, hrest⟩
    exact List.forall_mem_cons.mpr ⟨hd, hdone⟩ x (List.mem_reverse.mp hx)
  case case10 d done s frames =>
    cases h
    obtain ⟨hd, hframes⟩ := hr
    obtain ⟨⟨hdone, hs⟩, hrest⟩ := List.forall_mem_cons.mp hframes
    exact ⟨List.forall_mem_cons.mpr ⟨⟨hs, hd⟩, hdone⟩, hrest⟩
  case case11 d done s frames =>
    cases h
    obtain ⟨hd, hframes⟩ := hr
    obtain ⟨⟨hdone, hs⟩, hrest⟩ := List.forall_mem_cons.mp hframes
    exact ⟨allStrings_object (List.forall_mem_cons.mpr ⟨⟨hs, hd⟩, hdone⟩), hrest⟩
  case case12 =>
    rw [Reading.step] at h
    cases h
    all_goals assumption

theorem holds_foldlM {ls : List Lexeme} (hls : ∀ l ∈ ls, l.Holds Q) :
    ∀ {r r' : Reading}, r.Holds Q → ls.foldlM Reading.step r = some r' → r'.Holds Q := by
  induction ls with
  | nil =>
      intro r r' hr h
      cases h
      exact hr
  | cons l ls ih =>
      intro r r' hr h
      rw [List.foldlM_cons] at h
      obtain ⟨r₁, hstep, hrest⟩ := Option.bind_eq_some_iff.mp h
      obtain ⟨hl, hls⟩ := List.forall_mem_cons.mp hls
      exact ih hls (holds_step hr hl hstep) hrest

theorem allStrings_of_ofLexemes {ls : List Lexeme} {d : Document} (hls : ∀ l ∈ ls, l.Holds Q)
    (h : ofLexemes? ls = some d) : AllStrings Q d := by
  obtain ⟨r, hr, hd⟩ := Option.bind_eq_some_iff.mp h
  have hstart : (Reading.value []).Holds Q := fun f hf => absurd hf List.not_mem_nil
  have hholds := holds_foldlM hls hstart hr
  rw [Reading.finished?.eq_def] at hd
  split at hd
  case h_1 =>
    cases hd
    exact hholds.1
  case h_2 => cases hd

end

/-! ## From documents to values -/

theorem mem_putMember {α : Type} {name : String} {v : α} {m : String × α} :
    ∀ {members : List (String × α)}, m ∈ putMember name v members →
      m = (name, v) ∨ m ∈ members
  | [], h => .inl (List.mem_singleton.mp h)
  | (n, w) :: rest, h => by
      rw [putMember] at h
      split at h
      case isTrue hn =>
        rcases List.mem_cons.mp h with rfl | hrest
        · exact .inl (by rw [hn])
        · exact .inr (List.mem_cons_of_mem _ hrest)
      case isFalse =>
        rcases List.mem_cons.mp h with rfl | hrest
        · exact .inr (List.mem_cons_self ..)
        · rcases mem_putMember hrest with hm | hm
          · exact .inl hm
          · exact .inr (List.mem_cons_of_mem _ hm)

/-- Settled members are among the members. -/
theorem mem_of_mem_lastWins {α : Type} {members : List (String × α)} {m : String × α}
    (h : m ∈ lastWins members) : m ∈ members := by
  suffices hfold : ∀ done : List (String × α),
      m ∈ members.foldl (fun done m => putMember m.1 m.2 done) done → m ∈ done ∨ m ∈ members by
    exact (hfold [] h).resolve_left List.not_mem_nil
  clear h
  induction members with
  | nil => exact fun done hd => .inl hd
  | cons x rest ih =>
      intro done hd
      rcases ih _ hd with hput | hrest
      · rcases mem_putMember hput with rfl | hdone
        · exact .inr (List.mem_cons_self ..)
        · exact .inl hdone
      · exact .inr (List.mem_cons_of_mem x hrest)

theorem exists_of_itemValues {depth : Nat} : ∀ {ds : List Document} {vs : List Value},
    itemValues? depth ds = some vs → ∀ v ∈ vs, ∃ d ∈ ds, value? depth d = some v
  | [], _, h => by
      cases h
      exact nofun
  | d :: ds, vs, h => by
      obtain ⟨w, hw, h⟩ := Option.bind_eq_some_iff.mp h
      obtain ⟨ws, hws, h⟩ := Option.bind_eq_some_iff.mp h
      cases h
      refine List.forall_mem_cons.mpr ⟨⟨d, List.mem_cons_self .., hw⟩, fun v hv => ?_⟩
      obtain ⟨d', hd', hv'⟩ := exists_of_itemValues hws v hv
      exact ⟨d', List.mem_cons_of_mem d hd', hv'⟩

theorem exists_of_memberValues {depth : Nat} :
    ∀ {ds : List (Option String × Document)} {ms : List (String × Value)},
      memberValues? depth ds = some ms →
      ∀ m ∈ ms, ∃ d, (some m.1, d) ∈ ds ∧ value? depth d = some m.2
  | [], _, h => by
      cases h
      exact nofun
  | (name, d) :: ds, ms, h => by
      obtain ⟨n, hn, h⟩ := Option.bind_eq_some_iff.mp h
      obtain ⟨w, hw, h⟩ := Option.bind_eq_some_iff.mp h
      obtain ⟨ws, hws, h⟩ := Option.bind_eq_some_iff.mp h
      cases h
      subst hn
      refine List.forall_mem_cons.mpr ⟨⟨d, List.mem_cons_self .., hw⟩, fun m hm => ?_⟩
      obtain ⟨d', hd', hm'⟩ := exists_of_memberValues hws m hm
      exact ⟨d', List.mem_cons_of_mem _ hd', hm'⟩

theorem AllStrings.value {d : Document} (hd : AllStrings (Known P) d) :
    ∀ {depth : Nat} {v : Value}, value? depth d = some v → AllStrings P v := by
  induction hd with
  | null =>
      intro depth v h
      cases h
      exact .null
  | bool b =>
      intro depth v h
      cases h
      exact .bool b
  | number n =>
      intro depth v h
      rw [value?] at h
      split at h
      · cases h
        exact .number n
      · cases h
  | @string s hs =>
      intro depth v h
      obtain ⟨x, rfl, rfl⟩ := Option.map_eq_some_iff.mp h
      exact .string (hs x rfl)
  | @array items _ ih =>
      intro depth v h
      cases depth with
      | zero => cases h
      | succ depth =>
          obtain ⟨vs, hvs, rfl⟩ := Option.map_eq_some_iff.mp h
          refine .array fun v hv => ?_
          obtain ⟨d, hd, hv⟩ := exists_of_itemValues hvs v hv
          exact ih d hd hv
  | @object members hnames _ ih =>
      intro depth v h
      cases depth with
      | zero => cases h
      | succ depth =>
          obtain ⟨ms, hms, rfl⟩ := Option.map_eq_some_iff.mp h
          refine .object (fun m hm => ?_) fun m hm => ?_
          · obtain ⟨d, hd, -⟩ := exists_of_memberValues hms m (mem_of_mem_lastWins hm)
            exact hnames _ hd m.1 rfl
          · obtain ⟨d, hd, hv⟩ := exists_of_memberValues hms m (mem_of_mem_lastWins hm)
            exact ih _ hd hv

theorem AllStrings.member {v w : Value} {name : String} (hv : AllStrings P v)
    (h : v.member? name = some w) : AllStrings P w := by
  cases hv with
  | object _ hmembers =>
      obtain ⟨m, hm, rfl⟩ := Option.map_eq_some_iff.mp h
      exact hmembers m (List.mem_of_find?_eq_some hm)
  | null | bool | number | string | array => cases h

/-! ## Values as documents -/

theorem itemDocuments_eq (items : List Value) : itemDocuments items = items.map document := by
  induction items with
  | nil => rfl
  | cons v vs ih => rw [itemDocuments, ih, List.map_cons]

theorem memberDocuments_eq (members : List (String × Value)) :
    memberDocuments members = members.map fun m => (some m.1, document m.2) := by
  induction members with
  | nil => rfl
  | cons m ms ih =>
      obtain ⟨n, v⟩ := m
      rw [memberDocuments, ih, List.map_cons]

theorem AllStrings.document {v : Value} (h : AllStrings P v) :
    AllStrings (Known P) (Json.document v) := by
  induction h with
  | null => exact .null
  | bool b => exact .bool b
  | number n => exact .number n
  | string hs =>
      refine .string fun x hx => ?_
      cases hx
      exact hs
  | array _ ih =>
      rw [Json.document, itemDocuments_eq]
      refine .array fun d hd => ?_
      obtain ⟨v, hv, rfl⟩ := List.mem_map.mp hd
      exact ih v hv
  | object hnames _ ih =>
      rw [Json.document, memberDocuments_eq]
      refine .object (fun m hm => ?_) fun m hm => ?_
      · obtain ⟨x, hx, rfl⟩ := List.mem_map.mp hm
        intro n hn
        cases hn
        exact hnames x hx
      · obtain ⟨x, hx, rfl⟩ := List.mem_map.mp hm
        exact ih x hx

end DesignTokens.Json
