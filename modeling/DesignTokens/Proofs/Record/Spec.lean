import DesignTokens.Proofs.Json.Compact
import DesignTokens.Proofs.Json.Strings
import DesignTokens.Record.Read
import DesignTokens.Record.Write

/-!
# Specs written and read

A spec whose dimensions have distinct names can be written, and the reader of
specs gives it back, with its dimensions in their order (`Spec.read_write`).
Whatever document a spec is read from, its strings are strings of that document
(`Spec.texts_of_read`).
-/

namespace DesignTokens

open Json

/-! ## Lists of strings -/

theorem written_strings (depth : Nat) (items : List String) :
    Written (depth + 1) (strings items) := by
  refine .array fun v hv => ?_
  obtain ⟨s, -, rfl⟩ := List.mem_map.mp hv
  exact .string s

theorem readList_written {α : Type} {write : α → Value} {read : Reader α}
    (hread : ∀ a, read (document (write a)) = some a) (items : List α) :
    readList read (document (.array (items.map write))) = some items := by
  have hitems : (itemDocuments (items.map write)).mapM read = some items := by
    induction items with
    | nil => rfl
    | cons a items ih =>
        rw [List.map_cons, itemDocuments, List.mapM_cons, hread, ih]
        rfl
  exact hitems

theorem readTexts_strings (items : List String) :
    readTexts (document (strings items)) = some items :=
  readList_written (fun _ => rfl) items

theorem printable_strings {P : String → Prop} {items : List String} (h : ∀ s ∈ items, P s) :
    Printable P (strings items) := by
  refine .array fun v hv => ?_
  obtain ⟨s, hs, rfl⟩ := List.mem_map.mp hv
  exact .string (h s hs)

/-! ## Specs -/

/-- The names of the members of a written spec. -/
def Spec.memberNames : List String :=
  ["name", "description", "category", "variants", "colors", "spacing", "typography"]

/-- All strings of a spec. -/
def Spec.texts (s : Spec) : List String :=
  [s.name, s.description, s.category] ++ s.variants.flatMap (fun (d, vs) => d :: vs)
    ++ s.colors ++ s.spacing ++ s.typography

theorem Spec.forall_texts_iff {P : String → Prop} {s : Spec} :
    (∀ x ∈ s.texts, P x) ↔ P s.name ∧ P s.description ∧ P s.category ∧
      (∀ v ∈ s.variants, P v.1 ∧ ∀ x ∈ v.2, P x) ∧
      (∀ x ∈ s.colors, P x) ∧ (∀ x ∈ s.spacing, P x) ∧ ∀ x ∈ s.typography, P x := by
  simp only [Spec.texts, List.forall_mem_append, List.forall_mem_cons, List.forall_mem_flatMap,
    List.not_mem_nil, false_implies, implies_true, and_true, and_assoc]

theorem Spec.printable {P : String → Prop} {s : Spec} (hnames : ∀ n ∈ Spec.memberNames, P n)
    (h : ∀ x ∈ s.texts, P x) : Printable P s.write := by
  obtain ⟨hname, hdescription, hcategory, hvariants, hcolors, hspacing, htypography⟩ :=
    Spec.forall_texts_iff.mp h
  refine .object (fun m hm => hnames m.1 (List.mem_map_of_mem hm)) fun m hm => ?_
  simp only [List.mem_cons, List.not_mem_nil, or_false] at hm
  rcases hm with rfl | rfl | rfl | rfl | rfl | rfl | rfl
  · exact .string hname
  · exact .string hdescription
  · exact .string hcategory
  · refine .object (fun m hm => ?_) fun m hm => ?_
    · obtain ⟨x, hx, rfl⟩ := List.mem_map.mp hm
      exact (hvariants x hx).1
    · obtain ⟨x, hx, rfl⟩ := List.mem_map.mp hm
      exact printable_strings (hvariants x hx).2
  · exact printable_strings hcolors
  · exact printable_strings hspacing
  · exact printable_strings htypography

/-- The dimensions of the spec have distinct names. -/
def Spec.Distinct (s : Spec) : Prop := (s.variants.map (·.1)).Nodup

theorem readMap_written {α : Type} {write : α → Value} {read : Reader α}
    (hread : ∀ a, read (document (write a)) = some a) {members : List (String × α)}
    (h : (members.map (·.1)).Nodup) :
    readMap read (document (.object (members.map fun m => (m.1, write m.2)))) = some members := by
  have hmembers : ∀ members : List (String × α),
      (memberDocuments (members.map fun m => (m.1, write m.2))).mapM
        (fun (m : Option String × Document) => do
          let n ← m.1
          let v ← read m.2
          some (n, v)) = some members := by
    intro members
    induction members with
    | nil => rfl
    | cons x members ih =>
        rw [List.map_cons, memberDocuments, List.mapM_cons, ih]
        dsimp only
        rw [hread]
        rfl
  rw [document, readMap, hmembers, Option.map_some, lastWins_of_nodup h]

theorem readMap_variants {variants : List (String × List String)}
    (h : (variants.map (·.1)).Nodup) :
    readMap readTexts (document (.object (variants.map fun (d, vs) => (d, strings vs))))
      = some variants :=
  readMap_written readTexts_strings h

theorem Spec.read_write {s : Spec} (h : s.Distinct) : Spec.read (document s.write) = some s := by
  have hfields : readFields .passed
      ["name", "description", "category", "variants", "colors", "spacing", "typography"]
      (document s.write) = some
        [some (document (.string s.name)), some (document (.string s.description)),
         some (document (.string s.category)),
         some (document (.object (s.variants.map fun (d, vs) => (d, strings vs)))),
         some (document (strings s.colors)), some (document (strings s.spacing)),
         some (document (strings s.typography))] := rfl
  rw [Spec.read, hfields]
  simp only [Option.bind_eq_bind, Option.bind_some, withDefault, readMap_variants h,
    readTexts_strings]
  rfl

/-! ## Changed strings -/

/-- The spec with all its strings changed. Dimensions may get the same name. -/
def Spec.mapTexts (f : String → String) (s : Spec) : Spec where
  name := f s.name
  description := f s.description
  category := f s.category
  variants := s.variants.map fun (d, vs) => (f d, vs.map f)
  colors := s.colors.map f
  spacing := s.spacing.map f
  typography := s.typography.map f

theorem mapStrings_strings (f : String → String) (items : List String) :
    mapStrings f (strings items) = strings (items.map f) := by
  rw [strings, mapStrings, mapItems_eq, List.map_map, strings, List.map_map]
  rfl

theorem Spec.mapStrings_write {f : String → String} (hf : ∀ n ∈ Spec.memberNames, f n = n)
    (s : Spec) : mapStrings f s.write = (s.mapTexts f).write := by
  have hvariants : mapMembers f (s.variants.map fun (d, vs) => (d, strings vs))
      = (s.mapTexts f).variants.map fun (d, vs) => (d, strings vs) := by
    rw [mapMembers_eq, List.map_map, Spec.mapTexts, List.map_map]
    refine List.map_congr_left fun x _ => ?_
    simp [mapStrings_strings]
  simp only [Spec.memberNames, List.forall_mem_cons] at hf
  simp only [Spec.write, mapStrings, mapMembers, hvariants, mapStrings_strings, hf]
  rfl

theorem map_eq_self_iff {α : Type} {f : α → α} {xs : List α} :
    xs.map f = xs ↔ ∀ x ∈ xs, f x = x := by
  conv_lhs =>
    rhs
    rw [← List.map_id xs]
  exact List.map_eq_map_iff

theorem Spec.mapTexts_eq_self_iff {f : String → String} {s : Spec} :
    s.mapTexts f = s ↔ ∀ x ∈ s.texts, f x = x := by
  obtain ⟨name, description, category, variants, colors, spacing, typography⟩ := s
  rw [Spec.forall_texts_iff, Spec.mapTexts]
  simp only [Spec.mk.injEq, map_eq_self_iff, Prod.mk.injEq, Prod.forall]

/-- The spec with repeated names of dimensions settled. -/
def Spec.settled (s : Spec) : Spec := { s with variants := lastWins s.variants }

theorem Spec.distinct_settled (s : Spec) : s.settled.Distinct := nodup_lastWins s.variants

theorem Spec.Distinct.settled_eq {s : Spec} (h : s.Distinct) : s.settled = s := by
  rw [Spec.settled, lastWins_of_nodup h]

/-- Settling never undoes a change of the strings. -/
theorem Spec.eq_self_of_settled {f : String → String} {s : Spec}
    (h : (s.mapTexts f).settled = s) : ∀ x ∈ s.texts, f x = x := by
  have hlength : (lastWins (s.mapTexts f).variants).length = (s.mapTexts f).variants.length := by
    have hvariants : lastWins (s.mapTexts f).variants = s.variants := congrArg Spec.variants h
    rw [hvariants, Spec.mapTexts, List.length_map]
  have hsettled : (s.mapTexts f).settled = s.mapTexts f := by
    rw [Spec.settled, lastWins_eq_self_of_length hlength]
  exact Spec.mapTexts_eq_self_iff.mp (hsettled.symm.trans h)

theorem Spec.value?_write (depth : Nat) (s : Spec) :
    value? (depth + 3) (document s.write) = some s.settled.write := by
  have hvariants : value? (depth + 2)
      (document (.object (s.variants.map fun (d, vs) => (d, strings vs))))
      = some (.object (s.settled.variants.map fun (d, vs) => (d, strings vs))) := by
    have hvalues : memberValues? (depth + 1)
        (memberDocuments (s.variants.map fun (d, vs) => (d, strings vs)))
        = some (s.variants.map fun (d, vs) => (d, strings vs)) := by
      refine memberValues?_documents fun m hm => ?_
      obtain ⟨x, -, rfl⟩ := List.mem_map.mp hm
      exact value?_document (written_strings depth x.2)
    rw [document, value?, hvalues, Option.map_some, lastWins_map]
    rfl
  have hstrings : ∀ items, value? (depth + 2) (document (strings items)) = some (strings items) :=
    fun items => value?_document (written_strings (depth + 1) items)
  have hnames : Spec.memberNames.Nodup := by decide
  have hmembers : memberValues? (depth + 2) (memberDocuments
      [("name", .string s.name), ("description", .string s.description),
       ("category", .string s.category),
       ("variants", .object (s.variants.map fun (d, vs) => (d, strings vs))),
       ("colors", strings s.colors), ("spacing", strings s.spacing),
       ("typography", strings s.typography)]) = some
      [("name", .string s.name), ("description", .string s.description),
       ("category", .string s.category),
       ("variants", .object (s.settled.variants.map fun (d, vs) => (d, strings vs))),
       ("colors", strings s.colors), ("spacing", strings s.spacing),
       ("typography", strings s.typography)] := by
    simp only [memberDocuments, memberValues?, hvariants, hstrings]
    rfl
  rw [Spec.write, document, value?, hmembers, Option.map_some, lastWins_of_nodup]
  · rfl
  · exact hnames

/-! ## The strings of a spec -/

section

variable {P : String → Prop} {Q : Option String → Prop} {d : Document}

theorem exists_of_mapM {α β : Type} {f : α → Option β} {xs : List α} :
    ∀ {ys : List β}, xs.mapM f = some ys → ∀ y ∈ ys, ∃ x ∈ xs, f x = some y := by
  induction xs with
  | nil =>
      intro ys h
      cases h
      exact nofun
  | cons x xs ih =>
      intro ys h
      rw [List.mapM_cons] at h
      obtain ⟨y, hy, h⟩ := Option.bind_eq_some_iff.mp h
      obtain ⟨ys', hys, h⟩ := Option.bind_eq_some_iff.mp h
      cases h
      refine List.forall_mem_cons.mpr ⟨⟨x, List.mem_cons_self .., hy⟩, fun z hz => ?_⟩
      obtain ⟨w, hw, hfw⟩ := ih hys z hz
      exact ⟨w, List.mem_cons_of_mem x hw, hfw⟩

theorem allStrings_of_readFields {unknown : Unknown} {names : List String}
    {fields : List (Option Document)} (hd : AllStrings Q d)
    (h : readFields unknown names d = some fields) : ∀ f ∈ fields, ∀ x ∈ f, AllStrings Q x := by
  intro f hf x hx
  cases hd with
  | object _ hmembers =>
      obtain ⟨named, hnamed, h⟩ := Option.bind_eq_some_iff.mp h
      split at h
      case isTrue => cases h
      case isFalse =>
        obtain ⟨n, -, hn⟩ := exists_of_mapM h f hf
        split at hn
        case h_1 =>
          cases hn
          cases hx
        case h_2 m y hfilter =>
          cases hn
          cases hx
          have hm : (m, x) ∈ named := (List.mem_filter.mp (hfilter ▸ List.mem_singleton_self _)).1
          obtain ⟨member, hmember, hm⟩ := exists_of_mapM hnamed _ hm
          obtain ⟨_, -, heq⟩ := Option.map_eq_some_iff.mp hm
          cases heq
          exact hmembers _ hmember
        case h_3 => cases hn
  | array hitems =>
      rw [readFields] at h
      split at h
      case isTrue =>
        cases h
        rcases List.mem_append.mp hf with hf | hf
        · obtain ⟨y, hy, rfl⟩ := List.mem_map.mp hf
          cases hx
          exact hitems x hy
        · rw [List.eq_of_mem_replicate hf] at hx
          cases hx
      case isFalse => cases h
  | null | bool | number | string => cases h

theorem of_readText (hd : AllStrings (Known P) d) {s : String} (h : readText d = some s) : P s := by
  cases hd with
  | string hs => exact hs s h
  | null | bool | number | array | object => cases h

theorem of_readTexts (hd : AllStrings (Known P) d) {items : List String}
    (h : readTexts d = some items) : ∀ s ∈ items, P s := by
  cases hd with
  | array hitems =>
      intro s hs
      obtain ⟨x, hx, hread⟩ := exists_of_mapM h s hs
      exact of_readText (hitems x hx) hread
  | null | bool | number | string | object => cases h

theorem of_readMap (hd : AllStrings (Known P) d) {variants : List (String × List String)}
    (h : readMap readTexts d = some variants) : ∀ x ∈ variants, P x.1 ∧ ∀ s ∈ x.2, P s := by
  cases hd with
  | object hnames hmembers =>
      obtain ⟨read, hread, rfl⟩ := Option.map_eq_some_iff.mp h
      intro x hx
      obtain ⟨m, hm, hmx⟩ := exists_of_mapM hread x (mem_of_mem_lastWins hx)
      obtain ⟨n, hn, hmx⟩ := Option.bind_eq_some_iff.mp hmx
      obtain ⟨v, hv, hmx⟩ := Option.bind_eq_some_iff.mp hmx
      cases hmx
      exact ⟨hnames m hm n hn, of_readTexts (hmembers m hm) hv⟩
  | null | bool | number | string | array => cases h

theorem of_withDefault {α : Type} {R : α → Prop} {default : α} {read : Reader α}
    (hdefault : R default) (hread : ∀ {d v}, AllStrings Q d → read d = some v → R v)
    {field : Option Document} (hfield : ∀ x ∈ field, AllStrings Q x) {v : α}
    (h : withDefault default read field = some v) : R v := by
  cases field with
  | none =>
      cases h
      exact hdefault
  | some d => exact hread (hfield d rfl) h

/-- The strings of a spec are those of its document, apart from the defaults. -/
theorem Spec.texts_of_read (hd : AllStrings (Known P) d) (hempty : P "") {s : Spec}
    (h : Spec.read d = some s) : ∀ x ∈ s.texts, P x := by
  obtain ⟨fields, hfields, h⟩ := Option.bind_eq_some_iff.mp h
  have hstrings := allStrings_of_readFields hd hfields
  have htext : ∀ {f : Option Document} {x : String}, f ∈ fields →
      withDefault "" readText f = some x → P x :=
    fun hf hx => of_withDefault hempty (fun hd h => of_readText hd h) (hstrings _ hf) hx
  have htexts : ∀ {f : Option Document} {xs : List String}, f ∈ fields →
      withDefault [] readTexts f = some xs → ∀ x ∈ xs, P x :=
    fun hf hxs => of_withDefault (R := fun xs => ∀ x ∈ xs, P x)
      (fun _ hx => absurd hx List.not_mem_nil)
      (fun hd h => of_readTexts hd h) (hstrings _ hf) hxs
  have hmap : ∀ {f : Option Document} {vs : List (String × List String)}, f ∈ fields →
      withDefault [] (readMap readTexts) f = some vs → ∀ v ∈ vs, P v.1 ∧ ∀ x ∈ v.2, P x :=
    fun hf hvs => of_withDefault (R := fun vs => ∀ v ∈ vs, P v.1 ∧ ∀ x ∈ v.2, P x)
      (fun _ hx => absurd hx List.not_mem_nil)
      (fun hd h => of_readMap hd h) (hstrings _ hf) hvs
  split at h
  case h_1 name description category variants colors spacing typography =>
    obtain ⟨n, hn, h⟩ := Option.bind_eq_some_iff.mp h
    obtain ⟨de, hde, h⟩ := Option.bind_eq_some_iff.mp h
    obtain ⟨c, hc, h⟩ := Option.bind_eq_some_iff.mp h
    obtain ⟨vs, hvs, h⟩ := Option.bind_eq_some_iff.mp h
    obtain ⟨co, hco, h⟩ := Option.bind_eq_some_iff.mp h
    obtain ⟨sp, hsp, h⟩ := Option.bind_eq_some_iff.mp h
    obtain ⟨ty, hty, h⟩ := Option.bind_eq_some_iff.mp h
    cases h
    refine Spec.forall_texts_iff.mpr ⟨htext (by simp) hn, htext (by simp) hde,
      htext (by simp) hc, hmap (by simp) hvs, htexts (by simp) hco, htexts (by simp) hsp,
      htexts (by simp) hty⟩
  case h_2 => cases h

end

end DesignTokens
