import DesignTokens.Proofs.Policy
import DesignTokens.Proofs.Rewrite.Edits
import DesignTokens.Proofs.Rewrite.FreeName
import DesignTokens.Proofs.Rewrite.Sites
import DesignTokens.Proofs.Source.Block
import DesignTokens.Rewrite.Apply

/-!
# Reserved names behind a rewriting

A dimension must not have a reserved name (`ReservedFree`), and renaming is what
makes it so. It does not always: a key is found in the variant block, but it is
renamed at the sites of the whole text, and the two do not look at the same
things. `reservedFree_iff_cleared` says exactly when a rewritten text is free of
reserved names: each renaming must reach every key that it is for (`Reached`),
and it must not bring in a name whose turn has passed. The text with a comment
that ends in a question mark shows a key that is not reached.

The step of the proof is one renaming. The text is a template with holes at the
places of the renaming, and the keys of its block are the same for all words in
the holes (`BlockKey.cases`); so a key is renamed or stays, and nothing else
comes in. Two kinds of policy are left out (`NamesApart`): one whose names bring
the block to another place of the text, and one with a reserved name of a single
letter, as keys read out of a comment are.
-/

namespace DesignTokens.Rewrite

open Text Source Template

/-! ## One renaming -/

/-- The variant block of the text has the name as an unquoted key. -/
def Keyed (call text key : List Char) : Prop := ∃ n, BlockKey call text key n

theorem isDimension_iff {call name text : List Char} :
    isDimension call name text = true ↔ Keyed call text name := by
  rw [isDimension]
  cases hblock : variantBlock? call text with
  | none => simp [Keyed, BlockKey, hblock]
  | some b =>
      simp only [Keyed, BlockKey, hblock, List.any_eq_true, Bool.and_eq_true, Bool.not_eq_true',
        decide_eq_true_eq, Option.some.injEq]
      constructor
      · rintro ⟨e, he, hquoted, hkey⟩
        exact ⟨_, b, rfl, e, he, hquoted, hkey, rfl⟩
      · rintro ⟨n, _, rfl, e, he, hquoted, hkey, -⟩
        exact ⟨e, he, hquoted, hkey⟩

theorem after_reservedEdit (call : List Char) (reserved renamed : String) (text : List Char) :
    (reservedEdit call reserved renamed).after text =
      if isDimension call reserved.toList text then
        renamedText reserved.toList (freeName text renamed).toList text
      else text := by
  rw [Edit.after, reservedEdit]
  cases isDimension call reserved.toList text with
  | false => rfl
  | true =>
      simp only [Bool.not_true, Bool.false_eq_true, if_false, if_true, renamedText]
      cases renamedSites reserved.toList text with
      | nil => rfl
      | cons first places => rfl

section

variable {call name free text key : List Char} {n : Nat}

/-- A key that is not at a place of the renaming stays. -/
theorem keyed_renamedText (hcall : IsName call) (hname : Plain call name) (hfree : Plain call free)
    (hkey : BlockKey call text key n) (hlong : ¬Short key)
    (hn : key = name → n ∉ renamedSites name text) :
    Keyed call (renamedText name free text) key := by
  obtain ⟨t, ht⟩ := exists_renamingTemplate hname.isName text
  rw [ht.fill_free]
  rw [← ht.fill_name] at hkey
  rcases hkey.cases hcall ht.apart hname with
    hshort | ⟨s, c, u, -, -, hall⟩ | ⟨s, u, hs, hpos, hk, -⟩
  · exact absurd hshort hlong
  · exact ⟨_, hall free hfree⟩
  · exact absurd ((ht.mem_iff n).mpr ⟨s, u, hs, hpos⟩) (hn hk)

/-- A key that is at a place of the renaming becomes the new name. -/
theorem keyed_renamedText_of_mem (hcall : IsName call) (hname : Plain call name)
    (hfree : Plain call free) (hkey : BlockKey call text name n) (hlong : ¬Short name)
    (hn : n ∈ renamedSites name text) : Keyed call (renamedText name free text) free := by
  obtain ⟨t, ht⟩ := exists_renamingTemplate hname.isName text
  rw [ht.fill_free]
  rw [← ht.fill_name] at hkey
  rcases hkey.cases hcall ht.apart hname with
    hshort | ⟨s, c, u, rfl, rfl, -⟩ | ⟨s, u, -, -, -, hall⟩
  · exact absurd hshort hlong
  · exact absurd hn (ht.not_mem hname.isName)
  · exact ⟨_, hall free hfree⟩

/-- A key behind the renaming has been there before, or is the new name of one that has. -/
theorem exists_of_keyed_renamedText (hcall : IsName call) (hname : Plain call name)
    (hfree : Plain call free) (hlong : ¬Short key)
    (hkey : Keyed call (renamedText name free text) key) :
    (∃ n, BlockKey call text key n ∧ n ∉ renamedSites name text) ∨
      key = free ∧ Keyed call text name := by
  obtain ⟨t, ht⟩ := exists_renamingTemplate hname.isName text
  rw [ht.fill_free] at hkey
  obtain ⟨n, hkey⟩ := hkey
  rcases hkey.cases hcall ht.apart hfree with
    hshort | ⟨s, c, u, rfl, -, hall⟩ | ⟨s, u, -, -, hk, hall⟩
  · exact absurd hshort hlong
  · exact .inl ⟨_, ht.fill_name ▸ hall name hname, ht.not_mem hname.isName⟩
  · exact .inr ⟨hk, _, ht.fill_name ▸ hall name hname⟩

end

/-! ## A row of renamings -/

/-- A renaming that neither a one-letter name nor a name of the block is part of. -/
structure Tame (call : List Char) (x : String × String) : Prop where
  long : ¬Short x.1.toList
  name : Plain call x.1.toList
  free : ∀ n, Plain call (candidateName x.2 n).toList

/-- Each key of the variant block that has the name stands where the name is renamed. -/
def Reached (call name text : List Char) : Prop :=
  ∀ b ∈ variantBlock? call text, ∀ e ∈ entries text b.opening b.closing,
    e.quoted = false → e.key = name → e.keyStart ∈ renamedSites name text

/-- Each renaming of the row reaches all keys that it is for, and brings in none of the names that
have had their turn. -/
def Cleared (call : List Char) : List String → List (String × String) → List Char → Prop
  | _, [], _ => True
  | done, (name, renamed) :: later, text =>
    Reached call name.toList text ∧
    (isDimension call name.toList text = true → freeName text renamed ∉ name :: done) ∧
    Cleared call (name :: done) later ((reservedEdit call name renamed).after text)

instance (call name text : List Char) : Decidable (Reached call name text) := by
  unfold Reached
  infer_instance

instance decidableCleared (call : List Char) : ∀ (done : List String)
    (renamings : List (String × String)) (text : List Char),
    Decidable (Cleared call done renamings text)
  | _, [], _ => isTrue trivial
  | done, (name, renamed) :: later, text =>
    have := decidableCleared call (name :: done) later
      ((reservedEdit call name renamed).after text)
    inferInstanceAs (Decidable (_ ∧ _ ∧ _))

theorem reached_iff {call name text : List Char} :
    Reached call name text ↔ ∀ n, BlockKey call text name n → n ∈ renamedSites name text := by
  constructor
  · rintro h n ⟨b, hb, e, he, hquoted, hkey, rfl⟩
    exact h b hb e he hquoted hkey
  · exact fun h b hb e he hquoted hkey => h _ ⟨b, hb, e, he, hquoted, hkey, rfl⟩

section

variable {call : List Char} {x : String × String} {text key : List Char}

theorem Tame.keyed_after (hx : Tame call x) (hcall : IsName call) (hkey : Keyed call text key)
    (hlong : ¬Short key) (hne : key ≠ x.1.toList) :
    Keyed call ((reservedEdit call x.1 x.2).after text) key := by
  rw [after_reservedEdit]
  split
  case isFalse => exact hkey
  case isTrue =>
    obtain ⟨n, hkey⟩ := hkey
    exact keyed_renamedText hcall hx.name (hx.free _) hkey hlong fun h => absurd h hne

theorem keyed_runEdits (hcall : IsName call) (hlong : ¬Short key) :
    ∀ {xs : List (String × String)} {text : List Char}, (∀ x ∈ xs, Tame call x) →
      (∀ x ∈ xs, key ≠ x.1.toList) → Keyed call text key →
      Keyed call (runEdits (reservedEdits call xs) text).1 key
  | [], _, _, _, hkey => hkey
  | x :: xs, text, htame, hne, hkey => by
      rw [reservedEdits, List.map_cons, runEdits_cons]
      exact keyed_runEdits hcall hlong (fun y hy => htame y (List.mem_cons_of_mem x hy))
        (fun y hy => hne y (List.mem_cons_of_mem x hy))
        ((htame x (List.mem_cons_self ..)).keyed_after hcall hkey hlong
          (hne x (List.mem_cons_self ..)))

/-- A name whose keys are all reached is no key behind its renaming, and neither is a name that has
not been one before, unless the renaming brings it in. -/
theorem Tame.not_keyed_after (hx : Tame call x) (hcall : IsName call) (hlong : ¬Short key)
    (hreached : Reached call x.1.toList text)
    (hfree : isDimension call x.1.toList text = true → (freeName text x.2).toList ≠ key)
    (hkey : key ≠ x.1.toList → ¬Keyed call text key) :
    ¬Keyed call ((reservedEdit call x.1 x.2).after text) key := by
  rw [after_reservedEdit]
  split
  case isFalse hdim =>
    rw [isDimension_iff] at hdim
    by_cases hne : key = x.1.toList
    · rwa [hne]
    · exact hkey hne
  case isTrue hdim =>
    intro h
    rcases exists_of_keyed_renamedText hcall hx.name (hx.free _) hlong h with
      ⟨n, hn, hplace⟩ | ⟨hk, -⟩
    · by_cases hne : key = x.1.toList
      · exact hplace (reached_iff.mp hreached n (hne ▸ hn))
      · exact hkey hne ⟨n, hn⟩
    · exact hfree hdim hk.symm

theorem Tame.keyed_after_of_not_reached (hx : Tame call x) (hcall : IsName call)
    (h : ¬Reached call x.1.toList text) :
    Keyed call ((reservedEdit call x.1 x.2).after text) x.1.toList := by
  rw [reached_iff] at h
  push Not at h
  obtain ⟨n, hkey, hn⟩ := h
  rw [after_reservedEdit, if_pos (isDimension_iff.mpr ⟨n, hkey⟩)]
  exact keyed_renamedText hcall hx.name (hx.free _) hkey hx.long fun _ => hn

theorem Tame.keyed_after_free (hx : Tame call x) (hcall : IsName call)
    (hreached : Reached call x.1.toList text) (hdim : isDimension call x.1.toList text = true) :
    Keyed call ((reservedEdit call x.1 x.2).after text) (freeName text x.2).toList := by
  obtain ⟨n, hkey⟩ := isDimension_iff.mp hdim
  rw [after_reservedEdit, if_pos hdim]
  exact keyed_renamedText_of_mem hcall hx.name (hx.free _) hkey hx.long
    (reached_iff.mp hreached n hkey)

end

/-- A row of renamings leaves none of its names as a key exactly if each does its part. -/
theorem not_keyed_iff_cleared {call : List Char} (hcall : IsName call) :
    ∀ {xs : List (String × String)} {done : List String} {text : List Char},
      (∀ x ∈ xs, Tame call x) → (xs.map (·.1)).Nodup →
      (∀ r ∈ done, ¬Short r.toList ∧ r ∉ xs.map (·.1) ∧ ¬Keyed call text r.toList) →
      ((∀ r, r ∈ done ∨ r ∈ xs.map (·.1) →
          ¬Keyed call (runEdits (reservedEdits call xs) text).1 r.toList)
        ↔ Cleared call done xs text)
  | [], done, text, _, _, hdone => by
      simp only [Cleared, iff_true, List.map_nil, List.not_mem_nil, or_false]
      exact fun r hr => (hdone r hr).2.2
  | x :: xs, done, text, htame, hnodup, hdone => by
      have hx := htame x (List.mem_cons_self ..)
      have htail : ∀ y ∈ xs, Tame call y := fun y hy => htame y (List.mem_cons_of_mem x hy)
      obtain ⟨hnew, hnodup⟩ := List.nodup_cons.mp hnodup
      -- a name that has had its turn is long, and no later renaming is for it
      have hpast : ∀ r ∈ x.1 :: done, ¬Short r.toList ∧ r ∉ xs.map (·.1) := by
        intro r hr
        rcases List.mem_cons.mp hr with rfl | hr
        · exact ⟨hx.long, hnew⟩
        · exact ⟨(hdone r hr).1, fun h => (hdone r hr).2.1 (List.mem_cons_of_mem _ h)⟩
      have hstays : ∀ r ∈ x.1 :: done,
          Keyed call ((reservedEdit call x.1 x.2).after text) r.toList →
          Keyed call (runEdits (reservedEdits call (x :: xs)) text).1 r.toList := by
        intro r hr hkey
        rw [reservedEdits, List.map_cons, runEdits_cons]
        refine keyed_runEdits hcall (hpast r hr).1 htail (fun y hy heq => ?_) hkey
        exact (hpast r hr).2 (List.mem_map.mpr ⟨y, hy, (String.toList_inj.mp heq).symm⟩)
      have hnames : ∀ r, r ∈ done ∨ r ∈ (x :: xs).map (·.1)
          ↔ r ∈ x.1 :: done ∨ r ∈ xs.map (·.1) := by
        intro r
        simp only [List.map_cons, List.mem_cons]
        tauto
      simp only [hnames]
      by_cases hreached : Reached call x.1.toList text
      · by_cases hfree : isDimension call x.1.toList text = true → freeName text x.2 ∉ x.1 :: done
        · have hrest : Cleared call done (x :: xs) text
              ↔ Cleared call (x.1 :: done) xs ((reservedEdit call x.1 x.2).after text) :=
            ⟨fun h => h.2.2, fun h => ⟨hreached, hfree, h⟩⟩
          rw [hrest, ← not_keyed_iff_cleared hcall htail hnodup, reservedEdits, List.map_cons,
            runEdits_cons]
          · rfl
          · intro r hr
            refine ⟨(hpast r hr).1, (hpast r hr).2, ?_⟩
            refine hx.not_keyed_after hcall (hpast r hr).1 hreached (fun hdim heq => ?_)
              fun hne => ?_
            · exact hfree hdim (String.toList_inj.mp heq ▸ hr)
            · rcases List.mem_cons.mp hr with rfl | hr
              · exact absurd rfl hne
              · exact (hdone r hr).2.2
        · push Not at hfree
          obtain ⟨hdim, hmem⟩ := hfree
          refine ⟨fun h => ?_, fun h => absurd hmem (h.2.1 hdim)⟩
          exact absurd (hstays _ hmem (hx.keyed_after_free hcall hreached hdim)) (h _ (.inl hmem))
      · refine ⟨fun h => ?_, fun h => absurd h.1 hreached⟩
        have hmem : x.1 ∈ x.1 :: done := List.mem_cons_self ..
        exact absurd (hstays _ hmem (hx.keyed_after_of_not_reached hcall hreached))
          (h _ (.inl hmem))

/-! ## The guarantee -/

/-- No unquoted key of the variant block is a reserved name of the policy. -/
def ReservedFree (policy : Policy) (text : List Char) : Prop :=
  ∀ b ∈ variantBlock? policy.variantCall.toList text, ∀ e ∈ entries text b.opening b.closing,
    e.quoted = false → String.ofList e.key ∉ policy.reserved.map (·.1)

instance (policy : Policy) (text : List Char) : Decidable (ReservedFree policy text) := by
  unfold ReservedFree
  infer_instance

theorem reservedFree_iff {policy : Policy} {text : List Char} :
    ReservedFree policy text
      ↔ ∀ r ∈ policy.reserved.map (·.1), ¬Keyed policy.variantCall.toList text r.toList := by
  constructor
  · rintro h r hr ⟨n, b, hb, e, he, hquoted, hkey, -⟩
    refine h b hb e he hquoted ?_
    rwa [hkey, String.ofList_toList]
  · intro h b hb e he hquoted hr
    exact h _ hr ⟨_, b, hb, e, he, hquoted, by rw [String.toList_ofList], rfl⟩

/-- The reserved names of a policy are longer than a letter with a number, and a renaming neither
takes away nor brings in the two names that the variant block is found by. -/
structure NamesApart (policy : Policy) : Prop where
  long : ∀ x ∈ policy.reserved, ¬Short x.1.toList
  name : ∀ x ∈ policy.reserved, ∀ word ∈ [policy.variantCall.toList, variantsName],
    ¬EndsInName word x.1.toList
  free : ∀ x ∈ policy.reserved, ∀ word ∈ [policy.variantCall.toList, variantsName], ∀ n,
    ¬EndsInName word (candidateName x.2 n).toList

theorem NamesApart.tame {policy : Policy} (h : NamesApart policy) (hvalid : policy.Valid)
    {x : String × String} (hx : x ∈ policy.reserved) : Tame policy.variantCall.toList x where
  long := h.long x hx
  name := ⟨(hvalid.isName_reserved hx).1, h.name x hx _ (by simp), h.name x hx _ (by simp)⟩
  free n := ⟨isName_candidateName (hvalid.isName_reserved hx).2.1 n,
    h.free x hx _ (by simp) n, h.free x hx _ (by simp) n⟩

/-- The two names that the block is found by end in letters that no new name of the builtin policy
ends in. -/
theorem namesApart_builtin : NamesApart Policy.builtin := by
  have hwords : ∀ word ∈ [Policy.builtin.variantCall.toList, variantsName],
      word ≠ [] ∧ (word.getLast? = some 'a' ∨ word.getLast? = some 's') := by decide
  have hlast : ∀ word ∈ [Policy.builtin.variantCall.toList, variantsName], ∀ w,
      EndsInName word w → w.getLast? = some 'a' ∨ w.getLast? = some 's' := by
    intro word hword w hends
    rw [getLast?_of_endsInName hends (hwords word hword).1]
    exact (hwords word hword).2
  have hinput : "inputType".toList.getLast? = some 'e' := by decide
  have htype : "type".toList = ['t', 'y', 'p', 'e'] := by decide
  refine ⟨fun x hx => ?_, fun x hx word hword hends => ?_, fun x hx word hword n hends => ?_⟩
  all_goals obtain rfl := List.mem_singleton.mp hx
  · rintro ⟨c, ds, hname, hds⟩
    obtain ⟨-, rfl⟩ := List.cons.inj (htype.symm.trans hname)
    exact absurd (hds 'e' (by decide)) (by decide)
  · rcases hlast word hword _ hends with h | h <;> revert h <;> decide
  · rcases hlast word hword _ hends with h | h
    all_goals
      cases n with
      | zero =>
          rw [candidateName, hinput] at h
          revert h
          decide
      | succ n =>
          rcases getLast?_candidateName n h with h | h <;> revert h <;> decide

theorem reservedFree_renamings_iff {policy : Policy} (hvalid : policy.Valid)
    (hapart : NamesApart policy) (text : List Char) :
    ReservedFree policy
        (runEdits (reservedEdits policy.variantCall.toList policy.reserved) text).1
      ↔ Cleared policy.variantCall.toList [] policy.reserved text := by
  rw [reservedFree_iff, ← not_keyed_iff_cleared hvalid.isName_call
    (fun x hx => hapart.tame hvalid hx) hvalid.nodup (by simp)]
  simp

def beforeRenaming (text : List Char) (m : MappingSet) (policy : Policy) : List Char :=
  (runPasses m policy [.colors, .spacing, .variants] text).1

theorem applyMappings_eq (text : List Char) (m : MappingSet) (policy : Policy) :
    applyMappings text m policy
      = (runEdits (reservedEdits policy.variantCall.toList policy.reserved)
          (beforeRenaming text m policy)).1 := rfl

/-- A rewritten text has no reserved name as a key exactly if each renaming reaches all keys that it
is for and brings in no name that has had its turn. -/
theorem reservedFree_iff_cleared {policy : Policy} (hvalid : policy.Valid)
    (hapart : NamesApart policy) (text : List Char) (m : MappingSet) :
    ReservedFree policy (applyMappings text m policy)
      ↔ Cleared policy.variantCall.toList [] policy.reserved (beforeRenaming text m policy) := by
  rw [applyMappings_eq]
  exact reservedFree_renamings_iff hvalid hapart _

/-- A component with a dimension that is named like an attribute. -/
def typeSource : List Char :=
  ("const v = cva(\"h-9\", \x7b\n  variants: \x7b\n" ++
    "    type: \x7b text: \"h-9\" \x7d,\n  \x7d,\n\x7d);\n").toList

theorem reservedFree_typeSource :
    ReservedFree Policy.builtin (applyMappings typeSource {} Policy.builtin) :=
  (reservedFree_iff_cleared Policy.valid_builtin namesApart_builtin typeSource {}).mpr
    (by decide)

/-- The same component with a comment in front of the key. -/
def questionSource : List Char :=
  ("const v = cva(\"h-9\", \x7b\n  variants: \x7b\n    // which kind?\n" ++
    "    type: \x7b text: \"h-9\" \x7d,\n  \x7d,\n\x7d);\n").toList

/-- The question mark of the comment is taken for that of an expression, so the key is at no site
and stays. -/
theorem not_reservedFree_questionSource :
    ¬ReservedFree Policy.builtin (applyMappings questionSource {} Policy.builtin) := by
  decide

/-- A name that has had its turn comes back if it is the new name of a later one. -/
example : ¬ReservedFree { Policy.builtin with reserved := [("kind", "mood"), ("type", "kind")] }
    (applyMappings typeSource {}
      { Policy.builtin with reserved := [("kind", "mood"), ("type", "kind")] }) := by
  decide

/-- With the builtin policy, all depends on whether the one reserved name is reached. -/
theorem reservedFree_builtin_iff_reached (text : List Char) (m : MappingSet) :
    ReservedFree Policy.builtin (applyMappings text m Policy.builtin)
      ↔ Reached "cva".toList "type".toList (beforeRenaming text m Policy.builtin) := by
  have hfree : ∀ text, freeName text "inputType" ∉ ["type"] := by
    intro text hmem
    obtain ⟨form, hform⟩ := exists_candidateName_append "inputType"
      (((List.range (text.length + 3)).find? fun n =>
        !holdsName (candidateName "inputType" n).toList text).getD (text.length + 3))
    rw [← freeName, List.mem_singleton.mp hmem] at hform
    have hinput : "inputType".toList = 'i' :: "nputType".toList := by decide
    have htype : "type".toList = 't' :: "ype".toList := by decide
    rw [hinput, htype, List.cons_append] at hform
    exact absurd (List.cons.inj hform).1 (by decide)
  rw [applyMappings_eq, reservedFree_renamings_iff Policy.valid_builtin namesApart_builtin]
  exact ⟨fun h => h.1, fun h => ⟨h, fun _ => hfree _, trivial⟩⟩

end DesignTokens.Rewrite
