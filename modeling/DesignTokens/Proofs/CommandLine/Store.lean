import DesignTokens.CommandLine.Plan
import DesignTokens.Proofs.Files.Tree
import DesignTokens.Proofs.Record.ReadBack
import DesignTokens.Proofs.Text.Slug

/-!
# A store in a directory

A store in a directory gives each component a file named by its slug, so a file
holds the component of its slug that has been saved last. Components saved one
after the other are read back from the directory as they were, if no later one has
the same slug (`record_of_saving`). Of two components the first one is read back
just if their slugs differ (`both_read_back_iff`).

Names that differ may have the same slug, since a slug keeps nothing but letters
and digits of ASCII and not their case, and then the first component is lost
(`not_both_read_back`).
-/

namespace DesignTokens.CommandLine

open Files Json Review Text

/-! ## Names of files -/

theorem slash_not_mem_slug (name : String) : '/' ∉ (slug name).toList := fun hmem =>
  absurd ((isSlug_toList_slug name).chars '/' hmem) (by decide)

/-- The name of a component's file. -/
def slugFile (name : String) : String := slug name ++ ".json"

theorem slugFile_inj {a b : String} : slugFile a = slugFile b ↔ slug a = slug b := by
  rw [slugFile, slugFile, ← String.toList_inj, String.toList_append, String.toList_append,
    List.append_cancel_right_eq, String.toList_inj]

theorem isFileName_slugFile (name : String) : IsFileName (slugFile name) := by
  have hlength : 5 ≤ (slugFile name).toList.length := by
    rw [slugFile, String.toList_append, List.length_append]
    exact Nat.le_add_left 5 _
  have hne : ∀ short : String, short.toList.length < 5 → slugFile name ≠ short := by
    rintro short hshort rfl
    omega
  exact {
    slash := by
      rw [slugFile, String.toList_append, List.mem_append, not_or]
      exact ⟨slash_not_mem_slug name, by decide⟩
    void := by simp [isVoid, hne]
    up := hne ".." (by decide) }

/-! ## Saving -/

/-- Where a store in a directory puts a component. -/
def location (root : String) (c : SavedComponent) : String := inside root (slugFile c.name)

/-- The effects of saving components one after the other in a directory. -/
def saving (root : String) (cs : List SavedComponent) : List Effect :=
  cs.foldl (fun effects c => (directoryStore root c effects).1) []

theorem directoryStore_eq (root : String) (c : SavedComponent) (effects : List Effect) :
    directoryStore root c effects
      = (effects ++ [.makeDirectory root, .write (location root c) (indented c.write)],
        .ok (location root c)) := rfl

theorem saving_cons (root : String) (c : SavedComponent) (cs : List SavedComponent) :
    saving root (c :: cs)
      = .makeDirectory root :: .write (location root c) (indented c.write) :: saving root cs := by
  have hfold : ∀ (cs : List SavedComponent) (effects : List Effect),
      cs.foldl (fun effects c => (directoryStore root c effects).1) effects
        = effects ++ saving root cs := by
    intro cs
    induction cs with
    | nil => exact fun effects => (List.append_nil effects).symm
    | cons d cs ih =>
        intro effects
        rw [saving, List.foldl_cons, List.foldl_cons, ih, ih, directoryStore_eq, directoryStore_eq]
        simp
  rw [saving, List.foldl_cons, hfold, directoryStore_eq]
  rfl

/-- What has come of saving components one after the other. -/
def saved (root : String) (cs : List SavedComponent) (t : Tree) : Transcript :=
  Plan.run ⟨saving root cs, .ok ()⟩ t

section

variable {t t' made : Tree} {root : String} {c d : SavedComponent} {cs : List SavedComponent}

/-- Saving a component makes the directory and writes the file, and the others come after it. -/
theorem exists_saved_cons (h : (saved root (c :: cs) t).outcome = .ok ()) :
    ∃ made t', t.makeDirectory root = (made, .ok ()) ∧
      made.write (location root c) (indented c.write) = (t', .ok ()) ∧
      saved root (c :: cs) t = saved root cs t' := by
  rw [saved, Plan.run, saving_cons] at h ⊢
  dsimp only at h ⊢
  rw [runEffects] at h ⊢
  split at h
  case h_2 => cases h
  case h_1 made hmade =>
    rw [runEffects] at h
    split at h
    case h_2 => cases h
    case h_1 t' hwrite =>
      refine ⟨made, t', hmade, hwrite, ?_⟩
      rw [runEffects, hwrite]
      rfl

theorem ne_empty_of_makeDirectory (h : t.makeDirectory root = (made, .ok ())) : root ≠ "" := by
  rintro rfl
  cases h

/-- A file in a directory stands at its name behind the place of the directory. -/
theorem exists_place_inside {name : String} (hname : IsFileName name) (hroot : root ≠ "")
    {place : List String} (h : t.locate? (t.start (.ofString (inside root name)))
      (Path.ofString (inside root name)).names = some place) :
    ∃ q, t.locate? (t.start (.ofString root)) (Path.ofString root).names = some q ∧
      place = q ++ [name] := by
  obtain ⟨habsolute, hnames, -⟩ := hname.ofString_inside hroot
  have hstart : t.start (.ofString (inside root name)) = t.start (.ofString root) := by
    rw [Tree.start, Tree.start, habsolute]
  rw [hstart, hnames, Tree.locate?_append] at h
  obtain ⟨q, hq, hplace⟩ := Option.bind_eq_some_iff.mp h
  refine ⟨q, hq, ?_⟩
  rw [Tree.locate?] at hplace
  split at hplace
  case isTrue => cases hplace
  case isFalse =>
    rw [if_neg hname.up] at hplace
    split at hplace
    case isTrue =>
      cases hplace
      rfl
    case isFalse => cases hplace

/-- A component that has been saved has its file. -/
theorem exists_holdsAt_of_save
    (hwrite : made.write (location root c) (indented c.write) = (t', .ok ())) :
    ∃ place, t'.HoldsAt (location root c) place (indented c.write) := by
  obtain ⟨_, place, -, -, -, -, hholds⟩ := Tree.exists_write hwrite
  exact ⟨place, hholds⟩

/-- Saving a component leaves the files of other slugs as they are. -/
theorem holdsAt_of_save (hmade : t.makeDirectory root = (made, .ok ()))
    (hwrite : made.write (location root c) (indented c.write) = (t', .ok ()))
    (hslug : slug d.name ≠ slug c.name) {place : List String} {content : String}
    (h : t.HoldsAt (location root d) place content) :
    t'.HoldsAt (location root d) place content := by
  have hroot := ne_empty_of_makeDirectory hmade
  have hgrows := Tree.grows_makeDirectory (t := t) root
  rw [hmade] at hgrows
  obtain ⟨later, other, hlater, hlocate, hfree, rfl, -⟩ := Tree.exists_write hwrite
  have hheld := (h.grows hgrows).grows hlater
  refine hheld.put_file hfree ?_
  obtain ⟨q, hq, rfl⟩ := exists_place_inside (isFileName_slugFile c.name) hroot hlocate
  obtain ⟨q', hq', rfl⟩ := exists_place_inside (isFileName_slugFile d.name) hroot hheld.locate
  rw [hq] at hq'
  cases hq'
  intro heq
  exact hslug (slugFile_inj.mp (List.singleton_inj.mp (List.append_cancel_left heq)))

/-! ## Reading back -/

/-- Saving components of other slugs leaves a file as it is. -/
theorem holdsAt_saved (hslug : ∀ e ∈ cs, slug d.name ≠ slug e.name) {place : List String}
    {content : String} (hheld : t.HoldsAt (location root d) place content)
    (h : (saved root cs t).outcome = .ok ()) :
    (saved root cs t).tree.HoldsAt (location root d) place content := by
  induction cs generalizing t with
  | nil => exact hheld
  | cons c cs ih =>
      obtain ⟨hc, hcs⟩ := List.forall_mem_cons.mp hslug
      obtain ⟨made, t', hmade, hwrite, hlater⟩ := exists_saved_cons h
      rw [hlater] at h ⊢
      exact ih hcs (holdsAt_of_save hmade hwrite hc hheld) h

/-- A component with no later one of its slug has its file in the end. -/
theorem exists_holdsAt_saved {before later : List SavedComponent}
    (hlater : ∀ e ∈ later, slug d.name ≠ slug e.name)
    (h : (saved root (before ++ d :: later) t).outcome = .ok ()) :
    ∃ place, (saved root (before ++ d :: later) t).tree.HoldsAt (location root d) place
      (indented d.write) := by
  induction before generalizing t with
  | nil =>
      rw [List.nil_append] at h ⊢
      obtain ⟨made, t', hmade, hwrite, hrest⟩ := exists_saved_cons h
      obtain ⟨place, hheld⟩ := exists_holdsAt_of_save hwrite
      rw [hrest] at h ⊢
      exact ⟨place, holdsAt_saved hlater hheld h⟩
  | cons c before ih =>
      rw [List.cons_append] at h ⊢
      obtain ⟨made, t', hmade, hwrite, hrest⟩ := exists_saved_cons h
      rw [hrest] at h ⊢
      exact ih h

theorem record_of_text {α : Type} {files : Reading} {read : Reader α} {path content : String}
    (h : files path = .text content) : files.record read path = parseRecord read content := by
  rw [Reading.record, Reading.text, h]
  rfl

theorem exists_text_of_record {α : Type} {files : Reading} {read : Reader α} {path : String} {a : α}
    (h : files.record read path = .ok a) :
    ∃ content, files path = .text content ∧ parseRecord read content = .ok a := by
  rw [Reading.record, Reading.text] at h
  split at h
  case h_1 => cases h
  case h_2 => cases h
  case h_3 content hcontent => exact ⟨content, hcontent, h⟩

theorem record_of_holdsAt (hd : d.Fits) {path : String} {place : List String}
    (h : t.HoldsAt path place (indented d.write)) :
    Reading.record t.read SavedComponent.read path = .ok d := by
  have hread : ReadsBack SavedComponent.write (parseRecord SavedComponent.read) d :=
    readsBack_of_read d.writable (SavedComponent.read_write hd)
  rw [record_of_text h.read]
  exact hread.2

/-- Of components saved one after the other, one with no later one of its slug is read back. -/
theorem record_of_saving (before later : List SavedComponent) (hd : d.Fits)
    (hlater : ∀ e ∈ later, slug d.name ≠ slug e.name)
    (h : (saved root (before ++ d :: later) t).outcome = .ok ()) :
    Reading.record (saved root (before ++ d :: later) t).tree.read SavedComponent.read
      (location root d) = .ok d := by
  obtain ⟨place, hheld⟩ := exists_holdsAt_saved hlater h
  exact record_of_holdsAt hd hheld

/-- Of two components of different names saved one after the other, the second is read back, and the
first is read back just if their slugs differ. -/
theorem both_read_back_iff (hc : c.Fits) (hd : d.Fits) (hname : c.name ≠ d.name)
    (h : (saved root [c, d] t).outcome = .ok ()) :
    Reading.record (saved root [c, d] t).tree.read SavedComponent.read (location root d) = .ok d ∧
      (Reading.record (saved root [c, d] t).tree.read SavedComponent.read (location root c) = .ok c
        ↔ slug c.name ≠ slug d.name) := by
  have hsecond := record_of_saving [c] [] hd (List.forall_mem_nil _) h
  refine ⟨hsecond, fun hfirst hslug => ?_, fun hslug => ?_⟩
  · have hlocation : location root c = location root d := by
      rw [location, location, slugFile_inj.mpr hslug]
    rw [hlocation] at hfirst
    cases hfirst.symm.trans hsecond
    exact hname rfl
  · exact record_of_saving [] [d] hc (List.forall_mem_singleton.mpr hslug) h

end

/-- A component of the given name. -/
def plainComponent (name : String) : SavedComponent where
  name := name
  savedAt := "2026-01-01T00:00:00Z"
  spec := { name }
  source := "export const v = cva(\"\");"
  report := ⟨true, true, true, [], [], [], 100, []⟩
  mappings := {}

theorem fits_plainComponent (name : String) : (plainComponent name).Fits where
  spec := List.nodup_nil
  report := show (100 : Nat) ≤ maxByte by decide

theorem both_read_back_iff_chip :
    let button := plainComponent "Button"
    let chip := plainComponent "Chip"
    let behind := saved "store" [button, chip] ⟨[], []⟩
    behind.outcome = .ok () ∧ slug "Button" ≠ slug "Chip" ∧
      Reading.record behind.tree.read SavedComponent.read (location "store" chip) = .ok chip ∧
      Reading.record behind.tree.read SavedComponent.read (location "store" button)
        = .ok button := by
  intro button chip behind
  have h : behind.outcome = .ok () := by decide
  have hslug : slug "Button" ≠ slug "Chip" := by decide
  have hname : button.name ≠ chip.name := by decide
  obtain ⟨hsecond, hfirst⟩ :=
    both_read_back_iff (fits_plainComponent "Button") (fits_plainComponent "Chip") hname h
  exact ⟨h, hslug, hsecond, hfirst.mpr hslug⟩

/-- The tree of a store that holds one file. -/
def buttonTree (text : String) : Tree where
  workingDirectory := []
  entries := [(["store", "button.json"], .file text), (["store"], .directory)]

theorem eq_of_entry_buttonTree {place : List String} {text content : String}
    (h : Tree.entry? (buttonTree text) place = some (.file content)) : content = text := by
  rw [ Tree.entry?, buttonTree] at h
  split at h
  case isTrue => cases h
  case isFalse =>
    rw [List.lookup_cons, List.lookup_cons] at h
    split at h
    · cases h
      rfl
    · split at h <;> cases h

/-- Two buttons share a file, and it holds the second one. -/
theorem saved_buttons {c d : SavedComponent} (hc : slug c.name = "button")
    (hd : slug d.name = "button") :
    (saved "store" [c, d] ⟨[], []⟩).outcome = .ok () ∧
      (saved "store" [c, d] ⟨[], []⟩).tree = buttonTree (indented d.write) := by
  have hlocation : ∀ e : SavedComponent, slug e.name = "button" →
      location "store" e = "store/button.json" := fun e he => by
    rw [location, slugFile, he]
    rfl
  -- what is written plays no part in where it goes
  have hrun : ∀ first second : String,
      runEffects (.ok ()) ⟨[], []⟩
          [.makeDirectory "store", .write "store/button.json" first, .makeDirectory "store",
            .write "store/button.json" second]
        = ⟨buttonTree second, "", "", .ok ()⟩ := fun first second => rfl
  rw [saved, Plan.run, saving_cons, saving_cons, hlocation c hc, hlocation d hd]
  exact ⟨congrArg Transcript.outcome (hrun ..), congrArg Transcript.tree (hrun ..)⟩

/-- Of two buttons whose names differ in case and punctuation alone, the first is lost: both saves
succeed, and it can be read from no path. -/
theorem not_both_read_back :
    ∃ (t : Tree) (root : String) (c d : SavedComponent), c.name ≠ d.name ∧ c.Fits ∧ d.Fits ∧
      (saved root [c, d] t).outcome = .ok () ∧
      ∀ path, Reading.record (saved root [c, d] t).tree.read SavedComponent.read path ≠ .ok c := by
  have hname : (plainComponent "Button").name ≠ (plainComponent "button!").name := by decide
  have hfirst : slug (plainComponent "Button").name = "button" := by decide
  have hsecond : slug (plainComponent "button!").name = "button" := by decide
  obtain ⟨houtcome, htree⟩ := saved_buttons hfirst hsecond
  refine ⟨⟨[], []⟩, "store", plainComponent "Button", plainComponent "button!", hname,
    fits_plainComponent _, fits_plainComponent _, houtcome, fun path hread => ?_⟩
  rw [htree] at hread
  obtain ⟨content, htext, hparse⟩ := exists_text_of_record hread
  obtain ⟨place, hentry⟩ := Tree.exists_entry_of_read htext
  have honly := eq_of_entry_buttonTree hentry
  have hback : ReadsBack SavedComponent.write (parseRecord SavedComponent.read)
      (plainComponent "button!") :=
    readsBack_of_read (SavedComponent.writable _) (SavedComponent.read_write (fits_plainComponent _))
  subst honly
  have hsame := Except.ok.inj (hback.2.symm.trans hparse)
  exact hname (congrArg SavedComponent.name hsame).symm

end DesignTokens.CommandLine
