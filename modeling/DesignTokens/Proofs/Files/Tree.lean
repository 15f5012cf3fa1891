import DesignTokens.Files.Tree
import DesignTokens.Proofs.Text.Trim

/-!
# What operations do to a file tree

Making directories only adds to a tree: what was there stays where it was
(`Tree.Grows`), and so every place that could be found can still be found.
Writing a file changes the one place that the file is at (`Tree.exists_write`), and
a path leads to a file by leading to its place (`Tree.HoldsAt`). Two names in one
directory are two places. Whatever fails, fails as input and output.
-/

namespace DesignTokens.Files

/-! ## Failures -/

namespace Tree

variable {t made : Tree} {place names : List String} {path content : String} {f : Failure}

theorem makeDirectoriesFrom_error (h : (t.makeDirectoriesFrom place names).2 = .error f) :
    f = .io := by
  fun_induction makeDirectoriesFrom t place names with
  | case1 => cases h
  | case2 _ _ _ ih => exact ih h
  | case3 _ _ _ _ _ _ ih => exact ih h
  | case4 | case6 =>
      cases h
      rfl
  | case5 _ _ _ _ _ _ _ ih => exact ih h

theorem makeDirectory_error (h : (t.makeDirectory path).2 = .error f) : f = .io := by
  rw [makeDirectory] at h
  split at h
  case isTrue =>
    cases h
    rfl
  case isFalse =>
    split at h
    case isFalse => exact makeDirectoriesFrom_error h
    case isTrue =>
      split at h
      case h_1 =>
        split at h
        · cases h
        · cases h
          rfl
      case h_2 => exact makeDirectoriesFrom_error h

theorem makeInFront_error (h : (t.makeInFront path).2 = .error f) : f = .io := by
  rw [makeInFront] at h
  split at h
  · exact makeDirectoriesFrom_error h
  · cases h
    rfl

theorem fill_error {p : Path} (h : (t.fill p content).2 = .error f) : f = .io := by
  rw [fill] at h
  split at h
  · cases h
    rfl
  · split at h
    · cases h
      rfl
    · cases h

theorem write_error (h : (t.write path content).2 = .error f) : f = .io := by
  rw [write] at h
  split at h
  case h_1 =>
    split at h
    · exact fill_error h
    · cases h
      rfl
  case h_2 => exact makeInFront_error h

end Tree

/-! ## Paths inside a directory -/

/-- The name is one that a file can be found by: it is one part of a path and says something. -/
structure IsFileName (name : String) : Prop where
  slash : '/' ∉ name.toList
  void : isVoid name = false
  up : name ≠ ".."

namespace IsFileName

variable {name directory : String}

theorem parts_eq (h : IsFileName name) : parts name = [name] := by
  rw [parts, Text.pieces_of_forall (Text.no_separator h.slash), List.map_singleton,
    String.ofList_toList]

theorem parts_append_slash (h : IsFileName name) (front : List Char) :
    parts (String.ofList (front ++ '/' :: name.toList)) = parts (String.ofList front) ++ [name] := by
  rw [parts, parts, String.toList_ofList, String.toList_ofList,
    Text.pieces_append_sep (decide_eq_true rfl), List.map_append, ← parts, h.parts_eq]

/-- The parts of a path are those of the directory, apart from an empty one at its end, and the
name. -/
theorem parts_inside (h : IsFileName name) (directory : String) :
    ∃ front, parts (inside directory name) = front ++ [name] ∧
      (parts directory = front ∨ parts directory = front ++ [""]) := by
  rw [inside]
  split
  case isTrue hlast =>
    obtain ⟨front, hfront⟩ := List.getLast?_eq_some_iff.mp hlast
    have hdirectory : directory = String.ofList (front ++ ['/']) := by
      rw [← hfront, String.ofList_toList]
    have hinside : directory ++ name = String.ofList (front ++ '/' :: name.toList) := by
      rw [hdirectory, ← String.toList_inj]
      simp
    refine ⟨parts (String.ofList front), ?_, .inr ?_⟩
    · rw [hinside, h.parts_append_slash]
    · rw [hdirectory, parts, String.toList_ofList,
        Text.pieces_append_sep (decide_eq_true rfl), List.map_append, parts, String.toList_ofList]
      rfl
  case isFalse =>
    have hinside : directory ++ "/" ++ name
        = String.ofList (directory.toList ++ '/' :: name.toList) := by
      rw [← String.toList_inj]
      simp
    refine ⟨parts directory, ?_, .inl rfl⟩
    rw [hinside, h.parts_append_slash, String.ofList_toList]

/-- A path to a file in a directory goes on from the directory with the name. -/
theorem ofString_inside (h : IsFileName name) (hdirectory : directory ≠ "") :
    (Path.ofString (inside directory name)).absolute = (Path.ofString directory).absolute ∧
      (Path.ofString (inside directory name)).names = (Path.ofString directory).names ++ [name] ∧
      (Path.ofString (inside directory name)).toDirectory = false := by
  obtain ⟨front, hinside, hfront⟩ := h.parts_inside directory
  refine ⟨?_, ?_, ?_⟩
  · have hhead : (inside directory name).toList.head? = directory.toList.head? := by
      have hne : directory.toList ≠ [] := fun hnil => hdirectory (String.toList_eq_nil_iff.mp hnil)
      rw [inside]
      split
      · rw [String.toList_append, List.head?_append_of_ne_nil _ hne]
      · rw [String.append_assoc, String.toList_append, List.head?_append_of_ne_nil _ hne]
    simp only [Path.ofString, hhead]
  · have hname : [name].filter (fun p => !isVoid p) = [name] := by simp [h.void]
    have hempty : [""].filter (fun p => !isVoid p) = [] := rfl
    simp only [Path.ofString, hinside]
    rcases hfront with heq | heq
    · rw [heq, List.filter_append, hname]
    · rw [heq, List.filter_append, List.filter_append, hname, hempty, List.append_nil]
  · simp [Path.ofString, hinside, h.void]

end IsFileName

namespace Tree

/-! ## Trees that grow -/

/-- What was there is still there. -/
structure Grows (t t' : Tree) : Prop where
  workingDirectory : t'.workingDirectory = t.workingDirectory
  entry : ∀ {place : List String} {e : Entry}, t.entry? place = some e → t'.entry? place = some e

section

variable {t t' t'' : Tree} {place names : List String} {e : Entry}

theorem Grows.refl (t : Tree) : t.Grows t := ⟨rfl, id⟩

theorem Grows.trans (h : t.Grows t') (h' : t'.Grows t'') : t.Grows t'' :=
  ⟨h'.workingDirectory.trans h.workingDirectory, fun he => h'.entry (h.entry he)⟩

theorem Grows.isDirectory (h : t.Grows t') (hd : t.isDirectory place = true) :
    t'.isDirectory place = true :=
  decide_eq_true (h.entry (of_decide_eq_true hd))

theorem Grows.start (h : t.Grows t') (p : Path) : t'.start p = t.start p := by
  rw [Tree.start, Tree.start, h.workingDirectory]

/-- A place that can be found is found again in a tree that has grown. -/
theorem Grows.locate? (h : t.Grows t') : ∀ {names place : List String} {q : List String},
    t.locate? place names = some q → t'.locate? place names = some q
  | [], _, _, hq => hq
  | name :: names, place, q, hq => by
      rw [Tree.locate?] at hq ⊢
      split at hq
      case isTrue => cases hq
      case isFalse hdirectory =>
        rw [Bool.not_eq_true', Bool.not_eq_false] at hdirectory
        rw [if_neg (by simp [h.isDirectory hdirectory])]
        split at hq
        case isTrue hup =>
          rw [if_pos hup]
          exact h.locate? hq
        case isFalse hup =>
          rw [if_neg hup]
          split at hq
          case isTrue hname =>
            rw [if_pos hname]
            exact h.locate? hq
          case isFalse => cases hq

theorem lookup_filter_ne (place other : List String) : ∀ entries : List (List String × Entry),
    (entries.filter fun x => x.1 ≠ place).lookup other
      = if other = place then none else entries.lookup other
  | [] => by simp
  | (p, e) :: entries => by
      have ih := lookup_filter_ne place other entries
      by_cases hp : p = place
      · rw [List.filter_cons_of_neg (by simp [hp]), ih, List.lookup_cons]
        split
        · rfl
        · rename_i hne
          rw [beq_false_of_ne (hp ▸ hne)]
      · rw [List.filter_cons_of_pos (by simp [hp]), List.lookup_cons, List.lookup_cons, ih]
        by_cases ho : other = p
        · subst ho
          simp [hp]
        · rw [beq_false_of_ne ho]

/-- What is put into a tree stands at its place, and nothing else has changed. -/
theorem lookup_put (hplace : place ≠ []) (other : List String) :
    Tree.entry? (t.put place e) other = if other = place then some e else t.entry? other := by
  rw [ Tree.entry?, Tree.put, Tree.entry?]
  by_cases hroot : other = []
  · subst hroot
    simp [Ne.symm hplace]
  · rw [if_neg hroot, if_neg hroot, List.lookup_cons, lookup_filter_ne]
    by_cases ho : other = place
    · simp [ho]
    · simp only [beq_false_of_ne ho, if_neg ho]

theorem grows_put (h : t.entry? place = none) : t.Grows (t.put place e) where
  workingDirectory := rfl
  entry := by
    intro other e' he'
    have hplace : place ≠ [] := by
      rintro rfl
      cases h
    rw [lookup_put hplace, if_neg, he']
    rintro rfl
    rw [h] at he'
    cases he'

theorem grows_makeDirectoriesFrom : t.Grows (t.makeDirectoriesFrom place names).1 := by
  fun_induction makeDirectoriesFrom t place names with
  | case1 | case4 | case6 => exact .refl _
  | case2 _ _ _ ih => exact ih
  | case3 _ _ _ _ _ _ ih => exact ih
  | case5 _ _ _ _ _ hnone _ ih => exact (grows_put hnone).trans ih

theorem grows_makeDirectory (path : String) : t.Grows (t.makeDirectory path).1 := by
  rw [makeDirectory]
  split
  case isTrue => exact .refl t
  case isFalse =>
    split
    case isFalse => exact grows_makeDirectoriesFrom
    case isTrue =>
      have hgrows : t.Grows (t.makeDirectoriesFrom (t.start (.ofString path))
          (Path.ofString path).names.dropLast).1 := grows_makeDirectoriesFrom
      split
      case h_1 made hmade =>
        rw [hmade] at hgrows
        split <;> exact hgrows
      case h_2 => exact hgrows

theorem grows_makeInFront (path : String) : t.Grows (t.makeInFront path).1 := by
  rw [makeInFront]
  split
  · exact grows_makeDirectoriesFrom
  · exact .refl t

end

/-! ## Files that are written -/

section

variable {t t' : Tree} {place other : List String} {path content : String}

theorem isDirectory_put_file (hplace : t.isDirectory place = false) (other : List String) :
    (t.put place (.file content)).isDirectory other = t.isDirectory other := by
  have hne : place ≠ [] := by
    rintro rfl
    cases hplace
  rw [Tree.isDirectory, Tree.isDirectory, lookup_put hne]
  split
  case isTrue heq =>
    subst heq
    rw [Tree.isDirectory] at hplace
    simpa using hplace
  case isFalse => rfl

/-- A file in a place that was no directory's is in no path's way. -/
theorem locate?_put_file (hplace : t.isDirectory place = false) :
    ∀ (names base : List String),
      (t.put place (.file content)).locate? base names = t.locate? base names
  | [], _ => rfl
  | name :: names, base => by
      rw [Tree.locate?, Tree.locate?, isDirectory_put_file hplace]
      simp only [locate?_put_file hplace names]

theorem locate?_append (t : Tree) (more : List String) : ∀ (names base : List String),
    t.locate? base (names ++ more) = (t.locate? base names).bind fun q => t.locate? q more
  | [], _ => rfl
  | name :: names, base => by
      rw [List.cons_append, Tree.locate?, Tree.locate?]
      split
      case isTrue => rfl
      case isFalse =>
        split
        case isTrue => exact locate?_append t more names base.dropLast
        case isFalse =>
          split
          case isTrue => exact locate?_append t more names (base ++ [name])
          case isFalse => rfl

/-- A path leads to a place at which a file with a text stands. -/
structure HoldsAt (t : Tree) (path : String) (place : List String) (content : String) : Prop where
  isPath : Files.isPath path = true
  toDirectory : (Path.ofString path).toDirectory = false
  locate : t.locate? (t.start (.ofString path)) (Path.ofString path).names = some place
  entry : t.entry? place = some (.file content)

theorem HoldsAt.read (h : t.HoldsAt path place content) : t.read path = .text content := by
  rw [Tree.read, if_pos h.isPath, h.locate, Option.bind_some, h.entry]
  simp [h.toDirectory]

/-- A text is read from a file that stands somewhere. -/
theorem exists_entry_of_read (h : t.read path = .text content) :
    ∃ place, t.entry? place = some (.file content) := by
  rw [Tree.read] at h
  split at h
  case h_1 => cases h
  case h_2 => cases h
  case h_3 found hfound =>
    split at h
    case isTrue => cases h
    case isFalse =>
      cases h
      split at hfound
      case isTrue =>
        obtain ⟨place, -, hentry⟩ := Option.bind_eq_some_iff.mp hfound
        exact ⟨place, hentry⟩
      case isFalse => cases hfound

theorem HoldsAt.grows (h : t.HoldsAt path place content) (hgrows : t.Grows t') :
    t'.HoldsAt path place content where
  isPath := h.isPath
  toDirectory := h.toDirectory
  locate := by
    rw [hgrows.start]
    exact hgrows.locate? h.locate
  entry := hgrows.entry h.entry

theorem HoldsAt.put_file {written : String} (h : t.HoldsAt path place content)
    (hother : t.isDirectory other = false) (hne : place ≠ other) :
    (t.put other (.file written)).HoldsAt path place content where
  isPath := h.isPath
  toDirectory := h.toDirectory
  locate := (locate?_put_file hother _ _).trans h.locate
  entry := by
    have hroot : other ≠ [] := by
      rintro rfl
      cases hother
    rw [lookup_put hroot, if_neg hne, h.entry]

/-- Writing a file first lets the tree grow and then puts the file at its place, which is no
directory's. -/
theorem exists_write (h : t.write path content = (t', .ok ())) :
    ∃ (made : Tree) (place : List String), t.Grows made ∧
      made.locate? (made.start (.ofString path)) (Path.ofString path).names = some place ∧
      made.isDirectory place = false ∧ t' = made.put place (.file content) ∧
      t'.HoldsAt path place content := by
  have hgrows := grows_makeInFront (t := t) path
  rw [Tree.write] at h
  split at h
  case h_2 hfailed => exact (hfailed t' h).elim
  case h_1 made hmade =>
    rw [hmade] at hgrows
    split at h
    case isFalse => cases h
    case isTrue hpath =>
      rw [Tree.fill] at h
      split at h
      case h_1 => cases h
      case h_2 place hlocate =>
        split at h
        case isTrue => cases h
        case isFalse hfree =>
          cases h
          rw [Bool.or_eq_true, not_or, Bool.not_eq_true, Bool.not_eq_true] at hfree
          refine ⟨made, place, hgrows, hlocate, hfree.1, rfl, hpath, hfree.2, ?_, ?_⟩
          · exact (locate?_put_file hfree.1 _ _).trans hlocate
          · have hroot : place ≠ [] := by
              rintro rfl
              cases hfree.1
            rw [lookup_put hroot, if_pos rfl]

end

end Tree

end DesignTokens.Files
