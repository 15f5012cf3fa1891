import DesignTokens.Proofs.Bytewise.Edits
import DesignTokens.Proofs.Bytewise.Rename
import DesignTokens.Proofs.Policy
import DesignTokens.Source.Structure

/-!
# Applying a mapping set by bytes

The whole rewriting, the structure check and the search for the variant block
are put together from the programs of the other modules. On every text, for every
mapping set and every valid policy, they give what the library gives, and so come
to an end without a trap (`runs_bytewise`): no place is outside the text, no slice
is cut inside a character or backwards, no number falls below nothing and no loop
stands still. Of the policy, only the names that are reserved matter: they are
identifiers, so a site of one starts and ends where characters do.
-/

namespace DesignTokens.Bytewise

open Text Source Rewrite

/-! ## Reserved names -/

/-- The program of one renaming, given the variant block of the text. -/
def renamingProgram (block : Block) (reserved renamed : String) : Program := fun text => do
  let es ← objectEntries text block.opening block.closing
  if !(es.any fun e => !e.quoted && e.key = reserved.toList) then return none
  else do
    let free ← freeName text renamed
    let places ← renamedSites reserved.toList text
    match places with
    | [] => return none
    | first :: _ => do
      let before ← snippet text first (first + byteLength reserved.toList)
      let changed ← renameFrom text reserved.toList free.toList 0 places
      let after ← snippet changed first (first + byteLength free.toList)
      return some (changed,
        { pass := .reservedNames
          issueId := none
          description := "renamed " ++ toString places.length ++ " occurrence(s) of reserved `"
            ++ reserved ++ "` to `" ++ free ++ "`"
          before := before
          after := after })

/-- The text and the records behind the renamings of a policy. Without a variant block there is
nothing more to do. -/
def runRenamings (call : List Char) :
    List (String × String) → List Char → Run (List Char × List Record)
  | [], text => return (text, [])
  | (reserved, renamed) :: renamings, text => do
    match ← variantBlock call text with
    | none => return (text, [])
    | some block => do
      match ← renamingProgram block reserved renamed text with
      | none => runRenamings call renamings text
      | some (changed, record) => do
        let (last, records) ← runRenamings call renamings changed
        return (last, record :: records)

/-- Without a variant block no name is renamed. -/
theorem runEdits_of_variantBlock_none {call text : List Char} (h : variantBlock? call text = none)
    (renamings : List (String × String)) :
    runEdits (reservedEdits call renamings) text = (text, []) := by
  refine runEdits_of_forall_none fun e he => ?_
  obtain ⟨r, -, rfl⟩ := List.mem_map.mp he
  have hnone : isDimension call r.1.toList text = false := by rw [isDimension, h]
  rw [reservedEdit, hnone]
  rfl

theorem renamingProgram_eq {call text : List Char} {block : Block} {reserved : String}
    (hname : IsName reserved.toList) (hblock : variantBlock? call text = some block)
    (renamed : String) : renamingProgram (blockBytes text block) reserved renamed text
      = .ok (reservedEdit call reserved renamed text) := by
  have hdimension : isDimension call reserved.toList text
      = (entries text block.opening block.closing).any
          fun e => !e.quoted && e.key = reserved.toList := by
    rw [isDimension, hblock]
  rw [renamingProgram, blockBytes, objectEntries_eq (matchingBrace_of_variantBlock hblock)
    (opening_of_variantBlock hblock), ok_bind, any_entryBytes, ← hdimension, reservedEdit]
  dsimp only
  split
  case isTrue => rfl
  case isFalse =>
    have hrename := renameFrom_eq hname (Rewrite.freeName text renamed).toList
      (pairwise_renamedSites hname.ne_nil text) (fun p _ => Nat.zero_le p)
      (fun p hp => stands_of_mem_renamedSites hname.ne_nil hp) (Nat.zero_le text.length)
    rw [freeName_eq, ok_bind, renamedSites_eq hname, ok_bind]
    rw [show byteOffset text 0 = 0 from rfl, List.drop_zero] at hrename
    cases hplaces : Rewrite.renamedSites reserved.toList text with
    | nil => rfl
    | cons first places =>
        rw [hplaces, List.map_cons] at hrename
        rw [List.map_cons]
        dsimp only
        rw [snippet_eq _ (Nat.le_add_right ..), ok_bind, hrename, ok_bind,
          snippet_eq _ (Nat.le_add_right ..), ok_bind, List.length_cons, List.length_map]
        rfl

/-- The renamings are made without a trap. -/
theorem runRenamings_eq (call : List Char) : ∀ {renamings : List (String × String)}
    (text : List Char), (∀ r ∈ renamings, IsName r.1.toList) →
      runRenamings call renamings text = .ok (runEdits (reservedEdits call renamings) text)
  | [], _, _ => rfl
  | (reserved, renamed) :: renamings, text, h => by
      obtain ⟨hname, hlater⟩ := List.forall_mem_cons.mp h
      rw [runRenamings, variantBlock_eq, ok_bind]
      cases hblock : variantBlock? call text with
      | none => exact congrArg Except.ok (runEdits_of_variantBlock_none hblock _).symm
      | some block =>
          rw [Option.map_some]
          dsimp only
          rw [renamingProgram_eq hname hblock, ok_bind, reservedEdits, List.map_cons, runEdits]
          cases reservedEdit call reserved renamed text with
          | none => exact runRenamings_eq call text hlater
          | some r =>
              dsimp only
              rw [runRenamings_eq call r.1 hlater]
              rfl

/-! ## The passes -/

/-- The program of a pass. -/
def runPass (m : MappingSet) (policy : Policy) :
    Pass → List Char → Run (List Char × List Record)
  | .colors => runPrograms (m.colors.map colorProgram)
  | .spacing => runPrograms ((winners m.spacing).map spacingProgram)
  | .variants => runPrograms (m.variants.map (variantProgram policy.variantCall.toList))
  | .reservedNames => runRenamings policy.variantCall.toList policy.reserved

/-- The text and the records behind a row of passes. -/
def runPasses (m : MappingSet) (policy : Policy) :
    List Pass → List Char → Run (List Char × List Record)
  | [], text => return (text, [])
  | p :: ps, text => do
    let (changed, records) ← runPass m policy p text
    let (last, later) ← runPasses m policy ps changed
    return (last, records ++ later)

/-- Applies a mapping set and keeps the records. -/
def applyTraced (text : List Char) (m : MappingSet) (policy : Policy) : Run Result := do
  let (changed, records) ← runPasses m policy Pass.all text
  return ⟨version, changed, records, Stats.of records⟩

section

variable {policy : Policy} (m : MappingSet)

theorem runPass_eq (hpolicy : policy.Valid) (text : List Char) : ∀ p : Pass,
    runPass m policy p text = .ok (runEdits (p.edits m policy) text)
  | .colors => runPrograms_map fun _ _ => performs_colorProgram _
  | .spacing => runPrograms_map fun _ _ => performs_spacingProgram _
  | .variants => runPrograms_map fun _ _ => performs_variantProgram _ _
  | .reservedNames => runRenamings_eq _ text fun _ hr => (hpolicy.isName_reserved hr).1

theorem runPasses_eq (hpolicy : policy.Valid) : ∀ (ps : List Pass) (text : List Char),
    runPasses m policy ps text = .ok (Rewrite.runPasses m policy ps text)
  | [], _ => rfl
  | p :: ps, text => by
      rw [runPasses, runPass_eq m hpolicy, ok_bind, Rewrite.runPasses]
      dsimp only
      rw [runPasses_eq hpolicy ps]
      rfl

theorem applyTraced_eq (hpolicy : policy.Valid) (text : List Char) :
    applyTraced text m policy = .ok (Rewrite.applyTraced text m policy) := by
  rw [applyTraced, runPasses_eq m hpolicy]
  rfl

end

/-! ## The structure check -/

/-- What the structure check finds in a text, given the name of the variant call. -/
def checkStructure (call text : List Char) : Run StructureCheck := do
  let found ← codeBetween text 0 (byteLength text)
  let code := found.map (·.2)
  let errors :=
    (balanceError? "braces" (code.count '\x7b') (code.count '\x7d')).toList
      ++ (balanceError? "parentheses" (code.count '(') (code.count ')')).toList
      ++ (if (callPattern call).occurs text then []
          else ["missing `" ++ String.ofList call ++ "(` variant definition call"])
      ++ (if holdsName "export".toList text then [] else ["missing export statement"])
  return ⟨errors.isEmpty, errors⟩

/-- In code, an ASCII character is counted as often among the bytes as among the characters. -/
theorem count_codePlaces {x : Char} (hx : isAscii x = true) : ∀ (divided : List (Char × Region))
    (q : Nat), ((codePlaces q (markBytes divided)).map (·.2)).count x
      = (divided.filterMap fun (c, r) => if r = .code then some c else none).count x
  | [], _ => rfl
  | (c, r) :: divided, q => by
      have hlater := count_codePlaces hx divided (q + c.utf8Size)
      by_cases hskip : r = .code → isAscii c = false
      · obtain ⟨row, hrow, hplaces⟩ := exists_codePlaces_markBytes hskip q divided
        have hnone : (row.map (·.2)).count x = 0 := by
          refine List.count_eq_zero.mpr fun hmem => ?_
          obtain ⟨y, hy, rfl⟩ := List.mem_map.mp hmem
          exact ne_of_not_isAscii (hrow y hy) hx rfl
        rw [hplaces, List.map_append, List.count_append, hnone, Nat.zero_add, hlater,
          List.filterMap_cons]
        by_cases hr : r = .code
        · have hne : (c == x) = false := by
            simpa using ne_of_not_isAscii (hskip hr) hx
          simp only [if_pos hr, List.count_cons, hne, Bool.false_eq_true, if_false, Nat.add_zero]
        · simp only [if_neg hr]
      · simp only [Classical.not_imp, Bool.not_eq_false] at hskip
        obtain ⟨rfl, hc⟩ := hskip
        rw [codePlaces_markBytes_of_isAscii hc, List.map_cons, List.count_cons, hlater,
          List.filterMap_cons]
        exact List.count_cons.symm

theorem checkStructure_eq (call text : List Char) :
    checkStructure call text = .ok (Source.checkStructure call text) := by
  have hcount : ∀ x, isAscii x = true →
      ((codePlaces 0 (markBytes (regions text))).map (·.2)).count x = (codeChars text).count x :=
    fun x hx => count_codePlaces hx (regions text) 0
  rw [checkStructure, codeBetween_all, ok_bind, Source.checkStructure]
  simp only [hcount '\x7b' (by decide), hcount '\x7d' (by decide), hcount '(' (by decide),
    hcount ')' (by decide)]
  rfl

/-- On every text, for every mapping set and valid policy, the programs come to an end without a
trap, and give what the library gives. -/
theorem runs_bytewise (text : List Char) (m : MappingSet) {policy : Policy}
    (hpolicy : policy.Valid) :
    applyTraced text m policy = .ok (Rewrite.applyTraced text m policy) ∧
      checkStructure policy.variantCall.toList text
        = .ok (Source.checkStructure policy.variantCall.toList text) ∧
      variantBlock policy.variantCall.toList text
        = .ok ((variantBlock? policy.variantCall.toList text).map (blockBytes text)) :=
  ⟨applyTraced_eq m hpolicy text, checkStructure_eq _ text, variantBlock_eq _ text⟩

/-- Characters of several bytes, a comment with a brace, and a string that is left open. -/
def openSource : List Char :=
  "cva(\x7b variants: \x7b type: \x7b \"é\": ü \x7d \x7d \x7d) // \x7b type\n\"é\\€".toList

/-- The programs on a text that is no program, with a dimension to add and one to rename. -/
theorem runs_bytewise_openSource :
    Policy.builtin.Valid ∧
      (∃ result, applyTraced openSource { variants := [⟨"1", "size", ["ß"]⟩] } Policy.builtin
          = .ok result ∧ result.records.map (·.pass) = [.variants, .reservedNames]) ∧
      variantBlock "cva".toList openSource = .ok (some ⟨16, 37⟩) := by
  obtain ⟨happly, -, hblock⟩ :=
    runs_bytewise openSource { variants := [⟨"1", "size", ["ß"]⟩] } Policy.valid_builtin
  have hfound : (variantBlock? "cva".toList openSource).map (blockBytes openSource)
      = some ⟨16, 37⟩ := by decide
  exact ⟨Policy.valid_builtin, ⟨_, happly, by decide⟩, hblock.trans (congrArg _ hfound)⟩

end DesignTokens.Bytewise
