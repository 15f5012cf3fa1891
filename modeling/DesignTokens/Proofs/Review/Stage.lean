import DesignTokens.Proofs.Json.Members
import DesignTokens.Proofs.MappingSet
import DesignTokens.Proofs.Review.Run

/-!
# The stages of a review

A session has many fields, but what it can hold is little: in each state it is
made from the loaded component, the selection and the mapping set of the
preview in one way only. `Stage` says which way, with one case for each state,
and every call keeps it (`Stage.perform`), so that every reachable session is
at a stage (`Reachable.stage`). What the other modules say about reachable
sessions is read off the stages.

The report and the issues of a stage are functions of the component, and the
preview is a function of the component and the mapping set. That is why nothing
of an earlier preview or selection can be left in a later one.
-/

namespace DesignTokens.Review

/-! ## Selections -/

/-- The ids of a selection are distinct and those of issues. -/
structure Selectable (issues : List Issue) (selection : List (String × String)) : Prop where
  distinct : (selection.map (·.1)).Nodup
  known : ∀ choice ∈ selection, ∃ i ∈ issues, i.id = choice.1

namespace Selectable

variable {issues : List Issue} {selection : List (String × String)}

theorem nil : Selectable issues [] :=
  ⟨List.nodup_nil, fun _ h => (List.not_mem_nil h).elim⟩

theorem put (h : Selectable issues selection) {id : String} (value : String)
    (hid : ∃ i ∈ issues, i.id = id) : Selectable issues (Json.putMember id value selection) := by
  refine ⟨Json.nodup_putMember h.distinct, fun choice hc => ?_⟩
  have hkey := Json.mem_map_fst_putMember.mp (List.mem_map_of_mem (f := (·.1)) hc)
  rcases hkey with heq | hold
  · exact heq ▸ hid
  · obtain ⟨old, hmem, heq⟩ := List.mem_map.mp hold
    exact heq ▸ h.known old hmem

theorem filter (h : Selectable issues selection) (p : String × String → Bool) :
    Selectable issues (selection.filter p) :=
  ⟨h.distinct.sublist (List.filter_sublist.map _),
   fun choice hc => h.known choice (List.mem_filter.mp hc).1⟩

end Selectable

theorem Session.hasIssue_iff {s : Session} {id : String} :
    s.hasIssue id = true ↔ ∃ i ∈ s.issues, i.id = id := by
  simp [Session.hasIssue]

/-! ## Sessions made from what they are about -/

open Session

section Stage

variable (policy : Policy) (advanced : Bool)

/-- The report on a component. -/
def reportOn (c : Component) : Report := DesignTokens.validate c.source.toList c.spec policy

/-- The issues that a component is offered with. -/
def issuesOf (c : Component) : List Issue :=
  (Session.new policy advanced).offers c (reportOn policy c)

/-- The preview of a mapping set. -/
def previewOf (c : Component) (m : MappingSet) : Preview :=
  Preview.of c m policy (reportOn policy c).overallMatch

namespace Session

/-- The session in which a component has been loaded. -/
def ofLoaded (c : Component) : Session :=
  { new policy advanced with
    state := .generated
    spec := some c.spec
    source := some c.source }

/-- The session in which the loaded component has been validated. -/
def ofValidated (c : Component) : Session :=
  { ofLoaded policy advanced c with
    state := .validated
    report := some (reportOn policy c)
    issues := issuesOf policy advanced c }

/-- The session in which a selection has been made. -/
def ofSelected (c : Component) (selection : List (String × String)) : Session :=
  { ofValidated policy advanced c with
    state := .mappingSelected
    selection }

/-- The session in which the mapping set of a selection is previewed. -/
def ofPreviewed (c : Component) (selection : List (String × String)) (m : MappingSet) : Session :=
  { ofSelected policy advanced c selection with
    state := .previewed
    preview := some (previewOf policy c m) }

/-- The session in which a preview has been saved. -/
def ofSaved (c : Component) (selection : List (String × String)) (m : MappingSet) : Session :=
  { ofPreviewed policy advanced c selection m with state := .saved }

variable {policy advanced}

@[simp] theorem new_state : (new policy advanced).state = .draft := rfl

@[simp] theorem ofLoaded_state (c : Component) :
    (ofLoaded policy advanced c).state = .generated := rfl

@[simp] theorem ofValidated_state (c : Component) :
    (ofValidated policy advanced c).state = .validated := rfl

@[simp] theorem ofSelected_state (c : Component) (selection : List (String × String)) :
    (ofSelected policy advanced c selection).state = .mappingSelected := rfl

@[simp] theorem ofPreviewed_state (c : Component) (selection : List (String × String))
    (m : MappingSet) : (ofPreviewed policy advanced c selection m).state = .previewed := rfl

@[simp] theorem ofSaved_state (c : Component) (selection : List (String × String))
    (m : MappingSet) : (ofSaved policy advanced c selection m).state = .saved := rfl

end Session

/-- What a session holds in each state. -/
inductive Stage : Session → Prop
  | draft : Stage (new policy advanced)
  | generated (c : Component) : Stage (ofLoaded policy advanced c)
  | validated (c : Component) : Stage (ofValidated policy advanced c)
  | mappingSelected (c : Component) {selection : List (String × String)}
      (hsel : Selectable (issuesOf policy advanced c) selection) (hne : selection ≠ []) :
      Stage (ofSelected policy advanced c selection)
  | previewed (c : Component) {selection : List (String × String)} {m : MappingSet}
      (hsel : Selectable (issuesOf policy advanced c) selection) (hne : selection ≠ [])
      (hm : MappingSet.ofSelection (issuesOf policy advanced c) selection = .ok m) :
      Stage (ofPreviewed policy advanced c selection m)
  | saved (c : Component) {selection : List (String × String)} {m : MappingSet}
      (hsel : Selectable (issuesOf policy advanced c) selection) (hne : selection ≠ [])
      (hm : MappingSet.ofSelection (issuesOf policy advanced c) selection = .ok m) :
      Stage (ofSaved policy advanced c selection m)

end Stage

variable {policy : Policy} {advanced : Bool} {σ : Type} {s : Session}

/-! ## Stages by state -/

theorem Stage.eq_new (h : Stage policy advanced s) (hs : s.state = .draft) :
    s = Session.new policy advanced := by
  cases h with
  | draft => rfl
  | generated | validated | mappingSelected | previewed | saved => cases hs

/-- Past the draft there is a component. -/
theorem Stage.loaded (h : Stage policy advanced s) (hs : s.state ≠ .draft) :
    ∃ c, s.loaded = .ok c := by
  cases h with
  | draft => exact absurd rfl hs
  | generated c | validated c | mappingSelected c | previewed c | saved c => exact ⟨c, rfl⟩

theorem Stage.selectable (h : Stage policy advanced s) : Selectable s.issues s.selection := by
  cases h with
  | draft | generated | validated => exact .nil
  | mappingSelected c hsel | previewed c hsel | saved c hsel => exact hsel

theorem Session.mappings_of_ofSelection {m : MappingSet}
    (hm : MappingSet.ofSelection s.issues s.selection = .ok m) : s.mappings = .ok m := by
  rw [Session.mappings, hm]
  rfl

/-- The selection of a stage always makes a mapping set. -/
theorem Stage.ofSelection (h : Stage policy advanced s) :
    ∃ m, MappingSet.ofSelection s.issues s.selection = .ok m :=
  MappingSet.exists_ofSelection h.selectable.known

/-! ## Operations on stages

Each operation is taken from the states that allow it; anywhere else it gives
back the session as it was (`Stage.allowing`). -/

theorem Stage.allowing {α : Type} {a : Action} {r : Session × Outcome α}
    (h : Stage policy advanced s) (hr : s.state ∈ a.allowed → Stage policy advanced r.1) :
    Stage policy advanced (s.allowing a r).1 := by
  rw [Session.allowing]
  split
  · rename_i hs
    exact hr hs
  · exact h

theorem Stage.load (h : Stage policy advanced s) (c : Component) :
    Stage policy advanced (s.load c).1 := by
  refine h.allowing fun hs => ?_
  rw [h.eq_new (List.mem_singleton.mp hs)]
  exact .generated c

theorem Stage.generate (h : Stage policy advanced s) (service : Generator) (prompt : String) :
    Stage policy advanced (s.generate service prompt).1 := by
  refine h.allowing fun _ => ?_
  split
  · exact h
  · exact h.load _

theorem Stage.validate (h : Stage policy advanced s) : Stage policy advanced s.validate.1 := by
  refine h.allowing fun hs => ?_
  cases h with
  | generated c | validated c => exact .validated c
  | draft | mappingSelected | previewed | saved => simp [Action.allowed] at hs

/-- Selecting and deselecting leave a session about the same component, with the given selection. -/
theorem Stage.withSelection (c : Component) {selection : List (String × String)}
    (hsel : Selectable (issuesOf policy advanced c) selection) :
    Stage policy advanced
      { ofValidated policy advanced c with
        selection
        state := if selection.isEmpty then .validated else .mappingSelected } := by
  cases selection with
  | nil => exact .validated c
  | cons choice rest => exact .mappingSelected c hsel (List.cons_ne_nil _ _)

theorem Stage.select (h : Stage policy advanced s) (id value : String) :
    Stage policy advanced (s.select id value).1 := by
  refine h.allowing fun hs => ?_
  split
  · rename_i hid
    rw [hasIssue_iff] at hid
    have hput := h.selectable.put value hid
    have hne := Json.putMember_ne_nil id value s.selection
    cases h with
    | validated c | mappingSelected c | previewed c => exact .mappingSelected c hput hne
    | draft | generated | saved => simp [Action.allowed] at hs
  · exact h

theorem Stage.deselect (h : Stage policy advanced s) (id : String) :
    Stage policy advanced (s.deselect id).1 := by
  refine h.allowing fun hs => ?_
  have hrest := h.selectable.filter fun choice => choice.1 ≠ id
  cases h with
  | mappingSelected c | previewed c => exact .withSelection c hrest
  | draft | generated | validated | saved => simp [Action.allowed] at hs

theorem Stage.toggle (h : Stage policy advanced s) (id : String) :
    Stage policy advanced (s.toggle id).1 := by
  rw [Session.toggle]
  split
  · exact h.deselect id
  · exact h.select id ""

theorem Stage.makePreview (h : Stage policy advanced s) :
    Stage policy advanced s.makePreview.1 := by
  refine h.allowing fun hs => ?_
  obtain ⟨m, hm⟩ := h.ofSelection
  have hmappings := Session.mappings_of_ofSelection hm
  cases h with
  | mappingSelected c hsel hne =>
      rw [hmappings]
      exact .previewed c hsel hne hm
  | draft | generated | validated | previewed | saved => simp [Action.allowed] at hs

theorem Stage.back (h : Stage policy advanced s) : Stage policy advanced s.back.1 := by
  refine h.allowing fun hs => ?_
  cases h with
  | previewed c hsel hne => exact .mappingSelected c hsel hne
  | draft | generated | validated | mappingSelected | saved => simp [Action.allowed] at hs

theorem Stage.commit (h : Stage policy advanced s) (store : Store σ) (now : String) (kept : σ) :
    Stage policy advanced (s.commit store now kept).1 := by
  rw [Session.commit]
  split
  · rename_i hs
    split
    · exact h
    · split
      · exact h
      · cases h with
        | previewed c hsel hne hm => exact .saved c hsel hne hm
        | draft | generated | validated | mappingSelected | saved =>
            simp [Action.allowed] at hs
  · exact h

theorem Stage.reset (h : Stage policy advanced s) : Stage policy advanced s.reset := by
  cases h with
  | draft | generated | validated | mappingSelected | previewed | saved => exact .draft

/-! ## Calls and runs -/

/-- Every call leads from a stage to a stage, whatever its outcome. -/
theorem Stage.perform (h : Stage policy advanced s) (kept : σ) (call : Call σ) :
    Stage policy advanced (s.perform kept call).1 := by
  cases call with
  | load c => exact h.load c
  | generate service prompt => exact h.generate service prompt
  | validate => exact h.validate
  | select id value => exact h.select id value
  | deselect id => exact h.deselect id
  | toggle id => exact h.toggle id
  | mappings => exact h
  | preview => exact h.makePreview
  | back => exact h.back
  | commit store now => exact h.commit store now kept
  | reset => exact h.reset

/-- Every reachable session is at a stage. -/
theorem Reachable.stage (h : Reachable policy advanced s) : Stage policy advanced s := by
  induction h with
  | new => exact .draft
  | step kept call _ ih => exact ih.perform kept call

end DesignTokens.Review
