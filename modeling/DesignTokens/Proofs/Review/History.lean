import DesignTokens.Proofs.Review.Stage

/-!
# Previews do not depend on earlier previews

Once a component is loaded, it stays the loaded component until the session is
reset, whatever is selected, previewed, taken back or saved in between
(`loaded_run`). Each preview is that of the loaded component and of the
selection as it stands (`Preview.Of`), and what a store is handed is that
preview. So edits of one preview never find their way into another, and the
mappings of a saved component make its source from the loaded one again.
-/

namespace DesignTokens.Review

open Session

variable {policy : Policy} {advanced : Bool} {σ : Type} {s : Session} {c : Component}

/-! ## The loaded component -/

theorem loaded_ok_iff :
    s.loaded = .ok c ↔ s.spec = some c.spec ∧ s.source = some c.source := by
  rw [loaded]
  cases hspec : s.spec with
  | none => simp
  | some spec =>
      cases hsource : s.source with
      | none => simp
      | some source =>
          obtain ⟨cspec, csource⟩ := c
          simp

theorem state_ne_draft_of_loaded (h : Stage policy advanced s) (hc : s.loaded = .ok c) :
    s.state ≠ .draft := by
  intro hs
  rw [h.eq_new hs] at hc
  cases hc

theorem loaded_allowing {α : Type} {a : Action} {r : Session × Outcome α}
    (hc : s.loaded = .ok c) (hr : s.state ∈ a.allowed → r.1.loaded = .ok c) :
    (s.allowing a r).1.loaded = .ok c := by
  rw [allowing]
  split
  · rename_i hs
    exact hr hs
  · exact hc

theorem loaded_select (hc : s.loaded = .ok c) (id value : String) :
    (s.select id value).1.loaded = .ok c := by
  have hkeep := loaded_ok_iff.mp hc
  refine loaded_allowing hc fun _ => ?_
  split
  · exact loaded_ok_iff.mpr hkeep
  · exact hc

theorem loaded_deselect (hc : s.loaded = .ok c) (id : String) :
    (s.deselect id).1.loaded = .ok c := by
  have hkeep := loaded_ok_iff.mp hc
  exact loaded_allowing hc fun _ => loaded_ok_iff.mpr hkeep

theorem loaded_makePreview (hc : s.loaded = .ok c) : s.makePreview.1.loaded = .ok c := by
  have hkeep := loaded_ok_iff.mp hc
  refine loaded_allowing hc fun _ => ?_
  split
  · exact hc
  · exact hc
  · exact loaded_ok_iff.mpr hkeep

theorem loaded_commit (hc : s.loaded = .ok c) (store : Store σ) (now : String) (kept : σ) :
    (s.commit store now kept).1.loaded = .ok c := by
  have hkeep := loaded_ok_iff.mp hc
  rw [commit]
  split
  · split
    · exact hc
    · split
      · exact hc
      · exact loaded_ok_iff.mpr hkeep
  · exact hc

/-- No call but a reset puts another component in the place of the loaded one. -/
theorem loaded_perform (h : Stage policy advanced s) (hc : s.loaded = .ok c) (kept : σ)
    {call : Call σ} (hcall : call ≠ .reset) : (s.perform kept call).1.loaded = .ok c := by
  have hdraft := state_ne_draft_of_loaded h hc
  have hkeep := loaded_ok_iff.mp hc
  cases call with
  | load | generate =>
      exact loaded_allowing hc fun hs => absurd (List.mem_singleton.mp hs) hdraft
  | validate =>
      refine loaded_allowing hc fun _ => ?_
      rw [hc]
      exact loaded_ok_iff.mpr hkeep
  | select id value => exact loaded_select hc id value
  | deselect id => exact loaded_deselect hc id
  | toggle id =>
      show (s.toggle id).1.loaded = .ok c
      rw [toggle]
      split
      · exact loaded_deselect hc id
      · exact loaded_select hc id ""
  | mappings => exact hc
  | preview => exact loaded_makePreview hc
  | back => exact loaded_allowing hc fun _ => loaded_ok_iff.mpr hkeep
  | commit store now => exact loaded_commit hc store now kept
  | reset => exact absurd rfl hcall

theorem loaded_run :
    ∀ (calls : List (Call σ)) {s : Session} (kept : σ), Stage policy advanced s →
      s.loaded = .ok c → Call.reset ∉ calls → (s.run kept calls).1.loaded = .ok c
  | [], _, _, _, hc, _ => hc
  | call :: calls, s, kept, h, hc, hcalls => by
      rw [List.mem_cons, not_or] at hcalls
      exact loaded_run calls _ (h.perform kept call)
        (loaded_perform h hc kept fun heq => hcalls.1 heq.symm) hcalls.2

/-! ## Previews of the loaded component -/

/-- What a preview is, given the component, the issues and the selection. -/
structure Preview.Of (policy : Policy) (c : Component) (issues : List Issue)
    (selection : List (String × String)) (p : Preview) : Prop where
  mappings : MappingSet.ofSelection issues selection = .ok p.mappings
  text : p.text.toList = Rewrite.applyMappings c.source.toList p.mappings policy
  report : p.report = DesignTokens.validate p.text.toList c.spec policy
  scoreBefore :
    p.scoreBefore = (DesignTokens.validate c.source.toList c.spec policy).overallMatch
  scoreAfter : p.scoreAfter = p.report.overallMatch

theorem previewOf_of {issues : List Issue} {selection : List (String × String)} {m : MappingSet}
    (hm : MappingSet.ofSelection issues selection = .ok m) :
    (previewOf policy c m).Of policy c issues selection where
  mappings := hm
  text := String.toList_ofList ..
  report := by simp [previewOf, Preview.of]
  scoreBefore := rfl
  scoreAfter := rfl

theorem Stage.preview_of (h : Stage policy advanced s) (hc : s.loaded = .ok c) {p : Preview}
    (hp : s.preview = some p) : p.Of policy c s.issues s.selection := by
  cases h with
  | draft | generated | validated | mappingSelected => cases hp
  | previewed c' hsel hne hm | saved c' hsel hne hm =>
      obtain ⟨⟩ := hc
      obtain ⟨⟩ := hp
      exact previewOf_of hm

theorem makePreview_of_ok {p : Preview} (hp : s.makePreview.2 = .ok p) :
    s.makePreview.1 = { s with preview := some p, state := .previewed } := by
  rw [makePreview, allowing] at hp ⊢
  split at hp
  · rename_i hs
    rw [if_pos hs]
    split at hp
    · cases hp
    · cases hp
    · obtain ⟨⟩ := hp
      rfl
  · cases hp

theorem Stage.makePreview_of (h : Stage policy advanced s) (hc : s.loaded = .ok c) {p : Preview}
    (hp : s.makePreview.2 = .ok p) :
    s.makePreview.1.preview = some p ∧ p.Of policy c s.issues s.selection := by
  have hnext := h.makePreview.preview_of (loaded_makePreview hc) (p := p)
  rw [makePreview_of_ok hp] at hnext ⊢
  exact ⟨rfl, hnext rfl⟩

/-- A store that takes a component has been handed the preview, with the loaded spec. -/
theorem Stage.commit_of (h : Stage policy advanced s) (hc : s.loaded = .ok c) {store : Store σ}
    {now location : String} {kept kept' : σ}
    (hok : (s.commit store now kept).2 = (kept', .ok location)) :
    ∃ p, s.preview = some p
      ∧ store ⟨c.spec.name, now, c.spec, p.text, p.report, p.mappings⟩ kept
        = (kept', .ok location) := by
  rw [Session.commit] at hok
  split at hok
  · rename_i hs
    cases h with
    | previewed c' hsel hne hm =>
        obtain ⟨⟩ := hc
        refine ⟨_, rfl, ?_⟩
        split at hok
        · cases hok
        · rename_i record hrecord
          obtain ⟨⟩ := hrecord
          split at hok
          · cases hok
          · rename_i hstore
            obtain ⟨⟩ := hok
            exact hstore
    | draft | generated | validated | mappingSelected | saved => simp [Action.allowed] at hs
  · cases hok

/-- The course of a review after a component has been loaded, up to a reset and for any calls:
the component stays, each preview is that of the component and the selection at hand, and a
store is handed just that preview, whose mappings make the saved source from the loaded one. -/
theorem preview_of_run (h : Reachable policy advanced s) (hc : s.loaded = .ok c)
    (calls : List (Call σ)) (hcalls : Call.reset ∉ calls) (kept : σ) :
    let t := (s.run kept calls).1
    t.loaded = .ok c
      ∧ (∀ p, t.preview = some p → p.Of policy c t.issues t.selection)
      ∧ (∀ p, t.makePreview.2 = .ok p →
        t.makePreview.1.preview = some p ∧ p.Of policy c t.issues t.selection)
      ∧ (∀ {τ : Type} (store : Store τ) (now location : String) (before after : τ),
        (t.commit store now before).2 = (after, .ok location) →
        ∃ p, t.preview = some p
          ∧ store ⟨c.spec.name, now, c.spec, p.text, p.report, p.mappings⟩ before
            = (after, .ok location)
          ∧ Rewrite.applyMappings c.source.toList p.mappings policy = p.text.toList) := by
  intro t
  have ht : Stage policy advanced t := (h.run calls kept).stage
  have hct : t.loaded = .ok c := loaded_run calls kept h.stage hc hcalls
  refine ⟨hct, fun p => ht.preview_of hct, fun p => ht.makePreview_of hct, ?_⟩
  intro τ store now location before after hok
  obtain ⟨p, hp, hstore⟩ := ht.commit_of hct hok
  exact ⟨p, hp, hstore, (ht.preview_of hct hp).text.symm⟩

/-- A second preview after a first one has been taken back: it starts from the loaded source. -/
theorem preview_of_run_after_back :
    let s := ((Session.new .builtin false).run () [.load ⟨{}, "#fff"⟩]).1
    let calls : List (Call Unit) :=
      [.validate, .select "color-84fde1e261" "bg-muted", .preview, .back,
       .select "color-84fde1e261" "bg-card", .preview]
    let t := (s.run () calls).1
    Reachable .builtin false s ∧ s.loaded = .ok ⟨{}, "#fff"⟩ ∧ Call.reset ∉ calls
      ∧ t.preview.map (·.text) = some "bg-card"
      ∧ t.loaded = .ok ⟨{}, "#fff"⟩
      ∧ (∀ p, t.preview = some p → p.Of .builtin ⟨{}, "#fff"⟩ t.issues t.selection) := by
  intro s calls t
  have h : Reachable .builtin false s := .run [.load ⟨{}, "#fff"⟩] () .new
  have hc : s.loaded = .ok ⟨{}, "#fff"⟩ := rfl
  have hcalls : Call.reset ∉ calls := by simp [calls]
  obtain ⟨ht, hp, -⟩ := preview_of_run h hc calls hcalls ()
  exact ⟨h, hc, hcalls, by decide +kernel, ht, hp⟩

end DesignTokens.Review
