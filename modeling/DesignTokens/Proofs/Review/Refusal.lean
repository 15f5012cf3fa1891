import DesignTokens.Proofs.Review.Stage

/-!
# Refused calls

A call that ends in a failure leaves the session as it was; this needs no
invariant (`perform_unchanged`). `Refusal` lists the reasons for which a call of
a reachable session fails, each with its failure, and `perform_error_iff` says
that they are all the reasons there are and that each of them does refuse the
call. The failures of a missing component, of a missing preview and of a
selection with an unknown id are no reasons: in the states that allow the
operations, stages exclude them.
-/

namespace DesignTokens.Review

open Session

variable {policy : Policy} {advanced : Bool} {σ : Type} {s : Session} {f : Failure}

/-! ## The action of a call -/

/-- The action that a call has to be allowed; a toggle selects or deselects. -/
def Call.action? (s : Session) : Call σ → Option Action
  | .load _ => some .load
  | .generate _ _ => some .generate
  | .validate => some .validate
  | .select _ _ => some .select
  | .deselect _ => some .deselect
  | .toggle id => some (if s.isSelected id then .deselect else .select)
  | .mappings => none
  | .preview => some .preview
  | .back => some .back
  | .commit _ _ => some .commit
  | .reset => none

/-- The issue that a call asks to be selected. -/
def Call.named? : Call σ → Option String
  | .select id _ => some id
  | .toggle id => some id
  | _ => none

/-- The reasons for which a call is refused. -/
inductive Refusal (s : Session) (kept : σ) : Call σ → Failure → Prop
  | notAllowed {call : Call σ} {a : Action} (ha : call.action? s = some a)
      (hs : s.state ∉ a.allowed) : Refusal s kept call (.invalidTransition s.state a)
  | unknownIssue {call : Call σ} {id : String} (hid : call.named? = some id)
      (hs : s.state ∈ Action.select.allowed) (hno : ∀ i ∈ s.issues, i.id ≠ id) :
      Refusal s kept call (.unknownIssue id)
  | service {service : Generator} {prompt : String} {f : Failure} (hs : s.state = .draft)
      (h : service prompt = .error f) : Refusal s kept (.generate service prompt) f
  | response {service : Generator} {prompt raw : String} {f : Failure} (hs : s.state = .draft)
      (h : service prompt = .ok raw) (hraw : Component.ofResponse raw = .error f) :
      Refusal s kept (.generate service prompt) f
  | store {store : Store σ} {now : String} {record : SavedComponent} {f : Failure}
      (hs : s.state = .previewed) (hrecord : s.toSave now = .ok record)
      (h : (store record kept).2 = .error f) : Refusal s kept (.commit store now) f

/-! ## Refused calls change nothing -/

section Unchanged

variable {α : Type}

theorem allowing_unchanged {a : Action} {r : Session × Outcome α}
    (hr : r.2 = .error f → r.1 = s) (h : (s.allowing a r).2 = .error f) :
    (s.allowing a r).1 = s := by
  rw [allowing] at h ⊢
  split at h
  · rename_i hs
    rw [if_pos hs]
    exact hr h
  · rename_i hs
    rw [if_neg hs]

theorem load_unchanged {c : Component} (h : (s.load c).2 = .error f) : (s.load c).1 = s :=
  allowing_unchanged (fun hr => by cases hr) h

theorem generate_unchanged {service : Generator} {prompt : String}
    (h : (s.generate service prompt).2 = .error f) : (s.generate service prompt).1 = s := by
  refine allowing_unchanged (fun hr => ?_) h
  split at hr
  · rfl
  · exact load_unchanged hr

theorem validate_unchanged (h : s.validate.2 = .error f) : s.validate.1 = s := by
  refine allowing_unchanged (fun hr => ?_) h
  split at hr
  · rfl
  · cases hr

theorem select_unchanged {id value : String} (h : (s.select id value).2 = .error f) :
    (s.select id value).1 = s := by
  refine allowing_unchanged (fun hr => ?_) h
  split at hr
  · cases hr
  · rename_i hid
    rw [if_neg hid]

theorem deselect_unchanged {id : String} (h : (s.deselect id).2 = .error f) :
    (s.deselect id).1 = s :=
  allowing_unchanged (fun hr => by cases hr) h

theorem map_eq_error {ε β : Type} {wrap : α → β} {o : Except ε α} {e : ε} :
    o.map wrap = .error e ↔ o = .error e := by
  cases o with
  | error e' => exact ⟨fun h => by cases h; rfl, fun h => by cases h; rfl⟩
  | ok a => exact ⟨fun h => (by cases h), fun h => (by cases h)⟩

theorem toggle_of_selected {id : String} (hid : s.isSelected id = true) :
    s.toggle id = ((s.deselect id).1, (s.deselect id).2.map fun _ => false) := by
  rw [toggle, if_pos hid]

theorem toggle_of_not_selected {id : String} (hid : ¬ s.isSelected id = true) :
    s.toggle id = ((s.select id "").1, (s.select id "").2.map fun _ => true) := by
  rw [toggle, if_neg hid]

theorem toggle_unchanged {id : String} (h : (s.toggle id).2 = .error f) :
    (s.toggle id).1 = s := by
  by_cases hid : s.isSelected id = true
  · rw [toggle_of_selected hid] at h ⊢
    exact deselect_unchanged (map_eq_error.mp h)
  · rw [toggle_of_not_selected hid] at h ⊢
    exact select_unchanged (map_eq_error.mp h)

theorem makePreview_unchanged (h : s.makePreview.2 = .error f) : s.makePreview.1 = s := by
  refine allowing_unchanged (fun hr => ?_) h
  split at hr
  · rfl
  · rfl
  · cases hr

theorem back_unchanged (h : s.back.2 = .error f) : s.back.1 = s :=
  allowing_unchanged (fun hr => by cases hr) h

theorem commit_unchanged {store : Store σ} {now : String} {kept : σ}
    (h : (s.commit store now kept).2.2 = .error f) : (s.commit store now kept).1 = s := by
  rw [commit] at h ⊢
  split at h
  · rename_i hs
    rw [if_pos hs]
    split at h
    · rfl
    · split at h
      · rfl
      · cases h
  · rename_i hs
    rw [if_neg hs]

/-- A failed call leaves the session as it was, whatever session it is. -/
theorem perform_unchanged {kept : σ} {call : Call σ} (h : (s.perform kept call).2.2 = .error f) :
    (s.perform kept call).1 = s := by
  cases call with
  | load c => exact load_unchanged (map_eq_error.mp h)
  | generate service prompt => exact generate_unchanged (map_eq_error.mp h)
  | validate => exact validate_unchanged (map_eq_error.mp h)
  | select id value => exact select_unchanged (map_eq_error.mp h)
  | deselect id => exact deselect_unchanged (map_eq_error.mp h)
  | toggle id => exact toggle_unchanged (map_eq_error.mp h)
  | mappings => rfl
  | preview => exact makePreview_unchanged (map_eq_error.mp h)
  | back => exact back_unchanged (map_eq_error.mp h)
  | commit store now => exact commit_unchanged (map_eq_error.mp h)
  | reset => cases h

end Unchanged

/-! ## What refuses a call -/

theorem allowing_error_iff {α : Type} {a : Action} {r : Session × Outcome α} :
    (s.allowing a r).2 = .error f
      ↔ (s.state ∉ a.allowed ∧ f = .invalidTransition s.state a)
        ∨ (s.state ∈ a.allowed ∧ r.2 = .error f) := by
  rw [allowing]
  by_cases hs : s.state ∈ a.allowed
  · simp [hs]
  · simp [hs, eq_comm]

/-- A call whose action is not allowed is refused for that. -/
theorem perform_of_not_allowed {kept : σ} {call : Call σ} {a : Action}
    (ha : call.action? s = some a) (hs : s.state ∉ a.allowed) :
    (s.perform kept call).2.2 = .error (.invalidTransition s.state a) := by
  have hnot : ∀ {α : Type} (r : Session × Outcome α),
      (s.allowing a r).2 = .error (.invalidTransition s.state a) :=
    fun r => allowing_error_iff.mpr (Or.inl ⟨hs, rfl⟩)
  cases call with
  | load | generate | validate | select | deselect | preview | back =>
      cases ha
      exact map_eq_error.mpr (hnot _)
  | toggle id =>
      cases ha
      refine map_eq_error.mpr ?_
      by_cases hid : s.isSelected id = true
      · rw [if_pos hid] at hnot ⊢
        rw [toggle_of_selected hid]
        exact map_eq_error.mpr (hnot _)
      · rw [if_neg hid] at hnot ⊢
        rw [toggle_of_not_selected hid]
        exact map_eq_error.mpr (hnot _)
  | commit store now =>
      cases ha
      refine map_eq_error.mpr ?_
      rw [commit, if_neg hs]
  | mappings | reset => cases ha

theorem select_error_iff {id value : String} :
    (s.select id value).2 = .error f
      ↔ (s.state ∉ Action.select.allowed ∧ f = .invalidTransition s.state .select)
        ∨ (s.state ∈ Action.select.allowed ∧ (∀ i ∈ s.issues, i.id ≠ id)
          ∧ f = .unknownIssue id) := by
  rw [select, allowing_error_iff]
  have hknown : (∀ i ∈ s.issues, i.id ≠ id) ↔ ¬ s.hasIssue id = true := by
    rw [hasIssue_iff]
    simp
  rw [hknown]
  by_cases hid : s.hasIssue id = true
  · simp [hid]
  · simp [hid, eq_comm]

theorem generate_error_iff {service : Generator} {prompt : String} :
    (s.generate service prompt).2 = .error f
      ↔ (s.state ∉ Action.generate.allowed ∧ f = .invalidTransition s.state .generate)
        ∨ (s.state ∈ Action.generate.allowed
          ∧ (service prompt).bind Component.ofResponse = .error f) := by
  rw [generate, allowing_error_iff]
  refine or_congr Iff.rfl (and_congr_right fun hs => ?_)
  have hdraft : s.state ∈ Action.load.allowed := hs
  have hload : ∀ c, (s.load c).2 = .ok () := fun c => by
    rw [load, allowing, if_pos hdraft]
  cases (service prompt).bind Component.ofResponse with
  | error f' => simp
  | ok c => simp [hload]

theorem Stage.validate_ok (h : Stage policy advanced s) (hs : s.state ∈ Action.validate.allowed) :
    ∃ report, s.validate.2 = .ok report := by
  cases h with
  | generated c | validated c => exact ⟨_, rfl⟩
  | draft | mappingSelected | previewed | saved => simp [Action.allowed] at hs

theorem Stage.makePreview_ok (h : Stage policy advanced s)
    (hs : s.state ∈ Action.preview.allowed) : ∃ p, s.makePreview.2 = .ok p := by
  obtain ⟨m, hm⟩ := h.ofSelection
  have hmappings := mappings_of_ofSelection hm
  obtain ⟨c, hc⟩ := h.loaded fun hd => by simp [hd, Action.allowed] at hs
  rw [Session.makePreview, Session.allowing, if_pos hs, hmappings, hc]
  exact ⟨_, rfl⟩

theorem Stage.toSave_ok (h : Stage policy advanced s) (hs : s.state ∈ Action.commit.allowed)
    (now : String) : ∃ record, s.toSave now = .ok record := by
  cases h with
  | previewed c => exact ⟨_, rfl⟩
  | draft | generated | validated | mappingSelected | saved => simp [Action.allowed] at hs

theorem commit_error_of_store {store : Store σ} {now : String} {kept : σ}
    {record : SavedComponent} (hs : s.state ∈ Action.commit.allowed)
    (hrecord : s.toSave now = .ok record) :
    (s.commit store now kept).2.2 = .error f ↔ (store record kept).2 = .error f := by
  simp only [commit, if_pos hs, hrecord]
  obtain ⟨kept', f' | location⟩ := store record kept
  · simp
  · simp

/-- Selected ids are those of issues, so an unknown id cannot be selected. -/
theorem Stage.not_isSelected (h : Stage policy advanced s) {id : String}
    (hno : ∀ i ∈ s.issues, i.id ≠ id) : ¬ s.isSelected id = true := by
  intro hid
  rw [isSelected, List.any_eq_true] at hid
  obtain ⟨choice, hmem, heq⟩ := hid
  obtain ⟨i, hi, hiid⟩ := h.selectable.known choice hmem
  exact hno i hi (hiid.trans (of_decide_eq_true heq))

/-! ## The reasons are all there are -/

theorem Stage.refusal_of_error (h : Stage policy advanced s) {kept : σ} {call : Call σ}
    (hf : (s.perform kept call).2.2 = .error f) : Refusal s kept call f := by
  -- An action that is not allowed is settled once; below, every action is allowed.
  by_cases hact : ∃ a, call.action? s = some a ∧ s.state ∉ a.allowed
  · obtain ⟨a, ha, hs⟩ := hact
    rw [perform_of_not_allowed ha hs] at hf
    cases hf
    exact .notAllowed ha hs
  have hallowed : ∀ a, call.action? s = some a → s.state ∈ a.allowed := fun a ha =>
    Decidable.byContradiction fun hs => hact ⟨a, ha, hs⟩
  cases call with
  | load c =>
      rcases allowing_error_iff.mp (map_eq_error.mp hf) with ⟨hs, -⟩ | ⟨-, hr⟩
      · exact absurd (hallowed _ rfl) hs
      · cases hr
  | generate service prompt =>
      rcases generate_error_iff.mp (map_eq_error.mp hf) with ⟨hs, -⟩ | ⟨hs, hr⟩
      · exact absurd (hallowed _ rfl) hs
      · cases hservice : service prompt with
        | error f' =>
            rw [hservice] at hr
            cases hr
            exact .service (List.mem_singleton.mp hs) hservice
        | ok raw =>
            rw [hservice] at hr
            exact .response (List.mem_singleton.mp hs) hservice hr
  | validate =>
      obtain ⟨report, hok⟩ := h.validate_ok (hallowed _ rfl)
      rw [map_eq_error.mp hf] at hok
      cases hok
  | select id value =>
      rcases select_error_iff.mp (map_eq_error.mp hf) with ⟨hs, -⟩ | ⟨hs, hno, rfl⟩
      · exact absurd (hallowed _ rfl) hs
      · exact .unknownIssue rfl hs hno
  | deselect id =>
      rcases allowing_error_iff.mp (map_eq_error.mp hf) with ⟨hs, -⟩ | ⟨-, hr⟩
      · exact absurd (hallowed _ rfl) hs
      · cases hr
  | toggle id =>
      have hf := map_eq_error.mp hf
      by_cases hid : s.isSelected id = true
      · rw [toggle_of_selected hid] at hf
        rcases allowing_error_iff.mp (map_eq_error.mp hf) with ⟨hs, -⟩ | ⟨-, hr⟩
        · exact absurd (hallowed _ (by rw [Call.action?, if_pos hid])) hs
        · cases hr
      · rw [toggle_of_not_selected hid] at hf
        rcases select_error_iff.mp (map_eq_error.mp hf) with ⟨hs, -⟩ | ⟨hs, hno, rfl⟩
        · exact absurd (hallowed _ (by rw [Call.action?, if_neg hid])) hs
        · exact .unknownIssue rfl hs hno
  | mappings =>
      obtain ⟨m, hm⟩ := h.ofSelection
      have hf : s.mappings = .error f := map_eq_error.mp hf
      rw [mappings_of_ofSelection hm] at hf
      cases hf
  | preview =>
      obtain ⟨p, hok⟩ := h.makePreview_ok (hallowed _ rfl)
      rw [map_eq_error.mp hf] at hok
      cases hok
  | back =>
      rcases allowing_error_iff.mp (map_eq_error.mp hf) with ⟨hs, -⟩ | ⟨-, hr⟩
      · exact absurd (hallowed _ rfl) hs
      · cases hr
  | commit store now =>
      have hs := hallowed _ rfl
      obtain ⟨record, hrecord⟩ := h.toSave_ok hs now
      exact .store (List.mem_singleton.mp hs) hrecord
        ((commit_error_of_store hs hrecord).mp (map_eq_error.mp hf))
  | reset => cases hf

theorem Stage.error_of_refusal (h : Stage policy advanced s) {kept : σ} {call : Call σ}
    (hr : Refusal s kept call f) : (s.perform kept call).2.2 = .error f := by
  cases hr with
  | notAllowed ha hs => exact perform_of_not_allowed ha hs
  | unknownIssue hid hs hno =>
      cases call with
      | select id value =>
          cases hid
          exact map_eq_error.mpr (select_error_iff.mpr (Or.inr ⟨hs, hno, rfl⟩))
      | toggle id =>
          cases hid
          refine map_eq_error.mpr ?_
          rw [toggle_of_not_selected (h.not_isSelected hno)]
          exact map_eq_error.mpr (select_error_iff.mpr (Or.inr ⟨hs, hno, rfl⟩))
      | load | generate | validate | deselect | mappings | preview | back | commit | reset =>
          cases hid
  | service hs hservice =>
      refine map_eq_error.mpr (generate_error_iff.mpr (Or.inr ⟨?_, ?_⟩))
      · exact List.mem_singleton.mpr hs
      · rw [hservice]
        rfl
  | response hs hservice hraw =>
      refine map_eq_error.mpr (generate_error_iff.mpr (Or.inr ⟨?_, ?_⟩))
      · exact List.mem_singleton.mpr hs
      · rw [hservice]
        exact hraw
  | store hs hrecord hstore =>
      exact map_eq_error.mpr
        ((commit_error_of_store (List.mem_singleton.mpr hs) hrecord).mpr hstore)

/-- Failed calls of a review: they change nothing, they fail for the reasons listed and for each
of these, and neither a loaded component, its validation, the mapping set of a selection nor the
record of a preview is ever missing where an operation needs it. -/
theorem perform_error_iff (h : Reachable policy advanced s) (kept : σ) (call : Call σ) :
    (∀ f, (s.perform kept call).2.2 = .error f ↔ Refusal s kept call f)
      ∧ (∀ f, (s.perform kept call).2.2 = .error f → (s.perform kept call).1 = s)
      ∧ (s.state = .mappingSelected → ∃ p, s.makePreview.2 = .ok p)
      ∧ (s.state = .generated ∨ s.state = .validated → ∃ report, s.validate.2 = .ok report)
      ∧ (s.state ≠ .draft → ∃ c, s.loaded = .ok c)
      ∧ (∃ m, s.mappings = .ok m)
      ∧ (s.state = .previewed → ∀ now, ∃ record, s.toSave now = .ok record) := by
  refine ⟨fun f => ⟨h.stage.refusal_of_error, h.stage.error_of_refusal⟩,
    fun f => perform_unchanged, fun hs => ?_, fun hs => ?_, h.stage.loaded, ?_,
    fun hs now => ?_⟩
  · exact h.stage.makePreview_ok (List.mem_singleton.mpr hs)
  · exact h.stage.validate_ok (by simpa [Action.allowed] using hs)
  · obtain ⟨m, hm⟩ := h.stage.ofSelection
    exact ⟨m, mappings_of_ofSelection hm⟩
  · exact h.stage.toSave_ok (List.mem_singleton.mpr hs) now

/-- A service that fails: the call is refused with its failure and the session stays. -/
theorem perform_error_iff_service :
    ∃ s : Session, Reachable .builtin false s
      ∧ (s.perform () (.generate (fun _ => .error .io) "a button")).2.2 = .error .io
      ∧ Refusal s () (.generate (fun _ => .error .io) "a button") .io
      ∧ (s.perform () (.generate (fun _ => .error .io) "a button")).1 = s := by
  have h : Reachable .builtin false (Session.new .builtin false) := .new
  obtain ⟨hiff, hsame, -⟩ :=
    perform_error_iff h () (.generate (fun _ => .error .io) "a button")
  exact ⟨_, h, rfl, (hiff .io).mp rfl, hsame .io rfl⟩

end DesignTokens.Review
