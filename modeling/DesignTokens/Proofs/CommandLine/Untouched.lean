import DesignTokens.CommandLine.Change
import DesignTokens.Proofs.Files.Tree
import DesignTokens.Proofs.Review.History
import DesignTokens.Proofs.Review.Refusal

/-!
# Failures that leave the files alone

A command that ends in a failure other than one of input and output has not
touched the file tree (`tree_run_of_failure`).

Carrying out effects fails only with failures of input and output, so any other
failure is that of the plan itself. A plan that comes to a failure of its own only
speaks (`Plan.Careful`). For most commands this holds because nothing can fail
once the plan is there; scoring may fail at the end, but does nothing except
speaking. A review has written its preview by the time its session commits, so
there the commit must not fail: the session is at a stage, a stage with a preview
has a record to save, and a store in a directory takes every record.
-/

namespace DesignTokens.CommandLine

open Files Json Review

/-! ## Effects that only speak -/

/-- The effect says something and touches no file. -/
def Effect.Speaks : Effect → Prop
  | .out _ | .err _ => True
  | .makeDirectory _ | .write _ _ => False

/-- All of the effects only say something. -/
def Speak (effects : List Effect) : Prop := ∀ e ∈ effects, e.Speaks

theorem speak_nil : Speak [] := nofun

theorem Speak.append {a b : List Effect} (ha : Speak a) (hb : Speak b) : Speak (a ++ b) :=
  List.forall_mem_append.mpr ⟨ha, hb⟩

theorem Speak.flatMap {α : Type} {say : α → List Effect} (h : ∀ a, Speak (say a))
    (items : List α) : Speak (items.flatMap say) :=
  List.forall_mem_flatMap.mpr fun a _ => h a

section

variable (v : Voice)

theorem speak_toPeople {effects : List Effect} (h : Speak effects) :
    Speak (v.toPeople effects) := by
  cases v with
  | lines => exact h
  | json => exact speak_nil

theorem speak_heading (title : String) : Speak (v.heading title) :=
  speak_toPeople v (List.forall_mem_singleton.mpr trivial)

theorem speak_info (message : String) : Speak (v.info message) :=
  speak_toPeople v (List.forall_mem_singleton.mpr trivial)

theorem speak_success (message : String) : Speak (v.success message) :=
  speak_toPeople v (List.forall_mem_singleton.mpr trivial)

theorem speak_warning (message : String) : Speak (v.warning message) :=
  speak_toPeople v (List.forall_mem_singleton.mpr trivial)

theorem speak_answer (members : List (String × Value)) : Speak (v.answer members) := by
  cases v with
  | lines => exact speak_nil
  | json => exact List.forall_mem_singleton.mpr trivial

end

/-! ## Carrying out effects -/

section

variable {last : Outcome Unit} {tree : Tree} {effects : List Effect} {f : Failure}

theorem tree_runEffects_of_speak (h : Speak effects) :
    (runEffects last tree effects).tree = tree := by
  induction effects with
  | nil => rfl
  | cons e effects ih =>
      obtain ⟨he, hlater⟩ := List.forall_mem_cons.mp h
      cases e with
      | out text | err text => exact ih hlater
      | makeDirectory path | write path content => exact he.elim

/-- Effects fail as input and output; any other failure comes from the end of the plan. -/
theorem last_of_runEffects (hf : f ≠ .io) (h : (runEffects last tree effects).outcome = .error f) :
    last = .error f := by
  induction effects generalizing tree with
  | nil => exact h
  | cons e effects ih =>
      cases e with
      | out text | err text => exact ih h
      | makeDirectory path =>
          rw [runEffects] at h
          split at h
          case h_1 => exact ih h
          case h_2 made f' hmade =>
            cases h
            exact absurd (Tree.makeDirectory_error (congrArg Prod.snd hmade)) hf
      | write path content =>
          rw [runEffects] at h
          split at h
          case h_1 => exact ih h
          case h_2 written f' hwritten =>
            cases h
            exact absurd (Tree.write_error (congrArg Prod.snd hwritten)) hf

end

/-! ## Careful plans -/

/-- A plan that comes to a failure of its own only speaks. -/
def Plan.Careful (p : Plan) : Prop := ∀ f, p.outcome = .error f → Speak p.effects

theorem Plan.Careful.of_ok {effects : List Effect} : Plan.Careful ⟨effects, .ok ()⟩ := nofun

theorem Plan.Careful.tree_run {p : Plan} (hp : p.Careful) {tree : Tree} {f : Failure} (hf : f ≠ .io)
    (h : (p.run tree).outcome = .error f) : (p.run tree).tree = tree :=
  tree_runEffects_of_speak (hp f (last_of_runEffects hf h))

/-- Whatever plan it is, it is careful. -/
def CarefulIfOk (o : Outcome Plan) : Prop := ∀ p, o = .ok p → p.Careful

theorem careful_ofOutcome {o : Outcome Plan} (h : CarefulIfOk o) : (Plan.ofOutcome o).Careful := by
  cases o with
  | ok p => exact h p rfl
  | error f => exact fun _ _ => speak_nil

theorem carefulIfOk_ok {p : Plan} (h : p.Careful) : CarefulIfOk (.ok p) := by
  rintro _ ⟨⟩
  exact h

theorem carefulIfOk_error {f : Failure} : CarefulIfOk (.error f) := nofun

theorem carefulIfOk_bind {α : Type} {x : Outcome α} {g : α → Outcome Plan}
    (h : ∀ a, x = .ok a → CarefulIfOk (g a)) : CarefulIfOk (x >>= g) := by
  cases x with
  | ok a => exact h a rfl
  | error f => exact carefulIfOk_error

/-! ## The commands apart from reviews -/

section

variable (files : Reading) (v : Voice)

theorem careful_validatePlan (paths : InputPaths) (failUnder : Option Nat) :
    CarefulIfOk (validatePlan files paths failUnder v) := by
  refine carefulIfOk_bind fun input _ => carefulIfOk_ok fun _ _ => ?_
  have hverdict : ∀ fully : Bool, Speak
      (if fully then v.success "component follows the design tokens" else []) := by
    intro fully
    cases fully with
    | true => exact speak_success v _
    | false => exact speak_nil
  exact (((((speak_heading v _).append (speak_info v _)).append (speak_info v _)).append
    (Speak.flatMap (speak_warning v) _)).append (hverdict _)).append (speak_answer v _)

theorem careful_issuesPlan (paths : InputPaths) (advanced : Bool) (output : Option String) :
    CarefulIfOk (issuesPlan files paths advanced output v) := by
  refine carefulIfOk_bind fun input _ => ?_
  cases output with
  | none => exact carefulIfOk_ok .of_ok
  | some path => exact carefulIfOk_ok .of_ok

theorem careful_applyPlan (source mappings : String) (policy output : Option String) :
    CarefulIfOk (applyPlan files source mappings policy output v) :=
  carefulIfOk_bind fun _ _ => carefulIfOk_bind fun _ _ => carefulIfOk_bind fun _ _ =>
    carefulIfOk_ok .of_ok

theorem careful_convertPlan (property : String) (pixels : Option Nat) (token : Option String) :
    CarefulIfOk (convertPlan property pixels token v) := by
  refine carefulIfOk_bind fun p _ => ?_
  split
  · exact carefulIfOk_ok .of_ok
  · exact carefulIfOk_ok .of_ok
  · exact carefulIfOk_error

theorem careful_parseResponsePlan (input directory : String) :
    CarefulIfOk (parseResponsePlan files input directory v) :=
  carefulIfOk_bind fun _ _ => carefulIfOk_bind fun _ _ => carefulIfOk_ok .of_ok

theorem careful_propertiesPlan (source : String) : CarefulIfOk (propertiesPlan files source) :=
  carefulIfOk_bind fun _ _ => carefulIfOk_ok .of_ok

theorem careful_reportPlan (now : String) (paths : InputPaths) (page record : Option String)
    (title : String) : CarefulIfOk (reportPlan files now paths page record title v) :=
  carefulIfOk_bind fun _ _ => carefulIfOk_ok .of_ok

end

/-! ## Reviews -/

section

variable {policy : Policy} {advanced : Bool} {s next : Session}

theorem succeeded_eq_ok {α : Type} {r : Session × Outcome α} {a : α}
    (h : succeeded r = .ok (next, a)) : r = (next, .ok a) := by
  obtain ⟨s, o⟩ := r
  cases o with
  | error f => cases h
  | ok a =>
      cases h
      rfl

theorem stage_chooseAll : ∀ {chosen : List (String × String)} {s : Session},
    Stage policy advanced s → chooseAll s chosen = .ok next → Stage policy advanced next
  | [], _, hs, h => by
      cases h
      exact hs
  | (id, value) :: rest, s, hs, h => by
      rw [chooseAll] at h
      split at h
      case h_1 => cases h
      case h_2 selected hselect =>
        have hnext := hs.select id value
        rw [hselect] at hnext
        exact stage_chooseAll hnext h

/-- A stage with a preview is saved by a store in a directory. -/
theorem exists_savePreview (hs : Stage policy advanced s) (hstate : s.state = .previewed)
    (store : Option String) (save : Bool) (now : String) (effects : List Effect) :
    ∃ saved, (savePreview s store save now effects).2.2 = .ok saved := by
  have hallowed : s.state ∈ Action.commit.allowed := List.mem_singleton.mpr hstate
  obtain ⟨record, hrecord⟩ := hs.toSave_ok hallowed now
  rw [savePreview.eq_def]
  split
  case h_1 root =>
    rw [Session.commit, if_pos hallowed, hrecord]
    exact ⟨_, rfl⟩
  case h_2 => exact ⟨none, rfl⟩

theorem careful_previewPlan (hs : Stage policy advanced s) (hstate : s.state = .previewed)
    (p : Preview) (now : String) (store : Option String) (save : Bool) (output : Option String)
    (v : Voice) : (previewPlan s p now store save output v).Careful := by
  intro f hf
  rw [previewPlan.eq_def] at hf
  dsimp only at hf
  split at hf
  case h_1 f' hsaved =>
    obtain ⟨saved, hok⟩ := exists_savePreview hs hstate store save now _
    rw [hok] at hsaved
    cases hsaved
  case h_2 => cases hf

theorem careful_reviewPlan (files : Reading) (now : String) (paths : InputPaths)
    (choices : List String) (advanced : Bool) (store : Option String) (save : Bool)
    (output : Option String) (v : Voice) :
    CarefulIfOk (reviewPlan files now paths choices advanced store save output v) := by
  rw [reviewPlan.eq_def]
  dsimp only
  split
  case isTrue => exact carefulIfOk_error
  case isFalse =>
    refine carefulIfOk_bind fun chosen _ => carefulIfOk_bind fun input _ => ?_
    refine carefulIfOk_bind fun ⟨loaded, _⟩ hload => ?_
    refine carefulIfOk_bind fun ⟨validated, _⟩ hvalid => ?_
    refine carefulIfOk_bind fun selected hselected => ?_
    have hstage : Stage input.policy advanced selected := by
      have hdraft : Stage input.policy advanced (.new input.policy advanced) := .draft
      have hloaded := hdraft.load ⟨input.spec, input.source⟩
      rw [succeeded_eq_ok hload] at hloaded
      have hvalidated := hloaded.validate
      rw [succeeded_eq_ok hvalid] at hvalidated
      exact stage_chooseAll hvalidated hselected
    split
    case isTrue => exact carefulIfOk_ok .of_ok
    case isFalse =>
      refine carefulIfOk_bind fun ⟨previewed, p⟩ hpreview => carefulIfOk_ok ?_
      have hmade := succeeded_eq_ok hpreview
      have hpreviewed := hstage.makePreview
      have hstate := makePreview_of_ok (congrArg Prod.snd hmade)
      rw [hmade] at hpreviewed hstate
      exact careful_previewPlan hpreviewed (congrArg Session.state hstate) p now store save output v

end

/-! ## All commands -/

theorem careful_plan (files : Reading) (now : String) (c : Command) :
    (c.plan files now).Careful := by
  cases c with
  | validate input failUnder v =>
      exact careful_ofOutcome (careful_validatePlan files v input failUnder)
  | issues input advanced output v =>
      exact careful_ofOutcome (careful_issuesPlan files v input advanced output)
  | apply source mappings policy output v =>
      exact careful_ofOutcome (careful_applyPlan files v source mappings policy output)
  | review input choices advanced store save output v =>
      exact careful_ofOutcome
        (careful_reviewPlan files now input choices advanced store save output v)
  | convert property pixels token v =>
      rw [Command.plan]
      exact careful_ofOutcome (careful_convertPlan v property pixels token)
  | parseResponse input directory v =>
      exact careful_ofOutcome (careful_parseResponsePlan files v input directory)
  | properties source => exact careful_ofOutcome (careful_propertiesPlan files source)
  | report input page record title v =>
      exact careful_ofOutcome (careful_reportPlan files v now input page record title)

/-- A command that ends in a failure other than one of input and output leaves the tree as it was. -/
theorem tree_run_of_failure {c : Command} {tree : Tree} {now : String} {f : Failure} (hf : f ≠ .io)
    (h : (c.run tree now).outcome = .error f) : (c.run tree now).tree = tree := by
  rw [Command.run] at h ⊢
  exact (careful_plan tree.read now c).tree_run hf h

/-- A directory with a spec and a source that follows it. -/
def sampleTree : Tree where
  workingDirectory := ["w"]
  entries :=
    [(["w"], .directory), (["w", "s.json"], .file "\x7b\x7d"), (["w", "c.tsx"], .file "cva()")]

/-- A review of an issue that is not there, with a preview and a store asked for. -/
def strayReview : Command :=
  .review ⟨"s.json", "c.tsx", none⟩ ["x"] false (some "store") true (some "p.tsx") .lines

theorem tree_run_strayReview :
    (strayReview.run sampleTree "now").outcome = .error (.unknownIssue "x") ∧
      (strayReview.run sampleTree "now").tree = sampleTree := by
  have hio : Failure.unknownIssue "x" ≠ .io := nofun
  have h : (strayReview.run sampleTree "now").outcome = .error (.unknownIssue "x") := by
    decide
  exact ⟨h, tree_run_of_failure hio h⟩

end DesignTokens.CommandLine
