import DesignTokens.CommandLine.Inspect
import DesignTokens.Summary.Page

/-!
# Commands that make something

Applying a mapping set, reviewing a component, taking a response apart and
writing a summary. All reading comes before the first effect. A review previews,
writes the preview and only then asks its session to save, so its plan may come
to a failure behind effects that have been made.
-/

namespace DesignTokens.CommandLine

open Files Json Text Review

/-- A path to show, or null where there is none. -/
def pathValue (path : Option String) : Value := optionalString path

/-! ## Applying -/

/-- Applies a mapping set to a source. -/
def applyPlan (files : Reading) (source mappings : String) (policy output : Option String)
    (v : Voice) : Outcome Plan := do
  let text ← files.text source
  let m ← files.record MappingSet.read mappings
  let policy ← files.policy policy
  let result := Rewrite.applyTraced text.toList m policy
  let rewritten := String.ofList result.text
  let check := Source.checkStructure policy.variantCall.toList result.text
  let written := match output with
    | some path =>
      .write path rewritten
        :: v.success (toString result.stats.transformations
            ++ " transformation(s) applied, written to " ++ path)
    | none => v.toPeople [.out rewritten]
  let said := v.answer
    [("command", .string "apply"), ("status", .string "ok"), ("output", pathValue output),
     ("text", if output.isNone then .string rewritten else .null),
     ("records", .array (result.records.map Rewrite.Record.write)),
     ("stats", result.stats.write), ("structure", check.write), Voice.integration]
  return ⟨v.structureWarnings check ++ written ++ said, .ok ()⟩

/-! ## Reviewing -/

/-- The id and the value of a choice. Without an equals sign the value is empty. -/
def choice (raw : String) : Outcome (String × String) :=
  let (id, value) := match cut? '=' raw.toList with
    | some (id, value) => (trim id, trim value)
    | none => (trim raw.toList, [])
  if id.isEmpty then .error (.invalidArgument ("selection '" ++ raw ++ "' has no issue id"))
  else .ok (String.ofList id, String.ofList value)

/-- The session and the result of an operation that has succeeded. -/
def succeeded {α : Type} : Session × Outcome α → Outcome (Session × α)
  | (_, .error f) => .error f
  | (s, .ok a) => .ok (s, a)

/-- The session after choosing one issue after the other. -/
def chooseAll (s : Session) : List (String × String) → Outcome Session
  | [] => .ok s
  | (id, value) :: rest =>
    match s.select id value with
    | (_, .error f) => .error f
    | (next, .ok ()) => chooseAll next rest

/-- The choices of a review that is given none: the suggestion for every issue with a target. -/
def defaultChoices (issues : List Issue) : List (String × String) :=
  (issues.filter fun i => i.isIssue && i.target.isSome).map fun i => (i.id, "")

/-- An integer with its sign. -/
def signed (n : Int) : String := if n < 0 then toString n else "+" ++ toString n

/-- The plan of a review in which nothing is chosen. -/
def nothingToFix (s : Session) (score : Nat) (v : Voice) : Plan :=
  ⟨v.success ("nothing to fix, overall match " ++ outOfHundred score)
    ++ v.answer
      [("command", .string "review"), ("status", .string "ok"), ("state", .string s.state.name),
       ("score_before", .nat score), ("score_after", .nat score), Voice.integration], .ok ()⟩

/-- The session behind saving, the effects so far with those that save, and the location; nothing is
saved without a store. -/
def savePreview (s : Session) (store : Option String) (save : Bool) (now : String)
    (effects : List Effect) : Session × List Effect × Outcome (Option String) :=
  match store, save with
  | some root, true =>
    let (next, effects, location) := s.commit (directoryStore root) now effects
    (next, effects, location.map some)
  | _, _ => (s, effects, .ok none)

/-- Shows a preview, writes it and perhaps saves it. -/
def previewPlan (s : Session) (p : Preview) (now : String) (store : Option String) (save : Bool)
    (output : Option String) (v : Voice) : Plan :=
  let shown :=
    v.heading "preview"
      ++ v.info ("overall match: " ++ toString p.scoreBefore ++ " -> " ++ toString p.scoreAfter
          ++ " (" ++ signed p.scoreDelta ++ ")")
      ++ v.structureWarnings p.check
  let written := match output with
    | some path => .write path p.text :: v.success ("preview written to " ++ path)
    | none => []
  let (s, effects, saved) := savePreview s store save now (shown ++ written)
  match saved with
  | .error f => ⟨effects, .error f⟩
  | .ok saved =>
    let told := match saved with
      | some location => v.success ("saved " ++ location)
      | none => []
    let said := v.answer
      [("command", .string "review"), ("status", .string "ok"), ("state", .string s.state.name),
       ("selected", .nat s.selection.length), ("score_before", .nat p.scoreBefore),
       ("score_after", .nat p.scoreAfter), ("mappings", p.mappings.write),
       ("structure", p.check.write), ("saved", pathValue saved), ("output", pathValue output),
       Voice.integration]
    ⟨effects ++ told ++ said, .ok ()⟩

/-- Chooses, previews and perhaps saves. -/
def reviewPlan (files : Reading) (now : String) (paths : InputPaths) (choices : List String)
    (advanced : Bool) (store : Option String) (save : Bool) (output : Option String) (v : Voice) :
    Outcome Plan := do
  if save && store.isNone then throw (.invalidArgument "--save requires --store")
  let chosen ← choices.mapM choice
  let input ← paths.load files
  let (s, _) ← succeeded ((Session.new input.policy advanced).load ⟨input.spec, input.source⟩)
  let (s, report) ← succeeded s.validate
  let s ← chooseAll s (if chosen.isEmpty then defaultChoices s.issues else chosen)
  if s.state ≠ .mappingSelected then return nothingToFix s report.overallMatch v
  let (s, p) ← succeeded s.makePreview
  return previewPlan s p now store save output v

/-! ## Taking a response apart -/

/-- Writes the spec and the source of a response. -/
def parseResponsePlan (files : Reading) (input directory : String) (v : Voice) : Outcome Plan := do
  let raw ← files.text input
  let c ← Component.ofResponse raw
  let spec := inside directory "spec.json"
  let source := inside directory "component.tsx"
  let written : List Effect :=
    [.makeDirectory directory, .write spec (indented c.spec.write), .write source c.source]
  let said :=
    v.success ("spec: " ++ spec) ++ v.success ("source: " ++ source)
      ++ v.answer
        [("command", .string "parse-response"), ("status", .string "ok"),
         ("component", .string c.spec.name), ("spec", .string spec), ("source", .string source),
         Voice.integration]
  return ⟨written ++ said, .ok ()⟩

/-! ## Summaries -/

/-- Where a summary goes that is given no path: beside the source. -/
def besideSource (source extension : String) : String :=
  beside source (stem (fileName source) ++ ".report." ++ extension)

/-- Writes a summary as JSON and as a page. -/
def reportPlan (files : Reading) (now : String) (paths : InputPaths) (page record : Option String)
    (title : String) (v : Voice) : Outcome Plan := do
  let input ← paths.load files
  let page := page.getD (besideSource paths.source "html")
  let record := record.getD (besideSource paths.source "json")
  let summary := Summary.of input.spec input.source.toList input.policy title paths.source now
  let written : List Effect :=
    [.write record (indented summary.write), .write page (String.ofList summary.page)]
  let said :=
    v.success ("report JSON: " ++ record) ++ v.success ("report HTML: " ++ page)
      ++ v.answer
        [("command", .string "report"), ("status", .string "ok"),
         ("overall_match", .nat summary.overallMatch), ("report_json", .string record),
         ("report_html", .string page), Voice.integration]
  return ⟨written ++ said, .ok ()⟩

/-! ## All commands -/

/-- The plan of a command, given what the files hold and the time. -/
def Command.plan (files : Reading) (now : String) : Command → Plan
  | .validate input failUnder v => .ofOutcome (validatePlan files input failUnder v)
  | .issues input advanced output v => .ofOutcome (issuesPlan files input advanced output v)
  | .apply source mappings policy output v =>
    .ofOutcome (applyPlan files source mappings policy output v)
  | .review input choices advanced store save output v =>
    .ofOutcome (reviewPlan files now input choices advanced store save output v)
  | .convert property pixels token v => .ofOutcome (convertPlan property pixels token v)
  | .parseResponse input directory v => .ofOutcome (parseResponsePlan files input directory v)
  | .properties source => .ofOutcome (propertiesPlan files source)
  | .report input page record title v =>
    .ofOutcome (reportPlan files now input page record title v)

/-- Carries out a command on a file tree. -/
def Command.run (c : Command) (tree : Tree) (now : String) : Transcript :=
  (c.plan tree.read now).run tree

end DesignTokens.CommandLine
