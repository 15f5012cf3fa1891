import DesignTokens.Review.Session

/-!
# Calls of a session

The operations of a session as one type of calls, so that a statement about
every operation, or about every row of operations, is a statement about
calls. A call is made on a session and on the state of a store; it answers
with both behind it and with what came of it. Whoever makes a call chooses
everything else: the component, the generative service and its prompt, the ids
and values, the store and the time.

`Reachable` is the reading of "whatever happened before": a session that some
row of calls leads to from a new one, with stores of any kind in between. `run`
makes a given row of calls and is what statements about the further course of a
review are made with.
-/

namespace DesignTokens.Review

/-- A call of an operation, with all that its caller chooses. -/
inductive Call (σ : Type) where
  | load (c : Component)
  | generate (service : Generator) (prompt : String)
  | validate
  | select (id value : String)
  | deselect (id : String)
  | toggle (id : String)
  | mappings
  | preview
  | back
  | commit (store : Store σ) (now : String)
  | reset

/-- What a successful call answers with. -/
inductive Answer where
  | done
  | report (r : Report)
  | flag (b : Bool)
  | mappings (m : MappingSet)
  | preview (p : Preview)
  | location (l : String)

namespace Session

variable {σ : Type}

/-- The answer of an operation that has nothing to do with a store. -/
def beside {α : Type} (kept : σ) (wrap : α → Answer) (r : Session × Outcome α) :
    Session × σ × Outcome Answer :=
  (r.1, kept, r.2.map wrap)

/-- Makes a call. -/
def perform (s : Session) (kept : σ) : Call σ → Session × σ × Outcome Answer
  | .load c => beside kept (fun _ => .done) (s.load c)
  | .generate service prompt => beside kept (fun _ => .done) (s.generate service prompt)
  | .validate => beside kept .report s.validate
  | .select id value => beside kept (fun _ => .done) (s.select id value)
  | .deselect id => beside kept .flag (s.deselect id)
  | .toggle id => beside kept .flag (s.toggle id)
  | .mappings => beside kept .mappings (s, s.mappings)
  | .preview => beside kept .preview s.makePreview
  | .back => beside kept (fun _ => .done) s.back
  | .commit store now =>
    let r := s.commit store now kept
    (r.1, r.2.1, r.2.2.map .location)
  | .reset => (s.reset, kept, .ok .done)

/-- The session and the state of the store behind a row of calls. -/
def run (s : Session) (kept : σ) : List (Call σ) → Session × σ
  | [] => (s, kept)
  | call :: calls =>
    let r := s.perform kept call
    run r.1 r.2.1 calls

end Session

/-- The sessions that calls lead to, starting from a new session. -/
inductive Reachable (policy : Policy) (advanced : Bool) : Session → Prop
  | new : Reachable policy advanced (Session.new policy advanced)
  | step {σ : Type} {s : Session} (kept : σ) (call : Call σ) :
      Reachable policy advanced s → Reachable policy advanced (s.perform kept call).1

/-- What a run from a reachable session leads to is reachable. -/
theorem Reachable.run {policy : Policy} {advanced : Bool} {σ : Type} :
    ∀ (calls : List (Call σ)) {s : Session} (kept : σ),
      Reachable policy advanced s → Reachable policy advanced (s.run kept calls).1
  | [], _, _, h => h
  | call :: calls, s, kept, h => by
      rw [Session.run]
      exact Reachable.run calls _ (h.step kept call)

end DesignTokens.Review
