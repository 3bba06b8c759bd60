import PlZero.Proofs.DeepTree
import PlZero.Proofs.ProgramEnding

set_option autoImplicit false

namespace PlZero

inductive Step
  | entry (source : String)
  | program (source : String)

namespace Step

def source : Step → String
  | entry source => source
  | program source => source

def read : Step → Except (Failure SyntaxFault) Program
  | entry source => (parseFragment source).map .ofBlock
  | program source => parse source

def answer : Step → Bool → Option Bool
  | entry _, ended => some ended
  | program _, _ => none

def run (limits : Limits) (debug : Bool) : Step → Session (Option Bool)
  | entry source => some <$> Session.runEntry limits debug source
  | program source => (fun _ => none) <$> Session.runSource limits debug source

def conclude (step : Step) (p : Program) :
    EStateM.Result Stop Machine Unit → EStateM.Result (Failure Cause) Machine (Option Bool)
  | .ok _ m => .ok (step.answer (Session.ends p.body)) m
  | .error f m => .error (f.map .running) m

variable {limits : Limits} {debug : Bool} {step : Step} {m m' : Machine} {p : Program}

theorem runProgram_eq (limits : Limits) (debug : Bool) (p : Program) (m : Machine) :
    Session.runProgram limits debug p m =
      match p.run limits debug m with
      | .ok a m' => .ok a m'
      | .error f m' => .error (f.map .running) m' := by
  unfold Session.runProgram Session.exec EStateM.adaptExcept
  cases p.run limits debug m <;> rfl

theorem run_eq (limits : Limits) (debug : Bool) (step : Step) (m : Machine) :
    step.run limits debug m =
      match step.read with
      | .error f => .error (f.map .reading) m
      | .ok p => step.conclude p (p.run limits debug m) := by
  cases step with
  | entry source =>
    simp only [run, read, Session.runEntry, Functor.map, EStateM.map, Bind.bind, EStateM.bind]
    cases parseFragment source with
    | error f => rfl
    | ok b =>
      simp only [Session.read, Pure.pure, EStateM.pure, runProgram_eq, Except.map]
      cases (Program.ofBlock b).run limits debug m <;> rfl
  | program source =>
    simp only [run, read, Session.runSource, Functor.map, EStateM.map, Bind.bind, EStateM.bind]
    cases parse source with
    | error f => rfl
    | ok p =>
      simp only [Session.read, Pure.pure, EStateM.pure, runProgram_eq]
      cases p.run limits debug m <;> rfl

theorem outermost_of_read (accepted : step.read = .ok p) :
    p.body.Outermost (closedByPoint step.source) := by
  cases step with
  | entry source =>
    change (parseFragment source).map .ofBlock = .ok p at accepted
    cases parsed : parseFragment source with
    | error f => rw [parsed] at accepted; cases accepted
    | ok b =>
      rw [parsed] at accepted
      cases accepted
      exact outermost_of_parseFragment parsed
  | program source =>
    obtain ⟨closed, outer⟩ := outermost_of_parse accepted
    change p.body.Outermost (closedByPoint source)
    rwa [closed]

inductive Outcome (limits : Limits) (debug : Bool) (step : Step) (before : Stack) :
    EStateM.Result (Failure Cause) Machine (Option Bool) → Prop
  | refused {f : Failure SyntaxFault} {m : Machine} : step.read = .error f →
      m.scopes = before → Outcome limits debug step before (.error (f.map .reading) m)
  | unlogged {p : Program} {f : Stop} {m : Machine} : step.read = .ok p → debug = true →
      ¬ p.Loggable limits → m.scopes = before →
      Outcome limits debug step before (.error (f.map .running) m)
  | stopped {p : Program} {f : Stop} {m : Machine} {root : Scope} : step.read = .ok p →
      (debug = true → p.Loggable limits) → m.scopes = [root] →
      (before.headD {}).Grown p.body.declared root →
      Outcome limits debug step before (.error (f.map .running) m)
  | unclosed {p : Program} {m : Machine} {root : Scope} : step.read = .ok p →
      (debug = true → p.Loggable limits) →
      closedByPoint step.source = false → m.scopes = [root] →
      (before.headD {}).Grown p.body.declared root →
      Outcome limits debug step before (.ok (step.answer false) m)
  | closed {p : Program} {m : Machine} : step.read = .ok p →
      (debug = true → p.Loggable limits) →
      closedByPoint step.source = true → m.scopes = [] →
      Outcome limits debug step before (.ok (step.answer true) m)

theorem outcome_of_ended (accepted : step.read = .ok p)
    (logged : debug = true → p.Loggable limits) {r : EStateM.Result Stop Machine Unit}
    (ended : Exec.Ended p.body.declared m.root (closedByPoint step.source) r) :
    step.Outcome limits debug m.scopes (step.conclude p r) := by
  have ends := (outermost_of_read accepted).ends_eq
  generalize same : closedByPoint step.source = closed at ended ends
  cases ended with
  | stopped rootOnly =>
    obtain ⟨root, scopes, grown, _⟩ := rootOnly
    exact .stopped accepted logged scopes grown
  | unclosed rootOnly =>
    obtain ⟨root, scopes, grown, _⟩ := rootOnly
    unfold conclude
    rw [ends]
    exact .unclosed accepted logged same scopes grown
  | closed none =>
    unfold conclude
    rw [ends]
    exact .closed accepted logged same none

theorem machineOf_conclude (step : Step) (p : Program) (r : EStateM.Result Stop Machine Unit) :
    machineOf (step.conclude p r) = machineOf r := by
  cases r <;> rfl

theorem outcome (limits : Limits) (debug : Bool) (step : Step) (resting : m.Resting) :
    step.Outcome limits debug m.scopes (step.run limits debug m) ∧
      (machineOf (step.run limits debug m)).Resting := by
  rw [run_eq]
  cases accepted : step.read with
  | error f => exact ⟨.refused accepted rfl, resting⟩
  | ok p =>
    dsimp only
    -- The text tells how the block ends, the block how the run does.
    have outer := outermost_of_read accepted
    rcases Program.run_cases limits debug outer resting with ⟨log, deep, runs⟩ | ⟨logged, ended⟩
    · rw [runs]
      exact ⟨.unlogged accepted log deep rfl, resting⟩
    · rw [machineOf_conclude]
      exact ⟨outcome_of_ended accepted logged ended, ended.resting⟩

end Step

def Session.afterSteps (limits : Limits) (debug : Bool) (steps : List Step) (m : Machine) :
    Machine :=
  steps.foldl (fun m step => machineOf (step.run limits debug m)) m

theorem Session.resting_afterSteps (limits : Limits) (debug : Bool) (steps : List Step)
    {m : Machine} (resting : m.Resting) : (afterSteps limits debug steps m).Resting := by
  induction steps generalizing m with
  | nil => exact resting
  | cons step steps ih => exact ih (step.outcome limits debug resting).2

theorem Machine.resting_new (input : Input) : ({ input } : Machine).Resting :=
  ⟨Nat.zero_le 1, nofun⟩

/-- A new machine has no scope or the root alone after every step of a session, and each step leaves
what its text and the way it ended call for. -/
theorem session_discipline (limits : Limits) (debug : Bool) (input : Input) (steps : List Step)
    (step : Step) :
    (Session.afterSteps limits debug (steps ++ [step]) { input }).scopes.length ≤ 1 ∧
      step.Outcome limits debug (Session.afterSteps limits debug steps { input }).scopes
        (step.run limits debug (Session.afterSteps limits debug steps { input })) := by
  have new := Machine.resting_new input
  have before := Session.resting_afterSteps limits debug steps new
  have after := Session.resting_afterSteps limits debug (steps ++ [step]) new
  exact ⟨after.length_le, (step.outcome limits debug before).1⟩

theorem unlogged_program_leaves_no_root :
    (∃ p, (Step.program (printSigned 6000)).read = .ok p) ∧
      ∃ m, Step.run {} true (.program (printSigned 6000)) {} = .error (.breakdown .exhausted) m ∧
        m.scopes = [] := by
  obtain ⟨p, parsed, deep⟩ := parse_printSigned (n := 6000) (by decide)
  have accepted : (Step.program (printSigned 6000)).read = .ok p := parsed
  have tooDeep : ¬ p.Loggable {} := by
    unfold Program.Loggable
    have nesting : ({} : Limits).nesting = 10000 := rfl
    omega
  refine ⟨⟨p, accepted⟩, {}, ?_, rfl⟩
  rw [Step.run_eq, accepted]
  dsimp only
  rw [Program.run_unlogged tooDeep]
  rfl

end PlZero
