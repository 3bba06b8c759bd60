import PlZero.Proofs.KeptScopes
import PlZero.Proofs.ScopeStore
import PlZero.Proofs.StatementFrame

set_option autoImplicit false

namespace PlZero

namespace Exec

variable {α β : Type} {x : Exec α} {name : String} {m after : Machine}

def FailsOn (after : Machine) (x : Exec α) (m : Machine) : Prop :=
  ∀ r m', x m = .error (.report r) m' → m' = after

theorem FailsOn.locating (fails : x.FailsOn after m) (p : Position) :
    (locating p x).FailsOn after m := by
  intro r m' failed
  unfold Exec.locating at failed
  cases result : x m with
  | ok a m₁ =>
    rw [result] at failed
    cases failed
  | error f m₁ =>
    rw [result] at failed
    cases f with
    | breakdown b => cases failed
    | report r' =>
      cases failed
      exact fails r' m' result

theorem FailsOn.bind {f : α → Exec β} (first : x.FailsOn after m)
    (rest : ∀ a m', x m = .ok a m' → (f a).FailsOn after m') : (x >>= f).FailsOn after m := by
  intro r m' failed
  simp only [Bind.bind, EStateM.bind] at failed
  cases result : x m with
  | ok a m₁ =>
    rw [result] at failed
    exact rest a m₁ result r m' failed
  | error f m₁ =>
    rw [result] at failed
    cases failed
    exact first r m' result

theorem failsOn_ofExcept (y : Except Stop α) (m : Machine) : (ofExcept y).FailsOn m m := by
  cases y with
  | ok a =>
    intro r m' failed
    cases failed
  | error f =>
    rintro r m' ⟨⟩
    rfl

theorem failsOn_result (n : Nat) (e : Node) (m : Machine) : (result n e).FailsOn m m :=
  failsOn_ofExcept (evaluate m.scopes n e) m

theorem failsOn_value (n : Nat) (e : Node) (m : Machine) : (value n e).FailsOn m m := by
  apply (failsOn_result n e m).bind
  intro r m' evaluated
  rw [(result_ok evaluated).2]
  exact failsOn_ofExcept r.toValue m

theorem failsOn_assign (name : String) (d : Datum) (m : Machine) :
    (assign name d).FailsOn m m := by
  intro r m' failed
  rw [assign_run] at failed
  split at failed
  · cases failed
  · split at failed
    · cases failed
    · cases failed
      rfl

theorem assign_active (some : m.scopes ≠ []) (name : String) (d : Datum) :
    assign name d m = match m.scopes.assign name d with
      | .ok st => .ok () { m with scopes := st }
      | .error f => .error f m := by
  simp only [assign, Bind.bind, EStateM.bind, activeScopes_run some]
  cases m.scopes.assign name d <;> rfl

-- Without scopes there is a breakdown, which is no report.
theorem FailsOn.ofActive {f : Stack → Exec α} (rest : (f m.scopes).FailsOn after m) :
    (activeScopes >>= f).FailsOn after m := by
  obtain ⟨st, input, output, log⟩ := m
  cases st with
  | nil =>
    intro r m' failed
    cases failed
  | cons s st => exact rest

theorem failsOn_call {run : Node → Exec Unit} (absent : m.scopes.findProcedure name = none) :
    (call run name).FailsOn m m := by
  apply FailsOn.ofActive
  rw [absent]
  exact failsOn_ofExcept (fail (.procedureNotFound name)) m

theorem readDatum_ok {d : Datum} {m' : Machine} (read : readDatum m = .ok d m') :
    m' = { m with input := m.input.read.2 } ∧ (∃ v, d.toValue = .ok v) ∧
      m.input.read.2.lines = m.input.lines.tail := by
  rw [readDatum_run] at read
  obtain ⟨st, ⟨lines, patience⟩, output, log⟩ := m
  match patience, lines with
  | some 0, _ => cases read
  | none, [] | some (_ + 1), [] | none, _ :: _ | some (_ + 1), _ :: _ =>
    cases read
    exact ⟨rfl, ⟨_, rfl⟩, rfl⟩

theorem failsOn_input_variable {v : Variable} (found : m.scopes.findVariable name = some v)
    (changes : v.isConstant = false) : (input name).FailsOn m m := by
  have some := Stack.ne_nil_of_findVariable found
  apply FailsOn.ofActive
  rw [found]
  apply FailsOn.bind
  · intro r m' failed
    obtain ⟨m₁, _, ⟨d, w, read, _⟩ | read⟩ := readDatum_cases m
    · cases failed.symm.trans read
    · cases failed.symm.trans read
  · intro d m₁ read r m' failed
    obtain ⟨rfl, ⟨w, value⟩, _⟩ := readDatum_ok read
    obtain ⟨st, depth, assigns, _⟩ := Stack.assign_assigned found changes value
    have stored := assign_active (m := { m with input := m.input.read.2 }) some name d
    simp only [assigns] at stored
    cases failed.symm.trans stored

theorem input_constant_failed {v : Variable} {r : Report Fault} {m' : Machine}
    (found : m.scopes.findVariable name = some v) (constant : v.isConstant = true)
    (failed : input name m = .error (.report r) m') :
    r.cause = .reassignedConstant ∧ m' = { m with input := m.input.read.2 } ∧
      m.input.read.2.lines = m.input.lines.tail := by
  have some := Stack.ne_nil_of_findVariable found
  simp only [input, Bind.bind, EStateM.bind, activeScopes_run some, found] at failed
  cases read : readDatum m with
  | error f m₁ =>
    obtain ⟨m₂, _, ⟨d, w, read', _⟩ | read'⟩ := readDatum_cases m
    · cases read.symm.trans read'
    · rw [read'] at failed
      cases failed
  | ok d m₁ =>
    obtain ⟨rfl, _, lines⟩ := readDatum_ok read
    rw [read] at failed
    have refused := assign_active (m := { m with input := m.input.read.2 }) some name d
    simp only [(Stack.Refuses.constant found constant).assign_eq] at refused
    cases failed.symm.trans refused
    exact ⟨rfl, rfl, lines⟩

end Exec

open Exec

inductive Node.Simple (st : Stack) : Node → Prop
  | assignment {pos : Position} {target : Identifier} {e : Node} : Simple st (.assignment pos target e)
  | input {pos : Position} {target : Identifier} : Simple st (.input pos target)
  | print {pos : Position} {e : Node} : Simple st (.print pos e)
  | call {pos : Position} {target : Identifier} : st.findProcedure target.name = none →
      Simple st (.call pos target)

def Node.ReadsConstant (st : Stack) (node : Node) : Prop :=
  ∃ pos target v, node = .input pos target ∧ st.findVariable target.name = some v ∧
    v.isConstant = true

theorem input_failed {rounds n : Nat} {pos : Position} {target : Identifier} {m m' : Machine}
    {r : Report Fault} (failed : execute rounds n (.input pos target) m = .error (.report r) m') :
    ∃ r', r.cause = r'.cause ∧ input target.name m = .error (.report r') m' := by
  match n with
  | 0 | 1 | 2 => cases failed
  | n + 3 =>
    unfold execute locating at failed
    dsimp only at failed
    cases result : input target.name m with
    | ok a m₁ =>
      rw [result] at failed
      cases failed
    | error f m₁ =>
      rw [result] at failed
      cases f with
      | breakdown b => cases failed
      | report r' =>
        cases failed
        exact ⟨r', Report.cause_locate pos.line pos.column r', rfl⟩

theorem Node.Simple.failsOn {m : Machine} {node : Node} (simple : node.Simple m.scopes)
    (plain : ¬ node.ReadsConstant m.scopes) (rounds n : Nat) :
    (execute rounds n node).FailsOn m m := by
  match n with
  | 0 | 1 | 2 => exact failsOn_ofExcept (breakDown .exhausted) m
  | n + 3 =>
    unfold execute
    cases simple with
    | assignment =>
      apply FailsOn.locating
      apply (failsOn_result _ _ m).bind
      intro r m' evaluated
      rw [(result_ok evaluated).2]
      exact failsOn_assign _ _ m
    | print =>
      apply FailsOn.locating
      apply (failsOn_value _ _ m).bind
      intro v m' evaluated r m'' failed
      cases failed
    | call absent => exact (failsOn_call absent).locating _
    | @input pos target =>
      apply FailsOn.locating
      cases found : m.scopes.findVariable target.name with
      | none =>
        apply FailsOn.ofActive
        rw [found]
        exact failsOn_ofExcept (fail (.variableNotFound target.name)) m
      | some v =>
        cases changes : v.isConstant with
        | false => exact failsOn_input_variable found changes
        | true => exact absurd ⟨pos, target, v, rfl, found, changes⟩ plain

/-- A simple statement that fails leaves the machine as it was, on whatever machine it runs. The
exception is a reading into a constant: the scopes, the output and the log are as they were, but the
first line of the input is gone. -/
theorem failing_statement_changes_nothing {rounds n : Nat} {node : Node} {m m' : Machine}
    {r : Report Fault} (simple : node.Simple m.scopes)
    (failed : execute rounds n node m = .error (.report r) m') :
    (¬ node.ReadsConstant m.scopes → m' = m) ∧
    (node.ReadsConstant m.scopes → r.cause = .reassignedConstant ∧
      m' = { m with input := m.input.read.2 } ∧
      m.input.read.2.lines = m.input.lines.tail) := by
  constructor
  · intro plain
    exact simple.failsOn plain rounds n r m' failed
  · rintro ⟨pos, target, v, rfl, found, constant⟩
    obtain ⟨r', cause, failed'⟩ := input_failed failed
    rw [cause]
    exact input_constant_failed found constant failed'

-- The operands of a division are evaluated before the assignment looks for its variable.
theorem failing_statement_changes_nothing_division :
    let m := Session.afterSteps {} false [.entry "var x; begin x := 3; ! x end"]
      { input := { lines := ["5", "7"] } }
    let node : Node := .assignment .start ⟨.start, "x"⟩
      (.binary .start .slash (.identifier ⟨.start, "x"⟩) (.literal ⟨.start, .integer, "0"⟩))
    m.output = "3\n" ∧ node.Simple m.scopes ∧ ¬ node.ReadsConstant m.scopes ∧
      execute 10 10 node m = .error (.ofCauseAt .start .divideByZero) m := by
  intro m node
  have simple : node.Simple m.scopes := .assignment
  have plain : ¬ node.ReadsConstant m.scopes := by
    rintro ⟨pos, target, v, same, _⟩
    change Node.assignment _ _ _ = _ at same
    cases same
  have fails : failureOf (execute 10 10 node m) = some (.ofCauseAt .start .divideByZero) := by
    decide +kernel
  cases result : execute 10 10 node m with
  | ok _ m' =>
    rw [result] at fails
    cases fails
  | error f m' =>
    rw [result] at fails
    cases fails
    have unchanged := (failing_statement_changes_nothing simple result).1 plain
    exact ⟨by decide +kernel, simple, plain, by rw [unchanged]⟩

theorem reading_into_constant_takes_line :
    let input : Input := { lines := ["5", "7"] }
    let m := Session.afterSteps {} false [.entry "const c = 1;"] { input }
    let node : Node := .input .start ⟨⟨2, 1, 3⟩, "c"⟩
    Session.Reaches {} false input m ∧ node.Simple m.scopes ∧
      (∃ k r r', Grammar.statement k r = .ok (some node) r') ∧
      ∃ m', execute 10 10 node m = .error (.ofCauseAt .start .reassignedConstant) m' ∧
        m.input.lines = ["5", "7"] ∧ m'.input.lines = ["7"] := by
  intro input m node
  have fails : failureOf (execute 10 10 node m) =
      some (.ofCauseAt .start .reassignedConstant) := by
    decide +kernel
  have left : (machineOf (execute 10 10 node m)).input.lines = ["7"] := by decide +kernel
  have parsed : Grammar.statement 1 ⟨⟨.question, "?", .start⟩,
      ⟨[⟨.name, "c", ⟨2, 1, 3⟩⟩], .ok ⟨.eof, "", ⟨3, 1, 4⟩⟩⟩, 0⟩ =
        .ok (some node) ⟨⟨.eof, "", ⟨3, 1, 4⟩⟩, ⟨[], .ok ⟨.eof, "", ⟨3, 1, 4⟩⟩⟩, 0⟩ := rfl
  refine ⟨.between _, .input, ⟨_, _, _, parsed⟩, ?_⟩
  cases result : execute 10 10 node m with
  | ok _ m' =>
    rw [result] at fails
    cases fails
  | error f m' =>
    rw [result] at fails left
    cases fails
    exact ⟨m', rfl, by decide +kernel, left⟩

end PlZero
