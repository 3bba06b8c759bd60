import PlZero.Proofs.ActionLaws
import PlZero.Proofs.RaisedFaults
import PlZero.Proofs.ScopeChanges

set_option autoImplicit false

namespace PlZero

inductive Naming
  | datum (name : String) (d : Datum) (isConstant : Bool)
  | procedure (p : Procedure)

namespace Naming

def name : Naming → String
  | datum name _ _ => name
  | procedure p => p.name

def addTo (s : Scope) : Naming → Except Stop Scope
  | datum name d isConstant => s.declareVariable name d isConstant
  | procedure p => s.declareProcedure p

/-- What the name stands for, as a variable and as a procedure. A datum without a value is nothing
that a name could stand for. -/
inductive Means : Naming → Option Variable → Option Procedure → Prop
  | datum {name : String} {d : Datum} {isConstant : Bool} {w : Value} : d.toValue = .ok w →
      Means (.datum name d isConstant) (some ⟨w, isConstant⟩) none
  | procedure {p : Procedure} : Means (.procedure p) none (some p)

end Naming

inductive ScopeOperation
  | push
  | pop
  | declare (n : Naming)
  | assign (name : String) (d : Datum)

def ScopeOperation.run : ScopeOperation → Exec Unit
  | push => modify Machine.push
  | pop => modify Machine.pop
  | declare n => Exec.onInnermost (n.addTo ·)
  | assign name d => Exec.assign name d

def Machine.after (operations : List ScopeOperation) (m : Machine) : Machine :=
  operations.foldl (fun m operation => machineOf (operation.run m)) m

namespace Stack

/-- What is seen of the scopes from the one that has `k` others inside it. -/
def outward (k : Nat) (st : Stack) : Stack := st.drop k

@[simp] theorem outward_zero (st : Stack) : st.outward 0 = st := rfl

@[simp] theorem outward_succ_cons (k : Nat) (s : Scope) (st : Stack) :
    outward (k + 1) (s :: st) = st.outward k := rfl

def variableDepth : Stack → String → Option Nat
  | [], _ => none
  | s :: st, name =>
    if (s.findVariable name).isSome then some st.length else variableDepth st name

structure Binds (name : String) (v : Option Variable) (p : Option Procedure) (st st' : Stack) :
    Prop where
  length_eq : st'.length = st.length
  tail_eq : st'.tail = st.tail
  findVariable : ∀ other, (st'.headD {}).findVariable other =
    if other = name then v else (st.headD {}).findVariable other
  findProcedure : ∀ other, (st'.headD {}).findProcedure other =
    if other = name then p else (st.headD {}).findProcedure other

/-- Every lookup leads where it led, and finds what it found, unless it leads to the variable with
the name at the depth: that one has become another. -/
structure Agrees (name : String) (depth : Nat) (v : Variable) (st st' : Stack) : Prop where
  variableDepth : ∀ other, st'.variableDepth other = st.variableDepth other
  findVariable : ∀ other, st'.findVariable other =
    if other = name ∧ st.variableDepth other = some depth then some v else st.findVariable other
  findProcedure : ∀ other, st'.findProcedure other = st.findProcedure other

structure Assigned (name : String) (depth : Nat) (v : Variable) (st st' : Stack) : Prop where
  length_eq : st'.length = st.length
  agrees : ∀ k, Agrees name depth v (st.outward k) (st'.outward k)

end Stack

namespace ScopeOperation

def Allowed (st : Stack) : ScopeOperation → Prop
  | push | pop => True
  | declare n => (st.headD {}).declares n.name = false ∧ ∃ v p, n.Means v p
  | assign name d => ∃ v w, st.findVariable name = some v ∧ v.isConstant = false ∧ d.toValue = .ok w

def Does (st st' : Stack) : ScopeOperation → Prop
  | push => st' = {} :: st
  | pop => st' = if st.length ≤ 1 then st else st.tail
  | declare n => ∃ v p, n.Means v p ∧ st.Binds n.name v p st'
  | assign name d => ∃ depth v w, st.variableDepth name = some depth ∧
      st.findVariable name = some v ∧ d.toValue = .ok w ∧
      st'.findVariable name = some { v with value := w } ∧
      st.Assigned name depth { v with value := w } st'

def refusals : List Kind :=
  [.redeclared, .undefinedName, .reassignedConstant, .unsupportedDataType]

end ScopeOperation

section Lookups

variable {s s' : Scope} {st st' : Stack} {name other : String} {v : Variable} {depth : Nat}

namespace Stack

theorem variableDepth_lt (leads : variableDepth st name = some depth) : depth < st.length := by
  induction st with
  | nil => cases leads
  | cons s st ih =>
    rw [variableDepth] at leads
    split at leads
    · cases leads
      exact Nat.lt_succ_self _
    · exact Nat.lt_succ_of_lt (ih leads)

theorem variableDepth_cons (s : Scope) (st : Stack) (name : String) :
    variableDepth (s :: st) name =
      if (s.findVariable name).isSome then some st.length else variableDepth st name := rfl

theorem findVariable_cons (s : Scope) (st : Stack) (name : String) :
    findVariable (s :: st) name = (s.findVariable name).or (findVariable st name) := by
  simp only [findVariable, List.findSome?_cons]
  cases s.findVariable name <;> rfl

theorem findProcedure_cons (s : Scope) (st : Stack) (name : String) :
    findProcedure (s :: st) name = (s.findProcedure name).or (findProcedure st name) := by
  simp only [findProcedure, List.findSome?_cons]
  cases s.findProcedure name <;> rfl

theorem Agrees.of_length_le (outside : st.length ≤ depth) (name : String) (v : Variable) :
    st.Agrees name depth v st := by
  refine ⟨fun _ => rfl, fun other => (if_neg ?_).symm, fun _ => rfl⟩
  rintro ⟨_, leads⟩
  exact absurd (variableDepth_lt leads) (Nat.not_lt.2 outside)

theorem Assigned.cons (whole : Agrees name depth v (s :: st) (s' :: st'))
    (assigned : Assigned name depth v st st') : Assigned name depth v (s :: st) (s' :: st') := by
  refine ⟨congrArg (· + 1) assigned.length_eq, fun k => ?_⟩
  cases k with
  | zero => exact whole
  | succ k => exact assigned.agrees k

-- The variable is in the innermost scope, so that no lookup from outside leads to it.
theorem assigned_here (found : s.findVariable name = some v) (w : Variable) (st : Stack) :
    Assigned name st.length w (s :: st) (s.setVariable name w :: st) := by
  have lookup (other : String) : (s.setVariable name w).findVariable other =
      if other = name then some w else s.findVariable other :=
    Scope.findVariable_setVariable found
  refine .cons ⟨fun other => ?_, fun other => ?_, fun other => ?_⟩ ⟨rfl, fun k => ?_⟩
  · simp only [variableDepth_cons, lookup]
    by_cases same : other = name <;> simp [same, found]
  · simp only [variableDepth_cons, findVariable_cons, lookup]
    by_cases same : other = name <;> simp [same, found]
  · simp only [findProcedure_cons]
    rfl
  · exact .of_length_le (by simp [outward]) name w

-- The variable is further out; the innermost scope may have the name as a procedure alone.
theorem assigned_outside (absent : s.findVariable name = none)
    (leads : st.variableDepth name = some depth) (assigned : Assigned name depth v st st') :
    Assigned name depth v (s :: st) (s :: st') := by
  obtain ⟨depths, finds, procedures⟩ := assigned.agrees 0
  simp only [outward_zero] at depths finds procedures
  refine .cons ⟨fun other => ?_, fun other => ?_, fun other => ?_⟩ assigned
  · simp only [variableDepth_cons, depths, assigned.length_eq]
  · simp only [variableDepth_cons, findVariable_cons, finds]
    by_cases same : other = name
    · simp [same, absent, leads]
    · simp [same]
  · simp only [findProcedure_cons, procedures]

theorem assign_assigned {d : Datum} {w : Value} (found : st.findVariable name = some v)
    (changes : v.isConstant = false) (value : d.toValue = .ok w) :
    ∃ st' depth, st.assign name d = .ok st' ∧ st.variableDepth name = some depth ∧
      st.Assigned name depth { v with value := w } st' := by
  induction st with
  | nil => cases found
  | cons s st ih =>
    cases here : s.findVariable name with
    | some u =>
      rw [findVariable_of_inner here] at found
      cases found
      refine ⟨_, st.length, ?_, by simp [Stack.variableDepth, here], assigned_here here _ st⟩
      rw [assign, here]
      simp only [Variable.assign, changes, value]
      rfl
    | none =>
      rw [findVariable_of_outer here] at found
      obtain ⟨st', depth, assigns, leads, assigned⟩ := ih found
      refine ⟨s :: st', depth, ?_, by simp [Stack.variableDepth, here, leads],
        assigned_outside here leads assigned⟩
      rw [assign, here]
      simp only [assigns]
      rfl

end Stack

end Lookups

theorem Datum.toValue_cases (d : Datum) :
    (∃ w, d.toValue = .ok w) ∨ ∃ type, d.toValue = fail (.unsupportedData type) := by
  cases d with
  | unsupported type => exact .inr ⟨type, rfl⟩
  | _ => exact .inl ⟨_, rfl⟩

theorem Stack.assign_of_valueless {st : Stack} {name : String} {v : Variable} {d : Datum} {f : Stop}
    (found : st.findVariable name = some v) (changes : v.isConstant = false)
    (valueless : d.toValue = .error f) : st.assign name d = .error f := by
  induction st with
  | nil => cases found
  | cons s st ih =>
    rw [assign]
    cases here : s.findVariable name with
    | some u =>
      rw [findVariable_of_inner here] at found
      cases found
      simp only [Variable.assign, changes, valueless]
      rfl
    | none =>
      rw [findVariable_of_outer here] at found
      simp only [ih found]
      rfl

inductive ScopeOperation.Outcome (operation : ScopeOperation) (m : Machine) :
    EStateM.Result Stop Machine Unit → Prop
  | done {m' : Machine} : operation.Allowed m.scopes → operation.Does m.scopes m'.scopes →
      Outcome operation m (.ok () m')
  | refused {cause : Fault} : ¬ operation.Allowed m.scopes → cause.kind ∈ refusals →
      Outcome operation m (.error (.ofCause cause) m)

namespace Naming

variable {n : Naming} {s s' : Scope} {v : Option Variable} {p : Option Procedure}

theorem binds_withVariable {name : String} (unused : s.declares name = false) (v : Variable)
    (st : Stack) : Stack.Binds name (some v) none (s :: st) (s.withVariable name v :: st) := by
  refine ⟨rfl, rfl, fun other => Scope.findVariable_withVariable, fun other => ?_⟩
  change s.findProcedure other = _
  by_cases same : other = name
  · simp [same, (Scope.declares_eq_false.1 unused).2]
  · simp [same]

theorem binds_withProcedure {p : Procedure} (unused : s.declares p.name = false) (st : Stack) :
    Stack.Binds p.name none (some p) (s :: st) (s.withProcedure p :: st) := by
  refine ⟨rfl, rfl, fun other => ?_, fun other => Scope.findProcedure_withProcedure⟩
  change s.findVariable other = _
  by_cases same : other = p.name
  · simp [same, (Scope.declares_eq_false.1 unused).1]
  · simp [same]

theorem addTo_of_unused (unused : s.declares n.name = false) (means : n.Means v p) (st : Stack) :
    ∃ s', n.addTo s = .ok s' ∧ Stack.Binds n.name v p (s :: st) (s' :: st) := by
  have free : ¬ s.declares n.name = true := ne_true_of_eq_false unused
  cases means with
  | @datum name d isConstant w value =>
    refine ⟨_, ?_, binds_withVariable unused ⟨w, isConstant⟩ st⟩
    refine (if_neg free).trans ?_
    rw [value]
    rfl
  | procedure => exact ⟨_, if_neg free, binds_withProcedure unused st⟩

theorem addTo_of_used (used : s.declares n.name = true) :
    n.addTo s = fail (.redeclared n.name) := by
  cases n <;> exact if_pos used

theorem means_or_unsupported (n : Naming) :
    (∃ v p, n.Means v p) ∨
      (¬ ∃ v p, n.Means v p) ∧ ∃ type, ∀ s : Scope, s.declares n.name = false →
        n.addTo s = fail (.unsupportedData type) := by
  cases n with
  | procedure p => exact .inl ⟨_, _, .procedure⟩
  | datum name d isConstant =>
    rcases d.toValue_cases with ⟨w, value⟩ | ⟨type, valueless⟩
    · exact .inl ⟨_, _, .datum value⟩
    · refine .inr ⟨?_, type, fun s unused => ?_⟩
      · rintro ⟨_, _, ⟨value⟩⟩
        rw [valueless] at value
        cases value
      · refine (if_neg (ne_true_of_eq_false unused)).trans ?_
        rw [valueless]
        rfl

end Naming

namespace ScopeOperation

variable {m : Machine}

theorem outcome_declare (active : m.scopes ≠ []) (n : Naming) :
    Outcome (.declare n) m ((declare n).run m) := by
  obtain ⟨st, input, output, log⟩ := m
  cases st with
  | nil => exact absurd rfl active
  | cons s st =>
    rw [run, Exec.onInnermost]
    dsimp only
    cases unused : s.declares n.name with
    | true =>
      rw [Naming.addTo_of_used unused]
      refine .refused ?_ (by simp [refusals, Fault.kind])
      rintro ⟨free, _⟩
      exact absurd (free.symm.trans unused) nofun
    | false =>
      rcases n.means_or_unsupported with ⟨v, p, means⟩ | ⟨meaningless, type, refused⟩
      · obtain ⟨s', added, binds⟩ := Naming.addTo_of_unused unused means st
        rw [added]
        exact .done ⟨unused, v, p, means⟩ ⟨v, p, means, binds⟩
      · rw [refused s unused]
        exact .refused (fun allowed => meaningless allowed.2) (by simp [refusals, Fault.kind])

theorem outcome_assign (active : m.scopes ≠ []) (name : String) (d : Datum) :
    Outcome (.assign name d) m ((assign name d).run m) := by
  obtain ⟨st, input, output, log⟩ := m
  rw [run, Exec.assign]
  simp only [Bind.bind, EStateM.bind, Exec.activeScopes_run active]
  cases found : st.findVariable name with
  | none =>
    rw [(Stack.Refuses.unknown found).assign_eq]
    refine .refused ?_ (by simp [refusals, Fault.kind])
    rintro ⟨v, _, found', _⟩
    rw [found] at found'
    cases found'
  | some v =>
    have only {u : Variable} (found' : st.findVariable name = some u) : u = v :=
      Option.some.inj (found'.symm.trans found)
    cases constant : v.isConstant with
    | true =>
      rw [(Stack.Refuses.constant found constant).assign_eq]
      refine .refused ?_ (by simp [refusals, Fault.kind])
      rintro ⟨u, _, found', changes, _⟩
      rw [only found', constant] at changes
      cases changes
    | false =>
      rcases d.toValue_cases with ⟨w, value⟩ | ⟨type, valueless⟩
      · obtain ⟨st', depth, assigns, leads, assigned⟩ :=
          Stack.assign_assigned found constant value
        rw [assigns]
        refine .done ⟨v, w, found, constant, value⟩ ⟨depth, v, w, leads, found, value, ?_, assigned⟩
        have now := (assigned.agrees 0).findVariable name
        simpa [leads] using now
      · rw [Stack.assign_of_valueless found constant valueless]
        refine .refused ?_ (by simp [refusals, Fault.kind])
        rintro ⟨_, _, _, _, value⟩
        rw [valueless] at value
        cases value

theorem outcome (active : m.scopes ≠ []) (operation : ScopeOperation) :
    operation.Outcome m (operation.run m) := by
  cases operation with
  | push => exact .done trivial rfl
  | pop =>
    refine .done trivial ?_
    obtain ⟨st, _, _, _⟩ := m
    match st with
    | [_] | _ :: _ :: _ => rfl
  | declare n => exact outcome_declare active n
  | assign name d => exact outcome_assign active name d

theorem Does.ne_nil {operation : ScopeOperation} {st st' : Stack} (does : operation.Does st st')
    (active : st ≠ []) : st' ≠ [] := by
  rw [← List.length_pos_iff] at *
  cases operation with
  | push =>
    cases does
    exact Nat.succ_pos _
  | pop =>
    change st' = if st.length ≤ 1 then st else st.tail at does
    rw [does]
    split
    · exact active
    · rw [List.length_tail]
      omega
  | declare n =>
    obtain ⟨_, _, _, binds⟩ := does
    rwa [binds.length_eq]
  | assign name d =>
    obtain ⟨_, _, _, _, _, _, _, assigned⟩ := does
    rwa [assigned.length_eq]

end ScopeOperation

namespace Machine

variable {m : Machine}

theorem after_ne_nil (operations : List ScopeOperation) (active : m.scopes ≠ []) :
    (m.after operations).scopes ≠ [] := by
  induction operations generalizing m with
  | nil => exact active
  | cons operation operations ih =>
    have outcome := operation.outcome active
    refine ih (m := machineOf (operation.run m)) ?_
    generalize operation.run m = r at outcome
    cases outcome with
    | done _ does => exact does.ne_nil active
    | refused => exact active

theorem tail_after_declarations (namings : List Naming) (active : m.scopes ≠ []) :
    (m.after (namings.map .declare)).scopes.tail = m.scopes.tail := by
  induction namings generalizing m with
  | nil => rfl
  | cons n namings ih =>
    have outcome := ScopeOperation.outcome_declare active n
    change ((machineOf ((ScopeOperation.declare n).run m)).after _).scopes.tail = _
    generalize (ScopeOperation.declare n).run m = r at outcome
    cases outcome with
    | done _ does =>
      have later := ih (does.ne_nil active)
      obtain ⟨_, _, _, binds⟩ := does
      exact later.trans binds.tail_eq
    | refused => exact ih active

theorem after_append (operations operations' : List ScopeOperation) (m : Machine) :
    m.after (operations ++ operations') = (m.after operations).after operations' :=
  List.foldl_append

theorem scopes_pop_of_tail {st : Stack} (tail : m.scopes.tail = st) (active : st ≠ []) :
    m.pop.scopes = st := by
  obtain ⟨scopes, _, _, _⟩ := m
  cases tail
  match scopes with
  | _ :: _ :: _ => rfl
  | [] | [_] => exact absurd rfl active

theorem scopes_after_own_scope (namings : List Naming) (active : m.scopes ≠ []) :
    (m.after (.push :: (namings.map .declare ++ [.pop]))).scopes = m.scopes := by
  change (m.push.after (namings.map .declare ++ [.pop])).scopes = _
  rw [after_append]
  exact scopes_pop_of_tail (tail_after_declarations namings (List.cons_ne_nil _ _)) active

end Machine

/-- Whatever has been done to the scopes since there was the root alone: every operation does what
it is for where it may be done, and leaves everything as it was where it may not; and declarations
in a scope of their own are undone when that scope is left. -/
theorem scopes_are_store (operations : List ScopeOperation) (namings : List Naming) :
    let m := ({ scopes := [{}] } : Machine).after operations
    (∀ operation : ScopeOperation, operation.Outcome m (operation.run m)) ∧
      (m.after (.push :: (namings.map .declare ++ [.pop]))).scopes = m.scopes := by
  intro m
  have active : m.scopes ≠ [] := Machine.after_ne_nil operations (List.cons_ne_nil _ _)
  exact ⟨ScopeOperation.outcome active, Machine.scopes_after_own_scope namings active⟩

-- An inner procedure does not hide the variable from an assignment, an inner constant does.
example :
    let constant : ScopeOperation := .declare (.datum "x" (.integer 1) true)
    let procedure : ScopeOperation := .declare (.procedure ⟨.start, "x", ⟨.start, []⟩⟩)
    let m (inner : ScopeOperation) := ({ scopes := [{}] } : Machine).after
      [.declare (.datum "x" .absent false), .push, inner, .assign "x" (.integer 7)]
    ((m procedure).scopes.outward 1).findVariable "x" = some ⟨.integer 7, false⟩ ∧
      ((m constant).scopes.outward 1).findVariable "x" = some ⟨.invalid, false⟩ := by
  decide

end PlZero
