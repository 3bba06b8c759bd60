import PlZero.Text.Order
import PlZero.Value

set_option autoImplicit false

namespace PlZero

structure Variable where
  value : Value := .invalid
  isConstant : Bool := false
deriving DecidableEq

namespace Variable

/-- A constant rejects every datum, before it is looked at. -/
def assign (v : Variable) (d : Datum) : Except Stop Variable :=
  if v.isConstant then fail .reassignedConstant
  else d.toValue.map fun value => { v with value }

def describe (v : Variable) : String :=
  (if v.isConstant then "Variable(const " else "Variable(") ++ v.value.describe ++ ")"

end Variable

structure Scope where
  variableTable : List (String × Variable) := []
  procedureTable : List (String × Procedure) := []

def replaceEntry {α : Type} (name : String) (a : α) : List (String × α) → List (String × α)
  | [] => []
  | (key, b) :: entries =>
    if name = key then (key, a) :: entries else (key, b) :: replaceEntry name a entries

theorem lookup_replaceEntry_self {α : Type} {name : String} {a b : α}
    {entries : List (String × α)} (h : entries.lookup name = some b) :
    (replaceEntry name a entries).lookup name = some a := by
  induction entries with
  | nil => simp at h
  | cons entry entries ih =>
    obtain ⟨key, c⟩ := entry
    by_cases same : name = key
    · simp [replaceEntry, same]
    · simp_all [replaceEntry, List.lookup_cons, beq_false_of_ne same]

theorem lookup_replaceEntry_of_ne {α : Type} {name other : String} (h : other ≠ name) (a : α)
    (entries : List (String × α)) :
    (replaceEntry name a entries).lookup other = entries.lookup other := by
  induction entries with
  | nil => rfl
  | cons entry entries ih =>
    obtain ⟨key, c⟩ := entry
    by_cases same : name = key
    · subst same; simp [replaceEntry, List.lookup_cons, beq_false_of_ne h]
    · simp [replaceEntry, same, List.lookup_cons, ih]

namespace Scope

def findVariable (s : Scope) (name : String) : Option Variable := s.variableTable.lookup name

def findProcedure (s : Scope) (name : String) : Option Procedure := s.procedureTable.lookup name

def declares (s : Scope) (name : String) : Bool :=
  (s.findVariable name).isSome || (s.findProcedure name).isSome

/-- Declares a variable or a constant. The name is looked at before the datum. -/
def declareVariable (s : Scope) (name : String) (d : Datum) (isConstant : Bool) :
    Except Stop Scope :=
  if s.declares name then fail (.redeclared name)
  else d.toValue.map fun value =>
    { s with variableTable := (name, ⟨value, isConstant⟩) :: s.variableTable }

def declareProcedure (s : Scope) (p : Procedure) : Except Stop Scope :=
  if s.declares p.name then fail (.redeclared p.name)
  else .ok { s with procedureTable := (p.name, p) :: s.procedureTable }

def setVariable (s : Scope) (name : String) (v : Variable) : Scope :=
  { s with variableTable := replaceEntry name v s.variableTable }

def variableNames (s : Scope) : List String := Text.sorted (s.variableTable.map (·.1))

def procedureNames (s : Scope) : List String := Text.sorted (s.procedureTable.map (·.1))

def describe (s : Scope) (depth : Nat) : String :=
  let names := s.variableNames ++ s.procedureNames.map (· ++ "()")
  let list := String.intercalate ", " names
  s!"Scope(depth={depth}, names=[{list}])"

end Scope

abbrev Stack := List Scope

namespace Stack

def depth (st : Stack) : Nat := st.length - 1

def findVariable (st : Stack) (name : String) : Option Variable :=
  st.findSome? (·.findVariable name)

def findProcedure (st : Stack) (name : String) : Option Procedure :=
  st.findSome? (·.findProcedure name)

def procedureDepth : Stack → String → Option Nat
  | [], _ => none
  | s :: st, name =>
    if (s.findProcedure name).isSome then some st.length else procedureDepth st name

def assign (name : String) (d : Datum) : Stack → Except Stop Stack
  | [] => fail (.nameNotFound name)
  | s :: st =>
    match s.findVariable name with
    | some v => (v.assign d).map fun v => s.setVariable name v :: st
    | none => (assign name d st).map (s :: ·)

theorem length_assign {name : String} {d : Datum} {st st' : Stack}
    (h : st.assign name d = .ok st') : st'.length = st.length := by
  induction st generalizing st' with
  | nil => simp [assign, fail] at h
  | cons s st ih =>
    rw [assign] at h
    split at h
    · next v _ =>
      cases assigned : v.assign d with
      | error f => simp [assigned, Except.map] at h
      | ok v => simp only [assigned, Except.map, Except.ok.injEq] at h; simp [← h]
    · cases rest : assign name d st with
      | error f => simp [rest, Except.map] at h
      | ok st'' => simp only [rest, Except.map, Except.ok.injEq] at h; simp [← h, ih rest]

def outermost (n : Nat) (st : Stack) : Stack := st.drop (st.length - n)

end Stack

end PlZero
