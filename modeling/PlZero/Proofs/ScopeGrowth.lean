import Mathlib.Data.List.Forall2
import PlZero.Proofs.BlockBody
import PlZero.Statement

set_option autoImplicit false

namespace PlZero

def Variable.fixed (v : Variable) : Option Value := if v.isConstant then some v.value else none

theorem Variable.fixed_assign {v w : Variable} {d : Datum} (h : v.assign d = .ok w) :
    w.fixed = v.fixed := by
  unfold assign at h
  split at h
  · cases h
  · next changes =>
    cases value : d.toValue with
    | error f => rw [value] at h; cases h
    | ok u =>
      rw [value] at h
      cases h
      simp [fixed, changes]

namespace Scope

def signature (s : Scope) : List (String × Option Value) :=
  s.variableTable.map fun entry => (entry.1, entry.2.fixed)

/-- A later state of a scope, in which some of the names may be declared that were not before. -/
structure Grown (names : List String) (s s' : Scope) : Prop where
  signature : ∃ added, s'.signature = added ++ s.signature ∧ ∀ entry ∈ added, entry.1 ∈ names
  procedures : ∃ added, s'.procedureTable = added ++ s.procedureTable ∧
    ∀ entry ∈ added, entry.1 ∈ names

variable {names : List String} {s s' s'' : Scope}

theorem Grown.refl (names : List String) (s : Scope) : s.Grown names s :=
  ⟨⟨[], rfl, by simp⟩, ⟨[], rfl, by simp⟩⟩

theorem Grown.trans (h : s.Grown names s') (h' : s'.Grown names s'') : s.Grown names s'' := by
  obtain ⟨⟨added, eq, within⟩, ⟨more, eq', within'⟩⟩ := h
  obtain ⟨⟨added', eq₁, within₁⟩, ⟨more', eq₂, within₂⟩⟩ := h'
  refine ⟨⟨added' ++ added, by simp [eq₁, eq], ?_⟩, ⟨more' ++ more, by simp [eq₂, eq'], ?_⟩⟩
  · exact List.forall_mem_append.2 ⟨within₁, within⟩
  · exact List.forall_mem_append.2 ⟨within₂, within'⟩

theorem Grown.widen (h : s.Grown [] s') : s.Grown names s' := by
  obtain ⟨⟨added, eq, within⟩, ⟨more, eq', within'⟩⟩ := h
  exact ⟨⟨added, eq, fun entry mem => (nomatch within entry mem)⟩,
    ⟨more, eq', fun entry mem => (nomatch within' entry mem)⟩⟩

def Callable (s : Scope) : Prop :=
  ∀ entry ∈ s.procedureTable, ∀ node ∈ entry.2.body.body, node.Inner

theorem signature_replaceEntry {name : String} {v w : Variable} {table : List (String × Variable)}
    (found : table.lookup name = some v) (same : w.fixed = v.fixed) :
    (replaceEntry name w table).map (fun entry => (entry.1, entry.2.fixed)) =
      table.map fun entry => (entry.1, entry.2.fixed) := by
  induction table with
  | nil => rfl
  | cons entry table ih =>
    obtain ⟨key, u⟩ := entry
    by_cases this : name = key
    · subst this
      simp_all [replaceEntry]
    · rw [List.lookup_cons, beq_false_of_ne this] at found
      simp [replaceEntry, this, ih found]

theorem framed_setVariable {name : String} {v w : Variable} (found : s.findVariable name = some v)
    (same : w.fixed = v.fixed) : s.Grown [] (s.setVariable name w) :=
  ⟨⟨[], signature_replaceEntry found same, by simp⟩, ⟨[], rfl, by simp⟩⟩

theorem grown_declareVariable {name : String} {d : Datum} {isConstant : Bool} (mem : name ∈ names)
    (h : s.declareVariable name d isConstant = .ok s') :
    s.Grown names s' ∧ s'.procedureTable = s.procedureTable := by
  unfold declareVariable at h
  split at h
  · cases h
  · cases value : d.toValue with
    | error f => rw [value] at h; cases h
    | ok v =>
      rw [value] at h
      cases h
      exact ⟨⟨⟨[_], rfl, List.forall_mem_singleton.2 mem⟩, ⟨[], rfl, by simp⟩⟩, rfl⟩

theorem grown_declareProcedure {p : Procedure} (mem : p.name ∈ names)
    (h : s.declareProcedure p = .ok s') :
    s.Grown names s' ∧ s'.procedureTable = (p.name, p) :: s.procedureTable := by
  unfold declareProcedure at h
  split at h
  · cases h
  · cases h
    exact ⟨⟨⟨[], rfl, by simp⟩, ⟨[_], rfl, List.forall_mem_singleton.2 mem⟩⟩, rfl⟩

end Scope

namespace Stack

abbrev Framed (st st' : Stack) : Prop := List.Forall₂ (Scope.Grown []) st st'

inductive Grown (names : List String) : Stack → Stack → Prop
  | mk {s s' : Scope} {st st' : Stack} : s.Grown names s' → Framed st st' →
      Grown names (s :: st) (s' :: st')

variable {names : List String} {s s' : Scope} {st st' st'' : Stack}

theorem Framed.refl (st : Stack) : st.Framed st := List.forall₂_same.2 fun s _ => .refl [] s

theorem Framed.trans (h : st.Framed st') (h' : st'.Framed st'') : st.Framed st'' := by
  induction h generalizing st'' with
  | nil => exact h'
  | cons first _ ih =>
    cases h' with
    | cons first' rest' => exact .cons (first.trans first') (ih rest')

theorem Framed.grown (h : st.Framed st') (some : st ≠ []) : st.Grown names st' := by
  cases h with
  | nil => contradiction
  | cons first rest => exact .mk first.widen rest

theorem Grown.ne_nil (h : st.Grown names st') : st' ≠ [] := by
  cases h
  exact List.cons_ne_nil _ _

theorem Grown.trans (h : st.Grown names st') (h' : st'.Grown names st'') :
    st.Grown names st'' := by
  obtain ⟨top, below⟩ := h
  obtain ⟨top', below'⟩ := h'
  exact .mk (top.trans top') (Framed.trans below below')

def Callable (st : Stack) : Prop := ∀ s ∈ st, s.Callable

theorem callable_cons : Callable (s :: st) ↔ s.Callable ∧ Callable st := List.forall_mem_cons

theorem inner_of_findProcedure {name : String} {p : Procedure} (callable : st.Callable)
    (found : st.findProcedure name = some p) : ∀ node ∈ p.body.body, node.Inner := by
  obtain ⟨s, mem, found⟩ := List.exists_of_findSome?_eq_some found
  obtain ⟨earlier, later, table, _⟩ := List.lookup_eq_some_iff.1 found
  exact callable s mem (name, p) (by simp [table])

theorem framed_assign {name : String} {d : Datum} (h : st.assign name d = .ok st') :
    st.Framed st' ∧ (st.Callable → st'.Callable) := by
  induction st generalizing st' with
  | nil => cases h
  | cons s st ih =>
    rw [assign] at h
    split at h
    · next v found =>
      cases assigned : v.assign d with
      | error f => rw [assigned] at h; cases h
      | ok w =>
        rw [assigned] at h
        cases h
        have grown := Scope.framed_setVariable found (Variable.fixed_assign assigned)
        refine ⟨.cons grown (Framed.refl st), fun all => ?_⟩
        rw [callable_cons] at all ⊢
        exact all
    · cases rest : assign name d st with
      | error f => rw [rest] at h; cases h
      | ok st'' =>
        rw [rest] at h
        cases h
        obtain ⟨grown, callable⟩ := ih rest
        refine ⟨.cons (.refl [] s) grown, fun all => ?_⟩
        rw [callable_cons] at all ⊢
        exact ⟨all.1, callable all.2⟩

end Stack

namespace Machine

structure Active (m : Machine) : Prop where
  ne_nil : m.scopes ≠ []
  callable : m.scopes.Callable

structure Grown (names : List String) (m m' : Machine) : Prop where
  scopes : m.scopes.Grown names m'.scopes
  callable : m'.scopes.Callable

variable {names : List String} {m m' m'' : Machine}

theorem Grown.active (h : m.Grown names m') : m'.Active := ⟨h.scopes.ne_nil, h.callable⟩

theorem Grown.trans (h : m.Grown names m') (h' : m'.Grown names m'') : m.Grown names m'' :=
  ⟨h.scopes.trans h'.scopes, h'.callable⟩

theorem Active.grown_of_eq (active : m.Active) (same : m'.scopes = m.scopes) :
    m.Grown names m' := by
  refine ⟨?_, same ▸ active.callable⟩
  rw [same]
  exact (Stack.Framed.refl m.scopes).grown active.ne_nil

theorem Active.push (active : m.Active) : m.push.Active :=
  ⟨by simp [Machine.push], Stack.callable_cons.2 ⟨nofun, active.callable⟩⟩

-- The scope that was pushed is the one that is left again, so those below it have got no names.
theorem Grown.pop_of_push {inside : List String} (active : m.Active)
    (h : m.push.Grown inside m') : m.Grown names m'.pop := by
  obtain ⟨scopes, callable⟩ := h
  change Stack.Grown inside ({} :: m.scopes) m'.scopes at scopes
  generalize after : m'.scopes = st at scopes callable
  cases scopes with
  | @mk _ top _ below _ framed =>
    have popped : m'.pop.scopes = below := by
      cases below with
      | nil => exact absurd (List.forall₂_nil_right_iff.1 framed) active.ne_nil
      | cons s st => simp [Machine.pop, after]
    exact ⟨popped ▸ framed.grown active.ne_nil, popped ▸ (Stack.callable_cons.1 callable).2⟩

end Machine

end PlZero
