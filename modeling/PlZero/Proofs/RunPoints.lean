import PlZero.Proofs.SessionDiscipline

set_option autoImplicit false

namespace PlZero

namespace Exec

def Passes {α : Type} (run : α → Exec Unit) (as : List α) (m : Machine) (a : α) (m' : Machine) :
    Prop :=
  ∃ before after, as = before ++ a :: after ∧ before.forM run m = .ok () m'

theorem Passes.mem {α : Type} {run : α → Exec Unit} {as : List α} {m m' : Machine} {a : α}
    (passes : Passes run as m a m') : a ∈ as := by
  obtain ⟨before, after, rfl, _⟩ := passes
  exact List.mem_append_right _ List.mem_cons_self

inductive Rounds (test : Exec Bool) (body : Exec Unit) : Nat → Machine → Machine → Prop
  | none {m : Machine} : Rounds test body 0 m m
  | more {i : Nat} {m m₁ m₂ m' : Machine} : test m = .ok true m₁ → body m₁ = .ok () m₂ →
      Rounds test body i m₂ m' → Rounds test body (i + 1) m m'

end Exec

open Exec

/-- Running a node comes to running another one. Each has the nesting before it, and the machine on
which it runs behind it. -/
inductive Running (rounds : Nat) : Nat → Node → Machine → Nat → Node → Machine → Prop
  | here {n : Nat} {node : Node} {m : Machine} : Running rounds n node m n node m
  | item {n k : Nat} {pos : Position} {body : List Node} {inner node : Node} {m m₁ m' : Machine} :
      Passes (execute rounds (n + 1)) body m inner m₁ →
      Running rounds (n + 1) inner m₁ k node m' →
      Running rounds (n + 3) (.sequence pos body) m k node m'
  | chosen {n k : Nat} {pos : Position} {c : Condition Node} {inner node : Node}
      {m m₁ m' : Machine} : test (n + 1) c m = .ok true m₁ →
      Running rounds (n + 1) inner m₁ k node m' →
      Running rounds (n + 3) (.conditional pos c (some inner)) m k node m'
  | round {n k i : Nat} {pos : Position} {c : Condition Node} {inner node : Node}
      {m m₁ m₂ m' : Machine} : i < rounds →
      Rounds (test (n + 1) c) (execute rounds (n + 1) inner) i m m₁ →
      test (n + 1) c m₁ = .ok true m₂ → Running rounds (n + 1) inner m₂ k node m' →
      Running rounds (n + 3) (.loop pos c (some inner)) m k node m'
  | called {n k : Nat} {pos : Position} {target : Identifier} {p : Procedure} {inner node : Node}
      {m m₁ m' : Machine} : m.scopes.findProcedure target.name = some p →
      Passes (execute rounds n) p.body.body (m.record (.call target.name)).push inner m₁ →
      Running rounds n inner m₁ k node m' →
      Running rounds (n + 3) (.call pos target) m k node m'

def Program.logged (debug : Bool) (p : Program) (m : Machine) : Machine :=
  if debug then m.record (.tree p) else m

def Program.start (debug : Bool) (p : Program) (m : Machine) : Machine :=
  if (p.logged debug m).scopes.isEmpty then (p.logged debug m).push else p.logged debug m

def Program.Comes (limits : Limits) (debug : Bool) (p : Program) (m : Machine) (k : Nat)
    (node : Node) (m' : Machine) : Prop :=
  (debug = true → p.Loggable limits) ∧ ∃ first m₁,
    Passes (execute limits.rounds limits.nesting) p.body.body (p.start debug m) first m₁ ∧
      Running limits.rounds limits.nesting first m₁ k node m'

/-- The machines of a session: those between its steps and those at the points of its runs. -/
inductive Session.Reaches (limits : Limits) (debug : Bool) (input : Input) : Machine → Prop
  | between (steps : List Step) :
      Reaches limits debug input (afterSteps limits debug steps { input })
  | during {steps : List Step} {step : Step} {p : Program} {k : Nat} {node : Node} {m : Machine} :
      step.read = .ok p → p.Comes limits debug (afterSteps limits debug steps { input }) k node m →
      Reaches limits debug input m

variable {rounds n k : Nat} {node node' : Node} {m m' : Machine}

theorem Machine.Active.of_ok {names : List String} {α : Type} {x : Exec α} {a : α}
    (active : m.Active) (keeps : x.Keeps names m) (completed : x m = .ok a m') : m'.Active := by
  have grown := keeps active
  rw [completed] at grown
  exact grown.active

theorem Machine.Active.of_test {c : Condition Node} {holds : Bool} (active : m.Active)
    (completed : test n c m = .ok holds m') : m'.Active := by
  have keeps : (test n c).Keeps [] m := keeps_test
  exact active.of_ok keeps completed

theorem active_of_forM {nodes : List Node} (inner : ∀ node ∈ nodes, node.Inner)
    (active : m.Active) (completed : nodes.forM (execute rounds n) m = .ok () m') : m'.Active := by
  have keeps : Keeps (nodes.flatMap Node.declared) (nodes.forM (execute rounds n)) m :=
    .forM fun node mem _ => execute_keeps rounds n (inner node mem) fun _ declared =>
      List.mem_flatMap.2 ⟨node, mem, declared⟩
  exact active.of_ok keeps completed

theorem active_of_passes {nodes : List Node} (inner : ∀ node ∈ nodes, node.Inner)
    (active : m.Active) (passes : Passes (execute rounds n) nodes m node m') :
    node.Inner ∧ m'.Active := by
  refine ⟨inner node passes.mem, ?_⟩
  obtain ⟨before, after, rfl, completed⟩ := passes
  exact active_of_forM (fun node mem => inner node (List.mem_append_left _ mem)) active completed

theorem active_of_rounds {test : Exec Bool} {body : Exec Unit} {i : Nat}
    (tests : ∀ m, test.Keeps [] m) (bodies : ∀ m, body.Keeps [] m) (active : m.Active)
    (passed : Rounds test body i m m') : m'.Active := by
  induction passed with
  | none => exact active
  | more goesOn runs _ ih =>
    exact ih ((active.of_ok (tests _) goesOn).of_ok (bodies _) runs)

theorem Node.Statement.keeps (statement : node.Statement) (rounds n : Nat) (m : Machine) :
    (execute rounds n node).Keeps [] m := by
  have none : node.declared = [] := by cases statement <;> rfl
  exact execute_keeps rounds n (.statement statement) (none ▸ List.Subset.refl _)

-- What a run comes to is inside what it started with, or inside a procedure that was declared.
theorem Running.active (running : Running rounds n node m k node' m') :
    node.Inner → m.Active → node'.Inner ∧ m'.Active := by
  induction running with
  | here => exact fun inner active => ⟨inner, active⟩
  | item passes _ ih =>
    rintro ⟨statement⟩ active
    cases statement with
    | sequence statements =>
      obtain ⟨inner, active⟩ :=
        active_of_passes (fun node mem => .statement (statements node mem)) active passes
      exact ih inner active
  | chosen holds _ ih =>
    rintro ⟨statement⟩ active
    cases statement with
    | conditional statements =>
      exact ih (.statement (statements _ rfl)) (active.of_test holds)
  | @round n _ _ _ _ inner _ _ _ _ _ _ passed holds _ ih =>
    rintro ⟨statement⟩ active
    cases statement with
    | loop statements =>
      have inside := statements inner rfl
      have bodies := inside.keeps rounds (n + 1)
      have active := active_of_rounds (fun _ => keeps_test) bodies active passed
      exact ih (.statement inside) (active.of_test holds)
  | @called n k pos target p inner node m m₁ m' found passes _ ih =>
    intro _ active
    have inside := Stack.inner_of_findProcedure active.callable found
    have start : (m.record (.call target.name)).push.Active :=
      Machine.Active.push ⟨active.ne_nil, active.callable⟩
    obtain ⟨inner, active⟩ := active_of_passes inside start passes
    exact ih inner active

theorem Running.eq_of_exitMarker {pos : Position}
    (running : Running rounds n (.exitMarker pos) m k node m') : m' = m := by
  cases running
  rfl

theorem Machine.Resting.active_start (resting : m.Resting) (debug : Bool) (p : Program) :
    (p.start debug m).Active := by
  have callable : (p.logged debug m).scopes.Callable := by
    cases debug <;> exact resting.callable
  unfold Program.start
  split
  · exact ⟨List.cons_ne_nil _ _, Stack.callable_cons.2 ⟨nofun, callable⟩⟩
  · next some => exact ⟨fun none => some (List.isEmpty_iff.2 none), callable⟩

theorem Program.Comes.active {limits : Limits} {debug closed : Bool} {p : Program}
    (comes : p.Comes limits debug m k node m') (outer : p.body.Outermost closed)
    (resting : m.Resting) : m'.Active := by
  obtain ⟨_, first, m₁, passes, running⟩ := comes
  have start := resting.active_start debug p
  generalize p.start debug m = m₀ at passes start
  obtain ⟨pos, b⟩ := p
  cases outer with
  | unclosed inner =>
    obtain ⟨inside, active⟩ := active_of_passes inner start passes
    exact (running.active inside active).2
  | @closed _ pos nodes inner =>
    obtain ⟨before, after, whole, completed⟩ := passes
    rcases List.append_eq_append_iff.1 whole.symm with ⟨rest, rfl, later⟩ | ⟨rest, rfl, later⟩
    · have active := active_of_forM (fun node mem => inner node (List.mem_append_left _ mem)) start
        completed
      cases rest with
      | nil =>
        cases later
        rwa [running.eq_of_exitMarker]
      | cons node rest =>
        obtain ⟨rfl, _⟩ := List.cons.inj later
        exact (running.active (inner _ (by simp)) active).2
    · obtain ⟨rfl, last⟩ : rest = [] ∧ first = .exitMarker pos := by
        cases rest with
        | nil => exact ⟨rfl, (List.cons.inj later).1.symm⟩
        | cons node rest => simp at later
      rw [List.append_nil] at completed
      rw [last] at running
      rw [running.eq_of_exitMarker]
      exact active_of_forM inner start completed

theorem Session.Reaches.active {limits : Limits} {debug : Bool} {input : Input}
    (reached : Session.Reaches limits debug input m) (some : m.scopes ≠ []) : m.Active := by
  have resting (steps : List Step) :=
    Session.resting_afterSteps limits debug steps (Machine.resting_new input)
  cases reached with
  | between steps => exact ⟨some, (resting steps).callable⟩
  | during accepted comes => exact comes.active (Step.outermost_of_read accepted) (resting _)

end PlZero
