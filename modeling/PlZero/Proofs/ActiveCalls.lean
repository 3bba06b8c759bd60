import PlZero.Proofs.BracketedTraces

set_option autoImplicit false

namespace PlZero

open Exec

/-- Running a node comes to running another one, while this many calls are active in between. -/
inductive RunningIn (rounds : Nat) : Nat → Node → Machine → Nat → Nat → Node → Machine → Prop
  | here {n : Nat} {node : Node} {m : Machine} : RunningIn rounds n node m 0 n node m
  | item {n k calls : Nat} {pos : Position} {body : List Node} {inner node : Node}
      {m m₁ m' : Machine} : Passes (execute rounds (n + 1)) body m inner m₁ →
      RunningIn rounds (n + 1) inner m₁ calls k node m' →
      RunningIn rounds (n + 3) (.sequence pos body) m calls k node m'
  | chosen {n k calls : Nat} {pos : Position} {c : Condition Node} {inner node : Node}
      {m m₁ m' : Machine} : test (n + 1) c m = .ok true m₁ →
      RunningIn rounds (n + 1) inner m₁ calls k node m' →
      RunningIn rounds (n + 3) (.conditional pos c (some inner)) m calls k node m'
  | round {n k i calls : Nat} {pos : Position} {c : Condition Node} {inner node : Node}
      {m m₁ m₂ m' : Machine} : i < rounds →
      Rounds (test (n + 1) c) (execute rounds (n + 1) inner) i m m₁ →
      test (n + 1) c m₁ = .ok true m₂ → RunningIn rounds (n + 1) inner m₂ calls k node m' →
      RunningIn rounds (n + 3) (.loop pos c (some inner)) m calls k node m'
  | called {n k calls : Nat} {pos : Position} {target : Identifier} {p : Procedure}
      {inner node : Node} {m m₁ m' : Machine} :
      m.scopes.findProcedure target.name = some p →
      Passes (execute rounds n) p.body.body (m.record (.call target.name)).push inner m₁ →
      RunningIn rounds n inner m₁ calls k node m' →
      RunningIn rounds (n + 3) (.call pos target) m (calls + 1) k node m'

section

variable {rounds n k calls : Nat} {node node' : Node} {m m' : Machine}

theorem running_iff : Running rounds n node m k node' m' ↔
    ∃ calls, RunningIn rounds n node m calls k node' m' := by
  constructor
  · intro running
    induction running with
    | here => exact ⟨0, .here⟩
    | item passes _ ih => exact ih.imp fun _ => .item passes
    | chosen holds _ ih => exact ih.imp fun _ => .chosen holds
    | round less passed holds _ ih => exact ih.imp fun _ => .round less passed holds
    | called found passes _ ih =>
      obtain ⟨calls, inside⟩ := ih
      exact ⟨calls + 1, .called found passes inside⟩
  · rintro ⟨calls, running⟩
    induction running with
    | here => exact .here
    | item passes _ ih => exact .item passes ih
    | chosen holds _ ih => exact .chosen holds ih
    | round less passed holds _ ih => exact .round less passed holds ih
    | called found passes _ ih => exact .called found passes ih

theorem wrote_of_forM {nodes : List Node} (inner : ∀ node ∈ nodes, node.Inner) (active : m.Active) :
    m.Wrote 0 (machineOf (nodes.forM (execute rounds n) m)) := by
  have writes : Writes m (nodes.forM (execute rounds n) m) :=
    .forM (fun node _ passes => execute_writes rounds n (inner node passes.mem)) (.refl active)
  exact writes.inv

theorem wrote_of_passes {nodes : List Node} (inner : ∀ node ∈ nodes, node.Inner)
    (active : m.Active) (passes : Passes (execute rounds n) nodes m node m') : m.Wrote 0 m' := by
  obtain ⟨before, after, rfl, completed⟩ := passes
  have wrote : m.Wrote 0 (machineOf (before.forM (execute rounds n) m)) :=
    wrote_of_forM (fun node mem => inner node (List.mem_append_left _ mem)) active
  rwa [completed] at wrote

theorem wrote_of_rounds {test : Exec Bool} {i : Nat} (tests : ∀ m, machineOf (test m) = m)
    (inner : node.Inner) (active : m.Active)
    (passed : Rounds test (execute rounds n node) i m m') : m.Wrote 0 m' := by
  induction passed with
  | none => exact .refl active
  | @more i m m₁ m₂ m' goesOn runs _ ih =>
    have stays := tests m
    rw [goesOn] at stays
    obtain rfl : m₁ = m := stays
    have wrote := (execute_writes rounds n inner (.refl active)).inv
    rw [runs] at wrote
    exact wrote.trans (ih wrote.active)

theorem RunningIn.wrote (running : RunningIn rounds n node m calls k node' m') :
    node.Inner → m.Active → node'.Inner ∧ m.Wrote calls m' := by
  induction running with
  | here => exact fun inner active => ⟨inner, .refl active⟩
  | item passes _ ih =>
    rintro ⟨statement⟩ active
    cases statement with
    | sequence statements =>
      have inner (node : Node) (mem : node ∈ _) : node.Inner := .statement (statements node mem)
      have before := wrote_of_passes inner active passes
      obtain ⟨inside, wrote⟩ := ih (inner _ passes.mem) before.active
      exact ⟨inside, before.trans wrote⟩
  | chosen holds _ ih =>
    rintro ⟨statement⟩ active
    cases statement with
    | conditional statements =>
      obtain rfl := test_ok holds
      exact ih (.statement (statements _ rfl)) active
  | round _ passed holds _ ih =>
    rintro ⟨statement⟩ active
    cases statement with
    | loop statements =>
      have inner : Node.Inner _ := .statement (statements _ rfl)
      have before := wrote_of_rounds (machineOf_test _ _) inner active passed
      obtain rfl := test_ok holds
      obtain ⟨inside, wrote⟩ := ih inner before.active
      exact ⟨inside, before.trans wrote⟩
  | @called _ _ _ _ target _ _ _ _ _ _ found passes _ ih =>
    intro _ active
    have inner := Stack.inner_of_findProcedure active.callable found
    have entered := active.enter target.name
    have before := entered.trans (wrote_of_passes inner entered.active passes)
    obtain ⟨inside, wrote⟩ := ih (inner _ passes.mem) before.active
    exact ⟨inside, before.trans wrote⟩

theorem RunningIn.of_exitMarker {pos : Position}
    (running : RunningIn rounds n (.exitMarker pos) m calls k node m') :
    calls = 0 ∧ node = .exitMarker pos ∧ m' = m := by
  cases running
  exact ⟨rfl, rfl, rfl⟩

theorem logged_exit {pos : Position} {m₀ : Machine} (wrote : m₀.Wrote calls m) (rounds n : Nat) :
    m₀.Logged calls (machineOf (execute rounds n (.exitMarker pos) m)) := by
  match n with
  | 0 | 1 | 2 => exact wrote.logged
  | n + 3 =>
    obtain ⟨_, _, trace, events, brackets⟩ := wrote
    refine ⟨trace ++ [.exit pos.line], ?_, Nat.zero_add calls ▸ brackets.append (.exit .nil)⟩
    change (Event.exit pos.line :: m.log).reverse = _
    rw [List.reverse_cons, ← List.append_assoc, ← events]
    rfl

theorem logged_of_outermost {b : Block Node} {closed : Bool} (outer : b.Outermost closed)
    (active : m.Active) (rounds n : Nat) :
    m.Logged 0 (machineOf (b.body.forM (execute rounds n) m)) := by
  cases outer with
  | unclosed inner => exact (wrote_of_forM inner active).logged
  | @closed _ pos nodes inner =>
    have wrote : m.Wrote 0 (machineOf (nodes.forM (execute rounds n) m)) :=
      wrote_of_forM inner active
    have runs : (nodes ++ [Node.exitMarker pos]).forM (execute rounds n) =
        (nodes.forM (execute rounds n) >>= fun _ => execute rounds n (.exitMarker pos)) := by
      simp only [List.forM_eq_forM, List.forM_append, List.forM_cons, List.forM_nil,
        bind_pure_unit]
    rw [runs]
    simp only [Bind.bind, EStateM.bind]
    cases result : nodes.forM (execute rounds n) m with
    | error f m' =>
      rw [result] at wrote
      exact wrote.logged
    | ok _ m' =>
      rw [result] at wrote
      exact logged_exit wrote rounds n

theorem wrote_of_outermost {b : Block Node} {closed : Bool} (outer : b.Outermost closed)
    (active : m.Active) (passes : Passes (execute rounds n) b.body m node m') :
    (node.Inner ∨ ∃ pos, node = .exitMarker pos) ∧ m.Wrote 0 m' := by
  cases outer with
  | unclosed inner => exact ⟨.inl (inner node passes.mem), wrote_of_passes inner active passes⟩
  | @closed _ pos nodes inner =>
    obtain ⟨before, after, whole, completed⟩ := passes
    change nodes ++ [.exitMarker pos] = before ++ node :: after at whole
    have wrote (within : ∀ node ∈ before, node.Inner) : m.Wrote 0 m' := by
      have wrote : m.Wrote 0 (machineOf (before.forM (execute rounds n) m)) :=
        wrote_of_forM within active
      rwa [completed] at wrote
    rcases List.eq_nil_or_concat after with rfl | ⟨after, last, rfl⟩
    · obtain ⟨rfl, last⟩ := List.append_inj' whole rfl
      exact ⟨.inr ⟨pos, (List.singleton_inj.1 last).symm⟩, wrote inner⟩
    · rw [List.concat_eq_append, ← List.cons_append, ← List.append_assoc] at whole
      obtain ⟨rfl, _⟩ := List.append_inj' whole rfl
      exact ⟨.inl (inner node (by simp)), wrote fun node mem => inner node (by simp [mem])⟩

end

namespace Program

variable {limits : Limits} {debug closed : Bool} {p : Program} {m m' : Machine} {k calls : Nat}
  {node : Node}

/-- A run of a program comes to a node while this many calls are active. -/
def ComesIn (limits : Limits) (debug : Bool) (p : Program) (m : Machine) (calls k : Nat)
    (node : Node) (m' : Machine) : Prop :=
  (debug = true → p.Loggable limits) ∧ ∃ first m₁,
    Passes (execute limits.rounds limits.nesting) p.body.body (p.start debug m) first m₁ ∧
      RunningIn limits.rounds limits.nesting first m₁ calls k node m'

theorem comes_iff : p.Comes limits debug m k node m' ↔
    ∃ calls, p.ComesIn limits debug m calls k node m' := by
  constructor
  · rintro ⟨logged, first, m₁, passes, running⟩
    obtain ⟨calls, running⟩ := running_iff.1 running
    exact ⟨calls, logged, first, m₁, passes, running⟩
  · rintro ⟨calls, logged, first, m₁, passes, running⟩
    exact ⟨logged, first, m₁, passes, running_iff.2 ⟨calls, running⟩⟩

theorem ComesIn.wrote (comes : p.ComesIn limits debug m calls k node m')
    (outer : p.body.Outermost closed) (active : (p.start debug m).Active) :
    (node.Inner ∨ ∃ pos, node = .exitMarker pos) ∧ (p.start debug m).Wrote calls m' := by
  obtain ⟨_, first, m₁, passes, running⟩ := comes
  obtain ⟨inner | ⟨pos, rfl⟩, before⟩ := wrote_of_outermost outer active passes
  · obtain ⟨inside, wrote⟩ := running.wrote inner before.active
    exact ⟨.inl inside, before.trans wrote⟩
  · obtain ⟨rfl, rfl, rfl⟩ := running.of_exitMarker
    exact ⟨.inr ⟨pos, rfl⟩, before⟩

def opening (debug : Bool) (p : Program) (m : Machine) : List Event :=
  (if debug then [.tree p] else []) ++ if m.scopes.isEmpty then [.enter 0] else []

theorem events_start (debug : Bool) (p : Program) (m : Machine) :
    (p.start debug m).events = m.events ++ p.opening debug m := by
  have logs : (p.logged debug m).events = m.events ++ if debug then [.tree p] else [] := by
    cases debug <;> simp [logged]
  unfold start opening
  rw [scopes_logged]
  split
  · next none =>
    rw [Machine.events_push, scopes_logged, List.isEmpty_iff.1 none, logs, List.append_assoc]
    rfl
  · rw [logs, List.append_nil]

theorem length_start (resting : m.Resting) : (p.start debug m).scopes.length = 1 := by
  have short := start_short debug p resting.length_le
  have some : 0 < (p.start debug m).scopes.length := List.length_pos_iff.2 start_ne_nil
  omega

structure Logs (debug : Bool) (p : Program) (m : Machine) (calls : Nat) (m' : Machine)
    (trace : List Event) : Prop where
  events : m'.events = m.events ++ (p.opening debug m ++ trace)
  brackets : Brackets 1 calls trace
  nesting : nestingOf (p.opening debug m ++ trace) = calls
  root : Event.enter 0 ∈ p.opening debug m ++ trace ↔ m.scopes = []
  inside : ∀ event ∈ trace, event.From 1

theorem exists_logs (resting : m.Resting) (logged : (p.start debug m).Logged calls m') :
    ∃ trace, p.Logs debug m calls m' trace := by
  obtain ⟨trace, events, brackets⟩ := logged
  rw [length_start resting] at brackets
  have inside := brackets.from_depth
  refine ⟨trace, ?_, brackets, ?_, ?_, inside⟩
  · rw [events, events_start, List.append_assoc]
  · have opens : nestingOf (p.opening debug m) = 0 := by
      unfold opening
      cases debug <;> cases m.scopes.isEmpty <;> rfl
    rw [nestingOf_append, opens, brackets.nestingOf_eq, Int.zero_add]
  · have deep : Event.enter 0 ∉ trace := fun mem => Nat.not_succ_le_zero 0 (inside _ mem)
    rw [List.mem_append, or_iff_left deep]
    unfold opening
    cases debug <;> cases m.scopes <;> simp

end Program

/-- In every session, the log of a run brackets its calls. Each call enters a scope inside the root
and leaves it again at the same depth, whether the run completes or fails, and at every point the
scopes that are not left yet are as many as the calls that are active. The root is entered before
that if there is none, and never left. Only a tree that is nested too deeply to be logged does not
run. -/
theorem logs_bracket_calls (limits : Limits) (debug : Bool) (input : Input) (steps : List Step)
    (step : Step) {p : Program} (accepted : step.read = .ok p)
    (logged : debug = true → p.Loggable limits) :
    let m := Session.afterSteps limits debug steps { input }
    (∃ trace, p.Logs debug m 0 (machineOf (step.run limits debug m)) trace) ∧
    (∀ k node m', p.Comes limits debug m k node m' ↔
      ∃ calls, p.ComesIn limits debug m calls k node m') ∧
    ∀ calls k node m', p.ComesIn limits debug m calls k node m' →
      m'.scopes.length = calls + 1 ∧ (∃ trace, p.Logs debug m calls m' trace) ∧
      ∃ trace, p.Logs debug m calls (machineOf (execute limits.rounds k node m')) trace := by
  intro m
  have resting : m.Resting :=
    Session.resting_afterSteps limits debug steps (Machine.resting_new input)
  have active := resting.active_start debug p
  have outer := Step.outermost_of_read accepted
  refine ⟨Program.exists_logs resting ?_, fun _ _ _ => Program.comes_iff, ?_⟩
  · have runs : machineOf (step.run limits debug m) =
        machineOf (p.body.body.forM (execute limits.rounds limits.nesting) (p.start debug m)) := by
      rw [Step.run_eq, accepted]
      dsimp only
      rw [Step.machineOf_conclude, Program.run_of_short resting.length_le logged,
        machineOf_onExhaustion]
    rw [runs]
    exact logged_of_outermost outer active _ _
  · intro calls k node m' comes
    obtain ⟨kind, wrote⟩ := comes.wrote outer active
    have height : m'.scopes.length = calls + 1 := by
      rw [wrote.height, Program.length_start resting, Nat.add_comm]
    refine ⟨height, Program.exists_logs resting wrote.logged, Program.exists_logs resting ?_⟩
    rcases kind with inner | ⟨pos, rfl⟩
    · have inside := (execute_writes limits.rounds k inner (.refl wrote.active)).inv
      exact Nat.zero_add calls ▸ wrote.trans_logged inside.logged
    · exact logged_exit wrote limits.rounds k

-- A procedure of an earlier entry calls itself twice, and the last call fails.
theorem logs_bracket_calls_failing :
    let steps := [Step.entry
      "var n; procedure p; begin n := n + 1; if n < 3 then call p; ! 1 / 0 end"]
    let step := Step.entry "begin n := 0; call p end"
    let m := Session.afterSteps {} true steps { input := {} }
    (∃ p, step.read = .ok p ∧ p.Loggable {} ∧
      ∃ trace, p.Logs true m 0 (machineOf (step.run {} true m)) trace) ∧
    failureOf (step.run {} true m) = some (.report ⟨.running .divideByZero, 1, 67⟩) := by
  intro steps step m
  have readable : step.read.toOption.any
      (fun p => decide (2 * p.node.outline.depth ≤ ({} : Limits).nesting)) = true := by
    decide +kernel
  refine ⟨?_, by decide +kernel⟩
  cases accepted : step.read with
  | error f => rw [accepted] at readable; cases readable
  | ok p =>
    rw [accepted] at readable
    have loggable : 2 * p.node.outline.depth ≤ ({} : Limits).nesting :=
      of_decide_eq_true readable
    have logs := logs_bracket_calls {} true {} steps step accepted fun _ => loggable
    exact ⟨p, rfl, loggable, logs.1⟩

example :
    (machineOf (Step.run {} false (.program "procedure p; ! 1 / 0; call p .") {})).events.map
      Event.text =
    ["ENTER scope 0", "CALL p", "ENTER scope 1", "LEAVE Scope(depth=1, names=[])"] := by
  decide +kernel

end PlZero
