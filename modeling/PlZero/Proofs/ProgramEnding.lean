import PlZero.Proofs.FragmentReading
import PlZero.Proofs.KeptScopes

set_option autoImplicit false

namespace PlZero

namespace Machine

/-- The state of a machine between two steps. -/
structure Resting (m : Machine) : Prop where
  length_le : m.scopes.length ≤ 1
  callable : m.scopes.Callable

def root (m : Machine) : Scope := m.scopes.headD {}

def RootOnly (names : List String) (root : Scope) (m : Machine) : Prop :=
  ∃ root', m.scopes = [root'] ∧ root.Grown names root' ∧ root'.Callable

theorem RootOnly.resting {names : List String} {root : Scope} {m : Machine}
    (h : m.RootOnly names root) : m.Resting := by
  obtain ⟨root', scopes, _, callable⟩ := h
  exact ⟨by simp [scopes], by simpa [scopes, Stack.Callable] using callable⟩

theorem RootOnly.of_scopes_eq {names : List String} {root : Scope} {m m' : Machine}
    (h : m.RootOnly names root) (same : m'.scopes = m.scopes) : m'.RootOnly names root := by
  obtain ⟨root', scopes, rest⟩ := h
  exact ⟨root', same.trans scopes, rest⟩

theorem scopes_pop {m : Machine} (short : m.scopes.length ≤ 1) : m.pop.scopes = m.scopes := by
  unfold pop
  split
  · next scopes => simp [scopes] at short
  · rfl

theorem scopes_unwind {m : Machine} {depth : Nat} (short : m.scopes.length ≤ depth) :
    (m.unwind depth).scopes = m.scopes := by
  have none : m.scopes.length - depth = 0 := by omega
  simp [unwind, Stack.outermost, none]

end Machine

namespace Exec

/-- How the outermost block of a text ends. A closed one that completes leaves no scope, and any
other the root. -/
inductive Ended (names : List String) (root : Scope) :
    Bool → EStateM.Result Stop Machine Unit → Prop
  | stopped {closed : Bool} {f : Stop} {m : Machine} : m.RootOnly names root →
      Ended names root closed (.error f m)
  | unclosed {m : Machine} : m.RootOnly names root → Ended names root false (.ok () m)
  | closed {m : Machine} : m.scopes = [] → Ended names root true (.ok () m)

variable {closed : Bool} {names : List String} {root : Scope} {m : Machine} {x : Exec Unit}
  {r : EStateM.Result Stop Machine Unit}

theorem Ended.resting (h : Ended names root closed r) : (machineOf r).Resting := by
  cases h with
  | stopped rootOnly => exact rootOnly.resting
  | unclosed rootOnly => exact rootOnly.resting
  | closed none => exact ⟨by simp [machineOf, none], by simp [machineOf, none, Stack.Callable]⟩

theorem Ended.ensuring {finish : Machine → Machine}
    (same : ∀ m, m.scopes.length ≤ 1 → (finish m).scopes = m.scopes)
    (h : Ended names root closed (x m)) : Ended names root closed (ensuring finish x m) := by
  have rests := h.resting
  unfold Exec.ensuring
  generalize x m = r at h rests
  have eq := same (machineOf r) rests.length_le
  cases h with
  | stopped rootOnly => exact .stopped (rootOnly.of_scopes_eq eq)
  | unclosed rootOnly => exact .unclosed (rootOnly.of_scopes_eq eq)
  | closed none => exact .closed (eq.trans none)

theorem Ended.onExhaustion {f : Stop} (h : Ended names root closed (x m)) :
    Ended names root closed (onExhaustion f x m) := by
  unfold Exec.onExhaustion
  split
  · next m' result =>
    rw [result] at h
    cases h with
    | stopped rootOnly => exact .stopped rootOnly
  · exact h

theorem inner_ended {nodes : List Node} (inner : ∀ node ∈ nodes, node.Inner)
    (declared : ∀ node ∈ nodes, node.declared ⊆ names) (rounds n : Nat)
    (alone : m.scopes = [root]) (callable : root.Callable) :
    Ended names root false (nodes.forM (execute rounds n) m) := by
  have active : m.Active := ⟨by simp [alone], by simpa [alone, Stack.Callable] using callable⟩
  have grown := Keeps.forM
    (fun node mem _ => execute_keeps rounds n (inner node mem) (declared node mem)) active
  have rootOnly : (machineOf (nodes.forM (execute rounds n) m)).RootOnly names root := by
    obtain ⟨scopes, callable⟩ := grown
    rw [alone] at scopes
    generalize after : (machineOf (nodes.forM (execute rounds n) m)).scopes = st at scopes callable
    cases scopes with
    | mk grown framed =>
      -- The root was alone, so there is nothing below it.
      cases framed
      exact ⟨_, after, grown, (Stack.callable_cons.1 callable).1⟩
  generalize nodes.forM (execute rounds n) m = r at rootOnly
  cases r with
  | error => exact .stopped rootOnly
  | ok => exact .unclosed rootOnly

theorem Ended.bind {y : Exec Unit} (first : Ended names root false (x m))
    (rest : ∀ m', m'.RootOnly names root → Ended names root closed (y m')) :
    Ended names root closed ((x >>= fun _ => y) m) := by
  simp only [Bind.bind, EStateM.bind]
  generalize x m = r at first
  cases first with
  | stopped rootOnly => exact .stopped rootOnly
  | unclosed rootOnly => exact rest _ rootOnly

theorem exit_ended (rounds n : Nat) (pos : Position) (rootOnly : m.RootOnly names root) :
    Ended names root true (execute rounds n (.exitMarker pos) m) := by
  match n with
  -- Even the marker takes some nesting; where there is none left, it stops with the root in place.
  | 0 | 1 | 2 => exact .stopped rootOnly
  | n + 3 => exact .closed rfl

theorem body_ended {b : Block Node} (outer : b.Outermost closed) (rounds n : Nat)
    (alone : m.scopes = [root]) (callable : root.Callable) :
    Ended b.declared root closed (b.body.forM (execute rounds n) m) := by
  cases outer with
  | unclosed inner =>
    exact inner_ended inner (fun _ => Block.declared_subset) rounds n alone callable
  | @closed start pos nodes inner =>
    have declared (node : Node) (mem : node ∈ nodes) :
        node.declared ⊆ Block.declared ⟨start, nodes ++ [.exitMarker pos]⟩ :=
      Block.declared_subset (List.mem_append_left _ mem)
    have whole := (inner_ended inner declared rounds n alone callable).bind
      fun _ => exit_ended rounds n pos
    simpa only [List.forM_eq_forM, List.forM_append, List.forM_cons, List.forM_nil,
      bind_pure_unit] using whole

theorem block_ended {b : Block Node} (outer : b.Outermost closed) (rounds n : Nat)
    (resting : m.Resting) :
    Ended b.declared m.root closed (block (execute rounds n) false b m) := by
  obtain ⟨short, callable⟩ := resting
  cases scopes : m.scopes with
  | nil =>
    -- The block pushes the root, and leaving the block does not pop it, since it is the outermost.
    have runs : block (execute rounds n) false b m =
        ensuring Machine.pop (b.body.forM (execute rounds n)) m.push := by
      change (if (false || m.scopes.isEmpty) = true then _ else _ : Exec Unit) m = _
      rw [scopes]
      rfl
    have alone : m.push.scopes = [m.root] := by simp [Machine.push, Machine.root, scopes]
    rw [runs]
    refine Ended.ensuring (fun _ => Machine.scopes_pop) (body_ended outer rounds n alone ?_)
    simp [Machine.root, scopes, Scope.Callable]
  | cons root others =>
    have runs : block (execute rounds n) false b m = b.body.forM (execute rounds n) m := by
      change (if (false || m.scopes.isEmpty) = true then _ else _ : Exec Unit) m = _
      rw [scopes]
      rfl
    rw [scopes] at short callable
    have none : others = [] := List.eq_nil_of_length_eq_zero (by simpa using short)
    have alone : m.scopes = [m.root] := by simp [Machine.root, scopes, none]
    rw [runs]
    refine body_ended outer rounds n alone ?_
    simpa [Machine.root, scopes] using (Stack.callable_cons.1 callable).1

end Exec

namespace Program

variable {limits : Limits} {p : Program} {m : Machine}

def Loggable (limits : Limits) (p : Program) : Prop := 2 * p.node.outline.depth ≤ limits.nesting

theorem log_run (loggable : p.Loggable limits) : p.log limits m = .ok () (m.record (.tree p)) := by
  have fits : ¬ limits.nesting < 2 * p.node.outline.depth := Nat.not_lt.2 loggable
  unfold log
  rw [if_neg fits]
  rfl

def runLogged (limits : Limits) (p : Program) : Exec Unit := do
  let depth := (← get).scopes.length
  Exec.ensuring (Machine.unwind (if depth = 0 then 1 else depth)) <|
    Exec.onExhaustion (.ofCauseAt p.pos .recursionTooDeep) <|
      Exec.block (execute limits.rounds limits.nesting) false p.body

theorem run_eq (limits : Limits) (debug : Bool) (p : Program) :
    p.run limits debug = if debug then p.log limits >>= fun _ => p.runLogged limits
      else p.runLogged limits := by
  cases debug <;> rfl

theorem run_unlogged (deep : ¬ p.Loggable limits) :
    p.run limits true m = .error (.breakdown .exhausted) m := by
  have exceeds : limits.nesting < 2 * p.node.outline.depth := Nat.not_le.1 deep
  have fails : p.log limits m = .error (.breakdown .exhausted) m := by
    unfold log
    rw [if_pos exceeds]
    rfl
  rw [run_eq, if_pos rfl]
  simp only [Bind.bind, EStateM.bind, fails]

theorem runLogged_ended {closed : Bool} (outer : p.body.Outermost closed) (resting : m.Resting) :
    Exec.Ended p.body.declared m.root closed (p.runLogged limits m) := by
  refine Exec.Ended.ensuring ?_ (Exec.block_ended outer _ _ resting).onExhaustion
  intro m' short
  -- The depth to which a run unwinds is that of the root, whether it was there before or not.
  have one : (if m.scopes.length = 0 then 1 else m.scopes.length) = 1 := by
    have length := resting.length_le
    split <;> omega
  exact Machine.scopes_unwind (by rwa [one])

theorem run_cases {closed : Bool} (limits : Limits) (debug : Bool)
    (outer : p.body.Outermost closed) (resting : m.Resting) :
    (debug = true ∧ ¬ p.Loggable limits ∧
      p.run limits debug m = .error (.breakdown .exhausted) m) ∨
    ((debug = true → p.Loggable limits) ∧
      Exec.Ended p.body.declared m.root closed (p.run limits debug m)) := by
  cases debug with
  | false => exact .inr ⟨nofun, runLogged_ended outer resting⟩
  | true =>
    by_cases loggable : p.Loggable limits
    · refine .inr ⟨fun _ => loggable, ?_⟩
      rw [run_eq, if_pos rfl]
      simp only [Bind.bind, EStateM.bind, log_run loggable]
      exact runLogged_ended (m := m.record (.tree p)) outer
        ⟨resting.length_le, resting.callable⟩
    · exact .inl ⟨rfl, loggable, run_unlogged loggable⟩

end Program

end PlZero
