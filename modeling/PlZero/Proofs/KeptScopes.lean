import PlZero.Proofs.ScopeGrowth

set_option autoImplicit false

namespace PlZero

def machineOf {ε α : Type} : EStateM.Result ε Machine α → Machine
  | .ok _ m => m
  | .error _ m => m

def failureOf {ε α : Type} : EStateM.Result ε Machine α → Option ε
  | .ok _ _ => none
  | .error f _ => some f

namespace Exec

variable {α β : Type} {names : List String} {m : Machine}

/-- The action leaves the scopes active that are so; the innermost may get some of the names. -/
def Keeps (names : List String) (x : Exec α) (m : Machine) : Prop :=
  m.Active → m.Grown names (machineOf (x m))

theorem Keeps.of_scopes_eq {x : Exec α} (same : (machineOf (x m)).scopes = m.scopes) : x.Keeps names m :=
  fun active => active.grown_of_eq same

theorem Keeps.pure (a : α) : (Pure.pure a : Exec α).Keeps names m := .of_scopes_eq rfl

theorem Keeps.throw (f : Stop) : (MonadExcept.throw f : Exec α).Keeps names m := .of_scopes_eq rfl

theorem Keeps.bind {x : Exec α} {f : α → Exec β} (first : x.Keeps names m)
    (rest : ∀ a m', x m = .ok a m' → (f a).Keeps names m') : (x >>= f).Keeps names m := by
  intro active
  have grown := first active
  simp only [Bind.bind, EStateM.bind]
  cases result : x m with
  | error f m' =>
    rw [result] at grown
    exact grown
  | ok a m' =>
    rw [result] at grown
    exact grown.trans (rest a m' result grown.active)

@[simp] theorem keeps_get {f : Machine → Exec β} :
    ((get : Exec Machine) >>= f).Keeps names m ↔ (f m).Keeps names m := Iff.rfl

@[simp] theorem keeps_locating {p : Position} {x : Exec α} :
    (locating p x).Keeps names m ↔ x.Keeps names m := by
  have same : machineOf (locating p x m) = machineOf (x m) := by
    unfold locating
    cases x m <;> rfl
  unfold Keeps
  rw [same]

@[simp] theorem keeps_onExhaustion {f : Stop} {x : Exec α} :
    (onExhaustion f x).Keeps names m ↔ x.Keeps names m := by
  have same : machineOf (onExhaustion f x m) = machineOf (x m) := by
    unfold onExhaustion
    cases x m with
    | ok => rfl
    | error e m' =>
      cases e with
      | report => rfl
      | breakdown b => cases b <;> rfl
  unfold Keeps
  rw [same]

theorem keeps_modify {f : Machine → Machine} (same : (f m).scopes = m.scopes) :
    (modify f : Exec Unit).Keeps names m := .of_scopes_eq same

theorem Keeps.ofExcept (r : Except Stop α) : (ofExcept r).Keeps names m := by
  cases r with
  | ok a => exact .pure a
  | error f => exact .throw f

theorem Keeps.forM {f : α → Exec Unit} {as : List α} (each : ∀ a ∈ as, ∀ m, (f a).Keeps names m) :
    (as.forM f).Keeps names m := by
  induction as generalizing m with
  | nil => exact .pure ()
  | cons a as ih =>
    change (f a >>= fun _ => as.forM f).Keeps names m
    exact .bind (each a (by simp) m) fun _ m' _ => ih fun b mem => each b (by simp [mem])

theorem keeps_repeatWhile {test : Exec Bool} {body : Exec Unit} (tests : ∀ m, test.Keeps names m)
    (bodies : ∀ m, body.Keeps names m) (rounds : Nat) : (repeatWhile test body rounds).Keeps names m := by
  induction rounds generalizing m with
  | zero => exact .throw _
  | succ rounds ih =>
    refine .bind (tests m) fun goesOn m' _ => ?_
    cases goesOn with
    | false => exact .pure ()
    | true => exact .bind (bodies m') fun _ _ _ => ih

theorem keeps_onInnermost {change : Scope → Except Stop Scope}
    (grows : ∀ s s', change s = .ok s' → s.Grown names s' ∧ (s.Callable → s'.Callable)) :
    (onInnermost change).Keeps names m := by
  intro active
  unfold onInnermost
  cases scopes : m.scopes with
  | nil => exact absurd scopes active.ne_nil
  | cons s st =>
    have callable := active.callable
    rw [scopes, Stack.callable_cons] at callable
    dsimp only
    cases changed : change s with
    | error f => exact active.grown_of_eq rfl
    | ok s' =>
      obtain ⟨grown, calls⟩ := grows s s' changed
      refine ⟨?_, Stack.callable_cons.2 ⟨calls callable.1, callable.2⟩⟩
      rw [scopes]
      exact .mk grown (Stack.Framed.refl st)

theorem activeScopes_run (some : m.scopes ≠ []) : activeScopes m = .ok m.scopes m := by
  obtain ⟨st, _, _, _⟩ := m
  cases st with
  | nil => contradiction
  | cons => rfl

theorem keeps_activeScopes {f : Stack → Exec β} (rest : (f m.scopes).Keeps names m) :
    (activeScopes >>= f).Keeps names m := by
  intro active
  have grown := rest active
  simpa only [Bind.bind, EStateM.bind, activeScopes_run active.ne_nil] using grown

theorem keeps_result {n : Nat} {node : Node} : (result n node).Keeps names m :=
  keeps_get.2 (.ofExcept _)

theorem keeps_value {n : Nat} {node : Node} : (value n node).Keeps names m :=
  .bind keeps_result fun _ _ _ => .ofExcept _

theorem keeps_test {n : Nat} {c : Condition Node} : (test n c).Keeps names m :=
  keeps_get.2 (.ofExcept _)

theorem keeps_assign {name : String} {d : Datum} : (assign name d).Keeps names m := by
  refine keeps_activeScopes ?_
  cases assigned : Stack.assign name d m.scopes with
  | error f => exact .throw f
  | ok st' =>
    intro active
    obtain ⟨framed, callable⟩ := Stack.framed_assign assigned
    exact ⟨framed.grown active.ne_nil, callable active.callable⟩

theorem keeps_readDatum : readDatum.Keeps names m := by
  refine keeps_get.2 (.bind (keeps_modify rfl) fun _ m' _ => ?_)
  split
  · exact .pure _
  · exact .pure _
  · exact .throw _

theorem keeps_input {name : String} : (input name).Keeps names m := by
  refine keeps_activeScopes ?_
  split
  · exact .throw _
  · exact .bind keeps_readDatum fun _ _ _ => keeps_assign

theorem keeps_declare {n : Nat} {d : VariableDeclaration} (mem : d.name ∈ names) :
    (declare n d).Keeps names m := by
  have declares {datum : Datum} {isConstant : Bool} {m : Machine} :
      (onInnermost (·.declareVariable d.name datum isConstant)).Keeps names m := by
    refine keeps_onInnermost fun s s' declared => ?_
    obtain ⟨grown, procedures⟩ := Scope.grown_declareVariable mem declared
    refine ⟨grown, fun callable => ?_⟩
    unfold Scope.Callable
    rwa [procedures]
  unfold declare
  rw [keeps_locating]
  split
  · exact .bind keeps_value fun _ _ _ => declares
  · exact declares

theorem keeps_declareProcedure {p : Procedure} (mem : p.name ∈ names)
    (inner : ∀ node ∈ p.body.body, node.Inner) :
    (onInnermost (·.declareProcedure p)).Keeps names m := by
  refine keeps_onInnermost fun s s' declared => ?_
  obtain ⟨grown, procedures⟩ := Scope.grown_declareProcedure mem declared
  refine ⟨grown, fun callable => ?_⟩
  unfold Scope.Callable
  rw [procedures]
  exact List.forall_mem_cons.2 ⟨inner, callable⟩

-- The scope of the block is on top of the active ones while its nodes run, and goes with it.
theorem keeps_block {run : Node → Exec Unit} {b : Block Node} {inside : List String}
    (each : ∀ node ∈ b.body, ∀ m, (run node).Keeps inside m) :
    (block run true b).Keeps names m := by
  intro active
  have body := Keeps.forM each active.push
  have same : machineOf (block run true b m) = (machineOf (b.body.forM run m.push)).pop := by
    change machineOf (ensuring Machine.pop (b.body.forM run) m.push) = _
    unfold ensuring
    cases b.body.forM run m.push <;> rfl
  rw [same]
  exact body.pop_of_push active

def NodesKeep (run : Node → Exec Unit) : Prop :=
  ∀ {names node m}, node.Inner → node.declared ⊆ names → (run node).Keeps names m

theorem NodesKeep.body {run : Node → Exec Unit} (keep : NodesKeep run) {b : Block Node}
    (inner : ∀ node ∈ b.body, node.Inner) :
    ∀ node ∈ b.body, ∀ m, (run node).Keeps b.declared m :=
  fun node mem _ => keep (inner node mem) (Block.declared_subset mem)

-- A procedure that is found was declared in an active scope, and so its body ends no session.
theorem keeps_call {run : Node → Exec Unit} {name : String} (keep : NodesKeep run) :
    (call run name).Keeps names m := by
  refine keeps_activeScopes ?_
  cases found : m.scopes.findProcedure name with
  | none => exact .throw _
  | some p =>
    intro active
    have inner := Stack.inner_of_findProcedure active.callable found
    refine Keeps.bind (keeps_modify rfl) (fun _ m' _ => ?_) active
    rw [keeps_onExhaustion]
    exact keeps_block (keep.body inner)

end Exec

open Exec

theorem statement_keeps (rounds : Nat) {n : Nat} (keep : NodesKeep (execute rounds n))
    (keep' : NodesKeep (execute rounds (n + 1))) {names : List String} {node : Node}
    (statement : node.Statement) (m : Machine) : (execute rounds (n + 3) node).Keeps names m := by
  have nested (node : Node) (statement : node.Statement) (m : Machine) :
      (execute rounds (n + 1) node).Keeps names m := by
    refine keep' (.statement statement) ?_
    cases statement <;> exact List.nil_subset _
  have optional (body : Option Node) (statements : ∀ node ∈ body, node.Statement) (m : Machine) :
      (body.forM (execute rounds (n + 1))).Keeps names m := by
    cases body with
    | none => exact .pure ()
    | some node => exact nested node (statements node rfl) m
  unfold execute
  cases statement with
  | assignment => exact keeps_locating.2 (.bind keeps_result fun _ _ _ => keeps_assign)
  | call => exact keeps_locating.2 (keeps_call keep)
  | input => exact keeps_locating.2 keeps_input
  | print => exact keeps_locating.2 (.bind keeps_value fun _ _ _ => keeps_modify rfl)
  | sequence statements =>
    exact keeps_locating.2 (.forM fun node mem => nested node (statements node mem))
  | @conditional _ _ body statements =>
    refine keeps_locating.2 (.bind keeps_test fun holds m' _ => ?_)
    cases holds with
    | false => exact .pure ()
    | true => exact optional body statements m'
  | @loop _ _ body statements =>
    exact keeps_locating.2
      (keeps_repeatWhile (fun _ => keeps_test) (optional body statements) rounds)

theorem execute_keeps (rounds n : Nat) : NodesKeep (execute rounds n) := by
  induction n using Nat.strongRecOn with
  | ind n ih =>
    intro names node m inner declared
    match n, ih with
    | 0, _ | 1, _ | 2, _ => exact .throw _
    | n + 3, ih =>
      cases inner with
      | statement statement =>
        exact statement_keeps rounds (ih n (by omega)) (ih (n + 1) (by omega)) statement m
      | declarations =>
        refine keeps_locating.2 (.forM fun d mem m => keeps_declare (declared ?_))
        exact List.mem_map.2 ⟨d, mem, rfl⟩
      | procedure inner =>
        exact keeps_locating.2 (keeps_declareProcedure (declared (List.mem_singleton.2 rfl)) inner)

end PlZero
