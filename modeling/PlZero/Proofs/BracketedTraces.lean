import PlZero.Proofs.SessionMoments

set_option autoImplicit false

namespace PlZero

open Exec

/-- What is logged from a depth on, up to a point where this many of the calls that began are still
active. Each of the others has entered a scope and left it at the same depth. -/
inductive Brackets : Nat → Nat → List Event → Prop
  | nil {d : Nat} : Brackets d 0 []
  | closed {d calls : Nat} {name : String} {scope : Scope} {inside after : List Event} :
      Brackets (d + 1) 0 inside → Brackets d calls after →
      Brackets d calls (.call name :: .enter d :: (inside ++ .leave d scope :: after))
  | active {d calls : Nat} {name : String} {inside : List Event} :
      Brackets (d + 1) calls inside → Brackets d (calls + 1) (.call name :: .enter d :: inside)
  | exit {d calls : Nat} {line : Int} {after : List Event} : Brackets d calls after →
      Brackets d calls (.exit line :: after)

namespace Event

def step : Event → Int
  | .enter (_ + 1) => 1
  | .leave _ _ => -1
  | _ => 0

def From (d : Nat) : Event → Prop
  | .enter depth | .leave depth _ => d ≤ depth
  | _ => True

end Event

def nestingOf (trace : List Event) : Int := (trace.map Event.step).sum

@[simp] theorem nestingOf_cons (e : Event) (trace : List Event) :
    nestingOf (e :: trace) = e.step + nestingOf trace := by
  simp [nestingOf]

@[simp] theorem nestingOf_append (first second : List Event) :
    nestingOf (first ++ second) = nestingOf first + nestingOf second := by
  simp [nestingOf]

namespace Brackets

variable {d calls calls' : Nat} {trace more : List Event}

theorem append (first : Brackets d calls trace) (second : Brackets (d + calls) calls' more) :
    Brackets d (calls' + calls) (trace ++ more) := by
  induction first with
  | nil => exact second
  | closed inside _ _ ih =>
    simp only [List.cons_append, List.append_assoc]
    exact .closed inside (ih second)
  | @active d calls _ _ _ ih =>
    have deeper : Brackets (d + 1 + calls) calls' more := by rwa [Nat.add_right_comm]
    exact .active (ih deeper)
  | exit _ ih => exact .exit (ih second)

theorem nestingOf_eq (brackets : Brackets (d + 1) calls trace) : nestingOf trace = calls := by
  generalize start : d + 1 = d' at brackets
  induction brackets generalizing d with
  | nil => rfl
  | closed _ _ inner outer =>
    have inside := inner (congrArg (· + 1) start)
    have after := outer start
    subst start
    simp only [nestingOf_cons, nestingOf_append, Event.step, inside, after]
    omega
  | active _ ih =>
    have inside := ih (congrArg (· + 1) start)
    subst start
    simp only [nestingOf_cons, Event.step, inside]
    omega
  | exit _ ih =>
    simp only [nestingOf_cons, Event.step, ih start]
    omega

theorem from_depth (brackets : Brackets d calls trace) : ∀ event ∈ trace, event.From d := by
  have deeper {inside : List Event} {d : Nat} (all : ∀ event ∈ inside, event.From (d + 1)) :
      ∀ event ∈ inside, event.From d := by
    intro event mem
    have here := all event mem
    cases event with
    | enter | leave => exact Nat.le_of_succ_le here
    | _ => trivial
  induction brackets with
  | nil => nofun
  | closed _ _ inner outer =>
    simp only [List.forall_mem_cons, List.forall_mem_append]
    exact ⟨trivial, Nat.le_refl _, deeper inner, Nat.le_refl _, outer⟩
  | active _ ih =>
    simp only [List.forall_mem_cons]
    exact ⟨trivial, Nat.le_refl _, deeper ih⟩
  | exit _ ih => exact List.forall_mem_cons.2 ⟨trivial, ih⟩

end Brackets

namespace Machine

variable {m m' m'' : Machine} {calls calls' : Nat} {name : String}

@[simp] theorem events_record (m : Machine) (e : Event) :
    (m.record e).events = m.events ++ [e] := List.reverse_cons

@[simp] theorem events_push (m : Machine) :
    m.push.events = m.events ++ [.enter m.scopes.length] := List.reverse_cons

def Logged (m : Machine) (calls : Nat) (m' : Machine) : Prop :=
  ∃ trace, m'.events = m.events ++ trace ∧ Brackets m.scopes.length calls trace

structure Wrote (m : Machine) (calls : Nat) (m' : Machine) : Prop where
  active : m'.Active
  height : m'.scopes.length = m.scopes.length + calls
  logged : m.Logged calls m'

theorem Wrote.refl (active : m.Active) : m.Wrote 0 m :=
  ⟨active, rfl, [], (List.append_nil _).symm, .nil⟩

theorem Wrote.trans_logged (first : m.Wrote calls m') (second : m'.Logged calls' m'') :
    m.Logged (calls' + calls) m'' := by
  obtain ⟨_, height, trace, events, brackets⟩ := first
  obtain ⟨trace', events', brackets'⟩ := second
  rw [height] at brackets'
  refine ⟨trace ++ trace', ?_, brackets.append brackets'⟩
  rw [events', events, List.append_assoc]

theorem Wrote.trans (first : m.Wrote calls m') (second : m'.Wrote calls' m'') :
    m.Wrote (calls' + calls) m'' := by
  refine ⟨second.active, ?_, first.trans_logged second.logged⟩
  rw [second.height, first.height, Nat.add_assoc, Nat.add_comm calls]

theorem Grown.wrote {names : List String} (grown : m.Grown names m') (same : m'.log = m.log) :
    m.Wrote 0 m' := by
  refine ⟨grown.active, ?_, [], ?_, .nil⟩
  · obtain ⟨scopes, _⟩ := grown
    generalize m.scopes = st at scopes
    generalize m'.scopes = st' at scopes
    cases scopes with
    | mk _ framed => simp [framed.length_eq]
  · rw [events, events, same, List.append_nil]

theorem Active.enter (active : m.Active) (name : String) :
    m.Wrote 1 (m.record (.call name)).push := by
  have entered : (m.record (.call name)).Active := ⟨active.ne_nil, active.callable⟩
  refine ⟨entered.push, rfl, [.call name, .enter m.scopes.length], ?_, .active .nil⟩
  rw [events_push, events_record, List.append_assoc]
  rfl

theorem Wrote.leave (active : m.Active) (wrote : (m.record (.call name)).push.Wrote 0 m') :
    m.Wrote 0 m'.pop := by
  obtain ⟨inside, height, trace, events, brackets⟩ := wrote
  have positive := List.length_pos_iff.2 active.ne_nil
  have height : m'.scopes.length = m.scopes.length + 1 := height
  have brackets : Brackets (m.scopes.length + 1) 0 trace := brackets
  obtain ⟨st, input, output, log⟩ := m'
  match st with
  | [] => cases height
  | [_] => exact absurd (Nat.succ.inj height) (Nat.ne_of_lt positive)
  | scope :: outer :: st =>
    have inner : (outer :: st).length = m.scopes.length := Nat.succ.inj height
    refine ⟨⟨List.cons_ne_nil _ _, (Stack.callable_cons.1 inside.callable).2⟩, inner,
      .call name :: .enter m.scopes.length :: (trace ++ [.leave m.scopes.length scope]), ?_,
      .closed brackets .nil⟩
    change log.reverse = _ at events
    change (Event.leave (outer :: st).length scope :: log).reverse = _
    rw [List.reverse_cons, events, inner, events_push, events_record]
    simp [record]

end Machine

namespace Exec

variable {α β : Type} {m m₀ : Machine}

def Silent (x : Exec α) : Prop := ∀ m, (machineOf (x m)).log = m.log

theorem Silent.pure (a : α) : Silent (Pure.pure a) := fun _ => rfl

theorem Silent.throw (f : Stop) : Silent (MonadExcept.throw f : Exec α) := fun _ => rfl

theorem Silent.of_machineOf {x : Exec α} (same : ∀ m, machineOf (x m) = m) : Silent x :=
  fun m => congrArg Machine.log (same m)

theorem Silent.bind {x : Exec α} {f : α → Exec β} (first : Silent x) (rest : ∀ a, Silent (f a)) :
    Silent (x >>= f) := by
  intro m
  have before := first m
  simp only [Bind.bind, EStateM.bind]
  cases result : x m with
  | error f m' => rwa [result] at before
  | ok a m' =>
    rw [result] at before
    exact (rest a m').trans before

theorem Silent.locating {x : Exec α} (silent : Silent x) (p : Position) :
    Silent (locating p x) := by
  intro m
  rw [machineOf_locating]
  exact silent m

theorem Silent.forM {f : α → Exec Unit} (each : ∀ a, Silent (f a)) (as : List α) :
    Silent (as.forM f) := by
  induction as with
  | nil => exact .pure ()
  | cons a as ih => exact .bind (each a) fun _ => ih

theorem silent_result (n : Nat) (e : Node) : Silent (result n e) :=
  .of_machineOf (machineOf_result n e)

theorem silent_value (n : Nat) (e : Node) : Silent (value n e) :=
  .of_machineOf (machineOf_value n e)

theorem silent_activeScopes : Silent activeScopes := by
  rintro ⟨st, _, _, _⟩
  cases st <;> rfl

theorem silent_assign (name : String) (d : Datum) : Silent (assign name d) := by
  intro m
  rw [assign_run]
  split
  · rfl
  · split <;> rfl

theorem silent_onInnermost (change : Scope → Except Stop Scope) : Silent (onInnermost change) := by
  intro m
  unfold onInnermost
  split
  · rfl
  · split <;> rfl

theorem silent_readDatum : Silent readDatum := by
  intro m
  rw [readDatum_run]
  split <;> rfl

theorem silent_input (name : String) : Silent (input name) := by
  refine silent_activeScopes.bind fun st => ?_
  split
  · exact .throw _
  · exact silent_readDatum.bind fun d => silent_assign name d

theorem silent_declare (n : Nat) (d : VariableDeclaration) : Silent (declare n d) := by
  unfold declare
  refine Silent.locating ?_ d.pos
  split
  · exact (silent_value n _).bind fun _ => silent_onInnermost _
  · exact silent_onInnermost _

theorem Leads.inv {Inv : Machine → Prop} {Why : Stop → Prop} {r : EStateM.Result Stop Machine α}
    (leads : Leads Inv Why r) : Inv (machineOf r) := by
  cases leads <;> assumption

abbrev Writes (m₀ : Machine) : EStateM.Result Stop Machine α → Prop :=
  Leads (m₀.Wrote 0) fun _ => True

theorem Writes.of_machineOf {r : EStateM.Result Stop Machine α} (wrote : m₀.Wrote 0 (machineOf r)) :
    Writes m₀ r := by
  cases r with
  | ok => exact .ok wrote
  | error => exact .error wrote trivial

def NodesWrite (rounds n : Nat) : Prop :=
  ∀ {node m₀ m}, node.Inner → m₀.Wrote 0 m → Writes m₀ (execute rounds n node m)

variable {rounds n : Nat} {node : Node}

theorem writes_test (n : Nat) (c : Condition Node) (wrote : m₀.Wrote 0 m) :
    Writes m₀ (test n c m) :=
  .of_machineOf ((machineOf_test n c m).symm ▸ wrote)

theorem writes_silent (inner : node.Inner) (silent : Silent (execute rounds n node))
    (wrote : m₀.Wrote 0 m) : Writes m₀ (execute rounds n node m) := by
  have grown := execute_keeps rounds n (m := m) inner (List.Subset.refl _) wrote.active
  exact .of_machineOf (wrote.trans (grown.wrote (silent m)))

theorem writes_call {name : String} (writes : NodesWrite rounds n) (wrote : m₀.Wrote 0 m) :
    Writes m₀ (call (execute rounds n) name m) := by
  cases found : m.scopes.findProcedure name with
  | none => exact .of_machineOf ((machineOf_call_of_none found).symm ▸ wrote)
  | some p =>
    have active := wrote.active
    have inner := Stack.inner_of_findProcedure active.callable found
    have entered := Machine.Wrote.refl (active.enter name).active
    have body : Writes (m.record (.call name)).push
        (p.body.body.forM (execute rounds n) (m.record (.call name)).push) :=
      .forM (fun node _ passes inside => writes (inner node passes.mem) inside) entered
    rw [call_run found]
    refine .onExhaustion ?_ fun _ _ => trivial
    exact body.ensuring fun _ inside => wrote.trans (inside.leave active)

theorem execute_writes (rounds n : Nat) : NodesWrite rounds n := by
  induction n using Nat.strongRecOn with
  | ind n ih =>
    intro node m₀ m inner wrote
    match n, ih with
    | 0, _ | 1, _ | 2, _ => exact .of_machineOf wrote
    | n + 3, ih =>
      have nested {statement : Node} {m : Machine} (formed : statement.Statement)
          (wrote : m₀.Wrote 0 m) : Writes m₀ (execute rounds (n + 1) statement m) :=
        ih (n + 1) (by omega) (.statement formed) wrote
      cases inner with
      | declarations =>
        refine writes_silent .declarations ?_ wrote
        exact .locating (.forM (silent_declare _) _) _
      | procedure inner =>
        exact writes_silent (.procedure inner) (.locating (silent_onInnermost _) _) wrote
      | statement statement =>
        cases statement with
        | assignment =>
          refine writes_silent (.statement .assignment) ?_ wrote
          exact .locating (.bind (silent_result _ _) fun _ => silent_assign _ _) _
        | input => exact writes_silent (.statement .input) (.locating (silent_input _) _) wrote
        | print =>
          refine writes_silent (.statement .print) ?_ wrote
          exact .locating (.bind (silent_value _ _) fun _ _ => rfl) _
        | call => exact .locating (writes_call (ih n (by omega)) wrote) fun _ => id
        | sequence statements =>
          refine .locating (.forM (fun node _ passes wrote => ?_) wrote) fun _ => id
          exact nested (statements node passes.mem) wrote
        | conditional statements =>
          refine .locating (.bind (writes_test _ _ wrote) (fun goesOn m' _ wrote => ?_) fun _ => id)
            fun _ => id
          cases goesOn with
          | false => exact .ok wrote
          | true => exact .optional (fun node mem => nested (statements node mem) wrote) wrote
        | loop statements =>
          refine .locating (.repeatWhile (fun _ _ _ _ wrote => writes_test _ _ wrote)
            (fun _ _ _ _ _ _ wrote => ?_) (fun _ _ => trivial) wrote) fun _ => id
          exact .optional (fun node mem => nested (statements node mem) wrote) wrote

end Exec

end PlZero
