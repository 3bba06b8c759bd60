import PlZero.Proofs.PiecewiseRuns
import PlZero.Proofs.ScopeChanges

set_option autoImplicit false

namespace PlZero

open WellFormed Exec

structure Moment where
  deed : Deed
  machine : Machine

section Moments

variable {α : Type}

def momentsThen (x : Exec Unit) (first rest : Machine → List Moment) (m : Machine) :
    List Moment :=
  first m ++
    match x m with
    | .ok _ m' => rest m'
    | .error _ _ => []

def momentsIf (test : Exec Bool) (inside : Machine → List Moment) (m : Machine) : List Moment :=
  match test m with
  | .ok true m' => inside m'
  | _ => []

def momentsOfAll (run : α → Exec Unit) (moments : α → Machine → List Moment) :
    List α → Machine → List Moment
  | [], _ => []
  | a :: as, m => momentsThen (run a) (moments a) (momentsOfAll run moments as) m

def momentsOfRounds (test : Exec Bool) (body : Exec Unit) (moments : Machine → List Moment) :
    Nat → Machine → List Moment
  | 0, _ => []
  | rounds + 1, m =>
    momentsIf test (momentsThen body moments (momentsOfRounds test body moments rounds)) m

def momentsInside (run : Node → Exec Unit) (moments : Node → Machine → List Moment)
    (b : Block Node) (m : Machine) : List Moment :=
  ⟨.entered, m.push⟩ :: (momentsOfAll run moments b.body m.push ++
    [⟨.left, (machineOf (b.body.forM run m.push)).pop⟩])

def momentsOfDeclaration (n : Nat) (d : VariableDeclaration) (m : Machine) : List Moment :=
  match declare n d m with
  | .ok _ m' => [⟨.declared d, m'⟩]
  | .error _ m' => [⟨.refused d, m'⟩]

/-- The moments of running a node. What has no parts that run is done at once. -/
def moments (rounds : Nat) : Nat → Node → Machine → List Moment
  | 0, _, _ | 1, _, _ | 2, _, _ => []
  | n + 3, node, m =>
    match node with
    | .block b => momentsInside (execute rounds n) (moments rounds n) b m
    | .declarations _ group =>
      momentsOfAll (declare (n + 1)) (momentsOfDeclaration (n + 1)) group m
    | .call _ target =>
      match m.scopes.findProcedure target.name with
      | none => []
      | some p =>
        momentsInside (execute rounds n) (moments rounds n) p.body (m.record (.call target.name))
    | .sequence _ body => momentsOfAll (execute rounds (n + 1)) (moments rounds (n + 1)) body m
    | .conditional _ condition body =>
      momentsIf (test (n + 1) condition) (fun m => body.elim [] (moments rounds (n + 1) · m)) m
    | .loop _ condition body =>
      momentsOfRounds (test (n + 1) condition) (body.forM (execute rounds (n + 1)))
        (fun m => body.elim [] (moments rounds (n + 1) · m)) rounds m
    | node => [⟨.ran node, machineOf (execute rounds (n + 3) node m)⟩]

end Moments

def Program.moments (limits : Limits) (debug : Bool) (p : Program) (m : Machine) : List Moment :=
  if debug && decide (limits.nesting < 2 * p.node.outline.depth) then []
  else ⟨.begun, p.start debug m⟩ ::
    momentsOfAll (execute limits.rounds limits.nesting)
      (PlZero.moments limits.rounds limits.nesting) p.body.body (p.start debug m)

def Step.moments (limits : Limits) (debug : Bool) (step : Step) (m : Machine) : List Moment :=
  (match step.read with
    | .error _ => []
    | .ok p => p.moments limits debug m) ++
    [⟨.concluded, machineOf (step.run limits debug m)⟩]

def Session.momentsAfter (limits : Limits) (debug : Bool) : List Step → Machine → List Moment
  | [], _ => []
  | step :: steps, m => step.moments limits debug m ++
    momentsAfter limits debug steps (machineOf (step.run limits debug m))

def Session.moments (limits : Limits) (debug : Bool) (steps : List Step) (input : Input) :
    List Moment :=
  ⟨.opened, { input }⟩ :: momentsAfter limits debug steps { input }

/-- One moment after the other leads from a machine to another one, each by what its deed may do to
the scopes. -/
inductive Follows (texts : List Step) : Machine → List Moment → Machine → Prop
  | done {m : Machine} : Follows texts m [] m
  | next {m m' : Machine} {a : Moment} {as : List Moment} :
      m.scopes.Change texts a.deed a.machine.scopes → Follows texts a.machine as m' →
      Follows texts m (a :: as) m'

namespace Follows

variable {texts : List Step} {m m' m'' : Machine} {as bs : List Moment}

theorem append (first : Follows texts m as m') (second : Follows texts m' bs m'') :
    Follows texts m (as ++ bs) m'' := by
  induction first with
  | done => exact second
  | next change _ ih => exact .next change (ih second)

theorem single {deed : Deed} (change : m.scopes.Change texts deed m'.scopes) :
    Follows texts m [⟨deed, m'⟩] m' :=
  .next change .done

theorem sound (follows : Follows texts m as m') (sound : m.scopes.Sound texts) :
    m'.scopes.Sound texts := by
  induction follows with
  | done => exact sound
  | next change _ ih => exact ih (change.sound sound)

end Follows

section Runs

variable {α : Type} {texts : List Step} {m m' : Machine} {run : α → Exec Unit}
  {each : α → Machine → List Moment}

def Traces (texts : List Step) (x : Exec Unit) (moments : Machine → List Moment) : Prop :=
  ∀ m : Machine, m.scopes.Sound texts → Follows texts m (moments m) (machineOf (x m))

theorem Traces.andThen {x y : Exec Unit} {first rest : Machine → List Moment}
    (traces : Traces texts x first) (traces' : Traces texts y rest) :
    Traces texts (x >>= fun _ => y) (momentsThen x first rest) := by
  intro m sound
  have earlier := traces m sound
  simp only [momentsThen, Bind.bind, EStateM.bind]
  cases result : x m with
  | ok _ m' =>
    rw [result] at earlier
    exact earlier.append (traces' m' (earlier.sound sound))
  | error =>
    rw [result] at earlier
    exact earlier.append .done

theorem Traces.guarded {test : Exec Bool} {x : Exec Unit} {inside : Machine → List Moment}
    (tests : ∀ m, machineOf (test m) = m) (traces : Traces texts x inside) :
    Traces texts (test >>= fun goesOn => if goesOn = true then x else pure ())
      (momentsIf test inside) := by
  intro m sound
  have stays := tests m
  simp only [momentsIf, Bind.bind, EStateM.bind]
  cases tested : test m with
  | error =>
    rw [tested] at stays
    obtain rfl := stays
    exact .done
  | ok goesOn m' =>
    rw [tested] at stays
    obtain rfl : m' = m := stays
    cases goesOn with
    | false => exact .done
    | true => exact traces m' sound

theorem traces_all {as : List α} (traces : ∀ a ∈ as, Traces texts (run a) (each a)) :
    Traces texts (as.forM run) (momentsOfAll run each as) := by
  induction as with
  | nil => exact fun _ _ => .done
  | cons a as ih =>
    obtain ⟨here, later⟩ := List.forall_mem_cons.1 traces
    exact here.andThen (ih later)

theorem traces_optional {a : Option α} (traces : ∀ b ∈ a, Traces texts (run b) (each b)) :
    Traces texts (a.forM run) fun m => a.elim [] (each · m) := by
  cases a with
  | none => exact fun _ _ => .done
  | some b => exact traces b rfl

theorem machineOf_test (n : Nat) (c : PlZero.Condition Node) (m : Machine) :
    machineOf (test n c m) = m := by
  change machineOf (ofExcept (holds m.scopes n c) m) = _
  cases holds m.scopes n c <;> rfl

theorem test_ok {n : Nat} {c : PlZero.Condition Node} {goesOn : Bool}
    (completed : test n c m = .ok goesOn m') : m' = m := by
  have stays := machineOf_test n c m
  rwa [completed] at stays

theorem traces_rounds {test : Exec Bool} {body : Exec Unit} {inside : Machine → List Moment}
    (tests : ∀ m, machineOf (test m) = m) (bodies : Traces texts body inside) (rounds : Nat) :
    Traces texts (repeatWhile test body rounds) (momentsOfRounds test body inside rounds) := by
  induction rounds with
  | zero => exact fun _ _ => .done
  | succ rounds ih => exact .guarded tests (bodies.andThen ih)

theorem change_pop (m : Machine) : m.scopes.Change texts .left m.pop.scopes := by
  unfold Machine.pop
  split
  · next scopes =>
    rw [scopes]
    exact .left (List.cons_ne_nil _ _)
  · exact .same rfl

theorem machineOf_result (n : Nat) (e : Node) (m : Machine) : machineOf (result n e m) = m := by
  change machineOf (ofExcept (evaluate m.scopes n e) m) = m
  cases evaluate m.scopes n e <;> rfl

theorem machineOf_value (n : Nat) (e : Node) (m : Machine) : machineOf (value n e m) = m := by
  have stays := machineOf_result n e m
  simp only [value, Bind.bind, EStateM.bind]
  cases completed : result n e m with
  | error =>
    rw [completed] at stays
    exact stays
  | ok r m' =>
    rw [completed] at stays
    obtain rfl : m' = m := stays
    cases r <;> rfl

def Exec.Does (texts : List Step) (deed : Deed) (x : Exec Unit) (m : Machine) : Prop :=
  (∃ f, x m = .error f m) ∨ ∃ m', x m = .ok () m' ∧ m.scopes.Change texts deed m'.scopes

theorem Exec.Does.locating {deed : Deed} {x : Exec Unit} (does : x.Does texts deed m)
    (p : Position) : (locating p x).Does texts deed m := by
  unfold Exec.Does Exec.locating
  rcases does with ⟨f, failed⟩ | ⟨m', completed, change⟩
  · rw [failed]
    exact .inl ⟨_, rfl⟩
  · rw [completed]
    exact .inr ⟨m', rfl, change⟩

theorem Exec.Does.after {β : Type} {deed : Deed} {x : Exec β} {f : β → Exec Unit}
    (stays : machineOf (x m) = m) (next : ∀ b, x m = .ok b m → (f b).Does texts deed m) :
    (x >>= f).Does texts deed m := by
  unfold Exec.Does
  simp only [Bind.bind, EStateM.bind]
  cases result : x m with
  | error g m' =>
    rw [result] at stays
    obtain rfl : m' = m := stays
    exact .inl ⟨g, rfl⟩
  | ok b m' =>
    rw [result] at stays
    obtain rfl : m' = m := stays
    exact next b result

theorem Exec.Does.change {x : Exec Unit} {node : Node} (does : x.Does texts (.ran node) m) :
    m.scopes.Change texts (.ran node) (machineOf (x m)).scopes := by
  rcases does with ⟨f, failed⟩ | ⟨m', completed, change⟩
  · rw [failed]
    exact .same rfl
  · rw [completed]
    exact change

theorem does_onInnermost {deed : Deed} {change : Scope → Except Stop Scope} (m : Machine)
    (changes : ∀ s s' st, change s = .ok s' → Stack.Change texts deed (s :: st) (s' :: st)) :
    (onInnermost change).Does texts deed m := by
  unfold Exec.Does onInnermost
  cases m.scopes with
  | nil => exact .inl ⟨_, rfl⟩
  | cons s st =>
    dsimp only
    cases changed : change s with
    | ok s' => exact .inr ⟨_, rfl, changes s s' st changed⟩
    | error => exact .inl ⟨_, rfl⟩

theorem does_assign {node : Node} {d : Datum} (name : String) (m : Machine)
    (fits : ∀ w, d.toValue = .ok w → w.Fits) : (assign name d).Does texts (.ran node) m := by
  unfold Exec.Does
  rw [assign_run]
  cases m.scopes with
  | nil => exact .inl ⟨_, rfl⟩
  | cons s st =>
    dsimp only
    cases assigned : Stack.assign name d (s :: st) with
    | error => exact .inl ⟨_, rfl⟩
    | ok st' =>
      obtain ⟨inner, s', outer, v, w, whole, found, changes, value, rfl⟩ := Stack.assign_ok assigned
      refine .inr ⟨_, rfl, ?_⟩
      rw [whole]
      exact .assigned found changes (fits w value)

theorem ofLiteral_of_evaluate {st : Stack} {n : Nat} {l : PlZero.Literal} {v : Value}
    (evaluated : evaluate st n (.literal l) = .ok (.value v)) :
    Value.ofLiteral l.type l.raw = .ok v := by
  match n with
  | 0 | 1 => cases evaluated
  | n + 2 =>
    rw [evaluate] at evaluated
    cases value : Value.ofLiteral l.type l.raw with
    | error => rw [value] at evaluated; cases evaluated
    | ok w =>
      rw [value] at evaluated
      cases evaluated
      rfl

theorem traces_declaration {n : Nat} {d : VariableDeclaration}
    (does : ∀ m, (declare n d).Does texts (.declared d) m) :
    Traces texts (declare n d) (momentsOfDeclaration n d) := by
  intro m _
  unfold momentsOfDeclaration
  rcases does m with ⟨f, failed⟩ | ⟨m', completed, change⟩
  · rw [failed]
    exact .single (.same rfl)
  · rw [completed]
    exact .single change

theorem does_constant {d : VariableDeclaration} (formed : Constant Lexicon d)
    (of : (Node.declaration d).IsOf texts) (n : Nat) (m : Machine) :
    (declare n d).Does texts (.declared d) m := by
  cases formed with
  | @mk pos name l named literal =>
    refine Exec.Does.locating (.after (machineOf_value n (.literal l) m) fun v completed => ?_) pos
    have value := ofLiteral_of_evaluate (value_ok completed).1
    refine does_onInnermost m fun s s' st declared => ?_
    obtain ⟨w, ⟨⟩, unused, rfl⟩ := Scope.declareVariable_ok declared
    exact .constant of rfl rfl (Literal.denotes_of_ofLiteral literal value) unused

theorem does_variable {d : VariableDeclaration} (formed : WellFormed.Variable Lexicon d) (n : Nat)
    (m : Machine) : (declare n d).Does texts (.declared d) m := by
  cases formed with
  | @mk pos name named =>
    refine Exec.Does.locating (does_onInnermost m fun s s' st declared => ?_) pos
    obtain ⟨w, ⟨⟩, unused, rfl⟩ := Scope.declareVariable_ok declared
    exact .unset rfl unused

theorem does_assignment {pos : Position} {target : Identifier} {e : Node} (rounds n : Nat)
    (m : Machine) (sound : m.scopes.Sound texts) :
    (execute rounds (n + 3) (.assignment pos target e)).Does texts
      (.ran (.assignment pos target e)) m := by
  rw [execute]
  refine Exec.Does.locating (.after (machineOf_result (n + 1) e m) fun r completed => ?_) pos
  have fits := Stack.yields_evaluate sound.fits (n + 1) e
  rw [(result_ok completed).1] at fits
  refine does_assign target.name m fun w value => ?_
  cases fits with
  | ok fits =>
    cases r with
    | truth => cases value
    | value v =>
      cases value
      exact fits

theorem does_print {pos : Position} {e : Node} (rounds n : Nat) (m : Machine) :
    (execute rounds (n + 3) (.print pos e)).Does texts (.ran (.print pos e)) m := by
  rw [execute]
  refine Exec.Does.locating (.after (machineOf_value (n + 1) e m) fun v _ => ?_) pos
  exact .inr ⟨_, rfl, .same rfl⟩

theorem does_procedure {p : Procedure} (known : p.Known texts) (rounds n : Nat) (m : Machine) :
    (execute rounds (n + 3) (.procedure p.pos p.name p.body)).Does texts
      (.ran (.procedure p.pos p.name p.body)) m := by
  rw [execute]
  refine Exec.Does.locating (does_onInnermost m fun s s' st declared => ?_) p.pos
  obtain ⟨unused, rfl⟩ := Scope.declareProcedure_ok declared
  exact .procedure known unused

theorem input_of_none (name : String) (none : m.scopes = []) :
    input name m = .error (.breakdown .noScope) m := by
  obtain ⟨st, _, _, _⟩ := m
  subst none
  rfl

theorem change_input {pos : Position} {target : Identifier} (rounds n : Nat) (m : Machine) :
    m.scopes.Change texts (.ran (.input pos target))
      (machineOf (execute rounds (n + 3) (.input pos target) m)).scopes := by
  rw [execute, machineOf_locating]
  by_cases some : m.scopes = []
  · rw [input_of_none target.name some]
    exact .same rfl
  · simp only [input, Bind.bind, EStateM.bind, activeScopes_run some]
    cases m.scopes.findVariable target.name with
    | none => exact .same rfl
    | some v =>
      have reads := readDatum_run m
      cases read : m.input.read.1 with
      | interrupted =>
        rw [read] at reads
        simp only [reads, EStateM.bind]
        exact .same rfl
      -- A line is a text, and the end of the input leaves no value; both fit.
      | line | ended =>
        rw [read] at reads
        simp only [reads, EStateM.bind]
        refine Exec.Does.change (does_assign target.name { m with input := m.input.read.2 } ?_)
        intro w value
        cases value
        trivial

theorem follows_inside {run : Node → Exec Unit} {each : Node → Machine → List Moment}
    {b : Block Node} (traces : ∀ node ∈ b.body, Traces texts (run node) (each node))
    (sound : m.scopes.Sound texts) (same : m'.scopes = m.scopes) :
    Follows texts m (momentsInside run each b m') (machineOf (block run true b m')) := by
  have enters : m.scopes.Change texts .entered m'.push.scopes := by
    rw [Machine.push, same]
    exact .entered
  have inside := traces_all traces m'.push (enters.sound sound)
  have ends : machineOf (block run true b m') = (machineOf (b.body.forM run m'.push)).pop :=
    machineOf_ensuring Machine.pop (b.body.forM run) m'.push
  rw [ends]
  exact .next enters (inside.append (.single (change_pop _)))

theorem machineOf_call_of_none {run : Node → Exec Unit} {name : String}
    (absent : m.scopes.findProcedure name = none) : machineOf (call run name m) = m := by
  by_cases some : m.scopes = []
  · obtain ⟨st, _, _, _⟩ := m
    subst some
    rfl
  · simp only [call, Bind.bind, EStateM.bind, activeScopes_run some, absent]
    rfl

end Runs

section Nodes

variable {texts : List Step} {rounds n : Nat} {node : Node}

def ItemsTrace (texts : List Step) (rounds n : Nat) : Prop :=
  ∀ {node}, Item node → node.IsOf texts →
    Traces texts (execute rounds n node) (moments rounds n node)

theorem ItemsTrace.optional (trace : ItemsTrace texts rounds n) {body : Option Node}
    (formed : ∀ node ∈ body, Statement Lexicon node) (of : ∀ node ∈ body, node.IsOf texts) :
    Traces texts (body.forM (execute rounds n)) fun m => body.elim [] (moments rounds n · m) :=
  traces_optional fun node mem => trace (.statement (formed node mem)) (of node mem)

-- The body of a procedure that is found stands in one of the texts.
theorem ItemsTrace.call (trace : ItemsTrace texts rounds n) {pos : Position} {target : Identifier} :
    Traces texts (execute rounds (n + 3) (.call pos target))
      (moments rounds (n + 3) (.call pos target)) := by
  intro m sound
  rw [execute, machineOf_locating, moments]
  cases found : m.scopes.findProcedure target.name with
  | none =>
    rw [machineOf_call_of_none found]
    exact .done
  | some p =>
    obtain ⟨formed, of⟩ := sound.known found
    rw [call_run found, machineOf_onExhaustion]
    refine follows_inside (fun node mem => ?_) sound rfl
    exact trace (formed.items node mem) ((of.child (List.mem_singleton.2 rfl)).child mem)

theorem statement_traces (trace : ItemsTrace texts rounds n)
    (trace' : ItemsTrace texts rounds (n + 1)) (formed : Statement Lexicon node)
    (of : node.IsOf texts) :
    Traces texts (execute rounds (n + 3) node) (moments rounds (n + 3) node) := by
  have nested {pos : Position} {c : PlZero.Condition Node} {body : Option Node}
      (whole : node = .conditional pos c body ∨ node = .loop pos c body) :
      ∀ inner ∈ body, inner.IsOf texts := by
    intro inner mem
    refine of.child ?_
    rcases whole with rfl | rfl <;> exact List.mem_cons_of_mem _ (Option.mem_toList.2 mem)
  cases formed with
  | assignment => exact fun m sound => .single (does_assignment rounds n m sound).change
  | call => exact trace.call
  | input => exact fun m _ => .single (change_input rounds n m)
  | print => exact fun m _ => .single (does_print rounds n m).change
  | @sequence pos body formed =>
    intro m sound
    rw [execute, machineOf_locating, moments]
    refine traces_all (fun inner mem => ?_) m sound
    exact trace' (.statement (formed inner mem)) (of.child mem)
  | @conditional pos c body _ formed =>
    intro m sound
    rw [execute, machineOf_locating, moments]
    exact Traces.guarded (machineOf_test (n + 1) c) (trace'.optional formed (nested (.inl rfl)))
      m sound
  | @loop pos c body _ formed =>
    intro m sound
    rw [execute, machineOf_locating, moments]
    exact traces_rounds (machineOf_test (n + 1) c) (trace'.optional formed (nested (.inr rfl)))
      rounds m sound

theorem items_trace (texts : List Step) (rounds n : Nat) : ItemsTrace texts rounds n := by
  -- By the nesting that is left, of which a call takes three and a statement inside another two.
  induction n using Nat.strongRecOn with
  | ind n ih =>
    intro node item of
    match n, ih with
    | 0, _ | 1, _ | 2, _ => exact fun _ _ => .done
    | n + 3, ih =>
      cases item with
      | statement formed =>
        exact statement_traces (ih n (by omega)) (ih (n + 1) (by omega)) formed of
      | procedure formed =>
        obtain ⟨_, constants, vars, procedures, statement⟩ := formed
        have known : Procedure.Known texts ⟨_, _, _⟩ :=
          ⟨.mk constants vars procedures statement, of⟩
        exact fun m _ => .single (does_procedure known rounds n m).change
      | constants formed =>
        intro m sound
        rw [execute, machineOf_locating, moments]
        refine traces_all (fun d mem => ?_) m sound
        have inside : (Node.declaration d).IsOf texts := of.child (List.mem_map_of_mem mem)
        exact traces_declaration (does_constant (formed d mem) inside (n + 1))
      | vars formed =>
        intro m sound
        rw [execute, machineOf_locating, moments]
        refine traces_all (fun d mem => ?_) m sound
        exact traces_declaration (does_variable (formed d mem) (n + 1))

theorem exit_traces (texts : List Step) (rounds n : Nat) (pos : Position) :
    Traces texts (execute rounds n (.exitMarker pos)) (moments rounds n (.exitMarker pos)) := by
  match n with
  | 0 | 1 | 2 => exact fun _ _ => .done
  | n + 3 => exact fun _ _ => .single .ended

end Nodes

theorem WellFormed.Outer.items {nodes : List Node} (outer : Outer nodes) :
    ∀ node ∈ nodes, Item node ∨ ∃ pos, node = .exitMarker pos := by
  intro node mem
  cases outer with
  | unclosed formed => exact .inl (formed.items node mem)
  | closed formed =>
    rcases List.mem_append.1 mem with mem | mem
    · exact .inl (formed.items node mem)
    · exact .inr ⟨_, List.mem_singleton.1 mem⟩

namespace Program

variable {texts : List Step} {limits : Limits} {debug : Bool} {p : Program} {m : Machine}

theorem body_traces (limits : Limits) (of : p.node.IsOf texts) (outer : Outer p.body.body) :
    ∀ node ∈ p.body.body, Traces texts (execute limits.rounds limits.nesting node)
      (PlZero.moments limits.rounds limits.nesting node) := by
  intro node mem
  rcases outer.items node mem with item | ⟨pos, rfl⟩
  · exact items_trace texts _ _ item ((of.child (List.mem_singleton.2 rfl)).child mem)
  · exact exit_traces texts _ _ pos

theorem change_start (debug : Bool) (p : Program) (m : Machine) :
    m.scopes.Change texts .begun (p.start debug m).scopes := by
  have same := scopes_logged debug p m
  unfold start
  rw [same]
  split
  · next none =>
    rw [Machine.push, same, List.isEmpty_iff.1 none]
    exact .begun
  · rw [same]
    exact .same rfl

theorem moments_of_loggable (logged : debug = true → p.Loggable limits) :
    p.moments limits debug m = ⟨.begun, p.start debug m⟩ ::
      momentsOfAll (execute limits.rounds limits.nesting)
        (PlZero.moments limits.rounds limits.nesting) p.body.body (p.start debug m) := by
  refine if_neg ?_
  simp only [Bool.and_eq_true, decide_eq_true_eq, not_and, Nat.not_lt]
  exact logged

theorem moments_of_unloggable (deep : ¬ p.Loggable limits) : p.moments limits true m = [] := by
  refine if_pos ?_
  simpa [Loggable] using deep

theorem follows (limits : Limits) (debug : Bool) (of : p.node.IsOf texts)
    (outer : Outer p.body.body) (short : m.scopes.length ≤ 1) (sound : m.scopes.Sound texts) :
    Follows texts m (p.moments limits debug m) (machineOf (p.run limits debug m)) := by
  by_cases logged : debug = true → p.Loggable limits
  · have begins : m.scopes.Change texts .begun (p.start debug m).scopes := change_start debug p m
    rw [moments_of_loggable logged, run_of_short short logged, machineOf_onExhaustion]
    exact .next begins (traces_all (body_traces limits of outer) _ (begins.sound sound))
  · obtain ⟨rfl, deep⟩ := Classical.not_imp.1 logged
    rw [run_unlogged deep, moments_of_unloggable deep]
    exact .done

end Program

namespace Step

variable {texts : List Step} {limits : Limits} {debug : Bool} {step : Step} {m : Machine}

theorem follows (limits : Limits) (debug : Bool) (mem : step ∈ texts) (resting : m.Resting)
    (sound : m.scopes.Sound texts) :
    Follows texts m (step.moments limits debug m) (machineOf (step.run limits debug m)) := by
  unfold moments
  rw [run_eq]
  cases accepted : step.read with
  | error => exact .single (.same rfl)
  | ok p =>
    dsimp only
    rw [machineOf_conclude]
    refine Follows.append ?_ (.single (.same rfl))
    exact p.follows limits debug ⟨step, mem, p, accepted, .refl⟩ (outer_of_read accepted)
      resting.length_le sound

end Step

namespace Session

variable {texts steps : List Step} {limits : Limits} {debug : Bool} {m : Machine}

theorem follows_afterSteps (limits : Limits) (debug : Bool) (some : steps ⊆ texts)
    (resting : m.Resting) (sound : m.scopes.Sound texts) :
    Follows texts m (momentsAfter limits debug steps m) (afterSteps limits debug steps m) := by
  induction steps generalizing m with
  | nil => exact .done
  | cons step steps ih =>
    obtain ⟨mem, some⟩ := List.cons_subset.1 some
    have first := step.follows limits debug mem resting sound
    exact first.append (ih some (step.outcome limits debug resting).2 (first.sound sound))

end Session

end PlZero
