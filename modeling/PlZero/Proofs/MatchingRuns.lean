import PlZero.Proofs.ActionLaws

set_option autoImplicit false

namespace PlZero

-- Of the scopes, an expression looks at the values of names alone.
theorem evaluate_eq_of_valueOf {st st' : Stack} (same : ∀ name, st.valueOf name = st'.valueOf name)
    (n : Nat) :
    (∀ e, evaluate st n e = evaluate st' n e) ∧ ∀ c, holds st n c = holds st' n c := by
  induction n using Nat.strongRecOn with
  | ind n ih =>
    constructor
    · intro e
      match n with
      | 0 | 1 => rfl
      | n + 2 =>
        have inner := (ih n (by omega)).1
        rw [evaluate.eq_def, evaluate.eq_def]
        cases e with
        | identifier i => simp only [same]
        | unary | binary | typecast => simp only [inner]
        | condition c => exact congrArg (Except.map _) ((ih (n + 1) (by omega)).2 c)
        | _ => rfl
    · intro c
      match n with
      | 0 => rfl
      | n + 1 =>
        have inner := (ih n (by omega)).1
        simp only [holds, inner]

variable {R : Block Node → Block Node → Prop}

section Scopes

structure Scope.Matches (R : Block Node → Block Node → Prop) (s s' : Scope) : Prop where
  vars : s.variableTable = s'.variableTable
  procedures : ∀ name, Option.Rel (fun p p' => R p.body p'.body) (s.findProcedure name)
    (s'.findProcedure name)
  names : (s.procedureTable.map (·.1)).Perm (s'.procedureTable.map (·.1))

abbrev Stack.Matches (R : Block Node → Block Node → Prop) (st st' : Stack) : Prop :=
  List.Forall₂ (Scope.Matches R) st st'

inductive Agree {α : Type} (Good : α → α → Prop) : Except Stop α → Except Stop α → Prop
  | ok {a b : α} : Good a b → Agree Good (.ok a) (.ok b)
  | error {f : Stop} : Agree Good (.error f) (.error f)

variable {s s' : Scope} {st st' : Stack}

theorem Scope.Matches.empty : Scope.Matches R {} {} := ⟨rfl, fun _ => .none, .refl _⟩

theorem Scope.Matches.findVariable_eq (like : s.Matches R s') (name : String) :
    s.findVariable name = s'.findVariable name := by
  unfold findVariable
  rw [like.vars]

theorem Scope.Matches.declares_eq (like : s.Matches R s') (name : String) :
    s.declares name = s'.declares name := by
  have same : (s.findProcedure name).isSome = (s'.findProcedure name).isSome := by
    have found := like.procedures name
    generalize s.findProcedure name = p at found
    generalize s'.findProcedure name = p' at found
    cases found <;> rfl
  unfold declares
  rw [like.findVariable_eq, same]

abbrev Scope.Conform (R : Block Node → Block Node → Prop)
    (change change' : Scope → Except Stop Scope) : Prop :=
  ∀ s s' : Scope, s.Matches R s' → Agree (Scope.Matches R) (change s) (change' s')

theorem Scope.conform_declareVariable (name : String) (d : Datum) (isConstant : Bool) :
    Conform R (·.declareVariable name d isConstant) (·.declareVariable name d isConstant) := by
  intro s s' like
  simp only [declareVariable, like.declares_eq name]
  split
  · exact .error
  · cases d.toValue with
    | error => exact .error
    | ok v => exact .ok ⟨congrArg (_ :: ·) like.vars, like.procedures, like.names⟩

theorem Scope.conform_declareProcedure {b b' : Block Node} (related : R b b') (pos : Position)
    (name : String) :
    Conform R (·.declareProcedure ⟨pos, name, b⟩) (·.declareProcedure ⟨pos, name, b'⟩) := by
  intro s s' like
  simp only [declareProcedure, like.declares_eq name]
  split
  · exact .error
  · refine .ok ⟨like.vars, fun other => ?_, like.names.cons name⟩
    have procedures := like.procedures other
    simp only [findProcedure, List.lookup_cons] at procedures ⊢
    split
    · exact .some related
    · exact procedures

theorem Scope.Matches.setVariable (like : s.Matches R s') (name : String) (v : Variable) :
    (s.setVariable name v).Matches R (s'.setVariable name v) :=
  ⟨congrArg (replaceEntry name v) like.vars, like.procedures, like.names⟩

namespace Stack.Matches

theorem findVariable_eq (like : st.Matches R st') (name : String) :
    st.findVariable name = st'.findVariable name := by
  induction like with
  | nil => rfl
  | cons first _ ih =>
    simp only [Stack.findVariable, List.findSome?_cons, first.findVariable_eq] at ih ⊢
    rw [ih]

theorem valueOf_eq (like : st.Matches R st') (name : String) :
    st.valueOf name = st'.valueOf name := by
  have found := like.findVariable_eq name
  unfold valueOf
  rw [found]
  cases like <;> rfl

theorem findProcedure (like : st.Matches R st') (name : String) :
    Option.Rel (fun p p' => R p.body p'.body) (st.findProcedure name)
      (st'.findProcedure name) := by
  induction like with
  | nil => exact .none
  | cons first _ ih =>
    have here := first.procedures name
    simp only [Stack.findProcedure, List.findSome?_cons]
    generalize Scope.findProcedure _ name = found at here
    generalize Scope.findProcedure _ name = found' at here
    cases here with
    | some related => exact .some related
    | none => exact ih

theorem assign (like : st.Matches R st') (name : String) (d : Datum) :
    Agree (Stack.Matches R) (st.assign name d) (st'.assign name d) := by
  induction like with
  | nil => exact .error
  | @cons s s' st st' first rest ih =>
    rw [Stack.assign, Stack.assign, first.findVariable_eq]
    cases s'.findVariable name with
    | some v =>
      dsimp only
      cases v.assign d with
      | error => exact .error
      | ok w => exact .ok (.cons (first.setVariable name w) rest)
    | none =>
      dsimp only
      generalize Stack.assign name d st = after at ih
      generalize Stack.assign name d st' = after' at ih
      cases ih with
      | error => exact .error
      | ok rest => exact .ok (.cons first rest)

end Stack.Matches

end Scopes

namespace Machine

structure Matches (R : Block Node → Block Node → Prop) (m m' : Machine) : Prop where
  scopes : m.scopes.Matches R m'.scopes
  input : m.input = m'.input
  output : m.output = m'.output

variable {m m' : Machine}

namespace Matches

theorem record (like : m.Matches R m') (e e' : Event) : (m.record e).Matches R (m'.record e') :=
  ⟨like.scopes, like.input, like.output⟩

theorem write (like : m.Matches R m') (text : String) :
    (m.write text).Matches R (m'.write text) :=
  ⟨like.scopes, like.input, congrArg (· ++ text) like.output⟩

theorem push (like : m.Matches R m') : m.push.Matches R m'.push :=
  ⟨.cons .empty like.scopes, like.input, like.output⟩

theorem pop (like : m.Matches R m') : m.pop.Matches R m'.pop := by
  obtain ⟨scopes, input, output⟩ := like
  obtain ⟨st, _, _, _⟩ := m
  obtain ⟨st', _, _, _⟩ := m'
  cases scopes with
  | nil => exact ⟨.nil, input, output⟩
  | cons first rest =>
    cases rest with
    | nil => exact ⟨.cons first .nil, input, output⟩
    | cons second rest => exact ⟨.cons second rest, input, output⟩

end Matches

end Machine

inductive Matched (R : Block Node → Block Node → Prop) {α : Type} :
    EStateM.Result Stop Machine α → EStateM.Result Stop Machine α → Prop
  | ok {a : α} {m m' : Machine} : m.Matches R m' → Matched R (.ok a m) (.ok a m')
  | error {f : Stop} {m m' : Machine} : m.Matches R m' → Matched R (.error f m) (.error f m')

namespace Exec

variable {α β : Type} {x y : Exec α} {m m' : Machine}

theorem matched_bind {f g : α → Exec β} (first : Matched R (x m) (y m'))
    (rest : ∀ a m₁ m₂, x m = .ok a m₁ → y m' = .ok a m₂ → m₁.Matches R m₂ →
      Matched R (f a m₁) (g a m₂)) : Matched R ((x >>= f) m) ((y >>= g) m') := by
  simp only [Bind.bind, EStateM.bind]
  generalize result : x m = r at first
  generalize result' : y m' = r' at first
  cases first with
  | ok like => exact rest _ _ _ result result' like
  | error like => exact .error like

theorem matched_ensuring {finish : Machine → Machine}
    (ends : ∀ {m m' : Machine}, m.Matches R m' → (finish m).Matches R (finish m'))
    (inside : Matched R (x m) (y m')) :
    Matched R (ensuring finish x m) (ensuring finish y m') := by
  unfold ensuring
  generalize x m = r at inside
  generalize y m' = r' at inside
  cases inside with
  | ok like => exact .ok (ends like)
  | error like => exact .error (ends like)

theorem matched_onExhaustion (f : Stop) (inside : Matched R (x m) (y m')) :
    Matched R (onExhaustion f x m) (onExhaustion f y m') := by
  unfold onExhaustion
  generalize x m = r at inside
  generalize y m' = r' at inside
  cases inside with
  | ok like => exact .ok like
  | @error g _ _ like =>
    cases g with
    | report => exact .error like
    | breakdown b => cases b <;> exact .error like

def Matches (R : Block Node → Block Node → Prop) (x y : Exec α) : Prop :=
  ∀ m m' : Machine, m.Matches R m' → Matched R (x m) (y m')

namespace Matches

theorem pure (a : α) : Matches R (Pure.pure a : Exec α) (Pure.pure a) :=
  fun _ _ like => .ok like

theorem throw (f : Stop) : Matches R (MonadExcept.throw f : Exec α) (MonadExcept.throw f) :=
  fun _ _ like => .error like

theorem bind {f g : α → Exec β} (first : Matches R x y) (rest : ∀ a, Matches R (f a) (g a)) :
    Matches R (x >>= f) (y >>= g) :=
  fun m m' like => matched_bind (first m m' like) fun a _ _ _ _ => rest a _ _

theorem locating (p : Position) (same : Matches R x y) :
    Matches R (locating p x) (locating p y) := by
  intro m m' like
  have inside := same m m' like
  unfold Exec.locating
  generalize x m = r at inside
  generalize y m' = r' at inside
  cases inside with
  | ok like => exact .ok like
  | error like => exact .error like

theorem ofExcept (r : Except Stop α) : Matches R (ofExcept r) (ofExcept r) := by
  cases r with
  | ok a => exact .pure a
  | error f => exact .throw f

theorem forM {f g : α → Exec Unit} {as bs : List α}
    (each : List.Forall₂ (fun a b => Matches R (f a) (g b)) as bs) :
    Matches R (as.forM f) (bs.forM g) := by
  induction each with
  | nil => exact .pure ()
  | cons first _ ih => exact first.bind fun _ => ih

theorem optional {f g : α → Exec Unit} (each : ∀ a, Matches R (f a) (g a)) (a : Option α) :
    Matches R (a.forM f) (a.forM g) := by
  cases a with
  | none => exact .pure ()
  | some a => exact each a

theorem repeatWhile {test test' : Exec Bool} {body body' : Exec Unit} (tests : Matches R test test')
    (bodies : Matches R body body') (rounds : Nat) :
    Matches R (repeatWhile test body rounds) (repeatWhile test' body' rounds) := by
  induction rounds with
  | zero => exact .throw _
  | succ rounds ih =>
    refine tests.bind fun goesOn => ?_
    cases goesOn with
    | false => exact .pure ()
    | true => exact bodies.bind fun _ => ih

theorem onInnermost {change change' : Scope → Except Stop Scope}
    (conform : Scope.Conform R change change') :
    Matches R (onInnermost change) (onInnermost change') := by
  intro m m' like
  have scopes := like.scopes
  unfold Exec.onInnermost
  generalize m.scopes = st at scopes
  generalize m'.scopes = st' at scopes
  cases scopes with
  | nil => exact .error like
  | @cons s s' _ _ first rest =>
    have changed := conform s s' first
    dsimp only
    generalize change s = r at changed
    generalize change' s' = r' at changed
    cases changed with
    | error => exact .error like
    | ok first => exact .ok ⟨.cons first rest, like.input, like.output⟩

theorem result (n : Nat) (node : Node) : Matches R (result n node) (result n node) := by
  intro m m' like
  change Matched R (Exec.ofExcept (evaluate m.scopes n node) m)
    (Exec.ofExcept (evaluate m'.scopes n node) m')
  rw [(evaluate_eq_of_valueOf like.scopes.valueOf_eq n).1]
  exact Matches.ofExcept _ m m' like

theorem value (n : Nat) (node : Node) : Matches R (value n node) (value n node) :=
  (result n node).bind fun _ => .ofExcept _

theorem test (n : Nat) (c : Condition Node) : Matches R (test n c) (test n c) := by
  intro m m' like
  change Matched R (Exec.ofExcept (holds m.scopes n c) m) (Exec.ofExcept (holds m'.scopes n c) m')
  rw [(evaluate_eq_of_valueOf like.scopes.valueOf_eq n).2]
  exact Matches.ofExcept _ m m' like

theorem declare (n : Nat) (d : VariableDeclaration) : Matches R (declare n d) (declare n d) := by
  unfold Exec.declare
  refine .locating _ ?_
  split
  · exact (value n _).bind fun _ => .onInnermost (Scope.conform_declareVariable _ _ _)
  · exact .onInnermost (Scope.conform_declareVariable _ _ _)

theorem assign (name : String) (d : Datum) : Matches R (assign name d) (assign name d) := by
  intro m m' like
  have scopes := like.scopes
  rw [assign_run, assign_run]
  generalize m.scopes = st at scopes
  generalize m'.scopes = st' at scopes
  cases scopes with
  | nil => exact .error like
  | @cons s s' st st' first rest =>
    have assigned := Stack.Matches.assign (.cons first rest) name d
    dsimp only
    generalize Stack.assign name d (s :: st) = r at assigned
    generalize Stack.assign name d (s' :: st') = r' at assigned
    cases assigned with
    | error => exact .error like
    | ok scopes => exact .ok ⟨scopes, like.input, like.output⟩

theorem readDatum : Matches R readDatum readDatum := by
  intro m m' like
  rw [readDatum_run, readDatum_run, like.input]
  have taken : Machine.Matches R { m with input := m'.input.read.2 }
      { m' with input := m'.input.read.2 } := ⟨like.scopes, rfl, like.output⟩
  cases m'.input.read.1 with
  | line | ended => exact .ok taken
  | interrupted => exact .error taken

theorem print (v : Value) : Matches R (print v) (print v) := fun _ _ like => .ok (like.write _)

theorem exit (line : Int) : Matches R (exit line) (exit line) :=
  fun _ _ like => .ok ⟨.nil, like.input, like.output⟩

theorem activeScopes {f g : Stack → Exec β}
    (rest : ∀ st st' : Stack, st.Matches R st' → Matches R (f st) (g st')) :
    Matches R (activeScopes >>= f) (activeScopes >>= g) := by
  intro m m' like
  have scopes := like.scopes
  obtain ⟨st, _, _, _⟩ := m
  obtain ⟨st', _, _, _⟩ := m'
  cases scopes with
  | nil => exact .error like
  | cons first others => exact rest _ _ (.cons first others) _ _ like

theorem input (name : String) : Matches R (input name) (input name) := by
  refine .activeScopes fun st st' scopes => ?_
  rw [scopes.findVariable_eq name]
  split
  · exact .throw _
  · exact readDatum.bind fun _ => .assign name _

theorem call {run run' : Node → Exec Unit}
    (blocks : ∀ b b', R b b' → Matches R (block run true b) (block run' true b')) (name : String) :
    Matches R (call run name) (call run' name) := by
  refine .activeScopes fun st st' scopes => ?_
  have found := scopes.findProcedure name
  generalize st.findProcedure name = p at found
  generalize st'.findProcedure name = p' at found
  cases found with
  | none => exact .throw _
  | some related =>
    intro m m' like
    exact matched_onExhaustion _ (blocks _ _ related _ _ (like.record _ _))

end Matches

end Exec

inductive Node.Matches (R : Block Node → Block Node → Prop) : Node → Node → Prop
  | same {a : Node} : Matches R a a
  | procedure {pos : Position} {name : String} {b b' : Block Node} : R b b' →
      Matches R (.procedure pos name b) (.procedure pos name b')

open Exec

abbrev NodesMatch (R : Block Node → Block Node → Prop) (rounds n : Nat) : Prop :=
  ∀ a a' : Node, a.Matches R a' → Exec.Matches R (execute rounds n a) (execute rounds n a')

theorem execute_matches {rounds : Nat} (related : ∀ b, R b b)
    (blocks : ∀ {n b b'}, NodesMatch R rounds n → R b b' →
      Exec.Matches R (block (execute rounds n) true b) (block (execute rounds n) true b'))
    (n : Nat) : NodesMatch R rounds n := by
  induction n using Nat.strongRecOn with
  | ind n ih =>
    intro a a' same
    match n, ih with
    | 0, _ | 1, _ | 2, _ => exact .throw _
    | n + 3, ih =>
      have inner := ih n (by omega)
      have nested := fun a => ih (n + 1) (by omega) a a .same
      rw [execute.eq_def, execute.eq_def]
      cases same with
      | procedure body =>
        exact .locating _ (.onInnermost (Scope.conform_declareProcedure body _ _))
      | same =>
        cases a with
        | block b => exact .locating _ (blocks inner (related b))
        | declarations pos group =>
          exact .locating _ (.forM (List.forall₂_same.2 fun d _ => .declare (n + 1) d))
        | procedure pos name b =>
          exact .locating _ (.onInnermost (Scope.conform_declareProcedure (related b) _ _))
        | assignment pos target e =>
          exact .locating _ ((Matches.result (n + 1) e).bind fun _ => .assign _ _)
        | call pos target =>
          exact .locating _ (.call (fun b b' => blocks inner) target.name)
        | input pos target => exact .locating _ (.input target.name)
        | print pos e => exact .locating _ ((Matches.value (n + 1) e).bind fun _ => .print _)
        | sequence pos body =>
          exact .locating _ (.forM (List.forall₂_same.2 fun a _ => nested a))
        | conditional pos c body =>
          refine .locating _ ((Matches.test (n + 1) c).bind fun goesOn => ?_)
          cases goesOn with
          | false => exact .pure ()
          | true => exact .optional nested body
        | loop pos c body =>
          exact .locating _ (.repeatWhile (.test (n + 1) c) (.optional nested body) rounds)
        | exitMarker pos => exact .locating _ (.exit _)
        | _ => exact .throw _

end PlZero
