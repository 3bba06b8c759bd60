import PlZero.Proofs.ActionLaws
import PlZero.Proofs.ErasedReading
import PlZero.Session

set_option autoImplicit false

namespace PlZero

def Procedure.erase (p : Procedure) : Procedure := ⟨default, p.name, eraseBlock p.body⟩

def Scope.erase (s : Scope) : Scope :=
  { s with procedureTable := s.procedureTable.map fun (name, p) => (name, p.erase) }

def Event.erase : Event → Event
  | .tree p => .tree p.erase
  | .leave depth scope => .leave depth scope.erase
  | .exit _ => .exit 0
  | .enter depth => .enter depth
  | .call name => .call name

def Machine.erase (m : Machine) : Machine :=
  { m with scopes := m.scopes.map Scope.erase, log := m.log.map Event.erase }

section Values

variable {α β : Type} {x : Except Stop α}

def Erases (x y : Except Stop α) : Prop := y = x.mapError Failure.erase

abbrev Loose (x : Except Stop α) : Prop := Erases x x

theorem Erases.bind {x y : Except Stop α} {k l : α → Except Stop β} (first : Erases x y)
    (rest : ∀ a, Erases (k a) (l a)) : Erases (x >>= k) (y >>= l) := by
  rw [first]
  cases x with
  | ok a => exact rest a
  | error f => rfl

theorem Erases.map {x y : Except Stop α} (f : α → β) (same : Erases x y) :
    Erases (x.map f) (y.map f) := by
  rw [same]
  cases x <;> rfl

theorem loose_orStop (x : Except Breakdown α) : Loose (orStop x) := by
  cases x <;> rfl

theorem BinaryOperator.loose_apply (operator : BinaryOperator) (left right : Value) :
    Loose (operator.apply left right) := by
  have promoted (v : Value) : Loose v.toFloating := by cases v <;> rfl
  have integers (a b : Int) : Loose (operator.onIntegers a b) := by
    cases operator with
    | slash =>
      unfold onIntegers
      dsimp only
      split <;> rfl
    | _ => rfl
  have floats (a b : Number.Floating) : Loose (operator.onFloats a b) := by
    cases operator with
    | slash =>
      unfold onFloats
      dsimp only
      split <;> rfl
    | _ => rfl
  unfold apply
  split
  · exact (integers _ _).map _
  · cases operator <;> rfl
  · split
    · exact (promoted left).bind fun _ => (promoted right).bind fun _ =>
        (floats _ _).bind fun _ => rfl
    · cases operator <;> rfl

theorem Comparison.loose_apply (operator : Comparison) (left right : Value) :
    Loose (operator.apply left right) := by
  have promoted (v : Value) : Loose v.toFloating := by cases v <;> rfl
  have ordered (order : Option Ordering) : Loose (operator.holds order) := by
    cases operator <;> rfl
  unfold apply
  split
  · exact ordered _
  · cases operator <;> rfl
  · split
    · exact (promoted left).bind fun _ => (promoted right).bind fun _ => ordered _
    · rfl

theorem UnaryOperator.loose_apply (operator : UnaryOperator) (v : Value) :
    Loose (operator.apply v) := by
  cases operator <;> cases v <;> rfl

theorem Value.loose_isOdd (v : Value) : Loose v.isOdd := by
  cases v with
  | float x => cases x <;> rfl
  | _ => rfl

theorem Value.loose_cast (target : DataType) (v : Value) : Loose (Value.cast target v) := by
  cases target <;> cases v <;> try rfl
  · unfold Value.cast
    dsimp only
    split <;> rfl
  · exact (loose_orStop _).map _

theorem Value.loose_ofLiteral (type : DataType) (raw : String) :
    Loose (Value.ofLiteral type raw) := by
  cases type with
  | integer | float => exact (loose_orStop _).map _
  | _ => rfl

theorem Result.loose_toValue (r : Result) : Loose r.toValue := by cases r <;> rfl

theorem Result.loose_signed (operator : UnaryOperator) (r : Result) :
    Loose (Result.signed operator r) := by
  cases operator with
  | plus | other => rfl
  | minus => exact r.loose_toValue.bind fun v => (UnaryOperator.loose_apply _ v).bind fun _ => rfl

theorem Result.loose_cast (target : DataType) (r : Result) : Loose (Result.cast target r) := by
  cases r with
  | value v => exact (Value.loose_cast target v).map _
  | truth => cases target <;> rfl

end Values

section Evaluation

variable {α : Type}

@[simp] theorem Failure.erase_locate {ε : Type} (p : Position) (f : Failure ε) :
    f.erase.locate default = (f.locate p).erase := by
  cases f with
  | report r => exact congrArg Failure.ofCause (r.cause_locate _ _).symm
  | breakdown b => rfl

theorem Erases.placed {x y : Except Stop α} (p : Position) (same : Erases x y) :
    Erases (placed p x) (placed default y) := by
  rw [same]
  cases x with
  | ok a => rfl
  | error f => exact congrArg Except.error (f.erase_locate p)

theorem Failure.erase_locateDivision (p : Position) (f : Stop) :
    f.erase.locateDivision default = (f.locateDivision p).erase := by
  cases f with
  | breakdown b => rfl
  | report r =>
    simp only [Failure.erase, Failure.ofCause, Failure.locateDivision]
    split
    · rw [Report.cause_locate]
      rfl
    · rfl

theorem Erases.placedDivision {x y : Except Stop α} (p : Position) (same : Erases x y) :
    Erases (placedDivision p x) (placedDivision default y) := by
  rw [same]
  cases x with
  | ok a => rfl
  | error f => exact congrArg Except.error (f.erase_locateDivision p)

theorem Node.pos_erase (node : Node) : node.erase.pos = default := by
  cases node with
  | condition c =>
    obtain ⟨pos, left, isOdd, operator, right⟩ := c
    rw [Node.erase, eraseCondition]
    rfl
  | block b =>
    obtain ⟨pos, body⟩ := b
    rw [Node.erase, eraseBlock]
    rfl
  | _ => rw [Node.erase]; rfl

theorem Node.variety_erase (node : Node) : node.erase.variety = node.variety := by
  cases node <;> rw [Node.erase] <;> rfl

theorem Node.erases_refused (node : Node) (cause : String → Fault) :
    Erases (.error (.ofCauseAt node.pos (cause node.variety)) : Except Stop α)
      (.error (.ofCauseAt node.erase.pos (cause node.erase.variety))) := by
  rw [node.pos_erase, node.variety_erase]
  rfl

theorem Stack.findVariable_erase (st : Stack) (name : String) :
    Stack.findVariable (st.map Scope.erase) name = st.findVariable name := by
  unfold findVariable
  rw [List.findSome?_map]
  rfl

theorem Stack.erases_valueOf (st : Stack) (name : String) :
    Erases (st.valueOf name) (Stack.valueOf (st.map Scope.erase) name) := by
  have found := st.findVariable_erase name
  cases st with
  | nil => rfl
  | cons s st =>
    unfold valueOf
    simp only [List.map_cons] at found ⊢
    rw [found]
    cases Stack.findVariable (s :: st) name <;> rfl

theorem erases_evaluate (st : Stack) (n : Nat) :
    (∀ node, Erases (evaluate st n node) (evaluate (st.map Scope.erase) n node.erase)) ∧
      ∀ c, Erases (holds st n c) (holds (st.map Scope.erase) n (eraseCondition c)) := by
  induction n using Nat.strongRecOn with
  | ind n ih =>
    constructor
    · intro node
      match n with
      | 0 | 1 => rfl
      | n + 2 =>
        have inner := (ih n (by omega)).1
        have misplaced : Erases (α := Result) _ _ := node.erases_refused .unrecognizedExpression
        cases node with
        | literal l =>
          rw [Node.erase, evaluate, evaluate]
          exact .placed _ (.map _ (Value.loose_ofLiteral _ _))
        | identifier i =>
          rw [Node.erase, evaluate, evaluate]
          exact .placed _ (.map _ (st.erases_valueOf _))
        | unary pos operator a =>
          rw [Node.erase, evaluate, evaluate]
          exact .placed _ (.bind (inner a) fun r => Result.loose_signed operator r)
        | binary pos operator a b =>
          rw [Node.erase, evaluate, evaluate, b.pos_erase]
          refine .placed _ (.bind (inner a) fun l => .bind (inner b) fun r => ?_)
          refine .placedDivision _ (.bind l.loose_toValue fun v => .bind r.loose_toValue fun w => ?_)
          exact .bind (operator.loose_apply v w) fun _ => rfl
        | typecast pos target a =>
          rw [Node.erase, evaluate, evaluate]
          exact .placed _ (.bind (inner a) fun r => Result.loose_cast target r)
        | condition c =>
          rw [Node.erase, evaluate, evaluate]
          exact .map _ ((ih (n + 1) (by omega)).2 c)
        | _ =>
          simp only [Node.erase, evaluate] at misplaced ⊢
          exact misplaced
    · intro c
      match n with
      | 0 => rfl
      | n + 1 =>
        have inner := (ih n (by omega)).1
        obtain ⟨pos, left, isOdd, operator, right⟩ := c
        rw [eraseCondition, holds, holds]
        refine .placed _ (.bind (inner left) fun l => ?_)
        dsimp only
        split
        · exact .bind l.loose_toValue fun v => v.loose_isOdd
        · cases operator with
          | none => rfl
          | some operator =>
            cases right with
            | none => rfl
            | some right =>
              refine .bind (inner right) fun r => .bind l.loose_toValue fun v => ?_
              exact .bind r.loose_toValue fun w => operator.loose_apply v w

end Evaluation

section Scopes

theorem lookup_erase (name : String) (table : List (String × Procedure)) :
    (table.map fun (name, p) => (name, p.erase)).lookup name =
      (table.lookup name).map Procedure.erase := by
  induction table with
  | nil => rfl
  | cons entry table ih =>
    obtain ⟨key, p⟩ := entry
    simp only [List.map_cons, List.lookup_cons]
    cases name == key with
    | true => rfl
    | false => exact ih

theorem Scope.findProcedure_erase (s : Scope) (name : String) :
    s.erase.findProcedure name = (s.findProcedure name).map Procedure.erase :=
  lookup_erase name s.procedureTable

theorem Scope.declares_erase (s : Scope) (name : String) :
    s.erase.declares name = s.declares name := by
  unfold declares
  rw [findProcedure_erase, Option.isSome_map]
  rfl

theorem Stack.findProcedure_erase (st : Stack) (name : String) :
    Stack.findProcedure (st.map Scope.erase) name =
      (st.findProcedure name).map Procedure.erase := by
  induction st with
  | nil => rfl
  | cons s st ih =>
    simp only [Stack.findProcedure, List.map_cons, List.findSome?_cons] at ih ⊢
    rw [Scope.findProcedure_erase]
    cases s.findProcedure name with
    | some p => rfl
    | none => exact ih

def Scope.ErasesTo (change change' : Scope → Except Stop Scope) : Prop :=
  ∀ s, change' s.erase = ((change s).map Scope.erase).mapError Failure.erase

theorem Scope.erases_declareVariable (name : String) (d : Datum) (isConstant : Bool) :
    ErasesTo (·.declareVariable name d isConstant) (·.declareVariable name d isConstant) := by
  intro s
  simp only [declareVariable, declares_erase]
  split
  · rfl
  · cases d <;> rfl

theorem Scope.erases_declareProcedure (p : Procedure) :
    ErasesTo (·.declareProcedure p) (·.declareProcedure p.erase) := by
  intro s
  simp only [declareProcedure, declares_erase, show p.erase.name = p.name from rfl]
  split <;> rfl

theorem Stack.erases_assign (name : String) (d : Datum) (st : Stack) :
    Stack.assign name d (st.map Scope.erase) =
      ((Stack.assign name d st).map (List.map Scope.erase)).mapError Failure.erase := by
  induction st with
  | nil => rfl
  | cons s st ih =>
    rw [List.map_cons, assign, assign, show s.erase.findVariable name = s.findVariable name from rfl]
    cases s.findVariable name with
    | none =>
      dsimp only
      rw [ih]
      cases Stack.assign name d st <;> rfl
    | some v =>
      dsimp only
      unfold Variable.assign
      split
      · rfl
      · cases d <;> rfl

end Scopes

namespace Machine

theorem push_erase (m : Machine) : m.erase.push = m.push.erase := by
  simp only [push, erase, List.map_cons, List.length_map, Event.erase]
  rfl

theorem pop_erase (m : Machine) : m.erase.pop = m.pop.erase := by
  obtain ⟨st, input, output, log⟩ := m
  match st with
  | [] | [_] => rfl
  | s :: s' :: st =>
    simp only [pop, erase, List.map_cons, List.length_cons, List.length_map, Event.erase]

theorem unwind_erase (depth : Nat) (m : Machine) :
    m.erase.unwind depth = (m.unwind depth).erase := by
  simp only [unwind, erase, Stack.outermost, List.length_map, List.map_drop]

end Machine

namespace Exec

variable {α β : Type} {x : Exec α} {y : Exec β} {v : α → β}

abbrev Mirrored (v : α → β) (x : Exec α) (y : Exec β) : Prop := Mirrors Machine.erase v x y

theorem mirrored_locating (p : Position) (same : Mirrored v x y) :
    Mirrored v (locating p x) (locating default y) := by
  intro m
  unfold locating
  rw [same m]
  cases x m with
  | ok => rfl
  | error f => exact congrArg (EStateM.Result.error · _) (f.erase_locate p)

theorem mirrored_ensuring {finish : Machine → Machine}
    (ends : ∀ m, finish m.erase = (finish m).erase) (same : Mirrored v x y) :
    Mirrored v (ensuring finish x) (ensuring finish y) := by
  intro m
  unfold ensuring
  rw [same m]
  cases x m <;> simp only [eraseResult, ends]

theorem mirrored_onExhaustion {f f' : Stop} (fails : f' = f.erase) (same : Mirrored v x y) :
    Mirrored v (onExhaustion f x) (onExhaustion f' y) := by
  intro m
  unfold onExhaustion
  rw [same m, fails]
  cases x m with
  | ok => rfl
  | error g =>
    cases g with
    | report => rfl
    | breakdown b => cases b <;> rfl

theorem mirrored_ofExcept {r r' : Except Stop α} (same : Erases r r') :
    Mirrored id (ofExcept r) (ofExcept r') := by
  rw [same]
  cases r <;> exact fun _ => rfl

theorem mirrored_modify {change change' : Machine → Machine}
    (same : ∀ m, change' m.erase = (change m).erase) :
    Mirrored id (modify change : Exec Unit) (modify change') := by
  intro m
  exact congrArg (EStateM.Result.ok ()) (same m)

theorem mirrored_onInnermost {change change' : Scope → Except Stop Scope}
    (same : Scope.ErasesTo change change') :
    Mirrored id (onInnermost change) (onInnermost change') := by
  intro m
  obtain ⟨st, input, output, log⟩ := m
  cases st with
  | nil => rfl
  | cons s st =>
    simp only [onInnermost, Machine.erase, List.map_cons, same s]
    cases change s <;> rfl

theorem mirrored_forM {f : α → Exec Unit} {g : β → Exec Unit}
    (each : ∀ a, Mirrored id (f a) (g (v a))) (as : List α) :
    Mirrored id (as.forM f) ((as.map v).forM g) := by
  induction as with
  | nil => exact .pure rfl
  | cons a as ih => exact (each a).bind fun _ => ih

theorem mirrored_optional {f : α → Exec Unit} {g : β → Exec Unit}
    (each : ∀ a, Mirrored id (f a) (g (v a))) (a : Option α) :
    Mirrored id (a.forM f) ((a.map v).forM g) := by
  cases a with
  | none => exact .pure rfl
  | some a => exact each a

theorem mirrored_repeatWhile {test test' : Exec Bool} {body body' : Exec Unit}
    (tests : Mirrored id test test') (bodies : Mirrored id body body') (rounds : Nat) :
    Mirrored id (repeatWhile test body rounds) (repeatWhile test' body' rounds) := by
  induction rounds with
  | zero => exact .throw rfl
  | succ rounds ih =>
    refine tests.bind fun goesOn => .ite (fun _ => ?_) fun _ => .pure rfl
    exact bodies.bind fun _ => ih

theorem mirrored_activeScopes : Mirrored (List.map Scope.erase) activeScopes activeScopes := by
  intro m
  obtain ⟨st, input, output, log⟩ := m
  cases st <;> rfl

theorem mirrored_result (n : Nat) (node : Node) :
    Mirrored id (result n node) (result n node.erase) :=
  Mirrors.get.bind fun m => mirrored_ofExcept ((erases_evaluate m.scopes n).1 node)

theorem mirrored_value (n : Nat) (node : Node) : Mirrored id (value n node) (value n node.erase) :=
  (mirrored_result n node).bind fun r => mirrored_ofExcept r.loose_toValue

theorem mirrored_test (n : Nat) (c : Condition Node) :
    Mirrored id (test n c) (test n (eraseCondition c)) :=
  Mirrors.get.bind fun m => mirrored_ofExcept ((erases_evaluate m.scopes n).2 c)

theorem mirrored_block {run : Node → Exec Unit} (each : ∀ node, Mirrored id (run node) (run node.erase))
    (ownScope : Bool) (b : Block Node) :
    Mirrored id (block run ownScope b) (block run ownScope (eraseBlock b)) := by
  obtain ⟨pos, body⟩ := b
  have nodes : Mirrored id (body.forM run) ((eraseAll body).forM run) := by
    rw [eraseAll_eq]
    exact mirrored_forM each body
  refine Mirrors.get.bind fun m => ?_
  rw [show m.erase.scopes.isEmpty = m.scopes.isEmpty from List.isEmpty_map]
  refine .ite (fun _ => ?_) fun _ => nodes
  exact (mirrored_modify Machine.push_erase).bind fun _ => mirrored_ensuring Machine.pop_erase nodes

theorem mirrored_declare (n : Nat) (d : VariableDeclaration) :
    Mirrored id (declare n d) (declare n d.erase) := by
  obtain ⟨pos, name, isConstant, literal⟩ := d
  refine mirrored_locating pos ?_
  cases isConstant with
  | false => exact mirrored_onInnermost (Scope.erases_declareVariable name _ false)
  | true =>
    cases literal with
    | none => exact mirrored_onInnermost (Scope.erases_declareVariable name _ false)
    | some l =>
      have literal := mirrored_value n (.literal l)
      rw [Node.erase] at literal
      exact literal.bind fun v => mirrored_onInnermost (Scope.erases_declareVariable name _ true)

theorem mirrored_assign (name : String) (d : Datum) : Mirrored id (assign name d) (assign name d) := by
  refine mirrored_activeScopes.bind fun st => ?_
  have assigned : Mirrored (List.map Scope.erase) (ofExcept (Stack.assign name d st))
      (ofExcept (Stack.assign name d (st.map Scope.erase))) := by
    rw [Stack.erases_assign]
    cases Stack.assign name d st <;> exact fun _ => rfl
  exact assigned.bind fun st' => mirrored_modify fun _ => rfl

theorem mirrored_call {run : Node → Exec Unit} (each : ∀ node, Mirrored id (run node) (run node.erase))
    (name : String) : Mirrored id (call run name) (call run name) := by
  refine mirrored_activeScopes.bind fun st => ?_
  rw [Stack.findProcedure_erase]
  cases Stack.findProcedure st name with
  | none => exact .throw rfl
  | some p =>
    have recorded : Mirrored id (modify (·.record (.call name)) : Exec Unit)
        (modify (·.record (.call name))) := mirrored_modify fun _ => rfl
    refine recorded.bind fun _ => ?_
    exact mirrored_onExhaustion rfl (mirrored_block each true p.body)

theorem mirrored_readDatum : Mirrored id readDatum readDatum := by
  refine Mirrors.get.bind fun m => ?_
  rw [show m.erase.input = m.input from rfl]
  obtain ⟨reading, input⟩ := m.input.read
  have taken : Mirrored id (modify ({ · with input }) : Exec Unit) (modify ({ · with input })) :=
    mirrored_modify fun _ => rfl
  refine taken.bind fun _ => ?_
  cases reading with
  | line | ended => exact .pure rfl
  | interrupted => exact .throw rfl

theorem mirrored_input (name : String) : Mirrored id (input name) (input name) := by
  refine mirrored_activeScopes.bind fun st => ?_
  rw [Stack.findVariable_erase]
  cases Stack.findVariable st name with
  | none => exact .throw rfl
  | some v => exact mirrored_readDatum.bind fun d => mirrored_assign name d

end Exec

open Exec in
theorem execute_mirrored (rounds n : Nat) (node : Node) :
    Mirrored id (execute rounds n node) (execute rounds n node.erase) := by
  induction n using Nat.strongRecOn generalizing node with
  | ind n ih =>
    match n with
    | 0 | 1 | 2 => exact .throw rfl
    | n + 3 =>
      have inner := ih n (by omega)
      have nested := ih (n + 1) (by omega)
      have misplaced : Mirrors Machine.erase id _ _ :=
        mirrored_ofExcept (node.erases_refused (α := Unit) .unrecognizedStatement)
      cases node with
      | block b =>
        rw [Node.erase, execute, execute]
        have placed := mirrored_locating b.pos (mirrored_block inner true b)
        obtain ⟨pos, body⟩ := b
        rwa [eraseBlock] at placed ⊢
      | declarations pos group =>
        rw [Node.erase, execute, execute]
        exact mirrored_locating pos (mirrored_forM (mirrored_declare (n + 1)) group)
      | procedure pos name b =>
        rw [Node.erase, execute, execute]
        exact mirrored_locating pos
          (mirrored_onInnermost (Scope.erases_declareProcedure ⟨pos, name, b⟩))
      | assignment pos target a =>
        rw [Node.erase, execute, execute]
        exact mirrored_locating pos ((mirrored_result (n + 1) a).bind fun r => mirrored_assign _ _)
      | call pos target =>
        rw [Node.erase, execute, execute]
        exact mirrored_locating pos (mirrored_call inner _)
      | input pos target =>
        rw [Node.erase, execute, execute]
        exact mirrored_locating pos (mirrored_input _)
      | print pos a =>
        rw [Node.erase, execute, execute]
        exact mirrored_locating pos
          ((mirrored_value (n + 1) a).bind fun v => mirrored_modify fun _ => rfl)
      | sequence pos body =>
        rw [Node.erase, execute, execute, eraseAll_eq]
        exact mirrored_locating pos (mirrored_forM nested body)
      | conditional pos c body =>
        rw [Node.erase, execute, execute, eraseOptional_eq]
        refine mirrored_locating pos ((mirrored_test (n + 1) c).bind fun holds => ?_)
        exact .ite (fun _ => mirrored_optional nested body) fun _ => .pure rfl
      | loop pos c body =>
        rw [Node.erase, execute, execute, eraseOptional_eq]
        exact mirrored_locating pos
          (mirrored_repeatWhile (mirrored_test (n + 1) c) (mirrored_optional nested body) rounds)
      | exitMarker pos =>
        rw [Node.erase, execute, execute]
        exact mirrored_locating pos (mirrored_modify fun _ => rfl)
      | _ =>
        simp only [Node.erase, execute] at misplaced ⊢
        exact misplaced

section Documents

theorem depth_outline (variety : String) (pos : Position) (own : List (String × Json)) :
    (outline variety pos own).depth = Json.depthOfFields own + 1 := by
  simp [outline, Position.fields, Json.depth, Json.depthOfFields]

theorem VariableDeclaration.depth_erase (d : VariableDeclaration) :
    d.erase.outline.depth = d.outline.depth := by
  obtain ⟨pos, name, isConstant, literal⟩ := d
  cases literal with
  | none => rfl
  | some l =>
    simp only [erase, VariableDeclaration.outline, Literal.erase, Literal.outline, depth_outline,
      Json.depthOfFields, Option.map_some, Option.elim_some]

theorem depthOfItems_erase (group : List VariableDeclaration) :
    Json.depthOfItems ((group.map VariableDeclaration.erase).map VariableDeclaration.outline) =
      Json.depthOfItems (group.map VariableDeclaration.outline) := by
  induction group with
  | nil => rfl
  | cons d group ih => simp only [List.map_cons, Json.depthOfItems, ih, d.depth_erase]

mutual

theorem Node.depth_erase : (a : Node) → a.erase.outline.depth = a.outline.depth
  | .identifier _ | .literal _ | .call _ _ | .input _ _ | .exitMarker _ | .unknown _ _ => by
    simp only [Node.erase, Node.outline, Identifier.outline, Literal.outline, Identifier.erase,
      Literal.erase, depth_outline, Json.depthOfFields]
  | .declaration d => by rw [Node.erase, Node.outline, d.depth_erase, Node.outline]
  | .declarations _ group => by
    simp only [Node.erase, Node.outline, depth_outline, Json.depthOfFields, Json.depth,
      depthOfItems_erase]
  | .unary _ _ a | .typecast _ _ a | .print _ a => by
    simp only [Node.erase, Node.outline, depth_outline, Json.depthOfFields, a.depth_erase]
  | .assignment _ target a => by
    simp only [Node.erase, Node.outline, Identifier.outline, Identifier.erase, depth_outline,
      Json.depthOfFields, a.depth_erase]
  | .binary _ _ a b => by
    simp only [Node.erase, Node.outline, depth_outline, Json.depthOfFields, a.depth_erase,
      b.depth_erase]
  | .condition c => by rw [Node.erase, Node.outline, depthOfCondition_erase c, Node.outline]
  | .sequence _ body => by
    simp only [Node.erase, Node.outline, depth_outline, Json.depthOfFields, Json.depth,
      depthOfAll_erase body]
  | .conditional _ c body | .loop _ c body => by
    simp only [Node.erase, Node.outline, depth_outline, Json.depthOfFields,
      depthOfCondition_erase c, depthOfOptional_erase body]
  | .block b => by rw [Node.erase, Node.outline, depthOfBlock_erase b, Node.outline]
  | .procedure _ _ b | .program _ b => by
    simp only [Node.erase, Node.outline, depth_outline, Json.depthOfFields, depthOfBlock_erase b]

theorem depthOfCondition_erase : (c : Condition Node) →
    (conditionOutline (eraseCondition c)).depth = (conditionOutline c).depth
  | ⟨_, left, _, _, right⟩ => by
    simp only [eraseCondition, conditionOutline, depth_outline, Json.depthOfFields,
      left.depth_erase, depthOfOptional_erase right]

theorem depthOfBlock_erase : (b : Block Node) →
    (blockOutline (eraseBlock b)).depth = (blockOutline b).depth
  | ⟨_, body⟩ => by
    simp only [eraseBlock, blockOutline, depth_outline, Json.depthOfFields, Json.depth,
      depthOfAll_erase body]

theorem depthOfOptional_erase : (body : Option Node) →
    (optionalOutline (eraseOptional body)).depth = (optionalOutline body).depth
  | none => rfl
  | some node => node.depth_erase

theorem depthOfAll_erase : (nodes : List Node) →
    Json.depthOfItems (outlines (eraseAll nodes)) = Json.depthOfItems (outlines nodes)
  | [] => rfl
  | node :: nodes => by
    simp only [eraseAll, outlines, Json.depthOfItems, node.depth_erase, depthOfAll_erase nodes]

end

end Documents

namespace Program

open Exec

theorem mirrored_log (limits : Limits) (p : Program) :
    Mirrored id (p.log limits) (p.erase.log limits) := by
  have depth : p.erase.node.outline.depth = p.node.outline.depth := by
    have same := p.node.depth_erase
    rwa [Program.node, Node.erase] at same
  have recorded : Mirrored id (modify (·.record (.tree p)) : Exec Unit)
      (modify (·.record (.tree p.erase))) := mirrored_modify fun _ => rfl
  unfold log
  rw [depth]
  refine .ite (fun _ => ?_) fun _ => recorded
  exact Mirrors.bind (v := id) (.throw rfl) fun _ => recorded

theorem mirrored_run (limits : Limits) (debug : Bool) (p : Program) :
    Mirrored id (p.run limits debug) (p.erase.run limits debug) := by
  have running : Mirrored id
      (do
        let depth := (← get).scopes.length
        ensuring (Machine.unwind (if depth = 0 then 1 else depth)) <|
          onExhaustion (.ofCauseAt p.pos .recursionTooDeep) <|
            block (execute limits.rounds limits.nesting) false p.body)
      (do
        let depth := (← get).scopes.length
        ensuring (Machine.unwind (if depth = 0 then 1 else depth)) <|
          onExhaustion (.ofCauseAt p.erase.pos .recursionTooDeep) <|
            block (execute limits.rounds limits.nesting) false p.erase.body) := by
    refine Mirrors.get.bind fun m => ?_
    rw [show m.erase.scopes.length = m.scopes.length from List.length_map _]
    refine mirrored_ensuring (Machine.unwind_erase _) (mirrored_onExhaustion rfl ?_)
    exact mirrored_block (execute_mirrored _ _) false p.body
  cases debug with
  | false => exact running
  | true => exact (p.mirrored_log limits).bind fun _ => running

end Program

namespace Session

theorem erase_map {ε δ : Type} (f : Failure ε) (g : ε → δ) : (f.map g).erase = f.erase.map g := by
  cases f <;> rfl

theorem mirrors_runProgram (limits : Limits) (debug : Bool) (p : Program) :
    Mirrors Machine.erase id (runProgram limits debug p) (runProgram limits debug p.erase) := by
  intro m
  simp only [runProgram, exec, EStateM.adaptExcept, p.mirrored_run limits debug m]
  cases p.run limits debug m with
  | ok => rfl
  | error f => exact congrArg (EStateM.Result.error · _) (erase_map f _).symm

theorem mirrors_read (x : Except (Failure SyntaxFault) Program) :
    Mirrors Machine.erase Program.erase (read x)
      (read ((x.map Program.erase).mapError Failure.erase)) := by
  cases x with
  | ok p => exact .pure rfl
  | error f => exact .throw (erase_map f _).symm

theorem runSource_erase_eq {source source' : String}
    (same : ((parse source).map Program.erase).mapError Failure.erase =
      ((parse source').map Program.erase).mapError Failure.erase)
    (limits : Limits) (debug : Bool) (m : Machine) :
    eraseResult Machine.erase id (runSource limits debug source m) =
      eraseResult Machine.erase id (runSource limits debug source' m) := by
  have run := (mirrors_read (parse source)).bind (mirrors_runProgram limits debug) m
  have run' := (mirrors_read (parse source')).bind (mirrors_runProgram limits debug) m
  rw [same] at run
  exact run.symm.trans run'

end Session

/-- The layout of a text does not matter. Where two texts that scan have tokens of the same faces,
both are read as the same tree but for places, or are refused for the same cause; and running them
on fresh machines with the same input gives the same output, the same failure but for its place, and
the same scopes but for the places in the procedures. -/
theorem layout_does_not_matter {source source' : String} {e e' : Token}
    (last : (scan source).last = .ok e) (last' : (scan source').last = .ok e')
    (same : (scan source).tokens.map Token.face = (scan source').tokens.map Token.face) :
    ((parse source).map Program.erase).mapError Failure.erase =
      ((parse source').map Program.erase).mapError Failure.erase ∧
    ∀ (limits : Limits) (debug : Bool) (input : Input),
      let result := Session.runSource limits debug source { input }
      let result' := Session.runSource limits debug source' { input }
      (failureOf result).map Failure.erase = (failureOf result').map Failure.erase ∧
        (machineOf result).output = (machineOf result').output ∧
        (machineOf result).scopes.map Scope.erase = (machineOf result').scopes.map Scope.erase := by
  have read := parse_erase_eq (scan_erase_eq last last' same)
  refine ⟨read, fun limits debug input => ?_⟩
  have run := Session.runSource_erase_eq read limits debug { input }
  have failures (r : EStateM.Result (Failure Cause) Machine Unit) :
      failureOf (eraseResult Machine.erase id r) = (failureOf r).map Failure.erase := by
    cases r <;> rfl
  have machines (r : EStateM.Result (Failure Cause) Machine Unit) :
      machineOf (eraseResult Machine.erase id r) = (machineOf r).erase := by
    cases r <;> rfl
  have machine := congrArg machineOf run
  rw [machines, machines] at machine
  have output := congrArg Machine.output machine
  have scopes := congrArg Machine.scopes machine
  refine ⟨?_, output, scopes⟩
  rw [← failures, ← failures, run]

theorem layout_does_not_matter_radix :
    let source := "VAR x; BEGIN\n  x := 0x10; ! 'a'; ! x / 0 END."
    let source' := "var x; begin x := 020; ! \"a\"; ! x/0 end ."
    (∃ e, (scan source).last = .ok e) ∧ (∃ e', (scan source').last = .ok e') ∧
      (scan source).tokens.map Token.face = (scan source').tokens.map Token.face ∧
      ∀ (limits : Limits) (debug : Bool) (input : Input),
        (machineOf (Session.runSource limits debug source { input })).output =
          (machineOf (Session.runSource limits debug source' { input })).output := by
  intro source source'
  have scans : (scan source).last.isOk = true := by decide +kernel
  have scans' : (scan source').last.isOk = true := by decide +kernel
  have same : (scan source).tokens.map Token.face = (scan source').tokens.map Token.face := by
    decide +kernel
  cases last : (scan source).last with
  | error f =>
    rw [last] at scans
    cases scans
  | ok e =>
    cases last' : (scan source').last with
    | error f =>
      rw [last'] at scans'
      cases scans'
    | ok e' =>
      have alike := (layout_does_not_matter last last' same).2
      exact ⟨⟨e, rfl⟩, ⟨e', rfl⟩, same, fun limits debug input => (alike limits debug input).2.1⟩

end PlZero
