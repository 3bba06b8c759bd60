import PlZero.Proofs.TreeParts

set_option autoImplicit false

namespace PlZero

open Number WellFormed

/-- A failure that is told from its place: a fault inside that is reported where a node stands, a
fault that arose here and has no place yet, or a breakdown. -/
inductive Traced (Inside : Fault → Node → Prop) (Here : Fault → Prop) : Stop → Prop
  | inside {cause : Fault} {blamed : Node} : 0 < blamed.pos.line → Inside cause blamed →
      Traced Inside Here (.ofCauseAt blamed.pos cause)
  | here {cause : Fault} : Here cause → Traced Inside Here (.ofCause cause)
  | broken {b : Breakdown} : Traced Inside Here (.breakdown b)

theorem Failure.locate_ofCauseAt {p : Position} (line : 0 < p.line) (q : Position) (cause : Fault) :
    (Failure.ofCauseAt p cause).locate q = .ofCauseAt p cause :=
  congrArg Failure.report (Report.locate_of_hasPosition (decide_eq_true line) _ _)

section Traces

variable {Inside Inside' : Fault → Node → Prop} {Here Here' : Fault → Prop} {f : Stop}

theorem Traced.imp (traced : Traced Inside Here f)
    (inner : ∀ cause blamed, Inside cause blamed → Inside' cause blamed)
    (outer : ∀ cause, Here cause → Here' cause) : Traced Inside' Here' f := by
  cases traced with
  | inside line arose => exact .inside line (inner _ _ arose)
  | here arose => exact .here (outer _ arose)
  | broken => exact .broken

-- Only what arose here is placed here.
theorem Traced.locate {node : Node} (traced : Traced Inside Here f) (line : 0 < node.pos.line)
    (own : ∀ cause, Here cause → Inside cause node) :
    Traced Inside Here' (f.locate node.pos) := by
  cases traced with
  | inside line' arose =>
    rw [Failure.locate_ofCauseAt line']
    exact .inside line' arose
  | here arose => exact .inside line (own _ arose)
  | broken => exact .broken

end Traces

abbrev Unplaced {α : Type} (Here : Fault → Prop) (x : Except Stop α) : Prop :=
  Gives (fun _ => True) (Traced (fun _ _ => False) Here) x

theorem Unplaced.fault {α : Type} {Here : Fault → Prop} {cause : Fault} (here : Here cause) :
    Unplaced Here (fail cause : Except Stop α) := .error (.here here)

def Fault.Misfit (cause : Fault) : Prop := cause.kind = .valueType

def Fault.Arithmetic (cause : Fault) : Prop := cause = .divideByZero ∨ cause.Misfit

theorem BinaryOperator.unplaced_onIntegers {operator : BinaryOperator}
    (known : operator.kind ≠ .invalid) (a b : Int) :
    Unplaced Fault.Arithmetic (operator.onIntegers a b) := by
  cases operator with
  | plus | minus | star => exact .ok trivial
  | slash =>
    change Unplaced _ (if b = 0 then fail .divideByZero else .ok (Int.tdiv a b))
    split
    · exact .fault (.inl rfl)
    · exact .ok trivial
  | other => exact absurd rfl known

theorem BinaryOperator.unplaced_onFloats {operator : BinaryOperator}
    (known : operator.kind ≠ .invalid) (x y : Floating) :
    Unplaced Fault.Arithmetic (operator.onFloats x y) := by
  cases operator with
  | plus | minus | star => exact .ok trivial
  | slash =>
    change Unplaced _ (if y.isZero then fail .divideByZero else .ok (x.div .double y))
    split
    · exact .fault (.inl rfl)
    · exact .ok trivial
  | other => exact absurd rfl known

theorem Value.unplaced_toFloating {Here : Fault → Prop}
    (misfit : ∀ cause, Fault.Misfit cause → Here cause) (v : Value) :
    Unplaced Here v.toFloating := by
  cases v with
  | integer | float => exact .ok trivial
  | invalid | text => exact .fault (misfit _ rfl)

theorem BinaryOperator.unplaced_apply {operator : BinaryOperator} (known : operator.kind ≠ .invalid)
    (left right : Value) : Unplaced Fault.Arithmetic (operator.apply left right) := by
  have misfit (cause : Fault) (h : cause.Misfit) : cause.Arithmetic := .inr h
  unfold apply
  split
  · exact (unplaced_onIntegers known _ _).map fun _ => id
  · cases operator with
    | plus => exact .ok trivial
    | minus | star | slash => exact .fault (.inr rfl)
    | other => exact absurd rfl known
  · split
    · refine (left.unplaced_toFloating misfit).bind fun _ _ _ =>
        (right.unplaced_toFloating misfit).bind fun _ _ _ => ?_
      exact (unplaced_onFloats known _ _).bind fun _ _ _ => .ok trivial
    · cases operator with
      | plus | minus | star | slash => exact .fault (.inr rfl)
      | other => exact absurd rfl known

theorem UnaryOperator.unplaced_apply {operator : UnaryOperator} (known : operator.kind ≠ .invalid)
    (v : Value) : Unplaced Fault.Misfit (operator.apply v) := by
  cases operator with
  | plus => exact .ok trivial
  | minus =>
    cases v with
    | integer | float => exact .ok trivial
    | invalid | text => exact .fault rfl
  | other => exact absurd rfl known

theorem Comparison.unplaced_holds {operator : Comparison} (known : operator.kind ≠ .invalid)
    (order : Option Ordering) : Unplaced Fault.Misfit (operator.holds order) := by
  cases operator with
  | other => exact absurd rfl known
  | _ => exact .ok trivial

theorem Comparison.unplaced_apply {operator : Comparison} (known : operator.kind ≠ .invalid)
    (left right : Value) : Unplaced Fault.Misfit (operator.apply left right) := by
  unfold apply
  split
  · exact unplaced_holds known _
  · cases operator with
    | equal | unequal => exact .ok trivial
    | other => exact absurd rfl known
    | _ => exact .fault rfl
  · split
    · exact (left.unplaced_toFloating fun _ => id).bind fun _ _ _ =>
        (right.unplaced_toFloating fun _ => id).bind fun _ _ _ => unplaced_holds known _
    · exact .fault rfl

theorem Value.unplaced_isOdd (v : Value) : Unplaced Fault.Misfit v.isOdd := by
  cases v with
  | integer => exact .ok trivial
  | float x =>
    cases x with
    | finite | nan => exact .ok trivial
    | infinite => exact .error .broken
  | invalid | text => exact .fault rfl

theorem Value.unplaced_cast {target : DataType} (known : target ≠ .invalid) (v : Value) :
    Unplaced Fault.Misfit (Value.cast target v) := by
  cases target with
  | invalid => exact absurd rfl known
  | string => exact .ok trivial
  | float =>
    cases v with
    | invalid => exact .fault rfl
    | _ => exact .ok trivial
  | integer =>
    cases v with
    | invalid => exact .fault rfl
    | integer => exact .ok trivial
    | float x =>
      unfold Value.cast
      dsimp only
      split
      · exact .ok trivial
      · exact .fault rfl
    | text s =>
      change Unplaced _ ((orStop (integerOfText s)).map ofInt)
      cases integerOfText s with
      | ok => exact .ok trivial
      | error => exact .error .broken

/-- Evaluating a node gives rise to a fault, for which a node is to blame: the fault is one of the
node's own, or one of a part that evaluation comes to. A condition counts as a node here. -/
inductive Faults (st : Stack) : Nat → Node → Fault → Node → Prop
  | name {n : Nat} {i : Identifier} : st ≠ [] → st.findVariable i.name = none →
      Faults st (n + 2) (.identifier i) (.nameNotFound i.name) (.identifier i)
  | sign {n : Nat} {pos : Position} {operator : UnaryOperator} {a : Node} {v : Value}
      {cause : Fault} : evaluate st n a = .ok (.value v) → operator.apply v = fail cause →
      cause.Misfit → Faults st (n + 2) (.unary pos operator a) cause (.unary pos operator a)
  | operands {n : Nat} {pos : Position} {operator : BinaryOperator} {a b : Node} {v w : Value}
      {cause : Fault} : evaluate st n a = .ok (.value v) → evaluate st n b = .ok (.value w) →
      operator.apply v w = fail cause → cause.Misfit →
      Faults st (n + 2) (.binary pos operator a b) cause (.binary pos operator a b)
  | division {n : Nat} {pos : Position} {operator : BinaryOperator} {a b : Node} {v w : Value} :
      evaluate st n a = .ok (.value v) → evaluate st n b = .ok (.value w) →
      operator.apply v w = fail .divideByZero →
      Faults st (n + 2) (.binary pos operator a b) .divideByZero b
  | cast {n : Nat} {pos : Position} {target : DataType} {a : Node} {v : Value} {cause : Fault} :
      evaluate st n a = .ok (.value v) → Value.cast target v = fail cause → cause.Misfit →
      Faults st (n + 2) (.typecast pos target a) cause (.typecast pos target a)
  | odd {n : Nat} {c : PlZero.Condition Node} {v : Value} {cause : Fault} : c.isOdd = true →
      evaluate st n c.left = .ok (.value v) → v.isOdd = fail cause → cause.Misfit →
      Faults st (n + 2) (.condition c) cause (.condition c)
  | compared {n : Nat} {c : PlZero.Condition Node} {operator : Comparison} {b : Node}
      {v w : Value} {cause : Fault} : c.isOdd = false → c.operator = some operator →
      c.right = some b → evaluate st n c.left = .ok (.value v) →
      evaluate st n b = .ok (.value w) → operator.apply v w = fail cause → cause.Misfit →
      Faults st (n + 2) (.condition c) cause (.condition c)
  | inOperand {n : Nat} {pos : Position} {operator : UnaryOperator} {a blamed : Node}
      {cause : Fault} : Faults st n a cause blamed →
      Faults st (n + 2) (.unary pos operator a) cause blamed
  | inLeft {n : Nat} {pos : Position} {operator : BinaryOperator} {a b blamed : Node}
      {cause : Fault} : Faults st n a cause blamed →
      Faults st (n + 2) (.binary pos operator a b) cause blamed
  | inRight {n : Nat} {pos : Position} {operator : BinaryOperator} {a b blamed : Node}
      {cause : Fault} {r : Result} : evaluate st n a = .ok r → Faults st n b cause blamed →
      Faults st (n + 2) (.binary pos operator a b) cause blamed
  | inCast {n : Nat} {pos : Position} {target : DataType} {a blamed : Node} {cause : Fault} :
      Faults st n a cause blamed → Faults st (n + 2) (.typecast pos target a) cause blamed
  | inTest {n : Nat} {c : PlZero.Condition Node} {blamed : Node} {cause : Fault} :
      Faults st n c.left cause blamed → Faults st (n + 2) (.condition c) cause blamed
  | inCompared {n : Nat} {c : PlZero.Condition Node} {operator : Comparison} {b blamed : Node}
      {cause : Fault} {r : Result} : c.isOdd = false → c.operator = some operator →
      c.right = some b → evaluate st n c.left = .ok r → Faults st n b cause blamed →
      Faults st (n + 2) (.condition c) cause blamed

theorem Faults.within {st : Stack} {n : Nat} {e blamed : Node} {cause : Fault}
    (faults : Faults st n e cause blamed) : blamed.Within e := by
  induction faults with
  | division => exact .of_mem (List.mem_cons_of_mem _ (List.mem_singleton.2 rfl))
  | inOperand _ ih | inCast _ ih => exact .inside (List.mem_singleton.2 rfl) ih
  | inLeft _ ih | inTest _ ih => exact .inside List.mem_cons_self ih
  | inRight _ _ ih => exact .inside (List.mem_cons_of_mem _ (List.mem_singleton.2 rfl)) ih
  | inCompared _ _ right _ _ ih =>
    refine .inside (List.mem_cons_of_mem _ ?_) ih
    simp [right]
  | _ => exact .refl

theorem placed_ofCauseAt {α : Type} {p : Position} (line : 0 < p.line) (q : Position)
    (cause : Fault) :
    placed q (.error (.ofCauseAt p cause) : Except Stop α) = .error (.ofCauseAt p cause) :=
  congrArg Except.error (Failure.locate_ofCauseAt line q cause)

theorem placedDivision_of_misfit {α : Type} {cause : Fault} (misfit : cause.Misfit)
    (p : Position) : placedDivision p (fail cause : Except Stop α) = fail cause := by
  have other : cause ≠ .divideByZero := by
    rintro rfl
    cases misfit
  exact congrArg (Except.error ∘ Failure.report) (if_neg other)

theorem Stack.valueOf_of_absent {st : Stack} {name : String} (some : st ≠ [])
    (absent : st.findVariable name = none) : st.valueOf name = fail (.nameNotFound name) := by
  cases st with
  | nil => exact absurd rfl some
  | cons s st =>
    unfold valueOf
    dsimp only
    rw [absent]

theorem holds_comparison (st : Stack) (n : Nat) (pos : Position) (operator : Comparison)
    (a b : Node) :
    holds st (n + 1) ⟨pos, a, false, some operator, some b⟩ = placed pos (do
      let left ← evaluate st n a
      let right ← evaluate st n b
      operator.apply (← left.toValue) (← right.toValue)) := by
  rw [holds]
  rfl

theorem Faults.evaluate_eq {st : Stack} {n : Nat} {e blamed : Node} {cause : Fault}
    (faults : Faults st n e cause blamed) (line : 0 < blamed.pos.line) :
    evaluate st n e = .error (.ofCauseAt blamed.pos cause) := by
  induction faults with
  | name some absent =>
    rw [evaluate, Stack.valueOf_of_absent some absent]
    rfl
  | @sign n pos operator a v cause evaluated failed _ =>
    rw [evaluate, evaluated]
    change placed pos (Result.signed operator (.value v)) = _
    rw [Result.signed_value, failed]
    rfl
  | @operands n pos operator a b v w cause left right failed misfit =>
    rw [evaluate, left, right]
    change placed pos (placedDivision b.pos ((operator.apply v w).map Result.value)) = _
    rw [failed]
    change placed pos (placedDivision b.pos (fail cause)) = _
    rw [placedDivision_of_misfit misfit]
    rfl
  | @division n pos operator a b v w left right failed =>
    rw [evaluate, left, right]
    change placed pos (placedDivision b.pos ((operator.apply v w).map Result.value)) = _
    rw [failed]
    exact placed_ofCauseAt line pos .divideByZero
  | @cast n pos target a v cause evaluated failed _ =>
    rw [evaluate, evaluated]
    change placed pos ((Value.cast target v).map Result.value) = _
    rw [failed]
    rfl
  | @odd n c v cause isOdd evaluated failed _ =>
    obtain ⟨pos, left, _, _, _⟩ := c
    cases isOdd
    rw [evaluate, holds, evaluated]
    change (placed pos v.isOdd).map Result.truth = _
    rw [failed]
    rfl
  | @compared n c operator b v w cause isOdd known right evaluated evaluated' failed _ =>
    obtain ⟨pos, left, _, _, _⟩ := c
    cases isOdd
    cases known
    cases right
    rw [evaluate, holds_comparison, evaluated, evaluated']
    change (placed pos (operator.apply v w)).map Result.truth = _
    rw [failed]
    rfl
  | @inOperand n pos operator a blamed cause _ ih =>
    rw [evaluate, ih line]
    exact placed_ofCauseAt line pos cause
  | @inLeft n pos operator a b blamed cause _ ih =>
    rw [evaluate, ih line]
    exact placed_ofCauseAt line pos cause
  | @inRight n pos operator a b blamed cause r evaluated _ ih =>
    rw [evaluate, evaluated, ih line]
    exact placed_ofCauseAt line pos cause
  | @inCast n pos target a blamed cause _ ih =>
    rw [evaluate, ih line]
    exact placed_ofCauseAt line pos cause
  | @inTest n c blamed cause _ ih =>
    rw [evaluate, holds, ih line]
    exact congrArg (Except.map Result.truth) (placed_ofCauseAt line c.pos cause)
  | @inCompared n c operator b blamed cause r isOdd known right evaluated _ ih =>
    obtain ⟨pos, left, _, _, _⟩ := c
    cases isOdd
    cases known
    cases right
    rw [evaluate, holds_comparison, evaluated, ih line]
    exact congrArg (Except.map Result.truth) (placed_ofCauseAt line pos cause)

abbrev Node.OnLines (a : Node) : Prop := a.Placed fun pos => 0 < pos.line

section Expressions

variable {st : Stack} {n : Nat} (some : st ≠ [])

abbrev Explains (st : Stack) (n : Nat) (e : Node) : Stop → Prop :=
  Traced (Faults st n e) fun _ => False

abbrev Awaits (st : Stack) (n : Nat) (e : Node) : Stop → Prop :=
  Traced (Faults st n e) fun cause => Faults st n e cause e

theorem Gives.at_node {α : Type} {Good : α → Prop} {x : Except Stop α} {e : Node}
    (gives : Gives Good (Awaits st n e) x) (lines : e.OnLines) :
    Gives Good (Explains st n e) (PlZero.placed e.pos x) :=
  gives.placed fun _ traced =>
    traced.locate (lines e .refl) fun _ faults => faults

theorem Gives.of_part {α : Type} {Good : α → Prop} {x : Except Stop α} {n' : Nat} {e e' : Node}
    (gives : Gives Good (Explains st n e) x)
    (comes : ∀ {cause blamed}, Faults st n e cause blamed → Faults st n' e' cause blamed) :
    Gives Good (Awaits st n' e') x :=
  gives.because fun _ traced => traced.imp (fun _ _ => comes) fun _ => False.elim

theorem Unplaced.own {α : Type} {Here Here' : Fault → Prop} {Inside : Fault → Node → Prop}
    {x : Except Stop α} (unplaced : Unplaced Here x)
    (own : ∀ cause, x = fail cause → Here cause → Here' cause) :
    Gives (fun _ => True) (Traced Inside Here') x := by
  cases unplaced with
  | ok good => exact .ok good
  | error traced =>
    cases traced with
    | inside _ none => exact none.elim
    | here arose => exact .error (.here (own _ rfl arose))
    | broken => exact .error .broken

-- A division by zero is placed at the right operand before the node itself can take it.
theorem gives_division {pos : Position} {operator : BinaryOperator} {a b : Node} {v w : Value}
    (known : operator.kind ≠ .invalid) (line : 0 < b.pos.line)
    (left : evaluate st n a = .ok (.value v)) (right : evaluate st n b = .ok (.value w)) :
    Gives (fun r => ∃ v, r = .value v) (Awaits st (n + 2) (.binary pos operator a b))
      (placedDivision b.pos ((operator.apply v w).map Result.value)) := by
  have unplaced := BinaryOperator.unplaced_apply known v w
  generalize applied : operator.apply v w = x at unplaced
  cases unplaced with
  | @ok u _ => exact .ok ⟨u, rfl⟩
  | error traced =>
    cases traced with
    | inside _ none => exact none.elim
    | broken => exact .error .broken
    | @here cause arose =>
      rcases arose with rfl | misfit
      · exact .error (.inside line (.division left right applied))
      · change Gives _ _ (placedDivision b.pos (fail cause))
        rw [placedDivision_of_misfit misfit]
        exact .error (.here (.operands left right applied misfit))

include some in
theorem Stack.unplaced_valueOf (name : String) :
    Unplaced (fun cause => st.findVariable name = none ∧ cause = .nameNotFound name)
      (st.valueOf name) := by
  cases st with
  | nil => exact absurd rfl some
  | cons s st =>
    unfold valueOf
    dsimp only
    split
    · exact .ok trivial
    · next absent => exact .fault ⟨absent, rfl⟩

include some in
theorem explained_evaluate {e : Node} (formed : Expression Lexicon e) (lines : e.OnLines)
    (n : Nat) :
    Gives (fun r => ∃ v, r = .value v) (Explains st n e) (evaluate st n e) := by
  have valued (v : Value) (_ : True) : ∃ v', Result.value v = .value v' := ⟨v, rfl⟩
  -- Operands have placed what they fail with, so a node places only what its own operation does.
  induction formed generalizing n with
  | @identifier i _ =>
    match n with
    | 0 | 1 => exact .error .broken
    | n + 2 =>
      rw [evaluate]
      have unplaced := Stack.unplaced_valueOf some i.name
      refine Gives.at_node (e := .identifier i) (.map (unplaced.own ?_) valued) lines
      rintro _ _ ⟨absent, rfl⟩
      exact .name some absent
  | @literal l formed =>
    match n with
    | 0 | 1 => exact .error .broken
    | n + 2 =>
      rw [evaluate]
      rcases Value.ofLiteral_of_lexicon formed with ⟨v, value⟩ | ⟨_, _, value⟩
      · rw [value]
        exact .ok (valued v trivial)
      · rw [value]
        exact .error .broken
  | @unary pos operator a known _ ih =>
    match n with
    | 0 | 1 => exact .error .broken
    | n + 2 =>
      rw [evaluate]
      have inside : a.OnLines := lines.child (List.mem_singleton.2 rfl)
      refine Gives.at_node (e := .unary pos operator a) ?_ lines
      refine .bind ((ih inside n).of_part .inOperand) ?_
      rintro _ evaluated ⟨v, rfl⟩
      rw [Result.signed_value]
      refine .map ((UnaryOperator.unplaced_apply known v).own ?_) valued
      exact fun _ => .sign evaluated
  | @binary pos operator a b known _ _ left right =>
    match n with
    | 0 | 1 => exact .error .broken
    | n + 2 =>
      rw [evaluate]
      have inside : a.OnLines := lines.child List.mem_cons_self
      have inside' : b.OnLines := lines.child (List.mem_cons_of_mem _ (List.mem_singleton.2 rfl))
      refine Gives.at_node (e := .binary pos operator a b) ?_ lines
      refine .bind ((left inside n).of_part .inLeft) ?_
      rintro _ evaluated ⟨v, rfl⟩
      refine .bind ((right inside' n).of_part (.inRight evaluated)) ?_
      rintro _ evaluated' ⟨w, rfl⟩
      exact gives_division known (inside' b .refl) evaluated evaluated'
  | @typecast pos target a known _ ih =>
    match n with
    | 0 | 1 => exact .error .broken
    | n + 2 =>
      rw [evaluate]
      have inside : a.OnLines := lines.child (List.mem_singleton.2 rfl)
      refine Gives.at_node (e := .typecast pos target a) ?_ lines
      refine .bind ((ih inside n).of_part .inCast) ?_
      rintro _ evaluated ⟨v, rfl⟩
      refine .map ((Value.unplaced_cast known v).own ?_) valued
      exact fun _ => .cast evaluated

include some in
theorem explained_holds {c : PlZero.Condition Node} (formed : WellFormed.Condition Lexicon c)
    (lines : (Node.condition c).OnLines) (n : Nat) :
    Gives (fun _ => True) (Explains st (n + 1) (.condition c)) (holds st n c) := by
  have inside : c.left.OnLines := lines.child List.mem_cons_self
  cases n with
  | zero => exact .error .broken
  | succ n =>
    rw [holds]
    refine Gives.at_node (e := .condition c) ?_ lines
    cases formed with
    | odd formed =>
      refine .bind ((explained_evaluate some formed inside n).of_part fun faults =>
        .inTest faults) ?_
      rintro _ evaluated ⟨v, rfl⟩
      refine v.unplaced_isOdd.own ?_
      exact fun _ => .odd rfl evaluated
    | @comparison _ _ _ b known formed formed' =>
      have inside' : b.OnLines := lines.child (List.mem_cons_of_mem _ (List.mem_singleton.2 rfl))
      refine .bind ((explained_evaluate some formed inside n).of_part fun faults =>
        .inTest faults) ?_
      rintro _ evaluated ⟨v, rfl⟩
      refine .bind ((explained_evaluate some formed' inside' n).of_part
        (.inCompared rfl rfl rfl evaluated)) ?_
      rintro _ evaluated' ⟨w, rfl⟩
      refine (Comparison.unplaced_apply known v w).own ?_
      exact fun _ => .compared rfl rfl rfl evaluated evaluated'

end Expressions

end PlZero
