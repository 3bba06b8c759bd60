import PlZero.Proofs.TreeWriting

set_option autoImplicit false

namespace PlZero

namespace WellFormed

variable {Content : TokenKind → String → Prop}

theorem forall_mem_of_erase {P : Node → Prop} {as es : List Node}
    (closed : ∀ a ∈ as, ∀ e : Node, e.erase = a.erase → P e)
    (same : es.map Node.erase = as.map Node.erase) : ∀ e ∈ es, P e := by
  intro e mem
  have erased : e.erase ∈ as.map Node.erase := same ▸ List.mem_map_of_mem mem
  obtain ⟨a, mem', eq⟩ := List.mem_map.1 erased
  exact closed a mem' e eq.symm

theorem forall_mem_option_of_erase {P : Node → Prop} {body body' : Option Node}
    (closed : ∀ a ∈ body, ∀ e : Node, e.erase = a.erase → P e)
    (same : body'.map Node.erase = body.map Node.erase) : ∀ e ∈ body', P e := by
  rintro e rfl
  obtain ⟨a, mem, eq⟩ := Option.map_eq_some_iff.1 same.symm
  exact closed a mem e eq.symm

theorem Literal.of_erase {l l' : PlZero.Literal} (formed : Literal Content l)
    (same : l'.erase = l.erase) : Literal Content l' := by
  obtain ⟨pos, type, raw⟩ := l
  obtain ⟨pos', type', raw'⟩ := l'
  simp only [PlZero.Literal.erase, PlZero.Literal.mk.injEq, true_and] at same
  obtain ⟨rfl, rfl⟩ := same
  obtain ⟨typed, holds⟩ := formed
  exact ⟨typed, holds⟩

theorem Expression.of_erase {a : Node} (formed : Expression Content a) :
    ∀ e : Node, e.erase = a.erase → Expression Content e := by
  induction formed with
  | identifier named =>
    intro e same
    cases e <;> simp only [Node.erase, Node.identifier.injEq, reduceCtorEq, Identifier.erase,
      Identifier.mk.injEq, true_and] at same
    exact .identifier (same ▸ named)
  | literal formed =>
    intro e same
    cases e <;> simp only [Node.erase, Node.literal.injEq, reduceCtorEq] at same
    exact .literal (formed.of_erase same)
  | unary known _ ih =>
    intro e same
    cases e <;> simp only [Node.erase, Node.unary.injEq, reduceCtorEq, true_and] at same
    exact .unary (same.1 ▸ known) (ih _ same.2)
  | binary known _ _ left right =>
    intro e same
    cases e <;> simp only [Node.erase, Node.binary.injEq, reduceCtorEq, true_and] at same
    exact .binary (same.1 ▸ known) (left _ same.2.1) (right _ same.2.2)
  | typecast known _ ih =>
    intro e same
    cases e <;> simp only [Node.erase, Node.typecast.injEq, reduceCtorEq, true_and] at same
    exact .typecast (same.1 ▸ known) (ih _ same.2)

theorem Condition.of_erase {c c' : PlZero.Condition Node} (formed : Condition Content c)
    (same : eraseCondition c' = eraseCondition c) : Condition Content c' := by
  obtain ⟨pos, left, isOdd, operator, right⟩ := c'
  cases formed with
  | odd formed =>
    simp only [eraseCondition, eraseOptional_eq, Option.map_none, PlZero.Condition.mk.injEq,
      Option.map_eq_none_iff, true_and] at same
    obtain ⟨left', rfl, rfl, rfl⟩ := same
    exact .odd (formed.of_erase _ left')
  | comparison known formed formed' =>
    simp only [eraseCondition, eraseOptional_eq, Option.map_some, PlZero.Condition.mk.injEq,
      Option.map_eq_some_iff, true_and] at same
    obtain ⟨left', rfl, rfl, b, rfl, right'⟩ := same
    exact .comparison known (formed.of_erase _ left') (formed'.of_erase _ right')

theorem Statement.of_erase {a : Node} (formed : Statement Content a) :
    ∀ e : Node, e.erase = a.erase → Statement Content e := by
  induction formed with
  | assignment named formed =>
    intro e same
    cases e <;> simp only [Node.erase, Node.assignment.injEq, reduceCtorEq, Identifier.erase,
      Identifier.mk.injEq, true_and] at same
    exact .assignment (same.1 ▸ named) (formed.of_erase _ same.2)
  | call named =>
    intro e same
    cases e <;> simp only [Node.erase, Node.call.injEq, reduceCtorEq, Identifier.erase,
      Identifier.mk.injEq, true_and] at same
    exact .call (same ▸ named)
  | input named =>
    intro e same
    cases e <;> simp only [Node.erase, Node.input.injEq, reduceCtorEq, Identifier.erase,
      Identifier.mk.injEq, true_and] at same
    exact .input (same ▸ named)
  | print formed =>
    intro e same
    cases e <;> simp only [Node.erase, Node.print.injEq, reduceCtorEq, true_and] at same
    exact .print (formed.of_erase _ same)
  | sequence _ ih =>
    intro e same
    cases e <;> simp only [Node.erase, Node.sequence.injEq, reduceCtorEq, true_and, eraseAll_eq]
      at same
    exact .sequence (forall_mem_of_erase ih same)
  | conditional formed _ ih =>
    intro e same
    cases e <;> simp only [Node.erase, Node.conditional.injEq, reduceCtorEq, true_and,
      eraseOptional_eq] at same
    exact .conditional (formed.of_erase same.1) (forall_mem_option_of_erase ih same.2)
  | loop formed _ ih =>
    intro e same
    cases e <;> simp only [Node.erase, Node.loop.injEq, reduceCtorEq, true_and,
      eraseOptional_eq] at same
    exact .loop (formed.of_erase same.1) (forall_mem_option_of_erase ih same.2)

theorem Constant.of_erase {d d' : VariableDeclaration} (formed : Constant Content d)
    (same : d'.erase = d.erase) : Constant Content d' := by
  obtain ⟨pos, name, isConstant, value⟩ := d'
  cases formed with
  | mk named literal =>
    simp only [VariableDeclaration.erase, Option.map_some, VariableDeclaration.mk.injEq,
      Option.map_eq_some_iff, true_and] at same
    obtain ⟨rfl, rfl, l, rfl, literal'⟩ := same
    exact .mk named (literal.of_erase literal')

theorem Variable.of_erase {d d' : VariableDeclaration} (formed : Variable Content d)
    (same : d'.erase = d.erase) : Variable Content d' := by
  obtain ⟨pos, name, isConstant, value⟩ := d'
  cases formed with
  | mk named =>
    simp only [VariableDeclaration.erase, Option.map_none, VariableDeclaration.mk.injEq,
      Option.map_eq_none_iff, true_and] at same
    obtain ⟨rfl, rfl, rfl⟩ := same
    exact .mk named

theorem Group.of_erase {Item : VariableDeclaration → Prop} {as es : List Node}
    (item : ∀ {d d'}, Item d → d'.erase = d.erase → Item d') (formed : Group Item as)
    (same : es.map Node.erase = as.map Node.erase) : Group Item es := by
  cases formed with
  | absent =>
    rw [List.map_eq_nil_iff.1 same]
    exact .absent
  | @present pos group some items =>
    obtain ⟨e, rfl, inside⟩ := List.map_eq_singleton_iff.1 same
    cases e <;> simp only [Node.erase, Node.declarations.injEq, reduceCtorEq, true_and] at inside
    refine .present ?_ fun d' mem => ?_
    · rintro rfl
      exact some (List.map_eq_nil_iff.1 inside.symm)
    · have erased : d'.erase ∈ group.map VariableDeclaration.erase :=
        inside ▸ List.mem_map_of_mem mem
      obtain ⟨d, mem', eq⟩ := List.mem_map.1 erased
      exact item (items d mem') eq.symm

theorem body_of_erase {constants vars procedures es : List Node} {statement : Option Node}
    (hasConstants : Group (Constant Content) constants) (hasVars : Group (Variable Content) vars)
    (closed : ∀ a ∈ procedures, ∀ e : Node, e.erase = a.erase → Procedure Content e)
    (formed : ∀ node ∈ statement, Statement Content node)
    (same : es.map Node.erase =
      (constants ++ vars ++ procedures ++ statement.toList).map Node.erase) : Body Content es := by
  simp only [List.map_append] at same
  obtain ⟨_, last, rfl, declared, same₄⟩ := List.map_eq_append_iff.1 same
  obtain ⟨_, ps, rfl, groups, same₃⟩ := List.map_eq_append_iff.1 declared
  obtain ⟨cs, vs, rfl, same₁, same₂⟩ := List.map_eq_append_iff.1 groups
  obtain ⟨body, rfl, statement'⟩ : ∃ body : Option Node, last = body.toList ∧
      body.map Node.erase = statement.map Node.erase := by
    cases statement with
    | none =>
      rw [List.map_eq_nil_iff.1 same₄]
      exact ⟨none, rfl, rfl⟩
    | some node =>
      obtain ⟨e, rfl, eq⟩ := List.map_eq_singleton_iff.1 same₄
      exact ⟨some e, rfl, congrArg some eq⟩
  exact .mk (hasConstants.of_erase Constant.of_erase same₁)
    (hasVars.of_erase Variable.of_erase same₂)
    (forall_mem_of_erase closed same₃)
    (forall_mem_option_of_erase (fun node mem => (formed node mem).of_erase) statement')

theorem Procedure.of_erase {a : Node} (formed : Procedure Content a) :
    ∀ e : Node, e.erase = a.erase → Procedure Content e := by
  induction formed with
  | mk named hasConstants hasVars _ formed ih =>
    intro e same
    cases e <;> simp only [Node.erase, Node.procedure.injEq, reduceCtorEq, true_and] at same
    rename_i b
    obtain ⟨pos, body⟩ := b
    simp only [eraseBlock, eraseAll_eq, Block.mk.injEq, true_and] at same
    exact procedure_iff.2 ⟨same.1 ▸ named, body_of_erase hasConstants hasVars ih formed same.2⟩

theorem Program.of_erase {p t : PlZero.Program} (formed : Program Content p)
    (same : p.erase = t.erase) : Program Content t := by
  obtain ⟨pos, ⟨start, nodes⟩⟩ := t
  cases formed with
  | mk formed =>
    simp only [PlZero.Program.erase, eraseBlock, eraseAll_eq, PlZero.Program.mk.injEq,
      Block.mk.injEq, true_and, List.map_append] at same
    obtain ⟨es, last, rfl, inside, closing⟩ := List.map_eq_append_iff.1 same.symm
    obtain ⟨e, rfl, marker⟩ := List.map_eq_singleton_iff.1 closing
    cases e <;> simp only [Node.erase, reduceCtorEq] at marker
    cases formed with
    | mk hasConstants hasVars procedures formed =>
      exact .mk (body_of_erase hasConstants hasVars
        (fun node mem => (procedures node mem).of_erase) formed inside)

end WellFormed

end PlZero
