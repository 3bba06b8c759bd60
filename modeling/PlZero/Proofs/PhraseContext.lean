import PlZero.Proofs.TreeWriting

set_option autoImplicit false

namespace PlZero

namespace Phrase

variable {n m : Nat} {u : List Token} {next other : Token}

section Nesting

def FactorLifts (n : Nat) : Prop := ∀ {m u a}, n ≤ m → IsFactor n u a → IsFactor m u a

def UnaryLifts (n : Nat) : Prop := ∀ {m u a}, n ≤ m → IsUnary n u a → IsUnary m u a

def TermLifts (n : Nat) : Prop := ∀ {m u next a}, n ≤ m → IsTerm n u next a → IsTerm m u next a

def ExpressionLifts (n : Nat) : Prop :=
  ∀ {m u next a}, n ≤ m → IsExpression n u next a → IsExpression m u next a

theorem factor_lifts (factors : FactorLifts n) (expressions : ExpressionLifts n) :
    FactorLifts (n + 1) := by
  intro m u a le phrase
  obtain ⟨m, rfl⟩ := Nat.exists_eq_add_of_lt le
  have inner : n ≤ n + m := Nat.le_add_right n m
  cases phrase with
  | name name => exact .name name
  | literal literal => exact .literal literal
  | cast opening cast closing operand => exact .cast opening cast closing (factors inner operand)
  | group opening phrase closing => exact .group opening (expressions inner phrase) closing

theorem unary_lifts (factors : FactorLifts n) (unaries : UnaryLifts n) : UnaryLifts (n + 1) := by
  intro m u a le phrase
  obtain ⟨m, rfl⟩ := Nat.exists_eq_add_of_lt le
  have inner : n ≤ n + m := Nat.le_add_right n m
  cases phrase with
  | factor phrase => exact .factor (factors inner phrase)
  | signed sign operand => exact .signed sign (unaries inner operand)

theorem term_lifts (unaries : UnaryLifts n) (terms : TermLifts n) : TermLifts (n + 1) := by
  intro m u next a le phrase
  obtain ⟨m, rfl⟩ := Nat.exists_eq_add_of_lt le
  have inner : n ≤ n + m := Nat.le_add_right n m
  cases phrase with
  | last left other => exact .last (unaries inner left) other
  | more left sign right => exact .more (unaries inner left) sign (terms inner right)

theorem expression_lifts (terms : TermLifts n) (expressions : ExpressionLifts n) :
    ExpressionLifts (n + 1) := by
  intro m u next a le phrase
  obtain ⟨m, rfl⟩ := Nat.exists_eq_add_of_lt le
  have inner : n ≤ n + m := Nat.le_add_right n m
  cases phrase with
  | last left other => exact .last (terms inner left) other
  | more left sign right => exact .more (terms inner left) sign (expressions inner right)

theorem arithmetic_lifts (n : Nat) :
    FactorLifts n ∧ UnaryLifts n ∧ TermLifts n ∧ ExpressionLifts n := by
  induction n with
  | zero =>
    exact ⟨fun _ phrase => (nomatch phrase), fun _ phrase => (nomatch phrase),
      fun _ phrase => (nomatch phrase), fun _ phrase => (nomatch phrase)⟩
  | succ n ih =>
    obtain ⟨factors, unaries, terms, expressions⟩ := ih
    exact ⟨factor_lifts factors expressions, unary_lifts factors unaries,
      term_lifts unaries terms, expression_lifts terms expressions⟩

theorem condition_lifts {c : Condition Node} (le : n ≤ m) (phrase : IsCondition n u next c) :
    IsCondition m u next c := by
  cases phrase with
  | @odd n _ _ _ _ word operand =>
    obtain ⟨m, rfl⟩ := Nat.exists_eq_add_of_lt le
    exact .odd word ((arithmetic_lifts n).2.2.2 (Nat.le_add_right n m) operand)
  | @compare n _ _ _ _ _ _ _ _ left sign right =>
    obtain ⟨m, rfl⟩ := Nat.exists_eq_add_of_lt le
    exact .compare ((arithmetic_lifts n).2.2.2 (Nat.le_add_right n m) left) sign
      ((arithmetic_lifts n).2.2.2 (Nat.le_add_right n m) right)

theorem chain_lifts {α : Type} {Item : Nat → List Token → Token → α → Prop}
    {separator : TokenKind} {as : List α}
    (item : ∀ {u next a}, Item n u next a → Item m u next a)
    (phrase : Chain Item separator (n + 1) u next as) : Chain Item separator (m + 1) u next as := by
  generalize nesting : n + 1 = k at phrase
  induction phrase with
  | last phrase other =>
    cases nesting
    exact .last (item phrase) other
  | more phrase mark _ ih =>
    cases nesting
    exact .more (item phrase) mark (ih rfl)

def StatementLifts (n : Nat) : Prop :=
  ∀ {m u next a}, n ≤ m → IsStatement n u next a → IsStatement m u next a

def SequenceLifts (n : Nat) : Prop := ∀ {m u a}, n ≤ m → IsSequence n u a → IsSequence m u a

theorem statement_lifts (statements : StatementLifts n) (sequences : SequenceLifts n) :
    StatementLifts (n + 1) := by
  have expressions := @(arithmetic_lifts n).2.2.2
  intro m u next a le phrase
  obtain ⟨m, rfl⟩ := Nat.exists_eq_add_of_lt le
  have inner : n ≤ n + m := Nat.le_add_right n m
  cases phrase with
  | assignment name sign assigned => exact .assignment name sign (expressions inner assigned)
  | call word name => exact .call word name
  | input mark name => exact .input mark name
  | print mark printed => exact .print mark (expressions inner printed)
  | sequence phrase => exact .sequence (sequences inner phrase)
  | conditional word test link body =>
    exact .conditional word (condition_lifts inner test) link (statements inner body)
  | loop word test link body =>
    exact .loop word (condition_lifts inner test) link (statements inner body)
  | nothing other => exact .nothing other

theorem sequence_lifts (statements : StatementLifts n) : SequenceLifts (n + 1) := by
  intro m u a le phrase
  obtain ⟨m, rfl⟩ := Nat.exists_eq_add_of_lt le
  cases phrase with
  | mk word chain finish =>
    exact .mk word (chain_lifts (statements (Nat.le_add_right n m)) chain) finish

theorem statements_lift (n : Nat) : StatementLifts n ∧ SequenceLifts n := by
  induction n with
  | zero => exact ⟨fun _ phrase => (nomatch phrase), fun _ phrase => (nomatch phrase)⟩
  | succ n ih => exact ⟨statement_lifts ih.1 ih.2, sequence_lifts ih.1⟩

def BlockLifts (n : Nat) : Prop :=
  ∀ {m outermost u next b}, n ≤ m → IsBlock n outermost u next b → IsBlock m outermost u next b

def ProcedureLifts (n : Nat) : Prop :=
  ∀ {m u next a}, n ≤ m → IsProcedure n u next a → IsProcedure m u next a

theorem procedures_lift (procedures : ProcedureLifts n) (le : n ≤ m) {as : List Node}
    (phrase : AreProcedures n u next as) : AreProcedures m u next as := by
  induction as generalizing u with
  | nil =>
    cases phrase with
    | none other => exact .none other
  | cons a as ih =>
    cases phrase with
    | more item rest => exact .more (procedures le item) (ih rest)

theorem declarations_lift (procedures : ProcedureLifts n) (le : n ≤ m) {declared : List Node}
    (phrase : AreDeclarations n u next declared) : AreDeclarations m u next declared := by
  cases phrase with
  | mk constants vars phrase => exact .mk constants vars (procedures_lift procedures le phrase)

theorem block_lifts (procedures : ProcedureLifts n) : BlockLifts (n + 1) := by
  intro m outermost u next b le phrase
  obtain ⟨m, rfl⟩ := Nat.exists_eq_add_of_lt le
  have inner : n ≤ n + m := Nat.le_add_right n m
  cases phrase with
  | mk declared body finish =>
    exact .mk (declarations_lift procedures inner declared) ((statements_lift n).1 inner body)
      finish

theorem procedure_lifts (blocks : BlockLifts n) : ProcedureLifts (n + 1) := by
  intro m u next a le phrase
  obtain ⟨m, rfl⟩ := Nat.exists_eq_add_of_lt le
  cases phrase with
  | mk word name mark body => exact .mk word name mark (blocks (Nat.le_add_right n m) body)

theorem blocks_lift (n : Nat) : BlockLifts n ∧ ProcedureLifts n := by
  induction n with
  | zero => exact ⟨fun _ phrase => (nomatch phrase), fun _ phrase => (nomatch phrase)⟩
  | succ n ih => exact ⟨block_lifts ih.2, procedure_lifts ih.1⟩

theorem IsProgram.lift {p : Program} (phrase : IsProgram n u p) (le : n ≤ m) : IsProgram m u p := by
  cases phrase with
  | mk body dot => exact .mk ((blocks_lift n).1 le body) dot

end Nesting

structure EndsExpression (k : TokenKind) : Prop where
  multiplicative : k.multiplicative? = none
  additive : k.additive? = none

structure EndsStatement (k : TokenKind) : Prop extends EndsExpression k where
  statement : k.startsStatement = false

structure EndsBlock (k : TokenKind) : Prop extends EndsStatement k where
  constants : k ≠ .constWord
  vars : k ≠ .varWord
  procedures : k ≠ .procedureWord
  semicolon : k ≠ .semicolon

theorem IsTerm.before {a : Node} (phrase : IsTerm n u next a)
    (ends : other.kind.multiplicative? = none) : IsTerm n u other a := by
  induction n generalizing u a with
  | zero => cases phrase
  | succ n ih =>
    cases phrase with
    | last left _ => exact .last left ends
    | more left sign right => exact .more left sign (ih right)

theorem IsExpression.before {a : Node} (phrase : IsExpression n u next a)
    (ends : EndsExpression other.kind) : IsExpression n u other a := by
  induction n generalizing u a with
  | zero => cases phrase
  | succ n ih =>
    cases phrase with
    | last left _ => exact .last (left.before ends.multiplicative) ends.additive
    | more left sign right => exact .more left sign (ih right)

theorem IsCondition.before {c : Condition Node} (phrase : IsCondition n u next c)
    (ends : EndsExpression other.kind) : IsCondition n u other c := by
  cases phrase with
  | odd word operand => exact .odd word (operand.before ends)
  | compare left sign right => exact .compare left sign (right.before ends)

theorem IsStatement.before {a : Option Node} (phrase : IsStatement n u next a)
    (ends : EndsStatement other.kind) : IsStatement n u other a := by
  induction n generalizing u a with
  | zero => cases phrase
  | succ n ih =>
    cases phrase with
    | assignment name sign assigned =>
      exact .assignment name sign (assigned.before ends.toEndsExpression)
    | call word name => exact .call word name
    | input mark name => exact .input mark name
    | print mark printed => exact .print mark (printed.before ends.toEndsExpression)
    | sequence phrase => exact .sequence phrase
    | conditional word test link body => exact .conditional word test link (ih body)
    | loop word test link body => exact .loop word test link (ih body)
    | nothing => exact .nothing ends.statement

theorem Chain.before {α : Type} {Item : Nat → List Token → Token → α → Prop}
    {separator : TokenKind} {as : List α}
    (item : ∀ {u a}, Item n u next a → Item n u other a) (ends : other.kind ≠ separator)
    (phrase : Chain Item separator (n + 1) u next as) : Chain Item separator (n + 1) u other as := by
  generalize nesting : n + 1 = k at phrase
  induction phrase with
  | last phrase _ =>
    cases nesting
    exact .last (item phrase) ends
  | more phrase mark _ ih =>
    cases nesting
    exact .more phrase mark (ih item rfl)

theorem Optional.before {start : TokenKind} {Item : List Token → Node → Prop} {as : List Node}
    (phrase : Optional start Item u next as) (ends : other.kind ≠ start) :
    Optional start Item u other as := by
  cases phrase with
  | absent => exact .absent ends
  | present phrase => exact .present phrase

theorem Skipped.before {kind : TokenKind} (phrase : Skipped kind u next)
    (ends : other.kind ≠ kind) : Skipped kind u other := by
  cases phrase with
  | absent => exact .absent ends
  | present mark => exact .present mark

theorem headD_cases (v : List Token) (next other : Token) :
    v.headD other = v.headD next ∨ (v = [] ∧ v.headD other = other) := by
  cases v with
  | nil => exact .inr ⟨rfl, rfl⟩
  | cons => exact .inl rfl

-- A block that has no tokens stands at the token after it, so its tree may become another one, but
-- in the places of its nodes only.
def BlockBefore (n : Nat) : Prop :=
  ∀ {outermost u next b} {other : Token}, IsBlock n outermost u next b → EndsBlock other.kind →
    ∃ b' nodes nodes', IsBlock n outermost u other b' ∧ b.body = nodes ++ exitAt outermost next ∧
      b'.body = nodes' ++ exitAt outermost other ∧ nodes'.map Node.erase = nodes.map Node.erase

def ProcedureBefore (n : Nat) : Prop :=
  ∀ {u next a} {other : Token}, IsProcedure n u next a → EndsBlock other.kind →
    ∃ a' : Node, IsProcedure n u other a' ∧ a'.erase = a.erase

theorem AreProcedures.before (procedures : ProcedureBefore n) {as : List Node}
    (phrase : AreProcedures n u next as) (ends : EndsBlock other.kind) :
    ∃ as', AreProcedures n u other as' ∧ as'.map Node.erase = as.map Node.erase := by
  induction as generalizing u with
  | nil =>
    cases phrase
    exact ⟨[], .none ends.procedures, rfl⟩
  | cons a as ih =>
    cases phrase with
    | @more _ u v _ _ _ item rest =>
      obtain ⟨as', later, same⟩ := ih rest
      rcases headD_cases v next other with head | ⟨_, last⟩
      · exact ⟨_, .more (head ▸ item) later, by rw [List.map_cons, List.map_cons, same]⟩
      · obtain ⟨a', item, first⟩ := procedures item (last.symm ▸ ends)
        exact ⟨_, .more item later, by rw [List.map_cons, List.map_cons, first, same]⟩

theorem AreDeclarations.before (procedures : ProcedureBefore n) {declared : List Node}
    (phrase : AreDeclarations n u next declared) (ends : EndsBlock other.kind) :
    ∃ declared', AreDeclarations n u other declared' ∧
      declared'.map Node.erase = declared.map Node.erase := by
  cases phrase with
  | @mk _ u v w _ cs vs _ constants vars phrase =>
    obtain ⟨as, later, same⟩ := phrase.before procedures ends
    have vars' : HasVariables v (w.headD other) vs := by
      rcases headD_cases w next other with head | ⟨_, last⟩
      · exact head ▸ vars
      · exact vars.before (last.symm ▸ ends.vars)
    have constants' : HasConstants u ((v ++ w).headD other) cs := by
      rcases headD_cases (v ++ w) next other with head | ⟨_, last⟩
      · exact head ▸ constants
      · exact constants.before (last.symm ▸ ends.constants)
    exact ⟨_, .mk constants' vars' later, by simp only [List.map_append, same]⟩

theorem block_before (procedures : ProcedureBefore n) : BlockBefore (n + 1) := by
  intro outermost u next b other phrase ends
  cases phrase with
  | @mk _ _ u v w _ declared body declarations statement finish =>
    have declarations' : ∃ declared', AreDeclarations n u ((v ++ w).headD other) declared' ∧
        declared'.map Node.erase = declared.map Node.erase := by
      rcases headD_cases (v ++ w) next other with head | ⟨_, last⟩
      · exact ⟨declared, head ▸ declarations, rfl⟩
      · exact declarations.before procedures (last.symm ▸ ends)
    have statement' : IsStatement n v (w.headD other) body := by
      rcases headD_cases w next other with head | ⟨_, last⟩
      · exact head ▸ statement
      · exact statement.before (last.symm ▸ ends.toEndsStatement)
    obtain ⟨declared', declarations', same⟩ := declarations'
    refine ⟨_, declared ++ body.toList, declared' ++ body.toList,
      .mk declarations' statement' (finish.before ends.semicolon), rfl, rfl, ?_⟩
    simp only [List.map_append, same]

theorem procedure_before (blocks : BlockBefore n) : ProcedureBefore (n + 1) := by
  intro u next a other phrase ends
  cases phrase with
  | @mk _ _ _ _ _ _ b word name mark body =>
    obtain ⟨b', nodes, nodes', body', eq, eq', same⟩ := blocks body ends
    refine ⟨_, .mk word name mark body', ?_⟩
    obtain ⟨start, _⟩ := b
    obtain ⟨start', _⟩ := b'
    simp only [exitAt, Bool.false_eq_true, false_and, if_false, List.append_nil] at eq eq'
    subst eq eq'
    rw [Node.erase, eraseBlock, eraseAll_eq, same, Node.erase, eraseBlock, eraseAll_eq]

theorem blocks_before (n : Nat) : BlockBefore n ∧ ProcedureBefore n := by
  induction n with
  | zero => exact ⟨fun phrase => (nomatch phrase), fun phrase => (nomatch phrase)⟩
  | succ n ih => exact ⟨block_before ih.2, procedure_before ih.1⟩

end Phrase

end PlZero
