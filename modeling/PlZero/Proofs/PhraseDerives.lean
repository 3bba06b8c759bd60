import PlZero.Proofs.PhraseSplits

set_option autoImplicit false

namespace PlZero

namespace Phrase

open Language

variable {n : Nat} {u : List Token} {next : Token} {v : List TokenKind} {K : Language TokenKind}

theorem mem_token_of_eq {t : Token} {kind : TokenKind} (same : t.kind = kind) (mem : v ∈ K) :
    t.kind :: v ∈ ({[kind]} : Language TokenKind) * K :=
  mem_token_mul.2 ⟨v, mem, by rw [same]⟩

def FactorDerives (n : Nat) : Prop :=
  ∀ {u a K v}, IsFactor n u a → v ∈ K → kinds u ++ v ∈ lang .factor * K

def UnaryDerives (n : Nat) : Prop :=
  ∀ {u a K v}, IsUnary n u a → v ∈ K → kinds u ++ v ∈ lang .unary * K

def TermDerives (n : Nat) : Prop :=
  ∀ {u next a K v}, IsTerm n u next a → v ∈ K → kinds u ++ v ∈ lang .term * K

def ExpressionDerives (n : Nat) : Prop :=
  ∀ {u next a K v}, IsExpression n u next a → v ∈ K → kinds u ++ v ∈ lang .expr * K

theorem factor_derives (factors : FactorDerives n) (expressions : ExpressionDerives n) :
    FactorDerives (n + 1) := by
  intro u a K v phrase mem
  cases phrase with
  | name name => exact mem_factor.2 (.inl ⟨v, mem, by simp [name]⟩)
  | literal literal =>
    exact mem_factor.2 (.inr (.inl (mem_literal.2 ⟨_, v, by simp [literal], mem, rfl⟩)))
  | cast opening cast closing operand =>
    refine mem_factor.2 (.inr (.inr (.inl
      ⟨_, _, Option.isSome_of_eq_some cast, factors operand mem, ?_⟩)))
    simp [opening, closing]
  | group opening inner closing =>
    refine mem_factor.2 (.inr (.inr (.inr ⟨_, expressions inner (mem_token_of_eq closing mem), ?_⟩)))
    simp [opening]

theorem unary_derives (factors : FactorDerives n) (unaries : UnaryDerives n) :
    UnaryDerives (n + 1) := by
  intro u a K v phrase mem
  cases phrase with
  | factor phrase => exact mem_unary.2 (.inr (factors phrase mem))
  | signed sign operand =>
    exact mem_unary.2 (.inl ⟨_, _, Option.isSome_of_eq_some sign, unaries operand mem, rfl⟩)

theorem term_derives (unaries : UnaryDerives n) (terms : TermDerives n) :
    TermDerives (n + 1) := by
  intro u next a K v phrase mem
  refine mem_term.2 ?_
  cases phrase with
  | last left _ => exact unaries left (.inl mem)
  | @more _ start sign _ u w operator a b left kind right =>
    rw [kinds, List.map_append, List.append_assoc]
    exact unaries left (.inr ⟨_, _, Option.isSome_of_eq_some kind, terms right mem, rfl⟩)

theorem expression_derives (terms : TermDerives n) (expressions : ExpressionDerives n) :
    ExpressionDerives (n + 1) := by
  intro u next a K v phrase mem
  refine mem_expr.2 ?_
  cases phrase with
  | last left _ => exact terms left (.inl mem)
  | @more _ start sign _ u w operator a b left kind right =>
    rw [kinds, List.map_append, List.append_assoc]
    exact terms left (.inr ⟨_, _, Option.isSome_of_eq_some kind, expressions right mem, rfl⟩)

theorem arithmetic_derives (n : Nat) :
    FactorDerives n ∧ UnaryDerives n ∧ TermDerives n ∧ ExpressionDerives n := by
  induction n with
  | zero =>
    exact ⟨fun phrase => (nomatch phrase), fun phrase => (nomatch phrase),
      fun phrase => (nomatch phrase), fun phrase => (nomatch phrase)⟩
  | succ n ih =>
    obtain ⟨factors, unaries, terms, expressions⟩ := ih
    exact ⟨factor_derives factors expressions, unary_derives factors unaries,
      term_derives unaries terms, expression_derives terms expressions⟩

theorem condition_derives {c : Condition Node} (phrase : IsCondition n u next c) (mem : v ∈ K) :
    kinds u ++ v ∈ lang .condition * K := by
  refine mem_condition.2 ?_
  cases phrase with
  | @odd n word _ u a odd operand =>
    exact .inl ⟨_, (arithmetic_derives n).2.2.2 operand mem, by simp [odd]⟩
  | @compare n start sign _ u w operator a b left kind right =>
    rw [kinds, List.map_append, List.append_assoc]
    exact .inr ((arithmetic_derives n).2.2.2 left ⟨_, _, Option.isSome_of_eq_some kind,
      (arithmetic_derives n).2.2.2 right mem, rfl⟩)

theorem chain_derives {α : Type} {Item : Nat → List Token → Token → α → Prop}
    {separator : TokenKind} {I M : Language TokenKind} {as : List α}
    (item : ∀ {u next a K v}, Item n u next a → v ∈ K → kinds u ++ v ∈ I * K)
    (phrase : Chain Item separator (n + 1) u next as) (mem : v ∈ M) :
    kinds u ++ v ∈ I * following separator I M := by
  generalize fuel : n + 1 = m at phrase
  induction phrase with
  | last phrase _ =>
    cases fuel
    exact item phrase (mem_following.2 (.inl mem))
  | more phrase kind _ ih =>
    cases fuel
    rw [kinds, List.map_append, List.append_assoc]
    exact item phrase (mem_following.2 (.inr ⟨_, ih rfl, by simp [kind]⟩))

theorem constant_derives {d : VariableDeclaration} (phrase : IsConstant n u next d) (mem : v ∈ K) :
    kinds u ++ v ∈ constantWords * K := by
  rw [constantWords, mul_assoc, mul_assoc]
  cases phrase with
  | mk name sign literal =>
    exact mem_token_of_eq name (mem_token_of_eq sign
      (mem_literal.2 ⟨_, v, Option.isSome_of_eq_some literal, mem, rfl⟩))

theorem variable_derives {d : VariableDeclaration} (phrase : IsVariable n u next d) (mem : v ∈ K) :
    kinds u ++ v ∈ variableWords * K := by
  cases phrase with
  | mk name => exact mem_token_of_eq name mem

theorem optionalGroup_derives {word : TokenKind} {I : Language TokenKind} {as : List Node}
    {Item : Nat → List Token → Token → VariableDeclaration → Prop}
    (item : ∀ {u next a K v}, Item 0 u next a → v ∈ K → kinds u ++ v ∈ I * K)
    (phrase : Optional word (IsGroup word Item) u next as) (mem : v ∈ K) :
    kinds u ++ v ∈ declared word I K := by
  cases phrase with
  | absent => exact .inl mem
  | present phrase =>
    cases phrase with
    | mk start chain finish =>
      rw [kinds, List.map_cons, List.map_append, List.cons_append, List.append_assoc]
      exact .inr (mem_token_of_eq start (chain_derives item chain (mem_token_of_eq finish mem)))

def StatementDerives (n : Nat) : Prop :=
  ∀ {u next a K v}, IsStatement n u next a → v ∈ K → kinds u ++ v ∈ lang .statement * K

def SequenceDerives (n : Nat) : Prop :=
  ∀ {u a K v}, IsSequence n u a → v ∈ K → kinds u ++ v ∈ lang .statement * K

theorem mem_statement_of_rest {t : Token} {kind : TokenKind} (same : t.kind = kind)
    (mem : v ∈ statementRest K kind) : t.kind :: v ∈ lang .statement * K :=
  mem_statement.2 (.inl ⟨kind, v, mem, by rw [same]⟩)

theorem statement_derives (statements : StatementDerives n) (sequences : SequenceDerives n) :
    StatementDerives (n + 1) := by
  have expressions := @(arithmetic_derives n).2.2.2
  intro u next a K v phrase mem
  cases phrase with
  | assignment name sign assigned =>
    exact mem_statement_of_rest name (mem_token_of_eq sign (expressions assigned mem))
  | call word name => exact mem_statement_of_rest word (mem_token_of_eq name mem)
  | input mark name => exact mem_statement_of_rest mark (mem_token_of_eq name mem)
  | print mark printed => exact mem_statement_of_rest mark (expressions printed mem)
  | sequence phrase => exact sequences phrase mem
  | conditional ifs test link inner =>
    rw [kinds, List.map_cons, List.map_append, List.cons_append, List.append_assoc]
    exact mem_statement_of_rest ifs
      (condition_derives test (mem_token_of_eq link (statements inner mem)))
  | loop whiles test link inner =>
    rw [kinds, List.map_cons, List.map_append, List.cons_append, List.append_assoc]
    exact mem_statement_of_rest whiles
      (condition_derives test (mem_token_of_eq link (statements inner mem)))
  | nothing => exact mem_statement.2 (.inr mem)

theorem sequence_derives (statements : StatementDerives n) : SequenceDerives (n + 1) := by
  intro u a K v phrase mem
  cases phrase with
  | mk word chain finish =>
    rw [kinds, List.map_cons, List.map_append, List.cons_append, List.append_assoc]
    exact mem_statement_of_rest word (chain_derives statements chain (mem_token_of_eq finish mem))

theorem statements_derive (n : Nat) : StatementDerives n ∧ SequenceDerives n := by
  induction n with
  | zero => exact ⟨fun phrase => (nomatch phrase), fun phrase => (nomatch phrase)⟩
  | succ n ih => exact ⟨statement_derives ih.1 ih.2, sequence_derives ih.1⟩

def BlockDerives (n : Nat) : Prop :=
  ∀ {outermost u next b K v}, IsBlock n outermost u next b → v ∈ K →
    kinds u ++ v ∈ lang .block * K

def ProcedureDerives (n : Nat) : Prop :=
  ∀ {u next a K v}, IsProcedure n u next a → v ∈ K → kinds u ++ v ∈ lang .procedureDecl * K

theorem procedures_derive (procedures : ProcedureDerives n) {as : List Node}
    (phrase : AreProcedures n u next as) (mem : v ∈ lang .statement * afterBody K) :
    kinds u ++ v ∈ afterVariables K := by
  induction as generalizing u with
  | nil =>
    cases phrase
    exact mem_afterVariables.2 (.inl mem)
  | cons a as ih =>
    cases phrase with
    | more item rest =>
      rw [kinds, List.map_append, List.append_assoc]
      exact mem_afterVariables.2 (.inr (procedures item (ih rest)))

theorem block_derives (procedures : ProcedureDerives n) : BlockDerives (n + 1) := by
  intro outermost u next b K v phrase mem
  rw [block_mul]
  cases phrase with
  | @mk _ _ _ _ w _ _ _ declarations body finish =>
    cases declarations with
    | mk constants vars phrase =>
      have ending : kinds w ++ v ∈ afterBody K := by
        cases finish with
        | absent => exact mem_afterBody.2 (.inl mem)
        | present mark => exact mem_afterBody.2 (.inr ⟨v, mem, by simp [mark]⟩)
      simp only [kinds, List.map_append, List.append_assoc]
      exact optionalGroup_derives constant_derives constants
        (optionalGroup_derives variable_derives vars
          (procedures_derive procedures phrase ((statements_derive n).1 body ending)))

theorem procedure_derives (blocks : BlockDerives n) : ProcedureDerives (n + 1) := by
  intro u next a K v phrase mem
  cases phrase with
  | mk word name mark body =>
    exact mem_procedureDecl.2 ⟨_, blocks body mem, by simp [word, name, mark]⟩

theorem blocks_derive (n : Nat) : BlockDerives n ∧ ProcedureDerives n := by
  induction n with
  | zero => exact ⟨fun phrase => (nomatch phrase), fun phrase => (nomatch phrase)⟩
  | succ n ih => exact ⟨block_derives ih.2, procedure_derives ih.1⟩

theorem program_derives {p : Program} (phrase : IsProgram n u p) :
    Derives (.category .program) (kinds u) := by
  cases phrase with
  | @mk u point _ body dot =>
    have word : kinds u ++ [point.kind] ∈ lang .block * ({[.dot]} * 1) :=
      (blocks_derive n).1 body (mem_token_of_eq dot rfl)
    have program := mem_program.2 word
    rw [mul_one] at program
    rw [kinds, List.map_append]
    exact program

end Phrase

end PlZero
