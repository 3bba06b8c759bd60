import PlZero.Proofs.Splits

set_option autoImplicit false

namespace PlZero

namespace Phrase

open Language

abbrev kinds (u : List Token) : List TokenKind := u.map Token.kind

theorem headD_kinds (u : List Token) (t : Token) : (kinds u).headD t.kind = (u.headD t).kind := by
  cases u <;> rfl

theorem splits_append {u v : List Token} {t : Token} {M N K : Language TokenKind}
    (first : Splits (kinds u) (v.headD t).kind M N) (second : Splits (kinds v) t.kind N K) :
    Splits (kinds (u ++ v)) t.kind M K := by
  rw [kinds, List.map_append]
  rw [← headD_kinds] at first
  exact first.append second

def AfterTerm (K : Language TokenKind) : Prop :=
  ∀ k v, k :: v ∈ K → k.multiplicative? = none

structure AfterExpression (K : Language TokenKind) : Prop where
  multiplicative : AfterTerm K
  additive : ∀ k v, k :: v ∈ K → k.additive? = none

theorem AfterExpression.moreExpr {K : Language TokenKind} (after : AfterExpression K) :
    AfterTerm (moreExpr K) := by
  rintro k v (mem | ⟨k', v', sign, _, eq⟩)
  · exact after.multiplicative k v mem
  · obtain ⟨rfl, rfl⟩ := List.cons.inj eq
    cases k <;> simp_all [TokenKind.additive?, TokenKind.multiplicative?]

theorem afterExpression_token {k : TokenKind} {K : Language TokenKind}
    (multiplicative : k.multiplicative? = none) (additive : k.additive? = none) :
    AfterExpression ({[k]} * K) := by
  constructor
  · intro k' v mem
    obtain ⟨_, _, eq⟩ := mem_token_mul.1 mem
    obtain ⟨rfl, rfl⟩ := List.cons.inj eq
    exact multiplicative
  · intro k' v mem
    obtain ⟨_, _, eq⟩ := mem_token_mul.1 mem
    obtain ⟨rfl, rfl⟩ := List.cons.inj eq
    exact additive

theorem afterExpression_then {K : Language TokenKind} : AfterExpression ({[.thenWord]} * K) :=
  afterExpression_token rfl rfl

theorem afterExpression_do {K : Language TokenKind} : AfterExpression ({[.doWord]} * K) :=
  afterExpression_token rfl rfl

theorem afterExpression_compared (K : Language TokenKind) : AfterExpression (compared K) := by
  constructor
  · rintro k v ⟨k', v', sign, _, eq⟩
    obtain ⟨rfl, rfl⟩ := List.cons.inj eq
    cases k <;> simp_all [TokenKind.comparison?, TokenKind.multiplicative?]
  · rintro k v ⟨k', v', sign, _, eq⟩
    obtain ⟨rfl, rfl⟩ := List.cons.inj eq
    cases k <;> simp_all [TokenKind.comparison?, TokenKind.additive?]

section Arithmetic

variable {n : Nat} {u v : List Token} {t next : Token} {a : Node}

theorem mem_condition_odd {rest : List TokenKind} {K : Language TokenKind}
    (h : .oddWord :: rest ∈ lang .condition * K) : rest ∈ lang .expr * K := by
  rcases mem_condition.1 h with ⟨_, mem, eq⟩ | mem
  · cases eq; exact mem
  · exact absurd rfl (TokenKind.no_word_of_starts (starts_of_mem_expr mem)).2

theorem mem_condition_compare {k : TokenKind} {rest : List TokenKind} {K : Language TokenKind}
    (noOdd : k ≠ .oddWord) (h : k :: rest ∈ lang .condition * K) :
    k :: rest ∈ lang .expr * compared K := by
  rcases mem_condition.1 h with ⟨_, _, eq⟩ | mem
  · cases eq; exact absurd rfl noOdd
  · exact mem

theorem mem_compared {k : TokenKind} {rest : List TokenKind} {K : Language TokenKind}
    (h : k :: rest ∈ compared K) : rest ∈ lang .expr * K := by
  obtain ⟨_, _, _, mem, eq⟩ := h
  cases eq; exact mem

def FactorSplits (n : Nat) : Prop :=
  ∀ {u a K} (t : TokenKind), IsFactor n u a → Splits (kinds u) t (lang .factor * K) K

def UnarySplits (n : Nat) : Prop :=
  ∀ {u a K} (t : TokenKind), IsUnary n u a → Splits (kinds u) t (lang .unary * K) K

def TermSplits (n : Nat) : Prop :=
  ∀ {u next a K}, AfterTerm K → IsTerm n u next a →
    Splits (kinds u) next.kind (lang .term * K) K

def ExpressionSplits (n : Nat) : Prop :=
  ∀ {u next a K}, AfterExpression K → IsExpression n u next a →
    Splits (kinds u) next.kind (lang .expr * K) K

theorem mem_factor_name {rest : List TokenKind} {K : Language TokenKind}
    (h : .name :: rest ∈ lang .factor * K) : rest ∈ K := by
  rcases mem_factor.1 h with ⟨_, mem, eq⟩ | literal | ⟨_, _, _, _, eq⟩ | ⟨_, _, eq⟩
  · cases eq; exact mem
  · obtain ⟨_, _, literal, _, eq⟩ := mem_literal.1 literal
    cases eq; simp [TokenKind.literalType?] at literal
  · cases eq
  · cases eq

theorem mem_factor_literal {k : TokenKind} {rest : List TokenKind} {K : Language TokenKind}
    (literal : k.literalType?.isSome = true) (h : k :: rest ∈ lang .factor * K) : rest ∈ K := by
  rcases mem_factor.1 h with ⟨_, _, eq⟩ | word | ⟨_, _, _, _, eq⟩ | ⟨_, _, eq⟩
  · cases eq; simp [TokenKind.literalType?] at literal
  · obtain ⟨_, _, _, mem, eq⟩ := mem_literal.1 word
    cases eq; exact mem
  · cases eq; simp [TokenKind.literalType?] at literal
  · cases eq; simp [TokenKind.literalType?] at literal

-- After an opening parenthesis the next kind decides: no expression starts with a type word.
theorem mem_factor_cast {k : TokenKind} {rest : List TokenKind} {K : Language TokenKind}
    (cast : k.castType?.isSome = true) (h : .leftParen :: k :: rest ∈ lang .factor * K) :
    ∃ v ∈ lang .factor * K, rest = .rightParen :: v := by
  rcases mem_factor.1 h with ⟨_, _, eq⟩ | word | ⟨_, v, _, mem, eq⟩ | ⟨_, mem, eq⟩
  · cases eq
  · obtain ⟨_, _, literal, _, eq⟩ := mem_literal.1 word
    cases eq; simp [TokenKind.literalType?] at literal
  · cases eq; exact ⟨v, mem, rfl⟩
  · cases eq
    have none := (TokenKind.no_word_of_starts (starts_of_mem_expr mem)).1
    simp [none] at cast

theorem splits_cast {opening word : Token} {u : List Token} {t : TokenKind} {target : DataType}
    {K L : Language TokenKind} (left : opening.kind = .leftParen)
    (cast : word.kind.castType? = some target)
    (rest : Splits (kinds u) t ({[.rightParen]} * (lang .factor * K)) L) :
    Splits (kinds (opening :: word :: u)) t (lang .factor * K) L := by
  refine .consSeeing (N := {[word.kind]} * ({[.rightParen]} * (lang .factor * K))) ?_
    (.token rfl rest)
  intro rest mem
  simp only [List.headD_cons, List.map_cons, left] at mem ⊢
  obtain ⟨v, mem', rfl⟩ := mem_factor_cast (by simp [cast]) mem
  exact mem_token_mul.2 ⟨_, mem_token_mul.2 ⟨v, mem', rfl⟩, rfl⟩

theorem mem_factor_group {k : TokenKind} {rest : List TokenKind} {K : Language TokenKind}
    (cast : k.castType? = none) (h : .leftParen :: k :: rest ∈ lang .factor * K) :
    k :: rest ∈ lang .expr * ({[.rightParen]} * K) := by
  rcases mem_factor.1 h with ⟨_, _, eq⟩ | word | ⟨_, v, some, _, eq⟩ | ⟨_, mem, eq⟩
  · cases eq
  · obtain ⟨_, _, literal, _, eq⟩ := mem_literal.1 word
    cases eq; simp [TokenKind.literalType?] at literal
  · cases eq; simp [cast] at some
  · cases eq; exact mem

theorem factor_splits (factors : FactorSplits n) (expressions : ExpressionSplits n) :
    FactorSplits (n + 1) := by
  intro u a K t phrase
  cases phrase with
  | name kind =>
    refine .cons (fun rest mem => ?_) (.nil fun _ => id)
    rw [kind] at mem
    exact mem_factor_name mem
  | literal literal =>
    exact .cons (fun rest => mem_factor_literal (by simp [literal])) (.nil fun _ => id)
  | @cast _ opening word closing u target a left cast right operand =>
    exact splits_cast left cast (.token right (factors t operand))
  | @group _ opening closing u a left inner right =>
    have after : AfterExpression ({[.rightParen]} * K) := afterExpression_token rfl rfl
    have step := expressions after inner
    refine .consSeeing (N := lang .expr * ({[.rightParen]} * K)) ?_ ?_
    · intro rest mem
      simp only [left] at mem
      refine mem_factor_group ?_ mem
      have starts := inner.starts closing
      rw [← headD_kinds] at starts
      cases u <;> simp_all [TokenKind.no_word_of_starts]
    · rw [List.map_append]
      exact step.append (.token right (.nil fun _ => id))

theorem mem_unary_signed {k : TokenKind} {rest : List TokenKind} {K : Language TokenKind}
    (sign : k.sign?.isSome = true) (h : k :: rest ∈ lang .unary * K) : rest ∈ lang .unary * K := by
  rcases mem_unary.1 h with ⟨_, _, _, mem, eq⟩ | factor
  · cases eq; exact mem
  · rw [TokenKind.sign_of_startsFactor (starts_of_mem_factor factor)] at sign
    cases sign

theorem mem_unary_factor {k : TokenKind} {rest : List TokenKind} {K : Language TokenKind}
    (unsigned : k.sign? = none) (h : k :: rest ∈ lang .unary * K) :
    k :: rest ∈ lang .factor * K := by
  rcases mem_unary.1 h with ⟨_, _, sign, _, eq⟩ | factor
  · cases eq; simp [unsigned] at sign
  · exact factor

theorem unary_splits (factors : FactorSplits n) (unaries : UnarySplits n) :
    UnarySplits (n + 1) := by
  intro u a K t phrase
  cases phrase with
  | factor phrase =>
    refine .restrict (fun rest => mem_unary_factor ?_) (factors t phrase)
    have starts := TokenKind.sign_of_startsFactor (phrase.starts ⟨t, "", default⟩)
    rwa [← headD_kinds] at starts
  | signed sign operand =>
    exact .cons (fun rest => mem_unary_signed (by simp [sign])) (unaries t operand)

theorem mem_moreTerm_last {k : TokenKind} {rest : List TokenKind} {K : Language TokenKind}
    (last : k.multiplicative? = none) (h : k :: rest ∈ moreTerm K) : k :: rest ∈ K := by
  rcases h with mem | ⟨_, _, sign, _, eq⟩
  · exact mem
  · cases eq; simp [last] at sign

theorem mem_moreTerm_more {k : TokenKind} {rest : List TokenKind} {K : Language TokenKind}
    (after : AfterTerm K) (sign : k.multiplicative?.isSome = true) (h : k :: rest ∈ moreTerm K) :
    rest ∈ lang .term * K := by
  rcases h with mem | ⟨_, _, _, mem, eq⟩
  · simp [after _ _ mem] at sign
  · cases eq; exact mem

theorem mem_moreExpr_last {k : TokenKind} {rest : List TokenKind} {K : Language TokenKind}
    (last : k.additive? = none) (h : k :: rest ∈ moreExpr K) : k :: rest ∈ K := by
  rcases h with mem | ⟨_, _, sign, _, eq⟩
  · exact mem
  · cases eq; simp [last] at sign

theorem mem_moreExpr_more {k : TokenKind} {rest : List TokenKind} {K : Language TokenKind}
    (after : AfterExpression K) (sign : k.additive?.isSome = true) (h : k :: rest ∈ moreExpr K) :
    rest ∈ lang .expr * K := by
  rcases h with mem | ⟨_, _, _, mem, eq⟩
  · simp [after.additive _ _ mem] at sign
  · cases eq; exact mem

theorem term_splits (unaries : UnarySplits n) (terms : TermSplits n) : TermSplits (n + 1) := by
  intro u next a K after phrase
  refine .restrict (fun rest => mem_term.1) ?_
  cases phrase with
  | last left other =>
    exact (unaries _ left).followed fun rest => mem_moreTerm_last other
  | @more _ start sign _ u v operator a b left kind right =>
    rw [kinds, List.map_append]
    exact (unaries sign.kind left).append
      (.cons (fun rest => mem_moreTerm_more after (by simp [kind])) (terms after right))

theorem expression_splits (terms : TermSplits n) (expressions : ExpressionSplits n) :
    ExpressionSplits (n + 1) := by
  intro u next a K after phrase
  refine .restrict (fun rest => mem_expr.1) ?_
  cases phrase with
  | last left other =>
    exact (terms after.moreExpr left).followed fun rest => mem_moreExpr_last other
  | @more _ start sign _ u v operator a b left kind right =>
    rw [kinds, List.map_append]
    exact (terms after.moreExpr left).append
      (.cons (fun rest => mem_moreExpr_more after (by simp [kind])) (expressions after right))

theorem arithmetic_splits (n : Nat) :
    FactorSplits n ∧ UnarySplits n ∧ TermSplits n ∧ ExpressionSplits n := by
  induction n with
  | zero =>
    exact ⟨fun _ phrase => (nomatch phrase), fun _ phrase => (nomatch phrase),
      fun _ phrase => (nomatch phrase), fun _ phrase => (nomatch phrase)⟩
  | succ n ih =>
    obtain ⟨factors, unaries, terms, expressions⟩ := ih
    exact ⟨factor_splits factors expressions, unary_splits factors unaries,
      term_splits unaries terms, expression_splits terms expressions⟩

def FactorStuck (n : Nat) : Prop :=
  ∀ {u t K}, StuckFactor n u t → Splits (kinds u) t.kind (lang .factor * K) 0

def UnaryStuck (n : Nat) : Prop :=
  ∀ {u t K}, StuckUnary n u t → Splits (kinds u) t.kind (lang .unary * K) 0

def TermStuck (n : Nat) : Prop :=
  ∀ {u t K}, AfterTerm K → StuckTerm n u t → Splits (kinds u) t.kind (lang .term * K) 0

def ExpressionStuck (n : Nat) : Prop :=
  ∀ {u t K}, AfterExpression K → StuckExpression n u t →
    Splits (kinds u) t.kind (lang .expr * K) 0

theorem factor_stuck (factors : FactorStuck n) (expressions : ExpressionStuck n) :
    FactorStuck (n + 1) := by
  intro u t K phrase
  have after : AfterExpression ({[.rightParen]} * K) := afterExpression_token rfl rfl
  cases phrase with
  | start other =>
    refine .nil fun rest mem => ?_
    rw [starts_of_mem_factor mem] at other
    cases other
  | @castEnd _ opening word _ target left cast other =>
    exact splits_cast left cast (.otherToken other)
  | @operand _ opening word closing _ target u left cast right operand =>
    exact splits_cast left cast (.token right (factors operand))
  | @inner _ opening _ u left cast inner =>
    refine .consSeeing (fun rest mem => ?_) (expressions after inner)
    simp only [left] at mem
    exact mem_factor_group (headD_kinds u t ▸ cast) mem
  | @groupEnd _ opening _ u a left inner other =>
    have cast := (TokenKind.no_word_of_starts (inner.starts t)).1
    refine .consSeeing (fun rest mem => ?_) (((arithmetic_splits n).2.2.2 after inner).before other)
    simp only [left] at mem
    exact mem_factor_group (headD_kinds u t ▸ cast) mem

theorem unary_stuck (factors : FactorStuck n) (unaries : UnaryStuck n) : UnaryStuck (n + 1) := by
  intro u t K phrase
  cases phrase with
  | factor unsigned phrase =>
    exact .restrict (fun rest => mem_unary_factor (headD_kinds u t ▸ unsigned)) (factors phrase)
  | signed sign operand =>
    exact .cons (fun rest => mem_unary_signed (by simp [sign])) (unaries operand)

theorem term_stuck (unaries : UnaryStuck n) (terms : TermStuck n) : TermStuck (n + 1) := by
  intro u t K after phrase
  refine .restrict (fun rest => mem_term.1) ?_
  cases phrase with
  | left stuck => exact unaries stuck
  | @right _ sign _ u v operator a left kind right =>
    rw [kinds, List.map_append]
    exact ((arithmetic_splits n).2.1 sign.kind left).append
      (.cons (fun rest => mem_moreTerm_more after (by simp [kind])) (terms after right))

theorem expression_stuck (terms : TermStuck n) (expressions : ExpressionStuck n) :
    ExpressionStuck (n + 1) := by
  intro u t K after phrase
  refine .restrict (fun rest => mem_expr.1) ?_
  cases phrase with
  | left stuck => exact terms after.moreExpr stuck
  | @right _ sign _ u v operator a left kind right =>
    rw [kinds, List.map_append]
    exact ((arithmetic_splits n).2.2.1 after.moreExpr left).append
      (.cons (fun rest => mem_moreExpr_more after (by simp [kind])) (expressions after right))

theorem arithmetic_stuck (n : Nat) :
    FactorStuck n ∧ UnaryStuck n ∧ TermStuck n ∧ ExpressionStuck n := by
  induction n with
  | zero =>
    exact ⟨fun phrase => (nomatch phrase), fun phrase => (nomatch phrase),
      fun _ phrase => (nomatch phrase), fun _ phrase => (nomatch phrase)⟩
  | succ n ih =>
    obtain ⟨factors, unaries, terms, expressions⟩ := ih
    exact ⟨factor_stuck factors expressions, unary_stuck factors unaries,
      term_stuck unaries terms, expression_stuck terms expressions⟩

theorem condition_splits {c : Condition Node} {K : Language TokenKind} (after : AfterExpression K)
    (phrase : IsCondition n u next c) :
    Splits (kinds u) next.kind (lang .condition * K) K := by
  cases phrase with
  | @odd n word _ u a odd operand =>
    refine .cons (fun rest mem => ?_) ((arithmetic_splits n).2.2.2 after operand)
    rw [odd] at mem
    exact mem_condition_odd mem
  | @compare n start sign _ u v operator a b left kind right =>
    have noOdd := (TokenKind.no_word_of_starts (left.starts sign)).2
    refine .restrict (fun rest => mem_condition_compare noOdd) ?_
    rw [kinds, List.map_append]
    exact ((arithmetic_splits n).2.2.2 (afterExpression_compared K) left).append
      (.cons (fun rest => mem_compared) ((arithmetic_splits n).2.2.2 after right))

theorem condition_stuck {K : Language TokenKind} (after : AfterExpression K)
    (phrase : StuckCondition n u t) : Splits (kinds u) t.kind (lang .condition * K) 0 := by
  cases phrase with
  | @odd n word _ u odd stuck =>
    refine .cons (fun rest mem => ?_) ((arithmetic_stuck n).2.2.2 after stuck)
    rw [odd] at mem
    exact mem_condition_odd mem
  | @left n _ u noOdd stuck =>
    exact .restrict (fun rest => mem_condition_compare (headD_kinds u t ▸ noOdd))
      ((arithmetic_stuck n).2.2.2 (afterExpression_compared K) stuck)
  | @sign n _ u a left other =>
    have noOdd := (TokenKind.no_word_of_starts (left.starts t)).2
    refine .restrict (fun rest => mem_condition_compare (headD_kinds u t ▸ noOdd)) ?_
    refine ((arithmetic_splits n).2.2.2 (afterExpression_compared K) left).followed ?_
    rintro rest ⟨_, _, sign, _, eq⟩
    cases eq
    simp [other] at sign
  | @right n sign _ u v operator a left kind right =>
    have noOdd := (TokenKind.no_word_of_starts (left.starts sign)).2
    have head : (kinds (u ++ sign :: v)).headD t.kind = (u.headD sign).kind := by
      rw [headD_kinds, headD_append, List.headD_cons]
    refine .restrict (fun rest => mem_condition_compare (head ▸ noOdd)) ?_
    rw [kinds, List.map_append]
    exact ((arithmetic_splits n).2.2.2 (afterExpression_compared K) left).append
      (.cons (fun rest => mem_compared) ((arithmetic_stuck n).2.2.2 after right))

end Arithmetic

section Chains

variable {α : Type} {Item : Nat → List Token → Token → α → Prop}
  {Stuck : Nat → List Token → Token → Prop} {separator : TokenKind} {n : Nat} {u : List Token}
  {t next : Token} {I M : Language TokenKind}

theorem chain_splits (other : ∀ v, separator :: v ∉ M)
    (item : ∀ {u next a}, Item n u next a →
      Splits (kinds u) next.kind (I * following separator I M) (following separator I M))
    {as : List α} (phrase : Chain Item separator (n + 1) u next as) :
    Splits (kinds u) next.kind (I * following separator I M) M := by
  generalize fuel : n + 1 = m at phrase
  induction phrase with
  | last phrase kind =>
    cases fuel
    refine (item phrase).followed fun rest mem => ?_
    rcases mem_following.1 mem with mem | ⟨_, _, eq⟩
    · exact mem
    · exact absurd (List.cons.inj eq).1 kind
  | @more _ u v mark _ a as phrase kind _ ih =>
    cases fuel
    rw [kinds, List.map_append]
    refine (item phrase).append (.cons (fun rest mem => ?_) (ih rfl))
    rcases mem_following.1 mem with mem | ⟨_, mem, eq⟩
    · exact absurd (kind ▸ mem) (other rest)
    · cases eq; exact mem

theorem chain_stuck (other : ∀ v, separator :: v ∉ M)
    (item : ∀ {u next a}, Item n u next a →
      Splits (kinds u) next.kind (I * following separator I M) (following separator I M))
    (stuck : ∀ {u t}, Stuck n u t →
      Splits (kinds u) t.kind (I * following separator I M) 0)
    (phrase : StuckChain Item Stuck separator (n + 1) u t) :
    Splits (kinds u) t.kind (I * following separator I M) 0 := by
  generalize fuel : n + 1 = m at phrase
  induction phrase with
  | item phrase =>
    cases fuel
    exact stuck phrase
  | @later _ u v mark _ a phrase kind _ ih =>
    cases fuel
    rw [kinds, List.map_append]
    refine (item phrase).append (.cons (fun rest mem => ?_) (ih rfl))
    rcases mem_following.1 mem with mem | ⟨_, mem, eq⟩
    · exact absurd (kind ▸ mem) (other rest)
    · cases eq; exact mem

end Chains

section Groups

variable {n : Nat} {u : List Token} {t next : Token} {a : Node} {K : Language TokenKind}

theorem mem_literal_cons {k : TokenKind} {rest : List TokenKind}
    (h : k :: rest ∈ lang .literal * K) : k.literalType?.isSome = true ∧ rest ∈ K := by
  obtain ⟨_, _, literal, mem, eq⟩ := mem_literal.1 h
  cases eq; exact ⟨literal, mem⟩

theorem constant_splits {d : VariableDeclaration} (phrase : IsConstant n u next d) :
    Splits (kinds u) next.kind (constantWords * K) K := by
  rw [constantWords, mul_assoc, mul_assoc]
  cases phrase with
  | mk name sign literal =>
    exact .token name (.token sign (.cons (fun rest mem => (mem_literal_cons mem).2)
      (.nil fun _ => id)))

theorem constant_stuck (phrase : StuckConstant n u t) :
    Splits (kinds u) t.kind (constantWords * K) 0 := by
  rw [constantWords, mul_assoc, mul_assoc]
  cases phrase with
  | name other => exact .otherToken other
  | sign name other => exact .token name (.otherToken other)
  | value name sign other =>
    refine .token name (.token sign (.nil fun rest mem => ?_))
    simpa [other] using (mem_literal_cons mem).1

theorem variable_splits {d : VariableDeclaration} (phrase : IsVariable n u next d) :
    Splits (kinds u) next.kind (variableWords * K) K := by
  cases phrase with
  | mk name => exact .token name (.nil fun _ => id)

theorem variable_stuck (phrase : StuckVariable n u t) :
    Splits (kinds u) t.kind (variableWords * K) 0 := by
  cases phrase with
  | name other => exact .otherToken other

variable {word : TokenKind} {Item : Nat → List Token → Token → VariableDeclaration → Prop}
  {Stuck : Nat → List Token → Token → Prop} {I : Language TokenKind}

theorem comma_not_mem (v : List TokenKind) : .comma :: v ∉ ({[.semicolon]} : Language TokenKind) * K := by
  intro mem
  obtain ⟨_, _, eq⟩ := mem_token_mul.1 mem
  cases eq

theorem group_splits (item : ∀ {u next d K}, Item 0 u next d → Splits (kinds u) next.kind (I * K) K)
    (phrase : IsGroup word Item u a) (t : TokenKind) :
    Splits (kinds u) t ({[word]} * grouped I K) K := by
  cases phrase with
  | @mk start finish u group kind chain mark =>
    refine .token kind ?_
    rw [List.map_append]
    exact (chain_splits comma_not_mem item chain).append (.token mark (.nil fun _ => id))

theorem group_stuck (item : ∀ {u next d K}, Item 0 u next d → Splits (kinds u) next.kind (I * K) K)
    (stuck : ∀ {u t K}, Stuck 0 u t → Splits (kinds u) t.kind (I * K) 0)
    (phrase : StuckGroup word Item Stuck u t) :
    Splits (kinds u) t.kind ({[word]} * grouped I K) 0 := by
  cases phrase with
  | item kind chain => exact .token kind (chain_stuck comma_not_mem item stuck chain)
  | finish kind chain other =>
    exact .token kind ((chain_splits comma_not_mem item chain).before other)

theorem optionalGroup_splits {as : List Node}
    (item : ∀ {u next d K}, Item 0 u next d → Splits (kinds u) next.kind (I * K) K)
    (other : ∀ v, word :: v ∉ K) (phrase : Optional word (IsGroup word Item) u next as) :
    Splits (kinds u) next.kind (declared word I K) K := by
  cases phrase with
  | absent absent =>
    refine .nil fun rest mem => ?_
    rcases mem with mem | mem
    · exact mem
    · obtain ⟨_, _, eq⟩ := mem_token_mul.1 mem
      exact absurd (List.cons.inj eq).1 absent
  | present phrase =>
    refine .restrict (fun rest mem => ?_) (group_splits item phrase next.kind)
    rw [headD_kinds, phrase.starts] at mem ⊢
    exact mem.resolve_left (other rest)

theorem optionalGroup_stuck
    (item : ∀ {u next d K}, Item 0 u next d → Splits (kinds u) next.kind (I * K) K)
    (stuck : ∀ {u t K}, Stuck 0 u t → Splits (kinds u) t.kind (I * K) 0)
    (other : ∀ v, word :: v ∉ K) (phrase : StuckGroup word Item Stuck u t) :
    Splits (kinds u) t.kind (declared word I K) 0 := by
  refine .restrict (fun rest mem => ?_) (group_stuck (K := K) item stuck phrase)
  rw [headD_kinds, phrase.starts] at mem ⊢
  exact mem.resolve_left (other rest)

end Groups

structure AfterStatement (K : Language TokenKind) : Prop where
  expression : AfterExpression K
  statement : ∀ k v, k.startsStatement = true → k :: v ∈ K → v ∈ statementRest K k

section Statements

variable {n : Nat} {K : Language TokenKind}

theorem mem_listed_cons {k : TokenKind} {rest : List TokenKind} (h : k :: rest ∈ listed K) :
    k = .semicolon ∨ k = .endWord := by
  rcases mem_following.1 h with mem | ⟨_, _, eq⟩
  · obtain ⟨_, _, eq⟩ := mem_token_mul.1 mem
    cases eq; exact .inr rfl
  · cases eq; exact .inl rfl

theorem afterStatement_listed (K : Language TokenKind) : AfterStatement (listed K) := by
  refine ⟨⟨fun k v mem => ?_, fun k v mem => ?_⟩, fun k v starts mem => ?_⟩
  · rcases mem_listed_cons mem with rfl | rfl <;> rfl
  · rcases mem_listed_cons mem with rfl | rfl <;> rfl
  · rcases mem_listed_cons mem with rfl | rfl <;> cases starts

theorem mem_statementRest {k k' : TokenKind} {rest : List TokenKind} (after : AfterStatement K)
    (same : k = k') (starts : k'.startsStatement = true) (h : k :: rest ∈ lang .statement * K) :
    rest ∈ statementRest K k' := by
  subst same
  rcases mem_statement.1 h with ⟨_, _, mem, eq⟩ | mem
  · cases eq; exact mem
  · exact after.statement k rest starts mem

theorem semicolon_not_mem (v : List TokenKind) :
    .semicolon :: v ∉ ({[.endWord]} : Language TokenKind) * K := by
  intro mem
  obtain ⟨_, _, eq⟩ := mem_token_mul.1 mem
  cases eq

def StatementSplits (n : Nat) : Prop :=
  ∀ {u next a K}, AfterStatement K → IsStatement n u next a →
    Splits (kinds u) next.kind (lang .statement * K) K

def SequenceSplits (n : Nat) : Prop :=
  ∀ {u a K} (t : TokenKind), IsSequence n u a →
    Splits (kinds u) t ({[.beginWord]} * (lang .statement * listed K)) K

theorem statement_splits (statements : StatementSplits n) (sequences : SequenceSplits n) :
    StatementSplits (n + 1) := by
  have expressions := @(arithmetic_splits n).2.2.2
  intro u next a K after phrase
  cases phrase with
  | assignment name sign assigned =>
    exact .cons (fun _ => mem_statementRest after name rfl)
      (.token sign (expressions after.expression assigned))
  | call word name =>
    exact .cons (fun _ => mem_statementRest after word rfl) (.token name (.nil fun _ => id))
  | input mark name =>
    exact .cons (fun _ => mem_statementRest after mark rfl) (.token name (.nil fun _ => id))
  | print mark printed =>
    exact .cons (fun _ => mem_statementRest after mark rfl) (expressions after.expression printed)
  | sequence phrase =>
    refine .restrict (fun rest mem => ?_) (sequences _ phrase)
    rw [headD_kinds, phrase.starts] at mem ⊢
    exact mem_token_mul.2 ⟨_, mem_statementRest after rfl rfl mem, rfl⟩
  | conditional ifs test link inner =>
    rw [kinds, List.map_cons, List.map_append]
    exact .cons (fun _ => mem_statementRest after ifs rfl)
      ((condition_splits afterExpression_then test).append
        (.token link (statements after inner)))
  | loop whiles test link inner =>
    rw [kinds, List.map_cons, List.map_append]
    exact .cons (fun _ => mem_statementRest after whiles rfl)
      ((condition_splits afterExpression_do test).append
        (.token link (statements after inner)))
  | nothing other =>
    refine .nil fun rest mem => ?_
    rcases mem_statement.1 mem with ⟨_, _, word, eq⟩ | mem
    · cases eq
      rw [starts_of_mem_statementRest word] at other
      cases other
    · exact mem

theorem sequence_splits (statements : StatementSplits n) : SequenceSplits (n + 1) := by
  intro u a K t phrase
  cases phrase with
  | @mk _ word finish u body kind chain mark =>
    rw [kinds, List.map_cons, List.map_append]
    have item {u next a} (phrase : IsStatement n u next a) :
        Splits (kinds u) next.kind (lang .statement * listed K) (listed K) :=
      statements (afterStatement_listed K) phrase
    exact .token kind ((chain_splits semicolon_not_mem item chain).append
      (.token mark (.nil fun _ => id)))

theorem statements_split (n : Nat) : StatementSplits n ∧ SequenceSplits n := by
  induction n with
  | zero => exact ⟨fun _ phrase => (nomatch phrase), fun _ phrase => (nomatch phrase)⟩
  | succ n ih => exact ⟨statement_splits ih.1 ih.2, sequence_splits ih.1⟩

def StatementStuck (n : Nat) : Prop :=
  ∀ {u t K}, AfterStatement K → StuckStatement n u t →
    Splits (kinds u) t.kind (lang .statement * K) 0

def SequenceStuck (n : Nat) : Prop :=
  ∀ {u t K}, StuckSequence n u t →
    Splits (kinds u) t.kind ({[.beginWord]} * (lang .statement * listed K)) 0

theorem statement_stuck (statements : StatementStuck n) (sequences : SequenceStuck n) :
    StatementStuck (n + 1) := by
  have expressions := @(arithmetic_stuck n).2.2.2
  intro u t K after phrase
  cases phrase with
  | assign name other =>
    exact .cons (fun _ => mem_statementRest after name rfl) (.otherToken other)
  | assigned name sign stuck =>
    exact .cons (fun _ => mem_statementRest after name rfl)
      (.token sign (expressions after.expression stuck))
  | call word other =>
    exact .cons (fun _ => mem_statementRest after word rfl) (.otherToken other)
  | input mark other =>
    exact .cons (fun _ => mem_statementRest after mark rfl) (.otherToken other)
  | print mark stuck =>
    exact .cons (fun _ => mem_statementRest after mark rfl) (expressions after.expression stuck)
  | sequence starts stuck =>
    refine .restrict (fun rest mem => ?_) (sequences (K := K) stuck)
    rw [headD_kinds, starts] at mem ⊢
    exact mem_token_mul.2 ⟨_, mem_statementRest after rfl rfl mem, rfl⟩
  | condition word stuck =>
    rcases word with word | word
    · exact .cons (fun _ => mem_statementRest after word rfl)
        (condition_stuck afterExpression_then stuck)
    · exact .cons (fun _ => mem_statementRest after word rfl)
        (condition_stuck afterExpression_do stuck)
  | thenLink word test other =>
    exact .cons (fun _ => mem_statementRest after word rfl)
      ((condition_splits afterExpression_then test).before other)
  | doLink word test other =>
    exact .cons (fun _ => mem_statementRest after word rfl)
      ((condition_splits afterExpression_do test).before other)
  | thenBody word test link stuck =>
    rw [kinds, List.map_cons, List.map_append]
    exact .cons (fun _ => mem_statementRest after word rfl)
      ((condition_splits afterExpression_then test).append
        (.token link (statements after stuck)))
  | doBody word test link stuck =>
    rw [kinds, List.map_cons, List.map_append]
    exact .cons (fun _ => mem_statementRest after word rfl)
      ((condition_splits afterExpression_do test).append
        (.token link (statements after stuck)))

theorem sequence_stuck (statements : StatementStuck n) : SequenceStuck (n + 1) := by
  intro u t K phrase
  have item {u next a} (phrase : IsStatement n u next a) :
      Splits (kinds u) next.kind (lang .statement * listed K) (listed K) :=
    (statements_split n).1 (afterStatement_listed K) phrase
  have inner {u t} (phrase : StuckStatement n u t) :
      Splits (kinds u) t.kind (lang .statement * listed K) 0 :=
    statements (afterStatement_listed K) phrase
  cases phrase with
  | item kind chain => exact .token kind (chain_stuck semicolon_not_mem item inner chain)
  | finish kind chain other =>
    exact .token kind ((chain_splits semicolon_not_mem item chain).before other)

theorem statements_stuck (n : Nat) : StatementStuck n ∧ SequenceStuck n := by
  induction n with
  | zero => exact ⟨fun _ phrase => (nomatch phrase), fun phrase => (nomatch phrase)⟩
  | succ n ih => exact ⟨statement_stuck ih.1 ih.2, sequence_stuck ih.1⟩

end Statements

structure AfterBlock (K : Language TokenKind) : Prop where
  expression : AfterExpression K
  declaration : ∀ k v, k :: v ∈ K → k ≠ .constWord ∧ k ≠ .varWord
  procedure : ∀ v, .procedureWord :: v ∈ K →
    .procedureWord :: v ∈ lang .procedureDecl * afterVariables K
  statement : ∀ k v, k.startsStatement = true → k :: v ∈ K → v ∈ statementRest (afterBody K) k
  semicolon : ∀ v, .semicolon :: v ∈ K → v ∈ K

section Blocks

variable {n : Nat} {u : List Token} {t next : Token} {K : Language TokenKind}

theorem mem_afterVariables {w : List TokenKind} : w ∈ afterVariables K ↔
    w ∈ lang .statement * afterBody K ∨ w ∈ lang .procedureDecl * afterVariables K :=
  mem_kstar_mul

theorem mem_afterVariables_of_mem {w : List TokenKind} (h : w ∈ K) : w ∈ afterVariables K :=
  mem_afterVariables.2 (.inl (mem_statement.2 (.inr (mem_afterBody.2 (.inl h)))))

theorem mem_afterVariables_cases {k : TokenKind} {v : List TokenKind}
    (h : k :: v ∈ afterVariables K) :
    (k = .procedureWord ∧ k :: v ∈ lang .procedureDecl * afterVariables K) ∨
    (k.startsStatement = true ∧ v ∈ statementRest (afterBody K) k) ∨
    (k = .semicolon ∧ v ∈ K) ∨ k :: v ∈ K := by
  rcases mem_afterVariables.1 h with body | procedure
  · rcases mem_statement.1 body with ⟨_, _, rest, eq⟩ | mem
    · cases eq
      exact .inr (.inl ⟨starts_of_mem_statementRest rest, rest⟩)
    · rcases mem_afterBody.1 mem with mem | ⟨_, mem, eq⟩
      · exact .inr (.inr (.inr mem))
      · cases eq
        exact .inr (.inr (.inl ⟨rfl, mem⟩))
  · obtain ⟨_, _, eq⟩ := mem_procedureDecl.1 procedure
    exact .inl ⟨(List.cons.inj eq).1, procedure⟩

theorem AfterBlock.mem_procedures {v : List TokenKind} (after : AfterBlock K)
    (h : .procedureWord :: v ∈ afterVariables K) :
    .procedureWord :: v ∈ lang .procedureDecl * afterVariables K := by
  rcases mem_afterVariables_cases h with ⟨_, mem⟩ | ⟨starts, _⟩ | ⟨eq, _⟩ | mem
  · exact mem
  · cases starts
  · cases eq
  · exact after.procedure v mem

theorem AfterBlock.body (after : AfterBlock K) : AfterStatement (afterBody K) := by
  refine ⟨⟨fun k v mem => ?_, fun k v mem => ?_⟩, fun k v starts mem => ?_⟩
  · rcases mem_afterBody.1 mem with mem | ⟨_, _, eq⟩
    · exact after.expression.multiplicative k v mem
    · cases eq; rfl
  · rcases mem_afterBody.1 mem with mem | ⟨_, _, eq⟩
    · exact after.expression.additive k v mem
    · cases eq; rfl
  · rcases mem_afterBody.1 mem with mem | ⟨_, _, eq⟩
    · exact after.statement k v starts mem
    · cases eq; cases starts

-- A block inside a block: what may follow the inner one is what is left of the outer one.
theorem AfterBlock.inner (after : AfterBlock K) : AfterBlock (afterVariables K) := by
  have wider {w : List TokenKind} (mem : w ∈ afterBody K) :
      w ∈ afterBody (afterVariables K) := by
    rcases mem_afterBody.1 mem with mem | ⟨v, mem, eq⟩
    · exact mem_afterBody.2 (.inl (mem_afterVariables_of_mem mem))
    · exact mem_afterBody.2 (.inr ⟨v, mem_afterVariables_of_mem mem, eq⟩)
  refine ⟨⟨fun k v mem => ?_, fun k v mem => ?_⟩, fun k v mem => ?_, fun v mem => ?_,
    fun k v starts mem => ?_, fun v mem => ?_⟩
  · rcases mem_afterVariables_cases mem with ⟨rfl, _⟩ | ⟨starts, _⟩ | ⟨rfl, _⟩ | mem
    · rfl
    · cases k <;> simp_all [TokenKind.startsStatement, TokenKind.multiplicative?]
    · rfl
    · exact after.expression.multiplicative k v mem
  · rcases mem_afterVariables_cases mem with ⟨rfl, _⟩ | ⟨starts, _⟩ | ⟨rfl, _⟩ | mem
    · rfl
    · cases k <;> simp_all [TokenKind.startsStatement, TokenKind.additive?]
    · rfl
    · exact after.expression.additive k v mem
  · rcases mem_afterVariables_cases mem with ⟨rfl, _⟩ | ⟨starts, _⟩ | ⟨rfl, _⟩ | mem
    · simp
    · cases k <;> simp_all [TokenKind.startsStatement]
    · simp
    · exact after.declaration k v mem
  · exact mem_mul_mono (fun _ => mem_afterVariables_of_mem) (after.mem_procedures mem)
  · rcases mem_afterVariables_cases mem with ⟨rfl, _⟩ | ⟨_, rest⟩ | ⟨rfl, _⟩ | mem
    · cases starts
    · exact statementRest_mono (fun _ => wider) rest
    · cases starts
    · exact statementRest_mono (fun _ => wider) (after.statement k v starts mem)
  · rcases mem_afterVariables_cases mem with ⟨eq, _⟩ | ⟨starts, _⟩ | ⟨_, mem⟩ | mem
    · cases eq
    · cases starts
    · exact mem_afterVariables_of_mem mem
    · exact mem_afterVariables_of_mem (after.semicolon v mem)

theorem AfterBlock.no_var (after : AfterBlock K) (v : List TokenKind) :
    .varWord :: v ∉ afterVariables K :=
  fun mem => (after.inner.declaration _ v mem).2 rfl

theorem AfterBlock.no_const (after : AfterBlock K) (v : List TokenKind) :
    .constWord :: v ∉ declared .varWord variableWords (afterVariables K) := by
  rintro (mem | mem)
  · exact (after.inner.declaration _ v mem).1 rfl
  · obtain ⟨_, _, eq⟩ := mem_token_mul.1 mem
    cases eq

def BlockSplits (n : Nat) : Prop :=
  ∀ {outermost u next b K}, AfterBlock K → IsBlock n outermost u next b →
    Splits (kinds u) next.kind (lang .block * K) K

def ProcedureSplits (n : Nat) : Prop :=
  ∀ {u next a K}, AfterBlock K → IsProcedure n u next a →
    Splits (kinds u) next.kind (lang .procedureDecl * K) K

theorem procedures_split (procedures : ProcedureSplits n) (after : AfterBlock K) {as : List Node}
    (phrase : AreProcedures n u next as) :
    Splits (kinds u) next.kind (afterVariables K)
      (lang .statement * afterBody K) := by
  induction as generalizing u with
  | nil =>
    cases phrase with
    | none other =>
      refine .nil fun rest mem => ?_
      rcases mem_afterVariables.1 mem with mem | mem
      · exact mem
      · obtain ⟨_, _, eq⟩ := mem_procedureDecl.1 mem
        exact absurd (List.cons.inj eq).1 other
  | cons a as ih =>
    cases phrase with
    | @more _ u v _ _ _ item rest =>
      refine splits_append (.restrict (fun w mem => ?_) (procedures after.inner item)) (ih rest)
      rw [headD_kinds, item.starts] at mem ⊢
      exact after.mem_procedures mem

theorem declarations_split (procedures : ProcedureSplits n) (after : AfterBlock K)
    {nodes : List Node} (phrase : AreDeclarations n u next nodes) :
    Splits (kinds u) next.kind (lang .block * K) (lang .statement * afterBody K) := by
  rw [block_mul]
  cases phrase with
  | @mk _ u v w _ _ _ _ constants vars phrase =>
    exact splits_append (optionalGroup_splits constant_splits after.no_const constants)
      (splits_append (optionalGroup_splits variable_splits after.no_var vars)
        (procedures_split procedures after phrase))

theorem skipped_splits (after : AfterBlock K) (phrase : Skipped .semicolon u next) :
    Splits (kinds u) next.kind (afterBody K) K := by
  cases phrase with
  | absent other =>
    refine .nil fun rest mem => ?_
    rcases mem_afterBody.1 mem with mem | ⟨_, _, eq⟩
    · exact mem
    · exact absurd (List.cons.inj eq).1 other
  | present mark =>
    refine .cons (fun rest mem => ?_) (.nil fun _ => id)
    rw [mark] at mem
    rcases mem_afterBody.1 mem with mem | ⟨_, mem, eq⟩
    · exact after.semicolon rest mem
    · cases eq; exact mem

theorem block_splits (procedures : ProcedureSplits n) : BlockSplits (n + 1) := by
  intro outermost u next b K after phrase
  cases phrase with
  | @mk _ _ u v w _ _ _ declared body finish =>
    exact splits_append (declarations_split procedures after declared)
      (splits_append ((statements_split n).1 after.body body) (skipped_splits after finish))

theorem mem_procedureRest {k : TokenKind} {rest : List TokenKind} (kind : k = .procedureWord)
    (h : k :: rest ∈ lang .procedureDecl * K) :
    rest ∈ ({[.name]} : Language TokenKind) * ({[.semicolon]} * (lang .block * K)) := by
  obtain ⟨v, mem, eq⟩ := mem_procedureDecl.1 h
  cases eq
  exact mem_token_mul.2 ⟨_, mem_token_mul.2 ⟨v, mem, rfl⟩, rfl⟩

theorem procedure_splits (blocks : BlockSplits n) : ProcedureSplits (n + 1) := by
  intro u next a K after phrase
  cases phrase with
  | mk word name mark body =>
    exact .cons (fun _ => mem_procedureRest word)
      (.token name (.token mark (blocks after body)))

theorem blocks_split (n : Nat) : BlockSplits n ∧ ProcedureSplits n := by
  induction n with
  | zero => exact ⟨fun _ phrase => (nomatch phrase), fun _ phrase => (nomatch phrase)⟩
  | succ n ih => exact ⟨block_splits ih.2, procedure_splits ih.1⟩

def BlockStuck (n : Nat) : Prop :=
  ∀ {u t K}, AfterBlock K → StuckBlock n u t → Splits (kinds u) t.kind (lang .block * K) 0

def ProcedureStuck (n : Nat) : Prop :=
  ∀ {u t K}, AfterBlock K → StuckProcedure n u t →
    Splits (kinds u) t.kind (lang .procedureDecl * K) 0

theorem procedures_stuck (procedures : ProcedureStuck n) (after : AfterBlock K)
    (phrase : StuckProcedures n u t) : Splits (kinds u) t.kind (afterVariables K) 0 := by
  generalize length : u.length = m
  induction m using Nat.strong_induction_on generalizing u with
  | h m ih =>
    cases phrase with
    | item starts stuck =>
      refine .restrict (fun rest mem => ?_) (procedures after.inner stuck)
      rw [headD_kinds, starts] at mem ⊢
      exact after.mem_procedures mem
    | @later _ u v _ a item rest =>
      have shorter : v.length < m := by
        have := List.length_pos_iff.2 item.ne_nil
        simp only [List.length_append] at length
        omega
      refine splits_append (.restrict (fun w mem => ?_) ((blocks_split n).2 after.inner item))
        (ih _ shorter rest rfl)
      rw [headD_kinds, item.starts] at mem ⊢
      exact after.mem_procedures mem

theorem declarations_stuck (procedures : ProcedureStuck n) (after : AfterBlock K)
    (phrase : StuckDeclarations n u t) : Splits (kinds u) t.kind (lang .block * K) 0 := by
  rw [block_mul]
  cases phrase with
  | constants stuck => exact optionalGroup_stuck constant_splits constant_stuck after.no_const stuck
  | @vars _ u v _ _ constants stuck =>
    exact splits_append (optionalGroup_splits constant_splits after.no_const constants)
      (optionalGroup_stuck variable_splits variable_stuck after.no_var stuck)
  | @procedures _ u v w _ _ _ constants vars stuck =>
    exact splits_append (optionalGroup_splits constant_splits after.no_const constants)
      (splits_append (optionalGroup_splits variable_splits after.no_var vars)
        (procedures_stuck procedures after stuck))

theorem block_stuck (procedures : ProcedureStuck n) : BlockStuck (n + 1) := by
  intro u t K after phrase
  cases phrase with
  | declarations stuck => exact declarations_stuck procedures after stuck
  | @statement _ u v _ _ declared stuck =>
    exact splits_append (declarations_split (blocks_split n).2 after declared)
      ((statements_stuck n).1 after.body stuck)

theorem procedure_stuck (blocks : BlockStuck n) : ProcedureStuck (n + 1) := by
  intro u t K after phrase
  cases phrase with
  | name word other => exact .cons (fun _ => mem_procedureRest word) (.otherToken other)
  | mark word name other =>
    exact .cons (fun _ => mem_procedureRest word) (.token name (.otherToken other))
  | block word name mark stuck =>
    exact .cons (fun _ => mem_procedureRest word)
      (.token name (.token mark (blocks after stuck)))

theorem blocks_stuck (n : Nat) : BlockStuck n ∧ ProcedureStuck n := by
  induction n with
  | zero => exact ⟨fun _ phrase => (nomatch phrase), fun _ phrase => (nomatch phrase)⟩
  | succ n ih => exact ⟨block_stuck ih.2, procedure_stuck ih.1⟩

theorem afterBlock_dot (K : Language TokenKind) : AfterBlock ({[.dot]} * K) := by
  have head {k : TokenKind} {v : List TokenKind} (mem : k :: v ∈ ({[.dot]} : Language _) * K) :
      k = .dot := by
    obtain ⟨_, _, eq⟩ := mem_token_mul.1 mem
    exact (List.cons.inj eq).1
  refine ⟨afterExpression_token rfl rfl, fun k v mem => ?_, fun v mem => ?_,
    fun k v starts mem => ?_, fun v mem => ?_⟩
  · cases head mem; simp
  · cases head mem
  · cases head mem; cases starts
  · cases head mem

theorem program_stuck (phrase : StuckProgram n u t) :
    Splits (kinds u) t.kind (lang .program * {[.eof]}) 0 := by
  refine .restrict (fun rest => mem_program.1) ?_
  have after := afterBlock_dot {[.eof]}
  cases phrase with
  | block stuck => exact (blocks_stuck n).1 after stuck
  | point body other => exact ((blocks_split n).1 after body).before other
  | finish program other =>
    cases program with
    | mk body dot =>
      refine splits_append ((blocks_split n).1 after body) (.token dot (.nil fun rest mem => ?_))
      exact absurd (List.cons.inj mem).1 other

end Blocks

end Phrase

end PlZero
