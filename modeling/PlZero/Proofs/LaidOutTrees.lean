import PlZero.Proofs.TreeParts

set_option autoImplicit false

namespace PlZero

open Phrase

/-- A node is what a rule makes of these tokens, with a token after them. The parentheses around a
node are not among them, but those within it are: a binary node starts with the parentheses of its
left operand. -/
inductive ReadAs : List Token → Token → Node → Prop
  | identifier {t next : Token} : t.kind = .name → ReadAs [t] next (.identifier ⟨t.pos, t.text⟩)
  | literal {t next : Token} {type : DataType} : t.kind.literalType? = some type →
      ReadAs [t] next (.literal ⟨t.pos, type, t.text⟩)
  | cast {n : Nat} {opening word closing next : Token} {u : List Token} {target : DataType}
      {a : Node} : opening.kind = .leftParen → word.kind.castType? = some target →
      closing.kind = .rightParen → IsFactor n u a →
      ReadAs (opening :: word :: closing :: u) next (.typecast opening.pos target a)
  | signed {n : Nat} {sign next : Token} {u : List Token} {operator : UnaryOperator} {a : Node} :
      sign.kind.sign? = some operator → IsUnary n u a →
      ReadAs (sign :: u) next (.unary sign.pos operator a)
  | product {n : Nat} {start sign next : Token} {u v : List Token} {operator : BinaryOperator}
      {a b : Node} : IsUnary n (start :: u) a → sign.kind.multiplicative? = some operator →
      IsTerm n v next b → ReadAs (start :: u ++ sign :: v) next (.binary start.pos operator a b)
  | sum {n : Nat} {start sign next : Token} {u v : List Token} {operator : BinaryOperator}
      {a b : Node} : IsTerm n (start :: u) sign a → sign.kind.additive? = some operator →
      IsExpression n v next b →
      ReadAs (start :: u ++ sign :: v) next (.binary start.pos operator a b)
  | condition {n : Nat} {next : Token} {u : List Token} {c : Condition Node} :
      IsCondition n u next c → ReadAs u next (.condition c)
  | statement {n : Nat} {next : Token} {u : List Token} {a : Node} :
      IsStatement n u next (some a) → ReadAs u next a
  | constant {n : Nat} {next : Token} {u : List Token} {d : VariableDeclaration} :
      IsConstant n u next d → ReadAs u next (.declaration d)
  | declared {n : Nat} {next : Token} {u : List Token} {d : VariableDeclaration} :
      IsVariable n u next d → ReadAs u next (.declaration d)
  | constants {next : Token} {u : List Token} {a : Node} : IsGroup .constWord IsConstant u a →
      ReadAs u next a
  | vars {next : Token} {u : List Token} {a : Node} : IsGroup .varWord IsVariable u a →
      ReadAs u next a
  | procedure {n : Nat} {next : Token} {u : List Token} {a : Node} : IsProcedure n u next a →
      ReadAs u next a
  | block {n : Nat} {outermost : Bool} {next : Token} {u : List Token} {b : Block Node} :
      IsBlock n outermost u next b → ReadAs u next (.block b)
  | exit {next : Token} : next.kind = .dot → ReadAs [] next (.exitMarker next.pos)
  | program {n : Nat} {next : Token} {u : List Token} {p : Program} : IsProgram n u p →
      ReadAs u next p.node

theorem ReadAs.pos {u : List Token} {next : Token} {a : Node} (reads : ReadAs u next a) :
    a.pos = (u.headD next).pos := by
  cases reads with
  | identifier | literal | cast | signed | product | sum | exit => rfl
  | condition phrase | constant phrase | declared phrase | constants phrase | vars phrase
  | procedure phrase | block phrase => cases phrase <;> rfl
  | program phrase =>
    cases phrase with
    | mk => rw [headD_append]; rfl
  | statement phrase =>
    cases phrase with
    | sequence phrase => cases phrase; rfl
    | _ => rfl

theorem ReadAs.of_nil {next : Token} {a : Node} (reads : ReadAs [] next a) :
    (∃ b, a = .block b) ∨ a = .exitMarker next.pos := by
  cases reads with
  | block => exact .inl ⟨_, rfl⟩
  | exit => exact .inr rfl
  | program phrase =>
    generalize none : ([] : List Token) = u at phrase
    cases phrase
    exact absurd none.symm (List.append_ne_nil_of_right_ne_nil _ (List.cons_ne_nil _ _))
  | statement phrase | condition phrase | constant phrase | declared phrase | constants phrase
  | vars phrase | procedure phrase => nomatch phrase

/-- The trees lie in the tokens, one after another. Each is read from a run of them, and the trees
below it lie in this run. There may be other tokens between the runs. -/
inductive LaidOut : List Token → Token → List Node → Prop
  | nil {u : List Token} {next : Token} : LaidOut u next []
  | cons {gap u rest : List Token} {next : Token} {a : Node} {as : List Node} :
      ReadAs u (rest.headD next) a → LaidOut u (rest.headD next) a.children →
      LaidOut rest next as → LaidOut (gap ++ (u ++ rest)) next (a :: as)

namespace LaidOut

variable {u v : List Token} {next : Token} {a : Node} {as bs : List Node}

theorem one (reads : ReadAs u next a) (inside : LaidOut u next a.children) :
    LaidOut u next [a] := by
  have laid : LaidOut ([] ++ (u ++ [])) next [a] := .cons reads inside .nil
  rwa [List.nil_append, List.append_nil] at laid

theorem leaf (reads : ReadAs u next a) (none : a.children = []) : LaidOut u next [a] :=
  .one reads (none ▸ .nil)

theorem after (gap : List Token) (laid : LaidOut u next as) : LaidOut (gap ++ u) next as := by
  cases laid with
  | nil => exact .nil
  | cons reads inside later =>
    rw [← List.append_assoc]
    exact .cons reads inside later

theorem append (first : LaidOut u (v.headD next) as) (second : LaidOut v next bs) :
    LaidOut (u ++ v) next (as ++ bs) := by
  generalize follows : v.headD next = t at first
  induction first with
  | nil => exact second.after _
  | cons reads inside _ _ ih =>
    subst follows
    rw [← headD_append] at reads inside
    rw [List.append_assoc, List.append_assoc]
    exact .cons reads inside (ih rfl)

theorem before (rest : List Token) (laid : LaidOut u (rest.headD next) as) :
    LaidOut (u ++ rest) next as := by
  simpa using laid.append (.nil (u := rest))

end LaidOut

namespace Phrase

variable {n : Nat} {u : List Token} {next : Token}

structure ArithmeticLaidOut (n : Nat) : Prop where
  factor {u : List Token} {a : Node} : IsFactor n u a → ∀ next, LaidOut u next [a]
  unary {u : List Token} {a : Node} : IsUnary n u a → ∀ next, LaidOut u next [a]
  term {u : List Token} {next : Token} {a : Node} : IsTerm n u next a → LaidOut u next [a]
  expression {u : List Token} {next : Token} {a : Node} :
    IsExpression n u next a → LaidOut u next [a]

theorem operands_laidOut {left right : List Token} {sign : Token} {a b : Node}
    (first : LaidOut left sign [a]) (second : LaidOut right next [b]) :
    LaidOut (left ++ sign :: right) next [a, b] :=
  first.append (second.after [sign])

theorem arithmetic_laidOut (n : Nat) : ArithmeticLaidOut n := by
  induction n with
  | zero =>
    exact ⟨fun phrase => (nomatch phrase), fun phrase => (nomatch phrase),
      fun phrase => (nomatch phrase), fun phrase => (nomatch phrase)⟩
  | succ n ih =>
    constructor
    · intro u a phrase next
      cases phrase with
      | name name => exact .leaf (.identifier name) rfl
      | literal literal => exact .leaf (.literal literal) rfl
      | @cast _ opening word closing u _ _ opens target closes operand =>
        have inside := (ih.factor operand next).after [opening, word, closing]
        exact .one (.cast opens target closes operand) inside
      | @group _ opening closing u _ _ inner _ =>
        exact ((ih.expression inner).before [closing]).after [opening]
    · intro u a phrase next
      cases phrase with
      | factor phrase => exact ih.factor phrase next
      | @signed _ sign _ _ _ marked operand =>
        exact .one (.signed marked operand) ((ih.unary operand next).after [sign])
    · intro u next a phrase
      cases phrase with
      | last phrase _ => exact ih.unary phrase next
      | more left sign right =>
        exact .one (.product left sign right) (operands_laidOut (ih.unary left _) (ih.term right))
    · intro u next a phrase
      cases phrase with
      | last phrase _ => exact ih.term phrase
      | more left sign right =>
        have inside := operands_laidOut (ih.term left) (ih.expression right)
        exact .one (.sum left sign right) inside

theorem condition_laidOut {c : Condition Node} (phrase : IsCondition n u next c) :
    LaidOut u next [.condition c] := by
  refine .one (.condition phrase) ?_
  cases phrase with
  | @odd n word _ _ _ _ operand =>
    exact ((arithmetic_laidOut n).expression operand).after [word]
  | @compare n _ _ _ _ _ _ _ _ left _ right =>
    exact operands_laidOut ((arithmetic_laidOut n).expression left)
      ((arithmetic_laidOut n).expression right)

theorem chain_laidOut {α : Type} {Item : Nat → List Token → Token → α → Prop}
    {separator : TokenKind} {nodes : α → List Node} {as : List α}
    (item : ∀ {u next a}, Item n u next a → LaidOut u next (nodes a))
    (chain : Chain Item separator (n + 1) u next as) : LaidOut u next (as.flatMap nodes) := by
  generalize level : n + 1 = m at chain
  induction chain with
  | last first _ =>
    cases level
    simpa using item first
  | @more _ _ _ s _ _ _ first _ _ ih =>
    cases level
    exact (item first).append ((ih rfl).after [s])

theorem identifier_laidOut {t : Token} (name : t.kind = .name) :
    LaidOut [t] next [.identifier ⟨t.pos, t.text⟩] :=
  .leaf (.identifier name) rfl

theorem statements_laidOut (n : Nat) :
    (∀ {u next body}, IsStatement n u next body → LaidOut u next body.toList) ∧
      ∀ {u a}, IsSequence n u a → ∀ next, LaidOut u next a.children := by
  induction n with
  | zero => exact ⟨fun phrase => (nomatch phrase), fun phrase => (nomatch phrase)⟩
  | succ n ih =>
    obtain ⟨statements, sequences⟩ := ih
    -- A condition and what depends on it, with words before and between them.
    have guarded {word link next : Token} {u v : List Token} {c : Condition Node}
        {body : Option Node} (test : IsCondition n u link c) (inner : IsStatement n v next body) :
        LaidOut (word :: (u ++ link :: v)) next (Node.condition c :: body.toList) :=
      ((condition_laidOut test).append ((statements inner).after [link])).after [word]
    constructor
    · intro u next body phrase
      cases body with
      | none => exact .nil
      | some a =>
        refine .one (.statement phrase) ?_
        cases phrase with
        | @assignment _ _ sign _ _ _ name _ assigned =>
          have value := ((arithmetic_laidOut n).expression assigned).after [sign]
          exact (identifier_laidOut name).append value
        | @call _ word _ _ _ name => exact (identifier_laidOut name).after [word]
        | @input _ mark _ _ _ name => exact (identifier_laidOut name).after [mark]
        | @print _ mark _ _ _ _ printed =>
          exact ((arithmetic_laidOut n).expression printed).after [mark]
        | sequence phrase => exact sequences phrase next
        | conditional _ test _ inner | loop _ test _ inner => exact guarded test inner
    · intro u a phrase next
      cases phrase with
      | @mk _ word finish _ body _ chain _ =>
        have items : LaidOut _ finish (body.flatMap fun inner => (id inner).toList) :=
          chain_laidOut (fun phrase => statements phrase) chain
        rw [← List.filterMap_eq_flatMap_toList] at items
        exact (items.before [finish]).after [word]

theorem constant_laidOut {d : VariableDeclaration} (phrase : IsConstant n u next d) :
    LaidOut u next [.declaration d] := by
  refine .one (.constant phrase) ?_
  cases phrase with
  | @mk name sign _ _ _ _ _ literal =>
    exact (LaidOut.leaf (.literal literal) rfl).after [name, sign]

theorem variable_laidOut {d : VariableDeclaration} (phrase : IsVariable n u next d) :
    LaidOut u next [.declaration d] := by
  refine .leaf (.declared phrase) ?_
  cases phrase
  rfl

theorem group_laidOut {word : TokenKind}
    {Item : Nat → List Token → Token → VariableDeclaration → Prop} {as : List Node}
    (item : ∀ {u next d}, Item 0 u next d → LaidOut u next [.declaration d])
    (reads : ∀ {u a}, IsGroup word Item u a → ReadAs u next a)
    (phrase : Optional word (IsGroup word Item) u next as) : LaidOut u next as := by
  cases phrase with
  | absent => exact .nil
  | present group =>
    refine .one (reads group) ?_
    cases group with
    | @mk start finish _ group _ chain _ =>
      have items := chain_laidOut item chain
      rw [← List.map_eq_flatMap] at items
      exact (items.before [finish]).after [start]

def BlockLaidOut (n : Nat) : Prop :=
  ∀ {outermost u next b}, IsBlock n outermost u next b → LaidOut u next [.block b]

def ProcedureLaidOut (n : Nat) : Prop :=
  ∀ {u next a}, IsProcedure n u next a → LaidOut u next [a]

theorem procedures_laidOut (procedures : ProcedureLaidOut n) {as : List Node}
    (phrase : AreProcedures n u next as) : LaidOut u next as := by
  induction as generalizing u with
  | nil => exact .nil
  | cons a as ih =>
    cases phrase with
    | more first rest => exact (procedures first).append (ih rest)

theorem exit_laidOut (outermost : Bool) : LaidOut [] next (exitAt outermost next) := by
  unfold exitAt
  split
  · next closes => exact .leaf (.exit closes.2) rfl
  · exact .nil

theorem block_laidOut (procedures : ProcedureLaidOut n) : BlockLaidOut (n + 1) := by
  intro outermost u next b phrase
  refine .one (.block phrase) ?_
  cases phrase with
  | @mk _ _ u v w _ declared body declarations statement _ =>
    cases declarations with
    | mk constants vars phrases =>
      have first := group_laidOut constant_laidOut .constants constants
      have second := group_laidOut variable_laidOut .vars vars
      have declared := first.append (second.append (procedures_laidOut procedures phrases))
      have exits : LaidOut (w ++ []) next (exitAt outermost next) :=
        (exit_laidOut outermost).after w
      rw [List.append_nil] at exits
      have laid := declared.append (((statements_laidOut n).1 statement).append exits)
      simpa only [Node.children, List.append_assoc] using laid

theorem procedure_laidOut (blocks : BlockLaidOut n) : ProcedureLaidOut (n + 1) := by
  intro u next a phrase
  refine .one (.procedure phrase) ?_
  cases phrase with
  | @mk _ word name mark _ _ _ _ _ _ body => exact (blocks body).after [word, name, mark]

theorem blocks_laidOut (n : Nat) : BlockLaidOut n ∧ ProcedureLaidOut n := by
  induction n with
  | zero => exact ⟨fun phrase => (nomatch phrase), fun phrase => (nomatch phrase)⟩
  | succ n ih => exact ⟨block_laidOut ih.2, procedure_laidOut ih.1⟩

theorem IsProgram.laidOut {p : Program} (phrase : IsProgram n u p) (next : Token) :
    LaidOut u next p.node.children := by
  cases phrase with
  | @mk _ point _ body _ => exact ((blocks_laidOut _).1 body).before [point]

end Phrase

end PlZero
