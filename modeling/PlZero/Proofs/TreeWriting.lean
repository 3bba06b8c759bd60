import PlZero.Proofs.WellFormed

set_option autoImplicit false

/-!
Trees written as tokens, with parentheses only where the grammar needs them; the nesting of rules
that a tree takes to be read; and trees without the places of their nodes.
-/

namespace PlZero

/-- What a rule takes from a token: its kind, and its text if it is a name or a literal. -/
structure Face where
  kind : TokenKind
  text : String
deriving DecidableEq

def Token.face (t : Token) : Face := ⟨t.kind, if t.kind.holdsText then t.text else ""⟩

def TokenKind.face (k : TokenKind) : Face := ⟨k, ""⟩

theorem Token.face_eq_word {t : Token} {k : TokenKind} (word : k.holdsText = false) :
    t.face = k.face ↔ t.kind = k := by
  constructor
  · exact congrArg Face.kind
  · rintro rfl
    simp [Token.face, TokenKind.face, word]

theorem Token.face_eq_content {t : Token} {k : TokenKind} {text : String}
    (content : k.holdsText = true) : t.face = ⟨k, text⟩ ↔ t.kind = k ∧ t.text = text := by
  constructor
  · intro face
    have kind : t.kind = k := congrArg Face.kind face
    have same : (if t.kind.holdsText then t.text else "") = text := congrArg Face.text face
    rw [kind, content] at same
    exact ⟨kind, same⟩
  · rintro ⟨rfl, rfl⟩
    simp [Token.face, content]

inductive Level
  | factor
  | unary
  | term
  | expression
deriving DecidableEq

namespace Level

def rank : Level → Nat
  | factor => 0
  | unary => 1
  | term => 2
  | expression => 3

/-- Tokens that one rule reads, for a place where another stands: in parentheses if that one could
not read them. -/
def enclose (place own : Level) (w : List Face) : List Face :=
  if own.rank ≤ place.rank then w
  else TokenKind.leftParen.face :: (w ++ [TokenKind.rightParen.face])

/-- The nesting that goes with it. Parentheses start again from the rule for whole expressions. -/
def deepen (place own : Level) (n : Nat) : Nat :=
  if own.rank ≤ place.rank then n + (place.rank - own.rank)
  else n + (expression.rank - own.rank) + 1 + place.rank

theorem rank_le_expression (own : Level) : own.rank ≤ expression.rank := by
  cases own <;> decide

theorem deepen_succ_le {place place' own : Level} (up : place'.rank = place.rank + 1) (n : Nat) :
    place'.deepen own n ≤ place.deepen own n + 1 := by
  unfold deepen
  split <;> split <;> omega

theorem deepen_factor_le (own : Level) (n : Nat) :
    factor.deepen own n ≤ expression.deepen own n + 1 := by
  have top := own.rank_le_expression
  have bottom : factor.rank = 0 := rfl
  unfold deepen
  rw [if_pos top]
  split <;> omega

end Level

def BinaryOperator.level : BinaryOperator → Level
  | .star | .slash => .term
  | .plus | .minus | .other _ => .expression

def BinaryOperator.sides : BinaryOperator → Level × Level
  | .star | .slash => (.unary, .term)
  | .plus | .minus | .other _ => (.term, .expression)

namespace Node

def level : Node → Level
  | .unary _ _ _ => .unary
  | .binary _ operator _ _ => operator.level
  | _ => .factor

end Node

def Identifier.face (i : Identifier) : Face := ⟨.name, i.name⟩

def Literal.face (l : Literal) : Face := ⟨l.type.literalKind, l.raw⟩

def VariableDeclaration.writing (d : VariableDeclaration) : List Face :=
  ⟨.name, d.name⟩ :: match d.value with
    | some l => [TokenKind.equal.face, l.face]
    | none => []

def groupWord (group : List VariableDeclaration) : TokenKind :=
  if group.any (·.isConstant) then .constWord else .varWord

def groupWriting (group : List VariableDeclaration) : List Face :=
  (groupWord group).face ::
    ([TokenKind.comma.face].intercalate (group.map (·.writing)) ++ [TokenKind.semicolon.face])

mutual

def Node.writing : Node → List Face
  | .identifier i => [i.face]
  | .literal l => [l.face]
  | .unary _ operator a => operator.kind.face :: Level.enclose .unary a.level a.writing
  | .binary _ operator a b =>
    Level.enclose operator.sides.1 a.level a.writing ++ operator.kind.face ::
      Level.enclose operator.sides.2 b.level b.writing
  | .typecast _ target a =>
    TokenKind.leftParen.face :: target.castKind.face :: TokenKind.rightParen.face ::
      Level.enclose .factor a.level a.writing
  | .condition c => conditionWriting c
  | .assignment _ target a => target.face :: TokenKind.assign.face :: a.writing
  | .call _ target => [TokenKind.callWord.face, target.face]
  | .input _ target => [TokenKind.question.face, target.face]
  | .print _ a => TokenKind.bang.face :: a.writing
  -- Every statement is followed by a semicolon, so an empty one stands at the end.
  | .sequence _ body =>
    TokenKind.beginWord.face ::
      (writings [TokenKind.semicolon.face] body ++ [TokenKind.endWord.face])
  | .conditional _ c body =>
    TokenKind.ifWord.face ::
      (conditionWriting c ++ TokenKind.thenWord.face :: optionalWriting body)
  | .loop _ c body =>
    TokenKind.whileWord.face ::
      (conditionWriting c ++ TokenKind.doWord.face :: optionalWriting body)
  | .exitMarker _ => [TokenKind.dot.face]
  | .declaration d => d.writing
  | .declarations _ group => groupWriting group
  | .block b => blockWriting b
  -- The semicolon after a block is what keeps the nodes behind it out of the block.
  | .procedure _ name b =>
    TokenKind.procedureWord.face :: ⟨.name, name⟩ :: TokenKind.semicolon.face ::
      (blockWriting b ++ [TokenKind.semicolon.face])
  | .program _ b => blockWriting b
  | .unknown _ name => [⟨.invalid, name⟩]

def conditionWriting : Condition Node → List Face
  | ⟨_, left, isOdd, operator, right⟩ =>
    (if isOdd then [TokenKind.oddWord.face] else []) ++ left.writing ++
      (operator.elim [] fun operator => [operator.kind.face]) ++
      optionalWriting right

def blockWriting : Block Node → List Face
  | ⟨_, body⟩ => writings [] body

def optionalWriting : Option Node → List Face
  | none => []
  | some node => node.writing

def writings (ending : List Face) : List Node → List Face
  | [] => []
  | node :: nodes => node.writing ++ ending ++ writings ending nodes

end

def Program.writing (p : Program) : List Face := blockWriting p.body

mutual

def Node.nesting : Node → Nat
  | .unary _ _ a => 1 + Level.deepen .unary a.level a.nesting
  | .binary _ operator a b =>
    1 + max (Level.deepen operator.sides.1 a.level a.nesting)
      (Level.deepen operator.sides.2 b.level b.nesting)
  | .typecast _ _ a => 1 + Level.deepen .factor a.level a.nesting
  | .condition c => conditionNesting c
  | .assignment _ _ a => 1 + Level.deepen .expression a.level a.nesting
  | .print _ a => 1 + Level.deepen .expression a.level a.nesting
  | .sequence _ body => 2 + nestings body
  | .conditional _ c body => 1 + max (conditionNesting c) (optionalNesting body)
  | .loop _ c body => 1 + max (conditionNesting c) (optionalNesting body)
  | .exitMarker _ | .declaration _ | .declarations _ _ => 0
  | .block b => blockNesting b
  | .procedure _ _ b => 1 + blockNesting b
  | .program _ b => blockNesting b
  | .identifier _ | .literal _ | .call _ _ | .input _ _ | .unknown _ _ => 1

def conditionNesting : Condition Node → Nat
  | ⟨_, left, _, _, right⟩ =>
    1 + max (Level.deepen .expression left.level left.nesting) (operandNesting right)

def operandNesting : Option Node → Nat
  | none => 0
  | some node => Level.deepen .expression node.level node.nesting

def blockNesting : Block Node → Nat
  | ⟨_, body⟩ => 1 + nestings body

def optionalNesting : Option Node → Nat
  | none => 1
  | some node => node.nesting

def nestings : List Node → Nat
  | [] => 1
  | node :: nodes => max node.nesting (nestings nodes)

end

def Program.nesting (p : Program) : Nat := blockNesting p.body

namespace Node

def writingAt (place : Level) (a : Node) : List Face := place.enclose a.level a.writing

def nestingAt (place : Level) (a : Node) : Nat := place.deepen a.level a.nesting

theorem writingAt_expression (a : Node) : a.writingAt .expression = a.writing := by
  exact if_pos a.level.rank_le_expression

end Node

def Identifier.erase (i : Identifier) : Identifier := { i with pos := default }

def Literal.erase (l : Literal) : Literal := { l with pos := default }

def VariableDeclaration.erase (d : VariableDeclaration) : VariableDeclaration :=
  { d with pos := default, value := d.value.map Literal.erase }

mutual

def Node.erase : Node → Node
  | .identifier i => .identifier i.erase
  | .literal l => .literal l.erase
  | .unary _ operator a => .unary default operator a.erase
  | .binary _ operator a b => .binary default operator a.erase b.erase
  | .typecast _ target a => .typecast default target a.erase
  | .condition c => .condition (eraseCondition c)
  | .assignment _ target a => .assignment default target.erase a.erase
  | .call _ target => .call default target.erase
  | .input _ target => .input default target.erase
  | .print _ a => .print default a.erase
  | .sequence _ body => .sequence default (eraseAll body)
  | .conditional _ c body => .conditional default (eraseCondition c) (eraseOptional body)
  | .loop _ c body => .loop default (eraseCondition c) (eraseOptional body)
  | .exitMarker _ => .exitMarker default
  | .declaration d => .declaration d.erase
  | .declarations _ group => .declarations default (group.map VariableDeclaration.erase)
  | .block b => .block (eraseBlock b)
  | .procedure _ name b => .procedure default name (eraseBlock b)
  | .program _ b => .program default (eraseBlock b)
  | .unknown _ name => .unknown default name

def eraseCondition : Condition Node → Condition Node
  | ⟨_, left, isOdd, operator, right⟩ =>
    ⟨default, left.erase, isOdd, operator, eraseOptional right⟩

def eraseBlock : Block Node → Block Node
  | ⟨_, body⟩ => ⟨default, eraseAll body⟩

def eraseOptional : Option Node → Option Node
  | none => none
  | some node => some node.erase

def eraseAll : List Node → List Node
  | [] => []
  | node :: nodes => node.erase :: eraseAll nodes

end

def Program.erase (p : Program) : Program := ⟨default, eraseBlock p.body⟩

@[simp] theorem eraseOptional_eq (body : Option Node) :
    eraseOptional body = body.map Node.erase := by
  cases body <;> rfl

@[simp] theorem eraseAll_eq (nodes : List Node) : eraseAll nodes = nodes.map Node.erase := by
  induction nodes with
  | nil => rfl
  | cons node nodes ih => rw [eraseAll, ih, List.map_cons]

@[simp] theorem Node.level_erase (a : Node) : a.erase.level = a.level := by
  cases a <;> simp only [Node.erase, Node.level]

mutual

theorem Node.nesting_erase : (a : Node) → a.erase.nesting = a.nesting
  | .identifier _ | .literal _ | .call _ _ | .input _ _ | .exitMarker _ | .declaration _
  | .declarations _ _ | .unknown _ _ => by simp only [Node.erase, Node.nesting]
  | .unary _ _ a | .typecast _ _ a | .assignment _ _ a | .print _ a => by
    simp only [Node.erase, Node.nesting, Node.level_erase, a.nesting_erase]
  | .binary _ _ a b => by
    simp only [Node.erase, Node.nesting, Node.level_erase, a.nesting_erase, b.nesting_erase]
  | .condition c => by rw [Node.erase, Node.nesting, conditionNesting_erase c, Node.nesting]
  | .sequence _ body => by rw [Node.erase, Node.nesting, nestings_erase body, Node.nesting]
  | .conditional _ c body => by
    rw [Node.erase, Node.nesting, conditionNesting_erase c, optionalNesting_erase body,
      Node.nesting]
  | .loop _ c body => by
    rw [Node.erase, Node.nesting, conditionNesting_erase c, optionalNesting_erase body,
      Node.nesting]
  | .block b => by rw [Node.erase, Node.nesting, blockNesting_erase b, Node.nesting]
  | .procedure _ _ b => by rw [Node.erase, Node.nesting, blockNesting_erase b, Node.nesting]
  | .program _ b => by rw [Node.erase, Node.nesting, blockNesting_erase b, Node.nesting]

theorem conditionNesting_erase : (c : Condition Node) →
    conditionNesting (eraseCondition c) = conditionNesting c
  | ⟨_, left, _, _, none⟩ => by
    simp only [eraseCondition, eraseOptional, conditionNesting, operandNesting, Node.level_erase,
      left.nesting_erase]
  | ⟨_, left, _, _, some right⟩ => by
    simp only [eraseCondition, eraseOptional, conditionNesting, operandNesting, Node.level_erase,
      left.nesting_erase, right.nesting_erase]

theorem blockNesting_erase : (b : Block Node) → blockNesting (eraseBlock b) = blockNesting b
  | ⟨_, body⟩ => by rw [eraseBlock, blockNesting, nestings_erase body, blockNesting]

theorem optionalNesting_erase : (body : Option Node) →
    optionalNesting (eraseOptional body) = optionalNesting body
  | none => rfl
  | some node => node.nesting_erase

theorem nestings_erase : (nodes : List Node) → nestings (eraseAll nodes) = nestings nodes
  | [] => rfl
  | node :: nodes => by rw [eraseAll, nestings, node.nesting_erase, nestings_erase nodes, nestings]

end

theorem Node.nestingAt_eq_of_erase {a e : Node} (same : a.erase = e.erase) (place : Level) :
    a.nestingAt place = e.nestingAt place := by
  unfold Node.nestingAt
  rw [← a.level_erase, ← a.nesting_erase, same, e.level_erase, e.nesting_erase]

theorem Program.nesting_eq_of_erase {p t : Program} (same : p.erase = t.erase) :
    p.nesting = t.nesting := by
  have body : eraseBlock p.body = eraseBlock t.body := congrArg Program.body same
  unfold Program.nesting
  rw [← blockNesting_erase, body, blockNesting_erase]

theorem writings_append (ending : List Face) (nodes nodes' : List Node) :
    writings ending (nodes ++ nodes') = writings ending nodes ++ writings ending nodes' := by
  induction nodes with
  | nil => rfl
  | cons node nodes ih => simp only [List.cons_append, writings, ih, List.append_assoc]

theorem nestings_le {nodes : List Node} {n : Nat} :
    nestings nodes ≤ n ↔ 1 ≤ n ∧ ∀ node ∈ nodes, node.nesting ≤ n := by
  induction nodes with
  | nil => simp [nestings]
  | cons node nodes ih =>
    simp only [nestings, Nat.max_le, ih, List.forall_mem_cons]
    constructor
    · rintro ⟨first, one, rest⟩
      exact ⟨one, first, rest⟩
    · rintro ⟨one, first, rest⟩
      exact ⟨first, one, rest⟩

theorem optionalNesting_le {body : Option Node} {n : Nat} (some : 1 ≤ n) :
    optionalNesting body ≤ n ↔ ∀ node ∈ body, node.nesting ≤ n := by
  cases body with
  | none => simp [optionalNesting, some]
  | some node => simp [optionalNesting]

end PlZero
