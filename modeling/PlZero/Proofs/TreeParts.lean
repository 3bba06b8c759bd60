import PlZero.Proofs.DocumentedFailures

set_option autoImplicit false

namespace PlZero

namespace Node

/-- The nodes that a node is made of, in the order of the text. -/
def children : Node → List Node
  | unary _ _ a | typecast _ _ a | print _ a => [a]
  | binary _ _ a b => [a, b]
  | condition c => c.left :: c.right.toList
  | assignment _ target a => [identifier target, a]
  | call _ target | input _ target => [identifier target]
  | sequence _ body => body
  | conditional _ c body | loop _ c body => condition c :: body.toList
  | declaration d => (d.value.map literal).toList
  | declarations _ group => group.map declaration
  | block b => b.body
  | procedure _ _ b | program _ b => [block b]
  | identifier _ | literal _ | exitMarker _ | unknown _ _ => []

inductive Within : Node → Node → Prop
  | refl {a : Node} : Within a a
  | inside {a b d : Node} : b ∈ a.children → Within d b → Within d a

theorem Within.trans {a b d : Node} (first : d.Within b) (second : b.Within a) : d.Within a := by
  induction second with
  | refl => exact first
  | inside mem _ ih => exact .inside mem (ih first)

theorem Within.of_mem {a b : Node} (mem : b ∈ a.children) : b.Within a := .inside mem .refl

def Placed (Q : Position → Prop) (a : Node) : Prop := ∀ d : Node, d.Within a → Q d.pos

variable {Q : Position → Prop}

theorem Placed.of_children {a : Node} (here : Q a.pos) (inside : ∀ b ∈ a.children, b.Placed Q) :
    a.Placed Q := by
  intro d within
  cases within with
  | refl => exact here
  | inside mem within => exact inside _ mem d within

theorem Placed.child {a b : Node} (placed : a.Placed Q) (mem : b ∈ a.children) : b.Placed Q :=
  fun d within => placed d (.inside mem within)

theorem Placed.leaf {a : Node} (here : Q a.pos) (none : a.children = []) : a.Placed Q :=
  .of_children here (by simp [none])

end Node

namespace Phrase

open Node

variable {Q : Position → Prop} {n : Nat} {u : List Token} {next : Token}

def AllAt (Q : Position → Prop) (u : List Token) : Prop := ∀ t ∈ u, Q t.pos

@[simp] theorem allAt_cons {t : Token} : AllAt Q (t :: u) ↔ Q t.pos ∧ AllAt Q u :=
  List.forall_mem_cons

@[simp] theorem allAt_append {v : List Token} : AllAt Q (u ++ v) ↔ AllAt Q u ∧ AllAt Q v :=
  List.forall_mem_append

structure ArithmeticPlaced (Q : Position → Prop) (n : Nat) : Prop where
  factor {u : List Token} {a : Node} : IsFactor n u a → AllAt Q u → a.Placed Q
  unary {u : List Token} {a : Node} : IsUnary n u a → AllAt Q u → a.Placed Q
  term {u : List Token} {next : Token} {a : Node} : IsTerm n u next a → AllAt Q u → a.Placed Q
  expression {u : List Token} {next : Token} {a : Node} :
    IsExpression n u next a → AllAt Q u → a.Placed Q

theorem binary_placed {pos : Position} {operator : BinaryOperator} {a b : Node} (here : Q pos)
    (left : a.Placed Q) (right : b.Placed Q) : (Node.binary pos operator a b).Placed Q := by
  refine .of_children here ?_
  simpa [children] using ⟨left, right⟩

theorem arithmetic_placed (Q : Position → Prop) (n : Nat) : ArithmeticPlaced Q n := by
  induction n with
  | zero =>
    exact ⟨fun phrase => (nomatch phrase), fun phrase => (nomatch phrase),
      fun phrase => (nomatch phrase), fun phrase => (nomatch phrase)⟩
  | succ n ih =>
    constructor
    · intro u a phrase stand
      cases phrase with
      | name | literal => exact .leaf (stand _ List.mem_cons_self) rfl
      | cast _ _ _ operand =>
        simp only [allAt_cons] at stand
        exact .of_children stand.1 (List.forall_mem_singleton.2 (ih.factor operand stand.2.2.2))
      | group _ inner _ =>
        simp only [allAt_cons, allAt_append] at stand
        exact ih.expression inner stand.2.1
    · intro u a phrase stand
      cases phrase with
      | factor phrase => exact ih.factor phrase stand
      | signed _ operand =>
        rw [allAt_cons] at stand
        exact .of_children stand.1 (List.forall_mem_singleton.2 (ih.unary operand stand.2))
    · intro u next a phrase stand
      cases phrase with
      | last phrase _ => exact ih.unary phrase stand
      | more left _ right =>
        rw [allAt_append] at stand
        exact binary_placed (allAt_cons.1 stand.1).1 (ih.unary left stand.1)
          (ih.term right (allAt_cons.1 stand.2).2)
    · intro u next a phrase stand
      cases phrase with
      | last phrase _ => exact ih.term phrase stand
      | more left _ right =>
        rw [allAt_append] at stand
        exact binary_placed (allAt_cons.1 stand.1).1 (ih.term left stand.1)
          (ih.expression right (allAt_cons.1 stand.2).2)

theorem condition_placed {c : Condition Node} (phrase : IsCondition n u next c)
    (stand : AllAt Q u) : (Node.condition c).Placed Q := by
  cases phrase with
  | @odd n _ _ _ _ _ operand =>
    rw [allAt_cons] at stand
    have operand := (arithmetic_placed Q n).expression operand stand.2
    exact .of_children stand.1 (List.forall_mem_singleton.2 operand)
  | @compare n _ _ _ _ _ _ _ _ left _ right =>
    rw [allAt_append] at stand
    have left := (arithmetic_placed Q n).expression left stand.1
    have right := (arithmetic_placed Q n).expression right (allAt_cons.1 stand.2).2
    refine .of_children (allAt_cons.1 stand.1).1 ?_
    exact List.forall_mem_cons.2 ⟨left, List.forall_mem_singleton.2 right⟩

theorem chain_placed {α : Type} {Item : Nat → List Token → Token → α → Prop}
    {separator : TokenKind} {P : α → Prop} {as : List α}
    (item : ∀ {u next a}, Item n u next a → AllAt Q u → P a)
    (chain : Chain Item separator (n + 1) u next as) (stand : AllAt Q u) : ∀ a ∈ as, P a := by
  generalize level : n + 1 = m at chain
  induction chain with
  | last first _ =>
    cases level
    exact List.forall_mem_singleton.2 (item first stand)
  | more first _ _ ih =>
    cases level
    simp only [allAt_append, allAt_cons] at stand
    exact List.forall_mem_cons.2 ⟨item first stand.1, ih stand.2.2 rfl⟩

def StatementPlaced (Q : Position → Prop) (n : Nat) : Prop :=
  ∀ {u next body}, IsStatement n u next body → AllAt Q u → ∀ node ∈ body, node.Placed Q

theorem identifier_placed {t : Token} (here : Q t.pos) :
    (Node.identifier ⟨t.pos, t.text⟩).Placed Q := .leaf here rfl

theorem statements_placed (Q : Position → Prop) (n : Nat) :
    StatementPlaced Q n ∧ ∀ {u a}, IsSequence n u a → AllAt Q u → a.Placed Q := by
  induction n with
  | zero => exact ⟨fun phrase => (nomatch phrase), fun phrase => (nomatch phrase)⟩
  | succ n ih =>
    obtain ⟨statements, sequences⟩ := ih
    have bodies {c : Condition Node} {body : Option Node} (test : (Node.condition c).Placed Q)
        (inner : ∀ node ∈ body, node.Placed Q) :
        ∀ node ∈ Node.condition c :: body.toList, node.Placed Q :=
      List.forall_mem_cons.2 ⟨test, fun node mem => inner node (Option.mem_toList.1 mem)⟩
    constructor
    · intro u next body phrase stand node mem
      cases phrase with
      | nothing => cases mem
      | assignment _ _ assigned =>
        cases mem
        simp only [allAt_cons] at stand
        refine .of_children stand.1 (List.forall_mem_cons.2 ⟨identifier_placed stand.1, ?_⟩)
        exact List.forall_mem_singleton.2 ((arithmetic_placed Q n).expression assigned stand.2.2)
      | call | input =>
        cases mem
        simp only [allAt_cons] at stand
        exact .of_children stand.1 (List.forall_mem_singleton.2 (identifier_placed stand.2.1))
      | print _ printed =>
        cases mem
        rw [allAt_cons] at stand
        refine .of_children stand.1 (List.forall_mem_singleton.2 ?_)
        exact (arithmetic_placed Q n).expression printed stand.2
      | sequence phrase =>
        cases mem
        exact sequences phrase stand
      | conditional _ test _ inner | loop _ test _ inner =>
        cases mem
        simp only [allAt_cons, allAt_append] at stand
        refine .of_children stand.1 (bodies (condition_placed test stand.2.1) ?_)
        exact statements inner stand.2.2.2
    · intro u a phrase stand
      cases phrase with
      | mk _ chain _ =>
        simp only [allAt_cons, allAt_append] at stand
        refine .of_children stand.1 fun node mem => ?_
        obtain ⟨body, inside, eq⟩ := List.mem_filterMap.1 mem
        have items := chain_placed (P := fun body => ∀ node ∈ body, node.Placed Q)
          (fun phrase => statements phrase) chain stand.2.1
        exact items body inside node eq

theorem constant_placed {d : VariableDeclaration} (phrase : IsConstant n u next d)
    (stand : AllAt Q u) : (Node.declaration d).Placed Q := by
  cases phrase
  simp only [allAt_cons] at stand
  exact .of_children stand.1 (List.forall_mem_singleton.2 (.leaf stand.2.2.1 rfl))

theorem variable_placed {d : VariableDeclaration} (phrase : IsVariable n u next d)
    (stand : AllAt Q u) : (Node.declaration d).Placed Q := by
  cases phrase
  exact .leaf (allAt_cons.1 stand).1 rfl

theorem group_placed {word : TokenKind}
    {Item : Nat → List Token → Token → VariableDeclaration → Prop} {as : List Node}
    (item : ∀ {u next d}, Item 0 u next d → AllAt Q u → (Node.declaration d).Placed Q)
    (phrase : Optional word (IsGroup word Item) u next as) (stand : AllAt Q u) :
    ∀ node ∈ as, node.Placed Q := by
  cases phrase with
  | absent => nofun
  | present group =>
    cases group with
    | mk _ chain _ =>
      simp only [allAt_cons, allAt_append] at stand
      refine List.forall_mem_singleton.2 (.of_children stand.1 ?_)
      exact List.forall_mem_map.2 (chain_placed item chain stand.2.1)

theorem headD_at (stand : AllAt Q u) (after : Q next.pos) : Q (u.headD next).pos := by
  cases u with
  | nil => exact after
  | cons t u => exact (allAt_cons.1 stand).1

def BlockPlaced (Q : Position → Prop) (n : Nat) : Prop :=
  ∀ {outermost u next b}, IsBlock n outermost u next b → AllAt Q u → Q next.pos →
    (Node.block b).Placed Q

def ProcedurePlaced (Q : Position → Prop) (n : Nat) : Prop :=
  ∀ {u next a}, IsProcedure n u next a → AllAt Q u → Q next.pos → a.Placed Q

theorem procedures_placed (procedures : ProcedurePlaced Q n) {as : List Node}
    (phrase : AreProcedures n u next as) (stand : AllAt Q u) (after : Q next.pos) :
    ∀ node ∈ as, node.Placed Q := by
  induction as generalizing u with
  | nil => nofun
  | cons a as ih =>
    cases phrase with
    | more first rest =>
      rw [allAt_append] at stand
      refine List.forall_mem_cons.2 ⟨?_, ih rest stand.2⟩
      exact procedures first stand.1 (headD_at stand.2 after)

theorem block_placed (procedures : ProcedurePlaced Q n) : BlockPlaced Q (n + 1) := by
  intro outermost u next b phrase stand after
  cases phrase with
  | @mk _ _ u v w _ declared body declarations statement _ =>
    have whole := headD_at stand after
    simp only [allAt_append] at stand
    obtain ⟨stand, stand', stand''⟩ := stand
    refine .of_children whole fun node mem => ?_
    simp only [children, List.mem_append] at mem
    rcases mem with (mem | mem) | mem
    · have next := headD_at (allAt_append.2 ⟨stand', stand''⟩) after
      cases declarations with
      | mk constants vars phrases =>
        simp only [allAt_append] at stand
        simp only [List.mem_append] at mem
        rcases mem with (mem | mem) | mem
        · exact group_placed constant_placed constants stand.1 node mem
        · exact group_placed variable_placed vars stand.2.1 node mem
        · exact procedures_placed procedures phrases stand.2.2 next node mem
    · exact (statements_placed Q n).1 statement stand' node (Option.mem_toList.1 mem)
    · unfold exitAt at mem
      split at mem
      · rw [List.mem_singleton.1 mem]
        exact .leaf after rfl
      · cases mem

theorem procedure_placed (blocks : BlockPlaced Q n) : ProcedurePlaced Q (n + 1) := by
  intro u next a phrase stand after
  cases phrase with
  | mk _ _ _ body =>
    simp only [allAt_cons] at stand
    exact .of_children stand.1 (List.forall_mem_singleton.2 (blocks body stand.2.2.2 after))

theorem blocks_placed (Q : Position → Prop) (n : Nat) : BlockPlaced Q n ∧ ProcedurePlaced Q n := by
  induction n with
  | zero => exact ⟨fun phrase => (nomatch phrase), fun phrase => (nomatch phrase)⟩
  | succ n ih => exact ⟨block_placed ih.2, procedure_placed ih.1⟩

theorem IsProgram.placed {p : Program} (phrase : IsProgram n u p) (stand : AllAt Q u) :
    p.node.Placed Q := by
  cases phrase with
  | mk body _ =>
    simp only [allAt_append, allAt_cons] at stand
    have placed := (blocks_placed Q _).1 body stand.1 stand.2.1
    exact .of_children (headD_at stand.1 stand.2.1) (List.forall_mem_singleton.2 placed)

end Phrase

section Lines

theorem Position.line_le_advanceAll (p : Position) (cs : List Char) :
    p.line ≤ (p.advanceAll cs).line := by
  induction cs generalizing p with
  | nil => exact Int.le_refl _
  | cons c cs ih =>
    have step : p.line ≤ (p.advance c).line := by
      unfold advance
      split <;> simp
    exact Int.le_trans step (ih (p.advance c))

theorem Cursor.line_le_next {c after : Cursor} {t : Token} (next : c.next = (.ok t, after)) :
    c.pos.line ≤ t.pos.line ∧ c.pos.line ≤ after.pos.line := by
  have skipped : c.pos.line ≤ c.skipBlanks.pos.line := Position.line_le_advanceAll _ _
  unfold Cursor.next at next
  dsimp only at next
  split at next
  · cases next
    exact ⟨skipped, skipped⟩
  · obtain ⟨token, rfl⟩ := Prod.mk.inj next
    unfold Lexeme.token at token
    split at token
    · cases token
      exact ⟨skipped, Int.le_trans skipped (Position.line_le_advanceAll _ _)⟩
    · cases token

theorem Cursor.line_le_feed (c : Cursor) :
    (∀ t ∈ c.feed.tokens, c.pos.line ≤ t.pos.line) ∧
      ∀ e, c.feed.last = .ok e → c.pos.line ≤ e.pos.line := by
  fun_induction Cursor.feed c with
  | case1 c t after next _ =>
    refine ⟨List.forall_mem_nil _, fun e last => ?_⟩
    cases last
    exact (line_le_next next).1
  | case2 c t after next _ ih =>
    obtain ⟨here, later⟩ := line_le_next next
    refine ⟨List.forall_mem_cons.2 ⟨here, fun s mem => ?_⟩, fun e last => ?_⟩
    · exact Int.le_trans later (ih.1 s mem)
    · exact Int.le_trans later (ih.2 e last)
  | case3 =>
    refine ⟨List.forall_mem_nil _, fun e last => ?_⟩
    cases last

end Lines

open Phrase Node in
theorem Step.placed_of_read {step : Step} {p : Program} {Q : Position → Prop}
    (accepted : step.read = .ok p) (stand : AllAt Q (scan step.source).tokens)
    (ends : ∀ e, (scan step.source).last = .ok e → Q e.pos) : p.node.Placed Q := by
  cases step with
  | entry source =>
    change (parseFragment source).map .ofBlock = .ok p at accepted
    cases parsed : parseFragment source with
    | error f => rw [parsed] at accepted; cases accepted
    | ok b =>
      rw [parsed] at accepted
      cases accepted
      obtain ⟨e, last, _, phrase⟩ := parseFragment_ok parsed
      change AllAt Q (scan source).tokens at stand
      generalize (scan source).tokens = w at phrase stand
      cases phrase with
      | mk body _ =>
        rw [allAt_append] at stand
        have placed := (blocks_placed Q _).1 body stand.1 (headD_at stand.2 (ends e last))
        exact .of_children (placed (.block b) .refl) (List.forall_mem_singleton.2 placed)
  | program source =>
    exact (isProgram_of_parse accepted).2.placed stand

theorem Step.line_pos_of_read {step : Step} {p : Program} (accepted : step.read = .ok p)
    {node : Node} (within : node.Within p.node) : 0 < node.pos.line := by
  obtain ⟨tokens, ends⟩ := (Cursor.ofSource step.source).line_le_feed
  exact Step.placed_of_read (Q := fun pos => 0 < pos.line) accepted tokens ends node within

end PlZero
