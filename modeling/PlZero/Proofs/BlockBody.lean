import PlZero.Proofs.Phrase

set_option autoImplicit false

namespace PlZero

namespace Node

inductive Statement : Node → Prop
  | assignment {pos : Position} {target : Identifier} {expr : Node} :
      Statement (.assignment pos target expr)
  | call {pos : Position} {target : Identifier} : Statement (.call pos target)
  | input {pos : Position} {target : Identifier} : Statement (.input pos target)
  | print {pos : Position} {expr : Node} : Statement (.print pos expr)
  | sequence {pos : Position} {body : List Node} : (∀ node ∈ body, Statement node) →
      Statement (.sequence pos body)
  | conditional {pos : Position} {condition : Condition Node} {body : Option Node} :
      (∀ node ∈ body, Statement node) → Statement (.conditional pos condition body)
  | loop {pos : Position} {condition : Condition Node} {body : Option Node} :
      (∀ node ∈ body, Statement node) → Statement (.loop pos condition body)

inductive Inner : Node → Prop
  | statement {node : Node} : node.Statement → Inner node
  | declarations {pos : Position} {group : List VariableDeclaration} :
      Inner (.declarations pos group)
  | procedure {pos : Position} {name : String} {b : Block Node} : (∀ node ∈ b.body, Inner node) →
      Inner (.procedure pos name b)

theorem Inner.isExitMarker_eq {node : Node} (h : node.Inner) : node.isExitMarker = false := by
  cases h with
  | statement h => cases h <;> rfl
  | declarations => rfl
  | procedure => rfl

def declared : Node → List String
  | .declarations _ group => group.map (·.name)
  | .procedure _ name _ => [name]
  | _ => []

end Node

def Block.declared (b : Block Node) : List String := b.body.flatMap Node.declared

theorem Block.declared_subset {b : Block Node} {node : Node} (mem : node ∈ b.body) :
    node.declared ⊆ b.declared :=
  fun _ declares => List.mem_flatMap.2 ⟨node, mem, declares⟩

namespace Phrase

open Node

variable {n : Nat} {u : List Token} {next : Token}

theorem Chain.forall_mem {α : Type} {Item : Nat → List Token → Token → α → Prop}
    {separator : TokenKind} {P : α → Prop} {as : List α}
    (item : ∀ {u next a}, Item n u next a → P a)
    (h : Chain Item separator (n + 1) u next as) : ∀ a ∈ as, P a := by
  generalize level : n + 1 = m at h
  induction h with
  | last first _ =>
    cases level
    simpa using item first
  | more first _ _ ih =>
    cases level
    simpa using ⟨item first, ih rfl⟩

theorem statements_statement (n : Nat) :
    (∀ {u next body}, IsStatement n u next body → ∀ node ∈ body, Statement node) ∧
      ∀ {u a}, IsSequence n u a → Statement a := by
  induction n with
  | zero => exact ⟨fun phrase => (nomatch phrase), fun phrase => (nomatch phrase)⟩
  | succ n ih =>
    obtain ⟨statements, sequences⟩ := ih
    constructor
    · intro u next body phrase node mem
      cases phrase with
      | nothing => cases mem
      | assignment => cases mem; exact .assignment
      | call => cases mem; exact .call
      | input => cases mem; exact .input
      | print => cases mem; exact .print
      | sequence phrase => cases mem; exact sequences phrase
      | conditional _ _ _ phrase => cases mem; exact .conditional (statements phrase)
      | loop _ _ _ phrase => cases mem; exact .loop (statements phrase)
    · intro u a phrase
      cases phrase with
      | mk _ chain _ =>
        have items := chain.forall_mem (P := fun body => ∀ node ∈ body, Statement node)
          fun phrase => statements phrase
        refine .sequence fun node mem => ?_
        obtain ⟨body, inside, eq⟩ := List.mem_filterMap.1 mem
        exact items body inside node eq

theorem optionalGroup_inner {word : TokenKind}
    {Item : Nat → List Token → Token → VariableDeclaration → Prop} {as : List Node}
    (phrase : Optional word (IsGroup word Item) u next as) : ∀ node ∈ as, Inner node := by
  cases phrase with
  | absent => simp
  | present group =>
    cases group with
    | mk => simpa using .declarations

theorem procedures_inner {as : List Node}
    (procedures : ∀ {u next a}, IsProcedure n u next a → Inner a)
    (phrase : AreProcedures n u next as) : ∀ node ∈ as, Inner node := by
  induction as generalizing u with
  | nil => simp
  | cons a as ih =>
    cases phrase with
    | more first rest => simpa using ⟨procedures first, ih rest⟩

def BlockInner (n : Nat) : Prop :=
  ∀ {outermost u next b}, IsBlock n outermost u next b →
    ∃ nodes, (∀ node ∈ nodes, Inner node) ∧ b.body = nodes ++ exitAt outermost next

def ProcedureInner (n : Nat) : Prop := ∀ {u next a}, IsProcedure n u next a → Inner a

theorem block_inner (procedures : ProcedureInner n) : BlockInner (n + 1) := by
  intro outermost u next b phrase
  cases phrase with
  | mk declarations body _ =>
    refine ⟨_, fun node mem => ?_, rfl⟩
    rcases List.mem_append.1 mem with mem | mem
    · cases declarations with
      | mk constants vars phrases =>
        simp only [List.mem_append] at mem
        rcases mem with (mem | mem) | mem
        · exact optionalGroup_inner constants node mem
        · exact optionalGroup_inner vars node mem
        · exact procedures_inner procedures phrases node mem
    · exact .statement ((statements_statement n).1 body node (by simpa using mem))

theorem procedure_inner (blocks : BlockInner n) : ProcedureInner (n + 1) := by
  intro u next a phrase
  cases phrase with
  | mk _ _ _ body =>
    obtain ⟨nodes, inner, eq⟩ := blocks body
    refine .procedure ?_
    simpa [eq, exitAt] using inner

theorem blocks_inner (n : Nat) : BlockInner n ∧ ProcedureInner n := by
  induction n with
  | zero => exact ⟨fun phrase => (nomatch phrase), fun phrase => (nomatch phrase)⟩
  | succ n ih => exact ⟨block_inner ih.2, procedure_inner ih.1⟩

end Phrase

end PlZero
