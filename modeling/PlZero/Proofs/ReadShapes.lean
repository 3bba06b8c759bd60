import PlZero.Proofs.BlockBody
import PlZero.Proofs.WrittenExpression

set_option autoImplicit false

namespace PlZero

namespace WellFormed

open Phrase

variable {Content : TokenKind → String → Prop} {n : Nat} {u : List Token} {next : Token}

theorem condition_shaped {c : PlZero.Condition Node} (phrase : IsCondition n u next c)
    (holds : Holds Content u) : Condition Content c ∧ conditionNesting c ≤ n := by
  cases phrase with
  | @odd n word _ u a _ operand =>
    obtain ⟨formed, le⟩ := arithmetic_shaped .expression n operand (holds_cons.1 holds).2
    refine ⟨.odd formed, ?_⟩
    have nesting : conditionNesting ⟨word.pos, a, true, none, none⟩ =
        1 + max (a.nestingAt .expression) 0 := rfl
    omega
  | @compare n start sign _ u v operator a b left read right =>
    simp only [holds_append, holds_cons] at holds
    obtain ⟨formed, le⟩ := arithmetic_shaped .expression n left (holds_cons.2 holds.1)
    obtain ⟨formed', le'⟩ := arithmetic_shaped .expression n right holds.2.2
    obtain ⟨kind, known⟩ := TokenKind.comparison?_eq_some.1 read
    refine ⟨.comparison (kind.symm ▸ known) formed formed', ?_⟩
    have nesting : conditionNesting ⟨start.pos, a, false, some operator, some b⟩ =
        1 + max (a.nestingAt .expression) (b.nestingAt .expression) := rfl
    omega

theorem chain_shaped {α : Type} {Item : Nat → List Token → Token → α → Prop}
    {separator : TokenKind} {P : α → Prop} {as : List α}
    (item : ∀ {u next a}, Item n u next a → Holds Content u → P a)
    (chain : Chain Item separator (n + 1) u next as) (holds : Holds Content u) :
    as ≠ [] ∧ ∀ a ∈ as, P a := by
  generalize level : n + 1 = m at chain
  induction chain with
  | last first _ =>
    cases level
    exact ⟨List.cons_ne_nil _ _, List.forall_mem_singleton.2 (item first holds)⟩
  | more first _ _ ih =>
    cases level
    simp only [holds_append, holds_cons] at holds
    refine ⟨List.cons_ne_nil _ _, ?_⟩
    exact List.forall_mem_cons.2 ⟨item first holds.1, (ih holds.2.2 rfl).2⟩

def StatementShaped (Content : TokenKind → String → Prop) (n : Nat) : Prop :=
  ∀ {u next body}, IsStatement n u next body → Holds Content u →
    (∀ node ∈ body, Statement Content node) ∧ optionalNesting body ≤ n

-- A sequence is read one level below the statement that it is.
def SequenceShaped (Content : TokenKind → String → Prop) (n : Nat) : Prop :=
  ∀ {u a}, IsSequence n u a → Holds Content u → Statement Content a ∧ a.nesting ≤ n + 1

theorem guarded_shaped (statements : StatementShaped Content n) {v : List Token} {link : Token}
    {c : PlZero.Condition Node} {body : Option Node} (test : IsCondition n u link c)
    (inner : IsStatement n v next body) (holds : Holds Content u) (holds' : Holds Content v) :
    Condition Content c ∧ (∀ node ∈ body, Statement Content node) ∧
      1 + max (conditionNesting c) (optionalNesting body) ≤ n + 1 := by
  obtain ⟨formed, le⟩ := condition_shaped test holds
  obtain ⟨formed', le'⟩ := statements inner holds'
  exact ⟨formed, formed', by omega⟩

theorem statement_shaped (statements : StatementShaped Content n)
    (sequences : SequenceShaped Content n) : StatementShaped Content (n + 1) := by
  intro u next body phrase holds
  cases phrase with
  | @assignment _ name sign _ u a named _ assigned =>
    simp only [holds_cons] at holds
    obtain ⟨formed, le⟩ := arithmetic_shaped .expression n assigned holds.2.2
    refine ⟨?_, ?_⟩
    · rintro _ ⟨⟩
      exact .assignment (holds_name holds.1 named) formed
    · have nesting : optionalNesting (some (.assignment name.pos ⟨name.pos, name.text⟩ a)) =
          1 + a.nestingAt .expression := rfl
      omega
  | call _ named =>
    simp only [holds_cons] at holds
    refine ⟨?_, Nat.succ_le_succ (Nat.zero_le n)⟩
    rintro _ ⟨⟩
    exact .call (holds_name holds.2.1 named)
  | input _ named =>
    simp only [holds_cons] at holds
    refine ⟨?_, Nat.succ_le_succ (Nat.zero_le n)⟩
    rintro _ ⟨⟩
    exact .input (holds_name holds.2.1 named)
  | @print _ mark _ u a _ printed =>
    obtain ⟨formed, le⟩ := arithmetic_shaped .expression n printed (holds_cons.1 holds).2
    refine ⟨?_, ?_⟩
    · rintro _ ⟨⟩
      exact .print formed
    · have nesting : optionalNesting (some (.print mark.pos a)) = 1 + a.nestingAt .expression := rfl
      omega
  | sequence phrase =>
    obtain ⟨formed, le⟩ := sequences phrase holds
    refine ⟨?_, le⟩
    rintro _ ⟨⟩
    exact formed
  | conditional _ test _ inner =>
    simp only [holds_cons, holds_append] at holds
    obtain ⟨formed, formed', le⟩ := guarded_shaped statements test inner holds.2.1 holds.2.2.2
    refine ⟨?_, le⟩
    rintro _ ⟨⟩
    exact .conditional formed formed'
  | loop _ test _ inner =>
    simp only [holds_cons, holds_append] at holds
    obtain ⟨formed, formed', le⟩ := guarded_shaped statements test inner holds.2.1 holds.2.2.2
    refine ⟨?_, le⟩
    rintro _ ⟨⟩
    exact .loop formed formed'
  | nothing =>
    refine ⟨?_, Nat.succ_le_succ (Nat.zero_le n)⟩
    rintro _ ⟨⟩

theorem sequence_shaped (statements : StatementShaped Content n) :
    SequenceShaped Content (n + 1) := by
  intro u a phrase holds
  cases phrase with
  | @mk _ word finish u body _ chain _ =>
    simp only [holds_cons, holds_append] at holds
    obtain ⟨some, items⟩ := chain_shaped statements chain holds.2.1
    have first : 1 ≤ n := by
      cases n with
      | zero =>
        obtain ⟨item, mem⟩ := List.exists_mem_of_ne_nil body some
        exact (chain.forall_mem (P := fun _ => False) (fun phrase => by cases phrase) item mem).elim
      | succ n => exact Nat.succ_le_succ (Nat.zero_le n)
    have formed : ∀ node ∈ body.filterMap id, Statement Content node ∧ node.nesting ≤ n := by
      intro node mem
      obtain ⟨item, inside, eq⟩ := List.mem_filterMap.1 mem
      obtain ⟨shape, le⟩ := items item inside
      exact ⟨shape node eq, (optionalNesting_le first).1 le node eq⟩
    refine ⟨.sequence fun node mem => (formed node mem).1, ?_⟩
    have le := nestings_le.2 ⟨first, fun node mem => (formed node mem).2⟩
    have nesting : (Node.sequence word.pos (body.filterMap id)).nesting =
        2 + nestings (body.filterMap id) := by rw [Node.nesting]
    omega

theorem statements_shaped (n : Nat) : StatementShaped Content n ∧ SequenceShaped Content n := by
  induction n with
  | zero => exact ⟨fun phrase => (nomatch phrase), fun phrase => (nomatch phrase)⟩
  | succ n ih => exact ⟨statement_shaped ih.1 ih.2, sequence_shaped ih.1⟩

theorem constant_shaped {d : VariableDeclaration} (phrase : IsConstant n u next d)
    (holds : Holds Content u) : Constant Content d := by
  cases phrase with
  | mk name _ literal =>
    simp only [holds_cons] at holds
    exact .mk (holds_name holds.1 name) (holds_literal holds.2.2.1 literal)

theorem variable_shaped {d : VariableDeclaration} (phrase : IsVariable n u next d)
    (holds : Holds Content u) : Variable Content d := by
  cases phrase with
  | mk name => exact .mk (holds_name (holds_cons.1 holds).1 name)

theorem group_shaped {word : TokenKind} {P : VariableDeclaration → Prop}
    {Item : Nat → List Token → Token → VariableDeclaration → Prop} {as : List Node}
    (item : ∀ {u next d}, Item 0 u next d → Holds Content u → P d)
    (phrase : Optional word (IsGroup word Item) u next as) (holds : Holds Content u) :
    Group P as := by
  cases phrase with
  | absent => exact .absent
  | present group =>
    cases group with
    | mk _ chain _ =>
      simp only [holds_cons, holds_append] at holds
      obtain ⟨some, items⟩ := chain_shaped item chain holds.2.1
      exact .present some items

theorem Group.nesting_eq {P : VariableDeclaration → Prop} {as : List Node} (group : Group P as) :
    ∀ node ∈ as, node.nesting = 0 := by
  cases group with
  | absent => nofun
  | present => exact List.forall_mem_singleton.2 rfl

def BlockShaped (Content : TokenKind → String → Prop) (n : Nat) : Prop :=
  ∀ {outermost u next b}, IsBlock n outermost u next b → Holds Content u →
    ∃ nodes, Body Content nodes ∧ b.body = nodes ++ exitAt outermost next ∧ blockNesting b ≤ n

def ProcedureShaped (Content : TokenKind → String → Prop) (n : Nat) : Prop :=
  ∀ {u next a}, IsProcedure n u next a → Holds Content u → Procedure Content a ∧ a.nesting ≤ n

theorem procedures_shaped (procedures : ProcedureShaped Content n) {as : List Node}
    (phrase : AreProcedures n u next as) (holds : Holds Content u) :
    ∀ node ∈ as, Procedure Content node ∧ node.nesting ≤ n := by
  induction as generalizing u with
  | nil => nofun
  | cons a as ih =>
    cases phrase with
    | more first rest =>
      rw [holds_append] at holds
      exact List.forall_mem_cons.2 ⟨procedures first holds.1, ih rest holds.2⟩

theorem block_shaped (procedures : ProcedureShaped Content n) : BlockShaped Content (n + 1) := by
  intro outermost u next b phrase holds
  cases phrase with
  | @mk _ _ _ _ _ _ _ body declarations statement _ =>
    cases declarations with
    | @mk _ _ _ _ _ constants vars declared hasConstants hasVariables phrases =>
      simp only [holds_append] at holds
      have constants' := group_shaped (P := Constant Content) constant_shaped hasConstants holds.1.1
      have vars' := group_shaped (P := Variable Content) variable_shaped hasVariables holds.1.2.1
      have declared' := procedures_shaped procedures phrases holds.1.2.2
      obtain ⟨statement', le⟩ := (statements_shaped n).1 statement holds.2.1
      have first : 1 ≤ n := by
        cases statement <;> omega
      refine ⟨_, .mk constants' vars' (fun node mem => (declared' node mem).1) statement', rfl, ?_⟩
      rw [blockNesting, Nat.add_comm]
      refine Nat.succ_le_succ (nestings_le.2 ⟨first, ?_⟩)
      intro node mem
      simp only [List.mem_append] at mem
      rcases mem with (((mem | mem) | mem) | mem) | mem
      · exact (constants'.nesting_eq node mem).trans_le (Nat.zero_le n)
      · exact (vars'.nesting_eq node mem).trans_le (Nat.zero_le n)
      · exact (declared' node mem).2
      · exact (optionalNesting_le first).1 le node (by simpa using mem)
      · unfold exitAt at mem
        split at mem
        · cases List.mem_singleton.1 mem
          exact Nat.zero_le n
        · cases mem

theorem procedure_shaped (blocks : BlockShaped Content n) : ProcedureShaped Content (n + 1) := by
  intro u next a phrase holds
  cases phrase with
  | @mk _ word name mark _ u b _ named _ body =>
    simp only [holds_cons] at holds
    obtain ⟨nodes, formed, eq, le⟩ := blocks body holds.2.2.2
    refine ⟨procedure_iff.2 ⟨holds_name holds.2.1 named, ?_⟩, ?_⟩
    · rw [eq]
      simpa [exitAt] using formed
    · have nesting : (Node.procedure word.pos name.text b).nesting = 1 + blockNesting b := rfl
      omega

theorem blocks_shaped (n : Nat) : BlockShaped Content n ∧ ProcedureShaped Content n := by
  induction n with
  | zero => exact ⟨fun phrase => (nomatch phrase), fun phrase => (nomatch phrase)⟩
  | succ n ih => exact ⟨block_shaped ih.2, procedure_shaped ih.1⟩

theorem program_shaped {p : PlZero.Program} (phrase : IsProgram n u p) (holds : Holds Content u) :
    Program Content p ∧ p.nesting ≤ n := by
  cases phrase with
  | @mk u point b body dot =>
    rw [holds_append] at holds
    obtain ⟨nodes, formed, eq, le⟩ := (blocks_shaped n).1 body holds.1
    refine ⟨?_, le⟩
    obtain ⟨start, all⟩ := b
    have closed : all = nodes ++ [.exitMarker point.pos] := by simpa [exitAt, dot] using eq
    rw [closed]
    exact .mk formed

end WellFormed

end PlZero
