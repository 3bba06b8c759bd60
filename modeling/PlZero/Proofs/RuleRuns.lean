import PlZero.Proofs.Phrase
import PlZero.Proofs.Reading

set_option autoImplicit false

namespace PlZero

namespace Grammar

open Rule Phrase

variable {r s : Reader} {n : Nat} {u : List Token} {a : Node}

theorem identifier_run {place : Place} {t : Token} (reads : r.Reads [t] s) (name : t.kind = .name) :
    identifier place r = .ok ⟨t.pos, t.text⟩ s := by
  obtain ⟨s', step, _, rest⟩ := reads.tail
  cases rest
  unfold identifier
  rw [bind_run ((expect_run (reads.head ▸ name)).trans step)]
  rfl

def FactorRuns (n : Nat) : Prop :=
  ∀ {r s u a}, IsFactor n u a → r.Reads u s → factor n r = .ok a s

def UnaryRuns (n : Nat) : Prop :=
  ∀ {r s u a}, IsUnary n u a → r.Reads u s → unary n r = .ok a s

def TermRuns (n : Nat) : Prop :=
  ∀ {r s u a}, IsTerm n u s.current a → r.Reads u s → term n r = .ok a s

def ExpressionRuns (n : Nat) : Prop :=
  ∀ {r s u a}, IsExpression n u s.current a → r.Reads u s → expression n r = .ok a s

theorem factor_runs (factors : FactorRuns n) (expressions : ExpressionRuns n) :
    FactorRuns (n + 1) := by
  intro r s u a phrase reads
  have head := reads.current_eq
  unfold factor
  rw [current_run]
  cases phrase with
  | @name _ t name =>
    rw [if_pos (by simpa [head] using name), bind_run (identifier_run reads name)]
    rfl
  | @literal _ t type literal =>
    obtain ⟨s', step, _, rest⟩ := reads.tail
    cases rest
    simp only [List.headD_cons] at head
    simp only [head, TokenKind.ne_name_of_literalType literal, if_false, literal]
    rw [discard_run step]
    rfl
  | @cast _ opening word closing u target a open' cast close operand =>
    obtain ⟨s₁, step₁, _, rest₁⟩ := reads.tail
    obtain ⟨s₂, step₂, _, rest₂⟩ := rest₁.tail
    obtain ⟨s₃, step₃, _, rest₃⟩ := rest₂.tail
    simp only [List.headD_cons] at head
    simp only [head, open', reduceCtorEq, if_false, if_true, TokenKind.literalType?]
    rw [discard_run step₁, current_run, rest₁.head]
    simp only [cast]
    rw [discard_run step₂, discard_run ((expect_run (rest₂.head ▸ close)).trans step₃),
      bind_run (factors operand rest₃)]
    rfl
  | @group _ opening closing u a open' inner close =>
    obtain ⟨s₁, step₁, _, rest₁⟩ := reads.tail
    obtain ⟨s₂, reads₂, rest₂⟩ := rest₁.split
    obtain ⟨s₃, step₃, _, rest₃⟩ := rest₂.tail
    cases rest₃
    simp only [List.headD_cons] at head
    simp only [head, open', reduceCtorEq, if_false, if_true, TokenKind.literalType?]
    rw [discard_run step₁, current_run]
    have noCast := (TokenKind.no_word_of_starts (inner.starts s₂.current)).1
    simp only [reads₂.current_eq, noCast]
    rw [bind_run (expressions (rest₂.head ▸ inner) reads₂),
      discard_run ((expect_run (rest₂.head ▸ close)).trans step₃)]
    rfl

theorem unary_runs (factors : FactorRuns n) (unaries : UnaryRuns n) : UnaryRuns (n + 1) := by
  intro r s u a phrase reads
  have head := reads.current_eq
  unfold unary
  rw [current_run]
  cases phrase with
  | factor factor =>
    simp only [head, TokenKind.sign_of_startsFactor (factor.starts _)]
    exact factors factor reads
  | signed sign operand =>
    obtain ⟨s₁, step₁, _, rest₁⟩ := reads.tail
    simp only [List.headD_cons] at head
    simp only [head, sign]
    rw [discard_run step₁, bind_run (unaries operand rest₁)]
    rfl

theorem term_runs (unaries : UnaryRuns n) (terms : TermRuns n) : TermRuns (n + 1) := by
  intro r s u a phrase reads
  have head := reads.current_eq
  unfold term
  rw [current_run]
  cases phrase with
  | last left sign =>
    rw [bind_run (unaries left reads), current_run]
    simp only [sign]
    rfl
  | more left sign right =>
    obtain ⟨s₁, reads₁, rest₁⟩ := reads.split
    obtain ⟨s₂, step₂, _, rest₂⟩ := rest₁.tail
    rw [bind_run (unaries left reads₁), current_run, rest₁.head]
    simp only [sign]
    rw [discard_run step₂, bind_run (terms right rest₂), head]
    rfl

theorem expression_runs (terms : TermRuns n) (expressions : ExpressionRuns n) :
    ExpressionRuns (n + 1) := by
  intro r s u a phrase reads
  have head := reads.current_eq
  unfold expression
  rw [current_run]
  cases phrase with
  | last left sign =>
    rw [bind_run (terms left reads), current_run]
    simp only [sign]
    rfl
  | more left sign right =>
    obtain ⟨s₁, reads₁, rest₁⟩ := reads.split
    obtain ⟨s₂, step₂, _, rest₂⟩ := rest₁.tail
    rw [bind_run (terms (rest₁.head ▸ left) reads₁), current_run, rest₁.head]
    simp only [sign]
    rw [discard_run step₂, bind_run (expressions right rest₂), head]
    rfl

theorem arithmetic_runs (n : Nat) :
    FactorRuns n ∧ UnaryRuns n ∧ TermRuns n ∧ ExpressionRuns n := by
  induction n with
  | zero => refine ⟨?_, ?_, ?_, ?_⟩ <;> intro r s u a phrase <;> cases phrase
  | succ n ih =>
    obtain ⟨factors, unaries, terms, expressions⟩ := ih
    exact ⟨factor_runs factors expressions, unary_runs factors unaries,
      term_runs unaries terms, expression_runs terms expressions⟩

theorem condition_runs {c : Condition Node} (phrase : IsCondition n u s.current c)
    (reads : r.Reads u s) : condition n r = .ok c s := by
  have head := reads.current_eq
  cases phrase with
  | @odd n word _ u a odd operand =>
    obtain ⟨s₁, step₁, _, rest₁⟩ := reads.tail
    simp only [List.headD_cons] at head
    rw [condition, current_run, if_pos (head ▸ odd), discard_run step₁,
      bind_run ((arithmetic_runs n).2.2.2 operand rest₁), head]
    rfl
  | @compare n start sign _ u v operator a b left comparison right =>
    obtain ⟨s₁, reads₁, rest₁⟩ := reads.split
    obtain ⟨s₂, step₂, _, rest₂⟩ := rest₁.tail
    have noOdd := (TokenKind.no_word_of_starts (left.starts s₁.current)).2
    rw [condition, current_run, if_neg (reads₁.current_eq ▸ noOdd),
      bind_run ((arithmetic_runs n).2.2.2 (rest₁.head ▸ left) reads₁), current_run, rest₁.head]
    simp only [comparison]
    rw [discard_run step₂, bind_run ((arithmetic_runs n).2.2.2 right rest₂), head]
    rfl

theorem items_run {α : Type} {Item : Nat → List Token → Token → α → Prop} {separator : TokenKind}
    (Finish : Token → Prop) {step : Rule (α × Bool)}
    (last : ∀ {r s : Reader} {u a}, r.feed.Proper → r.Reads u s → Item n u s.current a →
      s.current.kind ≠ separator → Finish s.current → step r = .ok (a, false) s)
    (more : ∀ {r s : Reader} {u t a}, r.feed.Proper → r.Reads (u ++ [t]) s → Item n u t a →
      t.kind = separator → step r = .ok (a, true) s)
    {rounds : Nat} {as : List α} (proper : r.feed.Proper) (reads : r.Reads u s)
    (chain : Chain Item separator (n + 1) u s.current as) (finish : Finish s.current)
    (enough : as.length ≤ rounds) : items step rounds r = .ok as s := by
  induction rounds generalizing r u as with
  | zero => cases chain <;> simp at enough
  | succ rounds ih =>
    unfold items
    cases chain with
    | last item other =>
      rw [bind_run (last proper reads item other finish)]
      rfl
    | @more _ u v mark _ a as item kind rest =>
      have whole : r.Reads ((u ++ [mark]) ++ v) s := by simpa using reads
      obtain ⟨s₁, reads₁, reads₂⟩ := whole.split
      have proper₁ := (reads₁.stream_eq proper).2
      rw [bind_run (more proper reads₁ item kind)]
      simp only [if_true]
      rw [bind_run (ih proper₁ reads₂ rest (by simpa using enough))]
      rfl

theorem constantItem_run {d : VariableDeclaration} (phrase : IsConstant n u s.current d)
    (reads : r.Reads u s) : constantItem r = .ok d s := by
  cases phrase with
  | mk name sign literal =>
    obtain ⟨s₁, step₁, _, rest₁⟩ := reads.tail
    obtain ⟨s₂, step₂, _, rest₂⟩ := rest₁.tail
    obtain ⟨s₃, step₃, _, rest₃⟩ := rest₂.tail
    cases rest₃
    unfold constantItem
    rw [bind_run ((expect_run (reads.head ▸ name)).trans step₁),
      discard_run ((expect_run (rest₁.head ▸ sign)).trans step₂), current_run, rest₂.head]
    simp only [literal]
    rw [discard_run step₃]
    rfl

theorem variableItem_run {d : VariableDeclaration} (phrase : IsVariable n u s.current d)
    (reads : r.Reads u s) : variableItem r = .ok d s := by
  cases phrase with
  | mk name =>
    obtain ⟨s₁, step₁, _, rest₁⟩ := reads.tail
    cases rest₁
    unfold variableItem
    rw [bind_run ((expect_run (reads.head ▸ name)).trans step₁)]
    rfl

theorem separator_run_last (finish : r.current.kind = .semicolon) :
    separator r = .ok false r := by
  unfold separator
  rw [sees_run, finish]
  rfl

theorem separator_run_more {t : Token} (step : advance r = .ok t s)
    (comma : r.current.kind = .comma) : separator r = .ok true s := by
  unfold separator
  rw [sees_run, comma]
  simp only [beq_iff_eq, reduceCtorEq, if_false]
  rw [sees_run, comma]
  simp only [beq_self_eq_true, if_true]
  rw [discard_run step]
  rfl

theorem group_run {word : TokenKind} {item : Rule VariableDeclaration}
    {Item : Nat → List Token → Token → VariableDeclaration → Prop}
    (run : ∀ {r s u d}, Item 0 u s.current d → r.Reads u s → item r = .ok d s)
    (proper : r.feed.Proper) (phrase : IsGroup word Item u a) (reads : r.Reads u s) :
    (do
      let start ← expect word .unnamed
      let group ← items (return (← item, ← separator)) (← get).rounds
      discard advance
      return Node.declarations start.pos group : Rule Node) r = .ok a s := by
  cases phrase with
  | @mk start finish u group word chain mark =>
    obtain ⟨s₁, step₁, reads₁, rest₁⟩ := reads.tail
    obtain ⟨s₂, reads₂, rest₂⟩ := rest₁.split
    obtain ⟨s₃, step₃, _, rest₃⟩ := rest₂.tail
    cases rest₃
    have proper₁ := (reads₁.stream_eq proper).2
    have enough : group.length ≤ s₁.rounds := by
      have bound := reads₂.length_le proper₁
      have items := chain.length_le
      unfold Reader.rounds
      omega
    rw [bind_run ((expect_run (reads.head ▸ word)).trans step₁), get_run]
    rw [bind_run (items_run (·.kind = .semicolon) ?_ ?_ proper₁ reads₂
      (rest₂.head ▸ chain) (rest₂.head ▸ mark) enough), discard_run step₃]
    · rfl
    · intro r s u d _ reads phrase _ finish
      rw [bind_run (run phrase reads), bind_run (separator_run_last finish)]
      rfl
    · intro r s u t d _ reads phrase comma
      obtain ⟨r₁, reads₁, rest₁⟩ := reads.split
      obtain ⟨r₂, step₂, _, rest₂⟩ := rest₁.tail
      cases rest₂
      rw [bind_run (run (rest₁.head ▸ phrase) reads₁),
        bind_run (separator_run_more step₂ (rest₁.head ▸ comma))]
      rfl

def StatementRuns (n : Nat) : Prop :=
  ∀ {r s : Reader} {u a}, r.feed.Proper → r.Reads u s → IsStatement n u s.current a →
    statement n r = .ok a s

def SequenceRuns (n : Nat) : Prop :=
  ∀ {r s : Reader} {u a}, r.feed.Proper → r.Reads u s → IsSequence n u a → sequence n r = .ok a s

theorem statement_runs (statements : StatementRuns n) (sequences : SequenceRuns n) :
    StatementRuns (n + 1) := by
  have expressions := @(arithmetic_runs n).2.2.2
  intro r s u a proper reads phrase
  have head := reads.current_eq
  unfold statement
  rw [current_run]
  cases phrase with
  | @assignment _ name sign _ u a kind assign assigned =>
    have whole : r.Reads ([name] ++ sign :: u) s := reads
    obtain ⟨s₁, reads₁, rest₁⟩ := whole.split
    obtain ⟨s₂, step₂, _, rest₂⟩ := rest₁.tail
    simp only [List.headD_cons] at head
    simp only [head, kind]
    rw [bind_run (identifier_run reads₁ kind),
      discard_run ((expect_run (rest₁.head ▸ assign)).trans step₂), bind_run (expressions assigned rest₂)]
    rfl
  | @call _ word name _ call kind =>
    obtain ⟨s₁, step₁, _, rest₁⟩ := reads.tail
    simp only [List.headD_cons] at head
    simp only [head, call]
    rw [discard_run step₁, bind_run (identifier_run rest₁ kind)]
    rfl
  | @input _ mark name _ question kind =>
    obtain ⟨s₁, step₁, _, rest₁⟩ := reads.tail
    simp only [List.headD_cons] at head
    simp only [head, question]
    rw [discard_run step₁, bind_run (identifier_run rest₁ kind)]
    rfl
  | @print _ mark _ u a bang printed =>
    obtain ⟨s₁, step₁, _, rest₁⟩ := reads.tail
    simp only [List.headD_cons] at head
    simp only [head, bang]
    rw [discard_run step₁, bind_run (expressions printed rest₁)]
    rfl
  | sequence body =>
    simp only [head, body.starts _]
    rw [bind_run (sequences proper reads body)]
    rfl
  | @conditional _ word link _ u v c body ifs test link' inner =>
    obtain ⟨s₁, step₁, reads₁, rest₁⟩ := reads.tail
    obtain ⟨s₂, reads₂, rest₂⟩ := rest₁.split
    obtain ⟨s₃, step₃, reads₃, rest₃⟩ := rest₂.tail
    have proper₃ := ((reads₁.append (reads₂.append reads₃)).stream_eq proper).2
    simp only [List.headD_cons] at head
    simp only [head, ifs]
    rw [discard_run step₁, bind_run (condition_runs (rest₂.head ▸ test) reads₂),
      discard_run ((expect_run (rest₂.head ▸ link')).trans step₃),
      bind_run (statements proper₃ rest₃ inner)]
    rfl
  | @loop _ word link _ u v c body whiles test link' inner =>
    obtain ⟨s₁, step₁, reads₁, rest₁⟩ := reads.tail
    obtain ⟨s₂, reads₂, rest₂⟩ := rest₁.split
    obtain ⟨s₃, step₃, reads₃, rest₃⟩ := rest₂.tail
    have proper₃ := ((reads₁.append (reads₂.append reads₃)).stream_eq proper).2
    simp only [List.headD_cons] at head
    simp only [head, whiles]
    rw [discard_run step₁, bind_run (condition_runs (rest₂.head ▸ test) reads₂),
      discard_run ((expect_run (rest₂.head ▸ link')).trans step₃),
      bind_run (statements proper₃ rest₃ inner)]
    rfl
  | nothing nothing =>
    cases reads
    cases kind : r.current.kind <;> simp_all [TokenKind.startsStatement] <;> rfl

theorem sequence_runs (statements : StatementRuns n) : SequenceRuns (n + 1) := by
  intro r s u a proper reads phrase
  cases phrase with
  | @mk _ word finish u body begins chain ends =>
    obtain ⟨s₁, step₁, reads₁, rest₁⟩ := reads.tail
    obtain ⟨s₂, reads₂, rest₂⟩ := rest₁.split
    obtain ⟨s₃, step₃, _, rest₃⟩ := rest₂.tail
    cases rest₃
    have proper₁ := (reads₁.stream_eq proper).2
    have enough : body.length ≤ s₁.rounds := by
      have bound := reads₂.length_le proper₁
      have items := chain.length_le
      unfold Reader.rounds
      omega
    unfold sequence
    rw [bind_run ((expect_run (reads.head ▸ begins)).trans step₁), get_run]
    rw [bind_run (items_run (fun _ => True) ?_ ?_ proper₁ reads₂
      (rest₂.head ▸ chain) trivial enough), discard_run ((expect_run (rest₂.head ▸ ends)).trans step₃)]
    · rfl
    · intro r s u item proper reads phrase other _
      rw [bind_run (statements proper reads phrase), sees_run]
      simp only [beq_false_of_ne other]
      rfl
    · intro r s u t item proper reads phrase mark
      obtain ⟨r₁, reads₁, rest₁⟩ := reads.split
      obtain ⟨r₂, step₂, _, rest₂⟩ := rest₁.tail
      cases rest₂
      rw [bind_run (statements proper reads₁ (rest₁.head ▸ phrase)), sees_run, rest₁.head]
      simp only [mark, beq_self_eq_true, if_true]
      rw [discard_run step₂]
      rfl

theorem statements_run (n : Nat) : StatementRuns n ∧ SequenceRuns n := by
  induction n with
  | zero => constructor <;> intro r s u a _ _ phrase <;> cases phrase
  | succ n ih => exact ⟨statement_runs ih.1 ih.2, sequence_runs ih.1⟩

theorem itemFrom_run {start : TokenKind} {rule : Rule Node} {Item : List Token → Node → Prop}
    {as : List Node} (run : ∀ {a}, Item u a → rule r = .ok a s)
    (starts : ∀ {a}, Item u a → (u.headD s.current).kind = start)
    (phrase : Optional start Item u s.current as) (reads : r.Reads u s) :
    itemFrom start rule r = .ok as s := by
  unfold itemFrom
  rw [sees_run]
  cases phrase with
  | absent other =>
    cases reads
    simp only [beq_false_of_ne other]
    rfl
  | present item =>
    simp only [reads.current_eq, starts item, beq_self_eq_true, if_true]
    rw [bind_run (run item)]
    rfl

theorem skip_run {kind : TokenKind} (phrase : Skipped kind u s.current) (reads : r.Reads u s) :
    skip kind r = .ok () s := by
  unfold skip
  rw [sees_run]
  cases phrase with
  | absent other =>
    cases reads
    simp only [beq_false_of_ne other]
    rfl
  | present kind =>
    obtain ⟨s₁, step₁, _, rest₁⟩ := reads.tail
    cases rest₁
    simp only [reads.head, kind, beq_self_eq_true, if_true]
    rw [← bind_pure (discard advance), discard_run step₁]
    rfl

theorem deeper_run {α : Type} {rule : Rule α} {a : α} (reads : r.Reads u s)
    (run : rule { r with depth := r.depth + 1 } = .ok a { s with depth := r.depth + 1 }) :
    deeper rule r = .ok a s := by
  unfold deeper
  rw [run]
  simp [← reads.depth_eq]

def BlockRuns (n : Nat) : Prop :=
  ∀ {r s : Reader} {u b}, r.feed.Proper → r.Reads u s →
    IsBlock n (decide (r.depth = 0)) u s.current b → block n r = .ok b s

def ProcedureRuns (n : Nat) : Prop :=
  ∀ {r s : Reader} {u a}, r.feed.Proper → 0 < r.depth → r.Reads u s →
    IsProcedure n u s.current a → procedure n r = .ok a s

theorem procedures_run (run : ProcedureRuns n) {rounds : Nat} {as : List Node}
    (proper : r.feed.Proper) (inside : 0 < r.depth) (reads : r.Reads u s)
    (phrase : AreProcedures n u s.current as) (enough : as.length < rounds) :
    itemsFrom .procedureWord (procedure n) rounds r = .ok as s := by
  induction rounds generalizing r u as with
  | zero => omega
  | succ rounds ih =>
    unfold itemsFrom
    rw [sees_run]
    cases phrase with
    | none other =>
      cases reads
      simp only [beq_false_of_ne other]
      rfl
    | @more _ u v _ a as item rest =>
      obtain ⟨s₁, reads₁, rest₁⟩ := reads.split
      rw [← rest₁.current_eq] at item
      simp only [reads₁.current_eq, item.starts _, beq_self_eq_true, if_true]
      rw [bind_run (run proper inside reads₁ item),
        bind_run (ih (reads₁.stream_eq proper).2 (reads₁.depth_eq ▸ inside) rest₁ rest
          (by simpa using enough))]
      rfl

theorem declarations_run (run : ProcedureRuns n) {declared : List Node} (proper : r.feed.Proper)
    (inside : 0 < r.depth) (reads : r.Reads u s) (phrase : AreDeclarations n u s.current declared) :
    (do
      let constants ← itemFrom .constWord constantGroup
      let vars ← itemFrom .varWord variableGroup
      let procedures ← itemsFrom .procedureWord (procedure n) (← get).rounds
      return constants ++ vars ++ procedures : Rule (List Node)) r = .ok declared s := by
  cases phrase with
  | @mk _ u v w _ constants vars procedures first second third =>
    obtain ⟨s₁, reads₁, rest₁⟩ := reads.split
    obtain ⟨s₂, reads₂, rest₂⟩ := rest₁.split
    have proper₁ := (reads₁.stream_eq proper).2
    have proper₂ := (reads₂.stream_eq proper₁).2
    have inside₂ : 0 < s₂.depth := by rwa [reads₂.depth_eq, reads₁.depth_eq]
    rw [← rest₁.current_eq] at first
    rw [← rest₂.current_eq] at second
    have enough : procedures.length < s₂.rounds := by
      have bound := rest₂.length_le proper₂
      have items := third.length_le
      unfold Reader.rounds
      omega
    have firstRun : itemFrom .constWord constantGroup r = .ok constants s₁ :=
      itemFrom_run (fun item => group_run constantItem_run proper item reads₁)
        (fun item => item.starts _) first reads₁
    have secondRun : itemFrom .varWord variableGroup s₁ = .ok vars s₂ :=
      itemFrom_run (fun item => group_run variableItem_run proper₁ item reads₂)
        (fun item => item.starts _) second reads₂
    rw [bind_run firstRun, bind_run secondRun, get_run,
      bind_run (procedures_run run proper₂ inside₂ rest₂ third enough)]
    rfl

theorem block_runs (run : ProcedureRuns n) : BlockRuns (n + 1) := by
  intro r s u b proper reads phrase
  have head := reads.current_eq
  cases phrase with
  | @mk _ _ u v w _ declared body declarations inner skipped =>
    obtain ⟨s₁, reads₁, rest₁⟩ := reads.split
    obtain ⟨s₂, reads₂, rest₂⟩ := rest₁.split
    have proper₁ := (reads₁.stream_eq proper).2
    rw [← rest₁.current_eq] at declarations
    rw [← rest₂.current_eq] at inner
    unfold block
    rw [get_run, bind_run (deeper_run reads₁ (declarations_run run proper (Nat.succ_pos _)
        (reads₁.withDepth (r.depth + 1)) declarations)),
      bind_run ((statements_run n).1 proper₁ reads₂ inner), bind_run (skip_run skipped rest₂),
      current_run, head]
    simp only [exitAt, decide_eq_true_eq]
    rfl

theorem procedure_runs (run : BlockRuns n) : ProcedureRuns (n + 1) := by
  intro r s u a proper inside reads phrase
  cases phrase with
  | @mk _ word name mark _ u b word' name' mark' body =>
    obtain ⟨s₁, step₁, reads₁, rest₁⟩ := reads.tail
    obtain ⟨s₂, step₂, reads₂, rest₂⟩ := rest₁.tail
    obtain ⟨s₃, step₃, reads₃, rest₃⟩ := rest₂.tail
    have reads' := reads₁.append (reads₂.append reads₃)
    have nested : decide (s₃.depth = 0) = false := by
      rw [reads'.depth_eq]
      simpa using Nat.ne_of_gt inside
    unfold procedure
    rw [bind_run ((expect_run (reads.head ▸ word')).trans step₁),
      bind_run ((expect_run (rest₁.head ▸ name')).trans step₂),
      discard_run ((expect_run (rest₂.head ▸ mark')).trans step₃),
      bind_run (run (reads'.stream_eq proper).2 rest₃ (nested ▸ body))]
    rfl

theorem blocks_run (n : Nat) : BlockRuns n ∧ ProcedureRuns n := by
  induction n with
  | zero =>
    constructor
    · intro r s u b _ _ phrase
      cases phrase
    · intro r s u a _ _ _ phrase
      cases phrase
  | succ n ih => exact ⟨block_runs ih.2, procedure_runs ih.1⟩

end Grammar

end PlZero
