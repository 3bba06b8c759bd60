import PlZero.Proofs.Reading
import PlZero.Proofs.Phrase

set_option autoImplicit false

namespace PlZero.Grammar

open Rule Phrase

theorem kind_ne_eof_of_eq_some {β : Type} {f : TokenKind → Option β} {k : TokenKind} {b : β}
    (none : f .eof = none) (some : f k = some b) : k ≠ .eof := by
  rintro rfl
  simp [none] at some

theorem identifier_follows (place : Place) (r : Reader) :
    (identifier place).Follows r
      (fun u _ i => ∃ t : Token, u = [t] ∧ t.kind = .name ∧ i = ⟨t.pos, t.text⟩)
      (fun u t => u = [] ∧ t.kind ≠ .name) := by
  unfold identifier
  refine .expect (by decide) ?_ (fun other => ⟨rfl, other⟩)
  intro s name _
  exact .pure ⟨_, rfl, name, rfl⟩

def FactorFollows (n : Nat) : Prop :=
  ∀ r, (factor n).Follows r (fun u _ => IsFactor n u) (StuckFactor n)

def UnaryFollows (n : Nat) : Prop :=
  ∀ r, (unary n).Follows r (fun u _ => IsUnary n u) (StuckUnary n)

def TermFollows (n : Nat) : Prop := ∀ r, (term n).Follows r (IsTerm n) (StuckTerm n)

def ExpressionFollows (n : Nat) : Prop :=
  ∀ r, (expression n).Follows r (IsExpression n) (StuckExpression n)

theorem factor_follows {n : Nat} (factors : FactorFollows n) (expressions : ExpressionFollows n) :
    FactorFollows (n + 1) := by
  intro r
  unfold factor
  simp only [follows_current]
  split
  · next name =>
    refine .bind (identifier_follows _ r).withHead ?_ ?_
    · rintro u i s _ ⟨_, t, rfl, kind, rfl⟩
      exact .pure (.name kind)
    · rintro u t ⟨head, rfl, other⟩
      exact absurd (congrArg Token.kind head ▸ name) other
  · next name =>
    split
    · next type literal =>
      simp only [follows_discard]
      refine .advance (kind_ne_eof_of_eq_some rfl literal) ?_
      intro s _
      exact .pure (.literal literal)
    · next literal =>
      split
      · next opening =>
        simp only [follows_discard]
        refine .advance (by simp [opening]) ?_
        intro s _
        simp only [follows_current]
        split
        · next target cast =>
          simp only [follows_discard]
          refine .advance (kind_ne_eof_of_eq_some rfl cast) ?_
          intro s' _
          simp only [follows_discard]
          refine .expect (by decide) ?_ (.castEnd opening cast)
          intro s'' closing _
          refine .bind (factors s'') ?_ (fun _ _ => .operand opening cast closing)
          intro u a t _ operand
          exact .pure (by simpa using .cast opening cast closing operand)
        · next cast =>
          refine .bind (expressions s).withHead ?_ ?_
          · rintro u a t _ ⟨_, inner⟩
            simp only [follows_discard]
            refine .expect (by decide) ?_ (fun other => by simpa using .groupEnd opening inner other)
            intro t' closing _
            exact .pure (.group opening inner closing)
          · rintro u t ⟨head, stuck⟩
            exact .inner opening (head ▸ Option.eq_none_iff_forall_ne_some.2 cast) stuck
      · next opening =>
        have noLiteral := Option.eq_none_iff_forall_ne_some.2 literal
        exact .reject (fun _ => rfl) (.start (TokenKind.startsFactor_eq_false name noLiteral opening))

theorem unary_follows {n : Nat} (factors : FactorFollows n) (unaries : UnaryFollows n) :
    UnaryFollows (n + 1) := by
  intro r
  unfold unary
  simp only [follows_current]
  split
  · next sign =>
    refine (factors r).withHead.imp (fun _ _ _ h => .factor h.2) ?_
    rintro u t ⟨head, stuck⟩
    exact .factor (head ▸ sign) stuck
  · next operator sign =>
    simp only [follows_discard]
    refine .advance (kind_ne_eof_of_eq_some rfl sign) ?_
    intro s _
    refine .bind (unaries s) ?_ (fun _ _ => .signed sign)
    intro u a t _ operand
    exact .pure (by simpa using .signed sign operand)

theorem term_follows {n : Nat} (unaries : UnaryFollows n) (terms : TermFollows n) :
    TermFollows (n + 1) := by
  intro r
  unfold term
  simp only [follows_current]
  refine .bind (unaries r).withHead ?_ (fun _ _ h => .left h.2)
  rintro u a s _ ⟨head, left⟩
  simp only [follows_current]
  split
  · next sign => exact .pure (by simpa using .last left sign)
  · next operator sign =>
    obtain ⟨start, u, rfl⟩ := List.exists_cons_of_ne_nil left.ne_nil
    simp only [follows_discard]
    refine .advance (kind_ne_eof_of_eq_some rfl sign) ?_
    intro s' _
    refine .bind (terms s') ?_ (fun _ _ => .right left sign)
    intro v b t _ right
    rw [head]
    exact .pure (by simpa using .more left sign right)

theorem expression_follows {n : Nat} (terms : TermFollows n) (expressions : ExpressionFollows n) :
    ExpressionFollows (n + 1) := by
  intro r
  unfold expression
  simp only [follows_current]
  refine .bind (terms r).withHead ?_ (fun _ _ h => .left h.2)
  rintro u a s _ ⟨head, left⟩
  simp only [follows_current]
  split
  · next sign => exact .pure (by simpa using .last left sign)
  · next operator sign =>
    obtain ⟨start, u, rfl⟩ := List.exists_cons_of_ne_nil left.ne_nil
    simp only [follows_discard]
    refine .advance (kind_ne_eof_of_eq_some rfl sign) ?_
    intro s' _
    refine .bind (expressions s') ?_ (fun _ _ => .right left sign)
    intro v b t _ right
    rw [head]
    exact .pure (by simpa using .more left sign right)

theorem arithmetic_follows (n : Nat) :
    FactorFollows n ∧ UnaryFollows n ∧ TermFollows n ∧ ExpressionFollows n := by
  induction n with
  | zero => exact ⟨fun _ => .exhausted, fun _ => .exhausted, fun _ => .exhausted, fun _ => .exhausted⟩
  | succ n ih =>
    obtain ⟨factors, unaries, terms, expressions⟩ := ih
    exact ⟨factor_follows factors expressions, unary_follows factors unaries,
      term_follows unaries terms, expression_follows terms expressions⟩

def ConditionFollows (n : Nat) : Prop :=
  ∀ r, (condition n).Follows r (IsCondition n) (StuckCondition n)

theorem condition_follows (n : Nat) : ConditionFollows n := by
  cases n with
  | zero => exact fun _ => .exhausted
  | succ n =>
    have expressions := (arithmetic_follows n).2.2.2
    intro r
    unfold condition
    simp only [follows_current]
    split
    · next odd =>
      simp only [follows_discard]
      refine .advance (by simp [odd]) ?_
      intro s _
      refine .bind (expressions s) ?_ (fun _ _ => .odd odd)
      intro u a t _ operand
      exact .pure (by simpa using .odd odd operand)
    · next odd =>
      refine .bind (expressions r).withHead ?_ ?_
      · rintro u a s _ ⟨head, left⟩
        simp only [follows_current]
        split
        · next sign => exact .reject (fun _ => rfl) (by simpa using .sign left sign)
        · next operator sign =>
          obtain ⟨start, u, rfl⟩ := List.exists_cons_of_ne_nil left.ne_nil
          simp only [follows_discard]
          refine .advance (kind_ne_eof_of_eq_some rfl sign) ?_
          intro s' _
          refine .bind (expressions s') ?_ (fun _ _ => .right left sign)
          intro v b t _ right
          rw [head]
          exact .pure (by simpa using .compare left sign right)
      · rintro u t ⟨head, stuck⟩
        exact .left (head ▸ odd) stuck

def Separated {α : Type} (Item : Nat → List Token → Token → α → Prop) (separator : TokenKind)
    (Finish : Token → Prop) (n : Nat) (u : List Token) (next : Token) : α × Bool → Prop
  | (a, true) => ∃ v s, u = v ++ [s] ∧ s.kind = separator ∧ Item n v s a
  | (a, false) => Item n u next a ∧ next.kind ≠ separator ∧ Finish next

theorem items_follows {α : Type} {Item : Nat → List Token → Token → α → Prop}
    {Stuck : Nat → List Token → Token → Prop} {separator : TokenKind} {Finish : Token → Prop}
    {n : Nat} {step : Rule (α × Bool)}
    (steps : ∀ r, step.Follows r (Separated Item separator Finish n)
      (fun u t => Stuck n u t ∨ ∃ a, Item n u t a ∧ t.kind ≠ separator ∧ ¬ Finish t))
    (rounds : Nat) (r : Reader) :
    (items step rounds).Follows r
      (fun u next as => Chain Item separator (n + 1) u next as ∧ Finish next)
      (fun u t => StuckChain Item Stuck separator (n + 1) u t ∨
        ∃ as, Chain Item separator (n + 1) u t as ∧ ¬ Finish t) := by
  induction rounds generalizing r with
  | zero => exact .exhausted
  | succ rounds ih =>
    unfold items
    refine .bind (steps r) ?_ ?_
    · rintro u ⟨a, more⟩ s _ part
      cases more with
      | false =>
        obtain ⟨item, other, finish⟩ := part
        exact .pure ⟨by simpa using .last item other, finish⟩
      | true =>
        obtain ⟨v, mark, rfl, kind, item⟩ := part
        refine .bind (ih s) ?_ ?_
        · rintro w as t _ ⟨chain, finish⟩
          exact .pure ⟨by simpa using .more item kind chain, finish⟩
        · rintro w t (stuck | ⟨as, chain, finish⟩)
          · exact .inl (by simpa using .later item kind stuck)
          · exact .inr ⟨_, by simpa using .more item kind chain, finish⟩
    · rintro u t (stuck | ⟨a, item, other, finish⟩)
      · exact .inl (.item stuck)
      · exact .inr ⟨_, .last item other, finish⟩

theorem separator_follows (r : Reader) :
    separator.Follows r
      (fun u next more => if more then ∃ s : Token, u = [s] ∧ s.kind = .comma
        else u = [] ∧ next.kind = .semicolon)
      (fun u t => u = [] ∧ t.kind ≠ .comma ∧ t.kind ≠ .semicolon) := by
  unfold separator
  simp only [follows_sees, beq_iff_eq]
  split
  · next finish => exact .pure (by simpa using finish)
  · next finish =>
    simp only [follows_sees, beq_iff_eq]
    split
    · next comma =>
      simp only [follows_discard]
      refine .advance (by simp [comma]) ?_
      intro s _
      exact .pure (by simpa using comma)
    · next comma => exact .reject (fun _ => rfl) ⟨rfl, comma, finish⟩

def groupRound (item : Rule VariableDeclaration) : Rule (VariableDeclaration × Bool) := do
  return (← item, ← separator)

theorem groupRound_follows {item : Rule VariableDeclaration}
    {Item : Nat → List Token → Token → VariableDeclaration → Prop}
    {Stuck : Nat → List Token → Token → Prop} (follows : ∀ r, item.Follows r (Item 0) (Stuck 0))
    (r : Reader) :
    (groupRound item).Follows r (Separated Item .comma (·.kind = .semicolon) 0)
      (fun u t => Stuck 0 u t ∨ ∃ a, Item 0 u t a ∧ t.kind ≠ .comma ∧ ¬ t.kind = .semicolon) := by
  refine .bind (follows r) ?_ (fun _ _ => .inl)
  intro u a s _ item
  refine .bind (separator_follows s).withHead ?_ ?_
  · rintro v more t _ ⟨head, part⟩
    cases more with
    | true =>
      obtain ⟨mark, rfl, comma⟩ := part
      rw [head] at item
      exact .pure ⟨u, mark, by simp, comma, item⟩
    | false =>
      obtain ⟨rfl, finish⟩ := part
      rw [head] at item
      exact .pure ⟨by simpa using item, by simp [finish], finish⟩
  · rintro v t ⟨head, rfl, comma, finish⟩
    rw [head] at item
    exact .inr ⟨a, by simpa using item, comma, finish⟩

def group (word : TokenKind) (item : Rule VariableDeclaration) : Rule Node := do
  let start ← expect word .unnamed
  let group ← items (groupRound item) (← get).rounds
  discard advance
  return .declarations start.pos group

theorem constantGroup_eq : constantGroup = group .constWord constantItem := rfl

theorem variableGroup_eq : variableGroup = group .varWord variableItem := rfl

theorem group_follows {word : TokenKind} (notEnd : word ≠ .eof) {item : Rule VariableDeclaration}
    {Item : Nat → List Token → Token → VariableDeclaration → Prop}
    {Stuck : Nat → List Token → Token → Prop} (follows : ∀ r, item.Follows r (Item 0) (Stuck 0))
    (r : Reader) :
    (group word item).Follows r (fun u _ => IsGroup word Item u)
      (fun u t => (u = [] ∧ t.kind ≠ word) ∨ StuckGroup word Item Stuck u t) := by
  refine .expect notEnd ?_ (fun other => .inl ⟨rfl, other⟩)
  intro s start _
  simp only [follows_get]
  refine .bind (items_follows (groupRound_follows follows) _ s) ?_ ?_
  · rintro u group t _ ⟨chain, finish⟩
    simp only [follows_discard]
    refine .advance (by simp [finish]) ?_
    intro t' _
    exact .pure (by simpa using .mk start chain finish)
  · rintro u t (stuck | ⟨group, chain, finish⟩)
    · exact .inr (.item start stuck)
    · exact .inr (.finish start chain finish)

theorem constantItem_follows (r : Reader) :
    constantItem.Follows r (IsConstant 0) (StuckConstant 0) := by
  unfold constantItem
  refine .expect (by decide) ?_ .name
  intro s name _
  simp only [follows_discard]
  refine .expect (by decide) ?_ (.sign name)
  intro s' sign _
  simp only [follows_current]
  split
  · next none => exact .reject (fun _ => rfl) (.value name sign none)
  · next type literal =>
    simp only [follows_discard]
    refine .advance (kind_ne_eof_of_eq_some rfl literal) ?_
    intro s'' _
    exact .pure (.mk name sign literal)

theorem variableItem_follows (r : Reader) :
    variableItem.Follows r (IsVariable 0) (StuckVariable 0) := by
  unfold variableItem
  refine .expect (by decide) ?_ .name
  intro s name _
  exact .pure (.mk name)

theorem itemFrom_follows {start : TokenKind} {rule : Rule Node} {Item : List Token → Node → Prop}
    {Stuck : List Token → Token → Prop}
    (follows : ∀ r, rule.Follows r (fun u _ => Item u)
      (fun u t => (u = [] ∧ t.kind ≠ start) ∨ Stuck u t)) (r : Reader) :
    (itemFrom start rule).Follows r (Optional start Item) Stuck := by
  unfold itemFrom
  simp only [follows_sees, beq_iff_eq]
  split
  · next seen =>
    refine .bind (follows r).withHead ?_ ?_
    · rintro u a s _ ⟨_, item⟩
      exact .pure (by simpa using .present item)
    · rintro u t ⟨head, ⟨rfl, other⟩ | stuck⟩
      · exact absurd (congrArg Token.kind head ▸ seen) other
      · exact stuck
  · next seen => exact .pure (.absent seen)

theorem skip_follows {kind : TokenKind} (notEnd : kind ≠ .eof) (r : Reader) :
    (skip kind).Follows r (fun u next _ => Skipped kind u next) (fun _ _ => False) := by
  unfold skip
  simp only [follows_sees, beq_iff_eq]
  split
  · next seen =>
    rw [← bind_pure (discard advance), follows_discard]
    refine .advance (seen ▸ notEnd) ?_
    intro s _
    exact .pure (.present seen)
  · next seen => exact .pure (.absent seen)

def StatementFollows (n : Nat) : Prop :=
  ∀ r, (statement n).Follows r (IsStatement n) (StuckStatement n)

def SequenceFollows (n : Nat) : Prop :=
  ∀ r, r.current.kind = .beginWord →
    (sequence n).Follows r (fun u _ => IsSequence n u) (StuckSequence n)

theorem statement_follows {n : Nat} (statements : StatementFollows n)
    (sequences : SequenceFollows n) : StatementFollows (n + 1) := by
  have expressions := (arithmetic_follows n).2.2.2
  have conditions := condition_follows n
  intro r
  unfold statement
  simp only [follows_current]
  split
  · next name =>
    refine .bind (identifier_follows _ r).withHead ?_ ?_
    · rintro u i s _ ⟨head, t, rfl, kind, rfl⟩
      simp only [follows_discard]
      refine .expect (by decide) ?_ (.assign kind)
      intro s' sign _
      refine .bind (expressions s') ?_ (fun _ _ => .assigned kind sign)
      intro v a t' _ assigned
      rw [head]
      exact .pure (by simpa using .assignment kind sign assigned)
    · rintro u t ⟨head, rfl, other⟩
      exact absurd (congrArg Token.kind head ▸ name) other
  · next call =>
    simp only [follows_discard]
    refine .advance (by simp [call]) ?_
    intro s _
    refine .bind (identifier_follows _ s) ?_ ?_
    · rintro u i s' _ ⟨t, rfl, name, rfl⟩
      exact .pure (.call call name)
    · rintro u t ⟨rfl, other⟩
      exact .call call other
  · next question =>
    simp only [follows_discard]
    refine .advance (by simp [question]) ?_
    intro s _
    refine .bind (identifier_follows _ s) ?_ ?_
    · rintro u i s' _ ⟨t, rfl, name, rfl⟩
      exact .pure (.input question name)
    · rintro u t ⟨rfl, other⟩
      exact .input question other
  · next bang =>
    simp only [follows_discard]
    refine .advance (by simp [bang]) ?_
    intro s _
    refine .bind (expressions s) ?_ (fun _ _ => .print bang)
    intro u a t _ printed
    exact .pure (by simpa using .print bang printed)
  · next begins =>
    refine .bind (sequences r begins).withHead ?_ ?_
    · rintro u a s _ ⟨_, body⟩
      exact .pure (by simpa using .sequence body)
    · rintro u t ⟨head, stuck⟩
      exact .sequence (head ▸ begins) stuck
  · next ifs =>
    simp only [follows_discard]
    refine .advance (by simp [ifs]) ?_
    intro s _
    refine .bind (conditions s) ?_ (fun _ _ => .condition (.inl ifs))
    intro u c s' _ test
    simp only [follows_discard]
    refine .expect (by decide) ?_ (fun other => by simpa using .thenLink ifs test other)
    intro s'' link _
    refine .bind (statements s'') ?_ (fun _ _ => .thenBody ifs test link)
    intro v body t _ inner
    exact .pure (by simpa using .conditional ifs test link inner)
  · next whiles =>
    simp only [follows_discard]
    refine .advance (by simp [whiles]) ?_
    intro s _
    refine .bind (conditions s) ?_ (fun _ _ => .condition (.inr whiles))
    intro u c s' _ test
    simp only [follows_discard]
    refine .expect (by decide) ?_ (fun other => by simpa using .doLink whiles test other)
    intro s'' link _
    refine .bind (statements s'') ?_ (fun _ _ => .doBody whiles test link)
    intro v body t _ inner
    exact .pure (by simpa using .loop whiles test link inner)
  · next name call question bang begins ifs whiles =>
    exact .pure (.nothing
      (TokenKind.startsStatement_eq_false name call question bang begins ifs whiles))

def sequenceRound (n : Nat) : Rule (Option Node × Bool) := do
  let item ← statement n
  let more ← sees .semicolon
  if more then discard advance
  return (item, more)

theorem sequenceRound_follows {n : Nat} (statements : StatementFollows n) (r : Reader) :
    (sequenceRound n).Follows r (Separated IsStatement .semicolon (fun _ => True) n)
      (fun u t => StuckStatement n u t ∨
        ∃ a, IsStatement n u t a ∧ t.kind ≠ .semicolon ∧ ¬ True) := by
  refine .bind (statements r) ?_ (fun _ _ => .inl)
  intro u item s _ inner
  simp only [follows_sees, beq_iff_eq]
  by_cases mark : s.current.kind = .semicolon
  · simp only [mark, beq_self_eq_true, if_true, follows_discard]
    refine .advance (by simp [mark]) ?_
    intro t _
    exact .pure ⟨u, s.current, rfl, mark, inner⟩
  · simp only [mark, beq_false_of_ne mark, if_false]
    exact .pure ⟨by simpa using inner, mark, trivial⟩

theorem sequence_succ (n : Nat) : sequence (n + 1) = do
    let start ← expect .beginWord .unnamed
    let body ← items (sequenceRound n) (← get).rounds
    discard <| expect .endWord .beginEnd
    return .sequence start.pos (body.filterMap id) := rfl

theorem sequence_follows {n : Nat} (statements : StatementFollows n) : SequenceFollows (n + 1) := by
  intro r begins
  rw [sequence_succ]
  refine .expect (by decide) ?_ (fun other => absurd begins other)
  intro s _ _
  simp only [follows_get]
  refine .bind (items_follows (sequenceRound_follows statements) _ s) ?_ ?_
  · rintro u body t _ ⟨chain, _⟩
    simp only [follows_discard]
    refine .expect (by decide) ?_ (fun other => by simpa using .finish begins chain other)
    intro t' finish _
    exact .pure (by simpa using .mk begins chain finish)
  · rintro u t (stuck | ⟨_, _, never⟩)
    · exact .item begins stuck
    · exact absurd trivial never

theorem statements_follow (n : Nat) : StatementFollows n ∧ SequenceFollows n := by
  induction n with
  | zero => exact ⟨fun _ => .exhausted, fun _ _ => .exhausted⟩
  | succ n ih => exact ⟨statement_follows ih.1 ih.2, sequence_follows ih.1⟩

theorem deeper_follows {α : Type} {rule : Rule α} {r : Reader}
    {Phrase : List Token → Token → α → Prop} {Stuck : List Token → Token → Prop}
    (follows : rule.Follows { r with depth := r.depth + 1 } Phrase Stuck) :
    (deeper rule).Follows r Phrase Stuck := by
  have back {u : List Token} {s : Reader}
      (reads : Reader.Reads { r with depth := r.depth + 1 } u s) :
      r.Reads u { s with depth := s.depth - 1 } := by
    have depth : s.depth - 1 = r.depth := by simp [reads.depth_eq]
    rw [depth]
    exact reads.withDepth r.depth
  unfold Follows at follows ⊢
  unfold deeper
  cases result : rule { r with depth := r.depth + 1 } with
  | ok a s =>
    rw [result] at follows
    obtain ⟨u, reads, phrase⟩ := follows
    exact ⟨u, back reads, phrase⟩
  | error f s =>
    rw [result] at follows
    cases follows with
    | exhausted reads => exact .exhausted (back reads)
    | unscanned reads none last => exact .unscanned (back reads) none last
    | rejected reads cause stuck => exact .rejected (back reads) cause stuck

def BlockFollows (n : Nat) : Prop :=
  ∀ r, (block n).Follows r (IsBlock n (decide (r.depth = 0))) (StuckBlock n)

def ProcedureFollows (n : Nat) : Prop :=
  ∀ r, 0 < r.depth → r.current.kind = .procedureWord →
    (procedure n).Follows r (IsProcedure n) (StuckProcedure n)

theorem procedures_follow {n : Nat} (follows : ProcedureFollows n) (rounds : Nat) (r : Reader)
    (inside : 0 < r.depth) :
    (itemsFrom .procedureWord (procedure n) rounds).Follows r (AreProcedures n)
      (StuckProcedures n) := by
  induction rounds generalizing r with
  | zero => exact .exhausted
  | succ rounds ih =>
    unfold itemsFrom
    simp only [follows_sees, beq_iff_eq]
    split
    · next seen =>
      refine .bind (follows r inside seen).withHead ?_ ?_
      · rintro u a s reads ⟨_, item⟩
        refine .bind (ih s (reads.depth_eq ▸ inside)).withHead ?_ ?_
        · rintro v as t _ ⟨head, rest⟩
          rw [head] at item
          exact .pure (by simpa using .more item rest)
        · rintro v t ⟨head, stuck⟩
          exact .later (head ▸ item) stuck
      · rintro u t ⟨head, stuck⟩
        exact .item (head ▸ seen) stuck
    · next seen => exact .pure (.none seen)

theorem declarations_follow {n : Nat} (follows : ProcedureFollows n) (r : Reader)
    (inside : 0 < r.depth) :
    Rule.Follows (do
        let constants ← itemFrom .constWord constantGroup
        let vars ← itemFrom .varWord variableGroup
        let procedures ← itemsFrom .procedureWord (procedure n) (← get).rounds
        return constants ++ vars ++ procedures) r (AreDeclarations n) (StuckDeclarations n) := by
  refine .bind (itemFrom_follows (fun r => group_follows (by decide) constantItem_follows r) r)
    ?_ (fun _ _ => .constants)
  intro u constants s reads first
  refine .bind (itemFrom_follows (fun r => group_follows (by decide) variableItem_follows r)
    s).withHead ?_ ?_
  · rintro v vars s' reads' ⟨head, second⟩
    rw [head] at first
    simp only [follows_get]
    have inside' : 0 < s'.depth := by rwa [reads'.depth_eq, reads.depth_eq]
    refine .bind (procedures_follow follows _ s' inside').withHead ?_ ?_
    · rintro w procedures t _ ⟨head, third⟩
      rw [head] at first second
      rw [← headD_append] at first
      exact .pure (by simpa only [List.append_nil] using .mk first second third)
    · rintro w t ⟨head, stuck⟩
      rw [head] at first second
      rw [← headD_append] at first
      exact .procedures first second stuck
  · rintro v t ⟨head, stuck⟩
    exact .vars (head ▸ first) stuck

theorem block_follows {n : Nat} (procedures : ProcedureFollows n) : BlockFollows (n + 1) := by
  have statements := (statements_follow n).1
  intro r
  unfold block
  simp only [follows_get]
  refine .bind (deeper_follows (declarations_follow procedures _ (Nat.succ_pos _))) ?_
    (fun _ _ => .declarations)
  intro u declared s reads declarations
  refine .bind (statements s).withHead ?_ ?_
  · rintro v body s' reads' ⟨head, inner⟩
    rw [head] at declarations
    refine .bind (skip_follows (by decide) s').withHead ?_ (fun _ _ h => h.2.elim)
    rintro w _ t reads'' ⟨head, skipped⟩
    rw [head] at declarations inner
    rw [← headD_append] at declarations
    simp only [follows_current]
    have start := (reads.append (reads'.append reads'')).current_eq
    have exit : (if r.depth = 0 ∧ t.current.kind = .dot then [Node.exitMarker t.current.pos] else [])
        = exitAt (decide (r.depth = 0)) t.current := by simp [exitAt]
    rw [start, exit]
    exact .pure (by simpa only [List.append_nil] using .mk declarations inner skipped)
  · rintro v t ⟨head, stuck⟩
    exact .statement (head ▸ declarations) stuck

theorem procedure_follows {n : Nat} (blocks : BlockFollows n) : ProcedureFollows (n + 1) := by
  intro r inside word
  unfold procedure
  refine .expect (by decide) ?_ (fun other => absurd word other)
  intro s _ reads
  refine .expect (by decide) ?_ (.name word)
  intro s' name reads'
  simp only [follows_discard]
  refine .expect (by decide) ?_ (.mark word name)
  intro s'' mark reads''
  have nested : decide (s''.depth = 0) = false := by
    simp [reads''.depth_eq, reads'.depth_eq, reads.depth_eq]
    omega
  refine .bind (blocks s'') ?_ (fun _ _ => .block word name mark)
  intro u b t _ body
  rw [nested] at body
  exact .pure (by simpa using .mk word name mark body)

theorem blocks_follow (n : Nat) : BlockFollows n ∧ ProcedureFollows n := by
  induction n with
  | zero => exact ⟨fun _ => .exhausted, fun _ _ _ => .exhausted⟩
  | succ n ih => exact ⟨block_follows ih.2, procedure_follows ih.1⟩

end PlZero.Grammar
