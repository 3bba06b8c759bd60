import PlZero.Proofs.ProgramReading
import PlZero.Proofs.RuleDiscipline

set_option autoImplicit false

namespace PlZero

/-- A reader has the first of the tokens that are ahead of another one, and no others. -/
structure Reader.Begins (q r : Reader) : Prop where
  ahead : ∃ more, r.ahead = (q.current :: q.feed.tokens).map .ok ++ₛ more
  depth : q.depth = r.depth
  fails : ∃ f, q.feed.last = .error f
  proper : r.feed.Proper

namespace Reader

variable {q q' r r' : Reader} {u : List Token}

theorem Begins.current_eq (h : q.Begins r) : q.current = r.current := by
  obtain ⟨more, ahead⟩ := h.ahead
  have first : Except.ok r.current = (.ok q.current : Except (Failure SyntaxFault) Token) :=
    congrArg (Stream'.get · 0) ahead
  exact (Except.ok.inj first).symm

theorem Begins.advance (h : q.Begins r) :
    (∃ f, Rule.advance q = .error f q ∧ q.feed.tokens = []) ∨
      ∃ q' r', Rule.advance q = .ok q.current q' ∧ Rule.advance r = .ok r.current r' ∧
        q'.Begins r' := by
  obtain ⟨f, last⟩ := h.fails
  obtain ⟨more, ahead⟩ := h.ahead
  cases tokens : q.feed.tokens with
  | nil => exact .inl ⟨f, by simp [Rule.advance, tokens, last], rfl⟩
  | cons t ts =>
    rw [tokens] at ahead
    have step : Rule.advance q = .ok q.current ⟨t, ⟨ts, q.feed.last⟩, q.depth⟩ := by
      simp [Rule.advance, tokens]
    cases other : Rule.advance r with
    | error g s =>
      obtain ⟨_, none, fault⟩ := Rule.advance_error other
      rw [Reader.ahead, none, fault] at ahead
      cases congrArg (Stream'.get · 1) ahead
    | ok t' s =>
      refine .inr ⟨_, s, step, Rule.eq_current_of_advance other ▸ rfl, ⟨more, ?_⟩, ?_, ⟨f, last⟩, ?_⟩
      · rw [ahead_advance other, List.map_cons, Stream'.cons_append_stream] at ahead
        exact (Stream'.cons_injective2 ahead).2
      · rw [Rule.depth_advance other, ← h.depth]
      · exact (stream_advance h.proper other).2

theorem Begins.deeper (h : q.Begins r) (d : Nat) :
    Begins { q with depth := d } { r with depth := d } :=
  ⟨h.ahead, rfl, h.fails, h.proper⟩

theorem tokens_advance {t : Token} (step : Rule.advance r = .ok t r') (more : r.feed.tokens ≠ []) :
    r'.current :: r'.feed.tokens = r.feed.tokens := by
  unfold Rule.advance at step
  split at step
  · next tokens =>
    cases step
    exact tokens.symm
  · contradiction
  · contradiction

-- Where the end is a fault, every token that is read is one of the feed.
theorem Reads.tokens_lt (h : q.Reads u q') (some : u ≠ []) (fails : ∃ f, q.feed.last = .error f) :
    q'.feed.tokens.length < q.feed.tokens.length := by
  induction h with
  | nil => exact absurd rfl some
  | @cons r s t v _ step rest ih =>
    obtain ⟨f, last⟩ := fails
    have more : r.feed.tokens ≠ [] := by
      intro none
      simp [Rule.advance, none, last] at step
    have shorter := congrArg List.length (tokens_advance step more)
    rw [List.length_cons] at shorter
    cases v with
    | nil =>
      cases rest
      omega
    | cons =>
      have later := ih (by simp) ⟨f, (Rule.last_advance step).trans last⟩
      omega

theorem Reads.stream_lt (h : r.Reads u r') (some : u ≠ []) (proper : r.feed.Proper) :
    r'.stream.length < r.stream.length := by
  rw [(h.stream_eq proper).1, List.length_append]
  have read := List.length_pos_iff.2 some
  omega

theorem length_stream_pos (r : Reader) : 0 < r.stream.length := by
  obtain ⟨rest, stream⟩ := r.stream_eq_cons
  simp [stream]

theorem length_stream_le_rounds (r : Reader) : r.stream.length ≤ r.rounds := by
  have bound := r.feed.length_stream_le
  unfold stream rounds
  split <;> simp only [List.length_cons, List.length_nil] <;> omega

end Reader

namespace Rule

variable {α β : Type}

def RanOut (result : EStateM.Result (Failure SyntaxFault) Reader α) : Prop :=
  ∃ f s, result = .error f s ∧ s.feed.tokens = []

inductive SameResult : EStateM.Result (Failure SyntaxFault) Reader α →
    EStateM.Result (Failure SyntaxFault) Reader α → Prop
  | ok {a : α} {q r : Reader} : q.Begins r → SameResult (.ok a q) (.ok a r)
  | error {f : Failure SyntaxFault} {q r : Reader} : q.Begins r →
      SameResult (.error f q) (.error f r)

/-- What a rule does on one reader another does on the other reader, if the first does not run out
of tokens. -/
def Agrees (x : Rule α) (q : Reader) (y : Rule α) (r : Reader) : Prop :=
  RanOut (x q) ∨ SameResult (x q) (y r)

def Steady (x : Rule α) : Prop := ∀ ⦃q r : Reader⦄, q.Begins r → x.Agrees q x r

section

variable {q r : Reader} {x y : Rule α}

theorem Agrees.bindOf {f g : α → Rule β} (first : x.Agrees q y r)
    (rest : ∀ a q' r', x q = .ok a q' → y r = .ok a r' → q'.Begins r' →
      (f a).Agrees q' (g a) r') : (x >>= f).Agrees q (y >>= g) r := by
  rcases first with ⟨e, s, fails, none⟩ | same
  · exact .inl ⟨e, s, bind_error fails, none⟩
  · unfold Agrees
    cases done : x q <;> cases done' : y r <;> rw [done, done'] at same <;> cases same
    case ok.ok.ok a q' r' begins =>
      rw [bind_run done, bind_run done']
      exact rest a q' r' done done' begins
    case error.error.error e q' r' begins =>
      rw [bind_error done, bind_error done']
      exact .inr (.error begins)

theorem Agrees.bind {f g : α → Rule β} (first : x.Agrees q y r)
    (rest : ∀ a, ∀ ⦃q' r' : Reader⦄, q'.Begins r' → (f a).Agrees q' (g a) r') :
    (x >>= f).Agrees q (y >>= g) r :=
  first.bindOf fun a _ _ _ _ begins => rest a begins

theorem Steady.bind {f : α → Rule β} (first : x.Steady) (rest : ∀ a, (f a).Steady) :
    (x >>= f).Steady :=
  fun _ _ begins => (first begins).bind rest

theorem Steady.pure (a : α) : (Pure.pure a : Rule α).Steady := fun _ _ begins => .inr (.ok begins)

theorem Steady.ite {c : Prop} [Decidable c] (yes : x.Steady) (no : y.Steady) :
    (if c then x else y).Steady := by
  split
  · exact yes
  · exact no

theorem steady_throw (f : Failure SyntaxFault) : (throw f : Rule α).Steady :=
  fun _ _ begins => .inr (.error begins)

theorem steady_exhausted : (exhausted : Rule α).Steady := steady_throw _

theorem steady_get {f : Reader → Rule α}
    (rest : ∀ ⦃q r : Reader⦄, q.Begins r → (f q).Agrees q (f r) r) :
    ((get : Rule Reader) >>= f).Steady :=
  rest

theorem steady_current : current.Steady := by
  intro q r begins
  refine .inr ?_
  have same : current q = .ok r.current q := by rw [← begins.current_eq]; rfl
  rw [same]
  exact .ok begins

theorem steady_sees (kind : TokenKind) : (sees kind).Steady :=
  steady_current.bind fun token => .pure (token.kind == kind)

theorem steady_advance : advance.Steady := by
  intro q r begins
  rcases begins.advance with ⟨f, fails, none⟩ | ⟨q', r', step, step', begins'⟩
  · exact .inl ⟨f, q, fails, none⟩
  · unfold Agrees
    rw [step, step', begins.current_eq]
    exact .inr (.ok begins')

theorem Steady.discard {k : Rule β} (first : x.Steady) (rest : k.Steady) :
    (discard x >>= fun _ => k).Steady := by
  intro q r begins
  unfold Agrees
  rw [discard_bind, discard_bind]
  exact (first begins).bind fun _ => rest

theorem Steady.dropped (first : x.Steady) : (Functor.discard x).Steady := by
  rw [← bind_pure (Functor.discard x)]
  exact first.discard (.pure ())

theorem steady_reject (cause : TokenKind → SyntaxFault) : (reject cause : Rule α).Steady :=
  steady_current.bind fun _ => steady_throw _

theorem steady_expect (kind : TokenKind) (place : Place) : (expect kind place).Steady :=
  (steady_sees kind).bind fun _ => .ite steady_advance (steady_reject _)

theorem steady_skip (kind : TokenKind) : (skip kind).Steady :=
  (steady_sees kind).bind fun _ => .ite steady_advance.dropped (.pure ())

theorem Steady.deeper (inner : x.Steady) : (deeper x).Steady := by
  intro q r begins
  have inside := inner (begins.deeper (r.depth + 1))
  unfold Agrees Rule.deeper
  rw [begins.depth]
  rcases inside with ⟨f, s, fails, none⟩ | same
  · rw [fails]
    exact .inl ⟨f, _, rfl, none⟩
  · refine .inr ?_
    cases done : x { q with depth := r.depth + 1 } <;>
      cases done' : x { r with depth := r.depth + 1 } <;> rw [done, done'] at same <;> cases same
    case ok.ok.ok a q' r' begins' =>
      dsimp only
      rw [begins'.depth]
      exact .ok (begins'.deeper _)
    case error.error.error f q' r' begins' =>
      dsimp only
      rw [begins'.depth]
      exact .error (begins'.deeper _)

theorem Steady.guarded (inner : x.Steady) : (guarded x).Steady := by
  intro q r begins
  unfold Agrees
  rcases inner begins with ⟨f, s, fails, none⟩ | same
  · rcases Grammar.guarded_error fails with ⟨g, _, fails'⟩ | fails'
    · exact .inl ⟨g, s, fails', none⟩
    · exact .inl ⟨f, s, fails', none⟩
  · refine .inr ?_
    unfold Rule.guarded
    cases done : x q <;> cases done' : x r <;> rw [done, done'] at same <;> cases same
    case ok.ok.ok a q' r' begins' => exact .ok begins'
    case error.error.error f q' r' begins' =>
      split
      · next equal =>
        cases equal
        rw [begins'.current_eq]
        exact .error begins'
      · next other =>
        split
        · next equal =>
          cases equal
          exact absurd rfl (other q')
        · exact .error begins'

end

variable {q r : Reader}

theorem items_agree {step : Rule (α × Bool)} (steady : step.Steady)
    (productive : Grammar.Productive step) {rounds rounds' : Nat} (begins : q.Begins r)
    (enough : q.feed.tokens.length < rounds) (enough' : r.stream.length ≤ rounds') :
    (items step rounds).Agrees q (items step rounds') r := by
  induction rounds' generalizing q r rounds with
  | zero => exact absurd enough' (Nat.not_le_of_lt r.length_stream_pos)
  | succ rounds' ih =>
    obtain ⟨rounds, rfl⟩ := Nat.exists_eq_succ_of_ne_zero (Nat.ne_zero_of_lt enough)
    refine (steady begins).bindOf fun given q' r' done done' begins' => ?_
    obtain ⟨item, more⟩ := given
    cases more with
    | false => exact Steady.pure _ begins'
    | true =>
      obtain ⟨u, some, reads⟩ := productive done
      obtain ⟨v, some', reads'⟩ := productive done'
      have left := reads.tokens_lt some begins.fails
      have left' := reads'.stream_lt some' begins.proper
      exact (ih begins' (by omega) (by omega)).bind fun _ => Steady.pure _

theorem itemsFrom_agree {start : TokenKind} {rule : Rule α} (steady : rule.Steady)
    (productive : ∀ {r a s}, rule r = .ok a s → ∃ u, u ≠ [] ∧ r.Reads u s) {rounds rounds' : Nat}
    (begins : q.Begins r) (enough : q.feed.tokens.length < rounds)
    (enough' : r.stream.length ≤ rounds') :
    (itemsFrom start rule rounds).Agrees q (itemsFrom start rule rounds') r := by
  induction rounds' generalizing q r rounds with
  | zero => exact absurd enough' (Nat.not_le_of_lt r.length_stream_pos)
  | succ rounds' ih =>
    obtain ⟨rounds, rfl⟩ := Nat.exists_eq_succ_of_ne_zero (Nat.ne_zero_of_lt enough)
    unfold Agrees itemsFrom
    rw [sees_run, sees_run, begins.current_eq]
    cases r.current.kind == start with
    | false => exact Steady.pure _ begins
    | true =>
      refine (steady begins).bindOf fun a q' r' done done' begins' => ?_
      obtain ⟨u, some, reads⟩ := productive done
      obtain ⟨v, some', reads'⟩ := productive done'
      have left := reads.tokens_lt some begins.fails
      have left' := reads'.stream_lt some' begins.proper
      exact (ih begins' (by omega) (by omega)).bind fun _ => Steady.pure _

theorem Steady.itemFrom {rule : Rule α} (start : TokenKind) (steady : rule.Steady) :
    (itemFrom start rule).Steady :=
  (steady_sees start).bind fun _ => .ite (steady.bind fun _ => .pure _) (.pure _)

end Rule

namespace Grammar

open Rule

variable {n : Nat}

theorem steady_identifier (place : Place) : (identifier place).Steady :=
  (steady_expect _ _).bind fun _ => .pure _

theorem steady_separator : separator.Steady :=
  (steady_sees _).bind fun _ => .ite (.pure _) <|
    (steady_sees _).bind fun _ => .ite (steady_advance.discard (.pure _)) (steady_reject _)

theorem steady_constantItem : constantItem.Steady := by
  refine (steady_expect _ _).bind fun name => (steady_expect _ _).discard ?_
  refine steady_current.bind fun value => ?_
  cases value.kind.literalType? with
  | none => exact steady_reject _
  | some type => exact steady_advance.discard (.pure _)

theorem steady_variableItem : variableItem.Steady :=
  (steady_expect _ _).bind fun _ => .pure _

theorem steady_groupRound {item : Rule VariableDeclaration} (steady : item.Steady) :
    (groupRound item).Steady :=
  steady.bind fun _ => steady_separator.bind fun _ => .pure _

theorem steady_group {item : Rule VariableDeclaration} {word : TokenKind} (steady : item.Steady)
    (productive : Productive (groupRound item)) : (group word item).Steady := by
  refine (steady_expect _ _).bind fun start => steady_get fun q r begins => ?_
  refine Agrees.bind ?_ fun group => steady_advance.discard (.pure _)
  exact items_agree (steady_groupRound steady) productive begins (by simp [Reader.rounds])
    r.length_stream_le_rounds

theorem steady_constants : constantGroup.Steady :=
  constantGroup_eq ▸ steady_group steady_constantItem productive_constants

theorem steady_variables : variableGroup.Steady :=
  variableGroup_eq ▸ steady_group steady_variableItem productive_variables

structure ArithmeticSteady (n : Nat) : Prop where
  factor : (factor n).Steady
  unary : (unary n).Steady
  term : (term n).Steady
  expression : (expression n).Steady

theorem steady_factor (ih : ArithmeticSteady n) : (factor (n + 1)).Steady := by
  rw [factor]
  refine steady_current.bind fun token => .ite ((steady_identifier _).bind fun _ => .pure _) ?_
  cases token.kind.literalType? with
  | some type => exact steady_advance.discard (.pure _)
  | none =>
    refine .ite (steady_advance.discard (steady_current.bind fun word => ?_)) (steady_reject _)
    cases word.kind.castType? with
    | some target =>
      exact steady_advance.discard ((steady_expect _ _).discard (ih.factor.bind fun _ => .pure _))
    | none => exact ih.expression.bind fun _ => (steady_expect _ _).discard (.pure _)

theorem steady_unary (ih : ArithmeticSteady n) : (unary (n + 1)).Steady := by
  rw [unary]
  refine steady_current.bind fun token => ?_
  cases token.kind.sign? with
  | none => exact ih.factor
  | some operator => exact steady_advance.discard (ih.unary.bind fun _ => .pure _)

theorem steady_operation {operator? : TokenKind → Option BinaryOperator} {operand rest : Rule Node}
    (first : operand.Steady) (second : rest.Steady) :
    Steady (do
      let start ← current
      let left ← operand
      match operator? (← current).kind with
      | none => return left
      | some operator =>
        discard advance
        return .binary start.pos operator left (← rest)) := by
  refine steady_current.bind fun start => first.bind fun a => steady_current.bind fun sign => ?_
  cases operator? sign.kind with
  | none => exact .pure _
  | some operator => exact steady_advance.discard (second.bind fun _ => .pure _)

theorem arithmetic_steady (n : Nat) : ArithmeticSteady n := by
  induction n with
  | zero =>
    have none : Steady (exhausted : Rule Node) := steady_exhausted
    constructor
    · rwa [factor]
    · rwa [unary]
    · rwa [term]
    · rwa [expression]
  | succ n ih =>
    refine ⟨steady_factor ih, steady_unary ih, ?_, ?_⟩
    · rw [term]
      exact steady_operation ih.unary ih.term
    · rw [expression]
      exact steady_operation ih.term ih.expression

theorem steady_condition (n : Nat) : (condition n).Steady := by
  cases n with
  | zero => exact steady_exhausted
  | succ n =>
    have expressions := (arithmetic_steady n).expression
    refine steady_current.bind fun start => .ite ?_ ?_
    · exact steady_advance.discard (expressions.bind fun _ => .pure _)
    · refine expressions.bind fun a => steady_current.bind fun sign => ?_
      cases sign.kind.comparison? with
      | none => exact steady_reject _
      | some operator => exact steady_advance.discard (expressions.bind fun _ => .pure _)

structure StatementSteady (n : Nat) : Prop where
  statement : (statement n).Steady
  sequence : (sequence n).Steady

theorem steady_statement (ih : StatementSteady n) : (statement (n + 1)).Steady := by
  have expressions := (arithmetic_steady n).expression
  have conditions := steady_condition n
  rw [statement]
  refine steady_current.bind fun start => ?_
  split
  · exact (steady_identifier _).bind fun _ => (steady_expect _ _).discard
      (expressions.bind fun _ => .pure _)
  · exact steady_advance.discard ((steady_identifier _).bind fun _ => .pure _)
  · exact steady_advance.discard ((steady_identifier _).bind fun _ => .pure _)
  · exact steady_advance.discard (expressions.bind fun _ => .pure _)
  · exact ih.sequence.bind fun _ => .pure _
  · exact steady_advance.discard (conditions.bind fun _ => (steady_expect _ _).discard
      (ih.statement.bind fun _ => .pure _))
  · exact steady_advance.discard (conditions.bind fun _ => (steady_expect _ _).discard
      (ih.statement.bind fun _ => .pure _))
  · exact .pure _

theorem steady_sequenceRound (ih : StatementSteady n) : (sequenceRound n).Steady := by
  refine ih.statement.bind fun item => (steady_sees _).bind fun more => ?_
  exact .ite (steady_advance.discard (.pure _)) (.pure _)

theorem steady_sequence (ih : StatementSteady n) : (sequence (n + 1)).Steady := by
  rw [sequence_succ]
  refine (steady_expect _ _).bind fun start => steady_get fun q r begins => ?_
  refine Agrees.bind ?_ fun body => (steady_expect _ _).discard (.pure _)
  exact items_agree (steady_sequenceRound ih) (productive_sequence n) begins
    (by simp [Reader.rounds]) r.length_stream_le_rounds

theorem statements_steady (n : Nat) : StatementSteady n := by
  induction n with
  | zero =>
    constructor
    · rw [statement]
      exact steady_exhausted
    · rw [sequence]
      exact steady_exhausted
  | succ n ih => exact ⟨steady_statement ih, steady_sequence ih⟩

structure BlockSteady (n : Nat) : Prop where
  block : (block n).Steady
  procedure : (procedure n).Steady

theorem steady_declarations (ih : BlockSteady n) :
    Steady (do
      let constants ← itemFrom .constWord constantGroup
      let vars ← itemFrom .varWord variableGroup
      let procedures ← itemsFrom .procedureWord (procedure n) (← get).rounds
      return constants ++ vars ++ procedures) := by
  refine (steady_constants.itemFrom _).bind fun constants => ?_
  refine (steady_variables.itemFrom _).bind fun vars => steady_get fun q r begins => ?_
  refine Agrees.bind ?_ fun procedures => Steady.pure _
  exact itemsFrom_agree ih.procedure reads_procedure begins (by simp [Reader.rounds])
    r.length_stream_le_rounds

theorem steady_block (ih : BlockSteady n) : (block (n + 1)).Steady := by
  rw [block]
  refine steady_get fun q r begins => ?_
  rw [begins.depth, begins.current_eq]
  refine ((steady_declarations ih).deeper begins).bind fun declared => ?_
  refine (statements_steady n).statement.bind fun body => (steady_skip _).bind fun _ => ?_
  exact steady_current.bind fun finish => .pure _

theorem steady_procedure (ih : BlockSteady n) : (procedure (n + 1)).Steady := by
  rw [procedure]
  refine (steady_expect _ _).bind fun start => (steady_expect _ _).bind fun name => ?_
  exact (steady_expect _ _).discard (ih.block.bind fun _ => .pure _)

theorem blocks_steady (n : Nat) : BlockSteady n := by
  induction n with
  | zero =>
    constructor
    · rw [block]
      exact steady_exhausted
    · rw [procedure]
      exact steady_exhausted
  | succ n ih => exact ⟨steady_block ih, steady_procedure ih⟩

theorem steady_program : program.Steady := by
  refine steady_current.bind fun start => (blocks_steady _).block.guarded.bind fun body => ?_
  exact (steady_expect _ _).discard ((steady_expect _ _).discard (.pure _))

theorem steady_fragment : fragment.Steady := by
  refine (blocks_steady _).block.guarded.bind fun body => (steady_skip _).bind fun _ => ?_
  exact (steady_expect _ _).discard (.pure _)

end Grammar

end PlZero
