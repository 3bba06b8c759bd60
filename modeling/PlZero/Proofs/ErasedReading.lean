import PlZero.Proofs.ProgramReading
import PlZero.Proofs.TreeWriting

set_option autoImplicit false

namespace PlZero

def Failure.erase {ε : Type} : Failure ε → Failure ε
  | .report r => .ofCause r.cause
  | .breakdown b => .breakdown b

section Mirrors

variable {ε σ α β γ δ : Type} {erase : σ → σ} {v : α → β} {w : γ → δ}

def eraseResult (erase : σ → σ) (v : α → β) :
    EStateM.Result (Failure ε) σ α → EStateM.Result (Failure ε) σ β
  | .ok a s => .ok (v a) (erase s)
  | .error f s => .error f.erase (erase s)

/-- The second action does without places what the first one does with them. -/
def Mirrors (erase : σ → σ) (v : α → β) (x : EStateM (Failure ε) σ α)
    (y : EStateM (Failure ε) σ β) : Prop :=
  ∀ s, y (erase s) = eraseResult erase v (x s)

namespace Mirrors

variable {x : EStateM (Failure ε) σ α} {y : EStateM (Failure ε) σ β}

theorem pure {a : α} {b : β} (same : b = v a) :
    Mirrors erase v (Pure.pure a : EStateM (Failure ε) σ α) (Pure.pure b) := by
  intro s
  rw [same]
  rfl

theorem throw {f f' : Failure ε} (same : f' = f.erase) :
    Mirrors erase v (MonadExcept.throw f : EStateM (Failure ε) σ α) (MonadExcept.throw f') := by
  intro s
  rw [same]
  rfl

theorem bindOf {k : α → EStateM (Failure ε) σ γ} {l : β → EStateM (Failure ε) σ δ}
    {P : α → Prop} (gives : ∀ s a s', x s = .ok a s' → P a) (first : Mirrors erase v x y)
    (rest : ∀ a, P a → Mirrors erase w (k a) (l (v a))) : Mirrors erase w (x >>= k) (y >>= l) := by
  intro s
  have start := first s
  cases done : x s with
  | ok a s' =>
    rw [done] at start
    have left : (x >>= k) s = k a s' := by simp [Bind.bind, EStateM.bind, done]
    have right : (y >>= l) (erase s) = l (v a) (erase s') := by
      simp [Bind.bind, EStateM.bind, start, eraseResult]
    rw [left, right]
    exact rest a (gives s a s' done) s'
  | error f s' =>
    rw [done] at start
    have left : (x >>= k) s = .error f s' := by simp [Bind.bind, EStateM.bind, done]
    have right : (y >>= l) (erase s) = .error f.erase (erase s') := by
      simp [Bind.bind, EStateM.bind, start, eraseResult]
    rw [left, right]
    rfl

theorem bind {k : α → EStateM (Failure ε) σ γ} {l : β → EStateM (Failure ε) σ δ}
    (first : Mirrors erase v x y) (rest : ∀ a, Mirrors erase w (k a) (l (v a))) :
    Mirrors erase w (x >>= k) (y >>= l) :=
  first.bindOf (P := fun _ => True) (fun _ _ _ _ => trivial) fun a _ => rest a

theorem dropped (same : Mirrors erase v x y) :
    Mirrors erase id (Functor.discard x) (Functor.discard y) := by
  intro s
  have start := same s
  cases done : x s <;> rw [done] at start <;>
    simp [Functor.discard, Functor.mapConst, EStateM.map, start, done, eraseResult]

theorem discard {k : EStateM (Failure ε) σ γ} {l : EStateM (Failure ε) σ δ}
    (first : Mirrors erase v x y) (rest : Mirrors erase w k l) :
    Mirrors erase w (Functor.discard x >>= fun _ => k) (Functor.discard y >>= fun _ => l) :=
  first.dropped.bind fun _ => rest

theorem get : Mirrors erase erase (MonadState.get : EStateM (Failure ε) σ σ) MonadState.get :=
  fun _ => rfl

theorem ite {c : Prop} [Decidable c] {x' : EStateM (Failure ε) σ α} {y' : EStateM (Failure ε) σ β}
    (yes : c → Mirrors erase v x y) (no : ¬c → Mirrors erase v x' y') :
    Mirrors erase v (if c then x else x') (if c then y else y') := by
  split
  · next holds => exact yes holds
  · next fails => exact no fails

end Mirrors

end Mirrors

/-- A token without its place, and without the text that no rule looks at. -/
def Token.erase (t : Token) : Token := ⟨t.kind, t.face.text, default⟩

@[simp] theorem Token.kind_erase (t : Token) : t.erase.kind = t.kind := rfl

theorem Token.text_erase {t : Token} (held : t.kind.holdsText = true) : t.erase.text = t.text :=
  if_pos held

def Feed.erase (f : Feed) : Feed :=
  ⟨f.tokens.map Token.erase, (f.last.map Token.erase).mapError Failure.erase⟩

def Reader.erase (r : Reader) : Reader := ⟨r.current.erase, r.feed.erase, r.depth⟩

namespace Rule

variable {α β : Type} {v : α → α}

theorem mirrors_current : Mirrors Reader.erase Token.erase current current := fun _ => rfl

theorem mirrors_sees (kind : TokenKind) : Mirrors Reader.erase id (sees kind) (sees kind) :=
  fun _ => rfl

theorem mirrors_exhausted : Mirrors Reader.erase v (exhausted : Rule α) exhausted :=
  .throw rfl

theorem mirrors_advance : Mirrors Reader.erase Token.erase advance advance := by
  intro r
  obtain ⟨current, ⟨tokens, last⟩, depth⟩ := r
  cases tokens with
  | cons => rfl
  | nil => cases last <;> rfl

theorem mirrors_reject (cause : TokenKind → SyntaxFault) :
    Mirrors Reader.erase v (reject cause : Rule α) (reject cause) :=
  mirrors_current.bind fun _ => .throw rfl

theorem mirrors_expect (kind : TokenKind) (place : Place) :
    Mirrors Reader.erase Token.erase (expect kind place) (expect kind place) :=
  (mirrors_sees kind).bind fun _ => .ite (fun _ => mirrors_advance) fun _ => mirrors_reject _

theorem kind_of_expect {kind : TokenKind} {place : Place} (r : Reader) (t : Token) (r' : Reader)
    (h : expect kind place r = .ok t r') : t.kind = kind := by
  by_cases seen : r.current.kind = kind
  · rw [expect_run seen] at h
    rw [eq_current_of_advance h, seen]
  · rw [expect_error seen] at h
    cases h

theorem mirrors_expecting {w : α → β} {kind : TokenKind} {place : Place} {k : Token → Rule α}
    {l : Token → Rule β} (rest : ∀ t, t.kind = kind → Mirrors Reader.erase w (k t) (l t.erase)) :
    Mirrors Reader.erase w (expect kind place >>= k) (expect kind place >>= l) :=
  (mirrors_expect kind place).bindOf kind_of_expect rest

theorem mirrors_skip (kind : TokenKind) : Mirrors Reader.erase id (skip kind) (skip kind) :=
  (mirrors_sees kind).bind fun _ =>
    .ite (fun _ => mirrors_advance.dropped) fun _ => .pure rfl

theorem mirrors_deeper {x : Rule α} (same : Mirrors Reader.erase v x x) :
    Mirrors Reader.erase v (deeper x) (deeper x) := by
  intro r
  have inside := same { r with depth := r.depth + 1 }
  have start : { r.erase with depth := r.erase.depth + 1 } =
      Reader.erase { r with depth := r.depth + 1 } := rfl
  unfold deeper
  rw [start, inside]
  cases x { r with depth := r.depth + 1 } <;> rfl

theorem mirrors_guarded {x : Rule α} (same : Mirrors Reader.erase v x x) :
    Mirrors Reader.erase v (guarded x) (guarded x) := by
  intro r
  unfold guarded
  rw [same r]
  cases x r with
  | ok => rfl
  | error f =>
    cases f with
    | report => rfl
    | breakdown b => cases b <;> rfl

theorem rounds_erase (r : Reader) : r.erase.rounds = r.rounds := by
  simp [Reader.rounds, Reader.erase, Feed.erase]

theorem mirrors_items {step : Rule (α × Bool)}
    (same : Mirrors Reader.erase (Prod.map v id) step step) (rounds : Nat) :
    Mirrors Reader.erase (List.map v) (items step rounds) (items step rounds) := by
  induction rounds with
  | zero => exact mirrors_exhausted
  | succ rounds ih =>
    refine same.bind fun (item, more) => ?_
    exact .ite (fun _ => ih.bind fun _ => .pure rfl) fun _ => .pure rfl

theorem mirrors_itemFrom {rule : Rule α} (start : TokenKind)
    (same : Mirrors Reader.erase v rule rule) :
    Mirrors Reader.erase (List.map v) (itemFrom start rule) (itemFrom start rule) :=
  (mirrors_sees start).bind fun _ =>
    .ite (fun _ => same.bind fun _ => .pure rfl) fun _ => .pure rfl

theorem mirrors_itemsFrom {rule : Rule α} (start : TokenKind)
    (same : Mirrors Reader.erase v rule rule) (rounds : Nat) :
    Mirrors Reader.erase (List.map v) (itemsFrom start rule rounds)
      (itemsFrom start rule rounds) := by
  induction rounds with
  | zero => exact mirrors_exhausted
  | succ rounds ih =>
    refine (mirrors_sees start).bind fun _ => .ite (fun _ => ?_) fun _ => .pure rfl
    exact same.bind fun _ => ih.bind fun _ => .pure rfl

end Rule

namespace Grammar

open Rule

variable {n : Nat}

abbrev Placeless {α : Type} (v : α → α) (x : Rule α) : Prop := Mirrors Reader.erase v x x

theorem placeless_identifier (place : Place) : Placeless Identifier.erase (identifier place) := by
  refine mirrors_expecting fun t name => .pure ?_
  rw [Token.text_erase (by rw [name]; rfl)]
  rfl

theorem placeless_separator : Placeless id separator := by
  refine (mirrors_sees _).bind fun _ => .ite (fun _ => .pure rfl) fun _ => ?_
  refine (mirrors_sees _).bind fun _ => .ite (fun _ => ?_) fun _ => mirrors_reject _
  exact mirrors_advance.discard (.pure rfl)

theorem holdsText_of_literalType {k : TokenKind} {type : DataType}
    (literal : k.literalType? = some type) : k.holdsText = true := by
  cases k <;> simp_all [TokenKind.literalType?, TokenKind.holdsText]

theorem placeless_constantItem : Placeless VariableDeclaration.erase constantItem := by
  refine mirrors_expecting fun name named => ?_
  have text := Token.text_erase (t := name) (by rw [named]; rfl)
  rw [text]
  refine (mirrors_expect _ _).discard (mirrors_current.bind fun value => ?_)
  rw [Token.kind_erase]
  cases literal : value.kind.literalType? with
  | none => exact mirrors_reject _
  | some type =>
    refine mirrors_advance.discard (.pure ?_)
    rw [Token.text_erase (holdsText_of_literalType literal)]
    rfl

theorem placeless_group {item : Rule VariableDeclaration} {word : TokenKind}
    (same : Placeless VariableDeclaration.erase item) :
    Placeless Node.erase (do
      let start ← expect word .unnamed
      let group ← items (return (← item, ← separator)) (← get).rounds
      discard advance
      return .declarations start.pos group) := by
  have step : Placeless (Prod.map VariableDeclaration.erase id)
      (do return (← item, ← separator)) :=
    same.bind fun _ => placeless_separator.bind fun _ => .pure rfl
  refine (mirrors_expect _ _).bind fun _ => Mirrors.get.bind fun r => ?_
  rw [rounds_erase]
  refine (mirrors_items step _).bind fun _ => mirrors_advance.discard (.pure ?_)
  rw [Node.erase]
  rfl

theorem placeless_variableItem : Placeless VariableDeclaration.erase variableItem := by
  refine mirrors_expecting fun name named => .pure ?_
  rw [Token.text_erase (by rw [named]; rfl)]
  rfl

structure ArithmeticPlaceless (n : Nat) : Prop where
  factor : Placeless Node.erase (factor n)
  unary : Placeless Node.erase (unary n)
  term : Placeless Node.erase (term n)
  expression : Placeless Node.erase (expression n)

theorem placeless_factor (ih : ArithmeticPlaceless n) : Placeless Node.erase (factor (n + 1)) := by
  rw [Placeless, factor]
  refine mirrors_current.bind fun token => .ite (fun _ => ?_) fun _ => ?_
  · refine (placeless_identifier _).bind fun i => .pure ?_
    rw [Node.erase]
  rw [Token.kind_erase]
  cases literal : token.kind.literalType? with
  | some type =>
    refine mirrors_advance.discard (.pure ?_)
    rw [Token.text_erase (holdsText_of_literalType literal), Node.erase]
    rfl
  | none =>
    refine .ite (fun _ => mirrors_advance.discard (mirrors_current.bind fun word => ?_))
      fun _ => mirrors_reject _
    rw [Token.kind_erase]
    cases word.kind.castType? with
    | some target =>
      refine mirrors_advance.discard ((mirrors_expect _ _).discard (ih.factor.bind fun a => ?_))
      exact .pure (by rw [Node.erase]; rfl)
    | none => exact ih.expression.bind fun a => (mirrors_expect _ _).discard (.pure rfl)

theorem placeless_unary (ih : ArithmeticPlaceless n) : Placeless Node.erase (unary (n + 1)) := by
  rw [Placeless, unary]
  refine mirrors_current.bind fun token => ?_
  rw [Token.kind_erase]
  cases token.kind.sign? with
  | none => exact ih.factor
  | some operator =>
    refine mirrors_advance.discard (ih.unary.bind fun a => .pure ?_)
    rw [Node.erase]
    rfl

-- A term and an expression are read in one way: an operand, and perhaps an operator and the rest.
theorem placeless_operation {operator? : TokenKind → Option BinaryOperator} {operand rest : Rule Node}
    (first : Placeless Node.erase operand) (second : Placeless Node.erase rest) :
    Placeless Node.erase (do
      let start ← current
      let left ← operand
      match operator? (← current).kind with
      | none => return left
      | some operator =>
        discard advance
        return .binary start.pos operator left (← rest)) := by
  refine mirrors_current.bind fun start => first.bind fun a => mirrors_current.bind fun sign => ?_
  rw [Token.kind_erase]
  cases operator? sign.kind with
  | none => exact .pure rfl
  | some operator =>
    refine mirrors_advance.discard (second.bind fun b => .pure ?_)
    rw [Node.erase]
    rfl

theorem arithmetic_placeless (n : Nat) : ArithmeticPlaceless n := by
  induction n with
  | zero =>
    have none : Placeless Node.erase exhausted := mirrors_exhausted
    constructor
    · rwa [factor]
    · rwa [unary]
    · rwa [term]
    · rwa [expression]
  | succ n ih =>
    refine ⟨placeless_factor ih, placeless_unary ih, ?_, ?_⟩
    · rw [term]
      exact placeless_operation ih.unary ih.term
    · rw [expression]
      exact placeless_operation ih.term ih.expression

theorem placeless_condition (n : Nat) : Placeless eraseCondition (condition n) := by
  cases n with
  | zero => exact mirrors_exhausted
  | succ n =>
    have expressions := (arithmetic_placeless n).expression
    refine mirrors_current.bind fun start => .ite (fun _ => ?_) fun _ => ?_
    · refine mirrors_advance.discard (expressions.bind fun a => .pure ?_)
      rw [eraseCondition]
      rfl
    · refine expressions.bind fun a => mirrors_current.bind fun sign => ?_
      rw [Token.kind_erase]
      cases sign.kind.comparison? with
      | none => exact mirrors_reject _
      | some operator =>
        refine mirrors_advance.discard (expressions.bind fun b => .pure ?_)
        rw [eraseCondition]
        rfl

structure StatementPlaceless (n : Nat) : Prop where
  statement : Placeless (Option.map Node.erase) (statement n)
  sequence : Placeless Node.erase (sequence n)

theorem placeless_statement (ih : StatementPlaceless n) :
    Placeless (Option.map Node.erase) (statement (n + 1)) := by
  have expressions := (arithmetic_placeless n).expression
  rw [Placeless, statement]
  refine mirrors_current.bind fun start => ?_
  rw [Token.kind_erase]
  split
  · refine (placeless_identifier _).bind fun target => (mirrors_expect _ _).discard ?_
    refine expressions.bind fun a => .pure ?_
    rw [Option.map_some, Node.erase]
    rfl
  · refine mirrors_advance.discard ((placeless_identifier _).bind fun target => .pure ?_)
    rw [Option.map_some, Node.erase]
    rfl
  · refine mirrors_advance.discard ((placeless_identifier _).bind fun target => .pure ?_)
    rw [Option.map_some, Node.erase]
    rfl
  · refine mirrors_advance.discard (expressions.bind fun a => .pure ?_)
    rw [Option.map_some, Node.erase]
    rfl
  · exact ih.sequence.bind fun a => .pure rfl
  · refine mirrors_advance.discard ((placeless_condition n).bind fun c => ?_)
    refine (mirrors_expect _ _).discard (ih.statement.bind fun body => .pure ?_)
    rw [Option.map_some, Node.erase, eraseOptional_eq]
    rfl
  · refine mirrors_advance.discard ((placeless_condition n).bind fun c => ?_)
    refine (mirrors_expect _ _).discard (ih.statement.bind fun body => .pure ?_)
    rw [Option.map_some, Node.erase, eraseOptional_eq]
    rfl
  · exact .pure rfl

theorem filterMap_erase (body : List (Option Node)) :
    (body.map (Option.map Node.erase)).filterMap id = (body.filterMap id).map Node.erase := by
  rw [List.filterMap_map, List.map_filterMap]
  rfl

theorem placeless_sequence (ih : StatementPlaceless n) :
    Placeless Node.erase (sequence (n + 1)) := by
  rw [Placeless, sequence]
  refine (mirrors_expect _ _).bind fun start => Mirrors.get.bind fun r => ?_
  rw [rounds_erase]
  refine (mirrors_items (v := Option.map Node.erase) ?_ _).bind fun body =>
    (mirrors_expect _ _).discard (.pure ?_)
  · refine ih.statement.bind fun item => (mirrors_sees _).bind fun more => ?_
    exact .ite (fun _ => mirrors_advance.discard (.pure rfl)) fun _ => .pure rfl
  · rw [Node.erase, eraseAll_eq, filterMap_erase]
    rfl

theorem statements_placeless (n : Nat) : StatementPlaceless n := by
  induction n with
  | zero =>
    constructor
    · rw [statement]
      exact mirrors_exhausted
    · rw [sequence]
      exact mirrors_exhausted
  | succ n ih => exact ⟨placeless_statement ih, placeless_sequence ih⟩

structure BlockPlaceless (n : Nat) : Prop where
  block : Placeless eraseBlock (block n)
  procedure : Placeless Node.erase (procedure n)

theorem exitMarker_erase (start : Reader) (finish : Token) :
    (if start.depth = 0 ∧ finish.kind = .dot then [Node.exitMarker finish.pos] else []).map
        Node.erase =
      if start.depth = 0 ∧ finish.kind = .dot then [.exitMarker default] else [] := by
  split
  · rw [List.map_singleton, Node.erase]
  · rfl

theorem toList_erase (body : Option Node) :
    body.toList.map Node.erase = (body.map Node.erase).toList := by
  cases body <;> rfl

theorem placeless_block (ih : BlockPlaceless n) : Placeless eraseBlock (block (n + 1)) := by
  rw [Placeless, block]
  have declarations : Placeless (List.map Node.erase) (deeper do
      let constants ← itemFrom .constWord constantGroup
      let vars ← itemFrom .varWord variableGroup
      let procedures ← itemsFrom .procedureWord (procedure n) (← get).rounds
      return constants ++ vars ++ procedures) := by
    refine mirrors_deeper ((mirrors_itemFrom _ (placeless_group placeless_constantItem)).bind
      fun constants => ?_)
    refine (mirrors_itemFrom _ (placeless_group placeless_variableItem)).bind fun vars => ?_
    refine Mirrors.get.bind fun r => ?_
    rw [rounds_erase]
    refine (mirrors_itemsFrom _ ih.procedure _).bind fun procedures => .pure ?_
    rw [List.map_append, List.map_append]
  refine Mirrors.get.bind fun start => declarations.bind fun declared => ?_
  refine (statements_placeless n).statement.bind fun body => (mirrors_skip _).bind fun _ => ?_
  refine mirrors_current.bind fun finish => .pure ?_
  rw [eraseBlock, eraseAll_eq, List.map_append, List.map_append, exitMarker_erase, toList_erase]
  rfl

theorem placeless_procedure (ih : BlockPlaceless n) :
    Placeless Node.erase (procedure (n + 1)) := by
  rw [Placeless, procedure]
  refine (mirrors_expect _ _).bind fun start => mirrors_expecting fun name named => ?_
  rw [Token.text_erase (t := name) (by rw [named]; rfl)]
  refine (mirrors_expect _ _).discard (ih.block.bind fun b => .pure ?_)
  rw [Node.erase]
  rfl

theorem blocks_placeless (n : Nat) : BlockPlaceless n := by
  induction n with
  | zero =>
    constructor
    · rw [block]
      exact mirrors_exhausted
    · rw [procedure]
      exact mirrors_exhausted
  | succ n ih => exact ⟨placeless_block ih, placeless_procedure ih⟩

theorem placeless_program : Placeless Program.erase program := by
  refine mirrors_current.bind fun start => ?_
  refine (mirrors_guarded (blocks_placeless _).block).bind fun body => ?_
  exact (mirrors_expect _ _).discard ((mirrors_expect _ _).discard (.pure rfl))

end Grammar

theorem Reader.ofFeed_erase (f : Feed) :
    Reader.ofFeed f.erase = ((Reader.ofFeed f).map Reader.erase).mapError Failure.erase := by
  obtain ⟨tokens, last⟩ := f
  cases tokens with
  | cons => rfl
  | nil => cases last <;> rfl

def Feed.readBy {α : Type} (rule : Rule α) (f : Feed) : Except (Failure SyntaxFault) α := do
  match rule (← Reader.ofFeed f) with
  | .ok a _ => .ok a
  | .error f _ => .error f

theorem Feed.readBy_erase {α : Type} {v : α → α} {rule : Rule α}
    (placeless : Grammar.Placeless v rule) (f : Feed) :
    f.erase.readBy rule = ((f.readBy rule).map v).mapError Failure.erase := by
  unfold Feed.readBy
  rw [Reader.ofFeed_erase]
  cases Reader.ofFeed f with
  | error f => rfl
  | ok r =>
    have run := placeless r
    simp only [Except.map, Except.mapError, Bind.bind, Except.bind, run]
    cases rule r <;> rfl

theorem Token.erase_eq_of_face {t t' : Token} (same : t.face = t'.face) : t.erase = t'.erase := by
  have kind : t.kind = t'.kind := congrArg Face.kind same
  rw [Token.erase, Token.erase, same, kind]

theorem scan_erase_eq {source source' : String} {e e' : Token} (last : (scan source).last = .ok e)
    (last' : (scan source').last = .ok e')
    (same : (scan source).tokens.map Token.face = (scan source').tokens.map Token.face) :
    (scan source).erase = (scan source').erase := by
  have ends : e.face = e'.face := by
    have first := (scan_proper source).ends e last
    have second := (scan_proper source').ends e' last'
    rw [(Token.face_eq_word rfl).2 first, (Token.face_eq_word rfl).2 second]
  have tokens : (scan source).tokens.map Token.erase = (scan source').tokens.map Token.erase := by
    have erase (t : Token) : t.erase = ⟨t.face.kind, t.face.text, default⟩ := rfl
    have mapped := congrArg (List.map fun f : Face => Token.mk f.kind f.text default) same
    simpa only [List.map_map, Function.comp_def, ← erase] using mapped
  simp only [Feed.erase, last, last', tokens, Except.map, Except.mapError,
    Token.erase_eq_of_face ends]

theorem parse_erase_eq {source source' : String} (same : (scan source).erase = (scan source').erase) :
    ((parse source).map Program.erase).mapError Failure.erase =
      ((parse source').map Program.erase).mapError Failure.erase := by
  have read := Feed.readBy_erase Grammar.placeless_program (scan source)
  have read' := Feed.readBy_erase Grammar.placeless_program (scan source')
  rw [same] at read
  exact read.symm.trans read'

end PlZero
