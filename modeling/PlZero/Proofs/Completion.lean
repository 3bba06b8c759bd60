import PlZero.Proofs.PhraseContext
import PlZero.Proofs.Spelling

set_option autoImplicit false

namespace PlZero

namespace Phrase

def Viable (u : List Token) (Done : List Token → Prop) : Prop :=
  ∃ c : List TokenKind, (∀ k ∈ c, k.spelling ≠ []) ∧
    ∀ cs : List Token, cs.map Token.kind = c → Done (u ++ cs)

namespace Viable

variable {u : List Token} {Done Done' : List Token → Prop}

theorem after (v : List Token) (h : Viable u Done) (step : ∀ w, Done w → Done' (v ++ w)) :
    Viable (v ++ u) Done' := by
  obtain ⟨c, spelled, done⟩ := h
  refine ⟨c, spelled, fun cs kinds => ?_⟩
  rw [List.append_assoc]
  exact step _ (done cs kinds)

theorem followed (k : TokenKind) (spelled : k.spelling ≠ []) (h : Viable u Done)
    (step : ∀ w t, t.kind = k → Done w → Done' (w ++ [t])) : Viable u Done' := by
  obtain ⟨c, spelled', done⟩ := h
  refine ⟨c ++ [k], ?_, fun cs kinds => ?_⟩
  · intro k' mem
    rcases List.mem_append.1 mem with mem | mem
    · exact spelled' k' mem
    · cases List.mem_singleton.1 mem
      exact spelled
  · obtain ⟨vs, ws, rfl, first, last⟩ := List.map_eq_append_iff.1 kinds
    obtain ⟨t, rfl, kind⟩ := List.map_eq_singleton_iff.1 last
    rw [← List.append_assoc]
    exact step _ t kind (done vs first)

theorem imp (h : Viable u Done) (step : ∀ w, Done w → Done' w) : Viable u Done' :=
  after [] h step

theorem done (h : Done u) : Viable u Done := by
  refine ⟨[], nofun, fun cs kinds => ?_⟩
  rw [List.map_eq_nil_iff.1 kinds, List.append_nil]
  exact h

theorem token (k : TokenKind) (spelled : k.spelling ≠ [])
    (step : ∀ t : Token, t.kind = k → Done (u ++ [t])) : Viable u Done :=
  followed k spelled (done rfl : Viable u (· = u)) fun _ t kind same => same ▸ step t kind

theorem followedBoth (k k' : TokenKind) (spelled : k.spelling ≠ []) (spelled' : k'.spelling ≠ [])
    (h : Viable u Done)
    (step : ∀ w t t', t.kind = k → t'.kind = k' → Done w → Done' (w ++ [t, t'])) :
    Viable u Done' := by
  have first : Viable u fun w => ∃ v t, t.kind = k ∧ Done v ∧ w = v ++ [t] :=
    h.followed k spelled fun w t kind done => ⟨w, t, kind, done, rfl⟩
  refine first.followed k' spelled' fun _ t' kind' ⟨w, t, kind, done, eq⟩ => ?_
  rw [eq, List.append_assoc]
  exact step w t t' kind kind' done

theorem tokens (k k' : TokenKind) (spelled : k.spelling ≠ []) (spelled' : k'.spelling ≠ [])
    (step : ∀ t t' : Token, t.kind = k → t'.kind = k' → Done (u ++ [t, t'])) : Viable u Done :=
  followedBoth k k' spelled spelled' (done rfl : Viable u (· = u)) fun _ t t' kind kind' same =>
    same ▸ step t t' kind kind'

end Viable

section Arithmetic

variable {n : Nat} {u : List Token} {t : Token}

def WholeTerm (n : Nat) (u : List Token) : Prop :=
  ∀ next : Token, next.kind.multiplicative? = none → ∃ a, IsTerm n u next a

def WholeExpression (n : Nat) (u : List Token) : Prop :=
  ∀ next : Token, EndsExpression next.kind → ∃ a, IsExpression n u next a

def WholeCondition (n : Nat) (u : List Token) : Prop :=
  ∀ next : Token, EndsExpression next.kind → ∃ c, IsCondition n u next c

theorem IsExpression.whole {a : Node} (phrase : IsExpression n u t a) :
    WholeExpression (n + 4) u :=
  fun _ ends => ⟨a, (arithmetic_lifts n).2.2.2 (Nat.le_add_right n 4) (phrase.before ends)⟩

theorem wholeExpression_name {name : Token} (kind : name.kind = .name) :
    WholeExpression (n + 4) [name] :=
  fun _ ends =>
    ⟨_, .last (.last (.factor (.name kind)) ends.multiplicative) ends.additive⟩

def FactorViable (n : Nat) : Prop :=
  ∀ {u t}, StuckFactor n u t → Viable u fun w => ∃ a, IsFactor (n + 4) w a

def UnaryViable (n : Nat) : Prop :=
  ∀ {u t}, StuckUnary n u t → Viable u fun w => ∃ a, IsUnary (n + 4) w a

def TermViable (n : Nat) : Prop := ∀ {u t}, StuckTerm n u t → Viable u (WholeTerm (n + 4))

def ExpressionViable (n : Nat) : Prop :=
  ∀ {u t}, StuckExpression n u t → Viable u (WholeExpression (n + 4))

theorem factor_viable (factors : FactorViable n) (expressions : ExpressionViable n) :
    FactorViable (n + 1) := by
  have closes {closing : Token} (right : closing.kind = .rightParen) :
      EndsExpression closing.kind := by
    rw [right]; exact ⟨rfl, rfl⟩
  intro u t phrase
  cases phrase with
  | start _ => exact .token .name (by decide) fun t name => ⟨_, .name name⟩
  | castEnd opening cast _ =>
    exact .tokens .rightParen .name (by decide) (by decide) fun t t' right name =>
      ⟨_, .cast opening cast right (.name name)⟩
  | @operand _ opening word closing _ _ _ left cast right stuck =>
    exact (factors stuck).after [opening, word, closing] fun w ⟨_, operand⟩ =>
      ⟨_, .cast left cast right operand⟩
  | @inner _ opening _ _ left _ stuck =>
    refine ((expressions stuck).followed .rightParen (by decide) fun w t right whole => ?_).after
      [opening] fun w h => h
    obtain ⟨a, inner⟩ := whole t (closes right)
    exact ⟨a, .group left inner right⟩
  | groupEnd left inner _ =>
    refine .token .rightParen (by decide) fun t right => ?_
    obtain ⟨a, inner⟩ := inner.whole t (closes right)
    exact ⟨a, .group left inner right⟩

theorem unary_viable (factors : FactorViable n) (unaries : UnaryViable n) :
    UnaryViable (n + 1) := by
  intro u t phrase
  cases phrase with
  | factor _ stuck => exact (factors stuck).imp fun w ⟨a, phrase⟩ => ⟨a, .factor phrase⟩
  | @signed _ sign _ _ _ kind stuck =>
    exact (unaries stuck).after [sign] fun w ⟨_, operand⟩ => ⟨_, .signed kind operand⟩

theorem term_viable (unaries : UnaryViable n) (terms : TermViable n) : TermViable (n + 1) := by
  intro u t phrase
  cases phrase with
  | left stuck =>
    exact (unaries stuck).imp fun w ⟨a, left⟩ next ends => ⟨a, .last left ends⟩
  | @right _ sign _ u v _ a left kind stuck =>
    have left' := (arithmetic_lifts n).2.1 (Nat.le_add_right n 4) left
    obtain ⟨start, u, rfl⟩ := List.exists_cons_of_ne_nil left.ne_nil
    rw [List.append_cons]
    refine (terms stuck).after _ fun w whole next ends => ?_
    obtain ⟨b, right⟩ := whole next ends
    rw [← List.append_cons]
    exact ⟨_, .more left' kind right⟩

theorem expression_viable (terms : TermViable n) (expressions : ExpressionViable n) :
    ExpressionViable (n + 1) := by
  intro u t phrase
  cases phrase with
  | left stuck =>
    refine (terms stuck).imp fun w whole next ends => ?_
    obtain ⟨a, left⟩ := whole next ends.multiplicative
    exact ⟨a, .last left ends.additive⟩
  | @right _ sign _ u v _ a left kind stuck =>
    have left' := (arithmetic_lifts n).2.2.1 (Nat.le_add_right n 4) left
    obtain ⟨start, u, rfl⟩ := List.exists_cons_of_ne_nil left.ne_nil
    rw [List.append_cons]
    refine (expressions stuck).after _ fun w whole next ends => ?_
    obtain ⟨b, right⟩ := whole next ends
    rw [← List.append_cons]
    exact ⟨_, .more left' kind right⟩

theorem arithmetic_viable (n : Nat) :
    FactorViable n ∧ UnaryViable n ∧ TermViable n ∧ ExpressionViable n := by
  induction n with
  | zero =>
    exact ⟨fun phrase => (nomatch phrase), fun phrase => (nomatch phrase),
      fun phrase => (nomatch phrase), fun phrase => (nomatch phrase)⟩
  | succ n ih =>
    obtain ⟨factors, unaries, terms, expressions⟩ := ih
    exact ⟨factor_viable factors expressions, unary_viable factors unaries,
      term_viable unaries terms, expression_viable terms expressions⟩

theorem wholeCondition_compare {sign : Token} {v : List Token} {operator : Comparison} {a : Node}
    (left : IsExpression n u sign a) (kind : sign.kind.comparison? = some operator)
    (right : WholeExpression n v) : WholeCondition (n + 1) (u ++ sign :: v) := by
  obtain ⟨start, u, rfl⟩ := List.exists_cons_of_ne_nil left.ne_nil
  intro next ends
  obtain ⟨b, right⟩ := right next ends
  exact ⟨_, .compare left kind right⟩

theorem wholeCondition_equal (whole : WholeExpression (n + 4) u) {sign name : Token}
    (equal : sign.kind = .equal) (kind : name.kind = .name) :
    WholeCondition (n + 5) (u ++ [sign, name]) := by
  obtain ⟨a, left⟩ := whole sign (by rw [equal]; exact ⟨rfl, rfl⟩)
  exact wholeCondition_compare left (by rw [equal]; rfl) (wholeExpression_name kind)

theorem IsCondition.whole {c : Condition Node} (phrase : IsCondition n u t c) :
    WholeCondition (n + 4) u :=
  fun _ ends => ⟨c, condition_lifts (Nat.le_add_right n 4) (phrase.before ends)⟩

theorem condition_viable (phrase : StuckCondition n u t) : Viable u (WholeCondition (n + 4)) := by
  cases phrase with
  | @odd n word _ _ odd stuck =>
    refine ((arithmetic_viable n).2.2.2 stuck).after [word] fun w whole next ends => ?_
    obtain ⟨a, operand⟩ := whole next ends
    exact ⟨_, .odd odd operand⟩
  | @left n _ _ _ stuck =>
    exact ((arithmetic_viable n).2.2.2 stuck).followedBoth .equal .name (by decide) (by decide)
      fun w sign name equal kind whole => wholeCondition_equal whole equal kind
  | sign left _ =>
    exact .tokens .equal .name (by decide) (by decide) fun sign name equal kind =>
      wholeCondition_equal left.whole equal kind
  | @right n sign _ u v _ _ left kind stuck =>
    have left' := (arithmetic_lifts n).2.2.2 (Nat.le_add_right n 4) left
    rw [List.append_cons]
    refine ((arithmetic_viable n).2.2.2 stuck).after _ fun w whole => ?_
    rw [← List.append_cons]
    exact wholeCondition_compare left' kind whole

end Arithmetic

section Chains

variable {α : Type} {Item : Nat → List Token → Token → α → Prop}
  {Stuck : Nat → List Token → Token → Prop} {separator : TokenKind} {n m : Nat} {u : List Token}
  {t : Token}

def WholeChain (Item : Nat → List Token → Token → α → Prop) (separator : TokenKind)
    (Ends : TokenKind → Prop) (n : Nat) (u : List Token) : Prop :=
  ∀ next : Token, Ends next.kind → next.kind ≠ separator → ∃ as, Chain Item separator n u next as

theorem chain_viable {Ends : TokenKind → Prop}
    (lifts : ∀ {u next a}, Item n u next a → Item m u next a)
    (stuck : ∀ {u t}, Stuck n u t →
      Viable u fun w => ∀ next : Token, Ends next.kind → ∃ a, Item m w next a)
    (phrase : StuckChain Item Stuck separator (n + 1) u t) :
    Viable u (WholeChain Item separator Ends (m + 1)) := by
  generalize nesting : n + 1 = k at phrase
  induction phrase with
  | item phrase =>
    cases nesting
    refine (stuck phrase).imp fun w whole next ends other => ?_
    obtain ⟨a, item⟩ := whole next ends
    exact ⟨[a], .last item other⟩
  | @later _ u v mark _ a item kind _ ih =>
    cases nesting
    rw [List.append_cons]
    refine (ih rfl).after _ fun w whole next ends other => ?_
    obtain ⟨as, rest⟩ := whole next ends other
    rw [← List.append_cons]
    exact ⟨_, .more (lifts item) kind rest⟩

end Chains

section Groups

variable {n : Nat} {u : List Token} {t : Token}

theorem IsConstant.before {d : VariableDeclaration} {next other : Token}
    (phrase : IsConstant n u next d) : IsConstant n u other d := by
  cases phrase with
  | mk name sign literal => exact .mk name sign literal

theorem IsVariable.before {d : VariableDeclaration} {next other : Token}
    (phrase : IsVariable n u next d) : IsVariable n u other d := by
  cases phrase with
  | mk name => exact .mk name

theorem constant_viable (phrase : StuckConstant n u t) :
    Viable u fun w => ∀ next : Token, True → ∃ d, IsConstant n w next d := by
  cases phrase with
  | name _ =>
    have two : Viable [] fun w => ∃ name sign : Token, name.kind = .name ∧ sign.kind = .equal ∧
        w = [name, sign] :=
      .tokens .name .equal (by decide) (by decide) fun name sign kind equal =>
        ⟨name, sign, kind, equal, rfl⟩
    refine two.followed .number (by decide) fun _ value number ⟨name, sign, kind, equal, eq⟩ => ?_
    rw [eq]
    exact fun next _ => ⟨_, .mk kind equal (by rw [number]; rfl)⟩
  | sign name _ =>
    refine .tokens .equal .number (by decide) (by decide) fun sign value equal number next _ => ?_
    exact ⟨_, .mk name equal (by rw [number]; rfl)⟩
  | value name sign _ =>
    exact .token .number (by decide) fun value number next _ =>
      ⟨_, .mk name sign (by rw [number]; rfl)⟩

theorem variable_viable (phrase : StuckVariable n u t) :
    Viable u fun w => ∀ next : Token, True → ∃ d, IsVariable n w next d := by
  cases phrase with
  | name _ => exact .token .name (by decide) fun name kind next _ => ⟨_, .mk kind⟩

theorem group_viable {word : TokenKind}
    {Item : Nat → List Token → Token → VariableDeclaration → Prop}
    {Stuck : Nat → List Token → Token → Prop}
    (before : ∀ {u next other d}, Item 0 u next d → Item 0 u other d)
    (stuck : ∀ {u t}, Stuck 0 u t →
      Viable u fun w => ∀ next : Token, True → ∃ d, Item 0 w next d)
    (phrase : StuckGroup word Item Stuck u t) : Viable u fun w => ∃ a, IsGroup word Item w a := by
  cases phrase with
  | @item start _ _ kind chain =>
    have items : Viable _ (WholeChain Item .comma (fun _ => True) 1) := chain_viable id stuck chain
    refine (items.followed .semicolon (by decide) fun w finish mark whole => ?_).after [start]
      fun w h => h
    obtain ⟨group, chain⟩ := whole finish trivial (by simp [mark])
    exact ⟨_, .mk kind chain mark⟩
  | finish kind chain _ =>
    exact .token .semicolon (by decide) fun finish mark =>
      ⟨_, .mk kind (chain.before before (by simp [mark])) mark⟩

end Groups

section Statements

variable {n : Nat} {u : List Token} {t : Token}

def WholeStatement (n : Nat) (u : List Token) : Prop :=
  ∀ next : Token, EndsStatement next.kind → ∃ a, IsStatement n u next a

def StatementViable (n : Nat) : Prop :=
  ∀ {u t}, StuckStatement n u t → Viable u (WholeStatement (n + 4))

def SequenceViable (n : Nat) : Prop :=
  ∀ {u t}, StuckSequence n u t → Viable u fun w => ∃ a, IsSequence (n + 4) w a

theorem endsExpression_of_eq {k k' : TokenKind} (same : k = k')
    (multiplicative : k'.multiplicative? = none) (additive : k'.additive? = none) :
    EndsExpression k := by
  rw [same]
  exact ⟨multiplicative, additive⟩

theorem wholeStatement_conditional {word link : Token} (kind : word.kind = .ifWord)
    (mark : link.kind = .thenWord) (test : WholeCondition (n + 4) u) :
    WholeStatement (n + 5) (word :: (u ++ [link])) := by
  intro next ends
  obtain ⟨c, test⟩ := test link (endsExpression_of_eq mark rfl rfl)
  exact ⟨_, .conditional kind test mark (.nothing ends.statement)⟩

theorem wholeStatement_loop {word link : Token} (kind : word.kind = .whileWord)
    (mark : link.kind = .doWord) (test : WholeCondition (n + 4) u) :
    WholeStatement (n + 5) (word :: (u ++ [link])) := by
  intro next ends
  obtain ⟨c, test⟩ := test link (endsExpression_of_eq mark rfl rfl)
  exact ⟨_, .loop kind test mark (.nothing ends.statement)⟩

theorem statement_viable (statements : StatementViable n) (sequences : SequenceViable n) :
    StatementViable (n + 1) := by
  have expressions := @(arithmetic_viable n).2.2.2
  intro u t phrase
  cases phrase with
  | assign name _ =>
    refine .tokens .assign .name (by decide) (by decide) fun sign value assign kind next ends => ?_
    obtain ⟨a, assigned⟩ := wholeExpression_name kind next ends.toEndsExpression
    exact ⟨_, .assignment name assign assigned⟩
  | @assigned _ name sign _ _ kind assign stuck =>
    refine (expressions stuck).after [name, sign] fun w whole next ends => ?_
    obtain ⟨a, assigned⟩ := whole next ends.toEndsExpression
    exact ⟨_, .assignment kind assign assigned⟩
  | call word _ => exact .token .name (by decide) fun name kind next _ => ⟨_, .call word kind⟩
  | input mark _ => exact .token .name (by decide) fun name kind next _ => ⟨_, .input mark kind⟩
  | @print _ mark _ _ bang stuck =>
    refine (expressions stuck).after [mark] fun w whole next ends => ?_
    obtain ⟨a, printed⟩ := whole next ends.toEndsExpression
    exact ⟨_, .print bang printed⟩
  | sequence _ stuck =>
    exact (sequences stuck).imp fun w ⟨_, phrase⟩ next _ => ⟨_, .sequence phrase⟩
  | @condition _ word _ _ kind stuck =>
    rcases kind with kind | kind
    · exact ((condition_viable stuck).followed .thenWord (by decide) fun w link mark test =>
        wholeStatement_conditional kind mark test).after [word] fun w h => h
    · exact ((condition_viable stuck).followed .doWord (by decide) fun w link mark test =>
        wholeStatement_loop kind mark test).after [word] fun w h => h
  | thenLink kind test _ =>
    exact .token .thenWord (by decide) fun link mark =>
      wholeStatement_conditional kind mark test.whole
  | doLink kind test _ =>
    exact .token .doWord (by decide) fun link mark => wholeStatement_loop kind mark test.whole
  | @thenBody _ word link _ u v _ kind test mark stuck =>
    have test' := condition_lifts (Nat.le_add_right n 4) test
    have split : word :: (u ++ link :: v) = (word :: (u ++ [link])) ++ v := by simp
    rw [split]
    refine (statements stuck).after _ fun w whole next ends => ?_
    obtain ⟨a, body⟩ := whole next ends
    exact ⟨_, by simpa using IsStatement.conditional kind test' mark body⟩
  | @doBody _ word link _ u v _ kind test mark stuck =>
    have test' := condition_lifts (Nat.le_add_right n 4) test
    have split : word :: (u ++ link :: v) = (word :: (u ++ [link])) ++ v := by simp
    rw [split]
    refine (statements stuck).after _ fun w whole next ends => ?_
    obtain ⟨a, body⟩ := whole next ends
    exact ⟨_, by simpa using IsStatement.loop kind test' mark body⟩

theorem endsStatement_end {k : TokenKind} (same : k = .endWord) : EndsStatement k := by
  rw [same]
  exact ⟨⟨rfl, rfl⟩, rfl⟩

theorem sequence_viable (statements : StatementViable n) : SequenceViable (n + 1) := by
  have lifts {u next a} (phrase : IsStatement n u next a) : IsStatement (n + 4) u next a :=
    (statements_lift n).1 (Nat.le_add_right n 4) phrase
  intro u t phrase
  cases phrase with
  | @item _ word _ _ kind chain =>
    refine ((chain_viable lifts statements chain).followed .endWord (by decide)
      fun w finish mark whole => ?_).after [word] fun w h => h
    obtain ⟨body, chain⟩ := whole finish (endsStatement_end mark) (by simp [mark])
    exact ⟨_, .mk kind chain mark⟩
  | finish kind chain _ =>
    refine .token .endWord (by decide) fun finish mark => ?_
    have chain' := chain.before (fun phrase => phrase.before (endsStatement_end mark))
      (by simp [mark])
    exact ⟨_, .mk kind (chain_lifts lifts chain') mark⟩

theorem statements_viable (n : Nat) : StatementViable n ∧ SequenceViable n := by
  induction n with
  | zero => exact ⟨fun phrase => (nomatch phrase), fun phrase => (nomatch phrase)⟩
  | succ n ih => exact ⟨statement_viable ih.1 ih.2, sequence_viable ih.1⟩

end Statements

section Blocks

variable {n : Nat} {u v : List Token} {t : Token}

def WholeBlock (n : Nat) (u : List Token) : Prop :=
  ∀ (outermost : Bool) (next : Token), EndsBlock next.kind → ∃ b, IsBlock n outermost u next b

def WholeDeclarations (n : Nat) (u : List Token) : Prop :=
  ∀ next : Token, EndsBlock next.kind → ∃ declared, AreDeclarations n u next declared

def WholeProcedures (n : Nat) (u : List Token) : Prop :=
  ∀ next : Token, EndsBlock next.kind → ∃ as, AreProcedures n u next as

def WholeProcedure (n : Nat) (u : List Token) : Prop :=
  ∀ next : Token, EndsBlock next.kind → ∃ a, IsProcedure n u next a

theorem StuckStatement.ne_nil (h : StuckStatement n u t) : u ≠ [] := by
  cases h with
  | sequence _ stuck => cases stuck <;> simp
  | _ => simp

theorem StuckGroup.ne_nil {word : TokenKind}
    {Item : Nat → List Token → Token → VariableDeclaration → Prop}
    {Stuck : Nat → List Token → Token → Prop} (h : StuckGroup word Item Stuck u t) : u ≠ [] := by
  cases h <;> simp

theorem StuckProcedures.ne_nil (h : StuckProcedures n u t) : u ≠ [] := by
  cases h with
  | item _ stuck => cases stuck <;> simp
  | later item _ => simp [item.ne_nil]

theorem headD_append_of_ne_nil (some : v ≠ []) (w : List Token) (t next : Token) :
    (v ++ w).headD next = v.headD t := by
  cases v with
  | nil => exact absurd rfl some
  | cons => rfl

theorem wholeBlock_of_declarations (declarations : WholeDeclarations (n + 1) u) :
    WholeBlock (n + 2) u := by
  intro outermost next ends
  obtain ⟨declared, phrase⟩ := declarations next ends
  have block : IsBlock (n + 2) outermost (u ++ ([] ++ [])) next _ :=
    .mk phrase (.nothing ends.statement) (.absent ends.semicolon)
  rw [List.append_nil, List.append_nil] at block
  exact ⟨_, block⟩

theorem wholeBlock_nil (n : Nat) : WholeBlock (n + 2) [] :=
  wholeBlock_of_declarations fun _ ends =>
    ⟨_, .mk (u := []) (v := []) (w := []) (.absent ends.constants) (.absent ends.vars)
      (.none ends.procedures)⟩

def BlockViable (n : Nat) : Prop := ∀ {u t}, StuckBlock n u t → Viable u (WholeBlock (n + 4))

def ProcedureViable (n : Nat) : Prop :=
  ∀ {u t}, StuckProcedure n u t → Viable u (WholeProcedure (n + 4))

theorem procedures_viable (procedures : ProcedureViable n) (phrase : StuckProcedures n u t) :
    Viable u (WholeProcedures (n + 4)) := by
  generalize length : u.length = k
  induction k using Nat.strongRecOn generalizing u with
  | ind k ih =>
    cases phrase with
    | item _ stuck =>
      refine (procedures stuck).imp fun w whole next ends => ?_
      obtain ⟨a, item⟩ := whole next ends
      have phrase : AreProcedures (n + 4) (w ++ []) next _ := .more item (.none ends.procedures)
      rw [List.append_nil] at phrase
      exact ⟨_, phrase⟩
    | @later _ u v _ a item rest =>
      have shorter : v.length < k := by
        have := List.length_pos_iff.2 item.ne_nil
        simp only [List.length_append] at length
        omega
      have item' := (blocks_lift n).2 (Nat.le_add_right n 4) item
      obtain ⟨c, spelled, done⟩ := ih _ shorter rest rfl
      refine ⟨c, spelled, fun cs kinds next ends => ?_⟩
      obtain ⟨as, later⟩ := done cs kinds next ends
      rw [← headD_append_of_ne_nil rest.ne_nil cs t next] at item'
      rw [List.append_assoc]
      exact ⟨_, .more item' later⟩

theorem declarations_viable (procedures : ProcedureViable n) (phrase : StuckDeclarations n u t) :
    Viable u (WholeDeclarations (n + 4)) := by
  cases phrase with
  | constants stuck =>
    refine (group_viable IsConstant.before constant_viable stuck).imp
      fun w ⟨a, group⟩ next ends => ?_
    have phrase : AreDeclarations (n + 4) (w ++ ([] ++ [])) next _ :=
      .mk (.present group) (.absent ends.vars) (.none ends.procedures)
    rw [List.append_nil, List.append_nil] at phrase
    exact ⟨_, phrase⟩
  | @vars _ u v _ _ constants stuck =>
    obtain ⟨c, spelled, done⟩ := group_viable IsVariable.before variable_viable stuck
    refine ⟨c, spelled, fun cs kinds next ends => ?_⟩
    obtain ⟨a, group⟩ := done cs kinds
    rw [← headD_append_of_ne_nil stuck.ne_nil cs t next, ← List.append_nil (v ++ cs)] at constants
    have phrase : AreDeclarations (n + 4) (u ++ ((v ++ cs) ++ [])) next _ :=
      .mk constants (.present group) (.none ends.procedures)
    rw [List.append_nil, ← List.append_assoc] at phrase
    exact ⟨_, phrase⟩
  | @procedures _ u v w _ _ _ constants vars stuck =>
    obtain ⟨c, spelled, done⟩ := procedures_viable procedures stuck
    refine ⟨c, spelled, fun cs kinds next ends => ?_⟩
    obtain ⟨as, later⟩ := done cs kinds next ends
    have some : v ++ w ≠ [] := by simp [stuck.ne_nil]
    rw [← headD_append_of_ne_nil some cs t next, List.append_assoc] at constants
    rw [← headD_append_of_ne_nil stuck.ne_nil cs t next] at vars
    rw [List.append_assoc, List.append_assoc]
    exact ⟨_, .mk constants vars later⟩

theorem block_viable (procedures : ProcedureViable n) : BlockViable (n + 1) := by
  intro u t phrase
  cases phrase with
  | declarations stuck =>
    exact (declarations_viable procedures stuck).imp fun w => wholeBlock_of_declarations
  | @statement _ u v _ _ declared stuck =>
    have declared' := declarations_lift (blocks_lift n).2 (Nat.le_add_right n 4) declared
    obtain ⟨c, spelled, done⟩ := (statements_viable n).1 stuck
    refine ⟨c, spelled, fun cs kinds outermost next ends => ?_⟩
    obtain ⟨a, body⟩ := done cs kinds next ends.toEndsStatement
    rw [← headD_append_of_ne_nil stuck.ne_nil cs t next, ← List.append_nil (v ++ cs)] at declared'
    have block : IsBlock (n + 5) outermost (u ++ ((v ++ cs) ++ [])) next _ :=
      .mk declared' body (.absent ends.semicolon)
    rw [List.append_nil, ← List.append_assoc] at block
    exact ⟨_, block⟩

theorem procedure_viable (blocks : BlockViable n) : ProcedureViable (n + 1) := by
  intro u t phrase
  cases phrase with
  | name word _ =>
    refine .tokens .name .semicolon (by decide) (by decide) fun name mark kind semicolon => ?_
    intro next ends
    obtain ⟨b, body⟩ := wholeBlock_nil (n + 2) false next ends
    exact ⟨_, .mk word kind semicolon body⟩
  | mark word name _ =>
    refine .token .semicolon (by decide) fun mark semicolon next ends => ?_
    obtain ⟨b, body⟩ := wholeBlock_nil (n + 2) false next ends
    exact ⟨_, .mk word name semicolon body⟩
  | @block _ word name mark _ _ kind named semicolon stuck =>
    refine (blocks stuck).after [word, name, mark] fun w whole next ends => ?_
    obtain ⟨b, body⟩ := whole false next ends
    exact ⟨_, .mk kind named semicolon body⟩

theorem blocks_viable (n : Nat) : BlockViable n ∧ ProcedureViable n := by
  induction n with
  | zero => exact ⟨fun phrase => (nomatch phrase), fun phrase => (nomatch phrase)⟩
  | succ n ih => exact ⟨block_viable ih.2, procedure_viable ih.1⟩

theorem endsBlock_dot {k : TokenKind} (same : k = .dot) : EndsBlock k := by
  rw [same]
  exact ⟨⟨⟨rfl, rfl⟩, rfl⟩, by decide, by decide, by decide, by decide⟩

theorem program_viable (phrase : StuckProgram n u t) :
    Viable u fun w => ∃ p, IsProgram (n + 4) w p := by
  cases phrase with
  | block stuck =>
    refine ((blocks_viable n).1 stuck).followed .dot (by decide) fun w point dot whole => ?_
    obtain ⟨b, body⟩ := whole true point (endsBlock_dot dot)
    exact ⟨_, .mk body dot⟩
  | point body _ =>
    refine .token .dot (by decide) fun point dot => ?_
    obtain ⟨b, _, _, body, _⟩ := (blocks_before n).1 body (endsBlock_dot dot)
    exact ⟨_, .mk ((blocks_lift n).1 (Nat.le_add_right n 4) body) dot⟩
  | finish program _ => exact .done ⟨_, program.lift (Nat.le_add_right n 4)⟩

end Blocks

end Phrase

end PlZero
