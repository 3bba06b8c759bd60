import PlZero.Proofs.EntryPoints
import PlZero.Proofs.TreeParts
import PlZero.Prompt

set_option autoImplicit false

namespace PlZero

open Phrase

/-- How many more blocks the tokens open than they close. -/
def balance (u : List Token) : Int := (kinds u).count .beginWord - (kinds u).count .endWord

def Token.Plain (t : Token) : Prop := t.kind ≠ .beginWord ∧ t.kind ≠ .endWord

section Balance

variable {t : Token} {u : List Token}

@[simp] theorem balance_nil : balance [] = 0 := rfl

@[simp] theorem balance_append (u v : List Token) : balance (u ++ v) = balance u + balance v := by
  simp only [balance, kinds, List.map_append, List.count_append]
  omega

theorem balance_begin (begins : t.kind = .beginWord) : balance [t] = 1 := by
  simp [balance, begins]

theorem balance_end (ends : t.kind = .endWord) : balance [t] = -1 := by
  simp [balance, ends]

theorem balance_plain (plain : ∀ t ∈ u, t.Plain) : balance u = 0 := by
  have begins : .beginWord ∉ kinds u := by
    intro mem
    obtain ⟨t, inside, kind⟩ := List.mem_map.1 mem
    exact (plain t inside).1 kind
  have ends : .endWord ∉ kinds u := by
    intro mem
    obtain ⟨t, inside, kind⟩ := List.mem_map.1 mem
    exact (plain t inside).2 kind
  simp [balance, List.count_eq_zero_of_not_mem begins, List.count_eq_zero_of_not_mem ends]

theorem openBlocks_eq {text : String} {e : Token} (last : (scan text).last = .ok e) :
    openBlocks text = .ok (balance (scan text).tokens) := by
  have counts (kind : TokenKind) : ((scan text).tokens.filter (·.kind == kind)).length =
      (kinds (scan text).tokens).count kind := by
    rw [← List.countP_eq_length_filter, List.count, List.countP_map]
    rfl
  simp [openBlocks, last, balance, counts]

end Balance

def OpenAfter (P : Node → Prop) (w : List Token) (k : Nat) : Prop :=
  ∃ before inside after : List Token, ∃ limit node, w = before ++ inside ++ after ∧
    IsSequence limit inside node ∧ P node ∧ before.length < k ∧
      k < before.length + inside.length

structure Nested (P : Node → Prop) (w : List Token) : Prop where
  settled : balance w = 0
  nonneg : ∀ k, 0 ≤ balance (w.take k)
  opened : ∀ k, 0 < balance (w.take k) → OpenAfter P w k

section Nested

variable {P R : Node → Prop} {t : Token} {u v w : List Token} {k : Nat}

theorem OpenAfter.imp (implies : ∀ node, P node → R node) (isOpen : OpenAfter P w k) :
    OpenAfter R w k := by
  obtain ⟨before, inside, after, limit, node, whole, phrase, holds, bounds⟩ := isOpen
  exact ⟨before, inside, after, limit, node, whole, phrase, implies node holds, bounds⟩

theorem OpenAfter.append_right (isOpen : OpenAfter P u k) : OpenAfter P (u ++ v) k := by
  obtain ⟨before, inside, after, limit, node, rfl, bounds⟩ := isOpen
  exact ⟨before, inside, after ++ v, limit, node, by simp, bounds⟩

theorem OpenAfter.append_left (isOpen : OpenAfter P v (k - u.length)) :
    OpenAfter P (u ++ v) k := by
  obtain ⟨before, inside, after, limit, node, rfl, phrase, holds, bounds⟩ := isOpen
  refine ⟨u ++ before, inside, after, limit, node, by simp, phrase, holds, ?_⟩
  rw [List.length_append]
  omega

namespace Nested

theorem imp (implies : ∀ node, P node → R node) (nested : Nested P w) : Nested R w :=
  ⟨nested.settled, nested.nonneg, fun k positive => (nested.opened k positive).imp implies⟩

theorem plain (plain : ∀ t ∈ w, t.Plain) : Nested P w := by
  have flat (k : Nat) : balance (w.take k) = 0 :=
    balance_plain fun t mem => plain t (List.mem_of_mem_take mem)
  refine ⟨balance_plain plain, fun k => (flat k).ge, fun k positive => ?_⟩
  rw [flat] at positive
  omega

theorem nil : Nested P [] := plain (List.forall_mem_nil _)

theorem append (first : Nested P u) (second : Nested P v) : Nested P (u ++ v) := by
  have both (k : Nat) : balance ((u ++ v).take k) =
      balance (u.take k) + balance (v.take (k - u.length)) := by
    rw [List.take_append, balance_append]
  constructor
  · simp [first.settled, second.settled]
  · intro k
    rw [both]
    exact Int.add_nonneg (first.nonneg k) (second.nonneg _)
  · intro k positive
    rw [both] at positive
    by_cases left : 0 < balance (u.take k)
    · exact (first.opened k left).append_right
    · exact (second.opened _ (by omega)).append_left

theorem cons (plain : t.Plain) (nested : Nested P u) : Nested P (t :: u) :=
  (Nested.plain (List.forall_mem_singleton.2 plain)).append nested

end Nested

theorem balance_enclosed {word finish : Token} (begins : word.kind = .beginWord)
    (ends : finish.kind = .endWord) (settled : balance u = 0) (k : Nat) :
    balance ((word :: (u ++ [finish])).take k) =
      if k = 0 ∨ u.length + 2 ≤ k then 0 else 1 + balance (u.take (k - 1)) := by
  cases k with
  | zero => rfl
  | succ k =>
    have start : balance ((word :: (u ++ [finish])).take (k + 1)) =
        1 + (balance (u.take k) + balance ([finish].take (k - u.length))) := by
      rw [List.take_succ_cons, ← List.singleton_append, balance_append, balance_begin begins,
        List.take_append, balance_append]
    rw [start]
    by_cases inside : k ≤ u.length
    · have before : k - u.length = 0 := by omega
      simp [before, show ¬u.length + 2 ≤ k + 1 by omega]
    · have all : u.take k = u := List.take_of_length_le (by omega)
      have last : [finish].take (k - u.length) = [finish] := List.take_of_length_le (by simp; omega)
      simp [all, last, settled, balance_end ends, show u.length + 2 ≤ k + 1 by omega]

theorem Nested.enclose {word finish : Token} {node : Node} {limit : Nat}
    (begins : word.kind = .beginWord) (ends : finish.kind = .endWord) (inner : Nested R u)
    (phrase : IsSequence limit (word :: (u ++ [finish])) node) (holds : P node) :
    Nested P (word :: (u ++ [finish])) := by
  have counted := balance_enclosed begins ends inner.settled
  constructor
  · have whole := counted (u.length + 2)
    rwa [if_pos (.inr le_rfl), List.take_of_length_le (by simp)] at whole
  · intro k
    have inside := inner.nonneg (k - 1)
    rw [counted]
    split <;> omega
  · intro k positive
    rw [counted] at positive
    split at positive
    · omega
    · refine ⟨[], _, [], limit, node, by simp, phrase, holds, ?_, ?_⟩ <;> simp <;> omega

end Nested

def Category.arithmetic : Category → Bool
  | .condition | .expr | .term | .unary | .factor | .literal => true
  | _ => false

namespace Phrase

variable {P : Node → Prop} {n : Nat} {u : List Token} {next : Token}

theorem plain_of_eq {t : Token} {kind : TokenKind} (same : t.kind = kind)
    (others : kind ≠ .beginWord ∧ kind ≠ .endWord) : t.Plain := by
  rw [Token.Plain, same]
  exact others

theorem plain_of_derives {c : Category} (arithmetic : c.arithmetic = true)
    (word : kinds u ++ [] ∈ lang c * 1) : ∀ t ∈ u, t.Plain := by
  rw [List.append_nil, mul_one] at word
  have closed : ∀ c : Category, c.arithmetic = true → (production c).keepsTo
      (fun kind => kind != .beginWord && kind != .endWord) Category.arithmetic = true := by
    intro c
    cases c <;> decide
  intro t mem
  have allowed := Derives.allowed_of_mem closed word arithmetic t.kind (List.mem_map_of_mem mem)
  simpa [Token.Plain] using allowed

theorem IsExpression.plain {a : Node} (phrase : IsExpression n u next a) : ∀ t ∈ u, t.Plain :=
  plain_of_derives (c := .expr) rfl ((arithmetic_derives n).2.2.2 phrase rfl)

theorem IsCondition.plain {c : Condition Node} (phrase : IsCondition n u next c) :
    ∀ t ∈ u, t.Plain :=
  plain_of_derives (c := .condition) rfl (condition_derives phrase rfl)

theorem chain_nested {α : Type} {Item : Nat → List Token → Token → α → Prop}
    {separator : TokenKind} {P : α → Node → Prop} {as : List α}
    (others : separator ≠ .beginWord ∧ separator ≠ .endWord)
    (item : ∀ {u next a}, Item n u next a → Nested (P a) u)
    (chain : Chain Item separator (n + 1) u next as) :
    Nested (fun node => ∃ a ∈ as, P a node) u := by
  generalize level : n + 1 = m at chain
  induction chain with
  | last first _ =>
    cases level
    exact (item first).imp fun node holds => ⟨_, List.mem_singleton_self _, holds⟩
  | more first mark _ ih =>
    cases level
    have later := (ih rfl).cons (plain_of_eq mark others)
    refine .append ((item first).imp ?_) (later.imp ?_)
    · intro node holds
      exact ⟨_, List.mem_cons_self, holds⟩
    · rintro node ⟨a, mem, holds⟩
      exact ⟨a, List.mem_cons_of_mem _ mem, holds⟩

def NestedIn (nodes : List Node) (u : List Token) : Prop :=
  Nested (fun node => ∃ a ∈ nodes, node.Within a) u

theorem NestedIn.mono {as bs : List Node} (subset : ∀ a ∈ as, a ∈ bs) (nested : NestedIn as u) :
    NestedIn bs u :=
  nested.imp fun _ ⟨a, mem, within⟩ => ⟨a, subset a mem, within⟩

theorem NestedIn.inside {as : List Node} {a : Node} (nested : NestedIn as u)
    (parts : ∀ b ∈ as, b.Within a) : NestedIn [a] u :=
  nested.imp fun _ ⟨b, mem, within⟩ => ⟨a, List.mem_singleton_self a, within.trans (parts b mem)⟩

theorem NestedIn.append {as bs : List Node} {v : List Token} (first : NestedIn as u)
    (second : NestedIn bs v) : NestedIn (as ++ bs) (u ++ v) :=
  Nested.append (first.mono fun _ => List.mem_append_left _)
    (second.mono fun _ => List.mem_append_right _)

def StatementNested (n : Nat) : Prop :=
  ∀ {u next body}, IsStatement n u next body → NestedIn body.toList u

theorem guarded_nested {word link : Token} {v : List Token} {c : Condition Node} {a : Node}
    {body : Option Node} (start : word.Plain) (test : IsCondition n u next c) (middle : link.Plain)
    (inner : NestedIn body.toList v) (parts : ∀ b ∈ body, b ∈ a.children) :
    NestedIn [a] (word :: (u ++ link :: v)) := by
  have body := inner.inside fun b mem => .of_mem (parts b (Option.mem_toList.1 mem))
  exact .cons start (.append (.plain test.plain) (.cons middle body))

theorem statements_nested (n : Nat) :
    StatementNested n ∧ ∀ {u a}, IsSequence n u a → NestedIn [a] u := by
  induction n with
  | zero => exact ⟨fun phrase => (nomatch phrase), fun phrase => (nomatch phrase)⟩
  | succ n ih =>
    obtain ⟨statements, sequences⟩ := ih
    constructor
    · intro u next body phrase
      cases phrase with
      | nothing => exact .nil
      | assignment name sign assigned =>
        exact .cons (plain_of_eq name (by decide))
          (.cons (plain_of_eq sign (by decide)) (.plain assigned.plain))
      | call word name | input word name =>
        exact .cons (plain_of_eq word (by decide))
          (.cons (plain_of_eq name (by decide)) .nil)
      | print mark printed => exact .cons (plain_of_eq mark (by decide)) (.plain printed.plain)
      | sequence phrase => exact sequences phrase
      | conditional word test link inner | loop word test link inner =>
        refine guarded_nested (plain_of_eq word (by decide)) test (plain_of_eq link (by decide))
          (statements inner) fun b mem => ?_
        exact List.mem_cons_of_mem _ (Option.mem_toList.2 mem)
    · intro u a phrase
      have whole := phrase
      cases phrase with
      | mk begins chain ends =>
        have inner := chain_nested (by decide) statements chain
        exact inner.enclose begins ends whole ⟨_, List.mem_singleton_self _, .refl⟩

theorem constant_nested {d : VariableDeclaration} (phrase : IsConstant n u next d) :
    Nested P u := by
  cases phrase with
  | @mk _ _ value _ _ name sign literal =>
    have plain : value.Plain := by
      cases kind : value.kind <;> simp_all [Token.Plain, TokenKind.literalType?]
    exact .cons (plain_of_eq name (by decide)) (.cons (plain_of_eq sign (by decide))
      (.cons plain .nil))

theorem variable_nested {d : VariableDeclaration} (phrase : IsVariable n u next d) :
    Nested P u := by
  cases phrase with
  | mk name => exact .cons (plain_of_eq name (by decide)) .nil

theorem group_nested {word : TokenKind}
    {Item : Nat → List Token → Token → VariableDeclaration → Prop} {as : List Node}
    (others : word ≠ .beginWord ∧ word ≠ .endWord)
    (item : ∀ {u next d}, Item 0 u next d → NestedIn as u)
    (phrase : Optional word (IsGroup word Item) u next as) : NestedIn as u := by
  cases phrase with
  | absent => exact .nil
  | present group =>
    cases group with
    | mk start chain finish =>
      have declared := (chain_nested (by decide) item chain).imp fun _ ⟨_, _, inside⟩ => inside
      exact .cons (plain_of_eq start others)
        (.append declared (.cons (plain_of_eq finish (by decide)) .nil))

def BlockNested (n : Nat) : Prop :=
  ∀ {outermost u next b}, IsBlock n outermost u next b → NestedIn b.body u

def ProcedureNested (n : Nat) : Prop :=
  ∀ {u next a}, IsProcedure n u next a → NestedIn [a] u

theorem procedures_nested (procedures : ProcedureNested n) {as : List Node}
    (phrase : AreProcedures n u next as) : NestedIn as u := by
  induction as generalizing u with
  | nil =>
    cases phrase
    exact .nil
  | cons a as ih =>
    cases phrase with
    | more first rest => exact (procedures first).append (ih rest)

theorem block_nested (procedures : ProcedureNested n) : BlockNested (n + 1) := by
  intro outermost u next b phrase
  cases phrase with
  | @mk _ _ u v w _ declared body declarations statement mark =>
    have first : NestedIn declared u := by
      cases declarations with
      | mk constants vars phrases =>
        have groups := (group_nested (by decide) constant_nested constants).append
          (group_nested (by decide) variable_nested vars)
        rw [← List.append_assoc]
        exact groups.append (procedures_nested procedures phrases)
    have last : NestedIn (exitAt outermost next) w := by
      cases mark with
      | absent => exact .nil
      | present mark => exact .cons (plain_of_eq mark (by decide)) .nil
    rw [← List.append_assoc]
    exact (first.append ((statements_nested n).1 statement)).append last

theorem procedure_nested (blocks : BlockNested n) : ProcedureNested (n + 1) := by
  intro u next a phrase
  cases phrase with
  | mk word name mark body =>
    refine .cons (plain_of_eq word (by decide)) (.cons (plain_of_eq name (by decide))
      (.cons (plain_of_eq mark (by decide)) ((blocks body).inside fun node mem => ?_)))
    exact .inside (List.mem_singleton_self _) (.of_mem mem)

theorem blocks_nested (n : Nat) : BlockNested n ∧ ProcedureNested n := by
  induction n with
  | zero => exact ⟨fun phrase => (nomatch phrase), fun phrase => (nomatch phrase)⟩
  | succ n ih => exact ⟨block_nested ih.2, procedure_nested ih.1⟩

theorem IsFragment.nested {b : Block Node} (phrase : IsFragment n u next b) :
    Nested (·.Within (Program.ofBlock b).node) u := by
  cases phrase with
  | mk body point =>
    have inner : Nested (·.Within (Program.ofBlock b).node) _ :=
      ((blocks_nested n).1 body).imp fun node ⟨a, mem, within⟩ =>
        .inside (List.mem_singleton_self _) (.inside mem within)
    refine inner.append ?_
    cases point with
    | absent => exact .nil
    | present dot => exact .cons (plain_of_eq dot (by decide)) .nil

theorem IsSequence.balance_pos {a : Node} (phrase : IsSequence n u a) {k : Nat} (some : 0 < k)
    (less : k < u.length) : 0 < balance (u.take k) := by
  cases phrase with
  | @mk n word finish u body begins chain ends =>
    have inner := chain_nested (by decide) (statements_nested n).1 chain
    have inside := inner.nonneg (k - 1)
    rw [balance_enclosed begins ends inner.settled]
    simp only [List.length_cons, List.length_append, List.length_nil] at less
    split <;> omega

end Phrase

theorem OpenAfter.balance_pos {P R : Node → Prop} {w : List Token} {k : Nat}
    (isOpen : OpenAfter R w k) (nested : Nested P w) : 0 < balance (w.take k) := by
  obtain ⟨before, inside, after, limit, node, rfl, phrase, _, less, more⟩ := isOpen
  have outer := nested.nonneg before.length
  have inner := phrase.balance_pos (k := k - before.length) (by omega) (by omega)
  have split : balance ((before ++ inside ++ after).take k) =
      balance before + balance (inside.take (k - before.length)) := by
    rw [List.take_append_of_le_length (by simp; omega), List.take_append,
      List.take_of_length_le (by omega), balance_append]
  rw [List.append_assoc, List.take_left' rfl] at outer
  rw [split]
  omega

def CutAfter (source : String) (u : List Token) (cut : String) : Prop :=
  ∃ s blanks rest, source.toList = s ++ (blanks ++ rest) ∧ cut.toList = s ++ blanks ∧
    (∀ c ∈ blanks, isBlank c = true) ∧ Spells .start s u (blanks ++ rest)

section Cuts

variable {source cut : String} {u v : List Token}

theorem exists_cutAfter (found : (scan source).tokens = u ++ v) : ∃ cut, CutAfter source u cut := by
  obtain ⟨s, rest, text, spells, _⟩ := Cursor.spells_of_feed found
  exact ⟨.ofList s, s, [], rest, text, by simp, nofun, spells⟩

theorem CutAfter.tokens_eq (aligned : CutAfter source u cut) :
    ∃ v, (scan source).tokens = u ++ v := by
  obtain ⟨s, blanks, rest, text, _, _, spells⟩ := aligned
  have whole := spells.feed
  rw [← text] at whole
  exact ⟨_, congrArg Feed.tokens whole⟩

-- The last lexeme of the cut ends where it ends in the whole text.
theorem CutAfter.scan_eq (aligned : CutAfter source u cut) : ∃ e, scan cut = ⟨u, .ok e⟩ := by
  obtain ⟨s, blanks, rest, _, text, blank, spells⟩ := aligned
  have scanned := (spells.cut (.here (calm_of_blank blank))).feed
  rw [Cursor.feed_blank blank, ← text, List.append_nil] at scanned
  exact ⟨_, scanned⟩

end Cuts

theorem nested_of_accepted {source : String} {p : Program}
    (accepted : parse source = .ok p ∨ (parseFragment source).map .ofBlock = .ok p) :
    (∃ e, (scan source).last = .ok e) ∧ Nested (·.Within p.node) (scan source).tokens := by
  have fragment : ∃ b, parseFragment source = .ok b ∧ p = .ofBlock b := by
    rcases accepted with parsed | parsed
    · obtain ⟨b, parsed, _, same⟩ := parse_iff_parseFragment.1 parsed
      exact ⟨b, parsed, same⟩
    · cases read : parseFragment source with
      | error f => rw [read] at parsed; cases parsed
      | ok b =>
        rw [read] at parsed
        cases parsed
        exact ⟨b, rfl, rfl⟩
  obtain ⟨b, parsed, rfl⟩ := fragment
  obtain ⟨e, last, _, phrase⟩ := parseFragment_ok parsed
  exact ⟨⟨e, last⟩, phrase.nested⟩

/-- In an accepted text no prefix of the tokens closes more blocks than it opens, and all of them
are closed at the end. So the text has no open block; a text cut between tokens has as many as its
tokens leave open, and it has one exactly if a `begin` statement of the tree is unfinished there. -/
theorem open_blocks_agree {source : String} {p : Program}
    (accepted : parse source = .ok p ∨ (parseFragment source).map .ofBlock = .ok p) :
    openBlocks source = .ok 0 ∧ balance (scan source).tokens = 0 ∧
    (∀ u v, (scan source).tokens = u ++ v → 0 ≤ balance u ∧ ∃ cut, CutAfter source u cut) ∧
    ∀ u cut, CutAfter source u cut → openBlocks cut = .ok (balance u) ∧ 0 ≤ balance u ∧
      (0 < balance u ↔ OpenAfter (·.Within p.node) (scan source).tokens u.length) := by
  obtain ⟨⟨e, last⟩, nested⟩ := nested_of_accepted accepted
  have start {u v : List Token} (found : (scan source).tokens = u ++ v) :
      (scan source).tokens.take u.length = u := by
    rw [found, List.take_left' rfl]
  have nonneg {u v : List Token} (found : (scan source).tokens = u ++ v) : 0 ≤ balance u := by
    have counted := nested.nonneg u.length
    rwa [start found] at counted
  refine ⟨?_, nested.settled, fun u v found => ⟨nonneg found, exists_cutAfter found⟩, ?_⟩
  · rw [openBlocks_eq last, nested.settled]
  · intro u cut aligned
    obtain ⟨v, found⟩ := aligned.tokens_eq
    obtain ⟨e', scanned⟩ := aligned.scan_eq
    have counted : openBlocks cut = .ok (balance u) := by
      rw [openBlocks_eq (e := e') (by rw [scanned]), scanned]
    refine ⟨counted, nonneg found, fun positive => ?_, fun isOpen => ?_⟩
    · apply nested.opened
      rwa [start found]
    · have positive := isOpen.balance_pos nested
      rwa [start found] at positive

theorem open_blocks_agree_nested :
    ∃ p cut, parse "procedure p; if 1 < 2 then begin begin end; ! 1 end; call p ." = .ok p ∧
      openBlocks "procedure p; if 1 < 2 then begin begin end; ! 1 end; call p ." = .ok 0 ∧
      openBlocks cut = .ok 2 ∧
      OpenAfter (·.Within p.node)
        (scan "procedure p; if 1 < 2 then begin begin end; ! 1 end; call p .").tokens 10 := by
  have accepted :
      (parse "procedure p; if 1 < 2 then begin begin end; ! 1 end; call p .").isOk = true := by
    decide +kernel
  cases parsed : parse "procedure p; if 1 < 2 then begin begin end; ! 1 end; call p ." with
  | error f => rw [parsed] at accepted; cases accepted
  | ok p =>
    obtain ⟨closed, _, prefixes, cuts⟩ := open_blocks_agree (.inl parsed)
    obtain ⟨_, cut, aligned⟩ := prefixes _ _ (List.take_append_drop 10 _).symm
    obtain ⟨counted, _, unfinished⟩ := cuts _ cut aligned
    have two : balance ((scan
        "procedure p; if 1 < 2 then begin begin end; ! 1 end; call p .").tokens.take 10) = 2 := by
      decide +kernel
    have ten : ((scan
        "procedure p; if 1 < 2 then begin begin end; ! 1 end; call p .").tokens.take 10).length =
          10 := by
      decide +kernel
    rw [two] at counted unfinished
    rw [ten] at unfinished
    exact ⟨p, cut, rfl, closed, counted, unfinished.1 (by decide)⟩

end PlZero
