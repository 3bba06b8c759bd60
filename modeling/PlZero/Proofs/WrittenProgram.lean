import PlZero.Proofs.WrittenExpression

set_option autoImplicit false

namespace PlZero

open Phrase

theorem Phrase.endsStatement_semicolon {t : Token} (kind : t.kind = .semicolon) :
    EndsStatement t.kind := by
  rw [kind]
  exact ⟨⟨rfl, rfl⟩, rfl⟩

structure Phrase.EndsDeclarations (k : TokenKind) : Prop where
  constants : k ≠ .constWord
  vars : k ≠ .varWord
  procedures : k ≠ .procedureWord

namespace Phrase

variable {n : Nat} {u : List Token} {next : Token}

theorem IsStatement.endsDeclarations {body : Option Node} (phrase : IsStatement n u next body)
    (ends : EndsDeclarations next.kind) : EndsDeclarations (u.headD next).kind := by
  have other {t : Token} {k : TokenKind} (kind : t.kind = k) (starts : k.startsStatement = true) :
      EndsDeclarations t.kind := by
    rw [kind]
    refine ⟨?_, ?_, ?_⟩ <;> rintro rfl <;> cases starts
  cases phrase with
  | nothing => exact ends
  | sequence phrase => exact other (phrase.starts next) rfl
  | assignment kind | call kind | input kind | print kind | conditional kind | loop kind =>
    exact other kind rfl

theorem AreProcedures.head {as : List Node} (phrase : AreProcedures n u next as)
    (ends : EndsDeclarations next.kind) :
    (u.headD next).kind ≠ .constWord ∧ (u.headD next).kind ≠ .varWord := by
  cases phrase with
  | none => exact ⟨ends.constants, ends.vars⟩
  | more first _ =>
    rw [headD_append, first.starts]
    exact ⟨nofun, nofun⟩

theorem Optional.head {word other : TokenKind}
    {Item : Nat → List Token → Token → VariableDeclaration → Prop} {as : List Node}
    (phrase : Optional word (IsGroup word Item) u next as) (ends : next.kind ≠ other)
    (ne : word ≠ other) : (u.headD next).kind ≠ other := by
  cases phrase with
  | absent => exact ends
  | present group => rwa [group.starts]

end Phrase

def Node.StatementBack (node : Node) : Prop :=
  ∀ (u : List Token) (next : Token), u.map Token.face = node.writing → EndsStatement next.kind →
    ∃ a, IsStatement node.nesting u next (some a) ∧ a.erase = node.erase

def Node.ProcedureBack (node : Node) : Prop :=
  ∀ (u : List Token) (next : Token), u.map Token.face = node.writing →
    ∃ a, IsProcedure node.nesting u next a ∧ a.erase = node.erase

namespace WellFormed

variable {Content : TokenKind → String → Prop} {n : Nat} {u : List Token} {next : Token}

theorem Expression.at_expression {e : Node} (formed : Expression Content e)
    (written : u.map Token.face = e.writing) (ends : EndsExpression next.kind) :
    ∃ a, IsExpression (e.nestingAt .expression) u next a ∧ a.erase = e.erase := by
  rw [← Node.writingAt_expression] at written
  exact formed.readBack.at .expression next written ends

theorem Condition.readBack {c : PlZero.Condition Node} (formed : Condition Content c)
    (written : u.map Token.face = conditionWriting c) (ends : EndsExpression next.kind) :
    ∃ c', IsCondition (conditionNesting c) u next c' ∧ eraseCondition c' = eraseCondition c := by
  cases formed with
  | @odd pos e formed =>
    simp only [conditionWriting, optionalWriting, Option.elim_none, if_true, List.append_nil,
      List.singleton_append] at written
    obtain ⟨word, v, rfl, odd, rest⟩ := List.map_eq_cons_iff.1 written
    obtain ⟨a, phrase, same⟩ := formed.at_expression rest ends
    have nesting : conditionNesting ⟨pos, e, true, none, none⟩ = e.nestingAt .expression + 1 := by
      rw [conditionNesting, operandNesting, Nat.max_zero, Nat.add_comm]
      rfl
    rw [nesting]
    refine ⟨_, .odd ((Token.face_eq_word rfl).1 odd) phrase, ?_⟩
    simp only [eraseCondition, same]
  | @comparison pos operator e e' known formed formed' =>
    simp only [conditionWriting, optionalWriting, Option.elim_some, Bool.false_eq_true, if_false,
      List.nil_append, List.append_assoc, List.singleton_append] at written
    obtain ⟨v, tail, rfl, left, rest⟩ := List.map_eq_append_iff.1 written
    obtain ⟨sign, w, rfl, face, right⟩ := List.map_eq_cons_iff.1 rest
    have word : operator.kind.holdsText = false := by cases operator <;> rfl
    have kind := (Token.face_eq_word word).1 face
    have stops : EndsExpression sign.kind := by
      rw [kind]
      cases operator <;> exact ⟨rfl, rfl⟩
    have read : sign.kind.comparison? = some operator := by
      rw [TokenKind.comparison?_eq_some, kind]
      exact ⟨rfl, known⟩
    obtain ⟨a, phrase, same⟩ := formed.at_expression left stops
    obtain ⟨b, phrase', same'⟩ := formed'.at_expression right ends
    obtain ⟨start, v, rfl⟩ := List.exists_cons_of_ne_nil phrase.ne_nil
    have nesting : conditionNesting ⟨pos, e, false, some operator, some e'⟩ =
        max (e.nestingAt .expression) (e'.nestingAt .expression) + 1 := by
      rw [conditionNesting, operandNesting, Nat.add_comm]
      rfl
    rw [nesting]
    refine ⟨_, .compare ((arithmetic_lifts _).2.2.2 (Nat.le_max_left _ _) phrase) read
      ((arithmetic_lifts _).2.2.2 (Nat.le_max_right _ _) phrase'), ?_⟩
    simp only [eraseCondition, eraseOptional, same, same']

theorem optional_readBack {body : Option Node} (back : ∀ node ∈ body, node.StatementBack)
    (written : u.map Token.face = optionalWriting body) (ends : EndsStatement next.kind) :
    ∃ body', IsStatement (optionalNesting body) u next body' ∧
      body'.map Node.erase = body.map Node.erase := by
  cases body with
  | none =>
    rw [List.map_eq_nil_iff.1 written]
    exact ⟨none, .nothing ends.statement, rfl⟩
  | some node =>
    obtain ⟨a, phrase, same⟩ := back node rfl u next written ends
    exact ⟨some a, phrase, congrArg some same⟩

theorem items_readBack {body : List Node} (back : ∀ node ∈ body, node.StatementBack)
    (room : nestings body ≤ n)
    (written : u.map Token.face = writings [TokenKind.semicolon.face] body)
    (ends : next.kind = .endWord) :
    ∃ items, Chain IsStatement .semicolon (n + 1) u next items ∧
      (items.filterMap id).map Node.erase = body.map Node.erase := by
  induction body generalizing u with
  | nil =>
    -- The empty statement before the end.
    obtain ⟨m, rfl⟩ := Nat.exists_eq_add_of_le' room
    rw [List.map_eq_nil_iff.1 written]
    exact ⟨[none], .last (.nothing (by rw [ends]; rfl)) (by simp [ends]), rfl⟩
  | cons node body ih =>
    simp only [writings, List.append_assoc, List.singleton_append] at written
    simp only [nestings, Nat.max_le] at room
    obtain ⟨v, tail, rfl, first, rest⟩ := List.map_eq_append_iff.1 written
    obtain ⟨mark, w, rfl, face, rest⟩ := List.map_eq_cons_iff.1 rest
    have kind := (Token.face_eq_word rfl).1 face
    obtain ⟨a, phrase, same⟩ := back node (List.mem_cons_self) v mark first
      (endsStatement_semicolon kind)
    obtain ⟨items, chain, same'⟩ := ih (fun node mem => back node (List.mem_cons_of_mem _ mem))
      room.2 rest
    refine ⟨some a :: items, .more ((statements_lift _).1 room.1 phrase) kind chain, ?_⟩
    simp only [List.filterMap_cons_some (f := id) rfl, List.map_cons, same, same']

theorem named_readBack {k : TokenKind} {i : Identifier} (word : k.holdsText = false)
    (written : u.map Token.face = [k.face, i.face]) :
    ∃ first name, u = [first, name] ∧ first.kind = k ∧ name.kind = .name ∧ name.text = i.name := by
  obtain ⟨first, v, rfl, face, rest⟩ := List.map_eq_cons_iff.1 written
  obtain ⟨name, rfl, face'⟩ := List.map_eq_singleton_iff.1 rest
  obtain ⟨kind, text⟩ := (Token.face_eq_content rfl).1 face'
  exact ⟨first, name, rfl, (Token.face_eq_word word).1 face, kind, text⟩

theorem guarded_readBack {c : PlZero.Condition Node} {body : Option Node} {k : TokenKind}
    (test : Condition Content c) (back : ∀ node ∈ body, node.StatementBack)
    (link : EndsExpression k) (word : k.holdsText = false)
    (written : u.map Token.face = conditionWriting c ++ k.face :: optionalWriting body)
    (ends : EndsStatement next.kind) :
    ∃ v link w c' body', u = v ++ link :: w ∧ link.kind = k ∧
      IsCondition (max (conditionNesting c) (optionalNesting body)) v link c' ∧
      IsStatement (max (conditionNesting c) (optionalNesting body)) w next body' ∧
      eraseCondition c' = eraseCondition c ∧ body'.map Node.erase = body.map Node.erase := by
  obtain ⟨v, tail, rfl, tested, rest⟩ := List.map_eq_append_iff.1 written
  obtain ⟨t, w, rfl, face, rest⟩ := List.map_eq_cons_iff.1 rest
  have kind := (Token.face_eq_word word).1 face
  obtain ⟨c', phrase, same⟩ := test.readBack tested (kind ▸ link)
  obtain ⟨body', phrase', same'⟩ := optional_readBack back rest ends
  exact ⟨v, t, w, c', body', rfl, kind, condition_lifts (Nat.le_max_left _ _) phrase,
    (statements_lift _).1 (Nat.le_max_right _ _) phrase', same, same'⟩

theorem Statement.readBack {node : Node} (formed : Statement Content node) :
    node.StatementBack := by
  induction formed with
  | @assignment pos target e _ formed =>
    intro u next written ends
    rw [Node.writing] at written
    obtain ⟨name, v, rfl, face, rest⟩ := List.map_eq_cons_iff.1 written
    obtain ⟨sign, v, rfl, assign, rest⟩ := List.map_eq_cons_iff.1 rest
    obtain ⟨kind, text⟩ := (Token.face_eq_content rfl).1 face
    obtain ⟨a, phrase, same⟩ := formed.at_expression rest ends.toEndsExpression
    rw [Node.nesting, Nat.add_comm]
    refine ⟨_, .assignment kind ((Token.face_eq_word rfl).1 assign) phrase, ?_⟩
    simp only [Node.erase, Identifier.erase, same, text]
  | call =>
    intro u next written ends
    rw [Node.writing] at written
    obtain ⟨word, name, rfl, call, kind, text⟩ := named_readBack rfl written
    refine ⟨_, .call call kind, ?_⟩
    simp only [Node.erase, Identifier.erase, text]
  | input =>
    intro u next written ends
    rw [Node.writing] at written
    obtain ⟨mark, name, rfl, question, kind, text⟩ := named_readBack rfl written
    refine ⟨_, .input question kind, ?_⟩
    simp only [Node.erase, Identifier.erase, text]
  | print formed =>
    intro u next written ends
    rw [Node.writing] at written
    obtain ⟨mark, v, rfl, bang, rest⟩ := List.map_eq_cons_iff.1 written
    obtain ⟨a, phrase, same⟩ := formed.at_expression rest ends.toEndsExpression
    rw [Node.nesting, Nat.add_comm]
    refine ⟨_, .print ((Token.face_eq_word rfl).1 bang) phrase, ?_⟩
    simp only [Node.erase, same]
  | @sequence pos body _ back =>
    intro u next written ends
    rw [Node.writing] at written
    obtain ⟨word, v, rfl, begins, rest⟩ := List.map_eq_cons_iff.1 written
    obtain ⟨v, tail, rfl, items, rest⟩ := List.map_eq_append_iff.1 rest
    obtain ⟨finish, rfl, face⟩ := List.map_eq_singleton_iff.1 rest
    have closes := (Token.face_eq_word rfl).1 face
    obtain ⟨items, chain, same⟩ := items_readBack back (Nat.le_refl _) items closes
    have nesting : (Node.sequence pos body).nesting = nestings body + 2 := by
      rw [Node.nesting, Nat.add_comm]
    rw [nesting]
    refine ⟨_, .sequence (.mk ((Token.face_eq_word rfl).1 begins) chain closes), ?_⟩
    simp only [Node.erase, eraseAll_eq, same]
  | @conditional pos c body test _ back =>
    intro u next written ends
    rw [Node.writing] at written
    obtain ⟨word, v, rfl, ifs, rest⟩ := List.map_eq_cons_iff.1 written
    obtain ⟨v, link, w, c', body', rfl, then', phrase, phrase', same, same'⟩ :=
      guarded_readBack test back ⟨rfl, rfl⟩ rfl rest ends
    rw [Node.nesting, Nat.add_comm]
    refine ⟨_, .conditional ((Token.face_eq_word rfl).1 ifs) phrase then' phrase', ?_⟩
    simp only [Node.erase, eraseOptional_eq, same, same']
  | @loop pos c body test _ back =>
    intro u next written ends
    rw [Node.writing] at written
    obtain ⟨word, v, rfl, whiles, rest⟩ := List.map_eq_cons_iff.1 written
    obtain ⟨v, link, w, c', body', rfl, do', phrase, phrase', same, same'⟩ :=
      guarded_readBack test back ⟨rfl, rfl⟩ rfl rest ends
    rw [Node.nesting, Nat.add_comm]
    refine ⟨_, .loop ((Token.face_eq_word rfl).1 whiles) phrase do' phrase', ?_⟩
    simp only [Node.erase, eraseOptional_eq, same, same']

theorem constant_readBack {d : VariableDeclaration} (formed : Constant Content d)
    (written : u.map Token.face = d.writing) :
    ∃ d', IsConstant 0 u next d' ∧ d'.erase = d.erase := by
  cases formed with
  | @mk pos name l named holds =>
    obtain ⟨first, v, rfl, face, rest⟩ := List.map_eq_cons_iff.1 written
    obtain ⟨sign, v, rfl, equal, rest⟩ := List.map_eq_cons_iff.1 rest
    obtain ⟨value, rfl, face'⟩ := List.map_eq_singleton_iff.1 rest
    obtain ⟨kind, text⟩ := (Token.face_eq_content rfl).1 face
    obtain ⟨read, text'⟩ := holds.read face'
    refine ⟨_, .mk kind ((Token.face_eq_word rfl).1 equal) read, ?_⟩
    simp only [VariableDeclaration.erase, Option.map_some, PlZero.Literal.erase, text, text']

theorem variable_readBack {d : VariableDeclaration} (formed : Variable Content d)
    (written : u.map Token.face = d.writing) :
    ∃ d', IsVariable 0 u next d' ∧ d'.erase = d.erase := by
  cases formed with
  | mk named =>
    obtain ⟨first, rfl, face⟩ := List.map_eq_singleton_iff.1 written
    obtain ⟨kind, text⟩ := (Token.face_eq_content rfl).1 face
    refine ⟨_, .mk kind, ?_⟩
    simp only [VariableDeclaration.erase, Option.map_none, text]

section Groups

variable {P : VariableDeclaration → Prop} {word : TokenKind}
  {Item : Nat → List Token → Token → VariableDeclaration → Prop}
  (item : ∀ {d u next}, P d → u.map Token.face = d.writing →
    ∃ d', Item 0 u next d' ∧ d'.erase = d.erase)
  (announced : ∀ {group}, group ≠ [] → (∀ d ∈ group, P d) → groupWord group = word)

include item in
theorem chain_readBack {group : List VariableDeclaration} (some : group ≠ [])
    (formed : ∀ d ∈ group, P d)
    (written : u.map Token.face =
      [TokenKind.comma.face].intercalate (group.map VariableDeclaration.writing))
    (ends : next.kind ≠ .comma) :
    ∃ group', Chain Item .comma 1 u next group' ∧
      group'.map VariableDeclaration.erase = group.map VariableDeclaration.erase := by
  induction group generalizing u with
  | nil => exact absurd rfl some
  | cons d group ih =>
    obtain ⟨first, later⟩ := List.forall_mem_cons.1 formed
    by_cases alone : group = []
    · subst alone
      rw [List.map_cons, List.map_nil, List.intercalate_singleton] at written
      obtain ⟨d', phrase, same⟩ := item first written
      exact ⟨[d'], .last phrase ends, by rw [List.map_singleton, List.map_singleton, same]⟩
    · rw [List.map_cons, List.intercalate_cons_of_ne_nil (by simpa using alone),
        List.append_assoc, List.singleton_append] at written
      obtain ⟨v, tail, rfl, own, rest⟩ := List.map_eq_append_iff.1 written
      obtain ⟨comma, w, rfl, face, rest⟩ := List.map_eq_cons_iff.1 rest
      obtain ⟨d', phrase, same⟩ := item first own
      obtain ⟨group', chain, same'⟩ := ih alone later rest
      refine ⟨d' :: group', .more phrase ((Token.face_eq_word rfl).1 face) chain, ?_⟩
      rw [List.map_cons, List.map_cons, same, same']

include item announced in
theorem group_readBack {nodes : List Node} (formed : Group P nodes) (known : word.holdsText = false)
    (written : u.map Token.face = writings [] nodes) (ends : next.kind ≠ word) :
    ∃ nodes', Optional word (IsGroup word Item) u next nodes' ∧
      nodes'.map Node.erase = nodes.map Node.erase := by
  cases formed with
  | absent =>
    rw [List.map_eq_nil_iff.1 written]
    exact ⟨[], .absent ends, rfl⟩
  | present some formed =>
    simp only [writings, Node.writing, groupWriting, announced some formed, List.append_nil]
      at written
    obtain ⟨start, v, rfl, face, rest⟩ := List.map_eq_cons_iff.1 written
    obtain ⟨v, tail, rfl, items, rest⟩ := List.map_eq_append_iff.1 rest
    obtain ⟨finish, rfl, face'⟩ := List.map_eq_singleton_iff.1 rest
    have kind := (Token.face_eq_word rfl).1 face'
    have other : finish.kind ≠ .comma := by
      rw [kind]
      decide
    obtain ⟨group', chain, same⟩ := chain_readBack item some formed items other
    refine ⟨_, .present (.mk ((Token.face_eq_word known).1 face) chain kind), ?_⟩
    simp only [List.map_singleton, Node.erase, same]

end Groups

theorem groupWord_constants {group : List VariableDeclaration} (some : group ≠ [])
    (formed : ∀ d ∈ group, Constant Content d) : groupWord group = .constWord := by
  obtain ⟨d, mem⟩ := List.exists_mem_of_ne_nil group some
  have constant : d.isConstant = true := by
    cases formed d mem
    rfl
  exact if_pos (List.any_eq_true.2 ⟨d, mem, constant⟩)

theorem groupWord_variables {group : List VariableDeclaration}
    (formed : ∀ d ∈ group, Variable Content d) : groupWord group = .varWord := by
  refine if_neg fun any => ?_
  obtain ⟨d, mem, constant⟩ := List.any_eq_true.1 any
  cases formed d mem
  cases constant

theorem procedures_readBack {nodes : List Node} (back : ∀ node ∈ nodes, node.ProcedureBack)
    (room : ∀ node ∈ nodes, node.nesting ≤ n) (written : u.map Token.face = writings [] nodes)
    (ends : next.kind ≠ .procedureWord) :
    ∃ nodes', AreProcedures n u next nodes' ∧ nodes'.map Node.erase = nodes.map Node.erase := by
  induction nodes generalizing u with
  | nil =>
    rw [List.map_eq_nil_iff.1 written]
    exact ⟨[], .none ends, rfl⟩
  | cons node nodes ih =>
    obtain ⟨back, later⟩ := List.forall_mem_cons.1 back
    obtain ⟨room, room'⟩ := List.forall_mem_cons.1 room
    rw [writings, List.append_nil] at written
    obtain ⟨v, w, rfl, first, rest⟩ := List.map_eq_append_iff.1 written
    obtain ⟨a, phrase, same⟩ := back v (w.headD next) first
    obtain ⟨as, phrases, same'⟩ := ih later room' rest
    refine ⟨a :: as, .more ((blocks_lift _).2 room phrase) phrases, ?_⟩
    rw [List.map_cons, List.map_cons, same, same']

-- Each part of a block starts with a word of its own, so that the parts before it end there.
theorem body_readBack {constants vars procedures : List Node} {statement : Option Node}
    (hasConstants : Group (Constant Content) constants) (hasVars : Group (Variable Content) vars)
    (back : ∀ node ∈ procedures, node.ProcedureBack)
    (formed : ∀ node ∈ statement, Statement Content node)
    (room : nestings (constants ++ vars ++ procedures ++ statement.toList) ≤ n)
    (written : u.map Token.face =
      writings [] (constants ++ vars ++ procedures ++ statement.toList))
    (ends : next.kind = .semicolon ∨ next.kind = .dot) :
    ∃ v w declared body, u = v ++ w ∧ AreDeclarations n v (w.headD next) declared ∧
      IsStatement n w next body ∧ (declared ++ body.toList).map Node.erase =
        (constants ++ vars ++ procedures ++ statement.toList).map Node.erase := by
  rw [writings_append, writings_append, writings_append, List.append_assoc, List.append_assoc]
    at written
  obtain ⟨first, rooms⟩ := nestings_le.1 room
  obtain ⟨a, rest, rfl, written₁, written⟩ := List.map_eq_append_iff.1 written
  obtain ⟨b, rest, rfl, written₂, written⟩ := List.map_eq_append_iff.1 written
  obtain ⟨c, d, rfl, written₃, written₄⟩ := List.map_eq_append_iff.1 written
  have stops : EndsStatement next.kind := by
    rcases ends with kind | kind <;> rw [kind] <;> exact ⟨⟨rfl, rfl⟩, rfl⟩
  have ends₄ : EndsDeclarations next.kind := by
    rcases ends with kind | kind <;> rw [kind] <;> exact ⟨by decide, by decide, by decide⟩
  have written₄ : d.map Token.face = optionalWriting statement := by
    cases statement with
    | none => exact written₄
    | some node => simpa [writings, optionalWriting] using written₄
  obtain ⟨body, phrase₄, same₄⟩ :=
    optional_readBack (fun node mem => (formed node mem).readBack) written₄ stops
  have ends₃ := phrase₄.endsDeclarations ends₄
  obtain ⟨procedures', phrase₃, same₃⟩ := procedures_readBack (n := n) back
    (fun node mem => rooms node (by simp [mem])) written₃ ends₃.procedures
  have ends₂ := phrase₃.head ends₃
  obtain ⟨vars', phrase₂, same₂⟩ := group_readBack
    variable_readBack (fun _ => groupWord_variables) hasVars rfl written₂ ends₂.2
  have ends₁ := phrase₂.head ends₂.1 (by decide)
  obtain ⟨constants', phrase₁, same₁⟩ := group_readBack
    constant_readBack groupWord_constants hasConstants rfl written₁ ends₁
  have lifted : IsStatement n d next body := by
    refine (statements_lift _).1 ?_ phrase₄
    exact (optionalNesting_le first).2 fun node mem => rooms node (by simp [Option.mem_def.1 mem])
  rw [← headD_append] at phrase₁
  refine ⟨a ++ (b ++ c), d, _, body, by simp, .mk phrase₁ phrase₂ phrase₃, lifted, ?_⟩
  simp only [List.map_append, same₁, same₂, same₃, ← Option.toList_map, same₄]

theorem Procedure.readBack {node : Node} (formed : Procedure Content node) :
    node.ProcedureBack := by
  induction formed with
  | @mk pos start name constants vars procedures statement _ hasConstants hasVars _ formed back =>
    intro u next written
    rw [Node.writing, blockWriting] at written
    obtain ⟨word, v, rfl, face, rest⟩ := List.map_eq_cons_iff.1 written
    obtain ⟨first, v, rfl, face', rest⟩ := List.map_eq_cons_iff.1 rest
    obtain ⟨mark, v, rfl, face'', rest⟩ := List.map_eq_cons_iff.1 rest
    obtain ⟨v, tail, rfl, inside, rest⟩ := List.map_eq_append_iff.1 rest
    obtain ⟨finish, rfl, closes⟩ := List.map_eq_singleton_iff.1 rest
    have kind := (Token.face_eq_word rfl).1 closes
    obtain ⟨named, text⟩ := (Token.face_eq_content rfl).1 face'
    obtain ⟨x, y, declared, body, rfl, declarations, phrase, same⟩ :=
      body_readBack hasConstants hasVars back formed (Nat.le_refl _) inside (.inl kind)
    have block : IsBlock _ false (x ++ (y ++ [finish])) next _ :=
      .mk (by rwa [headD_append]) phrase (.present kind)
    rw [← List.append_assoc] at block
    rw [Node.nesting, blockNesting, Nat.add_comm, Nat.add_comm 1 (nestings _)]
    refine ⟨_, .mk ((Token.face_eq_word rfl).1 face) named ((Token.face_eq_word rfl).1 face'')
      block, ?_⟩
    simp only [Node.erase, eraseBlock, eraseAll_eq, exitAt, Bool.false_eq_true, false_and, if_false,
      List.append_nil, same, text]

theorem Program.readBack {t : PlZero.Program} (formed : Program Content t)
    (written : u.map Token.face = t.writing) :
    ∃ p, IsProgram t.nesting u p ∧ p.erase = t.erase := by
  cases formed with
  | @mk pos start stop nodes formed =>
    rw [PlZero.Program.writing, blockWriting, writings_append] at written
    obtain ⟨v, tail, rfl, inside, rest⟩ := List.map_eq_append_iff.1 written
    obtain ⟨point, rfl, closes⟩ := List.map_eq_singleton_iff.1 rest
    have dot := (Token.face_eq_word rfl).1 closes
    have room : nestings nodes ≤ nestings (nodes ++ [.exitMarker stop]) := by
      obtain ⟨first, rooms⟩ := nestings_le.1 (Nat.le_refl (nestings (nodes ++ [.exitMarker stop])))
      exact nestings_le.2 ⟨first, fun node mem => rooms node (List.mem_append_left _ mem)⟩
    cases formed with
    | mk hasConstants hasVars procedures formed =>
      obtain ⟨x, y, declared, body, rfl, declarations, phrase, same⟩ :=
        body_readBack hasConstants hasVars (fun node mem => (procedures node mem).readBack) formed
          room inside (.inr dot)
      have block : IsBlock _ true (x ++ (y ++ [])) point _ :=
        .mk (by rwa [headD_append]) phrase (.absent (by rw [dot]; decide))
      rw [List.append_nil] at block
      rw [PlZero.Program.nesting, blockNesting, Nat.add_comm]
      refine ⟨_, .mk block dot, ?_⟩
      simp only [PlZero.Program.erase, eraseBlock, eraseAll_eq, exitAt, dot, and_self, if_true,
        List.map_append, List.map_singleton, Node.erase] at same ⊢
      rw [same]

end WellFormed

end PlZero
