import PlZero.Proofs.TreePositions

set_option autoImplicit false

namespace PlZero

namespace Json

/-- Two documents are the same, if their records may have their fields in different orders. -/
inductive Same : Json → Json → Prop
  | null : Same null null
  | bool {b : Bool} : Same (bool b) (bool b)
  | number {n : Int} : Same (number n) (number n)
  | text {s : String} : Same (text s) (text s)
  | list {items items' : List Json} : items.length = items'.length →
      (∀ (i : Nat) j j', items[i]? = some j → items'[i]? = some j' → Same j j') →
      Same (list items) (list items')
  | record {fields fields' : List (String × Json)} :
      (∀ key, (fields.lookup key).isSome = (fields'.lookup key).isSome) →
      (∀ key j j', fields.lookup key = some j → fields'.lookup key = some j' → Same j j') →
      Same (record fields) (record fields')

theorem Same.refl (j : Json) : j.Same j := by
  match j with
  | .null => exact .null
  | .bool _ => exact .bool
  | .number _ => exact .number
  | .text _ => exact .text
  | .list items =>
    refine .list rfl fun i v w found found' => ?_
    cases found.symm.trans found'
    have smaller := List.sizeOf_lt_of_mem (List.mem_of_getElem? found)
    exact Same.refl v
  | .record fields =>
    refine .record (fun _ => rfl) fun key v w found found' => ?_
    cases found.symm.trans found'
    obtain ⟨before, after, split, _⟩ := List.lookup_eq_some_iff.1 found
    have mem : (key, v) ∈ fields := by simp [split]
    have smaller : sizeOf v < sizeOf fields := by
      have pair := List.sizeOf_lt_of_mem mem
      have part : sizeOf v < sizeOf (key, v) := by simp +arith
      exact part.trans pair
    exact Same.refl v
termination_by sizeOf j
decreasing_by
  all_goals simp; omega

variable {α : Type} {f : α → Json}

theorem Same.of_list {as bs : List α} (inside : ∀ a ∈ as, ∀ b ∈ bs, (f a).Same (f b) → a = b)
    (same : (Json.list (as.map f)).Same (.list (bs.map f))) : as = bs := by
  cases same with
  | list length items =>
    rw [List.length_map, List.length_map] at length
    apply List.ext_getElem length
    intro i here here'
    apply inside _ (List.getElem_mem here) _ (List.getElem_mem here')
    apply items i
    · simp [here]
    · simp [here']

theorem Same.of_option {a b : Option α} (notNull : ∀ a, f a ≠ .null)
    (inside : ∀ x ∈ a, ∀ y ∈ b, (f x).Same (f y) → x = y)
    (same : (a.elim .null f).Same (b.elim .null f)) : a = b := by
  cases a with
  | none =>
    cases b with
    | none => rfl
    | some y =>
      generalize shown : (some y).elim Json.null f = j at same
      cases same
      exact absurd shown (notNull y)
  | some x =>
    cases b with
    | none =>
      generalize shown : (some x).elim Json.null f = j at same
      cases same
      exact absurd shown (notNull x)
    | some y => rw [inside x rfl y rfl same]

theorem Same.of_text {s s' : String} (same : (Json.text s).Same (.text s')) : s = s' := by
  cases same
  rfl

theorem Same.of_number {n n' : Int} (same : (Json.number n).Same (.number n')) : n = n' := by
  cases same
  rfl

theorem Same.of_bool {b b' : Bool} (same : (Json.bool b).Same (.bool b')) : b = b' := by
  cases same
  rfl

def SameAt (key : String) (fields fields' : List (String × Json)) : Prop :=
  ∀ j j', fields.lookup key = some j → fields'.lookup key = some j' → Same j j'

end Json

open Json

section Outlines

variable {variety variety' : String} {pos pos' : Position} {own own' : List (String × Json)}

theorem lookup_outline {key : String} (apart : key ∉ ["kind", "line", "col", "offset"]) :
    (("kind", Json.text variety) :: pos.fields ++ own).lookup key = own.lookup key := by
  simp only [List.mem_cons, List.not_mem_nil, or_false, not_or] at apart
  simp [Position.fields, List.lookup_cons, beq_false_of_ne, apart]

theorem Json.Same.of_outline
    (same : (outline variety pos own).Same (outline variety' pos' own')) :
    variety = variety' ∧ pos = pos' ∧
      ∀ key, key ∉ ["kind", "line", "col", "offset"] → SameAt key own own' := by
  cases same with
  | record _ fields =>
    have kind := fields "kind" (.text variety) (.text variety') rfl rfl
    have line := fields "line" (.number pos.line) (.number pos'.line) rfl rfl
    have column := fields "col" (.number pos.column) (.number pos'.column) rfl rfl
    have offset := fields "offset" (.number pos.offset) (.number pos'.offset) rfl rfl
    refine ⟨kind.of_text, ?_, fun key apart j j' found found' => ?_⟩
    · cases pos
      cases pos'
      cases line.of_number
      cases column.of_number
      cases offset.of_number
      rfl
    · exact fields key j j' ((lookup_outline apart).trans found) ((lookup_outline apart).trans found')

end Outlines

theorem DataType.ofLabel?_label (type : DataType) : ofLabel? type.label = some type := by
  cases type <;> rfl

theorem DataType.eq_of_label {type type' : DataType} (same : type.label = type'.label) :
    type = type' := by
  have found := type.ofLabel?_label
  rw [same, type'.ofLabel?_label] at found
  exact (Option.some.inj found).symm

theorem UnaryOperator.eq_of_symbol {operator operator' : UnaryOperator}
    (known : operator.kind ≠ .invalid) (known' : operator'.kind ≠ .invalid)
    (same : operator.symbol = operator'.symbol) : operator = operator' := by
  cases operator <;> cases operator' <;> simp_all [symbol, kind]

theorem BinaryOperator.eq_of_symbol {operator operator' : BinaryOperator}
    (known : operator.kind ≠ .invalid) (known' : operator'.kind ≠ .invalid)
    (same : operator.symbol = operator'.symbol) : operator = operator' := by
  cases operator <;> cases operator' <;> simp_all [symbol, kind]

theorem Comparison.eq_of_symbol {operator operator' : Comparison}
    (known : operator.kind ≠ .invalid) (known' : operator'.kind ≠ .invalid)
    (same : operator.symbol = operator'.symbol) : operator = operator' := by
  cases operator <;> cases operator' <;> simp_all [symbol, kind]

theorem Identifier.eq_of_same {i i' : Identifier} (same : i.outline.Same i'.outline) : i = i' := by
  obtain ⟨_, place, agree⟩ := same.of_outline
  have name := agree "name" (by decide) _ _ rfl rfl
  cases i
  cases i'
  cases place
  cases name.of_text
  rfl

theorem Literal.eq_of_same {l l' : Literal} (same : l.outline.Same l'.outline) : l = l' := by
  obtain ⟨_, place, agree⟩ := same.of_outline
  have type := agree "data_type" (by decide) _ _ rfl rfl
  have raw := agree "raw" (by decide) _ _ rfl rfl
  cases l
  cases l'
  cases place
  cases DataType.eq_of_label type.of_text
  cases raw.of_text
  rfl

theorem VariableDeclaration.eq_of_same {d d' : VariableDeclaration}
    (same : d.outline.Same d'.outline) : d = d' := by
  obtain ⟨_, place, agree⟩ := same.of_outline
  have name := agree "name" (by decide) _ _ rfl rfl
  have isConstant := agree "is_constant" (by decide) _ _ rfl rfl
  have value := agree "value" (by decide) _ _ rfl rfl
  have notNull (l : Literal) : l.outline ≠ .null := nofun
  cases d
  cases d'
  cases place
  cases name.of_text
  cases isConstant.of_bool
  cases value.of_option notNull fun _ _ _ _ => Literal.eq_of_same
  rfl

namespace Node

def KnownHere : Node → Prop
  | unary _ operator _ => operator.kind ≠ .invalid
  | binary _ operator _ _ => operator.kind ≠ .invalid
  | condition c => ∀ operator ∈ c.operator, operator.kind ≠ .invalid
  | unknown _ _ => False
  | _ => True

/-- A tree of the varieties and operators of the language, each wherever it may be put. -/
def Known (a : Node) : Prop := ∀ d : Node, d.Within a → d.KnownHere

def documentName : Node → String
  | identifier _ => "identifier"
  | literal _ => "literal"
  | unary _ _ _ => "unary"
  | binary _ _ _ _ => "binary"
  | typecast _ _ _ => "typecast"
  | condition _ => "condition"
  | assignment _ _ _ => "assignment"
  | call _ _ => "call"
  | input _ _ => "input"
  | print _ _ => "print"
  | sequence _ _ => "begin"
  | conditional _ _ _ => "if"
  | loop _ _ _ => "while"
  | exitMarker _ => "exit_marker"
  | declaration _ => "variable_declaration"
  | declarations _ _ => "variable_declaration_group"
  | block _ => "block"
  | procedure _ _ _ => "procedure_declaration"
  | program _ _ => "program"
  | unknown _ name => String.ofList (name.toList.map Char.toLower)

theorem Known.here {a : Node} (known : a.Known) : a.KnownHere := known a .refl

theorem Known.child {a b : Node} (known : a.Known) (mem : b ∈ a.children) : b.Known :=
  fun d within => known d (.inside mem within)

theorem Known.of_children {a : Node} (here : a.KnownHere) (inside : ∀ b ∈ a.children, b.Known) :
    a.Known := by
  intro d within
  cases within with
  | refl => exact here
  | inside mem within => exact inside _ mem d within

theorem conditionOutline_eq (c : Condition Node) :
    conditionOutline c = PlZero.outline "condition" c.pos
      [("left", c.left.outline), ("is_odd", .bool c.isOdd),
        ("operator", c.operator.elim .null (.text ·.symbol)),
        ("right", c.right.elim .null Node.outline)] := by
  obtain ⟨pos, left, isOdd, operator, right⟩ := c
  cases right <;> rfl

theorem outlines_eq (nodes : List Node) : outlines nodes = nodes.map Node.outline := by
  induction nodes with
  | nil => rfl
  | cons node nodes ih => rw [outlines, ih, List.map_cons]

theorem optionalOutline_eq (body : Option Node) :
    optionalOutline body = body.elim .null Node.outline := by
  cases body <;> rfl

theorem blockOutline_eq (b : Block Node) :
    blockOutline b = PlZero.outline "block" b.pos [("body", .list (b.body.map Node.outline))] := by
  cases b
  rw [blockOutline, outlines_eq]

theorem exists_outline (a : Node) : ∃ own, a.outline = PlZero.outline a.documentName a.pos own := by
  cases a with
  | condition c => exact ⟨_, conditionOutline_eq c⟩
  | block b => exact ⟨_, blockOutline_eq b⟩
  | _ => exact ⟨_, rfl⟩

inductive SameVariety : Node → Node → Prop
  | identifier {i i' : Identifier} : SameVariety (identifier i) (identifier i')
  | literal {l l' : Literal} : SameVariety (literal l) (literal l')
  | unary {p p' : Position} {o o' : UnaryOperator} {a a' : Node} :
      SameVariety (unary p o a) (unary p' o' a')
  | binary {p p' : Position} {o o' : BinaryOperator} {a a' b b' : Node} :
      SameVariety (binary p o a b) (binary p' o' a' b')
  | typecast {p p' : Position} {t t' : DataType} {a a' : Node} :
      SameVariety (typecast p t a) (typecast p' t' a')
  | condition {c c' : Condition Node} : SameVariety (condition c) (condition c')
  | assignment {p p' : Position} {i i' : Identifier} {a a' : Node} :
      SameVariety (assignment p i a) (assignment p' i' a')
  | call {p p' : Position} {i i' : Identifier} : SameVariety (call p i) (call p' i')
  | input {p p' : Position} {i i' : Identifier} : SameVariety (input p i) (input p' i')
  | print {p p' : Position} {a a' : Node} : SameVariety (print p a) (print p' a')
  | sequence {p p' : Position} {as as' : List Node} : SameVariety (sequence p as) (sequence p' as')
  | conditional {p p' : Position} {c c' : Condition Node} {a a' : Option Node} :
      SameVariety (conditional p c a) (conditional p' c' a')
  | loop {p p' : Position} {c c' : Condition Node} {a a' : Option Node} :
      SameVariety (loop p c a) (loop p' c' a')
  | exitMarker {p p' : Position} : SameVariety (exitMarker p) (exitMarker p')
  | declaration {d d' : VariableDeclaration} : SameVariety (declaration d) (declaration d')
  | declarations {p p' : Position} {ds ds' : List VariableDeclaration} :
      SameVariety (declarations p ds) (declarations p' ds')
  | block {b b' : Block Node} : SameVariety (block b) (block b')
  | procedure {p p' : Position} {n n' : String} {b b' : Block Node} :
      SameVariety (procedure p n b) (procedure p' n' b')
  | program {p p' : Position} {b b' : Block Node} : SameVariety (program p b) (program p' b')

theorem sameVariety_of_documentName {a b : Node} (known : a.KnownHere) (known' : b.KnownHere)
    (same : a.documentName = b.documentName) : a.SameVariety b := by
  cases a with
  | unknown => exact known.elim
  | _ =>
    cases b with
    | unknown => exact known'.elim
    | _ => first | constructor | simp [documentName] at same

theorem outline_ne_null (a : Node) : a.outline ≠ .null := by
  obtain ⟨own, shown⟩ := a.exists_outline
  rw [shown]
  nofun

theorem sameVariety_of_same {a b : Node} (known : a.KnownHere) (known' : b.KnownHere)
    (same : a.outline.Same b.outline) : a.SameVariety b := by
  obtain ⟨own, shown⟩ := a.exists_outline
  obtain ⟨own', shown'⟩ := b.exists_outline
  rw [shown, shown'] at same
  exact sameVariety_of_documentName known known' same.of_outline.1

def Apart (as bs : List Node) : Prop :=
  ∀ a ∈ as, ∀ b ∈ bs, a.outline.Same b.outline → a = b

theorem condition_eq_of_same {c c' : Condition Node}
    (inside : Apart (condition c).children (condition c').children)
    (known : (condition c).KnownHere) (known' : (condition c').KnownHere)
    (same : (conditionOutline c).Same (conditionOutline c')) : c = c' := by
  rw [conditionOutline_eq, conditionOutline_eq] at same
  obtain ⟨_, place, agree⟩ := same.of_outline
  have left := agree "left" (by decide) _ _ rfl rfl
  have isOdd := agree "is_odd" (by decide) _ _ rfl rfl
  have operator := agree "operator" (by decide) _ _ rfl rfl
  have right := agree "right" (by decide) _ _ rfl rfl
  have notNull (o : Comparison) : Json.text o.symbol ≠ .null := nofun
  have operators : c.operator = c'.operator := by
    apply operator.of_option notNull
    intro o mem o' mem' symbols
    exact Comparison.eq_of_symbol (known o mem) (known' o' mem') symbols.of_text
  have rights : c.right = c'.right := by
    apply right.of_option outline_ne_null
    intro x mem y mem'
    exact inside x (List.mem_cons_of_mem _ (Option.mem_toList.2 mem)) y
      (List.mem_cons_of_mem _ (Option.mem_toList.2 mem'))
  have lefts := inside c.left (by simp [children]) c'.left (by simp [children]) left
  cases c
  cases c'
  cases place
  cases isOdd.of_bool
  cases operators
  cases rights
  cases lefts
  rfl

theorem block_eq_of_same {b b' : Block Node} (inside : Apart b.body b'.body)
    (same : (blockOutline b).Same (blockOutline b')) : b = b' := by
  rw [blockOutline_eq, blockOutline_eq] at same
  obtain ⟨_, place, agree⟩ := same.of_outline
  have body := agree "body" (by decide) _ _ rfl rfl
  cases b
  cases b'
  cases place
  cases body.of_list inside
  rfl

theorem branch_eq_of_same {c c' : Condition Node} {body body' : Option Node}
    (inside : Apart (condition c :: body.toList) (condition c' :: body'.toList))
    (tests : (conditionOutline c).Same (conditionOutline c'))
    (bodies : (optionalOutline body).Same (optionalOutline body')) : c = c' ∧ body = body' := by
  rw [optionalOutline_eq, optionalOutline_eq] at bodies
  have test := inside (condition c) (by simp) (condition c') (by simp) tests
  have branch : body = body' := by
    apply bodies.of_option outline_ne_null
    intro x mem y mem'
    exact inside x (List.mem_cons_of_mem _ (Option.mem_toList.2 mem)) y
      (List.mem_cons_of_mem _ (Option.mem_toList.2 mem'))
  exact ⟨condition.inj test, branch⟩

theorem eq_of_same_children {a b : Node} (inside : Apart a.children b.children)
    (known : a.KnownHere) (known' : b.KnownHere) (same : a.outline.Same b.outline) : a = b := by
  cases sameVariety_of_same known known' same with
  | identifier => rw [Identifier.eq_of_same same]
  | literal => rw [Literal.eq_of_same same]
  | declaration => rw [VariableDeclaration.eq_of_same same]
  | condition => rw [condition_eq_of_same inside known known' same]
  | block => rw [block_eq_of_same inside same]
  | exitMarker =>
    obtain ⟨_, rfl, _⟩ := same.of_outline
    rfl
  | @unary p _ o o' a a' =>
    obtain ⟨_, rfl, agree⟩ := same.of_outline
    have operator := agree "operator" (by decide) _ _ rfl rfl
    have operand := agree "operand" (by decide) _ _ rfl rfl
    have operators : o = o' := UnaryOperator.eq_of_symbol known known' operator.of_text
    have operands : a = a' := inside a (by simp [children]) a' (by simp [children]) operand
    rw [operators, operands]
  | @binary p _ o o' a a' b b' =>
    obtain ⟨_, rfl, agree⟩ := same.of_outline
    have operator := agree "operator" (by decide) _ _ rfl rfl
    have left := agree "left" (by decide) _ _ rfl rfl
    have right := agree "right" (by decide) _ _ rfl rfl
    have operators : o = o' := BinaryOperator.eq_of_symbol known known' operator.of_text
    have lefts : a = a' := inside a (by simp [children]) a' (by simp [children]) left
    have rights : b = b' := inside b (by simp [children]) b' (by simp [children]) right
    rw [operators, lefts, rights]
  | @typecast p _ t t' a a' =>
    obtain ⟨_, rfl, agree⟩ := same.of_outline
    have type := agree "target_type" (by decide) _ _ rfl rfl
    have operand := agree "operand" (by decide) _ _ rfl rfl
    have types : t = t' := DataType.eq_of_label type.of_text
    have operands : a = a' := inside a (by simp [children]) a' (by simp [children]) operand
    rw [types, operands]
  | @assignment p _ i i' a a' =>
    obtain ⟨_, rfl, agree⟩ := same.of_outline
    have target := agree "identifier" (by decide) _ _ rfl rfl
    have expr := agree "expr" (by decide) _ _ rfl rfl
    have exprs : a = a' := inside a (by simp [children]) a' (by simp [children]) expr
    rw [Identifier.eq_of_same target, exprs]
  | call =>
    obtain ⟨_, rfl, agree⟩ := same.of_outline
    have target := agree "identifier" (by decide) _ _ rfl rfl
    rw [Identifier.eq_of_same target]
  | input =>
    obtain ⟨_, rfl, agree⟩ := same.of_outline
    have target := agree "identifier" (by decide) _ _ rfl rfl
    rw [Identifier.eq_of_same target]
  | @print p _ a a' =>
    obtain ⟨_, rfl, agree⟩ := same.of_outline
    have expr := agree "expr" (by decide) _ _ rfl rfl
    have exprs : a = a' := inside a (by simp [children]) a' (by simp [children]) expr
    rw [exprs]
  | @sequence p _ as as' =>
    obtain ⟨_, rfl, agree⟩ := same.of_outline
    have body := agree "body" (by decide) _ _ rfl rfl
    rw [outlines_eq, outlines_eq] at body
    have bodies : as = as' := body.of_list inside
    rw [bodies]
  | conditional =>
    obtain ⟨_, rfl, agree⟩ := same.of_outline
    have test := agree "condition" (by decide) _ _ rfl rfl
    have body := agree "body" (by decide) _ _ rfl rfl
    obtain ⟨rfl, rfl⟩ := branch_eq_of_same inside test body
    rfl
  | loop =>
    obtain ⟨_, rfl, agree⟩ := same.of_outline
    have test := agree "condition" (by decide) _ _ rfl rfl
    have body := agree "body" (by decide) _ _ rfl rfl
    obtain ⟨rfl, rfl⟩ := branch_eq_of_same inside test body
    rfl
  | declarations =>
    obtain ⟨_, rfl, agree⟩ := same.of_outline
    have group := agree "declarations" (by decide) _ _ rfl rfl
    rw [group.of_list fun _ _ _ _ => VariableDeclaration.eq_of_same]
  | @procedure p _ n n' b b' =>
    obtain ⟨_, rfl, agree⟩ := same.of_outline
    have name := agree "name" (by decide) _ _ rfl rfl
    have body := agree "body" (by decide) _ _ rfl rfl
    have bodies := inside (.block b) (by simp [children]) (.block b') (by simp [children]) body
    rw [name.of_text, block.inj bodies]
  | @program p _ b b' =>
    obtain ⟨_, rfl, agree⟩ := same.of_outline
    have body := agree "body" (by decide) _ _ rfl rfl
    have bodies := inside (.block b) (by simp [children]) (.block b') (by simp [children]) body
    rw [block.inj bodies]

theorem eq_of_same {a b : Node} (known : a.Known) (known' : b.Known)
    (same : a.outline.Same b.outline) : a = b := by
  apply eq_of_same_children _ known.here known'.here same
  intro x mem y mem' inner
  have smaller := sizeOf_lt_of_mem_children mem
  exact eq_of_same (known.child mem) (known'.child mem') inner
termination_by sizeOf a

end Node

/-- Two trees have the same document only if they are one tree: the same nodes in the same places,
with the same positions. -/
theorem documents_tell_trees {a b : Node} (known : a.Known) (known' : b.Known) :
    a.outline.Same b.outline ↔ a = b := by
  constructor
  · exact Node.eq_of_same known known'
  · rintro rfl
    exact .refl a.outline

-- No statement is not the statement that does nothing.
theorem documents_tell_trees_branch :
    let test : Condition Node := ⟨⟨3, 1, 4⟩, .literal ⟨⟨7, 1, 8⟩, .integer, "1"⟩, true, none, none⟩
    let a : Node := .conditional .start test none
    let b : Node := .conditional .start test (some (.sequence ⟨14, 1, 15⟩ []))
    a.Known ∧ b.Known ∧ ¬ a.outline.Same b.outline := by
  intro test a b
  have leaf {d : Node} (here : d.KnownHere) (none : d.children = []) : d.Known :=
    .of_children here (by simp [none])
  have condition : (Node.condition test).Known := by
    apply Node.Known.of_children
    · nofun
    · exact List.forall_mem_singleton.2 (leaf trivial rfl)
  have known : a.Known :=
    .of_children trivial (List.forall_mem_singleton.2 condition)
  have known' : b.Known :=
    .of_children trivial (List.forall_mem_cons.2
      ⟨condition, List.forall_mem_singleton.2 (leaf trivial rfl)⟩)
  refine ⟨known, known', fun same => ?_⟩
  have equal : Node.conditional .start test none = .conditional .start test _ :=
    (documents_tell_trees known known').1 same
  cases (Node.conditional.inj equal).2.2

end PlZero
