import PlZero.Grammar

set_option autoImplicit false

/-!
Phrases: runs of tokens that a rule of the grammar reads, with the tree they are read as. A phrase
knows the token after it, because a rule goes on as long as that token lets it. The number is the
nesting that a phrase may use. A phrase that cannot be finished is stuck at a token: what stands
before that token is the start of a phrase, and the token does not go on with it.
-/

namespace PlZero

namespace TokenKind

def startsFactor : TokenKind → Bool
  | name | number | float | string | leftParen => true
  | _ => false

def startsStatement : TokenKind → Bool
  | name | callWord | question | bang | beginWord | ifWord | whileWord => true
  | _ => false

theorem startsFactor_eq_false {k : TokenKind} (name : k ≠ .name) (literal : k.literalType? = none)
    (opening : k ≠ .leftParen) : k.startsFactor = false := by
  cases k <;> simp_all [startsFactor, literalType?]

theorem startsStatement_eq_false {k : TokenKind} (name : k ≠ .name) (call : k ≠ .callWord)
    (question : k ≠ .question) (bang : k ≠ .bang) (begins : k ≠ .beginWord)
    (ifs : k ≠ .ifWord) (whiles : k ≠ .whileWord) : k.startsStatement = false := by
  cases k <;> simp_all [startsStatement]

theorem ne_name_of_literalType {k : TokenKind} {type : DataType}
    (h : k.literalType? = some type) : k ≠ .name := by
  rintro rfl
  simp [literalType?] at h

theorem sign_of_startsFactor {k : TokenKind} (h : k.startsFactor = true) : k.sign? = none := by
  cases k <;> simp_all [startsFactor, sign?]

theorem no_word_of_starts {k : TokenKind} (h : k.startsFactor = true ∨ k.sign?.isSome = true) :
    k.castType? = none ∧ k ≠ .oddWord := by
  cases k <;> simp_all [startsFactor, sign?, castType?]

end TokenKind

namespace Phrase

variable {α : Type}

/-- Items with a separator between them. The items have one nesting less than the list. -/
inductive Chain (Item : Nat → List Token → Token → α → Prop) (separator : TokenKind) :
    Nat → List Token → Token → List α → Prop
  | last {n : Nat} {u : List Token} {next : Token} {a : α} : Item n u next a →
      next.kind ≠ separator → Chain Item separator (n + 1) u next [a]
  | more {n : Nat} {u v : List Token} {s next : Token} {a : α} {as : List α} : Item n u s a →
      s.kind = separator → Chain Item separator (n + 1) v next as →
      Chain Item separator (n + 1) (u ++ s :: v) next (a :: as)

inductive StuckChain (Item : Nat → List Token → Token → α → Prop)
    (Stuck : Nat → List Token → Token → Prop) (separator : TokenKind) :
    Nat → List Token → Token → Prop
  | item {n : Nat} {u : List Token} {t : Token} : Stuck n u t →
      StuckChain Item Stuck separator (n + 1) u t
  | later {n : Nat} {u v : List Token} {s t : Token} {a : α} : Item n u s a →
      s.kind = separator → StuckChain Item Stuck separator (n + 1) v t →
      StuckChain Item Stuck separator (n + 1) (u ++ s :: v) t

inductive IsConstant : Nat → List Token → Token → VariableDeclaration → Prop
  | mk {n : Nat} {name sign value next : Token} {type : DataType} : name.kind = .name →
      sign.kind = .equal → value.kind.literalType? = some type →
      IsConstant n [name, sign, value] next
        ⟨name.pos, name.text, true, some ⟨value.pos, type, value.text⟩⟩

inductive StuckConstant : Nat → List Token → Token → Prop
  | name {n : Nat} {t : Token} : t.kind ≠ .name → StuckConstant n [] t
  | sign {n : Nat} {name t : Token} : name.kind = .name → t.kind ≠ .equal →
      StuckConstant n [name] t
  | value {n : Nat} {name sign t : Token} : name.kind = .name → sign.kind = .equal →
      t.kind.literalType? = none → StuckConstant n [name, sign] t

inductive IsVariable : Nat → List Token → Token → VariableDeclaration → Prop
  | mk {n : Nat} {name next : Token} : name.kind = .name →
      IsVariable n [name] next ⟨name.pos, name.text, false, none⟩

inductive StuckVariable : Nat → List Token → Token → Prop
  | name {n : Nat} {t : Token} : t.kind ≠ .name → StuckVariable n [] t

inductive IsGroup (word : TokenKind)
    (Item : Nat → List Token → Token → VariableDeclaration → Prop) : List Token → Node → Prop
  | mk {start finish : Token} {u : List Token} {group : List VariableDeclaration} :
      start.kind = word → Chain Item .comma 1 u finish group → finish.kind = .semicolon →
      IsGroup word Item (start :: (u ++ [finish])) (.declarations start.pos group)

inductive StuckGroup (word : TokenKind)
    (Item : Nat → List Token → Token → VariableDeclaration → Prop)
    (Stuck : Nat → List Token → Token → Prop) : List Token → Token → Prop
  | item {start t : Token} {u : List Token} : start.kind = word →
      StuckChain Item Stuck .comma 1 u t → StuckGroup word Item Stuck (start :: u) t
  | finish {start t : Token} {u : List Token} {group : List VariableDeclaration} :
      start.kind = word → Chain Item .comma 1 u t group → t.kind ≠ .semicolon →
      StuckGroup word Item Stuck (start :: u) t

mutual

inductive IsFactor : Nat → List Token → Node → Prop
  | name {n : Nat} {t : Token} : t.kind = .name → IsFactor (n + 1) [t] (.identifier ⟨t.pos, t.text⟩)
  | literal {n : Nat} {t : Token} {type : DataType} : t.kind.literalType? = some type →
      IsFactor (n + 1) [t] (.literal ⟨t.pos, type, t.text⟩)
  | cast {n : Nat} {opening word closing : Token} {u : List Token} {target : DataType} {a : Node} :
      opening.kind = .leftParen → word.kind.castType? = some target →
      closing.kind = .rightParen → IsFactor n u a →
      IsFactor (n + 1) (opening :: word :: closing :: u) (.typecast opening.pos target a)
  | group {n : Nat} {opening closing : Token} {u : List Token} {a : Node} :
      opening.kind = .leftParen → IsExpression n u closing a → closing.kind = .rightParen →
      IsFactor (n + 1) (opening :: (u ++ [closing])) a

inductive IsUnary : Nat → List Token → Node → Prop
  | factor {n : Nat} {u : List Token} {a : Node} : IsFactor n u a → IsUnary (n + 1) u a
  | signed {n : Nat} {sign : Token} {u : List Token} {operator : UnaryOperator} {a : Node} :
      sign.kind.sign? = some operator → IsUnary n u a →
      IsUnary (n + 1) (sign :: u) (.unary sign.pos operator a)

inductive IsTerm : Nat → List Token → Token → Node → Prop
  | last {n : Nat} {u : List Token} {next : Token} {a : Node} : IsUnary n u a →
      next.kind.multiplicative? = none → IsTerm (n + 1) u next a
  | more {n : Nat} {start sign next : Token} {u v : List Token} {operator : BinaryOperator}
      {a b : Node} : IsUnary n (start :: u) a → sign.kind.multiplicative? = some operator →
      IsTerm n v next b →
      IsTerm (n + 1) (start :: u ++ sign :: v) next (.binary start.pos operator a b)

inductive IsExpression : Nat → List Token → Token → Node → Prop
  | last {n : Nat} {u : List Token} {next : Token} {a : Node} : IsTerm n u next a →
      next.kind.additive? = none → IsExpression (n + 1) u next a
  | more {n : Nat} {start sign next : Token} {u v : List Token} {operator : BinaryOperator}
      {a b : Node} : IsTerm n (start :: u) sign a → sign.kind.additive? = some operator →
      IsExpression n v next b →
      IsExpression (n + 1) (start :: u ++ sign :: v) next (.binary start.pos operator a b)

end

mutual

inductive StuckFactor : Nat → List Token → Token → Prop
  | start {n : Nat} {t : Token} : t.kind.startsFactor = false → StuckFactor (n + 1) [] t
  | castEnd {n : Nat} {opening word t : Token} {target : DataType} : opening.kind = .leftParen →
      word.kind.castType? = some target → t.kind ≠ .rightParen →
      StuckFactor (n + 1) [opening, word] t
  | operand {n : Nat} {opening word closing t : Token} {target : DataType} {u : List Token} :
      opening.kind = .leftParen → word.kind.castType? = some target →
      closing.kind = .rightParen → StuckFactor n u t →
      StuckFactor (n + 1) (opening :: word :: closing :: u) t
  | inner {n : Nat} {opening t : Token} {u : List Token} : opening.kind = .leftParen →
      (u.headD t).kind.castType? = none → StuckExpression n u t →
      StuckFactor (n + 1) (opening :: u) t
  | groupEnd {n : Nat} {opening t : Token} {u : List Token} {a : Node} :
      opening.kind = .leftParen → IsExpression n u t a → t.kind ≠ .rightParen →
      StuckFactor (n + 1) (opening :: u) t

inductive StuckUnary : Nat → List Token → Token → Prop
  | factor {n : Nat} {u : List Token} {t : Token} : (u.headD t).kind.sign? = none →
      StuckFactor n u t → StuckUnary (n + 1) u t
  | signed {n : Nat} {sign t : Token} {u : List Token} {operator : UnaryOperator} :
      sign.kind.sign? = some operator → StuckUnary n u t → StuckUnary (n + 1) (sign :: u) t

inductive StuckTerm : Nat → List Token → Token → Prop
  | left {n : Nat} {u : List Token} {t : Token} : StuckUnary n u t → StuckTerm (n + 1) u t
  | right {n : Nat} {sign t : Token} {u v : List Token} {operator : BinaryOperator} {a : Node} :
      IsUnary n u a → sign.kind.multiplicative? = some operator → StuckTerm n v t →
      StuckTerm (n + 1) (u ++ sign :: v) t

inductive StuckExpression : Nat → List Token → Token → Prop
  | left {n : Nat} {u : List Token} {t : Token} : StuckTerm n u t → StuckExpression (n + 1) u t
  | right {n : Nat} {sign t : Token} {u v : List Token} {operator : BinaryOperator} {a : Node} :
      IsTerm n u sign a → sign.kind.additive? = some operator → StuckExpression n v t →
      StuckExpression (n + 1) (u ++ sign :: v) t

end

inductive IsCondition : Nat → List Token → Token → Condition Node → Prop
  | odd {n : Nat} {word next : Token} {u : List Token} {a : Node} : word.kind = .oddWord →
      IsExpression n u next a →
      IsCondition (n + 1) (word :: u) next { pos := word.pos, left := a, isOdd := true }
  | compare {n : Nat} {start sign next : Token} {u v : List Token} {operator : Comparison}
      {a b : Node} : IsExpression n (start :: u) sign a →
      sign.kind.comparison? = some operator → IsExpression n v next b →
      IsCondition (n + 1) (start :: u ++ sign :: v) next
        { pos := start.pos, left := a, operator := some operator, right := some b }

inductive StuckCondition : Nat → List Token → Token → Prop
  | odd {n : Nat} {word t : Token} {u : List Token} : word.kind = .oddWord →
      StuckExpression n u t → StuckCondition (n + 1) (word :: u) t
  | left {n : Nat} {t : Token} {u : List Token} : (u.headD t).kind ≠ .oddWord →
      StuckExpression n u t → StuckCondition (n + 1) u t
  | sign {n : Nat} {t : Token} {u : List Token} {a : Node} : IsExpression n u t a →
      t.kind.comparison? = none → StuckCondition (n + 1) u t
  | right {n : Nat} {sign t : Token} {u v : List Token} {operator : Comparison} {a : Node} :
      IsExpression n u sign a → sign.kind.comparison? = some operator → StuckExpression n v t →
      StuckCondition (n + 1) (u ++ sign :: v) t

mutual

inductive IsStatement : Nat → List Token → Token → Option Node → Prop
  | assignment {n : Nat} {name sign next : Token} {u : List Token} {a : Node} :
      name.kind = .name → sign.kind = .assign → IsExpression n u next a →
      IsStatement (n + 1) (name :: sign :: u) next
        (some (.assignment name.pos ⟨name.pos, name.text⟩ a))
  | call {n : Nat} {word name next : Token} : word.kind = .callWord → name.kind = .name →
      IsStatement (n + 1) [word, name] next (some (.call word.pos ⟨name.pos, name.text⟩))
  | input {n : Nat} {mark name next : Token} : mark.kind = .question → name.kind = .name →
      IsStatement (n + 1) [mark, name] next (some (.input mark.pos ⟨name.pos, name.text⟩))
  | print {n : Nat} {mark next : Token} {u : List Token} {a : Node} : mark.kind = .bang →
      IsExpression n u next a → IsStatement (n + 1) (mark :: u) next (some (.print mark.pos a))
  | sequence {n : Nat} {next : Token} {u : List Token} {a : Node} : IsSequence n u a →
      IsStatement (n + 1) u next (some a)
  | conditional {n : Nat} {word link next : Token} {u v : List Token} {c : Condition Node}
      {body : Option Node} : word.kind = .ifWord → IsCondition n u link c →
      link.kind = .thenWord → IsStatement n v next body →
      IsStatement (n + 1) (word :: (u ++ link :: v)) next (some (.conditional word.pos c body))
  | loop {n : Nat} {word link next : Token} {u v : List Token} {c : Condition Node}
      {body : Option Node} : word.kind = .whileWord → IsCondition n u link c →
      link.kind = .doWord → IsStatement n v next body →
      IsStatement (n + 1) (word :: (u ++ link :: v)) next (some (.loop word.pos c body))
  | nothing {n : Nat} {next : Token} : next.kind.startsStatement = false →
      IsStatement (n + 1) [] next none

inductive IsSequence : Nat → List Token → Node → Prop
  | mk {n : Nat} {word finish : Token} {u : List Token} {body : List (Option Node)} :
      word.kind = .beginWord → Chain IsStatement .semicolon (n + 1) u finish body →
      finish.kind = .endWord →
      IsSequence (n + 1) (word :: (u ++ [finish])) (.sequence word.pos (body.filterMap id))

end

mutual

inductive StuckStatement : Nat → List Token → Token → Prop
  | assign {n : Nat} {name t : Token} : name.kind = .name → t.kind ≠ .assign →
      StuckStatement (n + 1) [name] t
  | assigned {n : Nat} {name sign t : Token} {u : List Token} : name.kind = .name →
      sign.kind = .assign → StuckExpression n u t → StuckStatement (n + 1) (name :: sign :: u) t
  | call {n : Nat} {word t : Token} : word.kind = .callWord → t.kind ≠ .name →
      StuckStatement (n + 1) [word] t
  | input {n : Nat} {mark t : Token} : mark.kind = .question → t.kind ≠ .name →
      StuckStatement (n + 1) [mark] t
  | print {n : Nat} {mark t : Token} {u : List Token} : mark.kind = .bang →
      StuckExpression n u t → StuckStatement (n + 1) (mark :: u) t
  | sequence {n : Nat} {t : Token} {u : List Token} : (u.headD t).kind = .beginWord →
      StuckSequence n u t → StuckStatement (n + 1) u t
  | condition {n : Nat} {word t : Token} {u : List Token} :
      word.kind = .ifWord ∨ word.kind = .whileWord → StuckCondition n u t →
      StuckStatement (n + 1) (word :: u) t
  | thenLink {n : Nat} {word t : Token} {u : List Token} {c : Condition Node} :
      word.kind = .ifWord → IsCondition n u t c → t.kind ≠ .thenWord →
      StuckStatement (n + 1) (word :: u) t
  | doLink {n : Nat} {word t : Token} {u : List Token} {c : Condition Node} :
      word.kind = .whileWord → IsCondition n u t c → t.kind ≠ .doWord →
      StuckStatement (n + 1) (word :: u) t
  | thenBody {n : Nat} {word link t : Token} {u v : List Token} {c : Condition Node} :
      word.kind = .ifWord → IsCondition n u link c → link.kind = .thenWord →
      StuckStatement n v t → StuckStatement (n + 1) (word :: (u ++ link :: v)) t
  | doBody {n : Nat} {word link t : Token} {u v : List Token} {c : Condition Node} :
      word.kind = .whileWord → IsCondition n u link c → link.kind = .doWord →
      StuckStatement n v t → StuckStatement (n + 1) (word :: (u ++ link :: v)) t

inductive StuckSequence : Nat → List Token → Token → Prop
  | item {n : Nat} {word t : Token} {u : List Token} : word.kind = .beginWord →
      StuckChain IsStatement StuckStatement .semicolon (n + 1) u t →
      StuckSequence (n + 1) (word :: u) t
  | finish {n : Nat} {word t : Token} {u : List Token} {body : List (Option Node)} :
      word.kind = .beginWord → Chain IsStatement .semicolon (n + 1) u t body →
      t.kind ≠ .endWord → StuckSequence (n + 1) (word :: u) t

end

inductive Optional (start : TokenKind) (Item : List Token → Node → Prop) :
    List Token → Token → List Node → Prop
  | absent {next : Token} : next.kind ≠ start → Optional start Item [] next []
  | present {u : List Token} {next : Token} {a : Node} : Item u a →
      Optional start Item u next [a]

inductive Skipped (kind : TokenKind) : List Token → Token → Prop
  | absent {next : Token} : next.kind ≠ kind → Skipped kind [] next
  | present {t next : Token} : t.kind = kind → Skipped kind [t] next

def exitAt (outermost : Bool) (next : Token) : List Node :=
  if outermost = true ∧ next.kind = .dot then [.exitMarker next.pos] else []

abbrev HasConstants := Optional .constWord (IsGroup .constWord IsConstant)

abbrev HasVariables := Optional .varWord (IsGroup .varWord IsVariable)

mutual

inductive IsBlock : Nat → Bool → List Token → Token → Block Node → Prop
  | mk {n : Nat} {outermost : Bool} {u v w : List Token} {next : Token} {declared : List Node}
      {body : Option Node} : AreDeclarations n u ((v ++ w).headD next) declared →
      IsStatement n v (w.headD next) body → Skipped .semicolon w next →
      IsBlock (n + 1) outermost (u ++ (v ++ w)) next
        ⟨((u ++ (v ++ w)).headD next).pos, declared ++ body.toList ++ exitAt outermost next⟩

inductive AreDeclarations : Nat → List Token → Token → List Node → Prop
  | mk {n : Nat} {u v w : List Token} {next : Token} {constants vars procedures : List Node} :
      HasConstants u ((v ++ w).headD next) constants → HasVariables v (w.headD next) vars →
      AreProcedures n w next procedures →
      AreDeclarations n (u ++ (v ++ w)) next (constants ++ vars ++ procedures)

inductive AreProcedures : Nat → List Token → Token → List Node → Prop
  | none {n : Nat} {next : Token} : next.kind ≠ .procedureWord → AreProcedures n [] next []
  | more {n : Nat} {u v : List Token} {next : Token} {a : Node} {as : List Node} :
      IsProcedure n u (v.headD next) a → AreProcedures n v next as →
      AreProcedures n (u ++ v) next (a :: as)

inductive IsProcedure : Nat → List Token → Token → Node → Prop
  | mk {n : Nat} {word name mark next : Token} {u : List Token} {b : Block Node} :
      word.kind = .procedureWord → name.kind = .name → mark.kind = .semicolon →
      IsBlock n false u next b →
      IsProcedure (n + 1) (word :: name :: mark :: u) next (.procedure word.pos name.text b)

end

mutual

inductive StuckBlock : Nat → List Token → Token → Prop
  | declarations {n : Nat} {u : List Token} {t : Token} : StuckDeclarations n u t →
      StuckBlock (n + 1) u t
  | statement {n : Nat} {u v : List Token} {t : Token} {declared : List Node} :
      AreDeclarations n u (v.headD t) declared → StuckStatement n v t →
      StuckBlock (n + 1) (u ++ v) t

inductive StuckDeclarations : Nat → List Token → Token → Prop
  | constants {n : Nat} {u : List Token} {t : Token} :
      StuckGroup .constWord IsConstant StuckConstant u t → StuckDeclarations n u t
  | vars {n : Nat} {u v : List Token} {t : Token} {constants : List Node} :
      HasConstants u (v.headD t) constants → StuckGroup .varWord IsVariable StuckVariable v t →
      StuckDeclarations n (u ++ v) t
  | procedures {n : Nat} {u v w : List Token} {t : Token} {constants vars : List Node} :
      HasConstants u ((v ++ w).headD t) constants → HasVariables v (w.headD t) vars →
      StuckProcedures n w t → StuckDeclarations n (u ++ (v ++ w)) t

inductive StuckProcedures : Nat → List Token → Token → Prop
  | item {n : Nat} {u : List Token} {t : Token} : (u.headD t).kind = .procedureWord →
      StuckProcedure n u t → StuckProcedures n u t
  | later {n : Nat} {u v : List Token} {t : Token} {a : Node} : IsProcedure n u (v.headD t) a →
      StuckProcedures n v t → StuckProcedures n (u ++ v) t

inductive StuckProcedure : Nat → List Token → Token → Prop
  | name {n : Nat} {word t : Token} : word.kind = .procedureWord → t.kind ≠ .name →
      StuckProcedure (n + 1) [word] t
  | mark {n : Nat} {word name t : Token} : word.kind = .procedureWord → name.kind = .name →
      t.kind ≠ .semicolon → StuckProcedure (n + 1) [word, name] t
  | block {n : Nat} {word name mark t : Token} {u : List Token} : word.kind = .procedureWord →
      name.kind = .name → mark.kind = .semicolon → StuckBlock n u t →
      StuckProcedure (n + 1) (word :: name :: mark :: u) t

end

inductive IsProgram : Nat → List Token → Program → Prop
  | mk {n : Nat} {u : List Token} {point : Token} {b : Block Node} : IsBlock n true u point b →
      point.kind = .dot → IsProgram n (u ++ [point]) ⟨(u.headD point).pos, b⟩

inductive StuckProgram : Nat → List Token → Token → Prop
  | block {n : Nat} {u : List Token} {t : Token} : StuckBlock n u t → StuckProgram n u t
  | point {n : Nat} {u : List Token} {t : Token} {b : Block Node} : IsBlock n true u t b →
      t.kind ≠ .dot → StuckProgram n u t
  | finish {n : Nat} {u : List Token} {t : Token} {p : Program} : IsProgram n u p →
      t.kind ≠ .eof → StuckProgram n u t

section

variable {n : Nat} {u : List Token} {next : Token} {a : Node}

theorem headD_append (u v : List Token) (next : Token) :
    (u ++ v).headD next = u.headD (v.headD next) := by
  cases u <;> rfl

theorem IsFactor.ne_nil (h : IsFactor n u a) : u ≠ [] := by
  cases h <;> simp

theorem IsUnary.ne_nil (h : IsUnary n u a) : u ≠ [] := by
  cases h with
  | factor h => exact h.ne_nil
  | signed => simp

theorem IsTerm.ne_nil (h : IsTerm n u next a) : u ≠ [] := by
  cases h with
  | last h => exact h.ne_nil
  | more => simp

theorem IsExpression.ne_nil (h : IsExpression n u next a) : u ≠ [] := by
  cases h with
  | last h => exact h.ne_nil
  | more => simp

theorem IsFactor.starts (h : IsFactor n u a) (t : Token) :
    (u.headD t).kind.startsFactor = true := by
  cases h with
  | name name => simp [name, TokenKind.startsFactor]
  | @literal _ t type literal =>
    cases kind : t.kind <;> simp_all [TokenKind.literalType?, TokenKind.startsFactor]
  | cast opening => simp [opening, TokenKind.startsFactor]
  | group opening => simp [opening, TokenKind.startsFactor]

theorem IsUnary.starts (h : IsUnary n u a) (t : Token) :
    (u.headD t).kind.startsFactor = true ∨ (u.headD t).kind.sign?.isSome = true := by
  cases h with
  | factor h => exact .inl (h.starts t)
  | signed sign => exact .inr (by simp [sign])

theorem IsTerm.starts (h : IsTerm n u next a) (t : Token) :
    (u.headD t).kind.startsFactor = true ∨ (u.headD t).kind.sign?.isSome = true := by
  cases h with
  | last h => exact h.starts t
  | more h => exact h.starts t

theorem IsExpression.starts (h : IsExpression n u next a) (t : Token) :
    (u.headD t).kind.startsFactor = true ∨ (u.headD t).kind.sign?.isSome = true := by
  cases h with
  | last h => exact h.starts t
  | more h => exact h.starts t

theorem IsSequence.starts (h : IsSequence n u a) (t : Token) : (u.headD t).kind = .beginWord := by
  cases h; assumption

theorem IsGroup.starts {word : TokenKind}
    {Item : Nat → List Token → Token → VariableDeclaration → Prop} (h : IsGroup word Item u a)
    (t : Token) : (u.headD t).kind = word := by
  cases h; assumption

theorem StuckGroup.starts {word : TokenKind} {t : Token}
    {Item : Nat → List Token → Token → VariableDeclaration → Prop}
    {Stuck : Nat → List Token → Token → Prop} (h : StuckGroup word Item Stuck u t) :
    (u.headD t).kind = word := by
  cases h <;> assumption

theorem IsProcedure.starts (h : IsProcedure n u next a) (t : Token) :
    (u.headD t).kind = .procedureWord := by
  cases h; assumption

theorem IsProcedure.ne_nil (h : IsProcedure n u next a) : u ≠ [] := by
  cases h; simp

theorem Chain.length_le {α : Type} {Item : Nat → List Token → Token → α → Prop}
    {separator : TokenKind} {as : List α} (h : Chain Item separator n u next as) :
    as.length ≤ u.length + 1 := by
  induction h with
  | last => simp
  | more _ _ _ ih =>
    simp only [List.length_cons, List.length_append] at ih ⊢
    omega

theorem AreProcedures.length_le {as : List Node} (h : AreProcedures n u next as) :
    as.length ≤ u.length := by
  induction as generalizing u with
  | nil => simp
  | cons a as ih =>
    cases h with
    | more item rest =>
      have first := List.length_pos_iff.2 item.ne_nil
      have later := ih rest
      simp only [List.length_cons, List.length_append]
      omega

end

end Phrase

end PlZero
