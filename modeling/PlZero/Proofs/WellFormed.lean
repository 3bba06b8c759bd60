import PlZero.Proofs.LosslessScanning
import PlZero.Proofs.Phrase

set_option autoImplicit false

namespace PlZero

def UnaryOperator.kind : UnaryOperator → TokenKind
  | .plus => .plus
  | .minus => .minus
  | .other _ => .invalid

def BinaryOperator.kind : BinaryOperator → TokenKind
  | .plus => .plus
  | .minus => .minus
  | .star => .star
  | .slash => .slash
  | .other _ => .invalid

def Comparison.kind : Comparison → TokenKind
  | .equal => .equal
  | .unequal => .hash
  | .less => .less
  | .greater => .greater
  | .lessEqual => .lessEqual
  | .greaterEqual => .greaterEqual
  | .other _ => .invalid

def DataType.literalKind : DataType → TokenKind
  | .invalid => .invalid
  | .integer => .number
  | .float => .float
  | .string => .string

def DataType.castKind : DataType → TokenKind
  | .invalid => .invalid
  | .integer => .intWord
  | .float => .floatWord
  | .string => .stringWord

namespace TokenKind

def holdsText : TokenKind → Bool
  | name | number | float | string => true
  | _ => false

variable {k : TokenKind}

theorem sign?_eq_some {operator : UnaryOperator} :
    k.sign? = some operator ↔ operator.kind = k ∧ k ≠ .invalid := by
  cases operator <;> cases k <;> simp [sign?, UnaryOperator.kind]

theorem comparison?_eq_some {operator : Comparison} :
    k.comparison? = some operator ↔ operator.kind = k ∧ k ≠ .invalid := by
  cases operator <;> cases k <;> simp [comparison?, Comparison.kind]

theorem literalType?_eq_some {type : DataType} :
    k.literalType? = some type ↔ type.literalKind = k ∧ k ≠ .invalid := by
  cases type <;> cases k <;> simp [literalType?, DataType.literalKind]

theorem castType?_eq_some {type : DataType} :
    k.castType? = some type ↔ type.castKind = k ∧ k ≠ .invalid := by
  cases type <;> cases k <;> simp [castType?, DataType.castKind]

end TokenKind

namespace WellFormed

section Shapes

variable (Content : TokenKind → String → Prop)

inductive Literal : PlZero.Literal → Prop
  | mk {l : PlZero.Literal} : l.type ≠ .invalid → Content l.type.literalKind l.raw → Literal l

inductive Expression : Node → Prop
  | identifier {i : Identifier} : Content .name i.name → Expression (.identifier i)
  | literal {l : PlZero.Literal} : Literal Content l → Expression (.literal l)
  | unary {pos : Position} {operator : UnaryOperator} {a : Node} : operator.kind ≠ .invalid →
      Expression a → Expression (.unary pos operator a)
  | binary {pos : Position} {operator : BinaryOperator} {a b : Node} : operator.kind ≠ .invalid →
      Expression a → Expression b → Expression (.binary pos operator a b)
  | typecast {pos : Position} {target : DataType} {a : Node} : target ≠ .invalid →
      Expression a → Expression (.typecast pos target a)

inductive Condition : PlZero.Condition Node → Prop
  | odd {pos : Position} {a : Node} : Expression Content a →
      Condition ⟨pos, a, true, none, none⟩
  | comparison {pos : Position} {operator : Comparison} {a b : Node} : operator.kind ≠ .invalid →
      Expression Content a → Expression Content b →
      Condition ⟨pos, a, false, some operator, some b⟩

inductive Statement : Node → Prop
  | assignment {pos : Position} {target : Identifier} {a : Node} : Content .name target.name →
      Expression Content a → Statement (.assignment pos target a)
  | call {pos : Position} {target : Identifier} : Content .name target.name →
      Statement (.call pos target)
  | input {pos : Position} {target : Identifier} : Content .name target.name →
      Statement (.input pos target)
  | print {pos : Position} {a : Node} : Expression Content a → Statement (.print pos a)
  | sequence {pos : Position} {body : List Node} : (∀ node ∈ body, Statement node) →
      Statement (.sequence pos body)
  | conditional {pos : Position} {c : PlZero.Condition Node} {body : Option Node} :
      Condition Content c → (∀ node ∈ body, Statement node) → Statement (.conditional pos c body)
  | loop {pos : Position} {c : PlZero.Condition Node} {body : Option Node} :
      Condition Content c → (∀ node ∈ body, Statement node) → Statement (.loop pos c body)

inductive Constant : VariableDeclaration → Prop
  | mk {pos : Position} {name : String} {l : PlZero.Literal} : Content .name name →
      Literal Content l → Constant ⟨pos, name, true, some l⟩

inductive Variable : VariableDeclaration → Prop
  | mk {pos : Position} {name : String} : Content .name name → Variable ⟨pos, name, false, none⟩

inductive Group (Item : VariableDeclaration → Prop) : List Node → Prop
  | absent : Group Item []
  | present {pos : Position} {group : List VariableDeclaration} : group ≠ [] →
      (∀ d ∈ group, Item d) → Group Item [.declarations pos group]

inductive Procedure : Node → Prop
  | mk {pos start : Position} {name : String} {constants vars procedures : List Node}
      {statement : Option Node} : Content .name name → Group (Constant Content) constants →
      Group (Variable Content) vars → (∀ node ∈ procedures, Procedure node) →
      (∀ node ∈ statement, Statement Content node) →
      Procedure (.procedure pos name ⟨start, constants ++ vars ++ procedures ++ statement.toList⟩)

inductive Body : List Node → Prop
  | mk {constants vars procedures : List Node} {statement : Option Node} :
      Group (Constant Content) constants → Group (Variable Content) vars →
      (∀ node ∈ procedures, Procedure Content node) →
      (∀ node ∈ statement, Statement Content node) →
      Body (constants ++ vars ++ procedures ++ statement.toList)

inductive Program : PlZero.Program → Prop
  | mk {pos start stop : Position} {nodes : List Node} : Body Content nodes →
      Program ⟨pos, ⟨start, nodes ++ [.exitMarker stop]⟩⟩

end Shapes

variable {Content : TokenKind → String → Prop}

theorem procedure_iff {pos : Position} {name : String} {b : Block Node} :
    Procedure Content (.procedure pos name b) ↔ Content .name name ∧ Body Content b.body := by
  constructor
  · rintro ⟨named, constants, vars, procedures, statement⟩
    exact ⟨named, .mk constants vars procedures statement⟩
  · obtain ⟨start, body⟩ := b
    rintro ⟨named, ⟨constants, vars, procedures, statement⟩⟩
    exact .mk named constants vars procedures statement

/-- A whole number as it is written in decimal: `0|[1-9][0-9]*`. -/
inductive Whole : List Char → Prop
  | zero : Whole ['0']
  | digits {c : Char} {cs : List Char} : c.isDigit = true → c ≠ '0' →
      (∀ a ∈ cs, a.isDigit = true) → Whole (c :: cs)

/-- What names and literals hold in a text. A name is no keyword in any letter case, a float is
`(0|[1-9][0-9]*)\.[0-9]+`, and a string is read back between one of the two quotes. -/
inductive Lexicon : TokenKind → String → Prop
  | name {c : Char} {cs : List Char} : isWordStart c = true → (∀ a ∈ cs, isWordChar a = true) →
      TokenKind.ofWord (c :: cs) = .name → Lexicon .name (String.ofList (c :: cs))
  | integer {cs : List Char} : Whole cs → Lexicon .number (String.ofList cs)
  | float {cs fs : List Char} : Whole cs → fs ≠ [] → (∀ a ∈ fs, a.isDigit = true) →
      Lexicon .float (String.ofList (cs ++ '.' :: fs))
  | string {quote : Char} {body : List Char} : quote = '\'' ∨ quote = '"' →
      Lexeme.closeString quote (body ++ [quote]) = some (body, []) →
      Lexicon .string (String.ofList body)

theorem whole_toDigits (n : Nat) : Whole (Nat.toDigits 10 n) := by
  induction n using Nat.strongRecOn with
  | ind n ih =>
    by_cases small : n < 10
    · rw [Nat.toDigits_of_lt_base small]
      by_cases zero : n = 0
      · subst zero
        exact .zero
      · have shown : ∀ k < 10, Nat.digitChar k = '0' → k = 0 := by decide
        exact .digits (by simp [Nat.isDigit_digitChar, small]) (fun eq => zero (shown n small eq))
          nofun
    · rw [Nat.toDigits_of_base_le (by decide) (by omega)]
      have last : (Nat.digitChar (n % 10)).isDigit = true := by
        simp [Nat.isDigit_digitChar, Nat.mod_lt]
      have positive : 0 < n / 10 := by omega
      have shorter := ih (n / 10) (by omega)
      generalize shown : Nat.toDigits 10 (n / 10) = ds at shorter
      cases shorter with
      | zero =>
        have value := congrArg Number.decimalValue shown
        rw [Number.decimalValue_toDigits] at value
        exact absurd value (Nat.ne_of_gt positive)
      | digits digit notZero run =>
        exact .digits digit notZero
          (List.forall_mem_append.2 ⟨run, List.forall_mem_singleton.2 last⟩)

theorem Whole.head {c : Char} {cs : List Char} (h : Whole (c :: cs)) :
    c.isDigit = true ∧ (c = '0' → cs = []) ∧ ∀ a ∈ cs, a.isDigit = true := by
  cases h with
  | zero => exact ⟨rfl, fun _ => rfl, nofun⟩
  | digits digit notZero run => exact ⟨digit, fun zero => absurd zero notZero, run⟩

theorem whole_of_digits {c : Char} {cs : List Char} (digit : c.isDigit = true)
    (zero : c = '0' → cs = []) (run : ∀ a ∈ cs, a.isDigit = true) : Whole (c :: cs) := by
  by_cases isZero : c = '0'
  · rw [zero isZero, isZero]
    exact .zero
  · exact .digits digit isZero run

theorem lexicon_of_lexical {x r : List Char} {kind : TokenKind} {text : String}
    (lexeme : Lexical x r kind text) (holds : kind.holdsText = true) : Lexicon kind text := by
  cases lexeme with
  | @word c xs _ start run stop =>
    have others : ∀ kind ∈ keywords.map Prod.snd, kind.holdsText = false := by decide
    rcases TokenKind.ofWord_eq_name_or_mem (c :: xs) with name | keyword
    · rw [name]
      exact .name start run name
    · rw [others _ keyword] at holds
      cases holds
  | zero => exact .integer Whole.zero
  | radix => exact .integer (whole_toDigits _)
  | decimal digit notZero run => exact .integer (.digits digit notZero run)
  | @float c xs fs _ digit zero run some run' stop =>
    have whole : Whole (c :: xs) := whole_of_digits digit zero run
    exact .float whole some run'
  | @string quote body _ mark enclosed =>
    have plain : quote ≠ '\\' := by rcases mark with rfl | rfl <;> decide
    exact .string mark (Lexeme.closeString_of_enclosed plain enclosed)
  | pair pair =>
    unfold pairKind? at pair
    split at pair <;> cases pair <;> cases holds
  | @single c _ _ _ _ _ _ _ =>
    have none : (Lexeme.symbolKind c).holdsText = false := by
      unfold Lexeme.symbolKind
      split <;> rfl
    rw [none] at holds
    cases holds

theorem Lexicon.lexical {kind : TokenKind} {text : String} (h : Lexicon kind text) :
    ∃ x, Lexical x [] kind text := by
  cases h with
  | @name c cs start run name =>
    have word := Lexical.word start run (r := []) nofun
    rw [name] at word
    exact ⟨_, word⟩
  | integer whole =>
    cases whole with
    | zero => exact ⟨_, .zero ⟨nofun, nofun, nofun, nofun⟩⟩
    | digits digit notZero run => exact ⟨_, .decimal digit notZero run nofun nofun⟩
  | @float cs fs whole some run =>
    cases cs with
    | nil => cases whole
    | cons c cs =>
      obtain ⟨digit, zero, run'⟩ := whole.head
      exact ⟨_, .float digit zero run' some run nofun⟩
  | string quote closed => exact ⟨_, .string quote (Lexeme.enclosed_of_closeString closed)⟩

end WellFormed

end PlZero
