import PlZero.Proofs.Phrase
import PlZero.Proofs.Productions

set_option autoImplicit false

namespace PlZero

open Language

theorem mem_token_mul {k : TokenKind} {K : Language TokenKind} {w : List TokenKind} :
    w ∈ ({[k]} : Language TokenKind) * K ↔ ∃ v ∈ K, w = k :: v := by
  constructor
  · rintro ⟨u, rfl, v, mem, rfl⟩
    exact ⟨v, mem, rfl⟩
  · rintro ⟨v, mem, rfl⟩
    exact append_mem_mul (a := [k]) rfl mem

theorem mem_kstar_mul {L K : Language TokenKind} {w : List TokenKind} :
    w ∈ KStar.kstar L * K ↔ w ∈ K ∨ w ∈ L * (KStar.kstar L * K) := by
  nth_rewrite 1 [← one_add_self_mul_kstar_eq_kstar]
  rw [add_mul, one_mul, mul_assoc, mem_add]

theorem mem_mul_mono {L K M : Language TokenKind} (sub : ∀ w ∈ K, w ∈ M) {w : List TokenKind}
    (h : w ∈ L * K) : w ∈ L * M := by
  obtain ⟨u, first, v, second, rfl⟩ := h
  exact append_mem_mul first (sub v second)

def Splits (u : List TokenKind) (t : TokenKind) (M K : Language TokenKind) : Prop :=
  ∀ w ∈ M, (u ++ [t]) <+: w → ∃ v ∈ K, w = u ++ v

namespace Splits

variable {u v : List TokenKind} {k t : TokenKind} {M N K : Language TokenKind}

theorem head {w : List TokenKind} (h : (u ++ [t]) <+: w) : ∃ rest, w = u.headD t :: rest := by
  obtain ⟨rest, rfl⟩ := h
  cases u <;> exact ⟨_, rfl⟩

theorem restrict (sub : ∀ rest, u.headD t :: rest ∈ M → u.headD t :: rest ∈ N)
    (h : Splits u t N K) : Splits u t M K := by
  intro w mem begins
  obtain ⟨rest, rfl⟩ := head begins
  exact h _ (sub rest mem) begins

theorem nil (sub : ∀ rest, t :: rest ∈ M → t :: rest ∈ K) : Splits [] t M K := by
  intro w mem begins
  obtain ⟨rest, rfl⟩ := head begins
  exact ⟨_, sub rest mem, rfl⟩

theorem consSeeing (sub : ∀ rest, k :: u.headD t :: rest ∈ M → u.headD t :: rest ∈ N)
    (h : Splits u t N K) : Splits (k :: u) t M K := by
  intro w mem begins
  obtain ⟨rest, rfl⟩ := head begins
  have later : (u ++ [t]) <+: rest := by simpa using begins
  obtain ⟨rest', rfl⟩ := head later
  obtain ⟨v, mem', eq⟩ := h _ (sub rest' mem) later
  exact ⟨v, mem', congrArg (k :: ·) eq⟩

theorem cons (sub : ∀ rest, k :: rest ∈ M → rest ∈ N) (h : Splits u t N K) :
    Splits (k :: u) t M K :=
  consSeeing (fun _ => sub _) h

theorem token {k' : TokenKind} (same : k = k') (h : Splits u t M K) :
    Splits (k :: u) t ({[k']} * M) K := by
  refine cons (fun rest mem => ?_) h
  obtain ⟨v, mem', eq⟩ := mem_token_mul.1 mem
  cases eq; exact mem'

theorem append (first : Splits u (v.headD t) M N) (second : Splits v t N K) :
    Splits (u ++ v) t M K := by
  intro w mem begins
  have here : (u ++ [v.headD t]) <+: w := by
    refine List.IsPrefix.trans ?_ begins
    rw [List.append_assoc]
    cases v <;> simp
  obtain ⟨rest, mem', rfl⟩ := first w mem here
  have later : (v ++ [t]) <+: rest := by simpa [List.append_assoc] using begins
  obtain ⟨rest', mem'', rfl⟩ := second rest mem' later
  exact ⟨rest', mem'', by simp⟩

theorem followed (h : Splits u t M N) (sub : ∀ rest, t :: rest ∈ N → t :: rest ∈ K) :
    Splits u t M K := by
  simpa using append (v := []) h (nil sub)

theorem otherToken {k' : TokenKind} (other : k ≠ k') : Splits [] k ({[k']} * M) K := by
  refine nil fun rest mem => ?_
  obtain ⟨_, _, eq⟩ := mem_token_mul.1 mem
  exact absurd (List.cons.inj eq).1 other

theorem before {k' : TokenKind} (h : Splits u t M ({[k']} * N)) (other : t ≠ k') :
    Splits u t M K := by
  simpa using append (v := []) h (otherToken other)

end Splits

def lang (c : Category) : Language TokenKind := (Form.category c).language

section

variable {k : TokenKind} {w : List TokenKind} {K : Language TokenKind}

theorem lang_eq (c : Category) : lang c = (production c).language := Form.language_category c

theorem category_language (c : Category) : (Form.category c).language = lang c := rfl

theorem mem_program : w ∈ lang .program * K ↔ w ∈ lang .block * ({[.dot]} * K) := by
  conv_lhs => rw [lang_eq]
  simp only [production, Form.language_seq, Form.language_token, mul_assoc, category_language]

theorem mem_literal : w ∈ lang .literal * K ↔ ∃ k v, k.literalType?.isSome = true ∧ v ∈ K ∧ w = k :: v := by
  simp only [lang_eq, production, Form.language_either, Form.language_token, add_mul, mem_add,
    mem_token_mul]
  constructor
  · rintro ((⟨v, mem, rfl⟩ | ⟨v, mem, rfl⟩) | ⟨v, mem, rfl⟩) <;> exact ⟨_, v, rfl, mem, rfl⟩
  · rintro ⟨k, v, literal, mem, rfl⟩
    cases k <;> simp_all [TokenKind.literalType?]

theorem mem_factor : w ∈ lang .factor * K ↔ (∃ v ∈ K, w = .name :: v) ∨ w ∈ lang .literal * K ∨
    (∃ k v, k.castType?.isSome = true ∧ v ∈ lang .factor * K ∧
      w = .leftParen :: k :: .rightParen :: v) ∨
    ∃ v ∈ lang .expr * ({[.rightParen]} * K), w = .leftParen :: v := by
  conv_lhs => rw [lang_eq]
  simp only [production, Form.language_either, Form.language_seq, Form.language_token, add_mul,
    mul_assoc, mem_add, mem_token_mul, category_language]
  constructor
  · rintro (((h | h) | ⟨v, ((⟨_, ⟨v, mem, rfl⟩, rfl⟩ | ⟨_, ⟨v, mem, rfl⟩, rfl⟩) |
      ⟨_, ⟨v, mem, rfl⟩, rfl⟩), rfl⟩) | h)
    · exact .inl h
    · exact .inr (.inl h)
    · exact .inr (.inr (.inl ⟨_, v, rfl, mem, rfl⟩))
    · exact .inr (.inr (.inl ⟨_, v, rfl, mem, rfl⟩))
    · exact .inr (.inr (.inl ⟨_, v, rfl, mem, rfl⟩))
    · exact .inr (.inr (.inr h))
  · rintro (h | h | ⟨k, v, cast, mem, rfl⟩ | h)
    · exact .inl (.inl (.inl h))
    · exact .inl (.inl (.inr h))
    · refine .inl (.inr ⟨_, ?_, rfl⟩)
      cases k <;> simp_all [TokenKind.castType?]
    · exact .inr h

theorem mem_unary : w ∈ lang .unary * K ↔
    (∃ k v, k.sign?.isSome = true ∧ v ∈ lang .unary * K ∧ w = k :: v) ∨ w ∈ lang .factor * K := by
  conv_lhs => rw [lang_eq]
  simp only [production, Form.language_either, Form.language_seq, Form.language_token, add_mul,
    mul_assoc, mem_add, mem_token_mul, category_language]
  constructor
  · rintro ((⟨v, mem, rfl⟩ | ⟨v, mem, rfl⟩) | h)
    · exact .inl ⟨_, v, rfl, mem, rfl⟩
    · exact .inl ⟨_, v, rfl, mem, rfl⟩
    · exact .inr h
  · rintro (⟨k, v, sign, mem, rfl⟩ | h)
    · cases k <;> simp_all [TokenKind.sign?]
    · exact .inr h

def moreTerm (K : Language TokenKind) : Language TokenKind :=
  {w | w ∈ K ∨ ∃ k v, k.multiplicative?.isSome = true ∧ v ∈ lang .term * K ∧ w = k :: v}

def moreExpr (K : Language TokenKind) : Language TokenKind :=
  {w | w ∈ K ∨ ∃ k v, k.additive?.isSome = true ∧ v ∈ lang .expr * K ∧ w = k :: v}

theorem mem_term : w ∈ lang .term * K ↔ w ∈ lang .unary * moreTerm K := by
  have tail : moreTerm K = (1 + ({[.star]} + {[.slash]}) * lang .term) * K := by
    ext w
    simp only [add_mul, one_mul, mem_add, mul_assoc, mem_token_mul]
    constructor
    · rintro (h | ⟨k, v, sign, mem, rfl⟩)
      · exact .inl h
      · cases k <;> simp_all [TokenKind.multiplicative?]
    · rintro (h | ⟨v, mem, rfl⟩ | ⟨v, mem, rfl⟩)
      · exact .inl h
      · exact .inr ⟨_, v, rfl, mem, rfl⟩
      · exact .inr ⟨_, v, rfl, mem, rfl⟩
  rw [lang_eq, tail]
  simp only [production, Form.language_either, Form.language_seq, Form.language_token,
    Form.language_optional, mul_assoc]
  rfl

theorem mem_expr : w ∈ lang .expr * K ↔ w ∈ lang .term * moreExpr K := by
  have tail : moreExpr K = (1 + ({[.plus]} + {[.minus]}) * lang .expr) * K := by
    ext w
    simp only [add_mul, one_mul, mem_add, mul_assoc, mem_token_mul]
    constructor
    · rintro (h | ⟨k, v, sign, mem, rfl⟩)
      · exact .inl h
      · cases k <;> simp_all [TokenKind.additive?]
    · rintro (h | ⟨v, mem, rfl⟩ | ⟨v, mem, rfl⟩)
      · exact .inl h
      · exact .inr ⟨_, v, rfl, mem, rfl⟩
      · exact .inr ⟨_, v, rfl, mem, rfl⟩
  rw [lang_eq, tail]
  simp only [production, Form.language_either, Form.language_seq, Form.language_token,
    Form.language_optional, mul_assoc]
  rfl

theorem starts_of_mem_factor (h : k :: w ∈ lang .factor * K) : k.startsFactor = true := by
  rcases mem_factor.1 h with ⟨v, _, eq⟩ | literal | ⟨_, v, _, _, eq⟩ | ⟨v, _, eq⟩
  · simp_all [TokenKind.startsFactor]
  · obtain ⟨k', v, literal, _, eq⟩ := mem_literal.1 literal
    obtain ⟨rfl, rfl⟩ := List.cons.inj eq
    cases k <;> simp_all [TokenKind.literalType?, TokenKind.startsFactor]
  · simp_all [TokenKind.startsFactor]
  · simp_all [TokenKind.startsFactor]

theorem starts_of_mem_unary (h : k :: w ∈ lang .unary * K) :
    k.startsFactor = true ∨ k.sign?.isSome = true := by
  rcases mem_unary.1 h with ⟨k', v, sign, _, eq⟩ | factor
  · obtain ⟨rfl, rfl⟩ := List.cons.inj eq
    exact .inr sign
  · exact .inl (starts_of_mem_factor factor)

theorem starts_of_mem_expr (h : k :: w ∈ lang .expr * K) :
    k.startsFactor = true ∨ k.sign?.isSome = true :=
  starts_of_mem_unary (mem_term.1 (mem_expr.1 h))

def compared (K : Language TokenKind) : Language TokenKind :=
  {w | ∃ k v, k.comparison?.isSome = true ∧ v ∈ lang .expr * K ∧ w = k :: v}

theorem mem_condition : w ∈ lang .condition * K ↔
    (∃ v ∈ lang .expr * K, w = .oddWord :: v) ∨ w ∈ lang .expr * compared K := by
  have tail : compared K = ({[.equal]} + {[.hash]} + {[.less]} + {[.greater]} + {[.lessEqual]} +
      {[.greaterEqual]}) * (lang .expr * K) := by
    ext w
    simp only [add_mul, mem_add, mem_token_mul]
    constructor
    · rintro ⟨k, v, sign, mem, rfl⟩
      cases k <;> simp_all [TokenKind.comparison?]
    · rintro (((((⟨v, mem, rfl⟩ | ⟨v, mem, rfl⟩) | ⟨v, mem, rfl⟩) | ⟨v, mem, rfl⟩) |
        ⟨v, mem, rfl⟩) | ⟨v, mem, rfl⟩) <;> exact ⟨_, v, rfl, mem, rfl⟩
  conv_lhs => rw [lang_eq]
  rw [tail]
  simp only [production, Form.language_either, Form.language_seq, Form.language_token,
    category_language, add_mul _ _ K, mul_assoc, mem_add, mem_token_mul]

def following (separator : TokenKind) (I M : Language TokenKind) : Language TokenKind :=
  KStar.kstar ({[separator]} * I) * M

theorem mem_following {separator : TokenKind} {I M : Language TokenKind} :
    w ∈ following separator I M ↔
      w ∈ M ∨ ∃ v ∈ I * following separator I M, w = separator :: v := by
  unfold following
  rw [mem_kstar_mul, mul_assoc, mem_token_mul]

def listed (K : Language TokenKind) : Language TokenKind :=
  following .semicolon (lang .statement) ({[.endWord]} * K)

def statementRest (K : Language TokenKind) : TokenKind → Language TokenKind
  | .name => {[.assign]} * (lang .expr * K)
  | .callWord | .question => {[.name]} * K
  | .bang => lang .expr * K
  | .beginWord => lang .statement * listed K
  | .ifWord => lang .condition * ({[.thenWord]} * (lang .statement * K))
  | .whileWord => lang .condition * ({[.doWord]} * (lang .statement * K))
  | _ => 0

theorem mem_statement :
    w ∈ lang .statement * K ↔ (∃ k, ∃ v ∈ statementRest K k, w = k :: v) ∨ w ∈ K := by
  conv_lhs => rw [lang_eq]
  simp only [production, Form.language_either, Form.language_seq, Form.language_token,
    Form.language_repeated, Form.language_empty, category_language, add_mul _ _ K, mul_assoc,
    mem_add, one_mul]
  constructor
  · have ofKind (k : TokenKind) (h : w ∈ ({[k]} : Language TokenKind) * statementRest K k) :
        (∃ k, ∃ v ∈ statementRest K k, w = k :: v) ∨ w ∈ K :=
      .inl ⟨k, mem_token_mul.1 h⟩
    rintro (((((((h | h) | h) | h) | h) | h) | h) | h)
    · exact ofKind .name h
    · exact ofKind .callWord h
    · exact ofKind .question h
    · exact ofKind .bang h
    · exact ofKind .beginWord h
    · exact ofKind .ifWord h
    · exact ofKind .whileWord h
    · exact .inr h
  · rintro (⟨k, v, mem, rfl⟩ | h)
    · have word : k :: v ∈ ({[k]} : Language TokenKind) * statementRest K k :=
        mem_token_mul.2 ⟨v, mem, rfl⟩
      cases k
      case name | callWord | question | bang | beginWord | ifWord | whileWord =>
        simp only [statementRest, listed, following] at word
        tauto
      all_goals exact absurd mem (notMem_zero _)
    · exact .inr h

theorem starts_of_mem_statementRest (h : w ∈ statementRest K k) : k.startsStatement = true := by
  cases k
  case name | callWord | question | bang | beginWord | ifWord | whileWord => rfl
  all_goals exact absurd h (notMem_zero _)

theorem statementRest_mono {M : Language TokenKind} (sub : ∀ w ∈ K, w ∈ M)
    (h : w ∈ statementRest K k) : w ∈ statementRest M k := by
  cases k
  case name => exact mem_mul_mono (fun _ => mem_mul_mono sub) h
  case callWord | question | bang => exact mem_mul_mono sub h
  case beginWord | ifWord | whileWord =>
    exact mem_mul_mono (fun _ => mem_mul_mono fun _ => mem_mul_mono sub) h
  all_goals exact h

def constantWords : Language TokenKind := {[.name]} * ({[.equal]} * lang .literal)

def variableWords : Language TokenKind := {[.name]}

def grouped (I K : Language TokenKind) : Language TokenKind :=
  I * following .comma I ({[.semicolon]} * K)

def declared (word : TokenKind) (I K : Language TokenKind) : Language TokenKind :=
  K + {[word]} * grouped I K

theorem mem_procedureDecl : w ∈ lang .procedureDecl * K ↔
    ∃ v ∈ lang .block * K, w = .procedureWord :: .name :: .semicolon :: v := by
  conv_lhs => rw [lang_eq]
  simp only [production, Form.language_seq, Form.language_token, category_language, mul_assoc,
    mem_token_mul]
  constructor
  · rintro ⟨_, ⟨_, ⟨v, mem, rfl⟩, rfl⟩, rfl⟩
    exact ⟨v, mem, rfl⟩
  · rintro ⟨v, mem, rfl⟩
    exact ⟨_, ⟨_, ⟨v, mem, rfl⟩, rfl⟩, rfl⟩

def afterBody (K : Language TokenKind) : Language TokenKind := K + {[.semicolon]} * K

def afterVariables (K : Language TokenKind) : Language TokenKind :=
  KStar.kstar (lang .procedureDecl) * (lang .statement * afterBody K)

theorem mem_afterBody : w ∈ afterBody K ↔ w ∈ K ∨ ∃ v ∈ K, w = .semicolon :: v := by
  rw [afterBody, mem_add, mem_token_mul]

theorem constGroup_mul :
    (1 + lang .constGroup) * K = declared .constWord constantWords K := by
  rw [lang_eq]
  simp only [production, Form.language_seq, Form.language_token, Form.language_repeated,
    category_language, add_mul, one_mul, mul_assoc, declared, grouped, following, constantWords]

theorem varGroup_mul : (1 + lang .varGroup) * K = declared .varWord variableWords K := by
  rw [lang_eq]
  simp only [production, Form.language_seq, Form.language_token, Form.language_repeated,
    add_mul, one_mul, mul_assoc, declared, grouped, following, variableWords]

theorem block_mul : lang .block * K =
    declared .constWord constantWords (declared .varWord variableWords (afterVariables K)) := by
  have optional : (1 + lang .statement) * afterBody K = lang .statement * afterBody K := by
    ext w
    rw [add_mul, one_mul, mem_add, or_iff_right_iff_imp]
    exact fun mem => mem_statement.2 (.inr mem)
  rw [lang_eq, ← constGroup_mul, ← varGroup_mul]
  simp only [production, Form.language_seq, Form.language_token, Form.language_repeated,
    Form.language_optional, category_language, mul_assoc]
  rw [afterVariables, ← optional, afterBody, add_mul 1 _ K, one_mul]

end

end PlZero
