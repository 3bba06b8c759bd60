import PlZero.Proofs.PhraseContext
import PlZero.Proofs.TreeWriting

set_option autoImplicit false

namespace PlZero

open Phrase

namespace Level

def Ends : Level → TokenKind → Prop
  | factor, _ => True
  | unary, _ => True
  | term, k => k.multiplicative? = none
  | expression, k => EndsExpression k

variable {place own : Level} {k : TokenKind}

theorem Ends.mono (ends : place.Ends k) (le : own.rank ≤ place.rank) : own.Ends k := by
  cases own with
  | factor => trivial
  | unary => trivial
  | term =>
    cases place with
    | factor | unary => simp [rank] at le
    | term => exact ends
    | expression => exact ends.multiplicative
  | expression =>
    cases place with
    | factor | unary | term => simp [rank] at le
    | expression => exact ends

def IsPhrase : Level → Nat → List Token → Token → Node → Prop
  | factor, n, u, _, a => IsFactor n u a
  | unary, n, u, _, a => IsUnary n u a
  | term, n, u, next, a => IsTerm n u next a
  | expression, n, u, next, a => IsExpression n u next a

variable {n m : Nat} {u : List Token} {next : Token} {a : Node}

theorem IsPhrase.lift (phrase : place.IsPhrase n u next a) (le : n ≤ m) :
    place.IsPhrase m u next a := by
  obtain ⟨factors, unaries, terms, expressions⟩ := arithmetic_lifts n
  cases place with
  | factor => exact factors le phrase
  | unary => exact unaries le phrase
  | term => exact terms le phrase
  | expression => exact expressions le phrase

-- A rule gives what the rules before it give, each of them one level deeper.
theorem IsPhrase.raise (phrase : own.IsPhrase n u next a) (le : own.rank ≤ place.rank)
    (ends : place.Ends next.kind) : place.IsPhrase (n + (place.rank - own.rank)) u next a := by
  have unary_of_factor {n u} (h : IsFactor n u a) : IsUnary (n + 1) u a := .factor h
  have term_of_unary {n u} (h : IsUnary n u a) (ends : term.Ends next.kind) :
      IsTerm (n + 1) u next a := .last h ends
  have expression_of_term {n u} (h : IsTerm n u next a) (ends : expression.Ends next.kind) :
      IsExpression (n + 1) u next a := .last h ends.additive
  have inner : expression.Ends next.kind → term.Ends next.kind := fun ends => ends.multiplicative
  cases own <;> cases place <;> simp only [rank, Nat.reduceLeDiff] at le
  case factor.factor | unary.unary | term.term | expression.expression => exact phrase
  case factor.unary => exact unary_of_factor phrase
  case factor.term => exact term_of_unary (unary_of_factor phrase) ends
  case factor.expression =>
    exact expression_of_term (term_of_unary (unary_of_factor phrase) (inner ends)) ends
  case unary.term => exact term_of_unary phrase ends
  case unary.expression => exact expression_of_term (term_of_unary phrase (inner ends)) ends
  case term.expression => exact expression_of_term phrase ends

end Level

def Node.ReadBack (e : Node) : Prop :=
  ∀ (u : List Token) (next : Token), u.map Token.face = e.writing → e.level.Ends next.kind →
    ∃ a, e.level.IsPhrase e.nesting u next a ∧ a.erase = e.erase

theorem Node.ReadBack.at {e : Node} (back : e.ReadBack) (place : Level) {u : List Token}
    (next : Token) (written : u.map Token.face = e.writingAt place)
    (ends : place.Ends next.kind) :
    ∃ a, place.IsPhrase (e.nestingAt place) u next a ∧ a.erase = e.erase := by
  unfold Node.writingAt Level.enclose at written
  unfold Node.nestingAt Level.deepen
  by_cases bare : e.level.rank ≤ place.rank
  · rw [if_pos bare] at written ⊢
    obtain ⟨a, phrase, same⟩ := back u next written (ends.mono bare)
    exact ⟨a, phrase.raise bare ends, same⟩
  · rw [if_neg bare] at written ⊢
    obtain ⟨opening, v, rfl, open', rest⟩ := List.map_eq_cons_iff.1 written
    obtain ⟨v, tail, rfl, inside, finish⟩ := List.map_eq_append_iff.1 rest
    obtain ⟨closing, rfl, close⟩ := List.map_eq_singleton_iff.1 finish
    have opened := (Token.face_eq_word rfl).1 open'
    have closed := (Token.face_eq_word rfl).1 close
    have stops : Level.expression.Ends closing.kind := by
      rw [closed]
      exact ⟨rfl, rfl⟩
    obtain ⟨a, phrase, same⟩ := back v closing inside (stops.mono e.level.rank_le_expression)
    have whole : Level.expression.IsPhrase _ v closing a :=
      phrase.raise e.level.rank_le_expression stops
    have factor : Level.factor.IsPhrase _ (opening :: (v ++ [closing])) next a :=
      IsFactor.group opened whole closed
    exact ⟨a, factor.raise (Nat.zero_le _) ends, same⟩

namespace WellFormed

variable {Content : TokenKind → String → Prop} {e : Node}

theorem readBack_unary {pos : Position} {operator : UnaryOperator} {a : Node}
    (known : operator.kind ≠ .invalid) (back : a.ReadBack) :
    (Node.unary pos operator a).ReadBack := by
  intro u next written ends
  rw [Node.writing] at written
  obtain ⟨sign, v, rfl, face, rest⟩ := List.map_eq_cons_iff.1 written
  have word : operator.kind.holdsText = false := by cases operator <;> rfl
  have kind := (Token.face_eq_word word).1 face
  have read : sign.kind.sign? = some operator := by
    rw [TokenKind.sign?_eq_some, kind]
    exact ⟨rfl, known⟩
  obtain ⟨b, phrase, same⟩ := back.at .unary next rest trivial
  refine ⟨.unary sign.pos operator b, ?_, by rw [Node.erase, Node.erase, same]⟩
  rw [Node.nesting, Nat.add_comm]
  exact IsUnary.signed read phrase

theorem readBack_typecast {pos : Position} {target : DataType} {a : Node}
    (known : target ≠ .invalid) (back : a.ReadBack) : (Node.typecast pos target a).ReadBack := by
  intro u next written ends
  rw [Node.writing] at written
  obtain ⟨opening, v, rfl, open', rest⟩ := List.map_eq_cons_iff.1 written
  obtain ⟨name, v, rfl, cast, rest⟩ := List.map_eq_cons_iff.1 rest
  obtain ⟨closing, v, rfl, close, rest⟩ := List.map_eq_cons_iff.1 rest
  have word : target.castKind.holdsText = false := by cases target <;> rfl
  have kind := (Token.face_eq_word word).1 cast
  have read : name.kind.castType? = some target := by
    rw [TokenKind.castType?_eq_some, kind]
    exact ⟨rfl, by cases target <;> simp_all [DataType.castKind]⟩
  obtain ⟨b, phrase, same⟩ := back.at .factor next rest trivial
  refine ⟨.typecast opening.pos target b, ?_, by rw [Node.erase, Node.erase, same]⟩
  rw [Node.nesting, Nat.add_comm]
  exact IsFactor.cast ((Token.face_eq_word rfl).1 open') read ((Token.face_eq_word rfl).1 close)
    phrase

theorem readBack_binary {pos : Position} {operator : BinaryOperator} {a b : Node}
    (known : operator.kind ≠ .invalid) (left : a.ReadBack) (right : b.ReadBack) :
    (Node.binary pos operator a b).ReadBack := by
  intro u next written ends
  rw [Node.writing] at written
  obtain ⟨v, tail, rfl, before, rest⟩ := List.map_eq_append_iff.1 written
  obtain ⟨sign, w, rfl, face, after⟩ := List.map_eq_cons_iff.1 rest
  have word : operator.kind.holdsText = false := by cases operator <;> rfl
  have kind := (Token.face_eq_word word).1 face
  rw [Node.nesting, Nat.add_comm]
  -- The sign ends what stands before it, and it is one of the two that the rule goes on with.
  have sides : operator.sides.1.Ends sign.kind ∧ operator.sides.2 = operator.level := by
    rw [kind]
    cases operator with
    | plus | minus | star | slash => exact ⟨by trivial, rfl⟩
    | other => exact absurd rfl known
  obtain ⟨a', phrase, same⟩ := left.at _ sign before sides.1
  have stops : operator.sides.2.Ends next.kind := by
    rw [sides.2]
    exact ends
  obtain ⟨b', phrase', same'⟩ := right.at _ next after stops
  have phrase := phrase.lift (Nat.le_max_left _ (b.nestingAt operator.sides.2))
  have phrase' := phrase'.lift (Nat.le_max_right (a.nestingAt operator.sides.1) _)
  cases v with
  | nil =>
    cases operator with
    | plus | minus => exact absurd rfl (IsTerm.ne_nil phrase)
    | star | slash => exact absurd rfl (IsUnary.ne_nil phrase)
    | other => exact absurd rfl known
  | cons start v =>
    refine ⟨.binary start.pos operator a' b', ?_, by rw [Node.erase, Node.erase, same, same']⟩
    cases operator with
    | plus | minus => exact IsExpression.more phrase (by rw [kind]; rfl) phrase'
    | star | slash => exact IsTerm.more phrase (by rw [kind]; rfl) phrase'
    | other => exact absurd rfl known

theorem Literal.read {l : PlZero.Literal} (formed : Literal Content l) {t : Token}
    (face : t.face = l.face) : t.kind.literalType? = some l.type ∧ t.text = l.raw := by
  obtain ⟨typed, _⟩ := formed
  have content : l.type.literalKind.holdsText = true := by
    cases type : l.type <;> simp_all [DataType.literalKind, TokenKind.holdsText]
  obtain ⟨kind, text⟩ := (Token.face_eq_content content).1 face
  refine ⟨?_, text⟩
  rw [TokenKind.literalType?_eq_some, kind]
  exact ⟨rfl, fun invalid => by rw [invalid] at content; cases content⟩

theorem Expression.readBack (formed : Expression Content e) : e.ReadBack := by
  induction formed with
  | @identifier i =>
    intro u next written _
    rw [Node.writing] at written
    obtain ⟨t, rfl, face⟩ := List.map_eq_singleton_iff.1 written
    obtain ⟨kind, text⟩ := (Token.face_eq_content rfl).1 face
    refine ⟨_, IsFactor.name kind, ?_⟩
    rw [Node.erase, Node.erase, Identifier.erase, text]
    rfl
  | @literal l holds =>
    intro u next written _
    rw [Node.writing] at written
    obtain ⟨t, rfl, face⟩ := List.map_eq_singleton_iff.1 written
    obtain ⟨read, text⟩ := holds.read face
    refine ⟨_, IsFactor.literal read, ?_⟩
    rw [Node.erase, Node.erase, PlZero.Literal.erase, text]
    rfl
  | unary known _ back => exact readBack_unary known back
  | binary known _ _ left right => exact readBack_binary known left right
  | typecast known _ back => exact readBack_typecast known back

def Holds (Content : TokenKind → String → Prop) (u : List Token) : Prop :=
  ∀ t ∈ u, t.kind.holdsText = true → Content t.kind t.text

@[simp] theorem holds_nil : Holds Content [] := nofun

@[simp] theorem holds_cons {t : Token} {u : List Token} : Holds Content (t :: u) ↔
    (t.kind.holdsText = true → Content t.kind t.text) ∧ Holds Content u :=
  List.forall_mem_cons

@[simp] theorem holds_append {u v : List Token} :
    Holds Content (u ++ v) ↔ Holds Content u ∧ Holds Content v :=
  List.forall_mem_append

theorem holds_name {t : Token} (holds : t.kind.holdsText = true → Content t.kind t.text)
    (name : t.kind = .name) : Content .name t.text := by
  rw [name] at holds
  exact holds rfl

theorem holds_literal {t : Token} {type : DataType}
    (holds : t.kind.holdsText = true → Content t.kind t.text)
    (literal : t.kind.literalType? = some type) : Literal Content ⟨t.pos, type, t.text⟩ := by
  obtain ⟨kind, known⟩ := TokenKind.literalType?_eq_some.1 literal
  rw [← kind] at known holds
  cases type with
  | invalid => exact absurd rfl known
  | integer | float | string => exact ⟨nofun, holds rfl⟩

def Shaped (Content : TokenKind → String → Prop) (place : Level) (n : Nat) : Prop :=
  ∀ {u next a}, place.IsPhrase n u next a → Holds Content u →
    Expression Content a ∧ a.nestingAt place ≤ n

variable {n : Nat}

theorem factor_shaped (factors : Shaped Content .factor n)
    (expressions : Shaped Content .expression n) : Shaped Content .factor (n + 1) := by
  intro u next a phrase holds
  cases phrase with
  | name name =>
    exact ⟨.identifier (holds_name (holds_cons.1 holds).1 name), Nat.succ_le_succ (Nat.zero_le n)⟩
  | literal literal =>
    exact ⟨.literal (holds_literal (holds_cons.1 holds).1 literal),
      Nat.succ_le_succ (Nat.zero_le n)⟩
  | @cast _ opening word closing u target a opened cast closed operand =>
    simp only [holds_cons] at holds
    obtain ⟨kind, known⟩ := TokenKind.castType?_eq_some.1 cast
    have target_ne : target ≠ .invalid := by
      rintro rfl
      exact known kind.symm
    obtain ⟨formed, le⟩ := @factors _ next _ operand holds.2.2.2
    refine ⟨.typecast target_ne formed, ?_⟩
    have nesting : (Node.typecast opening.pos target a).nestingAt .factor =
        1 + a.nestingAt .factor := rfl
    omega
  | group opened inner closed =>
    simp only [holds_cons, holds_append] at holds
    obtain ⟨formed, le⟩ := expressions inner holds.2.1
    exact ⟨formed, (Level.deepen_factor_le _ _).trans (Nat.succ_le_succ le)⟩

theorem unary_shaped (factors : Shaped Content .factor n) (unaries : Shaped Content .unary n) :
    Shaped Content .unary (n + 1) := by
  intro u next a phrase holds
  cases phrase with
  | factor factor =>
    obtain ⟨formed, le⟩ := @factors _ next _ factor holds
    exact ⟨formed, (Level.deepen_succ_le rfl _).trans (Nat.succ_le_succ le)⟩
  | @signed _ sign u operator a read operand =>
    obtain ⟨formed, le⟩ := @unaries _ next _ operand (holds_cons.1 holds).2
    obtain ⟨kind, known⟩ := TokenKind.sign?_eq_some.1 read
    refine ⟨.unary (kind.symm ▸ known) formed, ?_⟩
    have nesting : (Node.unary sign.pos operator a).nestingAt .unary = 1 + a.nestingAt .unary := rfl
    omega

theorem term_shaped (unaries : Shaped Content .unary n) (terms : Shaped Content .term n) :
    Shaped Content .term (n + 1) := by
  intro u next a phrase holds
  cases phrase with
  | last left other =>
    obtain ⟨formed, le⟩ := @unaries _ next _ left holds
    exact ⟨formed, (Level.deepen_succ_le rfl _).trans (Nat.succ_le_succ le)⟩
  | @more _ start sign _ u v operator a b left read right =>
    simp only [holds_append, holds_cons] at holds
    obtain ⟨formed, le⟩ := @unaries _ sign _ left (holds_cons.2 holds.1)
    obtain ⟨formed', le'⟩ := terms right holds.2.2
    obtain ⟨known, level⟩ : operator.kind ≠ .invalid ∧ operator.sides = (.unary, .term) := by
      unfold TokenKind.multiplicative? at read
      split at read <;> cases read <;> exact ⟨nofun, rfl⟩
    refine ⟨.binary known formed formed', ?_⟩
    have nesting : (Node.binary start.pos operator a b).nestingAt .term =
        1 + max (a.nestingAt .unary) (b.nestingAt .term) := by
      unfold Node.nestingAt
      rw [Node.nesting, level]
      cases operator <;> first | rfl | cases level
    omega

theorem expression_shaped (terms : Shaped Content .term n)
    (expressions : Shaped Content .expression n) : Shaped Content .expression (n + 1) := by
  intro u next a phrase holds
  cases phrase with
  | last left other =>
    obtain ⟨formed, le⟩ := terms left holds
    exact ⟨formed, (Level.deepen_succ_le rfl _).trans (Nat.succ_le_succ le)⟩
  | @more _ start sign _ u v operator a b left read right =>
    simp only [holds_append, holds_cons] at holds
    obtain ⟨formed, le⟩ := terms left (holds_cons.2 holds.1)
    obtain ⟨formed', le'⟩ := expressions right holds.2.2
    obtain ⟨known, level⟩ : operator.kind ≠ .invalid ∧ operator.sides = (.term, .expression) := by
      unfold TokenKind.additive? at read
      split at read <;> cases read <;> exact ⟨nofun, rfl⟩
    refine ⟨.binary known formed formed', ?_⟩
    have nesting : (Node.binary start.pos operator a b).nestingAt .expression =
        1 + max (a.nestingAt .term) (b.nestingAt .expression) := by
      unfold Node.nestingAt
      rw [Node.nesting, level]
      cases operator <;> first | rfl | cases level
    omega

theorem arithmetic_shaped (place : Level) (n : Nat) : Shaped Content place n := by
  have all : Shaped Content .factor n ∧ Shaped Content .unary n ∧ Shaped Content .term n ∧
      Shaped Content .expression n := by
    induction n with
    | zero =>
      exact ⟨fun phrase => (nomatch phrase), fun phrase => (nomatch phrase),
        fun phrase => (nomatch phrase), fun phrase => (nomatch phrase)⟩
    | succ n ih =>
      obtain ⟨factors, unaries, terms, expressions⟩ := ih
      exact ⟨factor_shaped factors expressions, unary_shaped factors unaries,
        term_shaped unaries terms, expression_shaped terms expressions⟩
  obtain ⟨factors, unaries, terms, expressions⟩ := all
  cases place with
  | factor => exact @factors
  | unary => exact @unaries
  | term => exact @terms
  | expression => exact @expressions

end WellFormed

end PlZero
