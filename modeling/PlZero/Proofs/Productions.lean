import Mathlib.Computability.Language
import PlZero.Token

set_option autoImplicit false

namespace PlZero

inductive Category
  | program
  | block
  | constGroup
  | varGroup
  | procedureDecl
  | statement
  | condition
  | expr
  | term
  | unary
  | factor
  | literal

inductive Form
  | empty
  | token (kind : TokenKind)
  | category (c : Category)
  | seq (first second : Form)
  | either (left right : Form)
  | optional (f : Form)
  | repeated (f : Form)

namespace Form

instance : Append Form := ⟨seq⟩

instance : OrOp Form := ⟨either⟩

end Form

def production : Category → Form
  | .program => .category .block ++ .token .dot
  | .block => .optional (.category .constGroup) ++ .optional (.category .varGroup) ++
      .repeated (.category .procedureDecl) ++ .optional (.category .statement) ++
      .optional (.token .semicolon)
  | .constGroup => .token .constWord ++ .token .name ++ .token .equal ++ .category .literal ++
      .repeated (.token .comma ++ .token .name ++ .token .equal ++ .category .literal) ++
      .token .semicolon
  | .varGroup => .token .varWord ++ .token .name ++ .repeated (.token .comma ++ .token .name) ++
      .token .semicolon
  | .procedureDecl => .token .procedureWord ++ .token .name ++ .token .semicolon ++
      .category .block
  | .statement => .token .name ++ .token .assign ++ .category .expr |||
      .token .callWord ++ .token .name |||
      .token .question ++ .token .name |||
      .token .bang ++ .category .expr |||
      .token .beginWord ++ .category .statement ++
        .repeated (.token .semicolon ++ .category .statement) ++ .token .endWord |||
      .token .ifWord ++ .category .condition ++ .token .thenWord ++ .category .statement |||
      .token .whileWord ++ .category .condition ++ .token .doWord ++ .category .statement |||
      .empty
  | .condition => .token .oddWord ++ .category .expr |||
      .category .expr ++ (.token .equal ||| .token .hash ||| .token .less ||| .token .greater |||
        .token .lessEqual ||| .token .greaterEqual) ++ .category .expr
  | .expr => .category .term ++ .optional ((.token .plus ||| .token .minus) ++ .category .expr)
  | .term => .category .unary ++ .optional ((.token .star ||| .token .slash) ++ .category .term)
  | .unary => (.token .plus ||| .token .minus) ++ .category .unary ||| .category .factor
  | .factor => .token .name ||| .category .literal |||
      .token .leftParen ++ (.token .intWord ||| .token .floatWord ||| .token .stringWord) ++
        .token .rightParen ++ .category .factor |||
      .token .leftParen ++ .category .expr ++ .token .rightParen
  | .literal => .token .number ||| .token .float ||| .token .string

inductive Derives : Form → List TokenKind → Prop
  | empty : Derives .empty []
  | token {kind : TokenKind} : Derives (.token kind) [kind]
  | category {c : Category} {w : List TokenKind} : Derives (production c) w →
      Derives (.category c) w
  | seq {f g : Form} {u v : List TokenKind} : Derives f u → Derives g v →
      Derives (f ++ g) (u ++ v)
  | left {f g : Form} {w : List TokenKind} : Derives f w → Derives (f ||| g) w
  | right {f g : Form} {w : List TokenKind} : Derives g w → Derives (f ||| g) w
  | absent {f : Form} : Derives (.optional f) []
  | present {f : Form} {w : List TokenKind} : Derives f w → Derives (.optional f) w
  | done {f : Form} : Derives (.repeated f) []
  | again {f : Form} {u v : List TokenKind} : Derives f u → Derives (.repeated f) v →
      Derives (.repeated f) (u ++ v)

def Form.keepsTo (allowed : TokenKind → Bool) (safe : Category → Bool) : Form → Bool
  | .empty => true
  | .token kind => allowed kind
  | .category c => safe c
  | .seq f g | .either f g => f.keepsTo allowed safe && g.keepsTo allowed safe
  | .optional f | .repeated f => f.keepsTo allowed safe

theorem Derives.allowed_of_mem {allowed : TokenKind → Bool} {safe : Category → Bool} {f : Form}
    {w : List TokenKind} (closed : ∀ c, safe c = true → (production c).keepsTo allowed safe = true)
    (derives : Derives f w) (keeps : f.keepsTo allowed safe = true) :
    ∀ kind ∈ w, allowed kind = true := by
  induction derives with
  | empty | absent | done => exact nofun
  | token => exact List.forall_mem_singleton.2 keeps
  | @category c _ _ ih => exact ih (closed c keeps)
  | seq _ _ first second =>
    obtain ⟨left, right⟩ := Bool.and_eq_true_iff.1 keeps
    exact List.forall_mem_append.2 ⟨first left, second right⟩
  | left _ ih => exact ih (Bool.and_eq_true_iff.1 keeps).1
  | right _ ih => exact ih (Bool.and_eq_true_iff.1 keeps).2
  | present _ ih => exact ih keeps
  | again _ _ first second => exact List.forall_mem_append.2 ⟨first keeps, second keeps⟩

namespace Form

def language (f : Form) : Language TokenKind := {w | Derives f w}

@[simp] theorem language_empty : language .empty = 1 := by
  ext w
  constructor
  · rintro ⟨⟩; rfl
  · rintro rfl; exact .empty

@[simp] theorem language_token (kind : TokenKind) : language (.token kind) = {[kind]} := by
  ext w
  constructor
  · rintro ⟨⟩; rfl
  · rintro rfl; exact .token

@[simp] theorem language_seq (f g : Form) : language (f ++ g) = language f * language g := by
  ext w
  constructor
  · intro h
    cases h with
    | seq first second => exact Language.append_mem_mul first second
  · rintro ⟨u, first, v, second, rfl⟩
    exact .seq first second

@[simp] theorem language_either (f g : Form) : language (f ||| g) = language f + language g := by
  ext w
  constructor
  · intro h
    cases h with
    | left h => exact .inl h
    | right h => exact .inr h
  · rintro (h | h)
    · exact .left h
    · exact .right h

@[simp] theorem language_optional (f : Form) : language (.optional f) = 1 + language f := by
  ext w
  constructor
  · intro h
    cases h with
    | absent => exact .inl rfl
    | present h => exact .inr h
  · rintro (rfl | h)
    · exact .absent
    · exact .present h

@[simp] theorem language_repeated (f : Form) : language (.repeated f) = KStar.kstar (language f) := by
  ext w
  constructor
  · intro h
    generalize form : Form.repeated f = g at h
    induction h with
    | done => exact Language.nil_mem_kstar _
    | again first _ _ ih =>
      cases form
      rw [← Language.one_add_self_mul_kstar_eq_kstar]
      exact .inr (Language.append_mem_mul first (ih rfl))
    | _ => cases form
  · rintro ⟨parts, rfl, members⟩
    induction parts with
    | nil => exact .done
    | cons part parts ih =>
      exact .again (members part (by simp)) (ih fun w mem => members w (by simp [mem]))

theorem language_category (c : Category) : language (.category c) = language (production c) := by
  ext w
  constructor
  · rintro ⟨⟩; assumption
  · exact .category

end Form

end PlZero
