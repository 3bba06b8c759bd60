import PlZero.Proofs.ErasedShapes
import PlZero.Proofs.ProgramReading
import PlZero.Proofs.ReadShapes
import PlZero.Proofs.Spelling
import PlZero.Proofs.WrittenProgram

set_option autoImplicit false

namespace PlZero

open Phrase

def Face.Spelled (f : Face) : Prop :=
  ∃ (x : List Char) (text : String), Lexical x [] f.kind text ∧
    ∀ pos : Position, Token.face ⟨f.kind, text, pos⟩ = f

theorem Face.Spelled.word {k : TokenKind} (word : k.holdsText = false)
    (spelled : k.spelling.isEmpty = false) : k.face.Spelled := by
  obtain ⟨text, lexeme⟩ := lexical_spelling (List.isEmpty_eq_false_iff.1 spelled) (z := []) nofun
  exact ⟨_, text, lexeme, fun _ => (Token.face_eq_word word).2 rfl⟩

theorem WellFormed.Lexicon.spelled {k : TokenKind} {text : String} (holds : Lexicon k text) :
    Face.Spelled ⟨k, text⟩ := by
  obtain ⟨x, lexeme⟩ := holds.lexical
  have content : k.holdsText = true := by cases holds <;> rfl
  exact ⟨x, text, lexeme, fun _ => (Token.face_eq_content content).2 ⟨rfl, rfl⟩⟩

theorem exists_spells {w : List Face} (spelled : ∀ f ∈ w, f.Spelled) (p : Position) :
    ∃ x ts, Calm x ∧ ts.map Token.face = w ∧ Spells p x ts [] := by
  induction w generalizing p with
  | nil => exact ⟨[], [], nofun, rfl, .nil⟩
  | cons f w ih =>
    obtain ⟨first, later⟩ := List.forall_mem_cons.1 spelled
    obtain ⟨x, text, lexeme, face⟩ := first
    obtain ⟨y, ts, calm, faces, spells⟩ := ih later (p.advanceAll ([' '] ++ x))
    have blank : ∀ b ∈ [' '], isBlank b = true := List.forall_mem_singleton.2 rfl
    refine ⟨[' '] ++ (x ++ y), ⟨f.kind, text, p.advanceAll [' ']⟩ :: ts, ?_, ?_, ?_⟩
    · rintro b ⟨⟩
      rfl
    · rw [List.map_cons, faces, face]
    · exact .cons blank (lexeme.cut (.here (by rwa [List.append_nil]))) rfl spells

theorem exists_scan {w : List Face} (spelled : ∀ f ∈ w, f.Spelled) :
    ∃ source e, (scan source).tokens.map Token.face = w ∧ (scan source).last = .ok e := by
  obtain ⟨x, ts, _, faces, spells⟩ := exists_spells spelled .start
  have feed := spells.feed
  have none : ∀ b ∈ ([] : List Char), isBlank b = true := nofun
  rw [Cursor.feed_blank none, List.append_nil, List.append_nil] at feed
  rw [← String.toList_ofList (l := x)] at feed
  exact ⟨.ofList x, _, (congrArg (·.tokens.map Token.face) feed).trans faces,
    congrArg Feed.last feed⟩

theorem Spells.holds {p : Position} {s r : List Char} {ts : List Token} (spells : Spells p s ts r) :
    WellFormed.Holds WellFormed.Lexicon ts := by
  induction spells with
  | nil => exact WellFormed.holds_nil
  | cons _ lexeme _ _ ih =>
    exact WellFormed.holds_cons.2 ⟨fun holds => WellFormed.lexicon_of_lexical lexeme holds, ih⟩

theorem scan_holds (source : String) :
    WellFormed.Holds WellFormed.Lexicon (scan source).tokens := by
  have whole : (Cursor.ofSource source).feed.tokens = (scan source).tokens ++ [] :=
    (List.append_nil _).symm
  obtain ⟨_, _, _, spells, _⟩ := Cursor.spells_of_feed whole
  exact spells.holds

namespace WellFormed

theorem spelled_enclose {place own : Level} {w : List Face} (spelled : ∀ f ∈ w, f.Spelled) :
    ∀ f ∈ place.enclose own w, f.Spelled := by
  unfold Level.enclose
  split
  · exact spelled
  · simp only [List.forall_mem_cons, List.forall_mem_append]
    exact ⟨.word rfl rfl, spelled, .word rfl rfl, List.forall_mem_nil _⟩

theorem Literal.spelled {l : PlZero.Literal} (formed : Literal Lexicon l) : l.face.Spelled := by
  obtain ⟨_, holds⟩ := formed
  exact holds.spelled

theorem Expression.spelled {e : Node} (formed : Expression Lexicon e) :
    ∀ f ∈ e.writing, f.Spelled := by
  induction formed with
  | identifier named => exact List.forall_mem_singleton.2 named.spelled
  | literal formed => exact List.forall_mem_singleton.2 formed.spelled
  | @unary _ operator _ known _ ih =>
    have sign : operator.kind.face.Spelled := by
      cases operator with
      | plus | minus => exact .word rfl rfl
      | other => exact absurd rfl known
    exact List.forall_mem_cons.2 ⟨sign, spelled_enclose ih⟩
  | @binary _ operator _ _ known _ _ left right =>
    have sign : operator.kind.face.Spelled := by
      cases operator with
      | plus | minus | star | slash => exact .word rfl rfl
      | other => exact absurd rfl known
    rw [Node.writing]
    exact List.forall_mem_append.2 ⟨spelled_enclose left,
      List.forall_mem_cons.2 ⟨sign, spelled_enclose right⟩⟩
  | @typecast _ target _ known _ ih =>
    have word : target.castKind.face.Spelled := by
      cases target with
      | integer | float | string => exact .word rfl rfl
      | invalid => exact absurd rfl known
    simp only [Node.writing, List.forall_mem_cons]
    exact ⟨.word rfl rfl, word, .word rfl rfl,
      spelled_enclose ih⟩

theorem Condition.spelled {c : PlZero.Condition Node} (formed : Condition Lexicon c) :
    ∀ f ∈ conditionWriting c, f.Spelled := by
  cases formed with
  | odd formed =>
    simp only [conditionWriting, optionalWriting, Option.elim_none, if_true, List.append_nil,
      List.singleton_append, List.forall_mem_cons]
    exact ⟨.word rfl rfl, formed.spelled⟩
  | @comparison _ operator _ _ known formed formed' =>
    have sign : operator.kind.face.Spelled := by
      cases operator with
      | other => exact absurd rfl known
      | _ => exact .word rfl rfl
    simp only [conditionWriting, optionalWriting, Option.elim_some, Bool.false_eq_true, if_false,
      List.nil_append, List.append_assoc, List.singleton_append, List.forall_mem_append,
      List.forall_mem_cons]
    exact ⟨formed.spelled, sign, formed'.spelled⟩

theorem spelled_writings {ending : List Face} {nodes : List Node}
    (ends : ∀ f ∈ ending, f.Spelled) (spelled : ∀ node ∈ nodes, ∀ f ∈ node.writing, f.Spelled) :
    ∀ f ∈ writings ending nodes, f.Spelled := by
  induction nodes with
  | nil => nofun
  | cons node nodes ih =>
    obtain ⟨first, later⟩ := List.forall_mem_cons.1 spelled
    simp only [writings, List.forall_mem_append]
    exact ⟨⟨first, ends⟩, ih later⟩

theorem spelled_optional {body : Option Node}
    (spelled : ∀ node ∈ body, ∀ f ∈ node.writing, f.Spelled) :
    ∀ f ∈ optionalWriting body, f.Spelled := by
  cases body with
  | none => nofun
  | some node => exact spelled node rfl

theorem Statement.spelled {node : Node} (formed : Statement Lexicon node) :
    ∀ f ∈ node.writing, f.Spelled := by
  induction formed with
  | assignment named formed =>
    simp only [Node.writing, List.forall_mem_cons]
    exact ⟨named.spelled, .word rfl rfl, formed.spelled⟩
  | call named =>
    simp only [Node.writing, List.forall_mem_cons]
    exact ⟨.word rfl rfl, named.spelled, List.forall_mem_nil _⟩
  | input named =>
    simp only [Node.writing, List.forall_mem_cons]
    exact ⟨.word rfl rfl, named.spelled, List.forall_mem_nil _⟩
  | print formed =>
    simp only [Node.writing, List.forall_mem_cons]
    exact ⟨.word rfl rfl, formed.spelled⟩
  | sequence _ ih =>
    simp only [Node.writing, List.forall_mem_cons, List.forall_mem_append]
    exact ⟨.word rfl rfl, spelled_writings (List.forall_mem_singleton.2 (.word rfl rfl)) ih,
      .word rfl rfl, List.forall_mem_nil _⟩
  | conditional formed _ ih =>
    simp only [Node.writing, List.forall_mem_cons, List.forall_mem_append]
    exact ⟨.word rfl rfl, formed.spelled, .word rfl rfl, spelled_optional ih⟩
  | loop formed _ ih =>
    simp only [Node.writing, List.forall_mem_cons, List.forall_mem_append]
    exact ⟨.word rfl rfl, formed.spelled, .word rfl rfl, spelled_optional ih⟩

theorem Constant.spelled {d : VariableDeclaration} (formed : Constant Lexicon d) :
    ∀ f ∈ d.writing, f.Spelled := by
  cases formed with
  | mk named literal =>
    simp only [VariableDeclaration.writing, List.forall_mem_cons]
    exact ⟨named.spelled, .word rfl rfl, literal.spelled, List.forall_mem_nil _⟩

theorem Variable.spelled {d : VariableDeclaration} (formed : Variable Lexicon d) :
    ∀ f ∈ d.writing, f.Spelled := by
  cases formed with
  | mk named => exact List.forall_mem_singleton.2 named.spelled

theorem spelled_intercalate {ws : List (List Face)} (spelled : ∀ w ∈ ws, ∀ f ∈ w, f.Spelled) :
    ∀ f ∈ [TokenKind.comma.face].intercalate ws, f.Spelled := by
  induction ws with
  | nil => nofun
  | cons w ws ih =>
    obtain ⟨first, later⟩ := List.forall_mem_cons.1 spelled
    by_cases alone : ws = []
    · rwa [alone, List.intercalate_singleton]
    · rw [List.intercalate_cons_of_ne_nil alone]
      simp only [List.forall_mem_append]
      exact ⟨⟨first, List.forall_mem_singleton.2 (.word rfl rfl)⟩, ih later⟩

theorem Group.spelled {Item : VariableDeclaration → Prop} {nodes : List Node}
    (item : ∀ {d}, Item d → ∀ f ∈ d.writing, f.Spelled) (formed : Group Item nodes) :
    ∀ node ∈ nodes, ∀ f ∈ node.writing, f.Spelled := by
  cases formed with
  | absent => exact List.forall_mem_nil _
  | @present pos group some items =>
    have word : (groupWord group).face.Spelled := by
      unfold groupWord
      split <;> exact .word rfl rfl
    refine List.forall_mem_singleton.2 ?_
    simp only [Node.writing, groupWriting, List.forall_mem_cons, List.forall_mem_append]
    refine ⟨word, spelled_intercalate ?_, .word rfl rfl, List.forall_mem_nil _⟩
    exact List.forall_mem_map.2 fun d mem => item (items d mem)

theorem spelled_body {constants vars procedures : List Node} {statement : Option Node}
    (hasConstants : Group (Constant Lexicon) constants) (hasVars : Group (Variable Lexicon) vars)
    (spelled : ∀ node ∈ procedures, ∀ f ∈ node.writing, f.Spelled)
    (formed : ∀ node ∈ statement, Statement Lexicon node) :
    ∀ f ∈ writings [] (constants ++ vars ++ procedures ++ statement.toList), f.Spelled := by
  refine spelled_writings nofun ?_
  simp only [List.forall_mem_append]
  refine ⟨⟨⟨hasConstants.spelled Constant.spelled, hasVars.spelled Variable.spelled⟩, spelled⟩, ?_⟩
  intro node mem
  exact (formed node (Option.mem_toList.1 mem)).spelled

theorem Procedure.spelled {node : Node} (formed : Procedure Lexicon node) :
    ∀ f ∈ node.writing, f.Spelled := by
  induction formed with
  | mk named hasConstants hasVars _ formed ih =>
    simp only [Node.writing, blockWriting, List.forall_mem_cons, List.forall_mem_append]
    exact ⟨.word rfl rfl, named.spelled, .word rfl rfl,
      spelled_body hasConstants hasVars ih formed, .word rfl rfl, List.forall_mem_nil _⟩

theorem Program.spelled {t : PlZero.Program} (formed : Program Lexicon t) :
    ∀ f ∈ t.writing, f.Spelled := by
  cases formed with
  | mk formed =>
    cases formed with
    | mk hasConstants hasVars procedures formed =>
      rw [PlZero.Program.writing, blockWriting, writings_append]
      refine List.forall_mem_append.2 ⟨?_, List.forall_mem_singleton.2 (.word rfl rfl)⟩
      exact spelled_body hasConstants hasVars (fun node mem => (procedures node mem).spelled) formed

end WellFormed

theorem exists_parseWithin_iff (limit : Nat) (t : Program) :
    (∃ source p, parseWithin limit source = .ok p ∧ p.erase = t.erase) ↔
      WellFormed.Program WellFormed.Lexicon t ∧ t.nesting ≤ limit := by
  constructor
  · rintro ⟨source, p, parsed, same⟩
    have outcome := parseWithin_outcome limit source
    rw [parsed] at outcome
    cases outcome with
    | accepted _ phrase =>
      obtain ⟨formed, le⟩ := WellFormed.program_shaped phrase (scan_holds source)
      exact ⟨formed.of_erase same, Program.nesting_eq_of_erase same ▸ le⟩
  · rintro ⟨formed, le⟩
    obtain ⟨source, e, written, last⟩ := exists_scan formed.spelled
    obtain ⟨p, phrase, same⟩ := formed.readBack written
    exact ⟨source, p, parseWithin_of_isProgram last (phrase.lift le), same⟩

theorem parse_image (t : Program) :
    ((∃ source p, parse source = .ok p ∧ p.erase = t.erase) ↔
      WellFormed.Program WellFormed.Lexicon t ∧ t.nesting ≤ Grammar.nestingLimit) ∧
    ((∃ limit source p, parseWithin limit source = .ok p ∧ p.erase = t.erase) ↔
      WellFormed.Program WellFormed.Lexicon t) := by
  refine ⟨exists_parseWithin_iff Grammar.nestingLimit t, ?_, ?_⟩
  · rintro ⟨limit, parsed⟩
    exact ((exists_parseWithin_iff limit t).1 parsed).1
  · intro formed
    exact ⟨t.nesting, (exists_parseWithin_iff t.nesting t).2 ⟨formed, Nat.le_refl _⟩⟩

end PlZero
