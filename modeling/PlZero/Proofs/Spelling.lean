import PlZero.Proofs.Scanning

set_option autoImplicit false

namespace PlZero

def TokenKind.spelling : TokenKind → List Char
  | invalid | eof => []
  | dot => ['.']
  | comma => [',']
  | semicolon => [';']
  | question => ['?']
  | bang => ['!']
  | equal => ['=']
  | assign => [':', '=']
  | hash => ['#']
  | less => ['<']
  | greater => ['>']
  | lessEqual => ['<', '=']
  | greaterEqual => ['>', '=']
  | plus => ['+']
  | minus => ['-']
  | star => ['*']
  | slash => ['/']
  | leftParen => ['(']
  | rightParen => [')']
  | name => ['x']
  | number => ['1']
  | float => ['1', '.', '5']
  | string => ['"', '"']
  | constWord => "const".toList
  | varWord => "var".toList
  | procedureWord => "procedure".toList
  | callWord => "call".toList
  | beginWord => "begin".toList
  | endWord => "end".toList
  | ifWord => "if".toList
  | thenWord => "then".toList
  | oddWord => "odd".toList
  | whileWord => "while".toList
  | doWord => "do".toList
  | intWord => "int".toList
  | floatWord => "float".toList
  | stringWord => "string".toList

theorem read_spelling {k : TokenKind} (spelled : k.spelling ≠ []) :
    ∃ c cs text, k.spelling = c :: cs ∧ isBlank c = false ∧
      Lexeme.read c cs = ⟨.ok (k, text), c :: cs, []⟩ := by
  cases k
  case invalid | eof => exact absurd rfl spelled
  all_goals exact ⟨_, _, _, rfl, rfl, rfl⟩

theorem lexical_spelling {k : TokenKind} (spelled : k.spelling ≠ []) {z : List Char}
    (calm : Calm z) : ∃ text, Lexical k.spelling z k text := by
  obtain ⟨c, cs, text, spelling, blank, read⟩ := read_spelling spelled
  have lexeme := lexical_of_read blank (congrArg Lexeme.reading read)
  rw [read] at lexeme
  exact ⟨text, spelling ▸ lexeme.cut (.here calm)⟩

def spaced (c : List TokenKind) : List Char := c.flatMap fun k => ' ' :: k.spelling

theorem calm_spaced (c : List TokenKind) : Calm (spaced c) := by
  cases c with
  | nil => exact nofun
  | cons => rintro b ⟨⟩; rfl

theorem spells_spaced {c : List TokenKind} (spelled : ∀ k ∈ c, k.spelling ≠ []) (p : Position) :
    ∃ cs : List Token, cs.map Token.kind = c ∧ Spells p (spaced c) cs [] := by
  induction c generalizing p with
  | nil => exact ⟨[], rfl, .nil⟩
  | cons k c ih =>
    have first := spelled k (by simp)
    obtain ⟨text, lexeme⟩ := lexical_spelling first (calm_spaced c)
    obtain ⟨cs, kinds, spells⟩ := ih (fun k mem => spelled k (by simp [mem]))
      (p.advanceAll ([' '] ++ k.spelling))
    refine ⟨⟨k, text, p.advanceAll [' ']⟩ :: cs, by simp [kinds], ?_⟩
    have blank : ∀ b ∈ [' '], isBlank b = true := List.forall_mem_singleton.2 rfl
    rw [← List.append_nil (spaced c)] at lexeme
    exact .cons blank lexeme rfl spells

theorem scan_spaced {c : List TokenKind} (spelled : ∀ k ∈ c, k.spelling ≠ []) :
    ∃ e, (scan (.ofList (spaced c))).tokens.map Token.kind = c ∧
      (scan (.ofList (spaced c))).last = .ok e := by
  obtain ⟨cs, kinds, spells⟩ := spells_spaced spelled .start
  have feed := spells.feed
  have none : ∀ b ∈ ([] : List Char), isBlank b = true := nofun
  rw [Cursor.feed_blank none, List.append_nil, List.append_nil] at feed
  rw [← String.toList_ofList (l := spaced c)] at feed
  exact ⟨_, (congrArg (·.tokens.map Token.kind) feed).trans kinds, congrArg Feed.last feed⟩

end PlZero
