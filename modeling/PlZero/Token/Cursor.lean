import PlZero.SyntaxFault
import PlZero.Token.Lexeme

set_option autoImplicit false

namespace PlZero

structure Cursor where
  rest : List Char
  pos : Position

namespace Cursor

def ofSource (source : String) : Cursor := ⟨source.toList, .start⟩

def skipBlanks (c : Cursor) : Cursor :=
  ⟨c.rest.dropWhile isBlank, c.pos.advanceAll (c.rest.takeWhile isBlank)⟩

end Cursor

def Flaw.failure (pos : Position) : Flaw → Failure SyntaxFault
  | .unterminatedString => .ofCauseAt pos .unterminatedString
  | .malformedFloat digits => .ofCauseAt pos (.malformedFloat digits)
  | .tooManyDigits => .breakdown .tooManyDigits

def Lexeme.token (l : Lexeme) (pos : Position) : Except (Failure SyntaxFault) Token :=
  match l.reading with
  | .ok (kind, text) => .ok ⟨kind, text, pos⟩
  | .error flaw => .error (flaw.failure pos)

def Token.endOfFile (pos : Position) : Token := ⟨.eof, "", pos⟩

namespace Cursor

/-- The next token, or why there is none, and the cursor after it. At the end of the text every
reading gives the same end token. -/
def next (c : Cursor) : Except (Failure SyntaxFault) Token × Cursor :=
  let start := c.skipBlanks
  match start.rest with
  | [] => (.ok (.endOfFile start.pos), start)
  | d :: ds =>
    let lexeme := Lexeme.read d ds
    (lexeme.token start.pos, ⟨lexeme.rest, start.pos.advanceAll lexeme.taken⟩)

def take : Nat → Cursor → List (Except (Failure SyntaxFault) Token)
  | 0, _ => []
  | n + 1, c => c.next.1 :: take n c.next.2

theorem length_skipBlanks_le (c : Cursor) : c.skipBlanks.rest.length ≤ c.rest.length :=
  (List.dropWhile_suffix isBlank).length_le

theorem next_of_ended {c : Cursor} (h : c.skipBlanks.rest = []) :
    c.next = (.ok (.endOfFile c.skipBlanks.pos), c.skipBlanks) := by
  simp [next, h]

theorem length_next_lt {c : Cursor} (h : c.skipBlanks.rest ≠ []) :
    c.next.2.rest.length < c.rest.length := by
  have skipped := c.length_skipBlanks_le
  unfold next
  dsimp only
  split
  · contradiction
  · next d ds eq =>
    have whole := congrArg List.length (Lexeme.taken_append_rest d ds)
    have some := List.length_pos_iff.2 (Lexeme.taken_ne_nil d ds)
    simp only [List.length_append] at whole
    rw [eq] at skipped
    simp only [List.length_cons] at *
    omega

end Cursor

/-- The tokens of a text before its end, and what every later reading gives: the end token, or the
fault at which scanning stopped. -/
structure Feed where
  tokens : List Token
  last : Except (Failure SyntaxFault) Token

def Feed.cons (t : Token) (f : Feed) : Feed := ⟨t :: f.tokens, f.last⟩

namespace Cursor

def feed (c : Cursor) : Feed :=
  match _h : c.next with
  | (.ok t, after) => if t.kind = .eof then ⟨[], .ok t⟩ else .cons t (feed after)
  | (.error f, _) => ⟨[], .error f⟩
termination_by c.rest.length
decreasing_by
  have shorter : c.next.2.rest.length < c.rest.length := by
    apply length_next_lt
    intro ended
    have isEnd := (congrArg Prod.fst (next_of_ended ended)).symm.trans (congrArg Prod.fst _h)
    cases isEnd
    contradiction
  simpa [_h] using shorter

end Cursor

def scan (source : String) : Feed := (Cursor.ofSource source).feed

end PlZero
