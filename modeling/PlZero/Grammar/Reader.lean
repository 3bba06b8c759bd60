import PlZero.Token.Cursor

set_option autoImplicit false

namespace PlZero

structure Reader where
  current : Token
  feed : Feed
  depth : Nat

def Reader.ofFeed (f : Feed) : Except (Failure SyntaxFault) Reader :=
  match f.tokens with
  | t :: ts => .ok ⟨t, ⟨ts, f.last⟩, 0⟩
  | [] => f.last.map fun t => ⟨t, f, 0⟩

def Reader.ofSource (source : String) : Except (Failure SyntaxFault) Reader :=
  Reader.ofFeed (scan source)

/-- More than the tokens still to be read, so that a loop which reads one in each round has enough
rounds. -/
def Reader.rounds (r : Reader) : Nat := r.feed.tokens.length + 2

abbrev Rule := EStateM (Failure SyntaxFault) Reader

namespace Rule

variable {α : Type}

def exhausted : Rule α := throw (.breakdown .exhausted)

def current : Rule Token := return (← get).current

def sees (kind : TokenKind) : Rule Bool := return (← get).current.kind == kind

/-- Gives the current token and moves to the next; past the end of the text it stays there. -/
def advance : Rule Token := fun r =>
  match r.feed.tokens, r.feed.last with
  | t :: ts, last => .ok r.current ⟨t, ⟨ts, last⟩, r.depth⟩
  | [], .ok t => .ok r.current ⟨t, r.feed, r.depth⟩
  | [], .error f => .error f r

theorem depth_advance {r r' : Reader} {t : Token} (h : advance r = .ok t r') :
    r'.depth = r.depth := by
  unfold advance at h
  split at h <;> simp at h <;> simp [← h.2]

def reject (cause : TokenKind → SyntaxFault) : Rule α := do
  let token ← current
  throw (.ofCauseAt token.pos (cause token.kind))

def expect (kind : TokenKind) (place : Place) : Rule Token := do
  if ← sees kind then advance else reject (.expected kind place)

def skip (kind : TokenKind) : Rule Unit := do
  if ← sees kind then discard advance

/-- Reads one block deeper; the depth is given back on success and on failure. -/
def deeper (rule : Rule α) : Rule α := fun r =>
  match rule { r with depth := r.depth + 1 } with
  | .ok a r' => .ok a { r' with depth := r'.depth - 1 }
  | .error f r' => .error f { r' with depth := r'.depth - 1 }

def items (step : Rule (α × Bool)) : Nat → Rule (List α)
  | 0 => exhausted
  | rounds + 1 => do
    let (item, more) ← step
    if more then return item :: (← items step rounds) else return [item]

def itemFrom (start : TokenKind) (rule : Rule α) : Rule (List α) := do
  if ← sees start then return [← rule] else return []

def itemsFrom (start : TokenKind) (rule : Rule α) : Nat → Rule (List α)
  | 0 => exhausted
  | rounds + 1 => do
    if ← sees start then return (← rule) :: (← itemsFrom start rule rounds) else return []

def guarded (rule : Rule α) : Rule α := fun r =>
  match rule r with
  | .error (.breakdown .exhausted) r' =>
    .error (.ofCauseAt r'.current.pos (.nestedTooDeeply r'.current.kind)) r'
  | result => result

end Rule

end PlZero
