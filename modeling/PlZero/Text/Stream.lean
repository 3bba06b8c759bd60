import PlZero.Position

set_option autoImplicit false

namespace PlZero.Text

structure Stream where
  source : Array Char
  pos : Position := .start

inductive StreamFault
  | pastEnd (pos : Position)
  | beforeStart
deriving DecidableEq

def StreamFault.message : StreamFault → String
  | .pastEnd pos =>
    s!"CharacterStreamError: Attempted to read past end of source at position=<{pos.offset}>, " ++
      s!"line=<{pos.line}>"
  | .beforeStart => "string index out of range"

namespace Stream

def ended (s : Stream) : Bool := decide ((s.source.size : Int) ≤ s.pos.offset)

def peek (s : Stream) (distance : Int) : Option Char :=
  let index := s.pos.offset + distance
  if index < 0 then none else s.source[index.toNat]?

/-- Reads the character at the place. A place before the start of the text counts from its end. -/
def next (s : Stream) : Except StreamFault (Char × Stream) :=
  let index := if s.pos.offset < 0 then s.pos.offset + s.source.size else s.pos.offset
  if s.ended then .error (.pastEnd s.pos)
  else if index < 0 then .error .beforeStart
  else match s.source[index.toNat]? with
    | some c => .ok (c, { s with pos := s.pos.advance c })
    | none => .error .beforeStart

end Stream

end PlZero.Text
