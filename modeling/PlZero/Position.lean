set_option autoImplicit false

namespace PlZero

/-- Coordinates are integers because a tree may be handed in with any coordinates at all. -/
structure Position where
  offset : Int
  line : Int
  column : Int
deriving DecidableEq, Inhabited

def Position.start : Position := ⟨0, 1, 1⟩

def Position.advance (p : Position) (c : Char) : Position :=
  if c = '\n' then ⟨p.offset + 1, p.line + 1, 1⟩ else ⟨p.offset + 1, p.line, p.column + 1⟩

@[simp] theorem Position.offset_advance (p : Position) (c : Char) :
    (p.advance c).offset = p.offset + 1 := by
  unfold Position.advance; split <;> rfl

def Position.advanceAll (p : Position) (cs : List Char) : Position :=
  cs.foldl Position.advance p

@[simp] theorem Position.advanceAll_nil (p : Position) : p.advanceAll [] = p := rfl

@[simp] theorem Position.advanceAll_cons (p : Position) (c : Char) (cs : List Char) :
    p.advanceAll (c :: cs) = (p.advance c).advanceAll cs := rfl

theorem Position.advanceAll_append (p : Position) (xs ys : List Char) :
    p.advanceAll (xs ++ ys) = (p.advanceAll xs).advanceAll ys := by
  simp [Position.advanceAll]

theorem Position.offset_advanceAll (p : Position) (cs : List Char) :
    (p.advanceAll cs).offset = p.offset + cs.length := by
  induction cs generalizing p with
  | nil => simp
  | cons c cs ih => simp [ih]; omega

end PlZero
