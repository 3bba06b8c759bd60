set_option autoImplicit false

namespace PlZero.Text

def charsLE : List Char → List Char → Bool
  | [], _ => true
  | _ :: _, [] => false
  | c :: cs, d :: ds =>
    if c.toNat < d.toNat then true
    else if d.toNat < c.toNat then false
    else charsLE cs ds

def le (s t : String) : Bool := charsLE s.toList t.toList

def sorted (texts : List String) : List String := texts.mergeSort le

end PlZero.Text
