import Mathlib.Data.List.TakeWhile
import PlZero.Token.Cursor

set_option autoImplicit false

namespace PlZero

open Number

def Stops (q : Char → Bool) (r : List Char) : Prop := ∀ c ∈ r.head?, q c = false

def Calm (z : List Char) : Prop := ∀ c ∈ z.head?, isBlank c = true

/-- The second text goes along with the first one and then stops or goes on with a blank. -/
inductive Cut : List Char → List Char → Prop
  | here {r z : List Char} : Calm z → Cut r z
  | skip {c : Char} {r z : List Char} : Cut r z → Cut (c :: r) (c :: z)

theorem Cut.append_left (p : List Char) {r z : List Char} (cut : Cut r z) :
    Cut (p ++ r) (p ++ z) := by
  induction p with
  | nil => exact cut
  | cons c p ih => exact .skip ih

theorem Cut.stops {q : Char → Bool} {r z : List Char} (blank : ∀ c, isBlank c = true → q c = false)
    (cut : Cut r z) (stop : Stops q r) : Stops q z := by
  cases cut with
  | here calm => exact fun c mem => blank c (calm c mem)
  | skip => exact stop

theorem eq_of_isBlank {c : Char} (h : isBlank c = true) : c = ' ' ∨ c = '\t' ∨ c = '\r' ∨ c = '\n' := by
  simpa [isBlank, or_assoc] using h

section Blanks

variable {c : Char} (h : isBlank c = true)

include h

theorem eq_false_of_isBlank {q : Char → Bool}
    (none : q ' ' = false ∧ q '\t' = false ∧ q '\r' = false ∧ q '\n' = false) : q c = false := by
  obtain ⟨space, tab, carriage, line⟩ := none
  rcases eq_of_isBlank h with rfl | rfl | rfl | rfl <;> assumption

theorem isWordChar_of_isBlank : isWordChar c = false := eq_false_of_isBlank h (by decide)

theorem isDigit_of_isBlank : c.isDigit = false := eq_false_of_isBlank h (by decide)

theorem isOctalDigit_of_isBlank : isOctalDigit c = false := eq_false_of_isBlank h (by decide)

theorem isHexDigit_of_isBlank : isHexDigit c = false := eq_false_of_isBlank h (by decide)

theorem isBinaryDigit_of_isBlank : isBinaryDigit c = false := eq_false_of_isBlank h (by decide)

end Blanks

section Runs

variable {q : Char → Bool} {xs r : List Char}

theorem takeWhile_run (run : ∀ c ∈ xs, q c = true) (stop : Stops q r) :
    (xs ++ r).takeWhile q = xs := by
  rw [List.takeWhile_append_of_pos run]
  cases r with
  | nil => simp
  | cons c r => simp [stop c rfl]

theorem dropWhile_run (run : ∀ c ∈ xs, q c = true) (stop : Stops q r) :
    (xs ++ r).dropWhile q = r := by
  rw [List.dropWhile_append_of_pos run]
  cases r with
  | nil => simp
  | cons c r => simp [stop c rfl]

theorem stop_of_dropWhile (text : List Char) : Stops q (text.dropWhile q) := by
  intro c mem
  have := List.head?_dropWhile_not q text
  rw [Option.mem_def.1 mem] at this
  exact this

theorem stops_of_any (h : ¬ r.head?.any q = true) : Stops q r := by
  intro c mem
  simpa [Option.mem_def.1 mem] using h

theorem run_of_takeWhile (text : List Char) : ∀ c ∈ text.takeWhile q, q c = true :=
  fun _ => List.mem_takeWhile_imp

end Runs

inductive Radix : List Char → Nat → (Char → Bool) → Prop
  | octal : Radix ['0'] 8 isOctalDigit
  | hex {m : Char} : m = 'x' ∨ m = 'X' → Radix ['0', m] 16 isHexDigit
  | binary {m : Char} : m = 'b' ∨ m = 'B' → Radix ['0', m] 2 isBinaryDigit

structure Bare (r : List Char) : Prop where
  octal : Stops isOctalDigit r
  point : Stops (· == '.') r
  hex : ∀ m z, r = m :: z → m = 'x' ∨ m = 'X' → Stops isHexDigit z
  binary : ∀ m z, r = m :: z → m = 'b' ∨ m = 'B' → Stops isBinaryDigit z

/-- The inside of a string: a quote stands in it only after a backslash. -/
inductive Enclosed (quote : Char) : List Char → Prop
  | nil : Enclosed quote []
  | escaped {c : Char} {body : List Char} : Enclosed quote body → Enclosed quote ('\\' :: c :: body)
  | plain {c : Char} {body : List Char} : c ≠ '\\' → c ≠ quote → Enclosed quote body →
      Enclosed quote (c :: body)

def pairKind? : Char → Option TokenKind
  | ':' => some .assign
  | '<' => some .lessEqual
  | '>' => some .greaterEqual
  | _ => none

/-- The lexemes of each kind, with the text that may stand after them and the text of the token. -/
inductive Lexical : List Char → List Char → TokenKind → String → Prop
  | word {c : Char} {xs r : List Char} : isWordStart c = true →
      (∀ a ∈ xs, isWordChar a = true) → Stops isWordChar r →
      Lexical (c :: xs) r (.ofWord (c :: xs)) (String.ofList (c :: xs))
  | zero {r : List Char} : Bare r → Lexical ['0'] r .number "0"
  | radix {mark ds r : List Char} {base : Nat} {isDigit : Char → Bool} :
      Radix mark base isDigit → ds ≠ [] → (∀ a ∈ ds, isDigit a = true) → Stops isDigit r →
      (Nat.toDigits 10 (digitsValue base ds)).length ≤ digitLimit →
      Lexical (mark ++ ds) r .number (String.ofList (Nat.toDigits 10 (digitsValue base ds)))
  | decimal {c : Char} {xs r : List Char} : c.isDigit = true → c ≠ '0' →
      (∀ a ∈ xs, a.isDigit = true) → Stops Char.isDigit r → Stops (· == '.') r →
      Lexical (c :: xs) r .number (String.ofList (c :: xs))
  | float {c : Char} {xs fs r : List Char} : c.isDigit = true → (c = '0' → xs = []) →
      (∀ a ∈ xs, a.isDigit = true) → fs ≠ [] → (∀ a ∈ fs, a.isDigit = true) →
      Stops Char.isDigit r →
      Lexical (c :: (xs ++ '.' :: fs)) r .float (String.ofList (c :: (xs ++ '.' :: fs)))
  | string {quote : Char} {body r : List Char} : quote = '\'' ∨ quote = '"' →
      Enclosed quote body →
      Lexical (quote :: (body ++ [quote])) r .string (String.ofList body)
  | pair {c : Char} {r : List Char} {kind : TokenKind} : pairKind? c = some kind →
      Lexical [c, '='] r kind (String.ofList [c, '='])
  | single {c : Char} {r : List Char} : isBlank c = false → isWordStart c = false →
      c.isDigit = false → c ≠ '\'' → c ≠ '"' → (pairKind? c = none ∨ Stops (· == '=') r) →
      Lexical [c] r (Lexeme.symbolKind c) (String.ofList [c])

theorem Bare.cut {r z : List Char} (bare : Bare r) (cut : Cut r z) : Bare z := by
  refine ⟨cut.stops (fun _ => isOctalDigit_of_isBlank) bare.octal, cut.stops ?_ bare.point, ?_, ?_⟩
  · exact fun c blank => eq_false_of_isBlank (q := (· == '.')) blank (by decide)
  · rintro m z rfl mark
    cases cut with
    | here calm => rcases mark with rfl | rfl <;> exact absurd (calm _ rfl) (by decide)
    | skip cut => exact cut.stops (fun _ => isHexDigit_of_isBlank) (bare.hex m _ rfl mark)
  · rintro m z rfl mark
    cases cut with
    | here calm => rcases mark with rfl | rfl <;> exact absurd (calm _ rfl) (by decide)
    | skip cut => exact cut.stops (fun _ => isBinaryDigit_of_isBlank) (bare.binary m _ rfl mark)

theorem Lexical.cut {x r z : List Char} {kind : TokenKind} {text : String}
    (lexeme : Lexical x r kind text) (cut : Cut r z) : Lexical x z kind text := by
  cases lexeme with
  | word start run stop =>
    exact .word start run (cut.stops (fun _ => isWordChar_of_isBlank) stop)
  | zero bare => exact .zero (bare.cut cut)
  | radix mark some run stop short =>
    refine .radix mark some run (cut.stops (fun c blank => ?_) stop) short
    cases mark with
    | octal => exact isOctalDigit_of_isBlank blank
    | hex => exact isHexDigit_of_isBlank blank
    | binary => exact isBinaryDigit_of_isBlank blank
  | decimal digit notZero run stop point =>
    refine .decimal digit notZero run (cut.stops (fun _ => isDigit_of_isBlank) stop) ?_
    exact cut.stops (fun c blank => eq_false_of_isBlank (q := (· == '.')) blank (by decide)) point
  | float digit zero run some run' stop =>
    exact .float digit zero run some run' (cut.stops (fun _ => isDigit_of_isBlank) stop)
  | string quote body => exact .string quote body
  | pair kind => exact .pair kind
  | single blank word digit quote quote' alone =>
    refine .single blank word digit quote quote' ?_
    exact alone.imp_right
      (cut.stops fun c blank => eq_false_of_isBlank (q := (· == '=')) blank (by decide))

namespace Lexeme

variable {r : List Char}

theorem digitsValue_zero_cons (base : Nat) (ds : List Char) :
    digitsValue base ('0' :: ds) = digitsValue base ds := by
  have zero : digitValue '0' = 0 := by decide
  simp [digitsValue, zero]

theorem numeral_of_short {n : Nat} (short : (Nat.toDigits 10 n).length ≤ digitLimit) :
    numeral n = .ok (.number, String.ofList (Nat.toDigits 10 n)) := by
  simp [numeral, short]

theorem radix_run (base : Nat) (mark : List Char) {ds : List Char} {isDigit : Char → Bool}
    (run : ∀ a ∈ ds, isDigit a = true) (stop : Stops isDigit r) :
    radix base mark isDigit (ds ++ r) = ⟨numeral (digitsValue base ds), mark ++ ds, r⟩ := by
  rw [radix, takeWhile_run run stop, dropWhile_run run stop]

theorem radix_octal (text : List Char) :
    radix 8 [] isOctalDigit ('0' :: text) = radix 8 ['0'] isOctalDigit text := by
  have zero : isOctalDigit '0' = true := by decide
  simp [radix, zero, digitsValue_zero_cons]

theorem decimal_run {ds : List Char} (run : ∀ a ∈ ds, a.isDigit = true)
    (stop : Stops Char.isDigit r) (point : Stops (· == '.') r) :
    decimal (ds ++ r) = ⟨.ok (.number, String.ofList ds), ds, r⟩ := by
  unfold decimal
  rw [takeWhile_run run stop, dropWhile_run run stop]
  split
  · exact absurd (point '.' rfl) (by decide)
  · rfl

theorem decimal_point {ds fs : List Char} (run : ∀ a ∈ ds, a.isDigit = true) (some : fs ≠ [])
    (run' : ∀ a ∈ fs, a.isDigit = true) (stop : Stops Char.isDigit r) :
    decimal (ds ++ '.' :: (fs ++ r)) =
      ⟨.ok (.float, String.ofList (ds ++ '.' :: fs)), ds ++ '.' :: fs, r⟩ := by
  have point : Stops Char.isDigit ('.' :: (fs ++ r)) := by rintro c ⟨⟩; rfl
  unfold decimal
  rw [takeWhile_run run point, dropWhile_run run point]
  simp [takeWhile_run run' stop, dropWhile_run run' stop, some]

theorem number_of_ne_zero {c : Char} (notZero : c ≠ '0') (cs : List Char) :
    number (c :: cs) = decimal (c :: cs) := by
  unfold number
  split
  · next eq => exact absurd (List.cons.inj eq).1 notZero
  · next eq => exact absurd (List.cons.inj eq).1 notZero
  · rfl

theorem number_zero_cons (m : Char) (after : List Char) : number ('0' :: m :: after) =
    if isOctalDigit m then radix 8 [] isOctalDigit ('0' :: m :: after)
    else if (m == 'x' || m == 'X') && after.head?.any isHexDigit then
      radix 16 ['0', m] isHexDigit after
    else if (m == 'b' || m == 'B') && after.head?.any isBinaryDigit then
      radix 2 ['0', m] isBinaryDigit after
    else if m == '.' then decimal ('0' :: m :: after)
    else ⟨.ok (.number, "0"), ['0'], m :: after⟩ := rfl

theorem number_bare (bare : Bare r) : number ('0' :: r) = ⟨.ok (.number, "0"), ['0'], r⟩ := by
  cases r with
  | nil => rfl
  | cons m z =>
    have octal : isOctalDigit m = false := bare.octal m rfl
    have point : (m == '.') = false := bare.point m rfl
    have hex : ((m == 'x' || m == 'X') && z.head?.any isHexDigit) = false := by
      by_cases mark : m = 'x' ∨ m = 'X'
      · have stop := bare.hex m z rfl mark
        cases z <;> simp_all [Stops]
      · simp_all
    have binary : ((m == 'b' || m == 'B') && z.head?.any isBinaryDigit) = false := by
      by_cases mark : m = 'b' ∨ m = 'B'
      · have stop := bare.binary m z rfl mark
        cases z <;> simp_all [Stops]
      · simp_all
    simp [number, octal, hex, binary, point]

theorem number_radix {mark ds : List Char} {base : Nat} {isDigit : Char → Bool}
    (announced : Radix mark base isDigit) (some : ds ≠ []) (run : ∀ a ∈ ds, isDigit a = true)
    (stop : Stops isDigit r) :
    number (mark ++ (ds ++ r)) = ⟨numeral (digitsValue base ds), mark ++ ds, r⟩ := by
  obtain ⟨d, ds, rfl⟩ := List.exists_cons_of_ne_nil some
  have first := run d (by simp)
  cases announced with
  | octal =>
    have octal : number ('0' :: (d :: ds ++ r)) = radix 8 [] isOctalDigit ('0' :: (d :: ds ++ r)) := by
      simp [number, first]
    rw [List.singleton_append, octal, radix_octal]
    exact radix_run 8 ['0'] run stop
  | @hex m mark =>
    have octal : isOctalDigit m = false := by rcases mark with rfl | rfl <;> decide
    simpa [number, first, octal, mark] using radix_run 16 ['0', m] run stop
  | @binary m mark =>
    have octal : isOctalDigit m = false := by rcases mark with rfl | rfl <;> decide
    have notHex : (m == 'x' || m == 'X') = false := by rcases mark with rfl | rfl <;> decide
    simpa [number, first, octal, notHex, mark] using radix_run 2 ['0', m] run stop

theorem number_point {c : Char} {xs fs : List Char} (digit : c.isDigit = true)
    (zero : c = '0' → xs = []) (run : ∀ a ∈ xs, a.isDigit = true) (some : fs ≠ [])
    (run' : ∀ a ∈ fs, a.isDigit = true) (stop : Stops Char.isDigit r) :
    number (c :: (xs ++ '.' :: (fs ++ r))) =
      ⟨.ok (.float, String.ofList (c :: (xs ++ '.' :: fs))), c :: (xs ++ '.' :: fs), r⟩ := by
  have first : ∀ a ∈ c :: xs, a.isDigit = true := by simpa [digit] using run
  have whole := decimal_point first some run' stop
  by_cases isZero : c = '0'
  · obtain rfl := zero isZero
    subst isZero
    simpa [number, isOctalDigit] using whole
  · rw [number_of_ne_zero isZero]
    exact whole

theorem closeString_of_enclosed {quote : Char} {body : List Char} (plain : quote ≠ '\\')
    (enclosed : Enclosed quote body) : closeString quote (body ++ quote :: r) = some (body, r) := by
  induction enclosed with
  | nil =>
    rw [List.nil_append, closeString.eq_def]
    split <;> simp_all
  | escaped _ ih => simp [closeString, ih]
  | @plain c body noEscape noQuote _ ih =>
    rw [List.cons_append, closeString.eq_def]
    split <;> simp_all

theorem enclosed_of_closeString {quote : Char} {text body : List Char}
    (h : closeString quote text = some (body, r)) : Enclosed quote body := by
  fun_induction closeString quote text generalizing body with
  | case1 => cases h
  | case2 => cases h
  | case3 c cs ih =>
    obtain ⟨⟨b, _⟩, closed, eq⟩ := Option.map_eq_some_iff.1 h
    obtain ⟨rfl, rfl⟩ := Prod.mk.inj eq
    exact .escaped (ih closed)
  | case4 =>
    obtain ⟨rfl, rfl⟩ := Prod.mk.inj (Option.some.inj h)
    exact .nil
  | case5 c cs alone notEscape other ih =>
    obtain ⟨⟨b, _⟩, closed, eq⟩ := Option.map_eq_some_iff.1 h
    obtain ⟨rfl, rfl⟩ := Prod.mk.inj eq
    refine .plain (fun escape => ?_) other (ih closed)
    cases cs with
    | nil => exact alone escape rfl
    | cons d ds => exact notEscape d ds escape rfl

theorem symbol_pair {c : Char} {kind : TokenKind} (h : pairKind? c = some kind) :
    symbol c ('=' :: r) = ⟨.ok (kind, String.ofList [c, '=']), [c, '='], r⟩ := by
  unfold pairKind? at h
  split at h
  · cases h; rfl
  · cases h; rfl
  · cases h; rfl
  · cases h

theorem symbol_single {c : Char} (alone : pairKind? c = none ∨ Stops (· == '=') r) :
    symbol c r = ⟨.ok (symbolKind c, String.ofList [c]), [c], r⟩ := by
  have notPair (z : List Char) (eq : r = '=' :: z) : pairKind? c = none := by
    rcases alone with none | stop
    · exact none
    · exact absurd (stop '=' (by simp [eq])) (by decide)
  unfold symbol
  split
  · next z => exact absurd (notPair z rfl) (by decide)
  · next z => exact absurd (notPair z rfl) (by decide)
  · next z => exact absurd (notPair z rfl) (by decide)
  · rfl

theorem read_word {c : Char} {cs : List Char} (start : isWordStart c = true) :
    read c cs = word (c :: cs) := by
  simp [read, start]

theorem isWordStart_of_isDigit {c : Char} (digit : c.isDigit = true) : isWordStart c = false := by
  have range : 48 ≤ c.toNat ∧ c.toNat ≤ 57 := Char.isDigit_iff_toNat.1 digit
  have other : c ≠ '_' := by rintro rfl; revert digit; decide
  have letter : c.isAlpha = false := by
    unfold Char.isAlpha Char.isUpper Char.isLower
    simp only [ge_iff_le, UInt32.le_iff_toNat_le, Char.toNat_val, Bool.or_eq_false_iff,
      Bool.and_eq_false_iff, decide_eq_false_iff_not]
    exact ⟨fun h => absurd (show 65 ≤ c.toNat from h.1) (by omega),
      .inl fun h => absurd (show 97 ≤ c.toNat from h) (by omega)⟩
  simp [isWordStart, letter, other]

theorem isBlank_of_isWordChar {c : Char} (h : isWordChar c = true) : isBlank c = false := by
  by_contra blank
  rw [isWordChar_of_isBlank (by simpa using blank)] at h
  cases h

theorem isBlank_of_isDigit {c : Char} (h : c.isDigit = true) : isBlank c = false := by
  by_contra blank
  rw [isDigit_of_isBlank (by simpa using blank)] at h
  cases h

theorem read_number {c : Char} {cs : List Char} (digit : c.isDigit = true) :
    read c cs = number (c :: cs) := by
  simp [read, isWordStart_of_isDigit digit, digit]

theorem read_string {c : Char} {cs : List Char} (quote : c = '\'' ∨ c = '"') :
    read c cs = string c cs := by
  have notWord : isWordStart c = false := by rcases quote with rfl | rfl <;> decide
  have notDigit : c.isDigit = false := by rcases quote with rfl | rfl <;> decide
  simp [read, notWord, notDigit, quote]

end Lexeme

open Lexeme

theorem Lexical.read {x r : List Char} {kind : TokenKind} {text : String}
    (lexeme : Lexical x r kind text) :
    ∃ c xs, x = c :: xs ∧ isBlank c = false ∧
      Lexeme.read c (xs ++ r) = ⟨.ok (kind, text), x, r⟩ := by
  cases lexeme with
  | @word c xs _ start run stop =>
    have first := isWordChar_of_isWordStart start
    have run' : ∀ a ∈ c :: xs, isWordChar a = true := by simpa [first] using run
    refine ⟨c, xs, rfl, isBlank_of_isWordChar first, (read_word start).trans ?_⟩
    rw [Lexeme.word, ← List.cons_append, takeWhile_run run' stop, dropWhile_run run' stop]
  | zero bare => exact ⟨'0', [], rfl, by decide, (read_number (by decide)).trans (number_bare bare)⟩
  | radix announced some run stop short =>
    have whole := number_radix announced some run stop
    rw [numeral_of_short short] at whole
    cases announced <;>
      exact ⟨'0', _, rfl, by decide, (read_number (by decide)).trans (by simpa using whole)⟩
  | @decimal c xs _ digit notZero run stop point =>
    have run' : ∀ a ∈ c :: xs, a.isDigit = true := by simpa [digit] using run
    refine ⟨c, xs, rfl, isBlank_of_isDigit digit, (read_number digit).trans ?_⟩
    rw [number_of_ne_zero notZero, ← List.cons_append, decimal_run run' stop point]
  | @float c xs fs _ digit zero run some run' stop =>
    refine ⟨c, xs ++ '.' :: fs, rfl, isBlank_of_isDigit digit, (read_number digit).trans ?_⟩
    rw [List.append_assoc, List.cons_append]
    exact number_point digit zero run some run' stop
  | @string quote body _ mark enclosed =>
    have plain : quote ≠ '\\' := by rcases mark with rfl | rfl <;> decide
    have blank : isBlank quote = false := by rcases mark with rfl | rfl <;> decide
    refine ⟨quote, body ++ [quote], rfl, blank, (read_string mark).trans ?_⟩
    simp [Lexeme.string, closeString_of_enclosed plain enclosed]
  | @pair c _ _ kind =>
    refine ⟨c, ['='], rfl, ?_⟩
    rw [List.singleton_append, ← symbol_pair kind]
    unfold pairKind? at kind
    split at kind
    · exact ⟨rfl, rfl⟩
    · exact ⟨rfl, rfl⟩
    · exact ⟨rfl, rfl⟩
    · cases kind
  | @single c _ blank word digit quote quote' alone =>
    refine ⟨c, [], rfl, blank, ?_⟩
    rw [List.nil_append, ← symbol_single alone]
    simp [Lexeme.read, word, digit, quote, quote']

theorem lexical_decimal {c : Char} {cs : List Char} {kind : TokenKind} {text : String}
    (digit : c.isDigit = true) (lead : c = '0' → ∃ after, cs = '.' :: after)
    (ok : (Lexeme.decimal (c :: cs)).reading = .ok (kind, text)) :
    Lexical (Lexeme.decimal (c :: cs)).taken (Lexeme.decimal (c :: cs)).rest kind text := by
  have run := run_of_takeWhile (q := Char.isDigit) cs
  have stop := stop_of_dropWhile (q := Char.isDigit) cs
  unfold Lexeme.decimal at ok ⊢
  simp only [List.takeWhile_cons, List.dropWhile_cons, digit, if_true] at ok ⊢
  split at ok
  · next after point =>
    split at ok
    · cases ok
    · next fraction =>
      cases ok
      simp only [fraction, if_false, Bool.false_eq_true]
      refine .float digit (fun zero => ?_) run (by simpa using fraction)
        (run_of_takeWhile after) (stop_of_dropWhile after)
      obtain ⟨_, rfl⟩ := lead zero
      rfl
  · next noPoint =>
    cases ok
    refine .decimal digit (fun zero => ?_) run stop ?_
    · obtain ⟨after, rfl⟩ := lead zero
      exact noPoint after rfl
    · intro d mem
      by_contra isPoint
      obtain rfl : d = '.' := by simpa using isPoint
      obtain ⟨after, eq⟩ := List.head?_eq_some_iff.1 (Option.mem_def.1 mem)
      exact noPoint after eq

theorem lexical_radix {mark : List Char} {base : Nat} {isDigit : Char → Bool} {after : List Char}
    {kind : TokenKind} {text : String} (announced : Radix mark base isDigit)
    (some : after.head?.any isDigit = true)
    (ok : (Lexeme.radix base mark isDigit after).reading = .ok (kind, text)) :
    Lexical (Lexeme.radix base mark isDigit after).taken
      (Lexeme.radix base mark isDigit after).rest kind text := by
  have nonempty : after.takeWhile isDigit ≠ [] := by
    cases after with
    | nil => cases some
    | cons d ds =>
      have first : isDigit d = true := some
      simp [first]
  simp only [Lexeme.radix, numeral] at ok ⊢
  split at ok
  · cases ok
  · next short =>
    cases ok
    exact .radix announced nonempty (run_of_takeWhile after) (stop_of_dropWhile after) (by omega)

theorem lexical_number {c : Char} {cs : List Char} {kind : TokenKind} {text : String}
    (digit : c.isDigit = true) (ok : (Lexeme.number (c :: cs)).reading = .ok (kind, text)) :
    Lexical (Lexeme.number (c :: cs)).taken (Lexeme.number (c :: cs)).rest kind text := by
  by_cases zero : c = '0'
  · subst zero
    cases cs with
    | nil =>
      cases ok
      exact .zero ⟨nofun, nofun, nofun, nofun⟩
    | cons m after =>
      rw [number_zero_cons] at ok ⊢
      split_ifs at ok ⊢ with octal hex binary point
      · rw [radix_octal] at ok ⊢
        exact lexical_radix .octal octal ok
      · obtain ⟨mark, some⟩ := Bool.and_eq_true_iff.1 hex
        exact lexical_radix (.hex (by simpa using mark)) some ok
      · obtain ⟨mark, some⟩ := Bool.and_eq_true_iff.1 binary
        exact lexical_radix (.binary (by simpa using mark)) some ok
      · exact lexical_decimal digit (fun _ => ⟨after, by simpa using point⟩) ok
      · cases ok
        refine .zero ⟨?_, ?_, ?_, ?_⟩
        · rintro c ⟨⟩; simpa using octal
        · rintro c ⟨⟩; simpa using point
        · rintro c z ⟨⟩ mark
          exact stops_of_any fun some => hex (by simp [mark, some])
        · rintro c z ⟨⟩ mark
          exact stops_of_any fun some => binary (by simp [mark, some])
  · rw [number_of_ne_zero zero] at ok ⊢
    exact lexical_decimal digit (fun h => absurd h zero) ok

theorem lexical_of_read {c : Char} {cs : List Char} {kind : TokenKind} {text : String}
    (blank : isBlank c = false) (ok : (Lexeme.read c cs).reading = .ok (kind, text)) :
    Lexical (Lexeme.read c cs).taken (Lexeme.read c cs).rest kind text := by
  by_cases start : isWordStart c = true
  · rw [read_word start] at ok ⊢
    cases ok
    have first := isWordChar_of_isWordStart start
    simp only [Lexeme.word, List.takeWhile_cons, List.dropWhile_cons, first, if_true]
    exact .word start (run_of_takeWhile cs) (stop_of_dropWhile cs)
  by_cases digit : c.isDigit = true
  · rw [read_number digit] at ok ⊢
    exact lexical_number digit ok
  by_cases quote : c = '\'' ∨ c = '"'
  · rw [read_string quote] at ok ⊢
    unfold Lexeme.string at ok ⊢
    split at ok
    · next body rest closed =>
      cases ok
      exact .string quote (enclosed_of_closeString closed)
    · cases ok
  · have start' : isWordStart c = false := by simpa using start
    have digit' : c.isDigit = false := by simpa using digit
    obtain ⟨quote', quote''⟩ := not_or.1 quote
    have symbols : Lexeme.read c cs = symbol c cs := by
      simp [Lexeme.read, start', digit', quote', quote'']
    rw [symbols] at ok ⊢
    by_cases paired : pairKind? c = none ∨ Stops (· == '=') cs
    · rw [symbol_single paired] at ok ⊢
      cases ok
      exact .single blank start' digit' quote' quote'' paired
    · obtain ⟨some, more⟩ := not_or.1 paired
      obtain ⟨kind', pair⟩ := Option.ne_none_iff_exists'.1 some
      obtain ⟨rest, rfl⟩ : ∃ rest, cs = '=' :: rest := by
        simp only [Stops, not_forall, Bool.not_eq_false, beq_iff_eq] at more
        obtain ⟨d, mem, rfl⟩ := more
        exact List.head?_eq_some_iff.1 mem
      rw [symbol_pair pair] at ok ⊢
      cases ok
      exact .pair pair

end PlZero
