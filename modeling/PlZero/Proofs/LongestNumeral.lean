import Mathlib.Data.Finset.Max
import Mathlib.Data.List.Infix
import PlZero.Proofs.LiteralValues

set_option autoImplicit false

namespace PlZero

open Number WellFormed

/-- What a numeral says: a number in plain decimal digits, a number in a base that is announced, or
a number with a fraction, which is kept as it is written. -/
inductive Meaning
  | plain (n : Nat)
  | announced (n : Nat)
  | fraction

def positional (base : Nat) (digits : List Char) : Nat :=
  Nat.ofDigits base (digits.reverse.map digitValue)

/-- The forms of numerals: `0|[1-9][0-9]*`, then `0[0-7]+`, `0[xX][0-9A-Fa-f]+` and `0[bB][01]+`,
and `(0|[1-9][0-9]*)\.[0-9]+`. -/
inductive Numeral : List Char → Meaning → Prop
  | plain {ds : List Char} : Whole ds → Numeral ds (.plain (positional 10 ds))
  | announced {mark ds : List Char} {base : Nat} {isDigit : Char → Bool} :
      Radix mark base isDigit → ds ≠ [] → (∀ a ∈ ds, isDigit a = true) →
      Numeral (mark ++ ds) (.announced (positional base ds))
  | fraction {ds fs : List Char} : Whole ds → fs ≠ [] → (∀ a ∈ fs, a.isDigit = true) →
      Numeral (ds ++ '.' :: fs) .fraction

structure LongestNumeral (text m : List Char) (meaning : Meaning) : Prop where
  numeral : Numeral m meaning
  begins : m <+: text
  longest : ∀ m' meaning', Numeral m' meaning' → m' <+: text → m'.length ≤ m.length

def Meaning.token (m after : List Char) (pos : Position) :
    Meaning → Except (Failure SyntaxFault) Token
  | .plain n =>
    if after.head? = some '.' then .error (.ofCauseAt pos (.malformedFloat (String.ofList m)))
    else .ok ⟨.number, Nat.repr n, pos⟩
  | .announced n =>
    if digitLimit < (Nat.repr n).length then .error (.breakdown .tooManyDigits)
    else .ok ⟨.number, Nat.repr n, pos⟩
  | .fraction => .ok ⟨.float, String.ofList m, pos⟩

theorem whole_digit {c : Char} (digit : c.isDigit = true) : Whole [c] :=
  whole_of_digits digit (fun _ => rfl) nofun

theorem exists_longestNumeral {c : Char} (digit : c.isDigit = true) (cs : List Char) :
    ∃ m meaning, LongestNumeral (c :: cs) m meaning := by
  classical
  let found := ((c :: cs).inits.filter fun m => ∃ meaning, Numeral m meaning).toFinset
  have mem (m : List Char) : m ∈ found ↔ m <+: c :: cs ∧ ∃ meaning, Numeral m meaning := by
    simp only [found, List.mem_toFinset, List.mem_filter, List.mem_inits, decide_eq_true_eq]
  have first : [c] ∈ found := (mem _).2 ⟨⟨cs, rfl⟩, _, .plain (whole_digit digit)⟩
  obtain ⟨m, inside, most⟩ := Finset.exists_max_image found List.length ⟨_, first⟩
  obtain ⟨begins, meaning, numeral⟩ := (mem m).1 inside
  refine ⟨m, meaning, numeral, begins, ?_⟩
  intro m' meaning' numeral' begins'
  exact most m' ((mem m').2 ⟨begins', meaning', numeral'⟩)

namespace LongestNumeral

variable {m after : List Char} {meaning meaning' : Meaning}

theorem eq_nil_of_numeral {x z : List Char} (longest : LongestNumeral (m ++ (x ++ z)) m meaning)
    (longer : Numeral (m ++ x) meaning') : x = [] := by
  have bound := longest.longest _ _ longer ⟨z, by simp⟩
  rw [List.length_append] at bound
  apply List.eq_nil_of_length_eq_zero
  omega

-- What would make the numeral longer does not follow it.
theorem stops {q : Char → Bool} (longest : LongestNumeral (m ++ after) m meaning)
    (longer : ∀ d, q d = true → ∃ meaning', Numeral (m ++ [d]) meaning') : Stops q after := by
  intro d first
  by_contra holds
  obtain ⟨z, rfl⟩ := List.head?_eq_some_iff.1 (Option.mem_def.1 first)
  obtain ⟨_, numeral⟩ := longer d (by simpa using holds)
  cases longest.eq_nil_of_numeral (x := [d]) numeral

theorem stops_after {mark : Char} {q : Char → Bool} {z : List Char}
    (longest : LongestNumeral (m ++ mark :: z) m meaning)
    (longer : ∀ d, q d = true → ∃ meaning', Numeral (m ++ [mark, d]) meaning') : Stops q z := by
  intro d first
  by_contra holds
  obtain ⟨z, rfl⟩ := List.head?_eq_some_iff.1 (Option.mem_def.1 first)
  obtain ⟨_, numeral⟩ := longer d (by simpa using holds)
  cases longest.eq_nil_of_numeral (x := [mark, d]) numeral

theorem stops_fraction {ds z : List Char} (whole : Whole ds)
    (longest : LongestNumeral (ds ++ '.' :: z) ds meaning) : Stops Char.isDigit z :=
  longest.stops_after fun _ digit =>
    ⟨_, .fraction whole (List.cons_ne_nil _ _) (List.forall_mem_singleton.2 digit)⟩

end LongestNumeral

namespace Lexeme

variable {m after : List Char}

theorem decimal_malformed {ds z : List Char} (run : ∀ a ∈ ds, a.isDigit = true)
    (stop : Stops Char.isDigit z) :
    decimal (ds ++ '.' :: z) = ⟨.error (.malformedFloat (String.ofList ds)), ds, '.' :: z⟩ := by
  have point : Stops Char.isDigit ('.' :: z) := by
    intro c first
    cases first
    rfl
  have none : ([] ++ z).takeWhile Char.isDigit = [] := takeWhile_run nofun stop
  rw [List.nil_append] at none
  unfold decimal
  rw [takeWhile_run run point, dropWhile_run run point]
  simp [none]

theorem number_malformed {ds z : List Char} (whole : Whole ds) (stop : Stops Char.isDigit z) :
    number (ds ++ '.' :: z) = ⟨.error (.malformedFloat (String.ofList ds)), ds, '.' :: z⟩ := by
  have malformed := decimal_malformed whole.digits_of.2 stop
  cases whole with
  | zero => simpa [number, isOctalDigit] using malformed
  | digits _ notZero _ => rwa [List.cons_append, number_of_ne_zero notZero]

theorem bare_of_longest {meaning : Meaning} (longest : LongestNumeral ('0' :: after) ['0'] meaning)
    (point : Stops (· == '.') after) : Bare after := by
  have announced {mark : List Char} {base : Nat} {isDigit : Char → Bool} {d : Char}
      (radix : Radix mark base isDigit) (digit : isDigit d = true) :
      ∃ meaning', Numeral (mark ++ [d]) meaning' :=
    ⟨_, .announced radix (List.cons_ne_nil _ _) (List.forall_mem_singleton.2 digit)⟩
  constructor
  · exact longest.stops (m := ['0']) fun d digit => announced .octal digit
  · exact point
  · intro mark z text hex
    rw [text] at longest
    exact longest.stops_after (m := ['0']) fun d digit => announced (.hex hex) digit
  · intro mark z text binary
    rw [text] at longest
    exact longest.stops_after (m := ['0']) fun d digit => announced (.binary binary) digit

theorem number_plain {ds : List Char} {meaning : Meaning} (whole : Whole ds)
    (longest : LongestNumeral (ds ++ after) ds meaning) (point : Stops (· == '.') after) :
    number (ds ++ after) = ⟨.ok (.number, String.ofList ds), ds, after⟩ := by
  cases whole with
  | zero => exact number_bare (bare_of_longest longest point)
  | @digits c cs digit notZero run =>
    have all : ∀ a ∈ c :: cs, a.isDigit = true := List.forall_mem_cons.2 ⟨digit, run⟩
    have stop : Stops Char.isDigit after := by
      apply longest.stops
      intro d more
      have run' : ∀ a ∈ cs ++ [d], a.isDigit = true :=
        List.forall_mem_append.2 ⟨run, List.forall_mem_singleton.2 more⟩
      exact ⟨_, .plain (.digits digit notZero run')⟩
    rw [List.cons_append, number_of_ne_zero notZero]
    exact decimal_run all stop point

theorem number_announced {mark ds : List Char} {base : Nat} {isDigit : Char → Bool}
    {meaning : Meaning} (radix : Radix mark base isDigit) (some : ds ≠ [])
    (run : ∀ a ∈ ds, isDigit a = true)
    (longest : LongestNumeral (mark ++ ds ++ after) (mark ++ ds) meaning) :
    number (mark ++ ds ++ after) = ⟨numeral (positional base ds), mark ++ ds, after⟩ := by
  have stop : Stops isDigit after := by
    apply longest.stops
    intro d digit
    have run' : ∀ a ∈ ds ++ [d], isDigit a = true :=
      List.forall_mem_append.2 ⟨run, List.forall_mem_singleton.2 digit⟩
    rw [List.append_assoc]
    exact ⟨_, .announced radix (by simp) run'⟩
  rw [List.append_assoc, number_radix radix some run stop, digitsValue_eq_ofDigits, positional]

theorem number_fraction {ds fs : List Char} {meaning : Meaning} (whole : Whole ds) (some : fs ≠ [])
    (run : ∀ a ∈ fs, a.isDigit = true)
    (longest : LongestNumeral (ds ++ '.' :: fs ++ after) (ds ++ '.' :: fs) meaning) :
    number (ds ++ '.' :: fs ++ after) =
      ⟨.ok (.float, String.ofList (ds ++ '.' :: fs)), ds ++ '.' :: fs, after⟩ := by
  have stop : Stops Char.isDigit after := by
    apply longest.stops
    intro d digit
    have run' : ∀ a ∈ fs ++ [d], a.isDigit = true :=
      List.forall_mem_append.2 ⟨run, List.forall_mem_singleton.2 digit⟩
    rw [List.append_assoc, List.cons_append]
    exact ⟨_, .fraction whole (by simp) run'⟩
  cases ds with
  | nil => cases whole
  | cons c cs =>
    obtain ⟨digit, zero, digits⟩ := whole.head
    simpa using number_point digit zero digits some run stop

end Lexeme

theorem repr_positional {ds : List Char} (whole : Whole ds) :
    Nat.repr (positional 10 ds) = String.ofList ds := by
  rw [Nat.repr, positional, ← digitsValue_eq_ofDigits]
  cases whole with
  | zero => rfl
  | digits digit notZero run => rw [(toDigits_digitsValue digit notZero run).1]

theorem token_announced (n : Nat) (m after : List Char) (pos : Position) :
    Lexeme.token ⟨Lexeme.numeral n, m, after⟩ pos = (Meaning.announced n).token m after pos := by
  have length : (Nat.repr n).length = (Nat.toDigits 10 n).length := by simp [Nat.repr]
  by_cases long : digitLimit < (Nat.toDigits 10 n).length
  · simp [Lexeme.token, Lexeme.numeral, Meaning.token, length, long, Flaw.failure]
  · simp [Lexeme.token, Lexeme.numeral, Meaning.token, long, Nat.repr]

theorem Meaning.eq_of_token {m after : List Char} {pos : Position} {n : Nat} {t : Token}
    {meaning : Meaning} (number : meaning = .plain n ∨ meaning = .announced n)
    (ok : meaning.token m after pos = .ok t) : t = ⟨.number, Nat.repr n, pos⟩ := by
  rcases number with rfl | rfl
  all_goals
    simp only [Meaning.token] at ok
    split_ifs at ok
    exact (Except.ok.inj ok).symm

theorem LongestNumeral.read {d : Char} {ds m after : List Char} {meaning : Meaning}
    (digit : d.isDigit = true) (split : d :: ds = m ++ after)
    (longest : LongestNumeral (d :: ds) m meaning) (pos : Position) :
    (Lexeme.read d ds).token pos = meaning.token m after pos ∧
      (Lexeme.read d ds).taken = m ∧ (Lexeme.read d ds).rest = after := by
  rw [Lexeme.read_number digit]
  rw [split] at longest ⊢
  cases longest.numeral with
  | plain whole =>
    by_cases point : after.head? = some '.'
    · obtain ⟨z, rfl⟩ := List.head?_eq_some_iff.1 point
      rw [Lexeme.number_malformed whole (longest.stops_fraction whole)]
      exact ⟨rfl, rfl, rfl⟩
    · have stop : Stops (· == '.') after := by
        intro c first
        by_contra same
        exact point (by simpa [Option.mem_def.1 first] using same)
      rw [Lexeme.number_plain whole longest stop]
      simp [Lexeme.token, Meaning.token, point, repr_positional whole]
  | announced radix some run =>
    rw [Lexeme.number_announced radix some run longest]
    exact ⟨token_announced _ _ _ pos, rfl, rfl⟩
  | fraction whole some run =>
    rw [Lexeme.number_fraction whole some run longest]
    exact ⟨rfl, rfl, rfl⟩

/-- Wherever a digit is met, there is a longest numeral, and it is what is scanned there: it is
taken, and its value is what the token says, or the reason why there is none. So the text of a token
depends on the number alone and not on the base in which it is written. -/
theorem numeral_scanned_by_longest_match {c : Cursor} {d : Char} {ds : List Char}
    (met : c.skipBlanks.rest = d :: ds) (digit : d.isDigit = true) :
    (∃ m meaning, LongestNumeral (d :: ds) m meaning) ∧
    (∀ m after meaning, LongestNumeral (d :: ds) m meaning → d :: ds = m ++ after →
      c.next = (meaning.token m after c.skipBlanks.pos,
        ⟨after, c.skipBlanks.pos.advanceAll m⟩)) ∧
    ∀ m n meaning t, LongestNumeral (d :: ds) m meaning →
      (meaning = .plain n ∨ meaning = .announced n) → c.next.1 = .ok t →
      t = ⟨.number, Nat.repr n, c.skipBlanks.pos⟩ := by
  have scanned (m after : List Char) (meaning : Meaning)
      (longest : LongestNumeral (d :: ds) m meaning) (split : d :: ds = m ++ after) :
      c.next = (meaning.token m after c.skipBlanks.pos,
        ⟨after, c.skipBlanks.pos.advanceAll m⟩) := by
    obtain ⟨token, taken, rest⟩ := longest.read digit split c.skipBlanks.pos
    simp only [Cursor.next, met, token, taken, rest]
  refine ⟨exists_longestNumeral digit ds, scanned, ?_⟩
  intro m n meaning t longest number ok
  obtain ⟨after, split⟩ := longest.begins
  rw [scanned m after meaning longest split.symm] at ok
  exact Meaning.eq_of_token number ok

-- The zero announces octal digits, and the point after them is not part of the numeral.
theorem numeral_scanned_octal :
    let c : Cursor := ⟨"\n 010.5".toList, .start⟩
    c.skipBlanks.rest = '0' :: "10.5".toList ∧
    c.next.1 = .ok ⟨.number, "8", ⟨2, 2, 2⟩⟩ ∧
    ∃ m after meaning, LongestNumeral ('0' :: "10.5".toList) m meaning ∧
      '0' :: "10.5".toList = m ++ after ∧
      c.next = (meaning.token m after ⟨2, 2, 2⟩, ⟨after, (⟨2, 2, 2⟩ : Position).advanceAll m⟩) := by
  intro c
  have met : c.skipBlanks.rest = '0' :: "10.5".toList := by decide
  have place : c.skipBlanks.pos = ⟨2, 2, 2⟩ := by decide
  obtain ⟨⟨m, meaning, longest⟩, scanned, _⟩ := numeral_scanned_by_longest_match met (by decide)
  obtain ⟨after, split⟩ := longest.begins
  have next := scanned m after meaning longest split.symm
  rw [place] at next
  exact ⟨met, by decide, m, after, meaning, longest, split.symm, next⟩

end PlZero
