import Mathlib.Data.List.Induction
import Mathlib.Data.Nat.Digits.Defs
import Mathlib.Tactic.IntervalCases
import PlZero.Proofs.Scanning

set_option autoImplicit false

namespace PlZero

open Number

def Position.after (text : List Char) : Position :=
  ⟨text.length, 1 + text.count '\n', 1 + (text.reverse.takeWhile (· ≠ '\n')).length⟩

theorem Position.advanceAll_start (text : List Char) :
    Position.start.advanceAll text = Position.after text := by
  induction text using List.reverseRecOn with
  | nil => rfl
  | append_singleton text c ih =>
    rw [Position.advanceAll_append, ih, Position.advanceAll_cons, Position.advanceAll_nil]
    by_cases feed : c = '\n'
    · simp [Position.advance, Position.after, feed]
      omega
    · simp [Position.advance, Position.after, feed]
      omega

theorem digitsValue_eq_ofDigits (base : Nat) (ds : List Char) :
    digitsValue base ds = Nat.ofDigits base (ds.reverse.map digitValue) := by
  induction ds using List.reverseRecOn with
  | nil => rfl
  | append_singleton ds d ih =>
    have step : digitsValue base (ds ++ [d]) = digitsValue base ds * base + digitValue d := by
      simp [digitsValue]
    rw [step, ih, List.reverse_append, List.reverse_singleton, List.singleton_append,
      List.map_cons, Nat.ofDigits_cons, Nat.mul_comm, Nat.add_comm]

theorem digitValue_lt {c : Char} (digit : c.isDigit = true) : digitValue c < 10 := by
  have range : 48 ≤ c.toNat ∧ c.toNat ≤ 57 := Char.isDigit_iff_toNat.1 digit
  have value : digitValue c = c.toNat - 48 := by simp only [digitValue, digit, if_true]; rfl
  omega

theorem digitChar_digitValue {c : Char} (digit : c.isDigit = true) :
    Nat.digitChar (digitValue c) = c := by
  have range : 48 ≤ c.toNat ∧ c.toNat ≤ 57 := Char.isDigit_iff_toNat.1 digit
  have value : digitValue c = c.toNat - 48 := by simp only [digitValue, digit, if_true]; rfl
  rw [value, ← Char.toNat_inj]
  generalize c.toNat = n at range
  obtain ⟨low, high⟩ := range
  interval_cases n <;> rfl

theorem toDigits_digitsValue {c : Char} {xs : List Char} (digit : c.isDigit = true)
    (notZero : c ≠ '0') (run : ∀ a ∈ xs, a.isDigit = true) :
    Nat.toDigits 10 (digitsValue 10 (c :: xs)) = c :: xs ∧ 0 < digitsValue 10 (c :: xs) := by
  induction xs using List.reverseRecOn with
  | nil =>
    have value : digitsValue 10 [c] = digitValue c := by simp [digitsValue]
    rw [value, Nat.toDigits_of_lt_base (digitValue_lt digit), digitChar_digitValue digit]
    refine ⟨rfl, Nat.pos_of_ne_zero fun zero => notZero ?_⟩
    rw [← digitChar_digitValue digit, zero]
    rfl
  | append_singleton xs d ih =>
    obtain ⟨shown, positive⟩ := ih fun a mem => run a (by simp [mem])
    have last := run d (by simp)
    have step : digitsValue 10 (c :: (xs ++ [d])) = 10 * digitsValue 10 (c :: xs) + digitValue d := by
      simp [digitsValue, Nat.mul_comm]
    rw [step, ← Nat.toDigits_append_toDigits (by omega) positive (digitValue_lt last), shown,
      Nat.toDigits_of_lt_base (digitValue_lt last), digitChar_digitValue last]
    exact ⟨rfl, by omega⟩

/-- The number that a numeral denotes: decimal digits without a leading zero, or digits in the base
that the mark before them announces. -/
inductive Denotes : List Char → Nat → Prop
  | decimal {c : Char} {xs : List Char} : (∀ a ∈ c :: xs, a.isDigit = true) →
      (c = '0' → xs = []) → Denotes (c :: xs) (Nat.ofDigits 10 ((c :: xs).reverse.map digitValue))
  | radix {mark ds : List Char} {base : Nat} {isDigit : Char → Bool} :
      Radix mark base isDigit → ds ≠ [] → (∀ a ∈ ds, isDigit a = true) →
      Denotes (mark ++ ds) (Nat.ofDigits base (ds.reverse.map digitValue))

/-- How the text of a token comes from its lexeme. -/
inductive Carries : List Char → TokenKind → String → Prop
  | verbatim {x : List Char} {kind : TokenKind} : kind ≠ .number → kind ≠ .string →
      Carries x kind (String.ofList x)
  | string {quote : Char} {body : List Char} : quote = '\'' ∨ quote = '"' →
      Carries (quote :: (body ++ [quote])) .string (String.ofList body)
  | number {x : List Char} {n : Nat} : Denotes x n → Carries x .number (Nat.repr n)

theorem Lexical.carries {x r : List Char} {kind : TokenKind} {text : String}
    (lexeme : Lexical x r kind text) : Carries x kind text := by
  cases lexeme with
  | word => exact .verbatim (TokenKind.ofWord_ne _).2.1 (TokenKind.ofWord_ne _).2.2
  | zero => exact .number (.decimal (List.forall_mem_singleton.2 rfl) (fun _ => rfl))
  | radix announced some run stop short =>
    rw [digitsValue_eq_ofDigits]
    exact .number (.radix announced some run)
  | @decimal c xs _ digit notZero run stop point =>
    have shown := (toDigits_digitsValue digit notZero run).1
    rw [digitsValue_eq_ofDigits] at shown
    have whole : ∀ a ∈ c :: xs, a.isDigit = true := by simpa [digit] using run
    have carries := Carries.number (.decimal whole fun zero => absurd zero notZero)
    rwa [Nat.repr, shown] at carries
  | float => exact .verbatim (by simp) (by simp)
  | string quote _ => exact .string quote
  | pair pair => exact .verbatim (pairKind_ne pair).2.1 (pairKind_ne pair).2.2
  | single => exact .verbatim (symbolKind_ne _).2.1 (symbolKind_ne _).2.2

structure Piece where
  blanks : List Char
  lexeme : List Char
  token : Token
  isBlank_of_mem : ∀ c ∈ blanks, isBlank c = true
  lexeme_ne_nil : lexeme ≠ []
  carries : Carries lexeme token.kind token.text
  alone : (scan (String.ofList lexeme)).tokens = [⟨token.kind, token.text, .start⟩]

def Piece.text (p : Piece) : List Char := p.blanks ++ p.lexeme

def written (pieces : List Piece) : List Char := pieces.flatMap Piece.text

theorem Lexical.ne_nil {x r : List Char} {kind : TokenKind} {text : String}
    (lexeme : Lexical x r kind text) : x ≠ [] := by
  obtain ⟨c, xs, rfl, _⟩ := lexeme.read
  simp

theorem Lexical.alone {x r : List Char} {kind : TokenKind} {text : String}
    (lexeme : Lexical x r kind text) :
    (scan (String.ofList x)).tokens = [⟨kind, text, .start⟩] := by
  have cut : Lexical x ([] ++ []) kind text := lexeme.cut (.here nofun)
  have spells : Spells .start ([] ++ (x ++ [])) [⟨kind, text, .start⟩] [] :=
    .cons nofun cut rfl .nil
  have none : ∀ c ∈ ([] : List Char), isBlank c = true := nofun
  have feed := spells.feed
  rw [Cursor.feed_blank none] at feed
  simpa [scan, Cursor.ofSource] using congrArg Feed.tokens feed

theorem Spells.pieces {p : Position} {s r : List Char} {ts : List Token}
    (spells : Spells p s ts r) :
    ∃ pieces : List Piece, s = written pieces ∧ pieces.map Piece.token = ts ∧
      ∀ before piece after, pieces = before ++ piece :: after →
        piece.token.pos = p.advanceAll (written before ++ piece.blanks) := by
  induction spells with
  | nil => exact ⟨[], rfl, rfl, by simp⟩
  | @cons p blanks x y r t ts blank lexeme pos _ ih =>
    obtain ⟨pieces, text, tokens, places⟩ := ih
    let first : Piece := ⟨blanks, x, t, blank, lexeme.ne_nil, lexeme.carries, lexeme.alone⟩
    refine ⟨first :: pieces, ?_, by simp [tokens, first], ?_⟩
    · simp [written, Piece.text, first, text]
    · intro before piece after split
      cases before with
      | nil =>
        cases split
        exact pos
      | cons other before =>
        obtain ⟨rfl, rest⟩ := List.cons.inj split
        rw [places before piece after rest]
        simp [written, Piece.text, first, Position.advanceAll_append]

/-- A text that scans is its tokens' lexemes with blanks around them, and every token stands where
its lexeme does. -/
theorem scan_lossless {source : String} {e : Token} (finished : (scan source).last = .ok e) :
    ∃ (pieces : List Piece) (tail : List Char),
      source.toList = written pieces ++ tail ∧ (∀ c ∈ tail, isBlank c = true) ∧
      pieces.map Piece.token = (scan source).tokens ∧
      ∀ before piece after, pieces = before ++ piece :: after →
        piece.token.pos = Position.after (written before ++ piece.blanks) := by
  have found : (scan source).tokens = (scan source).tokens ++ [] := by simp
  obtain ⟨s, tail, text, spells, feed⟩ := Cursor.spells_of_feed found
  obtain ⟨pieces, rfl, tokens, places⟩ := spells.pieces
  refine ⟨pieces, tail, text, ?_, tokens, ?_⟩
  · exact Cursor.blank_of_feed (feed.trans (congrArg _ finished))
  · intro before piece after split
    rw [places before piece after split]
    exact Position.advanceAll_start _

theorem scan_lossless_numerals :
    (scan "x := 0x1F +\n 017 # 'a\nb\\'' @ 1.5 \t").last = .ok ⟨.eof, "", ⟨34, 3, 13⟩⟩ ∧
    ∃ (pieces : List Piece) (tail : List Char),
      "x := 0x1F +\n 017 # 'a\nb\\'' @ 1.5 \t".toList = written pieces ++ tail ∧
      (∀ c ∈ tail, isBlank c = true) ∧
      pieces.map Piece.token = (scan "x := 0x1F +\n 017 # 'a\nb\\'' @ 1.5 \t").tokens ∧
      ∀ before piece after, pieces = before ++ piece :: after →
        piece.token.pos = Position.after (written before ++ piece.blanks) := by
  have finished : (scan "x := 0x1F +\n 017 # 'a\nb\\'' @ 1.5 \t").last =
      .ok ⟨.eof, "", ⟨34, 3, 13⟩⟩ := by
    decide +kernel
  exact ⟨finished, scan_lossless finished⟩

end PlZero
