import Mathlib.Algebra.Ring.Parity
import Mathlib.Order.Bounds.Defs
import PlZero.Proofs.LosslessScanning

set_option autoImplicit false

namespace PlZero

def backslashesAtEnd (text : List Char) : Nat := (text.reverse.takeWhile (· == '\\')).length

theorem backslashesAtEnd_append_cons {c : Char} (other : c ≠ '\\') (before after : List Char) :
    backslashesAtEnd (before ++ c :: after) = backslashesAtEnd after := by
  unfold backslashesAtEnd
  rw [List.reverse_append, List.reverse_cons, List.append_assoc, List.takeWhile_append]
  split
  · next whole => simp [other, whole]
  · rfl

theorem backslashesAtEnd_cons {c : Char} (other : c ≠ '\\') (text : List Char) :
    backslashesAtEnd (c :: text) = backslashesAtEnd text :=
  backslashesAtEnd_append_cons other [] text

theorem backslashesAtEnd_replicate (n : Nat) :
    backslashesAtEnd (List.replicate n '\\') = n := by
  simp [backslashesAtEnd]

theorem eq_replicate_or_append_cons (text : List Char) :
    (∃ n, text = List.replicate n '\\') ∨
      ∃ before c after, c ≠ '\\' ∧ text = before ++ c :: after := by
  by_cases only : ∀ c ∈ text, c = '\\'
  · exact .inl ⟨text.length, List.eq_replicate_iff.2 ⟨rfl, only⟩⟩
  · push Not at only
    obtain ⟨c, mem, other⟩ := only
    obtain ⟨before, after, split⟩ := List.append_of_mem mem
    exact .inr ⟨before, c, after, other, split⟩

theorem even_backslashesAtEnd_escaped (c : Char) (text : List Char) :
    Even (backslashesAtEnd ('\\' :: c :: text)) ↔ Even (backslashesAtEnd text) := by
  rcases eq_replicate_or_append_cons text with ⟨n, rfl⟩ | ⟨before, d, after, other, rfl⟩
  · by_cases escape : c = '\\'
    · have longer : '\\' :: c :: List.replicate n '\\' = List.replicate (n + 2) '\\' := by
        rw [escape]
        rfl
      rw [longer, backslashesAtEnd_replicate, backslashesAtEnd_replicate, Nat.even_add]
      simp
    · rw [← backslashesAtEnd_append_cons escape ['\\'] (List.replicate n '\\')]
      rfl
  · have shifted : '\\' :: c :: (before ++ d :: after) = ('\\' :: c :: before) ++ d :: after := rfl
    rw [shifted, backslashesAtEnd_append_cons other, backslashesAtEnd_append_cons other]

structure Quotable (quote : Char) (body : List Char) : Prop where
  protects : ∀ before after, body = before ++ quote :: after → Odd (backslashesAtEnd before)
  ends : Even (backslashesAtEnd body)

section Strings

variable {quote : Char} {body text : List Char}

theorem getElem?_of_append {before after : List Char} {c : Char}
    (split : text = before ++ c :: after) :
    text[before.length]? = some c ∧ text.take before.length = before := by
  rw [split]
  simp

theorem quotable_iff : Quotable quote body ↔
    (∀ k < body.length, body[k]? = some quote → Odd (backslashesAtEnd (body.take k))) ∧
      Even (backslashesAtEnd body) := by
  constructor
  · rintro ⟨protects, ends⟩
    refine ⟨fun k less quoted => protects _ (body.drop (k + 1)) ?_, ends⟩
    obtain ⟨_, here⟩ := List.getElem?_eq_some_iff.1 quoted
    rw [← here, ← List.drop_eq_getElem_cons less, List.take_append_drop]
  · rintro ⟨protects, ends⟩
    refine ⟨fun before after split => ?_, ends⟩
    obtain ⟨quoted, taken⟩ := getElem?_of_append split
    have odd := protects before.length (List.getElem?_eq_some_iff.1 quoted).1 quoted
    rwa [taken] at odd

instance : Decidable (Quotable quote body) := decidable_of_iff' _ quotable_iff

theorem Enclosed.even_backslashes (enclosed : Enclosed quote body) :
    Even (backslashesAtEnd body) := by
  induction enclosed with
  | nil => exact ⟨0, rfl⟩
  | escaped _ ih => rwa [even_backslashesAtEnd_escaped]
  | plain noEscape _ _ ih => rwa [backslashesAtEnd_cons noEscape]

theorem Quotable.enclosed (quotable : Quotable quote body) : Enclosed quote body := by
  obtain ⟨protects, ends⟩ := quotable
  induction body using Lexeme.closeString.induct quote with
  | case1 => exact .nil
  | case2 => exact absurd ends (by decide)
  | case3 c cs ih =>
    have even := (even_backslashesAtEnd_escaped c cs).1 ends
    refine .escaped (ih (fun before after split => ?_) even)
    have odd := protects ('\\' :: c :: before) after (by rw [split]; rfl)
    rwa [← Nat.not_even_iff_odd, even_backslashesAtEnd_escaped, Nat.not_even_iff_odd] at odd
  | case4 cs => exact absurd (protects [] cs rfl) (by decide)
  | case5 c cs alone notEscape other ih =>
    have noEscape : c ≠ '\\' := by
      intro escape
      cases cs with
      | nil => exact alone escape rfl
      | cons d ds => exact notEscape d ds escape rfl
    rw [backslashesAtEnd_cons noEscape] at ends
    refine .plain noEscape other (ih (fun before after split => ?_) ends)
    have odd := protects (c :: before) after (by rw [split]; rfl)
    rwa [backslashesAtEnd_cons noEscape] at odd

theorem closeString_of_first {k : Nat} (noEscape : quote ≠ '\\') (found : text[k]? = some quote)
    (ends : Even (backslashesAtEnd (text.take k)))
    (first : ∀ l < k, text[l]? = some quote → ¬ Even (backslashesAtEnd (text.take l))) :
    Lexeme.closeString quote text = some (text.take k, text.drop (k + 1)) := by
  obtain ⟨within, here⟩ := List.getElem?_eq_some_iff.1 found
  have whole : text = text.take k ++ quote :: text.drop (k + 1) := by
    rw [← here, ← List.drop_eq_getElem_cons within, List.take_append_drop]
  have quotable : Quotable quote (text.take k) := by
    refine quotable_iff.2 ⟨fun l less quoted => ?_, ends⟩
    have before : l < k := Nat.lt_of_lt_of_le less (List.length_take_le k text)
    rw [List.getElem?_take_of_lt before] at quoted
    rw [List.take_take, Nat.min_eq_left before.le, ← Nat.not_even_iff_odd]
    exact first l before quoted
  calc Lexeme.closeString quote text
      = Lexeme.closeString quote (text.take k ++ quote :: text.drop (k + 1)) := by rw [← whole]
    _ = some (text.take k, text.drop (k + 1)) :=
      Lexeme.closeString_of_enclosed noEscape quotable.enclosed

theorem closeString_of_none
    (none : ∀ k, text[k]? = some quote → ¬ Even (backslashesAtEnd (text.take k))) :
    Lexeme.closeString quote text = .none := by
  cases closed : Lexeme.closeString quote text with
  | none => rfl
  | some parts =>
    obtain ⟨body, rest⟩ := parts
    obtain ⟨quoted, taken⟩ := getElem?_of_append (Lexeme.append_of_closeString closed).symm
    have even := (Lexeme.enclosed_of_closeString closed).even_backslashes
    rw [← taken] at even
    exact absurd even (none _ quoted)

end Strings

def Cursor.at (source : List Char) (i : Nat) : Cursor :=
  ⟨source.drop i, Position.after (source.take i)⟩

/-- A quote that ends a string, if no quote before it does: it stands after the opening quote, and
the backslashes right before it are even in number. -/
structure Closes (source : List Char) (quote : Char) (i j : Nat) : Prop where
  later : i < j
  quoted : source[j]? = some quote
  unprotected : Even (backslashesAtEnd (source.extract (i + 1) j))

instance (source : List Char) (quote : Char) (i j : Nat) : Decidable (Closes source quote i j) :=
  decidable_of_iff (i < j ∧ source[j]? = some quote ∧
      Even (backslashesAtEnd (source.extract (i + 1) j)))
    ⟨fun ⟨later, quoted, unprotected⟩ => ⟨later, quoted, unprotected⟩,
      fun closes => ⟨closes.later, closes.quoted, closes.unprotected⟩⟩

section Sources

variable {source : List Char} {quote : Char} {i j k : Nat}

theorem closes_add : Closes source quote i (i + 1 + k) ↔
    (source.drop (i + 1))[k]? = some quote ∧
      Even (backslashesAtEnd ((source.drop (i + 1)).take k)) := by
  have inside : source.extract (i + 1) (i + 1 + k) = (source.drop (i + 1)).take k := by simp
  rw [List.getElem?_drop, ← inside]
  exact ⟨fun closes => ⟨closes.quoted, closes.unprotected⟩,
    fun closes => ⟨by omega, closes.1, closes.2⟩⟩

theorem take_append_extract (le : i ≤ j) : source.take i ++ source.extract i j = source.take j := by
  obtain ⟨k, rfl⟩ := Nat.exists_eq_add_of_le le
  simp [List.take_add]

theorem extract_append_drop (source : List Char) (le : i ≤ j) :
    source.extract i j ++ source.drop j = source.drop i := by
  obtain ⟨k, rfl⟩ := Nat.exists_eq_add_of_le le
  simp [← List.drop_drop]

theorem Position.advanceAll_extract (le : i ≤ j) :
    (Position.after (source.take i)).advanceAll (source.extract i j) =
      Position.after (source.take j) := by
  rw [← take_append_extract le, ← Position.advanceAll_start, ← Position.advanceAll_start,
    Position.advanceAll_append]

namespace Cursor

theorem skipBlanks_at (le : k ≤ i) (blank : ∀ c ∈ source.extract k i, isBlank c = true)
    (stop : Stops isBlank (source.drop i)) :
    (Cursor.at source k).skipBlanks = Cursor.at source i := by
  unfold skipBlanks Cursor.at
  dsimp only
  rw [← extract_append_drop source le, takeWhile_run blank stop, dropWhile_run blank stop,
    Position.advanceAll_extract le]

theorem next_at_quote (isQuote : quote = '\'' ∨ quote = '"') (met : source[i]? = some quote)
    (le : k ≤ i) (blank : ∀ c ∈ source.extract k i, isBlank c = true) :
    source.drop i = quote :: source.drop (i + 1) ∧ (Cursor.at source k).next =
      ((Lexeme.string quote (source.drop (i + 1))).token (Position.after (source.take i)),
        ⟨(Lexeme.string quote (source.drop (i + 1))).rest,
          (Position.after (source.take i)).advanceAll
            (Lexeme.string quote (source.drop (i + 1))).taken⟩) := by
  obtain ⟨within, here⟩ := List.getElem?_eq_some_iff.1 met
  have opened : source.drop i = quote :: source.drop (i + 1) := by
    rw [← here, ← List.drop_eq_getElem_cons within]
  have stop : Stops isBlank (source.drop i) := by
    rw [opened]
    rintro _ ⟨⟩
    rcases isQuote with rfl | rfl <;> decide
  have start := skipBlanks_at le blank stop
  refine ⟨opened, ?_⟩
  simp only [next, start]
  simp only [Cursor.at, opened, Lexeme.read_string isQuote]

theorem next_of_closes (isQuote : quote = '\'' ∨ quote = '"') (met : source[i]? = some quote)
    (le : k ≤ i) (blank : ∀ c ∈ source.extract k i, isBlank c = true)
    (least : IsLeast {j | Closes source quote i j} j) : (Cursor.at source k).next =
      (.ok ⟨.string, String.ofList (source.extract (i + 1) j), Position.after (source.take i)⟩,
        Cursor.at source (j + 1)) := by
  have noEscape : quote ≠ '\\' := by rcases isQuote with rfl | rfl <;> decide
  obtain ⟨closes, first⟩ := least
  obtain ⟨l, rfl⟩ := Nat.exists_eq_add_of_le (Nat.succ_le_of_lt closes.later)
  obtain ⟨found, ends⟩ := closes_add.1 closes
  have closed := closeString_of_first noEscape found ends fun l' less quoted even => by
    have bound := first (closes_add.2 ⟨quoted, even⟩)
    omega
  have body : (source.drop (i + 1)).take l = source.extract (i + 1) (i + 1 + l) := by simp
  have rest : (source.drop (i + 1)).drop (l + 1) = source.drop (i + 1 + l + 1) := by
    rw [List.drop_drop, Nat.add_assoc (i + 1)]
  rw [body, rest] at closed
  obtain ⟨opened, scanned⟩ := next_at_quote isQuote met le blank
  have taken : quote :: (source.extract (i + 1) (i + 1 + l) ++ [quote]) =
      source.extract i (i + 1 + l + 1) := by
    have whole := extract_append_drop source (show i ≤ i + 1 + l + 1 by omega)
    have parts := Lexeme.append_of_closeString closed
    rw [opened, ← parts] at whole
    refine List.append_cancel_right (whole.trans ?_).symm
    simp
  simp only [Lexeme.string, closed] at scanned
  rw [scanned, taken, Position.advanceAll_extract (by omega)]
  rfl

theorem next_of_unclosed (isQuote : quote = '\'' ∨ quote = '"') (met : source[i]? = some quote)
    (le : k ≤ i) (blank : ∀ c ∈ source.extract k i, isBlank c = true)
    (none : ∀ j, ¬ Closes source quote i j) : (Cursor.at source k).next =
      (.error (.ofCauseAt (Position.after (source.take i)) .unterminatedString),
        Cursor.at source source.length) := by
  have unclosed : Lexeme.closeString quote (source.drop (i + 1)) = .none :=
    closeString_of_none fun l quoted even => none _ (closes_add.2 ⟨quoted, even⟩)
  obtain ⟨opened, scanned⟩ := next_at_quote isQuote met le blank
  obtain ⟨within, _⟩ := List.getElem?_eq_some_iff.1 met
  have taken : quote :: source.drop (i + 1) = source.extract i source.length := by
    have whole := extract_append_drop source within.le
    rwa [List.drop_length, List.append_nil, opened, eq_comm] at whole
  simp only [Lexeme.string, unclosed] at scanned
  rw [scanned, taken, Position.advanceAll_extract within.le]
  simp [Lexeme.token, Flaw.failure, Cursor.at]

end Cursor

end Sources

theorem scan_quoted {quote : Char} {text : List Char} (isQuote : quote = '\'' ∨ quote = '"')
    (quotable : Quotable quote text) : scan (String.ofList (quote :: (text ++ [quote]))) =
      ⟨[⟨.string, String.ofList text, .start⟩],
        .ok (.endOfFile (Position.after (quote :: (text ++ [quote]))))⟩ := by
  have lexeme : Lexical (quote :: (text ++ [quote])) [] .string (String.ofList text) :=
    .string isQuote quotable.enclosed
  have none : ∀ c ∈ ([] : List Char), isBlank c = true := nofun
  have next := Cursor.next_of_lexical (p := .start) none lexeme
  have ended := Cursor.feed_blank none (Position.start.advanceAll (quote :: (text ++ [quote])))
  rw [List.nil_append, List.append_nil, List.nil_append] at next
  rw [scan, Cursor.ofSource, String.toList_ofList, ← Position.advanceAll_start,
    Cursor.feed_of_next next lexeme.kind_ne_eof, ended]
  rfl

/-- A quote that starts a token starts a string, which goes up to the first quote of its kind that
is not protected by backslashes; where there is none, the string is unterminated and all of the
source is taken. So a text that protects the quotes in it is read back from between two quotes. -/
theorem string_scanned_to_closing_quote {quote : Char} (isQuote : quote = '\'' ∨ quote = '"') :
    (∀ (source : List Char) (k i : Nat), source[i]? = some quote → k ≤ i →
      (∀ c ∈ source.extract k i, isBlank c = true) →
      (∀ j, IsLeast {j | Closes source quote i j} j → (Cursor.at source k).next =
        (.ok ⟨.string, String.ofList (source.extract (i + 1) j), Position.after (source.take i)⟩,
          Cursor.at source (j + 1))) ∧
      ((∀ j, ¬ Closes source quote i j) → (Cursor.at source k).next =
        (.error (.ofCauseAt (Position.after (source.take i)) .unterminatedString),
          Cursor.at source source.length))) ∧
    ∀ text, Quotable quote text → scan (String.ofList (quote :: (text ++ [quote]))) =
      ⟨[⟨.string, String.ofList text, .start⟩],
        .ok (.endOfFile (Position.after (quote :: (text ++ [quote]))))⟩ := by
  constructor
  · intro source k i met le blank
    constructor
    · intro j least
      exact Cursor.next_of_closes isQuote met le blank least
    · intro none
      exact Cursor.next_of_unclosed isQuote met le blank none
  · intro text quotable
    exact scan_quoted isQuote quotable

-- Three backslashes before the first quote inside, two before the one that closes; a line ends in
-- between. The other string has its only other quote protected.
theorem string_scanned_escaped :
    let source := "\n \"a\\\\\\\"b\nc\\\\\" y".toList
    let other := "'\\'".toList
    (source[2]? = some '"' ∧ (∀ c ∈ source.extract 0 2, isBlank c = true) ∧
      IsLeast {j | Closes source '"' 2 j} 13 ∧
      (Cursor.at source 0).next = (.ok ⟨.string, "a\\\\\\\"b\nc\\\\", ⟨2, 2, 2⟩⟩,
        ⟨" y".toList, ⟨14, 3, 5⟩⟩)) ∧
    (other[0]? = some '\'' ∧ (∀ j, ¬ Closes other '\'' 0 j) ∧
      (Cursor.at other 0).next = (.error (.ofCauseAt .start .unterminatedString),
        ⟨[], ⟨3, 1, 4⟩⟩)) ∧
    Quotable '\'' "it\\'s".toList ∧ (scan "'it\\'s'").tokens = [⟨.string, "it\\'s", .start⟩] := by
  intro source other
  have met : source[2]? = some '"' := by decide
  have blank : ∀ c ∈ source.extract 0 2, isBlank c = true := List.all_eq_true.1 (by decide)
  have least : IsLeast {j | Closes source '"' 2 j} 13 := by
    refine ⟨show Closes source '"' 2 13 by decide, fun j closes => ?_⟩
    have earlier : ∀ j < 13, ¬ Closes source '"' 2 j := by decide
    exact Nat.le_of_not_lt fun less => earlier j less closes
  have opened : other[0]? = some '\'' := by decide
  have none : ∀ j, ¬ Closes other '\'' 0 j := by
    have within : ∀ j < 3, ¬ Closes other '\'' 0 j := by decide
    exact fun j closes => within j (List.getElem?_eq_some_iff.1 closes.quoted).1 closes
  have quotable : Quotable '\'' "it\\'s".toList := by decide
  have double : '"' = '\'' ∨ '"' = '"' := .inr rfl
  have single : '\'' = '\'' ∨ '\'' = '"' := .inl rfl
  have scanned := (string_scanned_to_closing_quote double).1 source 0 2 met (by decide) blank
  have alone := string_scanned_to_closing_quote single
  refine ⟨⟨met, blank, least, ?_⟩, ⟨opened, none, ?_⟩, quotable, ?_⟩
  · exact scanned.1 13 least
  · exact (alone.1 other 0 0 opened le_rfl nofun).2 none
  · exact congrArg Feed.tokens (alone.2 _ quotable)

end PlZero
