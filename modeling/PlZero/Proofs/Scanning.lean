import PlZero.Proofs.LexemeReading

set_option autoImplicit false

namespace PlZero

open Number

theorem TokenKind.ofWord_eq_name_or_mem (word : List Char) :
    TokenKind.ofWord word = .name ∨ TokenKind.ofWord word ∈ keywords.map Prod.snd := by
  unfold TokenKind.ofWord
  cases found : keywords.lookup (String.ofList (word.map Char.toLower)) with
  | none => exact .inl rfl
  | some kind =>
    obtain ⟨before, after, eq, _⟩ := List.lookup_eq_some_iff.1 found
    exact .inr (by simp [eq])

theorem TokenKind.ofWord_ne (word : List Char) :
    TokenKind.ofWord word ≠ .eof ∧ TokenKind.ofWord word ≠ .number ∧
      TokenKind.ofWord word ≠ .string := by
  have others : ∀ kind ∈ keywords.map Prod.snd, kind ≠ .eof ∧ kind ≠ .number ∧ kind ≠ .string := by
    decide
  rcases ofWord_eq_name_or_mem word with name | mem
  · simp [name]
  · exact others _ mem

theorem symbolKind_ne (c : Char) :
    Lexeme.symbolKind c ≠ .eof ∧ Lexeme.symbolKind c ≠ .number ∧ Lexeme.symbolKind c ≠ .string := by
  unfold Lexeme.symbolKind
  split <;> simp

theorem pairKind_ne {c : Char} {kind : TokenKind} (h : pairKind? c = some kind) :
    kind ≠ .eof ∧ kind ≠ .number ∧ kind ≠ .string := by
  unfold pairKind? at h
  split at h <;> cases h <;> simp

theorem Lexical.kind_ne_eof {x r : List Char} {kind : TokenKind} {text : String}
    (lexeme : Lexical x r kind text) : kind ≠ .eof := by
  cases lexeme with
  | word => exact (TokenKind.ofWord_ne _).1
  | pair pair => exact (pairKind_ne pair).1
  | single => exact (symbolKind_ne _).1
  | _ => simp

/-- The text is made of the tokens' lexemes, with blanks before each. It starts at a position and
has another text after it. -/
inductive Spells : Position → List Char → List Token → List Char → Prop
  | nil {p : Position} {r : List Char} : Spells p [] [] r
  | cons {p : Position} {blanks x y r : List Char} {t : Token} {ts : List Token} :
      (∀ c ∈ blanks, isBlank c = true) → Lexical x (y ++ r) t.kind t.text →
      t.pos = p.advanceAll blanks → Spells (p.advanceAll (blanks ++ x)) y ts r →
      Spells p (blanks ++ (x ++ y)) (t :: ts) r

theorem Spells.cut {p : Position} {s r z : List Char} {ts : List Token} (spells : Spells p s ts r)
    (cut : Cut r z) : Spells p s ts z := by
  induction spells with
  | nil => exact .nil
  | cons blank lexeme pos _ ih => exact .cons blank (lexeme.cut (cut.append_left _)) pos (ih cut)

theorem Spells.append {p : Position} {s s' r : List Char} {ts ts' : List Token}
    (first : Spells p s ts (s' ++ r)) (second : Spells (p.advanceAll s) s' ts' r) :
    Spells p (s ++ s') (ts ++ ts') r := by
  generalize tail : s' ++ r = z at first
  induction first with
  | nil => exact second
  | @cons p blanks x y _ t ts blank lexeme pos _ ih =>
    subst tail
    rw [List.append_assoc, List.append_assoc]
    rw [← List.append_assoc y] at lexeme
    refine .cons blank lexeme pos (ih ?_ rfl)
    rwa [← Position.advanceAll_append, List.append_assoc]

theorem Cursor.next_of_lexical {p : Position} {blanks x r : List Char} {kind : TokenKind}
    {text : String} (blank : ∀ c ∈ blanks, isBlank c = true) (lexeme : Lexical x r kind text) :
    (Cursor.mk (blanks ++ (x ++ r)) p).next =
      (.ok ⟨kind, text, p.advanceAll blanks⟩, ⟨r, p.advanceAll (blanks ++ x)⟩) := by
  obtain ⟨c, xs, rfl, notBlank, read⟩ := lexeme.read
  have stop : Stops isBlank (c :: xs ++ r) := by rintro d ⟨⟩; exact notBlank
  have start : (Cursor.mk (blanks ++ (c :: xs ++ r)) p).skipBlanks =
      ⟨c :: (xs ++ r), p.advanceAll blanks⟩ := by
    simp only [Cursor.skipBlanks]
    rw [takeWhile_run blank stop, dropWhile_run blank stop]
    rfl
  simp only [Cursor.next, start, read, Lexeme.token, Position.advanceAll_append]

theorem Cursor.lexical_of_next {c c' : Cursor} {t : Token} (next : c.next = (.ok t, c'))
    (notEnd : t.kind ≠ .eof) :
    ∃ blanks x, c.rest = blanks ++ (x ++ c'.rest) ∧ (∀ d ∈ blanks, isBlank d = true) ∧
      Lexical x c'.rest t.kind t.text ∧ t.pos = c.pos.advanceAll blanks ∧
      c'.pos = c.pos.advanceAll (blanks ++ x) := by
  have stop := stop_of_dropWhile (q := isBlank) c.rest
  have split := List.takeWhile_append_dropWhile (p := isBlank) (l := c.rest)
  unfold Cursor.next Cursor.skipBlanks at next
  dsimp only at next
  split at next
  · cases next
    exact absurd rfl notEnd
  · next d ds rest =>
    rw [rest] at stop split
    obtain ⟨token, rfl⟩ := Prod.mk.inj next
    unfold Lexeme.token at token
    split at token
    · next kind text ok =>
      cases token
      refine ⟨c.rest.takeWhile isBlank, (Lexeme.read d ds).taken, ?_, run_of_takeWhile _,
        lexical_of_read (stop d rfl) ok, rfl, ?_⟩
      · rw [Lexeme.taken_append_rest, split]
      · rw [Position.advanceAll_append]
    · cases token

theorem Cursor.feed_of_next {c c' : Cursor} {t : Token} (next : c.next = (.ok t, c'))
    (notEnd : t.kind ≠ .eof) : c.feed = .cons t c'.feed := by
  rw [Cursor.feed]
  split
  · next t' after eq =>
    cases next.symm.trans eq
    simp [notEnd]
  · next f after eq => cases next.symm.trans eq

theorem Cursor.feed_blank {blanks : List Char} (blank : ∀ c ∈ blanks, isBlank c = true)
    (p : Position) : (Cursor.mk blanks p).feed = ⟨[], .ok (.endOfFile (p.advanceAll blanks))⟩ := by
  have stop : Stops isBlank [] := nofun
  have skipped : (Cursor.mk blanks p).skipBlanks = ⟨[], p.advanceAll blanks⟩ := by
    have whole := takeWhile_run blank stop
    have rest := dropWhile_run blank stop
    rw [List.append_nil] at whole rest
    simp only [Cursor.skipBlanks, whole, rest]
  have next := Cursor.next_of_ended (congrArg Cursor.rest skipped)
  rw [skipped] at next
  rw [Cursor.feed]
  split
  · next t after eq =>
    cases next.symm.trans eq
    simp [Token.endOfFile]
  · next f after eq => cases next.symm.trans eq

theorem Cursor.blank_of_feed {c : Cursor} {e : Token} (ended : c.feed = ⟨[], .ok e⟩) :
    ∀ d ∈ c.rest, isBlank d = true := by
  have skipped : c.skipBlanks.rest = [] := by
    by_contra more
    rw [Cursor.feed] at ended
    split at ended
    · next t after next =>
      split_ifs at ended with ends
      · obtain ⟨d, ds, rest⟩ := List.exists_cons_of_ne_nil more
        have stop : isBlank d = false := stop_of_dropWhile (q := isBlank) c.rest d (by
          rw [show c.rest.dropWhile isBlank = d :: ds from rest]; rfl)
        unfold Cursor.next at next
        simp only [rest, Lexeme.token] at next
        obtain ⟨token, _⟩ := Prod.mk.inj next
        split at token
        · next kind text ok =>
          cases token
          exact (lexical_of_read stop ok).kind_ne_eof ends
        · cases token
      · cases ended
    · cases ended
  exact List.dropWhile_eq_nil_iff.1 skipped

theorem Spells.feed {p : Position} {s r : List Char} {ts : List Token} (spells : Spells p s ts r) :
    (Cursor.mk (s ++ r) p).feed = ⟨ts ++ (Cursor.mk r (p.advanceAll s)).feed.tokens,
      (Cursor.mk r (p.advanceAll s)).feed.last⟩ := by
  induction spells with
  | nil => rfl
  | @cons p blanks x y r t ts blank lexeme pos _ ih =>
    have next := Cursor.next_of_lexical (p := p) blank lexeme
    rw [List.append_assoc, List.append_assoc, Cursor.feed_of_next next lexeme.kind_ne_eof, ih,
      ← Position.advanceAll_append, List.append_assoc, ← pos]
    rfl

theorem Cursor.spells_of_feed {c : Cursor} {ts more : List Token}
    (found : c.feed.tokens = ts ++ more) :
    ∃ s r, c.rest = s ++ r ∧ Spells c.pos s ts r ∧
      (Cursor.mk r (c.pos.advanceAll s)).feed = ⟨more, c.feed.last⟩ := by
  induction ts generalizing c with
  | nil =>
    rw [List.nil_append] at found
    exact ⟨[], c.rest, rfl, .nil, by rw [← found]; rfl⟩
  | cons t ts ih =>
    rw [Cursor.feed] at found
    split at found
    · next t' after next =>
      split_ifs at found with ends
      · cases found
      obtain ⟨rfl, later⟩ := List.cons.inj found
      obtain ⟨blanks, x, rest, blank, lexeme, pos, place⟩ := Cursor.lexical_of_next next ends
      obtain ⟨y, r, rest', spells, feed⟩ := ih later
      rw [rest'] at lexeme rest
      rw [place] at spells feed
      refine ⟨blanks ++ (x ++ y), r, by simp [rest], .cons blank lexeme pos spells, ?_⟩
      rw [← List.append_assoc, Position.advanceAll_append, feed, Cursor.feed_of_next next ends]
      rfl
    · cases found

end PlZero
