import PlZero.Proofs.FragmentReading
import PlZero.Proofs.WrittenExpression

set_option autoImplicit false

namespace PlZero

namespace Rule

variable {α β : Type}

def Within (x y : Rule α) : Prop :=
  ∀ r, x r = y r ∨ ∃ s, x r = .error (.breakdown .exhausted) s

theorem Within.refl (x : Rule α) : x.Within x := fun _ => .inl rfl

theorem Within.exhausted (y : Rule α) : Rule.exhausted.Within y := fun r => .inr ⟨r, rfl⟩

theorem Within.bind {x y : Rule α} {f g : α → Rule β} (first : x.Within y)
    (next : ∀ a, (f a).Within (g a)) : (x >>= f).Within (y >>= g) := by
  intro r
  rcases first r with same | ⟨s, used⟩
  · cases result : y r with
    | ok a s =>
      rw [bind_run (same.trans result), bind_run result]
      exact next a s
    | error fault s =>
      rw [bind_error (same.trans result), bind_error result]
      exact .inl rfl
  · exact .inr ⟨s, bind_error used⟩

end Rule

namespace Grammar

open Rule

variable {n m : Nat}

theorem factor_within (factors : (factor n).Within (factor m))
    (expressions : (expression n).Within (expression m)) :
    (factor (n + 1)).Within (factor (m + 1)) := by
  unfold factor
  refine .bind (.refl _) fun token => ?_
  split
  · exact .refl _
  · split
    · exact .refl _
    · split
      · refine .bind (.refl _) fun _ => .bind (.refl _) fun word => ?_
        split
        · exact .bind (.refl _) fun _ => .bind (.refl _) fun _ => .bind factors fun _ => .refl _
        · exact .bind expressions fun _ => .refl _
      · exact .refl _

theorem unary_within (factors : (factor n).Within (factor m))
    (unaries : (unary n).Within (unary m)) : (unary (n + 1)).Within (unary (m + 1)) := by
  unfold unary
  refine .bind (.refl _) fun token => ?_
  split
  · exact factors
  · exact .bind (.refl _) fun _ => .bind unaries fun _ => .refl _

theorem term_within (unaries : (unary n).Within (unary m)) (terms : (term n).Within (term m)) :
    (term (n + 1)).Within (term (m + 1)) := by
  unfold term
  refine .bind (.refl _) fun start => .bind unaries fun left => .bind (.refl _) fun sign => ?_
  split
  · exact .refl _
  · exact .bind (.refl _) fun _ => .bind terms fun _ => .refl _

theorem expression_within (terms : (term n).Within (term m))
    (expressions : (expression n).Within (expression m)) :
    (expression (n + 1)).Within (expression (m + 1)) := by
  unfold expression
  refine .bind (.refl _) fun start => .bind terms fun left => .bind (.refl _) fun sign => ?_
  split
  · exact .refl _
  · exact .bind (.refl _) fun _ => .bind expressions fun _ => .refl _

theorem arithmetic_within (le : n ≤ m) :
    (factor n).Within (factor m) ∧ (unary n).Within (unary m) ∧ (term n).Within (term m) ∧
      (expression n).Within (expression m) := by
  induction n generalizing m with
  | zero => exact ⟨.exhausted _, .exhausted _, .exhausted _, .exhausted _⟩
  | succ n ih =>
    obtain ⟨m, rfl⟩ := Nat.exists_eq_add_of_le' (Nat.lt_of_lt_of_le (Nat.succ_pos n) le)
    obtain ⟨factors, unaries, terms, expressions⟩ := ih (m := m) (by omega)
    exact ⟨factor_within factors expressions, unary_within factors unaries,
      term_within unaries terms, expression_within terms expressions⟩

theorem expression_reads_writing {e : Node} (formed : WellFormed.Expression (fun _ _ => True) e)
    {u : List Token} (written : u.map Token.face = e.writing) {r s : Reader} (reads : r.Reads u s)
    (ends : ∀ k ∈ [TokenKind.plus, .minus, .star, .slash], s.current.kind ≠ k) (n : Nat) :
    if e.nestingAt .expression ≤ n then
      ∃ a, expression n r = .ok a s ∧ a.erase = e.erase
    else
      ∃ s', expression n r = .error (.breakdown .exhausted) s' := by
  have stops : Phrase.EndsExpression s.current.kind := by
    generalize s.current.kind = k at ends
    cases k <;> first | exact ⟨rfl, rfl⟩ | simp at ends
  rw [← Node.writingAt_expression] at written
  obtain ⟨a, phrase, same⟩ := formed.readBack.at .expression s.current written stops
  have enough : expression (e.nestingAt .expression) r = .ok a s :=
    (arithmetic_runs _).2.2.2 phrase reads
  split
  · next le => exact ⟨a, (arithmetic_runs n).2.2.2 (phrase.lift le) reads, same⟩
  · next more =>
    rcases (arithmetic_within (Nat.le_of_not_le more)).2.2.2 r with less | used
    · obtain ⟨v, _, phrase⟩ := ((arithmetic_follows n).2.2.2 r).exists_of_ok (less.trans enough)
      have shaped : WellFormed.Shaped (fun _ _ => True) .expression n :=
        WellFormed.arithmetic_shaped .expression n
      have bound := (shaped phrase fun _ _ _ => trivial).2
      rw [Node.nestingAt_eq_of_erase same] at bound
      exact absurd bound more
    · exact used

-- `(a - b) * -(int) c` before a semicolon.
theorem expression_reads_product :
    let token (k : TokenKind) (text : String) : Token := ⟨k, text, .start⟩
    let named (name : String) : Node := .identifier ⟨.start, name⟩
    let end' := token .semicolon ";"
    let e : Node := .binary .start .star (.binary .start .minus (named "a") (named "b"))
      (.unary .start .minus (.typecast .start .integer (named "c")))
    let rest := [token .name "a", token .minus "-", token .name "b", token .rightParen ")",
      token .star "*", token .minus "-", token .leftParen "(", token .intWord "INT",
      token .rightParen ")", token .name "c"]
    (token .leftParen "(" :: rest).map Token.face = e.writing ∧
      ∃ a, expression 10 ⟨token .leftParen "(", ⟨rest ++ [end'], .ok end'⟩, 0⟩ =
        .ok a ⟨end', ⟨[], .ok end'⟩, 0⟩ ∧ a.erase = e.erase := by
  intro token named end' e rest
  have formed : WellFormed.Expression (fun _ _ => True) e :=
    .binary nofun (.binary nofun (.identifier trivial) (.identifier trivial))
      (.unary nofun (.typecast nofun (.identifier trivial)))
  have written : (token .leftParen "(" :: rest).map Token.face = e.writing := by decide
  have reads : Reader.Reads ⟨token .leftParen "(", ⟨rest ++ [end'], .ok end'⟩, 0⟩
      (token .leftParen "(" :: rest) ⟨end', ⟨[], .ok end'⟩, 0⟩ := by
    iterate 11 refine .cons nofun rfl ?_
    exact .nil
  have whole := expression_reads_writing formed written reads (by decide) 10
  rw [if_pos (by decide)] at whole
  exact ⟨written, whole⟩

-- Chains group to the right, products bind tighter than sums, signs tighter than both, and a cast
-- takes one factor.
example (a b c : Identifier) (pos : Position) :
    (Node.binary pos .minus (.identifier a) (.binary pos .plus (.identifier b)
      (.identifier c))).writing =
      [a.face, TokenKind.minus.face, b.face, TokenKind.plus.face, c.face] := rfl

example (a b c : Identifier) (pos : Position) :
    (Node.binary pos .plus (.binary pos .star (.unary pos .minus (.identifier a))
      (.identifier b)) (.typecast pos .float (.identifier c))).writing =
      [TokenKind.minus.face, a.face, TokenKind.star.face, b.face, TokenKind.plus.face,
        TokenKind.leftParen.face, TokenKind.floatWord.face, TokenKind.rightParen.face, c.face] :=
  rfl

end Grammar

end PlZero
