import PlZero.Proofs.Completion
import PlZero.Proofs.OpenedSequences
import PlZero.Proofs.Recognition
import PlZero.Proofs.Scanning

set_option autoImplicit false

namespace PlZero

open Phrase

theorem Feed.exists_tokens_of_stream {f : Feed} {before rest : List Token} {t : Token}
    (stream : f.stream = before ++ t :: rest) : ∃ more, f.tokens = before ++ more := by
  unfold Feed.stream at stream
  split at stream
  · next e last =>
    rcases List.append_eq_append_iff.1 stream with ⟨v, rfl, later⟩ | ⟨v, tokens, _⟩
    · cases v with
      | nil => exact ⟨[], by simp⟩
      | cons => simp at later
    · exact ⟨v, tokens⟩
  · exact ⟨t :: rest, by simpa using stream⟩

theorem exists_scan_append {source : String} {before rest : List Token} {t : Token}
    (stream : (scan source).stream = before ++ t :: rest) {c : List TokenKind}
    (spelled : ∀ k ∈ c, k.spelling ≠ []) :
    ∃ completed cs e, cs.map Token.kind = c ∧ (scan completed).tokens = before ++ cs ∧
      (scan completed).last = .ok e := by
  obtain ⟨more, found⟩ := Feed.exists_tokens_of_stream stream
  obtain ⟨s, r, _, spells, _⟩ := Cursor.spells_of_feed found
  obtain ⟨cs, kinds, spells'⟩ := spells_spaced spelled (Position.start.advanceAll s)
  have before' : Spells .start s before (spaced c ++ []) := by
    rw [List.append_nil]
    exact spells.cut (.here (calm_spaced c))
  have feed := (before'.append spells').feed
  have none : ∀ b ∈ ([] : List Char), isBlank b = true := nofun
  rw [Cursor.feed_blank none, List.append_nil, List.append_nil] at feed
  obtain ⟨completed, text⟩ : ∃ completed : String, completed.toList = s ++ spaced c :=
    ⟨.ofList _, String.toList_ofList⟩
  rw [← text] at feed
  exact ⟨completed, cs, _, kinds, congrArg Feed.tokens feed, congrArg Feed.last feed⟩

theorem completed_of_stuck {limit : Nat} {source : String} {before rest : List Token} {t : Token}
    (stream : (scan source).stream = before ++ t :: rest)
    (stuck : StuckProgram limit before t) :
    ∃ completed more p, (scan completed).tokens = before ++ more ∧
      ∀ higher, limit + 4 ≤ higher → parseWithin higher completed = .ok p := by
  obtain ⟨c, spelled, done⟩ := program_viable stuck
  obtain ⟨completed, cs, e, kinds, tokens, last⟩ := exists_scan_append stream spelled
  obtain ⟨p, program⟩ := done cs kinds
  refine ⟨completed, cs, p, tokens, fun higher le => parseWithin_of_isProgram last ?_⟩
  rw [tokens]
  exact program.lift le

theorem rejected_of_parseWithin {limit : Nat} {source : String} {cause : SyntaxFault}
    {line column : Int} (refused : parseWithin limit source = .error (.report ⟨cause, line, column⟩))
    (syntactic : cause.kind = .unexpectedToken) (shallow : ∀ kind, cause ≠ .nestedTooDeeply kind) :
    ∃ before t rest, (scan source).stream = before ++ t :: rest ∧ t.pos.line = line ∧
      t.pos.column = column ∧ StuckProgram limit before t := by
  have outcome := parseWithin_outcome limit source
  rw [refused] at outcome
  generalize failure : Failure.report ⟨cause, line, column⟩ = f at outcome
  generalize result : (Except.error f : Except (Failure SyntaxFault) Program) = x at outcome
  cases outcome with
  | accepted => cases result
  | nesting nesting =>
    cases result
    obtain ⟨pos, kind, rfl⟩ := nesting
    cases failure
    exact absurd rfl (shallow kind)
  | unscanned last =>
    cases result
    obtain ⟨pos, flaw, rfl⟩ := Cursor.failure_of_feed last
    cases flaw <;> cases failure <;> cases syntactic
  | rejected stream _ stuck =>
    cases result
    cases failure
    exact ⟨_, _, _, stream, rfl, rfl, stuck⟩

theorem not_begins_of_stuck {limit higher : Nat} {other : String} {p : Program}
    {before : List Token} {t : Token} (stuck : StuckProgram limit before t)
    (accepted : parseWithin higher other = .ok p) :
    ¬ (before ++ [t]).map Token.kind <+: (scan other).stream.map Token.kind := by
  obtain ⟨⟨e, last⟩, derived⟩ := derives_of_parseWithin accepted
  have whole : (scan other).stream.map Token.kind = _ := kinds_stream last
  rw [whole, List.map_append]
  exact stuck.hopeless derived

-- Trees are not compared, so whether a reading fails is decided by the failure alone.
local instance decidableEqError {ε α : Type} [DecidableEq ε] (r : Except ε α) (f : ε) :
    Decidable (r = .error f) :=
  match r with
  | .ok _ => .isFalse nofun
  | .error g => decidable_of_iff (g = f) (by simp)

/-- The first token that does not fit is the one at which a text is refused: what stands before it
can be completed to a program, and with it there is no program left. The completion is a program
within the limit if the text was refused four levels below the limit as well. -/
theorem parse_refuses_first_hopeless_token {source : String} {cause : SyntaxFault}
    {line column : Int} (refused : parse source = .error (.report ⟨cause, line, column⟩))
    (syntactic : cause.kind = .unexpectedToken) (shallow : ∀ kind, cause ≠ .nestedTooDeeply kind) :
    ∃ before t rest, (scan source).stream = before ++ t :: rest ∧ t.pos.line = line ∧
      t.pos.column = column ∧
      (∃ completed more p, (scan completed).tokens = before ++ more ∧
        parseWithin (Grammar.nestingLimit + 4) completed = .ok p ∧
        (parseWithin (Grammar.nestingLimit - 4) source = parse source →
          parse completed = .ok p)) ∧
      ∀ limit other p, parseWithin limit other = .ok p →
        ¬ (before ++ [t]).map Token.kind <+: (scan other).stream.map Token.kind := by
  by_cases room : parseWithin (Grammar.nestingLimit - 4) source = parse source
  · obtain ⟨before, t, rest, stream, atLine, atColumn, stuck⟩ :=
      rejected_of_parseWithin (room.trans refused) syntactic shallow
    obtain ⟨completed, more, p, tokens, accepted⟩ := completed_of_stuck stream stuck
    exact ⟨before, t, rest, stream, atLine, atColumn,
      ⟨completed, more, p, tokens, accepted _ (by decide), fun _ => accepted _ (by decide)⟩,
      fun _ _ _ => not_begins_of_stuck stuck⟩
  · obtain ⟨before, t, rest, stream, atLine, atColumn, stuck⟩ :=
      rejected_of_parseWithin refused syntactic shallow
    obtain ⟨completed, more, p, tokens, accepted⟩ := completed_of_stuck stream stuck
    exact ⟨before, t, rest, stream, atLine, atColumn,
      ⟨completed, more, p, tokens, accepted _ le_rfl, fun same => absurd same room⟩,
      fun _ _ _ => not_begins_of_stuck stuck⟩

theorem parse_refuses_missing_assign :
    parse "procedure p;\nbegin x := 1;\n y 2 end." =
      .error (.report ⟨.expected .assign (.afterTarget "y") .number, 3, 4⟩) ∧
    ∃ before t rest,
      (scan "procedure p;\nbegin x := 1;\n y 2 end.").stream = before ++ t :: rest ∧
      t.pos.line = 3 ∧ t.pos.column = 4 ∧
      (∃ completed more p, (scan completed).tokens = before ++ more ∧ parse completed = .ok p) ∧
      ∀ limit other p, parseWithin limit other = .ok p →
        ¬ (before ++ [t]).map Token.kind <+: (scan other).stream.map Token.kind := by
  have refused : parse "procedure p;\nbegin x := 1;\n y 2 end." =
      .error (.report ⟨.expected .assign (.afterTarget "y") .number, 3, 4⟩) := by
    decide +kernel
  have room : parseWithin (Grammar.nestingLimit - 4) "procedure p;\nbegin x := 1;\n y 2 end." =
      parse "procedure p;\nbegin x := 1;\n y 2 end." := by
    rw [refused]
    decide +kernel
  obtain ⟨before, t, rest, stream, atLine, atColumn, ⟨completed, more, p, tokens, _, within⟩,
    hopeless⟩ := parse_refuses_first_hopeless_token refused rfl nofun
  exact ⟨refused, before, t, rest, stream, atLine, atColumn,
    ⟨completed, more, p, tokens, within room⟩, hopeless⟩

-- With all nesting used up there is still a name, but no room for what is assigned to it.
theorem deepest_name_has_no_completion :
    ∃ name e, (scan (openedText 4999)).last = .ok e ∧
      parse (openedText 4999) =
        .error (.ofCauseAt e.pos (.expected .assign (.afterTarget name) .eof)) ∧
      ¬ ∃ completed more p, (scan completed).tokens = (scan (openedText 4999)).tokens ++ more ∧
        parse completed = .ok p := by
  obtain ⟨name, e, last, refused⟩ := parseWithin_opened (n := 4999) (Nat.le_refl 10000)
  refine ⟨name, e, last, refused, ?_⟩
  rintro ⟨completed, more, p, tokens, accepted⟩
  exact not_accepted_of_opened (by decide) accepted ⟨more, tokens.symm⟩

end PlZero
