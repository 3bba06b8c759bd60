import PlZero.Proofs.PhraseDerives
import PlZero.Proofs.ProgramReading

set_option autoImplicit false

namespace PlZero

open Phrase

variable {limit : Nat} {source : String}

theorem Derives.mem_before_eof {w : List TokenKind} (h : Derives (.category .program) w) :
    w ++ [.eof] ∈ lang .program * {[.eof]} :=
  Language.append_mem_mul h rfl

theorem Phrase.StuckProgram.hopeless {u : List Token} {t : Token} (stuck : StuckProgram limit u t)
    {w : List TokenKind} (h : Derives (.category .program) w) :
    ¬ (kinds u ++ [t.kind]) <+: w ++ [.eof] := by
  intro begins
  obtain ⟨_, impossible, _⟩ := program_stuck stuck _ h.mem_before_eof begins
  exact Language.notMem_zero _ impossible

theorem kinds_stream {e : Token} (last : (scan source).last = .ok e) :
    kinds (scan source).stream = kinds (scan source).tokens ++ [.eof] := by
  have ends := (scan_proper source).ends e last
  simp [Feed.stream, last, ends]

theorem derives_of_parseWithin {p : Program} (h : parseWithin limit source = .ok p) :
    (∃ e, (scan source).last = .ok e) ∧
      Derives (.category .program) (kinds (scan source).tokens) := by
  have outcome := parseWithin_outcome limit source
  rw [h] at outcome
  cases outcome with
  | accepted last phrase => exact ⟨⟨_, last⟩, program_derives phrase⟩

theorem isNesting_of_derives {e : Token} {f : Failure SyntaxFault}
    (last : (scan source).last = .ok e)
    (derived : Derives (.category .program) (kinds (scan source).tokens))
    (h : parseWithin limit source = .error f) : f.IsNesting := by
  have outcome := parseWithin_outcome limit source
  rw [h] at outcome
  cases outcome with
  | nesting nesting => exact nesting
  | unscanned fault =>
    rw [last] at fault
    cases fault
  | @rejected u rest t cause stream _ stuck =>
    refine absurd ⟨kinds rest, ?_⟩ (stuck.hopeless derived)
    rw [← kinds_stream last, stream]
    simp

/-- A text is a program exactly if it scans and its tokens derive from the grammar, in whichever of
the ways that the grammar leaves open. -/
theorem parse_ok_iff_derives
    (shallow : ∀ f, parse source = .error f → ¬ f.IsNesting) :
    (∃ p, parse source = .ok p) ↔
      (∃ e, (scan source).last = .ok e) ∧
        Derives (.category .program) ((scan source).tokens.map Token.kind) := by
  constructor
  · rintro ⟨p, h⟩
    exact derives_of_parseWithin h
  · rintro ⟨⟨e, last⟩, derived⟩
    cases h : parse source with
    | ok p => exact ⟨p, rfl⟩
    | error f => exact absurd (isNesting_of_derives last derived h) (shallow f h)

-- The grammar lets the first semicolon after the condition, and so the call, belong to the
-- procedure or to the program around it.
theorem parse_ok_iff_derives_procedure :
    (∀ f, parse "procedure p; if x = 1 then ; call p; ." = .error f → ¬ f.IsNesting) ∧
    (∃ p, parse "procedure p; if x = 1 then ; call p; ." = .ok p) ∧
    Derives (.category .program)
      ((scan "procedure p; if x = 1 then ; call p; .").tokens.map Token.kind) := by
  have accepted : ∃ p, parse "procedure p; if x = 1 then ; call p; ." = .ok p := by
    have ok : (parse "procedure p; if x = 1 then ; call p; .").isOk = true := by decide +kernel
    cases h : parse "procedure p; if x = 1 then ; call p; ." with
    | ok p => exact ⟨p, rfl⟩
    | error f => rw [h] at ok; cases ok
  have shallow : ∀ f, parse "procedure p; if x = 1 then ; call p; ." = .error f → ¬ f.IsNesting := by
    obtain ⟨p, ok⟩ := accepted
    intro f failed
    cases ok.symm.trans failed
  exact ⟨shallow, accepted, ((parse_ok_iff_derives shallow).1 accepted).2⟩

end PlZero
