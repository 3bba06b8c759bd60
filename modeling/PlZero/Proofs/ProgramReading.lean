import PlZero.Proofs.RuleFollows
import PlZero.Proofs.RuleRuns

set_option autoImplicit false

namespace PlZero

open Rule Phrase

theorem Cursor.feed_proper (c : Cursor) : c.feed.Proper := by
  fun_induction Cursor.feed c with
  | case1 c t after h ends => exact ⟨by simp, by simpa using ends⟩
  | case2 c t after h notEnd ih =>
    refine ⟨fun s mem => ?_, ih.ends⟩
    rcases List.mem_cons.1 mem with rfl | mem
    · exact notEnd
    · exact ih.kind_ne_eof s mem
  | case3 c f after h => exact ⟨by simp, by simp⟩

theorem scan_proper (source : String) : (scan source).Proper := Cursor.feed_proper _

theorem Cursor.failure_of_feed {c : Cursor} {f : Failure SyntaxFault}
    (h : c.feed.last = .error f) : ∃ pos flaw, f = Flaw.failure pos flaw := by
  fun_induction Cursor.feed c with
  | case1 => simp at h
  | case2 c t after _ _ ih => exact ih h
  | case3 c fault after next =>
    simp only [Except.error.injEq] at h
    subst h
    unfold Cursor.next at next
    dsimp only at next
    split at next
    · simp at next
    · simp only [Prod.mk.injEq, Lexeme.token] at next
      obtain ⟨reading, _⟩ := next
      split at reading
      · simp at reading
      · exact ⟨_, _, (Except.error.inj reading).symm⟩

def Failure.IsNesting (f : Failure SyntaxFault) : Prop :=
  ∃ pos kind, f = .ofCauseAt pos (.nestedTooDeeply kind)

namespace Grammar

variable {limit : Nat} {r : Reader}

theorem advance_at_end {s : Reader} {t : Token} (proper : r.feed.Proper)
    (step : advance r = .ok t s) (ended : s.current.kind = .eof) :
    advance s = .ok s.current s := by
  unfold advance at step
  split at step
  · next t ts tokens =>
    simp only [EStateM.Result.ok.injEq] at step
    obtain ⟨rfl, rfl⟩ := step
    exact absurd ended (proper.kind_ne_eof t (by simp [tokens]))
  · next e tokens last =>
    simp only [EStateM.Result.ok.injEq] at step
    obtain ⟨rfl, rfl⟩ := step
    simp [advance, tokens, last]
  · simp at step

inductive Outcome (limit : Nat) (r : Reader) : EStateM.Result (Failure SyntaxFault) Reader Program → Prop
  | accepted {u : List Token} {s : Reader} {p : Program} : r.Reads u s → s.current.kind = .eof →
      IsProgram limit u p → Outcome limit r (.ok p s)
  | nesting {f : Failure SyntaxFault} {s : Reader} : f.IsNesting → Outcome limit r (.error f s)
  | unscanned {f : Failure SyntaxFault} {s : Reader} : r.feed.last = .error f →
      Outcome limit r (.error f s)
  | rejected {u : List Token} {s : Reader} {cause : SyntaxFault} : r.Reads u s →
      cause.rejects = true → StuckProgram limit u s.current →
      Outcome limit r (.error (.ofCauseAt s.current.pos cause) s)

theorem guarded_error {α : Type} {rule : Rule α} {f : Failure SyntaxFault} {s : Reader}
    (h : rule r = .error f s) :
    (∃ g, g.IsNesting ∧ guarded rule r = .error g s) ∨ guarded rule r = .error f s := by
  unfold guarded
  rw [h]
  split
  · next equal =>
    cases equal
    exact .inl ⟨_, ⟨_, _, rfl⟩, rfl⟩
  · exact .inr rfl

theorem guarded_ok {α : Type} {rule : Rule α} {a : α} {s : Reader} (h : rule r = .ok a s) :
    guarded rule r = .ok a s := by
  simp [guarded, h]

theorem closing_outcome {u : List Token} {s : Reader} {b : Block Node} (proper : r.feed.Proper)
    (reads : r.Reads u s) (phrase : IsBlock limit true u s.current b) :
    Outcome limit r ((do
      discard <| expect .dot .programEnd
      discard <| expect .eof .afterProgram
      return ⟨r.current.pos, b⟩ : Rule Program) s) := by
  by_cases point : s.current.kind = .dot
  · cases step : advance s with
    | error f s' =>
      obtain ⟨rfl, _, last⟩ := advance_error step
      rw [discard_bind, bind_error ((expect_run point).trans step)]
      exact .unscanned (reads.last_eq ▸ last)
    | ok t s' =>
      have reads' : r.Reads (u ++ [s.current]) s' :=
        reads.append (.cons (by simp [point]) (eq_current_of_advance step ▸ step) .nil)
      have program := IsProgram.mk phrase point
      rw [discard_run ((expect_run point).trans step)]
      by_cases ended : s'.current.kind = .eof
      · have stays := advance_at_end (reads.stream_eq proper).2 step ended
        rw [discard_run ((expect_run ended).trans stays), reads.current_eq]
        exact .accepted reads' ended program
      · rw [discard_bind, bind_error (expect_error ended)]
        exact .rejected reads' rfl (.finish program ended)
  · rw [discard_bind, bind_error (expect_error point)]
    exact .rejected reads rfl (.point phrase point)

theorem programWithin_outcome (limit : Nat) (proper : r.feed.Proper) (outer : r.depth = 0) :
    Outcome limit r (programWithin limit r) := by
  have follows := (blocks_follow limit).1 r
  unfold Follows at follows
  unfold programWithin
  rw [current_run]
  cases result : block limit r with
  | ok b s =>
    rw [result] at follows
    obtain ⟨u, reads, phrase⟩ := follows
    rw [bind_run (guarded_ok result)]
    exact closing_outcome proper reads (by simpa [outer] using phrase)
  | error f s =>
    rw [result] at follows
    rcases guarded_error result with ⟨g, nesting, fails⟩ | fails
    · rw [bind_error fails]
      exact .nesting nesting
    · rw [bind_error fails]
      cases follows with
      | exhausted =>
        unfold guarded at fails
        rw [result] at fails
        simp [Failure.ofCauseAt] at fails
      | unscanned reads _ last => exact .unscanned (reads.last_eq ▸ last)
      | rejected reads cause stuck => exact .rejected reads cause (.block stuck)

theorem programWithin_run {u : List Token} {s : Reader} {p : Program} (proper : r.feed.Proper)
    (outer : r.depth = 0) (phrase : IsProgram limit u p) (reads : r.Reads u s)
    (ended : s.current.kind = .eof) : programWithin limit r = .ok p s := by
  cases phrase with
  | @mk u point b body dot =>
    obtain ⟨s₁, reads₁, rest₁⟩ := reads.split
    obtain ⟨s₂, step₂, _, rest₂⟩ := rest₁.tail
    cases rest₂
    have proper₁ := (reads₁.stream_eq proper).2
    have block := (blocks_run limit).1 proper reads₁ (by simpa [outer, rest₁.head] using body)
    have head := reads₁.current_eq
    rw [rest₁.head] at head
    unfold programWithin
    rw [current_run, bind_run (guarded_ok block),
      discard_run ((expect_run (rest₁.head ▸ dot)).trans step₂),
      discard_run ((expect_run ended).trans (advance_at_end proper₁ step₂ ended)), head]
    rfl

end Grammar

inductive ParseOutcome (limit : Nat) (source : String) :
    Except (Failure SyntaxFault) Program → Prop
  | accepted {p : Program} {e : Token} : (scan source).last = .ok e →
      IsProgram limit (scan source).tokens p → ParseOutcome limit source (.ok p)
  | nesting {f : Failure SyntaxFault} : f.IsNesting → ParseOutcome limit source (.error f)
  | unscanned {f : Failure SyntaxFault} : (scan source).last = .error f →
      ParseOutcome limit source (.error f)
  | rejected {u rest : List Token} {t : Token} {cause : SyntaxFault} :
      (scan source).stream = u ++ t :: rest → cause.rejects = true → StuckProgram limit u t →
      ParseOutcome limit source (.error (.ofCauseAt t.pos cause))

-- The end token is the last of the stream, so all before it are the tokens of the text.
theorem Feed.tokens_of_stream {f : Feed} {u rest : List Token} {e : Token} (proper : f.Proper)
    (notEnd : ∀ t ∈ u, t.kind ≠ .eof) (ended : e.kind = .eof) (stream : f.stream = u ++ e :: rest) :
    f.tokens = u ∧ f.last = .ok e := by
  unfold Feed.stream at stream
  cases last : f.last with
  | error fault =>
    simp only [last, List.append_nil] at stream
    exact absurd ended (proper.kind_ne_eof e (by simp [stream]))
  | ok e' =>
    simp only [last] at stream
    rcases List.append_eq_append_iff.1 stream with ⟨v, rfl, later⟩ | ⟨v, tokens, later⟩
    · cases v with
      | nil => simp_all
      | cons x v =>
        obtain ⟨rfl, _⟩ := List.cons.inj later
        exact absurd (proper.ends _ last) (notEnd _ (by simp))
    · cases v with
      | nil => simp_all
      | cons x v =>
        obtain ⟨rfl, _⟩ := List.cons.inj later
        exact absurd ended (proper.kind_ne_eof _ (by simp [tokens]))

theorem parseWithin_outcome (limit : Nat) (source : String) :
    ParseOutcome limit source (parseWithin limit source) := by
  have proper := scan_proper source
  unfold parseWithin readBy Reader.ofSource
  cases first : Reader.ofFeed (scan source) with
  | error f =>
    refine .unscanned ?_
    unfold Reader.ofFeed at first
    split at first
    · simp at first
    · cases last : (scan source).last with
      | error fault => simpa [last, Except.map] using first
      | ok e => simp [last, Except.map] at first
  | ok r =>
    obtain ⟨stream, proper', outer, last⟩ := Reader.stream_ofFeed proper first
    have outcome := Grammar.programWithin_outcome limit proper' outer
    simp only [Bind.bind, Except.bind]
    split
    · next p s result =>
      rw [result] at outcome
      cases outcome with
      | @accepted u _ _ reads ended phrase =>
        obtain ⟨rest, after⟩ := s.stream_eq_cons
        have whole := (reads.stream_eq proper').1
        rw [stream, after] at whole
        obtain ⟨rfl, last⟩ :=
          Feed.tokens_of_stream proper (fun t mem => reads.kind_ne_eof mem) ended whole
        exact .accepted last phrase
    · next f s result =>
      rw [result] at outcome
      cases outcome with
      | nesting nesting => exact .nesting nesting
      | unscanned fault => exact .unscanned (last ▸ fault)
      | rejected reads cause stuck =>
        obtain ⟨rest, after⟩ := s.stream_eq_cons
        have whole := (reads.stream_eq proper').1
        rw [stream, after] at whole
        exact .rejected whole cause stuck

theorem exists_reads_of_scan {source : String} {e : Token} (last : (scan source).last = .ok e) :
    ∃ r s, Reader.ofFeed (scan source) = .ok r ∧ r.feed.Proper ∧ r.depth = 0 ∧
      r.Reads (scan source).tokens s ∧ s.current = e := by
  have proper := scan_proper source
  have whole : (scan source).stream = (scan source).tokens ++ e :: [] := by
    simp [Feed.stream, last]
  cases first : Reader.ofFeed (scan source) with
  | error f =>
    unfold Reader.ofFeed at first
    split at first <;> simp [last, Except.map] at first
  | ok r =>
    obtain ⟨stream, proper', outer, _⟩ := Reader.stream_ofFeed proper first
    obtain ⟨s, reads, current⟩ :=
      Reader.reads_of_stream proper' proper.kind_ne_eof (stream.trans whole)
    exact ⟨r, s, rfl, proper', outer, reads, current⟩

theorem parseWithin_of_isProgram {limit : Nat} {source : String} {p : Program} {e : Token}
    (last : (scan source).last = .ok e) (phrase : IsProgram limit (scan source).tokens p) :
    parseWithin limit source = .ok p := by
  obtain ⟨r, s, first, proper, outer, reads, rfl⟩ := exists_reads_of_scan last
  have ended := (scan_proper source).ends _ last
  have run := Grammar.programWithin_run proper outer phrase reads ended
  unfold parseWithin readBy Reader.ofSource
  simp only [first, Bind.bind, Except.bind, run]

theorem isProgram_of_parse {source : String} {p : Program} (parsed : parse source = .ok p) :
    (∃ e, (scan source).last = .ok e) ∧
      IsProgram Grammar.nestingLimit (scan source).tokens p := by
  have outcome := parseWithin_outcome Grammar.nestingLimit source
  rw [show parseWithin Grammar.nestingLimit source = .ok p from parsed] at outcome
  cases outcome with
  | accepted last phrase => exact ⟨⟨_, last⟩, phrase⟩

end PlZero
