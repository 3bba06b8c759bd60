import PlZero.Proofs.ProgramReading
import PlZero.Proofs.Spelling

set_option autoImplicit false

namespace PlZero

namespace Grammar

open Rule Phrase

variable {r s s' : Reader} {n : Nat} {u : List Token} {f : Failure SyntaxFault}

theorem statement_unassigned {t : Token} (name : r.current.kind = .name)
    (step : advance r = .ok t s) (other : s.current.kind ≠ .assign) :
    statement (n + 1) r = .error (.ofCauseAt s.current.pos
      (.expected .assign (.afterTarget r.current.text) s.current.kind)) s := by
  have target : identifier .unnamed r = .ok ⟨r.current.pos, r.current.text⟩ s := by
    unfold identifier
    rw [bind_run ((expect_run name).trans step), eq_current_of_advance step]
    rfl
  unfold statement
  rw [current_run, name]
  dsimp only
  rw [bind_run target, discard_bind, bind_error (expect_error other)]

theorem sequence_error {t : Token} (word : r.current.kind = .beginWord)
    (step : advance r = .ok t s) (inner : statement n s = .error f s') :
    sequence (n + 1) r = .error f s' := by
  have round : sequenceRound n s = .error f s' := bind_error inner
  rw [sequence_succ, bind_run ((expect_run word).trans step), get_run]
  exact bind_error (bind_error round)

theorem statement_opened (reads : r.Reads u s) (words : ∀ t ∈ u, t.kind = .beginWord)
    (inner : statement n s = .error f s') : statement (n + 2 * u.length) r = .error f s' := by
  induction reads with
  | nil => exact inner
  | @cons r r' s u notEnd step _ ih =>
    have word : r.current.kind = .beginWord := words _ (by simp)
    have rest := sequence_error word step (ih (fun t mem => words t (by simp [mem])) inner)
    rw [List.length_cons, Nat.mul_succ, ← Nat.add_assoc, statement, current_run, word]
    exact bind_error rest

theorem block_error (proper : r.feed.Proper) (starts : r.current.kind.startsStatement = true)
    (inner : statement n r = .error f s) : block (n + 1) r = .error f s := by
  have other {kind : TokenKind} (h : kind.startsStatement = false) : r.current.kind ≠ kind := by
    rintro rfl
    simp [starts] at h
  have none : AreDeclarations n ([] ++ ([] ++ [])) r.current ([] ++ [] ++ []) :=
    .mk (.absent (other rfl)) (.absent (other rfl)) (.none (other rfl))
  unfold block
  rw [get_run, bind_run (deeper_run .nil (declarations_run (blocks_run n).2 proper
    (Nat.succ_pos _) (Reader.Reads.nil.withDepth _) none))]
  exact bind_error inner

theorem program_error {pos : Position} {cause : SyntaxFault}
    (inner : block n r = .error (.ofCauseAt pos cause) s) :
    programWithin n r = .error (.ofCauseAt pos cause) s := by
  have fails : guarded (block n) r = .error (.ofCauseAt pos cause) s := by
    unfold guarded
    rw [inner]
    rfl
  unfold programWithin
  rw [current_run]
  exact bind_error fails

end Grammar

namespace Phrase

variable {n : Nat} {u v opening more : List Token} {name next : Token} {a : Node}

theorem IsUnary.one_lt (h : IsUnary n u a) : 1 < n := by
  cases h with
  | factor h => cases h <;> omega
  | signed _ h => cases h <;> omega

theorem IsTerm.two_lt (h : IsTerm n u next a) : 2 < n := by
  cases h with
  | last h | more h => exact Nat.succ_lt_succ h.one_lt

theorem IsExpression.three_lt (h : IsExpression n u next a) : 3 < n := by
  cases h with
  | last h | more h => exact Nat.succ_lt_succ h.two_lt

-- The first item of a list ends at the token after the list or at a separator.
theorem Chain.first {α : Type} {Item : Nat → List Token → Token → α → Prop}
    {separator : TokenKind} {as : List α} (h : Chain Item separator (n + 1) u next as)
    (v : List Token) : ∃ w next' v' item, Item n w next' item ∧ u ++ next :: v = w ++ next' :: v' := by
  cases h with
  | last item => exact ⟨u, next, v, _, item, rfl⟩
  | @more _ w rest mark _ _ _ item => exact ⟨w, mark, rest ++ next :: v, _, item, by simp⟩

theorem IsStatement.opening_lt {node : Option Node} (h : IsStatement n u next node)
    (line : u ++ next :: v = opening ++ name :: more) (words : ∀ t ∈ opening, t.kind = .beginWord)
    (named : name.kind = .name) : 2 * opening.length + 4 < n := by
  induction opening generalizing n u next v node with
  | nil =>
    have head : (u.headD next).kind = .name := by
      cases u <;> simp_all
    cases h with
    | assignment _ _ h => exact Nat.succ_lt_succ h.three_lt
    | sequence h => cases (h.starts next).symm.trans head
    | nothing none => simp_all [TokenKind.startsStatement]
    | _ => simp_all
  | cons word opening ih =>
    have head : (u.headD next).kind = .beginWord := by
      cases u <;> simp_all
    cases h with
    | sequence h =>
      cases h with
      | @mk _ _ finish body _ _ chain =>
        obtain ⟨w, mark, rest, item, first, same⟩ := chain.first (next :: v)
        have line' : w ++ mark :: rest = opening ++ name :: more := by
          rw [← same]
          simpa using (List.cons.inj line).2
        have inner := ih first line' fun t mem => words t (by simp [mem])
        rw [List.length_cons]
        omega
    | nothing none => simp_all [TokenKind.startsStatement]
    | _ => simp_all

theorem AreDeclarations.eq_nil {declared : List Node} (h : AreDeclarations n u next declared)
    (starts : (u.headD next).kind.startsStatement = true) : u = [] := by
  cases h with
  | @mk _ constants vars procedures _ _ _ _ first second third =>
    rw [headD_append, headD_append] at starts
    cases first with
    | present group =>
      rw [group.starts] at starts
      cases starts
    | absent =>
      cases second with
      | present group =>
        rw [List.headD_nil, group.starts] at starts
        cases starts
      | absent =>
        cases third with
        | none => rfl
        | more item =>
          rw [List.headD_nil, List.headD_nil, headD_append, item.starts] at starts
          cases starts

theorem IsBlock.opening_lt {outermost : Bool} {b : Block Node} (h : IsBlock n outermost u next b)
    (line : u ++ next :: v = opening ++ name :: more) (words : ∀ t ∈ opening, t.kind = .beginWord)
    (named : name.kind = .name) : 2 * opening.length + 5 < n := by
  have head : (u.headD next).kind.startsStatement = true := by
    cases opening <;> cases u <;> simp_all [TokenKind.startsStatement]
  cases h with
  | @mk _ _ declared body skipped _ _ _ declarations inner =>
    rw [headD_append] at head
    obtain rfl := declarations.eq_nil head
    cases skipped with
    | nil => exact Nat.succ_lt_succ (inner.opening_lt (by simpa using line) words named)
    | cons mark rest =>
      have line' : body ++ mark :: (rest ++ next :: v) = opening ++ name :: more := by
        simpa using line
      exact Nat.succ_lt_succ (inner.opening_lt line' words named)

theorem IsProgram.opening_lt {p : Program} (h : IsProgram n u p)
    (line : u = opening ++ name :: more) (words : ∀ t ∈ opening, t.kind = .beginWord)
    (named : name.kind = .name) : 2 * opening.length + 5 < n := by
  cases h with
  | mk block => exact block.opening_lt line words named

end Phrase

def opened (n : Nat) : List TokenKind := List.replicate n .beginWord ++ [.name]

def openedText (n : Nat) : String := .ofList (spaced (opened n))

theorem scan_opened (n : Nat) : ∃ opening name e,
    (scan (openedText n)).tokens = opening ++ [name] ∧ (scan (openedText n)).last = .ok e ∧
      opening.length = n ∧ (∀ t ∈ opening, t.kind = .beginWord) ∧ name.kind = .name := by
  have spelled : ∀ k ∈ opened n, k.spelling ≠ [] := by
    intro k mem
    simp only [opened, List.mem_append, List.mem_replicate, List.mem_singleton] at mem
    rcases mem with ⟨_, rfl⟩ | rfl <;> nofun
  obtain ⟨e, kinds, last⟩ := scan_spaced spelled
  obtain ⟨opening, names, tokens, words, named⟩ := List.map_eq_append_iff.1 kinds
  obtain ⟨name, rfl, kind⟩ := List.map_eq_singleton_iff.1 named
  refine ⟨opening, name, e, tokens, last, ?_, fun t mem => ?_, kind⟩
  · simpa using congrArg List.length words
  · exact List.eq_of_mem_replicate (words ▸ List.mem_map_of_mem mem)

open Grammar Rule in
theorem parseWithin_opened {n limit : Nat} (room : 2 * n + 2 ≤ limit) :
    ∃ name e, (scan (openedText n)).last = .ok e ∧ parseWithin limit (openedText n) =
      .error (.ofCauseAt e.pos (.expected .assign (.afterTarget name) .eof)) := by
  obtain ⟨opening, name, e, tokens, last, rfl, words, named⟩ := scan_opened n
  obtain ⟨r, s, first, proper, _, reads, rfl⟩ := exists_reads_of_scan last
  have ended := (scan_proper _).ends _ last
  rw [tokens] at reads
  obtain ⟨s', reads₁, rest⟩ := reads.split
  obtain ⟨s'', step, _, done⟩ := rest.tail
  cases done
  obtain ⟨extra, rfl⟩ := Nat.exists_eq_add_of_le room
  rw [show 2 * opening.length + 2 + extra = extra + 1 + 2 * opening.length + 1 by omega]
  have unassigned := statement_unassigned (n := extra) (rest.head ▸ named) step (by simp [ended])
  have starts : r.current.kind.startsStatement = true := by
    rw [reads.current_eq]
    cases opening with
    | nil => simp [named, TokenKind.startsStatement]
    | cons word => simp [words word, TokenKind.startsStatement]
  have fails := block_error proper starts (statement_opened reads₁ words unassigned)
  rw [rest.head, ended] at fails
  refine ⟨name.text, s.current, last, ?_⟩
  unfold parseWithin readBy Reader.ofSource
  simp only [first, Bind.bind, Except.bind, program_error fails]

theorem not_accepted_of_opened {n limit : Nat} {other : String} {p : Program}
    (short : limit ≤ 2 * n + 5) (accepted : parseWithin limit other = .ok p) :
    ¬ (scan (openedText n)).tokens <+: (scan other).tokens := by
  rintro ⟨more, line⟩
  obtain ⟨opening, name, _, tokens, _, rfl, words, named⟩ := scan_opened n
  have outcome := parseWithin_outcome limit other
  rw [accepted] at outcome
  cases outcome with
  | accepted _ program =>
    rw [tokens, List.append_assoc] at line
    have room := program.opening_lt line.symm words named
    omega

end PlZero
