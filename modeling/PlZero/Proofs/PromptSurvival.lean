import PlZero.Prompt
import PlZero.Proofs.ActionLaws
import PlZero.Proofs.DocumentedFailures

set_option autoImplicit false

namespace PlZero

open Exec

/-- Scanning the text stops at a numeral that has too many digits in decimal. -/
def Overlong (text : String) : Prop := (scan text).last = .error (.breakdown .tooManyDigits)

theorem scan_breakdown {text : String} {b : Breakdown}
    (stopped : (scan text).last = .error (.breakdown b)) : b = .tooManyDigits := by
  obtain ⟨pos, flaw, same⟩ := Cursor.failure_of_feed stopped
  cases flaw with
  | unterminatedString => cases same
  | malformedFloat => cases same
  | tooManyDigits => exact Failure.breakdown.inj same

theorem openBlocks_of_report {text : String} {r : Report SyntaxFault}
    (refused : (scan text).last = .error (.report r)) : openBlocks text = .ok 0 := by
  simp only [openBlocks, refused]

theorem openBlocks_of_overlong {text : String} (overlong : Overlong text) :
    openBlocks text = .error .tooManyDigits := by
  unfold Overlong at overlong
  simp only [openBlocks, overlong]

theorem overlong_of_openBlocks {text : String} {b : Breakdown}
    (stopped : openBlocks text = .error b) : Overlong text ∧ b = .tooManyDigits := by
  unfold openBlocks at stopped
  dsimp only at stopped
  split at stopped
  · cases stopped
  · cases stopped
  · next last =>
    cases stopped
    cases scan_breakdown last
    exact ⟨last, rfl⟩

def entryOf (lines : List String) : String := String.intercalate "\n" lines

namespace Prompt

def lines (p : Prompt) : List String := p.machine.input.lines

def said (p : Prompt) (line : String) : Prompt :=
  { p with machine := p.machine.write (line ++ "\n") }

def ran (p : Prompt) (m : Machine) : Prompt :=
  { p with
    machine := { m with log := [] }
    errors := p.errors ++
      String.join (if p.debug then m.events.map fun e => Talk.logLine e.text else []) }

def shown (p : Prompt) (text : String) (rest : List String) : Prompt :=
  { p with
    machine := { p.machine with input := { lines := rest }, output := p.machine.output ++ text } }

def Took (p : Prompt) (taken : List String) (p' : Prompt) : Prop :=
  ∃ text rest, p.lines = taken ++ rest ∧ p' = p.shown text rest

inductive Reads (p : Prompt) (pending : List String) :
    EStateM.Result Breakdown Prompt (Option String) → Prop
  | ended {p' : Prompt} : pending = [] → p.lines = [] → p.Took [] p' →
      Reads p pending (.ok none p')
  | cutShort {p' : Prompt} : pending ++ p.lines ≠ [] → p.Took p.lines p' →
      Reads p pending (.ok (some (entryOf (pending ++ p.lines))) p')
  | complete {taken : List String} {depth : Int} {p' : Prompt} : taken ≠ [] → p.Took taken p' →
      openBlocks (entryOf (pending ++ taken)) = .ok depth → depth ≤ 0 →
      Reads p pending (.ok (some (entryOf (pending ++ taken))) p')
  | broken {taken : List String} {p' : Prompt} : p.Took taken p' →
      Overlong (entryOf (pending ++ taken)) → Reads p pending (.error .tooManyDigits p')

inductive Ran (limits : Limits) (p : Prompt) (entry : String) : Bool → Prompt → Prop
  | completed {ended : Bool} {m : Machine} :
      Session.runEntry limits p.debug entry p.machine = .ok ended m →
      Ran limits p entry ended (p.ran m)
  | reported {r : Report Cause} {m : Machine} :
      Session.runEntry limits p.debug entry p.machine = .error (.report r) m →
      Ran limits p entry false (((p.ran m).said "[error] >>>").said r.format)
  | brokenDown {b : Breakdown} {m : Machine} :
      Session.runEntry limits p.debug entry p.machine = .error (.breakdown b) m →
      Ran limits p entry false
        (((p.ran m).said "[error] >>>").said ("Traceback: " ++ b.label ++ "\n"))

def IsFarewell (entry : String) : Prop := entry = "exit" ∨ entry = "quit"

def IsToggle (entry : String) : Prop :=
  String.ofList (entry.toList.map Char.toLower) = "debug-mode"

inductive Answered (limits : Limits) (p : Prompt) (entry : String) : Bool → Prompt → Prop
  | blank : entry.isEmpty = true → Answered limits p entry true p
  | left : IsFarewell entry → Answered limits p entry false (p.said Talk.farewell)
  | toggled : IsToggle entry → Answered limits p entry true (said { p with debug := !p.debug }
      ("[mode] >>> Debug mode " ++ if !p.debug then "ON" else "OFF"))
  | ran {ended : Bool} {p' : Prompt} : ¬ entry.isEmpty = true → ¬ IsFarewell entry →
      ¬ IsToggle entry → p.Ran limits entry ended p' →
      Answered limits p entry (!ended) (if ended then p'.said Talk.farewell else p')

end Prompt

/-- A conversation: entries are answered one after the other, until the user leaves, a program ends
the session or there are no more lines. -/
inductive Conversation (limits : Limits) :
    Prompt → EStateM.Result Breakdown Prompt Unit → Prop
  | ended {p p' : Prompt} : p.Reads [] (.ok none p') →
      Conversation limits p (.ok () (p'.said ("\n" ++ Talk.farewell)))
  | last {p p' p'' : Prompt} {text : String} : p.Reads [] (.ok (some text) p') →
      p'.Answered limits (Text.strip text) false p'' → Conversation limits p (.ok () p'')
  | more {p p' p'' : Prompt} {text : String} {r : EStateM.Result Breakdown Prompt Unit} :
      p.Reads [] (.ok (some text) p') → p'.Answered limits (Text.strip text) true p'' →
      Conversation limits p'' r → Conversation limits p r
  | broken {p p' : Prompt} {b : Breakdown} : p.Reads [] (.error b p') →
      Conversation limits p (.error b p')

namespace Prompt

variable {p p' : Prompt} {line : String} {pending rest taken : List String}

theorem Took.after (text : String) (some : p.lines = line :: rest)
    (later : (p.shown text rest).Took taken p') : p.Took (line :: taken) p' := by
  obtain ⟨text', rest', lines, rfl⟩ := later
  refine ⟨text ++ text', rest', ?_, ?_⟩
  · rw [some, List.cons_append]
    exact congrArg _ lines
  · simp only [shown, String.append_assoc]

-- Reading on after the first line is reading, with this line among those taken before.
theorem Reads.after (text : String) (some : p.lines = line :: rest)
    {r : EStateM.Result Breakdown Prompt (Option String)}
    (later : (p.shown text rest).Reads (pending ++ [line]) r) : p.Reads pending r := by
  have lines : p.lines = line :: (p.shown text rest).lines := some
  cases later with
  | ended none => exact absurd none (by simp)
  | cutShort some' took =>
    rw [List.append_assoc, List.singleton_append, ← lines]
    refine .cutShort (by simp [some]) ?_
    rw [lines]
    exact took.after text some
  | complete _ took balanced closed =>
    rw [List.append_assoc, List.singleton_append] at balanced ⊢
    exact .complete (List.cons_ne_nil _ _) (took.after text some) balanced closed
  | broken took overlong =>
    rw [List.append_assoc, List.singleton_append] at overlong
    exact .broken (took.after text some) overlong

end Prompt

namespace Talk

def mark (pending : List String) : String := if pending.isEmpty then ">>> " else "... "

theorem readEntry_ended {p : Prompt} {pending : List String} {rounds : Nat}
    (patient : p.machine.input.patience = none) (none : p.lines = []) :
    readEntry pending (rounds + 1) p =
      .ok (if pending.isEmpty then .none else some (entryOf pending))
        (p.shown (mark pending) []) := by
  obtain ⟨⟨scopes, ⟨lines, patience⟩, output, log⟩, debug, errors⟩ := p
  cases patient
  cases none
  rfl

theorem readEntry_line {p : Prompt} {pending rest : List String} {line : String} {rounds : Nat}
    (patient : p.machine.input.patience = none) (some : p.lines = line :: rest) :
    readEntry pending (rounds + 1) p =
      match openBlocks (entryOf (pending ++ [line])) with
      | .error b => .error b (p.shown (mark pending) rest)
      | .ok depth => if depth ≤ 0 then
          .ok (.some (entryOf (pending ++ [line]))) (p.shown (mark pending) rest)
        else readEntry (pending ++ [line]) rounds (p.shown (mark pending) rest) := by
  obtain ⟨⟨scopes, ⟨lines, patience⟩, output, log⟩, debug, errors⟩ := p
  cases patient
  cases some
  change (match openBlocks (entryOf (pending ++ [line])) with
    | .error b => throw b
    | .ok depth => if depth ≤ 0 then return .some (entryOf (pending ++ [line]))
      else readEntry (pending ++ [line]) rounds : Talk (Option String)) _ = _
  cases openBlocks (entryOf (pending ++ [line])) with
  | error => rfl
  | ok depth =>
    dsimp only
    split <;> rfl

theorem readEntry_reads {p : Prompt} {pending : List String} {rounds : Nat}
    (patient : p.machine.input.patience = none) (enough : p.lines.length < rounds) :
    p.Reads pending (readEntry pending rounds p) := by
  induction rounds generalizing p pending with
  | zero => omega
  | succ rounds ih =>
    cases lines : p.lines with
    | nil =>
      rw [readEntry_ended patient lines]
      cases pending with
      | nil => exact .ended rfl lines ⟨_, _, lines, rfl⟩
      | cons line pending =>
        have took : p.Took p.lines (p.shown (mark (line :: pending)) []) :=
          ⟨_, _, (List.append_nil _).symm, rfl⟩
        have read : p.Reads (line :: pending) _ := .cutShort (by simp) took
        rwa [lines, List.append_nil] at read
    | cons line rest =>
      have took : p.Took [line] (p.shown (mark pending) rest) := ⟨_, _, lines, rfl⟩
      rw [readEntry_line patient lines]
      cases balance : openBlocks (entryOf (pending ++ [line])) with
      | error b =>
        obtain ⟨overlong, rfl⟩ := overlong_of_openBlocks balance
        exact .broken took overlong
      | ok depth =>
        dsimp only
        split
        · next closed => exact .complete (List.cons_ne_nil _ _) took balance closed
        · refine .after (mark pending) lines (ih rfl ?_)
          rw [lines] at enough
          exact Nat.lt_of_succ_lt_succ enough

theorem nextEntry_eq (p : Prompt) :
    nextEntry p = match readEntry [] (p.lines.length + 1) p with
      | .error .interrupted p => .ok none p
      | result => result := rfl

theorem nextEntry_reads {p : Prompt} (patient : p.machine.input.patience = none) :
    p.Reads [] (nextEntry p) := by
  have reads : p.Reads [] (readEntry [] (p.lines.length + 1) p) :=
    readEntry_reads patient (Nat.lt_succ_self _)
  rw [nextEntry_eq]
  generalize readEntry [] (p.lines.length + 1) p = r at reads
  cases reads with
  | ended pending lines took => exact .ended pending lines took
  | cutShort some took => exact .cutShort some took
  | complete some took balanced closed => exact .complete some took balanced closed
  | broken took overlong => exact .broken took overlong

end Talk

theorem Reader.Stops.breakdown {r s : Reader} {Stuck : List Token → Token → Prop} {b : Breakdown}
    (stops : r.Stops Stuck (.breakdown b) s) :
    b = .exhausted ∨ r.feed.last = .error (.breakdown b) := by
  cases stops with
  | exhausted => exact .inl rfl
  | unscanned reads _ last => exact .inr (reads.last_eq ▸ last)

open Rule in
theorem Grammar.fragment_breakdown {r s : Reader} {b : Breakdown}
    (stopped : fragment r = .error (.breakdown b) s) :
    b = .exhausted ∨ r.feed.last = .error (.breakdown b) := by
  have blocks := (blocks_follow nestingLimit).1 r
  unfold Follows at blocks
  unfold fragment at stopped
  cases result : block nestingLimit r with
  | error f s₁ =>
    rw [result] at blocks
    rcases guarded_error result with ⟨g, ⟨_, _, rfl⟩, fails⟩ | fails
    · rw [bind_error fails] at stopped
      cases stopped
    · rw [bind_error fails] at stopped
      cases stopped
      exact blocks.breakdown
  | ok body s₁ =>
    rw [result] at blocks
    obtain ⟨u, reads, _⟩ := blocks
    rw [bind_run (guarded_ok result)] at stopped
    rw [← reads.last_eq]
    have points : (skip .dot).Follows s₁ _ _ := skip_follows (by decide) s₁
    unfold Follows at points
    cases skipped : skip .dot s₁ with
    | error f s₂ =>
      rw [skipped] at points
      rw [bind_error skipped] at stopped
      cases stopped
      exact points.breakdown
    | ok _ s₂ =>
      rw [skipped] at points
      obtain ⟨v, reads', _⟩ := points
      rw [bind_run skipped, discard_bind] at stopped
      rw [← reads'.last_eq]
      by_cases ended : s₂.current.kind = .eof
      · cases step : advance s₂ with
        | error f s₃ =>
          rw [bind_error ((expect_run ended).trans step)] at stopped
          cases stopped
          exact .inr (advance_error step).2.2
        | ok t s₃ =>
          rw [bind_run ((expect_run ended).trans step)] at stopped
          cases stopped
      · rw [bind_error (expect_error ended)] at stopped
        cases stopped

theorem parseFragment_breakdown {source : String} {b : Breakdown}
    (stopped : parseFragment source = .error (.breakdown b)) :
    b = .exhausted ∨ b = .tooManyDigits := by
  unfold parseFragment readBy Reader.ofSource at stopped
  cases first : Reader.ofFeed (scan source) with
  | error f =>
    rw [first] at stopped
    cases stopped
    unfold Reader.ofFeed at first
    split at first
    · cases first
    · cases last : (scan source).last with
      | ok => rw [last] at first; cases first
      | error f =>
        rw [last] at first
        cases first
        exact .inr (scan_breakdown last)
  | ok r =>
    simp only [first, Bind.bind, Except.bind] at stopped
    cases result : Grammar.fragment r with
    | ok b s => rw [result] at stopped; cases stopped
    | error f s =>
      rw [result] at stopped
      cases stopped
      rcases Grammar.fragment_breakdown result with nesting | last
      · exact .inl nesting
      · rw [(Reader.stream_ofFeed (scan_proper source) first).2.2.2] at last
        exact .inr (scan_breakdown last)

theorem WellFormed.breaksAt_ne_interrupted {rounds n : Nat} {node : Node} {m : Machine}
    {b : Breakdown} (breaks : BreaksAt rounds n node m b) : b ≠ .interrupted := by
  cases breaks with
  | expression _ breaksIn =>
    obtain ⟨_, _, _, breaks⟩ := breaksIn
    cases breaks <;> nofun
  | loop => nofun

theorem Program.lines_run (limits : Limits) (debug : Bool) (p : Program) (m : Machine) :
    (machineOf (p.run limits debug m)).input.lines <:+ m.input.lines := by
  by_cases logged : debug = true → p.Loggable limits
  · obtain ⟨depth, runs⟩ := run_of_loggable (m := m) logged
    have inside := input_law.block
      (input_law.execute (fun _ _ => List.suffix_refl _) limits.rounds limits.nesting) false p.body
      (p.logged debug m)
    have same : (p.logged debug m).input = m.input := by cases debug <;> rfl
    rw [runs, machineOf_ensuring, machineOf_onExhaustion]
    rwa [same] at inside
  · obtain ⟨debug, deep⟩ := Classical.not_imp.1 logged
    subst debug
    rw [run_unlogged deep]
    exact List.suffix_refl _

namespace Session

variable {limits : Limits} {debug : Bool} {source : String} {m : Machine}

theorem runEntry_eq (limits : Limits) (debug : Bool) (source : String) (m : Machine) :
    runEntry limits debug source m = match parseFragment source with
      | .error f => .error (f.map .reading) m
      | .ok b => match (Program.ofBlock b).run limits debug m with
        | .ok _ m' => .ok (ends b) m'
        | .error f m' => .error (f.map .running) m' := by
  unfold runEntry
  cases parseFragment source with
  | error f => rfl
  | ok b =>
    simp only [Bind.bind, EStateM.bind, read, Pure.pure, EStateM.pure, Step.runProgram_eq]
    cases (Program.ofBlock b).run limits debug m <;> rfl

theorem runEntry_lawful (limits : Limits) (debug : Bool) (source : String) (lawful : m.Lawful) :
    (machineOf (runEntry limits debug source m)).Lawful ∧
      (machineOf (runEntry limits debug source m)).input.lines <:+ m.input.lines ∧
      ∀ m', runEntry limits debug source m ≠ .error (.breakdown .interrupted) m' := by
  rw [runEntry_eq]
  cases parsed : parseFragment source with
  | error f =>
    refine ⟨lawful, List.suffix_refl _, ?_⟩
    rintro m' stopped
    cases f with
    | report => cases stopped
    | breakdown b =>
      cases stopped
      rcases parseFragment_breakdown parsed with same | same <;> cases same
  | ok b =>
    have accepted : (Step.entry source).read = .ok (.ofBlock b) :=
      congrArg (Except.map Program.ofBlock) parsed
    obtain ⟨lawful', fails⟩ :=
      Program.run_fails limits debug (Step.outer_of_read accepted) lawful
    have lines := Program.lines_run limits debug (.ofBlock b) m
    dsimp only
    generalize (Program.ofBlock b).run limits debug m = r at lawful' lines fails
    cases r with
    | ok => exact ⟨lawful', lines, nofun⟩
    | error f m' =>
      refine ⟨lawful', lines, ?_⟩
      intro m'' stopped
      cases f with
      | report => cases stopped
      | breakdown b =>
        cases stopped
        cases fails _ _ rfl with
        | broken breaks =>
          obtain ⟨_, _, _, _, breaks⟩ := breaks
          exact WellFormed.breaksAt_ne_interrupted breaks rfl

end Session

namespace Prompt

variable {limits : Limits} {p p' : Prompt} {entry text : String} {goesOn ended : Bool}

theorem Took.lawful {taken : List String} (took : p.Took taken p') (lawful : p.machine.Lawful) :
    p'.machine.Lawful := by
  obtain ⟨_, _, _, rfl⟩ := took
  exact ⟨lawful.procedures, rfl⟩

theorem Took.lines {taken : List String} (took : p.Took taken p') :
    p.lines = taken ++ p'.lines := by
  obtain ⟨_, _, lines, rfl⟩ := took
  exact lines

theorem Reads.took (reads : p.Reads [] (.ok (some text) p')) :
    ∃ taken, taken ≠ [] ∧ p.Took taken p' := by
  cases reads with
  | cutShort some took => exact ⟨_, some, took⟩
  | complete some took => exact ⟨_, some, took⟩

theorem Ran.lawful (ran : p.Ran limits entry ended p') (lawful : p.machine.Lawful) :
    p'.machine.Lawful ∧ p'.lines <:+ p.lines := by
  obtain ⟨lawful', lines, _⟩ := Session.runEntry_lawful limits p.debug entry lawful
  cases ran with
  | completed result | reported result | brokenDown result =>
    rw [result] at lawful' lines
    exact ⟨⟨lawful'.procedures, lawful'.patient⟩, lines⟩

theorem Answered.lawful (answered : p.Answered limits entry goesOn p')
    (lawful : p.machine.Lawful) : p'.machine.Lawful ∧ p'.lines <:+ p.lines := by
  cases answered with
  | blank => exact ⟨lawful, List.suffix_refl _⟩
  | left => exact ⟨⟨lawful.procedures, lawful.patient⟩, List.suffix_refl _⟩
  | toggled => exact ⟨⟨lawful.procedures, lawful.patient⟩, List.suffix_refl _⟩
  | @ran ended _ _ _ _ ran =>
    obtain ⟨lawful', lines⟩ := ran.lawful lawful
    cases ended with
    | false => exact ⟨lawful', lines⟩
    | true => exact ⟨⟨lawful'.procedures, lawful'.patient⟩, lines⟩

theorem Answered.farewell (answered : p.Answered limits entry false p') :
    ∃ before, p'.machine.output = before ++ (Talk.farewell ++ "\n") := by
  generalize last : false = goesOn at answered
  cases answered with
  | blank | toggled => cases last
  | left => exact ⟨_, rfl⟩
  | @ran ended =>
    cases ended with
    | false => cases last
    | true => exact ⟨_, rfl⟩

end Prompt

namespace Talk

variable {limits : Limits} {p : Prompt}

theorem runEntry_ran (limits : Limits) (entry : String) (lawful : p.machine.Lawful) :
    ∃ ended p', runEntry limits entry p = .ok ended p' ∧ p.Ran limits entry ended p' := by
  obtain ⟨_, _, uninterrupted⟩ := Session.runEntry_lawful limits p.debug entry lawful
  have looks {α : Type} (f : Prompt → Talk α) : (get >>= f) p = f p p := rfl
  unfold runEntry
  rw [looks]
  cases result : Session.runEntry limits p.debug entry p.machine with
  | ok ended m => exact ⟨ended, _, rfl, .completed result⟩
  | error f m =>
    cases f with
    | report r => exact ⟨false, _, rfl, .reported result⟩
    | breakdown b =>
      refine ⟨false, _, ?_, .brokenDown result⟩
      cases b with
      | interrupted => exact absurd result (uninterrupted m)
      | _ => rfl

theorem respond_answered (limits : Limits) (text : String) (lawful : p.machine.Lawful) :
    ∃ goesOn p', respond limits (some text) p = .ok goesOn p' ∧
      p.Answered limits (Text.strip text) goesOn p' := by
  unfold respond
  dsimp only
  split
  · next empty => exact ⟨true, p, rfl, .blank empty⟩
  · next notEmpty =>
    split
    · next leaves =>
      exact ⟨false, _, rfl, .left (by simpa [Prompt.IsFarewell] using leaves)⟩
    · next stays =>
      split
      · next mode => exact ⟨true, _, rfl, .toggled (beq_iff_eq.1 mode)⟩
      · next runs =>
        obtain ⟨ended, p', result, ran⟩ := runEntry_ran limits (Text.strip text) lawful
        have answered := Prompt.Answered.ran notEmpty (by simpa [Prompt.IsFarewell] using stays)
          (fun mode => runs (beq_iff_eq.2 mode)) ran
        simp only [Bind.bind, EStateM.bind, result]
        cases ended with
        | false => exact ⟨true, _, rfl, answered⟩
        | true => exact ⟨false, _, rfl, answered⟩

theorem converse_conversation {rounds : Nat} (lawful : p.machine.Lawful)
    (enough : p.lines.length < rounds) : Conversation limits p (converse limits rounds p) := by
  induction rounds generalizing p with
  | zero => omega
  | succ rounds ih =>
    have reads := nextEntry_reads lawful.patient
    unfold converse
    simp only [Bind.bind, EStateM.bind]
    cases result : nextEntry p with
    | error b p' =>
      rw [result] at reads
      exact .broken reads
    | ok entry p' =>
      rw [result] at reads
      cases entry with
      | none => exact .ended reads
      | some text =>
        obtain ⟨taken, some, took⟩ := reads.took
        have lawful' := took.lawful lawful
        obtain ⟨goesOn, p'', responds, answered⟩ := respond_answered limits text lawful'
        dsimp only
        rw [responds]
        cases goesOn with
        | false => exact .last reads answered
        | true =>
          obtain ⟨lawful'', lines⟩ := answered.lawful lawful'
          refine .more reads answered (ih lawful'' ?_)
          have fewer := lines.length_le
          have whole := congrArg List.length took.lines
          have positive := List.length_pos_iff.2 some
          rw [List.length_append] at whole
          omega

end Talk

/-- How a conversation over these lines ends: with the farewell, or at lines that cannot be
scanned. -/
inductive Concludes (lines : List String) : EStateM.Result Breakdown Prompt Unit → Prop
  | farewell {p : Prompt} {before : String} :
      p.machine.output = before ++ (Talk.farewell ++ "\n") → Concludes lines (.ok () p)
  | overlong {p : Prompt} {piece : List String} : piece <:+: lines → Overlong (entryOf piece) →
      Concludes lines (.error .tooManyDigits p)

theorem Concludes.of_suffix {lines lines' : List String}
    {r : EStateM.Result Breakdown Prompt Unit} (concludes : Concludes lines' r)
    (suffix : lines' <:+ lines) : Concludes lines r := by
  cases concludes with
  | farewell last => exact .farewell last
  | overlong inside overlong => exact .overlong (inside.trans suffix.isInfix) overlong

theorem Conversation.concludes {limits : Limits} {p : Prompt}
    {r : EStateM.Result Breakdown Prompt Unit} (conversation : Conversation limits p r)
    (lawful : p.machine.Lawful) : Concludes p.lines r := by
  induction conversation with
  | @ended p p' reads =>
    have last : (p'.said ("\n" ++ Talk.farewell)).machine.output =
        p'.machine.output ++ "\n" ++ (Talk.farewell ++ "\n") := by
      simp only [Prompt.said, Machine.write, String.append_assoc]
    exact .farewell last
  | last reads answered =>
    obtain ⟨before, last⟩ := answered.farewell
    exact .farewell last
  | more reads answered _ ih =>
    obtain ⟨taken, _, took⟩ := reads.took
    obtain ⟨lawful'', lines⟩ := answered.lawful (took.lawful lawful)
    exact ((ih lawful'').of_suffix lines).of_suffix ⟨taken, took.lines.symm⟩
  | broken reads =>
    cases reads with
    | broken took overlong => exact .overlong ⟨[], _, took.lines.symm⟩ overlong

/-- Whatever the lines are, the prompt answers entry after entry, showing every failure; and unless
some of the lines, one after the other, make a text with a numeral that is too long to be scanned,
it comes to its end and says farewell. A text that is refused by the scanner has no open blocks. -/
theorem prompt_answers_every_entry (limits : Limits) (debug : Bool) (lines : List String) :
    let start : Prompt := { machine := { input := { lines } }, debug }
    Conversation limits (start.said Talk.greeting) (Talk.start limits start) ∧
    ((∀ piece, piece <:+: lines → ¬ Overlong (entryOf piece)) →
      ∃ p before, Talk.start limits start = .ok () p ∧
        p.machine.output = before ++ (Talk.farewell ++ "\n")) ∧
    ∀ text r, (scan text).last = .error (.report r) → openBlocks text = .ok 0 := by
  intro start
  have lawful : (start.said Talk.greeting).machine.Lawful := ⟨nofun, rfl⟩
  have conversation : Conversation limits (start.said Talk.greeting) (Talk.start limits start) :=
    Talk.converse_conversation lawful (Nat.lt_succ_self _)
  refine ⟨conversation, fun scans => ?_, fun _ _ => openBlocks_of_report⟩
  have concludes : Concludes lines (Talk.start limits start) := conversation.concludes lawful
  generalize Talk.start limits start = r at concludes
  cases concludes with
  | farewell last => exact ⟨_, _, rfl, last⟩
  | overlong inside overlong => exact absurd overlong (scans _ inside)

theorem prompt_answers_division :
    (∀ piece, piece <:+: ["! 1 / 0"] → ¬ Overlong (entryOf piece)) ∧
    ∃ p before, Talk.start {} { machine := { input := { lines := ["! 1 / 0"] } } } = .ok () p ∧
      p.machine.output = before ++ (Talk.farewell ++ "\n") := by
  have scans : ∀ piece ∈ [[], ["! 1 / 0"]], (scan (entryOf piece)).last.isOk = true := by
    decide +kernel
  have fits (piece : List String) (inside : piece <:+: ["! 1 / 0"]) :
      ¬ Overlong (entryOf piece) := by
    have mem : piece ∈ [[], ["! 1 / 0"]] := by
      rcases List.infix_cons_iff.1 inside with first | later
      · rcases List.prefix_cons_iff.1 first with rfl | ⟨rest, rfl, none⟩
        · simp
        · simp [List.prefix_nil.1 none]
      · simp [List.infix_nil.1 later]
    intro overlong
    have ok := scans piece mem
    rw [overlong] at ok
    cases ok
  exact ⟨fits, (prompt_answers_every_entry {} false ["! 1 / 0"]).2.1 fits⟩

section Hexadecimal

open Number

theorem digitsValue_replicate (n : Nat) : digitsValue 16 (List.replicate n 'F') + 1 = 16 ^ n := by
  have digit : digitValue 'F' = 15 := by decide
  induction n with
  | zero => rfl
  | succ n ih =>
    rw [List.replicate_succ', digitsValue, List.foldl_append]
    change digitsValue 16 (List.replicate n 'F') * 16 + digitValue 'F' + 1 = _
    rw [digit, Nat.pow_succ]
    omega

theorem numeral_of_long {n : Nat} (long : 10 ^ digitLimit ≤ n) :
    Lexeme.numeral n = .error .tooManyDigits := by
  have more : digitLimit < (Nat.toDigits 10 n).length := by
    by_contra short
    have small := (Nat.length_toDigits_le_iff (by decide) (by decide)).1 (Nat.not_lt.1 short)
    omega
  simp [Lexeme.numeral, more]

theorem overlong_hexadecimal {n : Nat} (long : 10 ^ digitLimit < 16 ^ n) :
    Overlong (String.ofList ('0' :: 'x' :: List.replicate n 'F')) := by
  have value := digitsValue_replicate n
  have digits : ∀ c ∈ List.replicate n 'F', isHexDigit c = true := by
    intro c mem
    rw [List.eq_of_mem_replicate mem]
    decide
  have first : (List.replicate n 'F').head?.any isHexDigit = true := by
    cases n with
    | zero => exact absurd long (by decide +kernel)
    | succ n => rw [List.replicate_succ]; rfl
  have run : Lexeme.radix 16 ['0', 'x'] isHexDigit (List.replicate n 'F' ++ []) = _ :=
    Lexeme.radix_run 16 ['0', 'x'] digits nofun
  rw [List.append_nil] at run
  have reading : (Lexeme.read '0' ('x' :: List.replicate n 'F')).reading =
      .error .tooManyDigits := by
    have digit : isWordStart '0' = false ∧ '0'.isDigit = true ∧ isOctalDigit 'x' = false := by
      decide
    simp only [Lexeme.read, digit, Lexeme.number, first, run]
    exact numeral_of_long (by omega)
  have next : (Cursor.mk ('0' :: 'x' :: List.replicate n 'F') .start).next.1 =
      .error (.breakdown .tooManyDigits) := by
    have skipped : (Cursor.mk ('0' :: 'x' :: List.replicate n 'F') .start).skipBlanks =
        ⟨'0' :: 'x' :: List.replicate n 'F', .start⟩ := rfl
    simp only [Cursor.next, skipped, Lexeme.token, reading]
    rfl
  unfold Overlong scan Cursor.ofSource
  rw [String.toList_ofList, Cursor.feed]
  split
  · next eq => rw [eq] at next; cases next
  · next eq => rw [eq] at next; exact next

end Hexadecimal

theorem Talk.start_overlong (limits : Limits) (debug : Bool) {line : String} (rest : List String)
    (overlong : Overlong line) :
    ∃ p, Talk.start limits { machine := { input := { lines := line :: rest } }, debug } =
      .error .tooManyDigits p ∧ p.machine.output = Talk.greeting ++ "\n" ++ ">>> " := by
  let p : Prompt :=
    Prompt.said { machine := { input := { lines := line :: rest } }, debug } greeting
  have reads : readEntry [] (p.lines.length + 1) p =
      .error .tooManyDigits (p.shown (mark []) rest) := by
    have alone : entryOf ([] ++ [line]) = line := rfl
    rw [readEntry_line rfl rfl, alone, openBlocks_of_overlong overlong]
  have stops : nextEntry p = .error .tooManyDigits (p.shown (mark []) rest) := by
    rw [nextEntry_eq, reads]
  have breaks : converse limits (p.lines.length + 1) p =
      .error .tooManyDigits (p.shown (mark []) rest) := by
    unfold converse
    simp only [Bind.bind, EStateM.bind, stops]
  refine ⟨p.shown (mark []) rest, breaks, ?_⟩
  have empty : ("" : String) ++ (greeting ++ "\n") = greeting ++ "\n" := String.empty_append
  exact congrArg (· ++ ">>> ") empty

theorem long_hexadecimal_breaks_off :
    ∃ p, Talk.start {} { machine := { input := { lines :=
        [String.ofList ('0' :: 'x' :: List.replicate 3600 'F')] } } } = .error .tooManyDigits p ∧
      p.machine.output = Talk.greeting ++ "\n" ++ ">>> " :=
  Talk.start_overlong {} false [] (overlong_hexadecimal (by decide +kernel))

end PlZero
