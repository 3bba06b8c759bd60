import PlZero.Proofs.ParserImage
import PlZero.Proofs.RunFailures

set_option autoImplicit false

namespace PlZero

open WellFormed Exec

inductive WellFormed.Outer : List Node → Prop
  | unclosed {nodes : List Node} : Body Lexicon nodes → Outer nodes
  | closed {nodes : List Node} {pos : Position} :
      Body Lexicon nodes → Outer (nodes ++ [.exitMarker pos])

theorem Phrase.IsBlock.outer {n : Nat} {u : List Token} {next : Token} {b : Block Node}
    (phrase : IsBlock n true u next b) (holds : Holds Lexicon u) : Outer b.body := by
  obtain ⟨nodes, formed, eq, _⟩ := (blocks_shaped n).1 phrase holds
  rw [eq]
  unfold exitAt
  split
  · exact .closed formed
  · rw [List.append_nil]
    exact .unclosed formed

theorem Step.outer_of_read {step : Step} {p : Program} (accepted : step.read = .ok p) :
    Outer p.body.body := by
  cases step with
  | entry source =>
    change (parseFragment source).map .ofBlock = .ok p at accepted
    cases parsed : parseFragment source with
    | error f => rw [parsed] at accepted; cases accepted
    | ok b =>
      rw [parsed] at accepted
      cases accepted
      obtain ⟨e, _, _, phrase⟩ := parseFragment_ok parsed
      have holds := scan_holds source
      generalize (scan source).tokens = u at phrase holds
      cases phrase with
      | mk body _ => exact body.outer (holds_append.1 holds).1
  | program source =>
    have outcome := parseWithin_outcome Grammar.nestingLimit source
    have parsed : parseWithin Grammar.nestingLimit source = .ok p := accepted
    rw [parsed] at outcome
    cases outcome with
    | accepted _ phrase =>
      have holds := scan_holds source
      generalize (scan source).tokens = u at phrase holds
      cases phrase with
      | mk body _ => exact body.outer (holds_append.1 holds).1

theorem Machine.Lawful.ready_start {m : Machine} (lawful : m.Lawful) (debug : Bool) (p : Program) :
    (p.start debug m).Ready := by
  have logged : (p.logged debug m).Lawful := by
    cases debug <;> exact ⟨lawful.procedures, lawful.patient⟩
  unfold Program.start
  split
  · exact logged.ready_push
  · next some => exact ⟨logged, fun none => some (List.isEmpty_iff.2 none)⟩

namespace Program

variable {limits : Limits} {debug : Bool} {p : Program} {m : Machine}

def BreaksDown (limits : Limits) (debug : Bool) (p : Program) (m : Machine) (b : Breakdown) :
    Prop :=
  ∃ k node m', p.Comes limits debug m k node m' ∧ BreaksAt limits.rounds k node m' b

theorem inner_fares {nodes exits : List Node} (logged : debug = true → p.Loggable limits)
    (whole : p.body.body = nodes ++ exits) (formed : Body Lexicon nodes)
    (ready : (p.start debug m).Ready) :
    Fares Machine.Ready (p.BreaksDown limits debug m)
      (nodes.forM (execute limits.rounds limits.nesting) (p.start debug m)) := by
  refine .forM (fun node m' passes ready' => ?_) ready
  refine (items_fare _ _ (formed.items node passes.mem) ready').because ?_
  rintro b ⟨k, node', m'', running, breaks⟩
  obtain ⟨before, after, rfl, completed⟩ := passes
  have passes :
      Passes (execute limits.rounds limits.nesting) p.body.body (p.start debug m) node m' :=
    ⟨before, after ++ exits, by rw [whole, List.append_assoc, List.cons_append], completed⟩
  exact ⟨k, node', m'', ⟨logged, node, m', passes, running⟩, breaks⟩

theorem exit_fares {rounds n : Nat} {pos : Position} {Source : Breakdown → Prop}
    (lawful : m.Lawful) : Fares Machine.Lawful Source (execute rounds n (.exitMarker pos) m) := by
  match n with
  | 0 | 1 | 2 => exact .error lawful .exhausted
  | n + 3 => exact .ok ⟨nofun, lawful.patient⟩

theorem body_fares (logged : debug = true → p.Loggable limits) (outer : Outer p.body.body)
    (ready : (p.start debug m).Ready) :
    Fares Machine.Lawful (p.BreaksDown limits debug m)
      (p.body.body.forM (execute limits.rounds limits.nesting) (p.start debug m)) := by
  generalize whole : p.body.body = nodes at outer
  cases outer with
  | unclosed formed =>
    have inner := inner_fares logged (by rw [whole, List.append_nil]) formed ready
    exact inner.imp (fun _ => Machine.Ready.toLawful) fun _ => id
  | closed formed =>
    rw [List.forM_eq_forM, List.forM_append, List.forM_cons]
    refine .bind (inner_fares logged whole formed ready) (fun _ m' _ ready' => ?_)
      fun _ => Machine.Ready.toLawful
    exact .bind (exit_fares ready'.toLawful) (fun _ _ _ lawful => .ok lawful) fun _ => id

end Program

namespace Exec

variable {x : Exec Unit} {m m' : Machine}

theorem onExhaustion_ne_exhausted {r : Report Fault} :
    onExhaustion (.report r) x m ≠ .error (.breakdown .exhausted) m' := by
  unfold onExhaustion
  split
  · nofun
  · next other => exact other m'

theorem ensuring_ne_error {finish : Machine → Machine} {f : Stop}
    (other : ∀ m', x m ≠ .error f m') : ensuring finish x m ≠ .error f m' := by
  unfold ensuring
  cases result : x m with
  | ok => nofun
  | error g m'' =>
    rintro ⟨⟩
    exact other m'' result

end Exec

namespace Program

variable {limits : Limits} {debug : Bool} {p : Program} {m : Machine}

theorem run_of_loggable (logged : debug = true → p.Loggable limits) :
    ∃ depth, p.run limits debug m = ensuring (Machine.unwind depth)
      (onExhaustion (.ofCauseAt p.pos .recursionTooDeep)
        (block (execute limits.rounds limits.nesting) false p.body)) (p.logged debug m) := by
  rw [run_eq]
  cases debug with
  | false => exact ⟨_, rfl⟩
  | true =>
    rw [if_pos rfl]
    simp only [Bind.bind, EStateM.bind, log_run (logged rfl)]
    exact ⟨_, rfl⟩

theorem block_fares (logged : debug = true → p.Loggable limits) (outer : Outer p.body.body)
    (lawful : m.Lawful) :
    Fares Machine.Lawful (p.BreaksDown limits debug m)
      (block (execute limits.rounds limits.nesting) false p.body (p.logged debug m)) := by
  have body := body_fares logged outer (lawful.ready_start debug p)
  rw [fares_iff_leads] at body ⊢
  exact leads_block body fun _ => Machine.Lawful.pop

/-- How a run of a program can fail: with a documented fault, at a place where it breaks down, or
because its tree cannot be logged. -/
inductive Fails (limits : Limits) (debug : Bool) (p : Program) (m : Machine) : Stop → Prop
  | reported {r : Report Fault} : r.cause.Documented → Fails limits debug p m (.report r)
  | broken {b : Breakdown} : p.BreaksDown limits debug m b → Fails limits debug p m (.breakdown b)
  | unlogged : debug = true → ¬ p.Loggable limits → Fails limits debug p m (.breakdown .exhausted)

theorem run_fails (limits : Limits) (debug : Bool) (outer : Outer p.body.body)
    (lawful : m.Lawful) :
    (machineOf (p.run limits debug m)).Lawful ∧
      ∀ f m', p.run limits debug m = .error f m' → p.Fails limits debug m f := by
  by_cases logged : debug = true → p.Loggable limits
  · obtain ⟨depth, runs⟩ := run_of_loggable (m := m) logged
    have fares : Fares Machine.Lawful (p.BreaksDown limits debug m) (p.run limits debug m) := by
      rw [runs]
      refine .ensuring (.onExhaustion ?_ (block_fares logged outer lawful))
        fun _ lawful => lawful.unwind depth
      exact .reported (.of_kind .stackOverflow rfl (by decide) nofun)
    have reported (m' : Machine) : p.run limits debug m ≠ .error (.breakdown .exhausted) m' := by
      rw [runs]
      exact ensuring_ne_error fun _ => onExhaustion_ne_exhausted
    generalize p.run limits debug m = r at fares reported
    cases fares with
    | ok lawful =>
      refine ⟨lawful, ?_⟩
      rintro _ _ ⟨⟩
    | error lawful explained =>
      refine ⟨lawful, ?_⟩
      rintro _ _ ⟨⟩
      cases explained with
      | reported documented => exact .reported documented
      | exhausted => exact absurd rfl (reported _)
      | broken breaks => exact .broken breaks
  · obtain ⟨debug, deep⟩ := Classical.not_imp.1 logged
    subst debug
    rw [run_unlogged deep]
    refine ⟨lawful, ?_⟩
    rintro _ _ ⟨⟩
    exact .unlogged rfl deep

end Program

theorem Session.lawful_afterSteps (limits : Limits) (debug : Bool) (steps : List Step) {m : Machine}
    (lawful : m.Lawful) : (afterSteps limits debug steps m).Lawful := by
  induction steps generalizing m with
  | nil => exact lawful
  | cons step steps ih =>
    refine ih ?_
    change (machineOf (step.run limits debug m)).Lawful
    rw [Step.run_eq]
    cases accepted : step.read with
    | error f => exact lawful
    | ok p =>
      dsimp only
      rw [Step.machineOf_conclude]
      exact (Program.run_fails limits debug (Step.outer_of_read accepted) lawful).1

/-- In every session, whatever its input, an accepted text fails only so. -/
theorem session_failures (limits : Limits) (debug : Bool) (lines : List String) (steps : List Step)
    {step : Step} {p : Program} (accepted : step.read = .ok p) {g : Failure Cause} {m' : Machine}
    (failed : step.run limits debug (Session.afterSteps limits debug steps { input := { lines } }) =
      .error g m') :
    ∃ f, g = f.map .running ∧
      p.Fails limits debug (Session.afterSteps limits debug steps { input := { lines } }) f := by
  have lawful := Session.lawful_afterSteps limits debug steps
    (m := { input := { lines } }) ⟨nofun, rfl⟩
  rw [Step.run_eq, accepted] at failed
  dsimp only at failed
  cases result : p.run limits debug
      (Session.afterSteps limits debug steps { input := { lines } }) with
  | ok a m =>
    rw [result] at failed
    cases failed
  | error f m =>
    rw [result] at failed
    cases failed
    have fails := (Program.run_fails limits debug (Step.outer_of_read accepted) lawful).2
    exact ⟨f, rfl, fails f _ result⟩

-- A procedure of an earlier entry tests the oddness of a number that is infinite as a single.
theorem session_failures_infinite :
    let m := Session.afterSteps {} false
      [.entry "procedure p; if odd 1000000000000000000000000000000000000000.0 then ! 1;"]
      { input := { lines := [] } }
    ∃ p m', (Step.entry "call p").read = .ok p ∧
      (Step.entry "call p").run {} false m = .error (.breakdown .oddOfInfinity) m' ∧
      ∃ f : Stop, .breakdown .oddOfInfinity = f.map Cause.running ∧ p.Fails {} false m f := by
  intro m
  have accepted : (Step.entry "call p").read.isOk = true := by decide +kernel
  have failed : (match (Step.entry "call p").run {} false m with
      | .error g _ => decide (g = .breakdown .oddOfInfinity)
      | .ok _ _ => false) = true := by decide +kernel
  cases read : (Step.entry "call p").read with
  | error f =>
    rw [read] at accepted
    cases accepted
  | ok p =>
    cases result : (Step.entry "call p").run {} false m with
    | ok a m' =>
      rw [result] at failed
      cases failed
    | error g m' =>
      rw [result] at failed
      cases of_decide_eq_true failed
      exact ⟨p, m', rfl, rfl, session_failures {} false [] _ read result⟩

theorem unlogged_program_fails_otherwise :
    (∃ p, (Step.program (printSigned 6000)).read = .ok p) ∧
      ∃ g m, Step.run {} true (.program (printSigned 6000)) {} = .error g m ∧
        (∀ r, g ≠ .report r) ∧ ∀ b, g = .breakdown b → b.label ≠ "ValueError" := by
  obtain ⟨p, parsed, deep⟩ := parse_printSigned (n := 6000) (by decide)
  have accepted : (Step.program (printSigned 6000)).read = .ok p := parsed
  have tooDeep : ¬ p.Loggable {} := by
    unfold Program.Loggable
    have nesting : ({} : Limits).nesting = 10000 := rfl
    omega
  have run : Step.run {} true (.program (printSigned 6000)) {} =
      .error (.breakdown .exhausted) {} := by
    rw [Step.run_eq, accepted]
    dsimp only
    rw [Program.run_unlogged tooDeep]
    rfl
  refine ⟨⟨p, accepted⟩, _, _, run, fun _ same => ?_, fun b same => ?_⟩
  · cases same
  · rw [← Failure.breakdown.inj same]
    decide

end PlZero
