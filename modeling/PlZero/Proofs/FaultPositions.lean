import PlZero.Proofs.RaisedFaults

set_option autoImplicit false

namespace PlZero

open WellFormed Exec

theorem Machine.From.open_start {texts : List Step} {m : Machine} (known : m.From texts)
    (debug : Bool) (p : Program) : (p.start debug m).Open texts := by
  have logged : (p.logged debug m).From texts := by cases debug <;> exact known
  unfold Program.start
  split
  · exact logged.open_push
  · next some => exact ⟨logged, fun none => some (List.isEmpty_iff.2 none)⟩

namespace Program

variable {texts : List Step} {limits : Limits} {debug : Bool} {p : Program} {m : Machine}

/-- A run of a program gives rise to a fault: at a node that it comes to, or because the program is
nested too deeply. -/
inductive Raises (limits : Limits) (debug : Bool) (p : Program) (m : Machine) :
    Fault → Node → Prop
  | inside {k : Nat} {node blamed : Node} {m' : Machine} {cause : Fault} :
      p.Comes limits debug m k node m' → Blames limits.rounds k node m' cause blamed →
      Raises limits debug p m cause blamed
  | tooDeep {m' : Machine} : (debug = true → p.Loggable limits) →
      block (execute limits.rounds limits.nesting) false p.body (p.logged debug m) =
        .error (.breakdown .exhausted) m' →
      Raises limits debug p m .recursionTooDeep p.node

abbrev Tells (texts : List Step) (limits : Limits) (debug : Bool) (p : Program) (m : Machine) :
    Stop → Prop :=
  Traced (fun cause blamed => blamed.IsOf texts ∧ p.Raises limits debug m cause blamed)
    fun _ => False

section Body

variable (of : p.node.IsOf texts) (logged : debug = true → p.Loggable limits)

include of logged

theorem inner_leads {nodes exits : List Node} (whole : p.body.body = nodes ++ exits)
    (formed : Body Lexicon nodes) (isOpen : (p.start debug m).Open texts) :
    Leads (Machine.Open texts) (p.Tells texts limits debug m)
      (nodes.forM (execute limits.rounds limits.nesting) (p.start debug m)) := by
  refine .forM (fun node m' passes isOpen' => ?_) isOpen
  have mem : node ∈ p.body.body := by
    rw [whole]
    exact List.mem_append_left _ passes.mem
  have inside : node.IsOf texts := (of.child (List.mem_singleton.2 rfl)).child mem
  refine (items_lead _ _ _ (formed.items node passes.mem) inside isOpen').because fun f told => ?_
  refine told.imp ?_ fun _ => id
  rintro cause blamed ⟨of, k, node', m'', running, blames⟩
  obtain ⟨before, after, rfl, completed⟩ := passes
  have passes :
      Passes (execute limits.rounds limits.nesting) p.body.body (p.start debug m) node m' :=
    ⟨before, after ++ exits, by rw [whole, List.append_assoc, List.cons_append], completed⟩
  exact ⟨of, .inside ⟨logged, node, m', passes, running⟩ blames⟩

theorem body_leads (outer : Outer p.body.body) (isOpen : (p.start debug m).Open texts) :
    Leads (Machine.From texts) (p.Tells texts limits debug m)
      (p.body.body.forM (execute limits.rounds limits.nesting) (p.start debug m)) := by
  generalize whole : p.body.body = nodes at outer
  cases outer with
  | unclosed formed =>
    have inner := inner_leads of logged (by rw [whole, List.append_nil]) formed isOpen
    exact inner.imp (fun _ => Machine.Open.known) fun _ => id
  | @closed nodes pos formed =>
    rw [List.forM_eq_forM, List.forM_append, List.forM_cons]
    refine .bind (inner_leads of logged whole formed isOpen) (fun _ m' _ isOpen' => ?_)
      fun _ => Machine.Open.known
    have exits : Leads (Machine.From texts) (p.Tells texts limits debug m)
        (execute limits.rounds limits.nesting (.exitMarker pos) m') := by
      match limits.nesting with
      | 0 | 1 | 2 => exact .error isOpen'.known .broken
      | n + 3 => exact .ok nofun
    exact .bind exits (fun _ _ _ known => .ok known) fun _ => id

end Body

theorem run_leads (limits : Limits) (debug : Bool) (of : p.node.IsOf texts)
    (outer : Outer p.body.body) (known : m.From texts) :
    Leads (Machine.From texts) (p.Tells texts limits debug m) (p.run limits debug m) := by
  by_cases logged : debug = true → p.Loggable limits
  · obtain ⟨depth, runs⟩ := run_of_loggable (m := m) logged
    have body := body_leads of logged outer (known.open_start debug p)
    have line : 0 < p.node.pos.line := of.onLines _ .refl
    rw [runs]
    refine .ensuring (.onExhaustion (leads_block body fun _ => Machine.From.pop) fun m' deep => ?_)
      fun m known => known.of_subset (List.drop_subset _ _)
    exact .inside line ⟨of, .tooDeep logged deep⟩
  · obtain ⟨debug, deep⟩ := Classical.not_imp.1 logged
    subst debug
    rw [run_unlogged deep]
    exact .error known .broken

theorem Raises.stops {cause : Fault} {blamed : Node} (raises : p.Raises limits debug m cause blamed)
    (line : 0 < blamed.pos.line) : (p.run limits debug).Stops (.ofCauseAt blamed.pos cause) m := by
  cases raises with
  | inside comes blames =>
    obtain ⟨logged, first, m₁, passes, running⟩ := comes
    obtain ⟨depth, runs⟩ := run_of_loggable (m := m) logged
    obtain ⟨finish, _, whole⟩ := block_run (execute limits.rounds limits.nesting) debug p m
    have body := passes.stops (running.stops line (blames.stops line))
    have inside : (block (execute limits.rounds limits.nesting) false p.body).Stops
        (.ofCauseAt blamed.pos cause) (p.logged debug m) := by
      obtain ⟨m', failed⟩ := body.ensuring finish
      exact ⟨m', whole.trans failed⟩
    obtain ⟨m', failed⟩ := (inside.onExhaustion _).ensuring (Machine.unwind depth)
    exact ⟨m', runs.trans failed⟩
  | tooDeep logged deep =>
    obtain ⟨depth, runs⟩ := run_of_loggable (m := m) logged
    obtain ⟨m', failed⟩ := (onExhaustion_stops deep _).ensuring (Machine.unwind depth)
    exact ⟨m', runs.trans failed⟩

end Program

theorem Session.from_afterSteps (limits : Limits) (debug : Bool) {texts steps : List Step}
    (some : steps ⊆ texts) {m : Machine} (known : m.From texts) :
    (afterSteps limits debug steps m).From texts := by
  induction steps generalizing m with
  | nil => exact known
  | cons step steps ih =>
    obtain ⟨mem, some⟩ := List.cons_subset.1 some
    refine ih some ?_
    change (machineOf (step.run limits debug m)).From texts
    rw [Step.run_eq]
    cases accepted : step.read with
    | error f => exact known
    | ok p =>
      dsimp only
      rw [Step.machineOf_conclude]
      have leads := Program.run_leads limits debug ⟨step, mem, p, accepted, .refl⟩
        (Step.outer_of_read accepted) known
      generalize p.run limits debug m = r at leads
      cases leads with
      | ok known => exact known
      | error known _ => exact known

namespace Step

variable {texts : List Step} {limits : Limits} {debug : Bool} {step : Step} {m m' : Machine}
  {cause : Fault}

theorem raises_of_run {line column : Int} (mem : step ∈ texts) (known : m.From texts)
    (failed : step.run limits debug m =
      .error (.report ⟨.running cause, line, column⟩) m') :
    ∃ p blamed, step.read = .ok p ∧ p.Raises limits debug m cause blamed ∧ blamed.IsOf texts ∧
      1 ≤ line ∧ line = blamed.pos.line ∧ column = blamed.pos.column := by
  rw [run_eq] at failed
  cases accepted : step.read with
  | error f =>
    -- A text that is refused has no fault of a run.
    rw [accepted] at failed
    cases f with
    | report refused => cases failed
    | breakdown => cases failed
  | ok p =>
    rw [accepted] at failed
    dsimp only at failed
    have leads := Program.run_leads limits debug ⟨step, mem, p, accepted, .refl⟩
      (outer_of_read accepted) known
    generalize p.run limits debug m = result at leads failed
    cases leads with
    | ok => cases failed
    | error _ told =>
      cases told with
      | @inside _ blamed positive reached =>
        cases failed
        exact ⟨p, blamed, rfl, reached.2, reached.1, positive, rfl, rfl⟩
      | here none => exact none.elim
      | broken => cases failed

theorem run_of_raises {p : Program} {blamed : Node} (accepted : step.read = .ok p)
    (raises : p.Raises limits debug m cause blamed) (positive : 1 ≤ blamed.pos.line) :
    ∃ m', step.run limits debug m =
      .error (.report ⟨.running cause, blamed.pos.line, blamed.pos.column⟩) m' := by
  obtain ⟨m', failed⟩ := raises.stops positive
  refine ⟨m', ?_⟩
  rw [run_eq, accepted]
  dsimp only
  rw [failed]
  rfl

end Step

/-- In every session, a run fails with a fault exactly if the fault arises in it, and the fault is
reported at the node to blame for it. The node stands in the text that runs, or in an earlier
one. -/
theorem fault_positions (limits : Limits) (debug : Bool) (input : Input) (steps : List Step)
    (step : Step) (cause : Fault) (line column : Int) :
    (∃ m', step.run limits debug (Session.afterSteps limits debug steps { input }) =
      .error (.report ⟨.running cause, line, column⟩) m') ↔
    ∃ p blamed, step.read = .ok p ∧
      p.Raises limits debug (Session.afterSteps limits debug steps { input }) cause blamed ∧
      (∃ origin ∈ steps ++ [step], ∃ tree, origin.read = .ok tree ∧ blamed.Within tree.node) ∧
      1 ≤ line ∧ line = blamed.pos.line ∧ column = blamed.pos.column := by
  have last : step ∈ steps ++ [step] := List.mem_append_right _ (List.mem_singleton.2 rfl)
  have known : (Session.afterSteps limits debug steps { input }).From (steps ++ [step]) :=
    Session.from_afterSteps limits debug (List.subset_append_left _ _) nofun
  constructor
  · rintro ⟨m', failed⟩
    exact Step.raises_of_run last known failed
  · rintro ⟨p, blamed, accepted, raises, _, positive, rfl, rfl⟩
    exact Step.run_of_raises accepted raises positive

theorem fault_positions_kept_procedure :
    let steps := [Step.entry "procedure p;\n  ! 1 + 2 / 0;"]
    let step := Step.entry "\n\ncall p"
    let m := Session.afterSteps {} false steps { input := {} }
    ∃ m' p blamed, step.run {} false m = .error (.report ⟨.running .divideByZero, 2, 13⟩) m' ∧
      step.read = .ok p ∧ p.Raises {} false m .divideByZero blamed ∧
      (∃ origin ∈ steps ++ [step], ∃ tree, origin.read = .ok tree ∧ blamed.Within tree.node) ∧
      blamed.pos.line = 2 ∧ blamed.pos.column = 13 := by
  intro steps step m
  have failed : failureOf (step.run {} false m) =
      some (.report ⟨.running .divideByZero, 2, 13⟩) := by decide +kernel
  cases result : step.run {} false m with
  | ok a m' =>
    rw [result] at failed
    cases failed
  | error g m' =>
    rw [result] at failed
    cases failed
    obtain ⟨p, blamed, accepted, raises, origin, _, line, column⟩ :=
      (fault_positions {} false {} steps step .divideByZero 2 13).1 ⟨m', result⟩
    exact ⟨m', p, blamed, rfl, accepted, raises, origin, line.symm, column.symm⟩

end PlZero
