import PlZero.Proofs.ActionLaws
import PlZero.Proofs.DocumentedFailures

set_option autoImplicit false

namespace PlZero

open Exec WellFormed

namespace Machine

variable {m : Machine}

theorem pop_of_short (short : m.scopes.length ≤ 1) : m.pop = m := by
  unfold pop
  split
  · next scopes => simp [scopes] at short
  · rfl

theorem unwind_of_short {depth : Nat} (short : m.scopes.length ≤ depth) : m.unwind depth = m := by
  have none : m.scopes.length - depth = 0 := by omega
  simp [unwind, Stack.outermost, none]

end Machine

namespace Exec

variable {α β : Type} {m : Machine}

theorem ensuring_eq_self {finish : Machine → Machine} {x : Exec α}
    (same : finish (machineOf (x m)) = machineOf (x m)) : ensuring finish x m = x m := by
  unfold ensuring
  cases result : x m with
  | ok a m' =>
    rw [result] at same
    exact congrArg (EStateM.Result.ok a) same
  | error f m' =>
    rw [result] at same
    exact congrArg (EStateM.Result.error f) same

inductive Exhausted : EStateM.Result Stop Machine α → Prop
  | broken {m : Machine} : Exhausted (.error (.breakdown .exhausted) m)
  | reported {r : Report Fault} {m : Machine} : r.kind = .stackOverflow →
      Exhausted (.error (.report r) m)

instance (r : EStateM.Result Stop Machine α) : Decidable (Exhausted r) :=
  match r with
  | .ok _ _ => .isFalse nofun
  | .error (.report r) _ =>
    decidable_of_iff (r.kind = .stackOverflow) ⟨.reported, fun | .reported overflow => overflow⟩
  | .error (.breakdown b) _ =>
    decidable_of_iff (b = .exhausted) ⟨fun same => same ▸ .broken, fun | .broken => rfl⟩

theorem Exhausted.bind {x : Exec α} {f : α → Exec β} (exhausted : Exhausted (x m)) :
    Exhausted ((x >>= f) m) := by
  simp only [Bind.bind, EStateM.bind]
  generalize x m = r at exhausted
  cases exhausted with
  | broken => exact .broken
  | reported overflow => exact .reported overflow

theorem onExhaustion_eq_self {pos : Position} {x : Exec α}
    (room : ¬ Exhausted (onExhaustion (.ofCauseAt pos .recursionTooDeep) x m)) :
    onExhaustion (.ofCauseAt pos .recursionTooDeep) x m = x m := by
  unfold onExhaustion at room ⊢
  split
  · next result =>
    rw [result] at room
    exact absurd (.reported rfl) room
  · rfl

theorem forM_short (rounds n : Nat) (nodes : List Node) (short : m.scopes.length ≤ 1) :
    (machineOf (nodes.forM (execute rounds n) m)).scopes.length ≤ 1 := by
  have height := stack_law.forM (stack_law.execute (fun _ _ => Nat.zero_le _) rounds n) nodes m
  omega

end Exec

namespace Program

variable {limits : Limits} {debug : Bool} {p : Program} {m : Machine}

theorem scopes_logged (debug : Bool) (p : Program) (m : Machine) :
    (p.logged debug m).scopes = m.scopes := by
  cases debug <;> rfl

theorem start_short (debug : Bool) (p : Program) (short : m.scopes.length ≤ 1) :
    (p.start debug m).scopes.length ≤ 1 := by
  unfold start
  split
  · next none =>
    rw [Machine.push, List.isEmpty_iff.1 none]
    exact Nat.le_refl 1
  · rwa [scopes_logged]

theorem start_ne_nil : (p.start debug m).scopes ≠ [] := by
  unfold start
  split
  · exact List.cons_ne_nil _ _
  · next some => exact fun none => some (List.isEmpty_iff.2 none)

theorem unlogged_start (debug : Bool) (p q : Program) (m : Machine) :
    (p.start debug m).unlogged = (q.start debug m).unlogged := by
  unfold start
  rw [scopes_logged, scopes_logged]
  cases debug <;> split <;> rfl

theorem unlogged_start_of_ne_nil (some : m.scopes ≠ []) :
    (p.start debug m).unlogged = m.unlogged := by
  have active : m.scopes.isEmpty = false := by simpa using some
  unfold start
  rw [scopes_logged, active]
  cases debug <;> rfl

theorem run_of_short (short : m.scopes.length ≤ 1) (logged : debug = true → p.Loggable limits) :
    p.run limits debug m = onExhaustion (.ofCauseAt p.pos .recursionTooDeep)
      (p.body.body.forM (execute limits.rounds limits.nesting)) (p.start debug m) := by
  have short' : (p.logged debug m).scopes.length ≤ 1 := by rwa [scopes_logged]
  have runs : p.run limits debug m = p.runLogged limits (p.logged debug m) := by
    rw [run_eq]
    cases debug with
    | false => rfl
    | true =>
      rw [if_pos rfl]
      simp only [Bind.bind, EStateM.bind, log_run (logged rfl)]
      rfl
  have inside : block (execute limits.rounds limits.nesting) false p.body (p.logged debug m) =
      p.body.body.forM (execute limits.rounds limits.nesting) (p.start debug m) := by
    change (if (false || (p.logged debug m).scopes.isEmpty) = true then _ else _ : Exec Unit)
      (p.logged debug m) = _
    rw [Bool.false_or]
    have height := forM_short limits.rounds limits.nesting p.body.body
      (start_short debug p short)
    unfold start at height ⊢
    split
    · next none =>
      rw [if_pos none] at height
      exact ensuring_eq_self (Machine.pop_of_short height)
    · rfl
  have one : (if (p.logged debug m).scopes.length = 0 then 1
      else (p.logged debug m).scopes.length) = 1 := by
    split <;> omega
  rw [runs]
  change ensuring (Machine.unwind _) (onExhaustion _ (block _ false p.body)) (p.logged debug m) = _
  rw [one]
  have same : onExhaustion (.ofCauseAt p.pos .recursionTooDeep)
      (block (execute limits.rounds limits.nesting) false p.body) (p.logged debug m) =
      onExhaustion (.ofCauseAt p.pos .recursionTooDeep)
        (p.body.body.forM (execute limits.rounds limits.nesting)) (p.start debug m) := by
    unfold onExhaustion
    rw [inside]
  rw [ensuring_eq_self, same]
  apply Machine.unwind_of_short
  rw [same, machineOf_onExhaustion]
  exact forM_short _ _ _ (start_short debug p short)

theorem loggable_of_room (room : ¬ Exhausted (p.run limits debug m)) :
    debug = true → p.Loggable limits := by
  rintro rfl
  by_contra deep
  rw [run_unlogged deep] at room
  exact room .broken

theorem run_of_room (short : m.scopes.length ≤ 1) (room : ¬ Exhausted (p.run limits debug m)) :
    p.run limits debug m =
      p.body.body.forM (execute limits.rounds limits.nesting) (p.start debug m) := by
  have runs := run_of_short short (loggable_of_room room)
  rw [runs] at room ⊢
  exact onExhaustion_eq_self room

end Program

section Pieces

variable {limits : Limits} {debug : Bool} {m : Machine} {first second whole : Program}

-- An exit comes to the same whether it ends a new root or finds no scope.
theorem exit_alike {m₁ m₂ : Machine} {pos : Position} {rounds n : Nat} {p : Program}
    (same : m₁.unlogged = m₂.unlogged)
    (room : ¬ Exhausted ([Node.exitMarker pos].forM (execute rounds n) (p.start debug m₁))) :
    Alike ([Node.exitMarker pos].forM (execute rounds n) (p.start debug m₁))
      ([Node.exitMarker pos].forM (execute rounds n) m₂) := by
  match n with
  | 0 | 1 | 2 => exact absurd .broken room
  | n + 3 =>
    obtain ⟨log, rfl⟩ := Machine.exists_log same
    refine .ok ?_
    unfold Program.start
    cases debug <;> split <;> rfl

theorem pieces_alike (short : m.scopes.length ≤ 1)
    (split : whole.body.body = first.body.body ++ second.body.body)
    (lasting : ∀ m₁, first.run limits debug m = .ok () m₁ → m₁.scopes = [] →
      ∃ pos, second.body.body = [.exitMarker pos])
    (room : ¬ Exhausted (whole.run limits debug m))
    (room' : ¬ Exhausted ((first.run limits debug >>= fun _ => second.run limits debug) m)) :
    Alike ((first.run limits debug >>= fun _ => second.run limits debug) m)
      (whole.run limits debug m) := by
  have blind := log_law.forM (log_law.execute
    (fun line m m' same => by obtain ⟨log, rfl⟩ := Machine.exists_log same; exact .ok rfl)
    limits.rounds limits.nesting)
  have runs := Program.run_of_room short fun exhausted => room' exhausted.bind
  rw [Program.run_of_room short room, split, List.forM_eq_forM, List.forM_append]
  refine Alike.bind ?_ fun _ m₁ m₂ completed same => ?_
  · rw [runs]
    exact blind _ (Program.unlogged_start debug first whole m)
  · have short₁ : m₁.scopes.length ≤ 1 := by
      have height := forM_short limits.rounds limits.nesting first.body.body
        (Program.start_short debug first short)
      rwa [← runs, completed] at height
    have room₁ : ¬ Exhausted (second.run limits debug m₁) := by
      simpa only [Bind.bind, EStateM.bind, completed] using room'
    have runs₁ := Program.run_of_room short₁ room₁
    rw [runs₁] at room₁ ⊢
    by_cases none : m₁.scopes = []
    · obtain ⟨pos, exits⟩ := lasting m₁ completed none
      rw [exits] at room₁ ⊢
      exact exit_alike same room₁
    · exact blind _ ((Program.unlogged_start_of_ne_nil none).trans same)

end Pieces

inductive Node.Declares : Node → Prop
  | declarations {pos : Position} {group : List VariableDeclaration} :
      Declares (.declarations pos group)
  | procedure {pos : Position} {name : String} {b : Block Node} : Declares (.procedure pos name b)

theorem Node.Declares.height {node : Node} (declares : node.Declares) (rounds n : Nat)
    {m : Machine} (some : m.scopes ≠ []) :
    (machineOf (execute rounds n node m)).scopes.length = m.scopes.length := by
  match n with
  | 0 | 1 | 2 => rfl
  | n + 3 =>
    cases declares with
    | declarations =>
      exact height_law.locating _ (height_law.forM (height_law.declare _) _) m some
    | procedure => exact height_law.locating _ (height_law.onInnermost _) m some

theorem declares_forM {nodes : List Node} (declares : ∀ node ∈ nodes, node.Declares)
    (rounds n : Nat) {m m' : Machine} (some : m.scopes ≠ [])
    (completed : nodes.forM (execute rounds n) m = .ok () m') : m'.scopes ≠ [] := by
  induction nodes generalizing m with
  | nil =>
    cases completed
    exact some
  | cons node nodes ih =>
    change (execute rounds n node >>= fun _ => nodes.forM (execute rounds n)) m = _ at completed
    have height := (declares node List.mem_cons_self).height rounds n some
    simp only [Bind.bind, EStateM.bind] at completed
    cases result : execute rounds n node m with
    | error => rw [result] at completed; cases completed
    | ok a m₁ =>
      rw [result] at completed height
      have some₁ : m₁.scopes ≠ [] := by
        rw [← List.length_pos_iff]
        exact (List.length_pos_iff.2 some).trans_eq height.symm
      exact ih (fun node mem => declares node (List.mem_cons_of_mem _ mem)) some₁ completed

namespace WellFormed

theorem Group.declares {Item : VariableDeclaration → Prop} {nodes : List Node}
    (group : Group Item nodes) : ∀ node ∈ nodes, node.Declares := by
  cases group with
  | absent => nofun
  | present => exact List.forall_mem_singleton.2 .declarations

theorem Procedure.declares {node : Node} (procedure : Procedure Lexicon node) :
    node.Declares := by
  cases procedure
  exact .procedure

theorem Outer.parts {nodes : List Node} (outer : Outer nodes) :
    ∃ (declared exits : List Node) (statement : Option Node),
      nodes = declared ++ (statement.toList ++ exits) ∧ (∀ node ∈ declared, node.Declares) ∧
        (exits = [] ∨ ∃ pos, exits = [.exitMarker pos]) := by
  have declares {constants vars procedures : List Node} (group : Group (Constant Lexicon) constants)
      (group' : Group (Variable Lexicon) vars)
      (formed : ∀ node ∈ procedures, Procedure Lexicon node) :
      ∀ node ∈ constants ++ vars ++ procedures, node.Declares := by
    intro node mem
    rcases List.mem_append.1 mem with mem | mem
    · rcases List.mem_append.1 mem with mem | mem
      · exact group.declares node mem
      · exact group'.declares node mem
    · exact (formed node mem).declares
  cases outer with
  | unclosed body =>
    obtain ⟨constants, vars, procedures, _⟩ := body
    exact ⟨_, [], _, by rw [List.append_nil], declares constants vars procedures, .inl rfl⟩
  | closed body =>
    obtain ⟨constants, vars, procedures, _⟩ := body
    exact ⟨_, _, _, List.append_assoc _ _ _, declares constants vars procedures, .inr ⟨_, rfl⟩⟩

theorem Outer.split {before after : List Node} (outer : Outer (before ++ after))
    (unmarked : ∀ node ∈ before, node.isExitMarker = false) :
    after = [] ∨ (∃ pos, after = [.exitMarker pos]) ∨ ∀ node ∈ before, node.Declares := by
  obtain ⟨declared, exits, statement, parts, declares, ends⟩ := outer.parts
  have noExit {rest : List Node} (within : ∀ node ∈ rest, node ∈ before)
      (tail : exits = rest ++ after) : exits = after := by
    rcases ends with rfl | ⟨pos, rfl⟩
    · simpa using (List.nil_eq_append_iff.1 tail).2.symm
    · cases rest with
      | nil => exact tail
      | cons node rest =>
        have marked := unmarked node (within node List.mem_cons_self)
        rw [← (List.cons.inj tail).1] at marked
        cases marked
  rcases List.append_eq_append_iff.1 parts with ⟨rest, rfl, _⟩ | ⟨rest, rfl, tail⟩
  · exact .inr (.inr fun node mem => declares node (List.mem_append_left _ mem))
  · have within : ∀ node ∈ rest, node ∈ declared ++ rest :=
      fun node mem => List.mem_append_right _ mem
    cases rest with
    | nil => exact .inr (.inr (by simpa using declares))
    | cons node rest =>
      have same : exits = after := by
        cases statement with
        | none => exact noExit within tail
        | some statement =>
          refine noExit (fun node mem => within node (List.mem_cons_of_mem _ mem)) ?_
          exact (List.cons.inj tail).2
      rcases ends with rfl | marked
      · exact .inl same.symm
      · exact .inr (.inl (same ▸ marked))

end WellFormed

theorem Block.Outermost.inner {closed : Bool} {b : Block Node} (outer : b.Outermost closed)
    {node : Node} (mem : node ∈ b.body) (unmarked : node.isExitMarker = false) : node.Inner := by
  cases outer with
  | unclosed inner => exact inner node mem
  | closed inner =>
    rcases List.mem_append.1 mem with mem | mem
    · exact inner node mem
    · rw [List.mem_singleton.1 mem] at unmarked
      cases unmarked

/-- A text that is run in two pieces, with the root alone active or no scope at all, runs as it does
whole: it gives the same output, takes the same input, fails in the same way and leaves the same
scopes. The second piece may be empty only if the first leaves a scope, as it does where every
procedure comes from a text. -/
theorem pieces_run_as_whole (limits : Limits) (debug : Bool) {m : Machine}
    (short : m.scopes.length ≤ 1) {step : Step} {whole first second : Program}
    (accepted : step.read = .ok whole)
    (split : whole.body.body = first.body.body ++ second.body.body)
    (unmarked : ∀ node ∈ first.body.body, node.isExitMarker = false)
    (room : ¬ Exhausted (whole.run limits debug m))
    (room' : ¬ Exhausted ((first.run limits debug >>= fun _ => second.run limits debug) m)) :
    (m.scopes.Callable → ∀ m', first.run limits debug m = .ok () m' → m'.scopes ≠ []) ∧
      ((second.body.body = [] → ∀ m', first.run limits debug m = .ok () m' → m'.scopes ≠ []) →
        Alike ((first.run limits debug >>= fun _ => second.run limits debug) m)
          (whole.run limits debug m)) := by
  have runs := Program.run_of_room short fun exhausted => room' exhausted.bind
  constructor
  · intro callable m' completed
    have inner (node : Node) (mem : node ∈ first.body.body) : node.Inner := by
      refine (Step.outermost_of_read accepted).inner ?_ (unmarked node mem)
      rw [split]
      exact List.mem_append_left _ mem
    have resting : m.Resting := ⟨short, callable⟩
    rw [runs] at completed
    exact (active_of_forM inner (resting.active_start debug first) completed).ne_nil
  · intro lasting
    have outer := Step.outer_of_read accepted
    rw [split] at outer
    refine pieces_alike short split (fun m₁ completed none => ?_) room room'
    rcases outer.split unmarked with empty | marked | declares
    · exact absurd none (lasting empty m₁ completed)
    · exact marked
    · rw [runs] at completed
      exact absurd none (declares_forM declares _ _ Program.start_ne_nil completed)

def Program.upTo (k : Nat) (p : Program) : Program := ⟨p.pos, ⟨p.body.pos, p.body.body.take k⟩⟩

def Program.from (k : Nat) (p : Program) : Program := ⟨p.pos, ⟨p.body.pos, p.body.body.drop k⟩⟩

theorem pieces_run_as_whole_division :
    ∃ whole, (Step.entry "var x; procedure p; ? x; begin call p; ! 1 / 0 end.").read = .ok whole ∧
      Alike (((whole.upTo 2).run {} true >>= fun _ => (whole.from 2).run {} true)
          { input := { lines := ["7", "8"] } })
        (whole.run {} true { input := { lines := ["7", "8"] } }) := by
  let step := Step.entry "var x; procedure p; ? x; begin call p; ! 1 / 0 end."
  let m : Machine := { input := { lines := ["7", "8"] } }
  have checked : (step.read.toOption.any fun whole =>
      (whole.upTo 2).body.body.all (! ·.isExitMarker) &&
        decide (¬ Exhausted (whole.run {} true m)) &&
        decide (¬ Exhausted (((whole.upTo 2).run {} true >>= fun _ =>
          (whole.from 2).run {} true) m))) = true := by decide +kernel
  cases accepted : step.read with
  | error f =>
    rw [accepted] at checked
    cases checked
  | ok whole =>
    rw [accepted] at checked
    simp only [Except.toOption, Option.any_some, Bool.and_eq_true, decide_eq_true_eq,
      List.all_eq_true, Bool.not_eq_true'] at checked
    obtain ⟨⟨unmarked, room⟩, room'⟩ := checked
    have split : whole.body.body = (whole.upTo 2).body.body ++ (whole.from 2).body.body :=
      (List.take_append_drop 2 _).symm
    obtain ⟨lasts, alike⟩ := pieces_run_as_whole {} true (m := m) (Nat.zero_le 1) accepted split
      unmarked room room'
    exact ⟨whole, rfl, alike fun _ => lasts nofun⟩

theorem Alike.scopes_eq {α : Type} {r r' : EStateM.Result Stop Machine α} (alike : Alike r r') :
    (machineOf r).scopes = (machineOf r').scopes := by
  cases alike with
  | ok same => exact (congrArg Machine.scopes same :)
  | error same => exact (congrArg Machine.scopes same :)

def endingMachine : Machine :=
  machineOf (Program.run {} false
    ⟨.start, ⟨.start, [.procedure .start "p" ⟨.start, [.exitMarker .start]⟩]⟩⟩ {})

theorem empty_piece_opens_root :
    endingMachine.scopes.length ≤ 1 ∧
    ∃ whole, (Step.entry "call p").read = .ok whole ∧
      (∀ node ∈ (whole.upTo 1).body.body, node.isExitMarker = false) ∧
      ¬ Exhausted (whole.run {} false endingMachine) ∧
      ¬ Exhausted (((whole.upTo 1).run {} false >>= fun _ => (whole.from 1).run {} false)
        endingMachine) ∧
      ¬ Alike (((whole.upTo 1).run {} false >>= fun _ => (whole.from 1).run {} false)
          endingMachine)
        (whole.run {} false endingMachine) := by
  have checked : ((Step.entry "call p").read.toOption.any fun whole =>
      (whole.upTo 1).body.body.all (! ·.isExitMarker) &&
        decide (¬ Exhausted (whole.run {} false endingMachine)) &&
        decide (¬ Exhausted (((whole.upTo 1).run {} false >>= fun _ =>
          (whole.from 1).run {} false) endingMachine)) &&
        (machineOf (((whole.upTo 1).run {} false >>= fun _ =>
          (whole.from 1).run {} false) endingMachine)).scopes.length ==
        (machineOf (whole.run {} false endingMachine)).scopes.length + 1) = true := by
    decide +kernel
  refine ⟨by decide +kernel, ?_⟩
  cases accepted : (Step.entry "call p").read with
  | error f =>
    rw [accepted] at checked
    cases checked
  | ok whole =>
    rw [accepted] at checked
    simp only [Except.toOption, Option.any_some, Bool.and_eq_true, decide_eq_true_eq,
      List.all_eq_true, Bool.not_eq_true', beq_iff_eq] at checked
    obtain ⟨⟨⟨unmarked, room⟩, room'⟩, more⟩ := checked
    refine ⟨whole, rfl, unmarked, room, room', fun alike => ?_⟩
    rw [alike.scopes_eq] at more
    omega

end PlZero
