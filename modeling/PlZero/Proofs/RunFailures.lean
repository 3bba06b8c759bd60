import PlZero.Proofs.FailureOrigins
import PlZero.Proofs.Outcomes
import PlZero.Proofs.StatementFrame

set_option autoImplicit false

namespace PlZero

open Number WellFormed Exec

inductive Evaluates (rounds : Nat) : Nat → Node → Machine → Nat → Node → Stack → Prop
  | assigned {n : Nat} {pos : Position} {target : Identifier} {e : Node} {m : Machine} :
      Evaluates rounds (n + 3) (.assignment pos target e) m (n + 1) e m.scopes
  | printed {n : Nat} {pos : Position} {e : Node} {m : Machine} :
      Evaluates rounds (n + 3) (.print pos e) m (n + 1) e m.scopes
  | chosen {n : Nat} {pos : Position} {c : PlZero.Condition Node} {body : Option Node}
      {m : Machine} :
      Evaluates rounds (n + 3) (.conditional pos c body) m (n + 2) (.condition c) m.scopes
  | repeated {n i : Nat} {pos : Position} {c : PlZero.Condition Node} {body : Option Node}
      {m m' : Machine} : i < rounds →
      Rounds (test (n + 1) c) (body.forM (execute rounds (n + 1))) i m m' →
      Evaluates rounds (n + 3) (.loop pos c body) m (n + 2) (.condition c) m'.scopes
  | declared {n : Nat} {pos : Position} {group : List VariableDeclaration}
      {d : VariableDeclaration} {l : PlZero.Literal} {m m' : Machine} :
      Passes (declare (n + 1)) group m d m' → d.isConstant = true → d.value = some l →
      Evaluates rounds (n + 3) (.declarations pos group) m (n + 1) (.literal l) m'.scopes

inductive BreaksAt (rounds : Nat) : Nat → Node → Machine → Breakdown → Prop
  | expression {n k : Nat} {node e : Node} {m : Machine} {st : Stack} {b : Breakdown} :
      Evaluates rounds n node m k e st → BreaksIn st k e b → BreaksAt rounds n node m b
  | loop {n : Nat} {pos : Position} {c : PlZero.Condition Node} {body : Option Node}
      {m m' : Machine} :
      Rounds (test (n + 1) c) (body.forM (execute rounds (n + 1))) rounds m m' →
      BreaksAt rounds (n + 3) (.loop pos c body) m .unfinished

def BreaksRunning (rounds n : Nat) (node : Node) (m : Machine) (b : Breakdown) : Prop :=
  ∃ k node' m', Running rounds n node m k node' m' ∧ BreaksAt rounds k node' m' b

/-- The procedures that a machine knows are those of texts, and nobody interrupts its readings. -/
structure Machine.Lawful (m : Machine) : Prop where
  procedures : ∀ table ∈ m.scopes.map Scope.procedureTable, ∀ entry ∈ table,
    Body Lexicon entry.2.body.body
  patient : m.input.patience = none

structure Machine.Ready (m : Machine) : Prop extends m.Lawful where
  some : m.scopes ≠ []

namespace Exec

inductive Fares {α : Type} (Inv : Machine → Prop) (Source : Breakdown → Prop) :
    EStateM.Result Stop Machine α → Prop
  | ok {a : α} {m : Machine} : Inv m → Fares Inv Source (.ok a m)
  | error {f : Stop} {m : Machine} : Inv m → Explained Source f → Fares Inv Source (.error f m)

variable {α β : Type} {Inv Inv' : Machine → Prop} {Source Source' : Breakdown → Prop} {m : Machine}

theorem fares_iff_leads {r : EStateM.Result Stop Machine α} :
    Fares Inv Source r ↔ Leads Inv (Explained Source) r := by
  constructor
  · rintro (inv | ⟨inv, explained⟩)
    · exact .ok inv
    · exact .error inv explained
  · rintro (inv | ⟨inv, explained⟩)
    · exact .ok inv
    · exact .error inv explained

namespace Fares

theorem imp {r : EStateM.Result Stop Machine α} (h : Fares Inv Source r)
    (states : ∀ m, Inv m → Inv' m) (sources : ∀ b, Source b → Source' b) :
    Fares Inv' Source' r := by
  cases h with
  | ok inv => exact .ok (states _ inv)
  | error inv explained => exact .error (states _ inv) (explained.imp sources)

theorem because {r : EStateM.Result Stop Machine α} (h : Fares Inv Source r)
    (sources : ∀ b, Source b → Source' b) : Fares Inv Source' r :=
  h.imp (fun _ => id) sources

theorem bind {x : Exec α} {f : α → Exec β} (first : Fares Inv Source (x m))
    (rest : ∀ a m', x m = .ok a m' → Inv m' → Fares Inv' Source (f a m'))
    (states : ∀ m, Inv m → Inv' m) : Fares Inv' Source ((x >>= f) m) := by
  simp only [Bind.bind, EStateM.bind]
  generalize result : x m = r at first
  cases first with
  | ok inv => exact rest _ _ result inv
  | error inv explained => exact .error (states _ inv) explained

theorem locating {p : Position} {x : Exec α} (h : Fares Inv Source (x m)) :
    Fares Inv Source (locating p x m) := by
  unfold Exec.locating
  generalize x m = r at h
  cases h with
  | ok inv => exact .ok inv
  | error inv explained => exact .error inv (explained.locate p)

theorem onExhaustion {f : Stop} {x : Exec α} (documented : Explained Source f)
    (h : Fares Inv Source (x m)) : Fares Inv Source (onExhaustion f x m) := by
  unfold Exec.onExhaustion
  generalize x m = r at h
  split
  · cases h with
    | error inv _ => exact .error inv documented
  · exact h

theorem ensuring {finish : Machine → Machine} {x : Exec α} (h : Fares Inv Source (x m))
    (states : ∀ m, Inv m → Inv' (finish m)) : Fares Inv' Source (ensuring finish x m) := by
  unfold Exec.ensuring
  generalize x m = r at h
  cases h with
  | ok inv => exact .ok (states _ inv)
  | error inv explained => exact .error (states _ inv) explained

theorem ofExcept {Good : α → Prop} {x : Except Stop α} (h : Settled Source Good x) (inv : Inv m) :
    Fares Inv Source (ofExcept x m) := by
  cases h with
  | ok => exact .ok inv
  | error explained => exact .error inv explained

theorem forM {f : α → Exec Unit} {as : List α}
    (each : ∀ a m', Passes f as m a m' → Inv m' → Fares Inv Source (f a m')) (inv : Inv m) :
    Fares Inv Source (as.forM f m) := by
  rw [fares_iff_leads]
  exact .forM (fun a m' passes inv => fares_iff_leads.1 (each a m' passes inv)) inv

theorem repeatWhile {test : Exec Bool} {body : Exec Unit} {rounds : Nat}
    (tests : ∀ i m', i < rounds → Rounds test body i m m' → Inv m' → Fares Inv Source (test m'))
    (bodies : ∀ i m₁ m₂, i < rounds → Rounds test body i m m₁ → test m₁ = .ok true m₂ → Inv m₂ →
      Fares Inv Source (body m₂))
    (ends : ∀ m', Rounds test body rounds m m' → Source .unfinished) (inv : Inv m) :
    Fares Inv Source (repeatWhile test body rounds m) := by
  simp only [fares_iff_leads] at tests bodies ⊢
  exact .repeatWhile tests bodies (fun m' passed => .broken (ends m' passed)) inv

end Fares

end Exec

theorem Stack.Framed.tables_eq {st st' : Stack} (h : st.Framed st') :
    st'.map Scope.procedureTable = st.map Scope.procedureTable := by
  induction h with
  | nil => rfl
  | cons first _ ih => rw [List.map_cons, List.map_cons, ih, first.kept.procedures]

theorem Variable.sound_assign {d : Datum} {w : Value} (value : d.toValue = .ok w) (v : Variable) :
    Sound (v.assign d) := by
  unfold assign
  split
  · exact .fault (.of_kind .reassignedConstant rfl (by decide) nofun)
  · rw [value]
    exact .ok _

theorem Stack.sound_assign {d : Datum} {w : Value} (value : d.toValue = .ok w) (name : String)
    (st : Stack) : Sound (st.assign name d) := by
  induction st with
  | nil => exact .fault (.of_kind .undefinedName rfl (by decide) nofun)
  | cons s st ih =>
    rw [assign]
    split
    · exact (Variable.sound_assign value _).map fun _ => id
    · exact ih.map fun _ => id

theorem Scope.sound_declareVariable {d : Datum} {w : Value} (value : d.toValue = .ok w)
    (name : String) (isConstant : Bool) (s : Scope) :
    Sound (s.declareVariable name d isConstant) := by
  unfold declareVariable
  split
  · exact .fault (.of_kind .redeclared rfl (by decide) nofun)
  · rw [value]
    exact .ok _

theorem Scope.sound_declareProcedure (p : Procedure) (s : Scope) :
    Sound (s.declareProcedure p) := by
  unfold declareProcedure
  split
  · exact .fault (.of_kind .redeclared rfl (by decide) nofun)
  · exact .ok _

namespace Machine

variable {m m' : Machine}

theorem Ready.of_tables (ready : m.Ready)
    (same : m'.scopes.map Scope.procedureTable = m.scopes.map Scope.procedureTable)
    (input : m'.input.patience = m.input.patience) : m'.Ready := by
  refine ⟨⟨same ▸ ready.procedures, input.trans ready.patient⟩, ?_⟩
  intro none
  rw [none] at same
  exact ready.some (List.map_eq_nil_iff.1 same.symm)

theorem Lawful.ready_push (lawful : m.Lawful) : m.push.Ready := by
  refine ⟨⟨?_, lawful.patient⟩, List.cons_ne_nil _ _⟩
  exact List.forall_mem_cons.2 ⟨nofun, lawful.procedures⟩

theorem Lawful.pop (lawful : m.Lawful) : m.pop.Lawful := by
  have procedures := lawful.procedures
  unfold Machine.pop
  split
  · next scope s st scopes =>
    rw [scopes] at procedures
    exact ⟨(List.forall_mem_cons.1 procedures).2, lawful.patient⟩
  · exact lawful

theorem Ready.pop (ready : m.Ready) : m.pop.Ready := by
  refine ⟨ready.toLawful.pop, ?_⟩
  unfold Machine.pop
  split
  · exact List.cons_ne_nil _ _
  · exact ready.some

theorem Lawful.unwind (lawful : m.Lawful) (depth : Nat) : (m.unwind depth).Lawful := by
  refine ⟨fun table mem => lawful.procedures table ?_, lawful.patient⟩
  exact List.map_subset _ (List.drop_subset _ _) mem

theorem Lawful.body_of_findProcedure {name : String} {p : Procedure} (lawful : m.Lawful)
    (found : m.scopes.findProcedure name = some p) : Body Lexicon p.body.body := by
  obtain ⟨s, mem, found⟩ := List.exists_of_findSome?_eq_some found
  obtain ⟨earlier, later, table, _⟩ := List.lookup_eq_some_iff.1 found
  exact lawful.procedures s.procedureTable (List.mem_map_of_mem mem) (name, p) (by simp [table])

end Machine

namespace Exec

variable {Source : Breakdown → Prop} {m : Machine} {n : Nat}

theorem fares_onInnermost {change : Scope → Except Stop Scope} (sound : ∀ s, Sound (change s))
    (bodies : ∀ s s', change s = .ok s' → ∀ entry ∈ s'.procedureTable,
      entry ∈ s.procedureTable ∨ Body Lexicon entry.2.body.body)
    (ready : m.Ready) : Fares Machine.Ready Source (onInnermost change m) := by
  unfold onInnermost
  cases scopes : m.scopes with
  | nil => exact absurd scopes ready.some
  | cons s st =>
    dsimp only
    have settled : Settled Source (fun _ => True) (change s) := (sound s).settled
    have procedures := ready.procedures
    rw [scopes, List.map_cons, List.forall_mem_cons] at procedures
    generalize changed : change s = result at settled
    cases settled with
    | error explained => exact .error ready explained
    | ok =>
      refine .ok ⟨⟨?_, ready.patient⟩, List.cons_ne_nil _ _⟩
      refine List.forall_mem_cons.2 ⟨fun entry mem => ?_, procedures.2⟩
      exact (bodies s _ changed entry mem).elim (procedures.1 entry) id

theorem fares_result {e : Node} (formed : Expression Lexicon e) (ready : m.Ready) :
    Fares Machine.Ready (BreaksIn m.scopes n e) (result n e m) :=
  .ofExcept (settled_evaluate ready.some formed n) ready

theorem result_eq {e : Node} {r : Result} {m' : Machine} (formed : Expression Lexicon e)
    (ready : m.Ready) (completed : result n e m = .ok r m') : ∃ v, r = .value v := by
  have settled := settled_evaluate ready.some formed n
  change ofExcept (evaluate m.scopes n e) m = _ at completed
  generalize evaluate m.scopes n e = x at settled completed
  cases settled with
  | ok holds =>
    cases completed
    exact holds
  | error => cases completed

theorem fares_value {e : Node} (formed : Expression Lexicon e) (ready : m.Ready) :
    Fares Machine.Ready (BreaksIn m.scopes n e) (value n e m) := by
  refine .bind (fares_result formed ready) (fun r m' completed ready' => ?_) fun _ => id
  obtain ⟨v, rfl⟩ := result_eq formed ready completed
  exact .ok ready'

theorem fares_test {c : PlZero.Condition Node} (formed : WellFormed.Condition Lexicon c)
    (ready : m.Ready) :
    Fares Machine.Ready (BreaksIn m.scopes (n + 1) (.condition c)) (test n c m) :=
  .ofExcept (settled_holds ready.some formed n) ready

theorem fares_assign {d : Datum} {v : Value} (value : d.toValue = .ok v) (name : String)
    (ready : m.Ready) : Fares Machine.Ready Source (assign name d m) := by
  have settled : Settled Source (fun _ => True) (m.scopes.assign name d) :=
    (Stack.sound_assign value name m.scopes).settled
  unfold assign
  simp only [Bind.bind, EStateM.bind, activeScopes_run ready.some]
  generalize assigned : Stack.assign name d m.scopes = x at settled
  cases settled with
  | error explained => exact .error ready explained
  | ok => exact .ok (ready.of_tables (Stack.framed_assign assigned).1.tables_eq rfl)

-- There is something to assign at the end of the input, too.
theorem readDatum_eq (patient : m.input.patience = none) :
    ∃ d v m', readDatum m = .ok d m' ∧ d.toValue = .ok v ∧ m'.scopes = m.scopes ∧
      m'.input.patience = m.input.patience := by
  obtain ⟨scopes, ⟨lines, patience⟩, output, log⟩ := m
  cases patient
  cases lines with
  | nil => exact ⟨_, _, _, rfl, rfl, rfl, rfl⟩
  | cons line lines => exact ⟨_, _, _, rfl, rfl, rfl, rfl⟩

theorem fares_input (name : String) (ready : m.Ready) :
    Fares Machine.Ready Source (input name m) := by
  unfold input
  simp only [Bind.bind, EStateM.bind, activeScopes_run ready.some]
  cases m.scopes.findVariable name with
  | none => exact .error ready (.reported (.of_kind .undefinedName rfl (by decide) nofun))
  | some =>
    obtain ⟨d, v, m', read, value, scopes, patience⟩ := readDatum_eq ready.patient
    simp only [EStateM.bind, read]
    exact fares_assign value name (ready.of_tables (by rw [scopes]) patience)

theorem fares_declareVariable {d : Datum} {v : Value} (value : d.toValue = .ok v) (name : String)
    (isConstant : Bool) (ready : m.Ready) :
    Fares Machine.Ready Source (onInnermost (·.declareVariable name d isConstant) m) := by
  refine fares_onInnermost (Scope.sound_declareVariable value name isConstant) ?_ ready
  intro s s' declared entry mem
  rw [(Scope.grown_declareVariable (List.mem_singleton.2 rfl) declared).2] at mem
  exact .inl mem

theorem fares_declareProcedure {p : Procedure} (formed : Body Lexicon p.body.body)
    (ready : m.Ready) : Fares Machine.Ready Source (onInnermost (·.declareProcedure p) m) := by
  refine fares_onInnermost (Scope.sound_declareProcedure p) ?_ ready
  intro s s' declared entry mem
  rw [(Scope.grown_declareProcedure (List.mem_singleton.2 rfl) declared).2] at mem
  rcases List.mem_cons.1 mem with rfl | mem
  · exact .inr formed
  · exact .inl mem

theorem fares_declare_constant {d : VariableDeclaration} {l : PlZero.Literal}
    (formed : WellFormed.Constant Lexicon d) (value : d.value = some l) (ready : m.Ready) :
    Fares Machine.Ready (BreaksIn m.scopes n (.literal l)) (declare n d m) := by
  cases formed with
  | mk named literal =>
    cases value
    refine .locating (.bind (fares_value (.literal literal) ready) (fun v m' _ ready' => ?_)
      fun _ => id)
    exact fares_declareVariable rfl _ true ready'

theorem fares_declare_variable {d : VariableDeclaration} (formed : WellFormed.Variable Lexicon d)
    (ready : m.Ready) : Fares Machine.Ready Source (declare n d m) := by
  cases formed with
  | mk named => exact .locating (fares_declareVariable rfl _ false ready)

end Exec

inductive WellFormed.Item : Node → Prop
  | constants {pos : Position} {group : List VariableDeclaration} :
      (∀ d ∈ group, Constant Lexicon d) → Item (.declarations pos group)
  | vars {pos : Position} {group : List VariableDeclaration} :
      (∀ d ∈ group, Variable Lexicon d) → Item (.declarations pos group)
  | procedure {node : Node} : Procedure Lexicon node → Item node
  | statement {node : Node} : Statement Lexicon node → Item node

theorem WellFormed.Body.items {nodes : List Node} (formed : Body Lexicon nodes) :
    ∀ node ∈ nodes, Item node := by
  obtain ⟨constants, vars, procedures, statement⟩ := formed
  intro node mem
  simp only [List.mem_append] at mem
  rcases mem with ((mem | mem) | mem) | mem
  · cases constants with
    | absent => cases mem
    | present _ items =>
      cases List.mem_singleton.1 mem
      exact .constants items
  · cases vars with
    | absent => cases mem
    | present _ items =>
      cases List.mem_singleton.1 mem
      exact .vars items
  · exact .procedure (procedures node mem)
  · exact .statement (statement node (Option.mem_toList.1 mem))

def ItemsFare (rounds n : Nat) : Prop :=
  ∀ {node m}, Item node → m.Ready →
    Fares Machine.Ready (BreaksRunning rounds n node m) (execute rounds n node m)

section Running

variable {rounds n k : Nat} {node inner e : Node} {m m' : Machine} {st : Stack}

theorem BreaksRunning.of_evaluates (evaluates : Evaluates rounds n node m k e st) (b : Breakdown)
    (breaks : BreaksIn st k e b) : BreaksRunning rounds n node m b :=
  ⟨n, node, m, .here, .expression evaluates breaks⟩

theorem BreaksRunning.of_running {n' : Nat}
    (comes : ∀ {k node' m''}, Running rounds n inner m' k node' m'' →
      Running rounds n' node m k node' m'') (b : Breakdown)
    (breaks : BreaksRunning rounds n inner m' b) : BreaksRunning rounds n' node m b := by
  obtain ⟨k, node', m'', running, breaks⟩ := breaks
  exact ⟨k, node', m'', comes running, breaks⟩

-- The nodes of a procedure run in a scope of their own, on top of those of the call.
theorem fares_call (fare : ItemsFare rounds n) {pos : Position} {target : Identifier}
    (ready : m.Ready) :
    Fares Machine.Ready (BreaksRunning rounds (n + 3) (.call pos target) m)
      (call (execute rounds n) target.name m) := by
  unfold call
  simp only [Bind.bind, EStateM.bind, activeScopes_run ready.some]
  cases found : m.scopes.findProcedure target.name with
  | none => exact .error ready (.reported (.of_kind .undefinedName rfl (by decide) nofun))
  | some p =>
    have items := (ready.body_of_findProcedure found).items
    have start : (m.record (.call target.name)).push.Ready :=
      Machine.Lawful.ready_push ⟨ready.procedures, ready.patient⟩
    change Fares _ _ (onExhaustion (.ofCause (.tooManyCalls target.name))
      (block (execute rounds n) true p.body) (m.record (.call target.name)))
    refine .onExhaustion (.reported (.of_kind .stackOverflow rfl (by decide) nofun)) ?_
    change Fares _ _ (ensuring Machine.pop (p.body.body.forM (execute rounds n))
      (m.record (.call target.name)).push)
    refine .ensuring (.forM (fun inner m' passes ready' => ?_) start) fun _ => Machine.Ready.pop
    exact (fare (items inner passes.mem) ready').because
      (BreaksRunning.of_running (.called found passes))

theorem fares_optional (fare : ItemsFare rounds n) {body : Option Node}
    (formed : ∀ node ∈ body, Statement Lexicon node) {Source : Breakdown → Prop}
    (sources : ∀ inner ∈ body, ∀ b, BreaksRunning rounds n inner m b → Source b)
    (ready : m.Ready) : Fares Machine.Ready Source (body.forM (execute rounds n) m) := by
  cases body with
  | none => exact .ok ready
  | some inner =>
    exact (fare (.statement (formed inner rfl)) ready).because (sources inner rfl)

theorem statement_fares (fare : ItemsFare rounds n) (fare' : ItemsFare rounds (n + 1))
    (formed : Statement Lexicon node) (ready : m.Ready) :
    Fares Machine.Ready (BreaksRunning rounds (n + 3) node m) (execute rounds (n + 3) node m) := by
  unfold execute
  cases formed with
  | @assignment pos target e _ formed =>
    refine .locating (.bind ((fares_result formed ready).because
      (BreaksRunning.of_evaluates .assigned)) (fun r m' completed ready' => ?_) fun _ => id)
    obtain ⟨v, rfl⟩ := result_eq formed ready completed
    exact fares_assign (d := .value v) rfl target.name ready'
  | call => exact .locating (fares_call fare ready)
  | input => exact .locating (fares_input _ ready)
  | @print pos e formed =>
    refine .locating (.bind ((fares_value formed ready).because
      (BreaksRunning.of_evaluates .printed)) (fun v m' _ ready' => ?_) fun _ => id)
    exact .ok (ready'.of_tables rfl rfl)
  | @sequence pos body formed =>
    refine .locating (.forM (fun inner m' passes ready' => ?_) ready)
    exact (fare' (.statement (formed inner passes.mem)) ready').because
      (BreaksRunning.of_running (.item passes))
  | @conditional pos c body test formed =>
    refine .locating (.bind ((fares_test test ready).because
      (BreaksRunning.of_evaluates .chosen)) (fun holds m' completed ready' => ?_) fun _ => id)
    cases holds with
    | false => exact .ok ready'
    | true =>
      refine fares_optional fare' formed (fun inner mem => ?_) ready'
      cases mem
      exact BreaksRunning.of_running (.chosen completed)
  | @loop pos c body test formed =>
    refine .locating (.repeatWhile ?_ ?_ ?_ ready)
    · intro i m' less passed ready'
      exact (fares_test test ready').because (BreaksRunning.of_evaluates (.repeated less passed))
    · intro i m₁ m₂ less passed completed ready'
      refine fares_optional fare' formed (fun inner mem => ?_) ready'
      cases mem
      exact BreaksRunning.of_running (.round less passed completed)
    · intro m' passed
      exact ⟨_, _, _, .here, .loop passed⟩

theorem items_fare (rounds n : Nat) : ItemsFare rounds n := by
  induction n using Nat.strongRecOn with
  | ind n ih =>
    intro node m item ready
    match n, ih with
    | 0, _ | 1, _ | 2, _ => exact .error ready .exhausted
    | n + 3, ih =>
      cases item with
      | statement formed =>
        exact statement_fares (ih n (by omega)) (ih (n + 1) (by omega)) formed ready
      | procedure formed =>
        obtain ⟨_, constants, vars, procedures, statement⟩ := formed
        exact .locating (fares_declareProcedure (.mk constants vars procedures statement) ready)
      | constants formed =>
        refine .locating (.forM (fun d m' passes ready' => ?_) ready)
        have formed := formed d passes.mem
        obtain ⟨l, value, constant⟩ : ∃ l, d.value = some l ∧ d.isConstant = true := by
          cases formed
          exact ⟨_, rfl, rfl⟩
        exact (fares_declare_constant formed value ready').because
          (BreaksRunning.of_evaluates (.declared passes constant value))
      | vars formed =>
        refine .locating (.forM (fun d m' passes ready' => ?_) ready)
        exact fares_declare_variable (formed d passes.mem) ready'

end Running

end PlZero
