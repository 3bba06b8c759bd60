import PlZero.Proofs.ActionLaws
import PlZero.Proofs.FaultPlaces

set_option autoImplicit false

namespace PlZero

open WellFormed Exec

/-- The node stands in one of the texts. -/
def Node.IsOf (texts : List Step) (node : Node) : Prop :=
  ∃ step ∈ texts, ∃ p, step.read = .ok p ∧ node.Within p.node

namespace Node.IsOf

variable {texts : List Step} {a b : Node}

theorem within (of : a.IsOf texts) (within : b.Within a) : b.IsOf texts := by
  obtain ⟨step, mem, p, accepted, inside⟩ := of
  exact ⟨step, mem, p, accepted, within.trans inside⟩

theorem child (of : a.IsOf texts) (mem : b ∈ a.children) : b.IsOf texts :=
  of.within (.of_mem mem)

theorem onLines (of : a.IsOf texts) : a.OnLines := by
  intro d within
  obtain ⟨step, _, p, accepted, inside⟩ := of
  exact Step.line_pos_of_read accepted (within.trans inside)

end Node.IsOf

/-- Running a node gives rise to a fault, for which a node is to blame. -/
inductive Blames (rounds : Nat) : Nat → Node → Machine → Fault → Node → Prop
  | expression {n k : Nat} {node e blamed : Node} {m : Machine} {st : Stack} {cause : Fault} :
      Evaluates rounds n node m k e st → Faults st k e cause blamed →
      Blames rounds n node m cause blamed
  | unknownTarget {n : Nat} {pos : Position} {target : Identifier} {e : Node} {m : Machine}
      {r : Result} : evaluate m.scopes (n + 1) e = .ok r → m.scopes ≠ [] →
      m.scopes.findVariable target.name = none →
      Blames rounds (n + 3) (.assignment pos target e) m (.nameNotFound target.name)
        (.assignment pos target e)
  | constantTarget {n : Nat} {pos : Position} {target : Identifier} {e : Node} {m : Machine}
      {r : Result} {v : Variable} : evaluate m.scopes (n + 1) e = .ok r →
      m.scopes.findVariable target.name = some v → v.isConstant = true →
      Blames rounds (n + 3) (.assignment pos target e) m .reassignedConstant
        (.assignment pos target e)
  | unknownInput {n : Nat} {pos : Position} {target : Identifier} {m : Machine} :
      m.scopes ≠ [] → m.scopes.findVariable target.name = none →
      Blames rounds (n + 3) (.input pos target) m (.variableNotFound target.name)
        (.input pos target)
  | constantInput {n : Nat} {pos : Position} {target : Identifier} {m m' : Machine} {d : Datum}
      {v : Variable} : readDatum m = .ok d m' →
      m.scopes.findVariable target.name = some v → v.isConstant = true →
      Blames rounds (n + 3) (.input pos target) m .reassignedConstant (.input pos target)
  | unknownProcedure {n : Nat} {pos : Position} {target : Identifier} {m : Machine} :
      m.scopes ≠ [] → m.scopes.findProcedure target.name = none →
      Blames rounds (n + 3) (.call pos target) m (.procedureNotFound target.name)
        (.call pos target)
  | tooDeep {n : Nat} {pos : Position} {target : Identifier} {m m' : Machine} {p : Procedure} :
      m.scopes.findProcedure target.name = some p →
      block (execute rounds n) true p.body (m.record (.call target.name)) =
        .error (.breakdown .exhausted) m' →
      Blames rounds (n + 3) (.call pos target) m (.tooManyCalls target.name) (.call pos target)
  | constantAgain {n : Nat} {pos : Position} {group : List VariableDeclaration}
      {d : VariableDeclaration} {l : PlZero.Literal} {v : Value} {m m' : Machine} {s : Scope}
      {st : Stack} : Passes (declare (n + 1)) group m d m' → d.isConstant = true →
      d.value = some l → evaluate m'.scopes (n + 1) (.literal l) = .ok (.value v) →
      m'.scopes = s :: st → s.declares d.name = true →
      Blames rounds (n + 3) (.declarations pos group) m (.redeclared d.name) (.declaration d)
  | variableAgain {n : Nat} {pos : Position} {group : List VariableDeclaration}
      {d : VariableDeclaration} {m m' : Machine} {s : Scope} {st : Stack} :
      Passes (declare (n + 1)) group m d m' → d.isConstant = false → m'.scopes = s :: st →
      s.declares d.name = true →
      Blames rounds (n + 3) (.declarations pos group) m (.redeclared d.name) (.declaration d)
  | procedureAgain {n : Nat} {pos : Position} {name : String} {body : Block Node} {m : Machine}
      {s : Scope} {st : Stack} : m.scopes = s :: st → s.declares name = true →
      Blames rounds (n + 3) (.procedure pos name body) m (.redeclared name)
        (.procedure pos name body)

def BlamesRunning (rounds n : Nat) (node : Node) (m : Machine) (cause : Fault) (blamed : Node) :
    Prop :=
  ∃ k node' m', Running rounds n node m k node' m' ∧ Blames rounds k node' m' cause blamed

structure Procedure.Known (texts : List Step) (p : Procedure) : Prop where
  formed : Body Lexicon p.body.body
  of : (Node.procedure p.pos p.name p.body).IsOf texts

namespace Machine

def procedures (m : Machine) : List Procedure := (m.scopes.flatMap Scope.procedureTable).map (·.2)

theorem procedures_eq {m m' : Machine}
    (same : m'.scopes.map Scope.procedureTable = m.scopes.map Scope.procedureTable) :
    m'.procedures = m.procedures := by
  unfold procedures
  rw [List.flatMap_def, same, ← List.flatMap_def]

theorem procedures_subset {m m' : Machine} (less : m'.scopes ⊆ m.scopes) :
    m'.procedures ⊆ m.procedures := by
  refine List.map_subset _ fun entry mem => ?_
  obtain ⟨s, mem, entry⟩ := List.mem_flatMap.1 mem
  exact List.mem_flatMap.2 ⟨s, less mem, entry⟩

theorem mem_procedures {m : Machine} {name : String} {p : Procedure}
    (found : m.scopes.findProcedure name = some p) : p ∈ m.procedures := by
  obtain ⟨s, mem, found⟩ := List.exists_of_findSome?_eq_some found
  obtain ⟨earlier, later, table, _⟩ := List.lookup_eq_some_iff.1 found
  exact List.mem_map.2 ⟨(name, p), List.mem_flatMap.2 ⟨s, mem, by simp [table]⟩, rfl⟩

def From (texts : List Step) (m : Machine) : Prop := ∀ p ∈ m.procedures, p.Known texts

structure Open (texts : List Step) (m : Machine) : Prop where
  known : m.From texts
  some : m.scopes ≠ []

variable {texts : List Step} {m m' : Machine}

theorem From.of_subset (known : m.From texts) (less : m'.scopes ⊆ m.scopes) : m'.From texts :=
  fun p mem => known p (procedures_subset less mem)

theorem From.pop (known : m.From texts) : m.pop.From texts := by
  refine known.of_subset ?_
  unfold Machine.pop
  split
  · next scope s st scopes =>
    rw [scopes]
    exact List.subset_cons_self _ _
  · exact List.Subset.refl _

theorem From.open_push (known : m.From texts) : m.push.Open texts :=
  ⟨known, List.cons_ne_nil _ _⟩

theorem Open.of_tables (isOpen : m.Open texts)
    (same : m'.scopes.map Scope.procedureTable = m.scopes.map Scope.procedureTable) :
    m'.Open texts := by
  refine ⟨fun p mem => isOpen.known p (procedures_eq same ▸ mem), fun none => ?_⟩
  rw [none] at same
  exact isOpen.some (List.map_eq_nil_iff.1 same.symm)

theorem Open.pop (isOpen : m.Open texts) : m.pop.Open texts := by
  refine ⟨isOpen.known.pop, ?_⟩
  unfold Machine.pop
  split
  · exact List.cons_ne_nil _ _
  · exact isOpen.some

end Machine

/-- Why a name takes no datum: it stands for nothing, or for a constant. -/
inductive Stack.Refuses (st : Stack) (name : String) : Fault → Prop
  | unknown : st.findVariable name = none → Refuses st name (.nameNotFound name)
  | constant {v : Variable} : st.findVariable name = some v → v.isConstant = true →
      Refuses st name .reassignedConstant

theorem Stack.findVariable_of_inner {s : Scope} {st : Stack} {name : String} {v : Variable}
    (found : s.findVariable name = some v) : Stack.findVariable (s :: st) name = some v := by
  simp [findVariable, found]

theorem Stack.findVariable_of_outer {s : Scope} {st : Stack} {name : String}
    (absent : s.findVariable name = none) :
    Stack.findVariable (s :: st) name = Stack.findVariable st name := by
  simp [findVariable, absent]

theorem Stack.unplaced_assign {d : Datum} {w : Value} (value : d.toValue = .ok w) (name : String)
    (st : Stack) : Unplaced (st.Refuses name) (st.assign name d) := by
  induction st with
  | nil => exact .fault (.unknown rfl)
  | cons s st ih =>
    rw [assign]
    cases found : s.findVariable name with
    | some v =>
      dsimp only
      unfold Variable.assign
      split
      · next constant => exact .fault (.constant (findVariable_of_inner found) constant)
      · rw [value]
        exact .ok trivial
    | none =>
      have outer : Stack.findVariable (s :: st) name = Stack.findVariable st name :=
        findVariable_of_outer found
      refine .map (ih.own fun cause _ refuses => ?_) fun _ => id
      cases refuses with
      | unknown absent => exact .unknown (outer.trans absent)
      | constant found constant => exact .constant (outer.trans found) constant

theorem Scope.unplaced_declareVariable {d : Datum} {w : Value} (value : d.toValue = .ok w)
    (name : String) (isConstant : Bool) (s : Scope) :
    Unplaced (fun cause => s.declares name = true ∧ cause = .redeclared name)
      (s.declareVariable name d isConstant) := by
  unfold declareVariable
  split
  · next again => exact .fault ⟨again, rfl⟩
  · rw [value]
    exact .ok trivial

theorem Scope.unplaced_declareProcedure (p : Procedure) (s : Scope) :
    Unplaced (fun cause => s.declares p.name = true ∧ cause = .redeclared p.name)
      (s.declareProcedure p) := by
  unfold declareProcedure
  split
  · next again => exact .fault ⟨again, rfl⟩
  · exact .ok trivial

namespace Exec

variable {texts : List Step} {m : Machine} {n : Nat} {Inside : Fault → Node → Prop}
  {Here : Fault → Prop}

theorem leads_onInnermost {name : String} {change : Scope → Except Stop Scope}
    (unplaced : ∀ s, Unplaced (fun cause => s.declares name = true ∧ cause = .redeclared name)
      (change s))
    (tables : ∀ s s', change s = .ok s' → ∀ entry ∈ s'.procedureTable,
      entry ∈ s.procedureTable ∨ entry.2.Known texts)
    (isOpen : m.Open texts)
    (own : ∀ s st, m.scopes = s :: st → s.declares name = true → Here (.redeclared name)) :
    Leads (Machine.Open texts) (Traced Inside Here) (onInnermost change m) := by
  unfold onInnermost
  cases scopes : m.scopes with
  | nil => exact absurd scopes isOpen.some
  | cons s st =>
    dsimp only
    have result : Gives (fun _ => True) (Traced Inside Here) (change s) := by
      refine (unplaced s).own ?_
      rintro _ _ ⟨again, rfl⟩
      exact own s st scopes again
    generalize changed : change s = r at result
    cases result with
    | error traced => exact .error isOpen traced
    | ok =>
      refine .ok ⟨fun p mem => ?_, List.cons_ne_nil _ _⟩
      have known := isOpen.known
      unfold Machine.From Machine.procedures at known
      rw [scopes] at known
      unfold Machine.procedures at mem
      simp only [List.flatMap_cons, List.map_append, List.mem_append, List.mem_map] at mem known
      rcases mem with ⟨entry, mem, rfl⟩ | mem
      · rcases tables s _ changed entry mem with mem | declared
        · exact known _ (.inl ⟨entry, mem, rfl⟩)
        · exact declared
      · exact known p (.inr mem)

theorem leads_declareVariable {d : Datum} {v : Value} (value : d.toValue = .ok v) (name : String)
    (isConstant : Bool) (isOpen : m.Open texts)
    (own : ∀ s st, m.scopes = s :: st → s.declares name = true → Here (.redeclared name)) :
    Leads (Machine.Open texts) (Traced Inside Here)
      (onInnermost (·.declareVariable name d isConstant) m) := by
  refine leads_onInnermost (Scope.unplaced_declareVariable value name isConstant) ?_ isOpen own
  intro s s' declared entry mem
  rw [(Scope.grown_declareVariable (List.mem_singleton.2 rfl) declared).2] at mem
  exact .inl mem

theorem leads_declareProcedure {p : Procedure} (known : p.Known texts) (isOpen : m.Open texts)
    (own : ∀ s st, m.scopes = s :: st → s.declares p.name = true → Here (.redeclared p.name)) :
    Leads (Machine.Open texts) (Traced Inside Here) (onInnermost (·.declareProcedure p) m) := by
  refine leads_onInnermost (Scope.unplaced_declareProcedure p) ?_ isOpen own
  intro s s' declared entry mem
  rw [(Scope.grown_declareProcedure (List.mem_singleton.2 rfl) declared).2] at mem
  rcases List.mem_cons.1 mem with rfl | mem
  · exact .inr known
  · exact .inl mem

theorem leads_result {e : Node} (formed : Expression Lexicon e) (of : e.IsOf texts)
    (isOpen : m.Open texts) :
    Leads (Machine.Open texts) (Explains m.scopes n e) (result n e m) :=
  .ofExcept (explained_evaluate isOpen.some formed of.onLines n) isOpen

theorem result_ok {e : Node} {r : Result} {m' : Machine} (completed : result n e m = .ok r m') :
    evaluate m.scopes n e = .ok r ∧ m' = m := by
  change ofExcept (evaluate m.scopes n e) m = _ at completed
  generalize evaluate m.scopes n e = x at completed
  cases x with
  | ok r' =>
    cases completed
    exact ⟨rfl, rfl⟩
  | error => cases completed

theorem value_of_result {e : Node} {r : Result} (formed : Expression Lexicon e)
    (of : e.IsOf texts) (isOpen : m.Open texts) (evaluated : evaluate m.scopes n e = .ok r) :
    ∃ v, r = .value v := by
  have gives := explained_evaluate isOpen.some formed of.onLines n
  rw [evaluated] at gives
  cases gives with
  | ok value => exact value

theorem leads_value {e : Node} (formed : Expression Lexicon e) (of : e.IsOf texts)
    (isOpen : m.Open texts) :
    Leads (Machine.Open texts) (Explains m.scopes n e) (value n e m) := by
  refine .bind (leads_result formed of isOpen) (fun r m' completed isOpen' => ?_) fun _ => id
  obtain ⟨v, rfl⟩ := value_of_result formed of isOpen (result_ok completed).1
  exact .ok isOpen'

theorem value_ok {e : Node} {v : Value} {m' : Machine} (completed : value n e m = .ok v m') :
    evaluate m.scopes n e = .ok (.value v) ∧ m' = m := by
  simp only [value, Bind.bind, EStateM.bind] at completed
  cases run : result n e m with
  | error =>
    rw [run] at completed
    cases completed
  | ok r m'' =>
    rw [run] at completed
    obtain ⟨evaluated, rfl⟩ := result_ok run
    cases r with
    | value =>
      cases completed
      exact ⟨evaluated, rfl⟩
    | truth => cases completed

theorem leads_test {c : PlZero.Condition Node} (formed : WellFormed.Condition Lexicon c)
    (of : (Node.condition c).IsOf texts) (isOpen : m.Open texts) :
    Leads (Machine.Open texts) (Explains m.scopes (n + 1) (.condition c)) (test n c m) :=
  .ofExcept (explained_holds isOpen.some formed of.onLines n) isOpen

theorem leads_assign {d : Datum} {v : Value} (value : d.toValue = .ok v) (name : String)
    (isOpen : m.Open texts) (own : ∀ cause, m.scopes.Refuses name cause → Here cause) :
    Leads (Machine.Open texts) (Traced Inside Here) (assign name d m) := by
  have result : Gives (fun _ => True) (Traced Inside Here) (m.scopes.assign name d) :=
    (Stack.unplaced_assign value name m.scopes).own fun cause _ => own cause
  unfold assign
  simp only [Bind.bind, EStateM.bind, activeScopes_run isOpen.some]
  generalize assigned : Stack.assign name d m.scopes = x at result
  cases result with
  | error traced => exact .error isOpen traced
  | ok => exact .ok (isOpen.of_tables (Stack.framed_assign assigned).1.tables_eq)

-- There is something to assign at the end of the input, too; only the user can break it off.
theorem readDatum_cases (m : Machine) :
    ∃ m', m'.scopes = m.scopes ∧ ((∃ d v, readDatum m = .ok d m' ∧ d.toValue = .ok v) ∨
      readDatum m = .error (.breakdown .interrupted) m') := by
  refine ⟨{ m with input := m.input.read.2 }, rfl, ?_⟩
  rw [readDatum_run]
  cases m.input.read.1 with
  | line text => exact .inl ⟨_, _, rfl, rfl⟩
  | ended => exact .inl ⟨_, _, rfl, rfl⟩
  | interrupted => exact .inr rfl

theorem leads_input (name : String) (isOpen : m.Open texts)
    (unknown : m.scopes.findVariable name = none → Here (.variableNotFound name))
    (constant : ∀ {d m' v}, readDatum m = .ok d m' → m.scopes.findVariable name = some v →
      v.isConstant = true → Here .reassignedConstant) :
    Leads (Machine.Open texts) (Traced Inside Here) (input name m) := by
  unfold input
  simp only [Bind.bind, EStateM.bind, activeScopes_run isOpen.some]
  cases found : m.scopes.findVariable name with
  | none => exact .error isOpen (.here (unknown found))
  | some v =>
    obtain ⟨m', scopes, ⟨d, w, read, value⟩ | read⟩ := readDatum_cases m
    · simp only [EStateM.bind, read]
      refine leads_assign value name (isOpen.of_tables (by rw [scopes])) fun cause refuses => ?_
      rw [scopes] at refuses
      -- The variable is still there, since reading a line changes no scope.
      cases refuses with
      | unknown absent => simp [found] at absent
      | constant found constant' => exact constant read found constant'
    · simp only [EStateM.bind, read]
      exact .error (isOpen.of_tables (by rw [scopes])) .broken

theorem call_run {run : Node → Exec Unit} {name : String} {p : Procedure}
    (found : m.scopes.findProcedure name = some p) :
    call run name m = onExhaustion (.ofCause (.tooManyCalls name)) (block run true p.body)
      (m.record (.call name)) := by
  have some : m.scopes ≠ [] := by
    intro none
    rw [none] at found
    cases found
  unfold call
  simp only [Bind.bind, EStateM.bind, activeScopes_run some, found]
  rfl

end Exec

section Running

variable {texts : List Step} {rounds n k : Nat} {node inner e : Node} {m m' : Machine} {st : Stack}

def Reached (texts : List Step) (rounds n : Nat) (node : Node) (m : Machine) (cause : Fault)
    (blamed : Node) : Prop :=
  blamed.IsOf texts ∧ BlamesRunning rounds n node m cause blamed

abbrev Told (texts : List Step) (rounds n : Nat) (node : Node) (m : Machine) : Stop → Prop :=
  Traced (Reached texts rounds n node m) fun _ => False

abbrev Telling (texts : List Step) (rounds n : Nat) (node : Node) (m : Machine) : Stop → Prop :=
  Traced (Reached texts rounds n node m) fun cause => Blames rounds n node m cause node

theorem Exec.Leads.at_node {α : Type} {Inv : Machine → Prop} {x : Exec α}
    (leads : Leads Inv (Telling texts rounds n node m) (x m)) (of : node.IsOf texts) :
    Leads Inv (Told texts rounds n node m) (Exec.locating node.pos x m) :=
  leads.locating fun _ traced =>
    traced.locate (of.onLines node .refl) fun _ blames => ⟨of, n, node, m, .here, blames⟩

theorem Exec.Leads.of_running {Here : Fault → Prop} {Inv : Machine → Prop} {n' : Nat}
    {r : EStateM.Result Stop Machine Unit} (leads : Leads Inv (Told texts rounds n inner m') r)
    (comes : ∀ {k node' m''}, Running rounds n inner m' k node' m'' →
      Running rounds n' node m k node' m'') :
    Leads Inv (Traced (Reached texts rounds n' node m) Here) r := by
  refine leads.because fun f told => told.imp ?_ fun _ => False.elim
  rintro cause blamed ⟨of, k, node', m'', running, blames⟩
  exact ⟨of, k, node', m'', comes running, blames⟩

theorem Exec.Leads.of_evaluates {α : Type} {Here : Fault → Prop} {Inv : Machine → Prop}
    {r : EStateM.Result Stop Machine α} (leads : Leads Inv (Explains st k e) r)
    (of : e.IsOf texts) (evaluates : Evaluates rounds n node m k e st) :
    Leads Inv (Traced (Reached texts rounds n node m) Here) r := by
  refine leads.because fun f explained => explained.imp ?_ fun _ => False.elim
  exact fun cause blamed faults =>
    ⟨of.within faults.within, n, node, m, .here, .expression evaluates faults⟩

def ItemsLead (texts : List Step) (rounds n : Nat) : Prop :=
  ∀ {node m}, Item node → node.IsOf texts → m.Open texts →
    Leads (Machine.Open texts) (Told texts rounds n node m) (execute rounds n node m)

theorem leads_call (lead : ItemsLead texts rounds n) {pos : Position} {target : Identifier}
    (isOpen : m.Open texts) :
    Leads (Machine.Open texts) (Telling texts rounds (n + 3) (.call pos target) m)
      (call (execute rounds n) target.name m) := by
  cases found : m.scopes.findProcedure target.name with
  | none =>
    unfold call
    simp only [Bind.bind, EStateM.bind, activeScopes_run isOpen.some, found]
    exact .error isOpen (.here (.unknownProcedure isOpen.some found))
  | some p =>
    obtain ⟨formed, of⟩ := isOpen.known p (Machine.mem_procedures found)
    have start : (m.record (.call target.name)).push.Open texts :=
      Machine.From.open_push isOpen.known
    rw [call_run found]
    -- Only what no call inside has taken for itself comes here as exhaustion.
    refine .onExhaustion ?_ fun m' deep => .here (.tooDeep found deep)
    change Leads _ _ (ensuring Machine.pop (p.body.body.forM (execute rounds n))
      (m.record (.call target.name)).push)
    refine .ensuring (.forM (fun inner m' passes isOpen' => ?_) start) fun _ => Machine.Open.pop
    have inside : inner.IsOf texts := (of.child (List.mem_singleton.2 rfl)).child passes.mem
    exact (lead (formed.items inner passes.mem) inside isOpen').of_running (.called found passes)

theorem statement_leads (lead : ItemsLead texts rounds n) (lead' : ItemsLead texts rounds (n + 1))
    (formed : Statement Lexicon node) (of : node.IsOf texts) (isOpen : m.Open texts) :
    Leads (Machine.Open texts) (Told texts rounds (n + 3) node m)
      (execute rounds (n + 3) node m) := by
  unfold execute
  -- Each statement places what its own action fails with; what its parts fail with has a place.
  cases formed with
  | @assignment pos target e _ formed =>
    refine Leads.at_node ?_ of
    have inside : e.IsOf texts := of.child (by simp [Node.children])
    refine .bind ((leads_result formed inside isOpen).of_evaluates inside .assigned)
      (fun r m' completed isOpen' => ?_) fun _ => id
    obtain ⟨evaluated, rfl⟩ := result_ok completed
    obtain ⟨v, rfl⟩ := value_of_result formed inside isOpen evaluated
    refine leads_assign (d := .value v) rfl target.name isOpen' fun cause refuses => ?_
    cases refuses with
    | unknown absent => exact .unknownTarget evaluated isOpen.some absent
    | constant found constant => exact .constantTarget evaluated found constant
  | @call pos target => exact Leads.at_node (leads_call lead isOpen) of
  | @input pos target =>
    refine Leads.at_node (leads_input target.name isOpen ?_ ?_) of
    · exact .unknownInput isOpen.some
    · exact fun read => .constantInput read
  | @print pos e formed =>
    have inside : e.IsOf texts := of.child (List.mem_singleton.2 rfl)
    refine Leads.at_node (.bind ((leads_value formed inside isOpen).of_evaluates inside .printed)
      (fun v m' _ isOpen' => ?_) fun _ => id) of
    exact .ok (isOpen'.of_tables rfl)
  | @sequence pos body formed =>
    refine Leads.at_node (.forM (fun inner m' passes isOpen' => ?_) isOpen) of
    have leads := lead' (.statement (formed inner passes.mem)) (of.child passes.mem) isOpen'
    exact leads.of_running (.item passes)
  | @conditional pos c body test formed =>
    have tested : (Node.condition c).IsOf texts := of.child List.mem_cons_self
    refine Leads.at_node (.bind ((leads_test test tested isOpen).of_evaluates tested .chosen)
      (fun holds m' completed isOpen' => ?_) fun _ => id) of
    cases holds with
    | false => exact .ok isOpen'
    | true =>
      refine .optional (fun inner mem => ?_) isOpen'
      have inside := of.child (List.mem_cons_of_mem _ (Option.mem_toList.2 mem))
      have leads := lead' (.statement (formed inner mem)) inside isOpen'
      cases mem
      exact leads.of_running (.chosen completed)
  | @loop pos c body test formed =>
    have tested : (Node.condition c).IsOf texts := of.child List.mem_cons_self
    refine Leads.at_node (.repeatWhile ?_ ?_ (fun _ _ => .broken) isOpen) of
    · intro i m' less passed isOpen'
      exact (leads_test test tested isOpen').of_evaluates tested (.repeated less passed)
    · intro i m₁ m₂ less passed completed isOpen'
      refine .optional (fun inner mem => ?_) isOpen'
      have inside := of.child (List.mem_cons_of_mem _ (Option.mem_toList.2 mem))
      have leads := lead' (.statement (formed inner mem)) inside isOpen'
      cases mem
      exact leads.of_running (.round less passed completed)

section Declarations

variable {pos : Position} {group : List VariableDeclaration} {d : VariableDeclaration}
  (of : (Node.declarations pos group).IsOf texts) (passes : Passes (declare (n + 1)) group m d m')
  (isOpen : m'.Open texts)

include of passes

theorem Exec.Leads.at_declaration {α : Type} {Inv : Machine → Prop} {Here : Fault → Prop}
    {x : Exec α}
    (leads : Leads Inv (Traced (Reached texts rounds (n + 3) (.declarations pos group) m)
      fun cause => Blames rounds (n + 3) (.declarations pos group) m cause (.declaration d))
      (x m')) :
    Leads Inv (Traced (Reached texts rounds (n + 3) (.declarations pos group) m) Here)
      (Exec.locating d.pos x m') := by
  have inside : (Node.declaration d).IsOf texts := of.child (List.mem_map_of_mem passes.mem)
  have line : 0 < (Node.declaration d).pos.line := inside.onLines _ .refl
  refine leads.locating fun _ traced => traced.locate line fun _ blames => ?_
  exact ⟨inside, _, _, _, .here, blames⟩

include isOpen

theorem constant_leads (formed : WellFormed.Constant Lexicon d) :
    Leads (Machine.Open texts) (Telling texts rounds (n + 3) (.declarations pos group) m)
      (declare (n + 1) d m') := by
  obtain ⟨_, literal⟩ := formed
  have inside : (Node.literal _).IsOf texts :=
    (of.child (List.mem_map_of_mem passes.mem)).child (List.mem_singleton.2 rfl)
  refine Leads.at_declaration of passes (.bind ((leads_value (.literal literal) inside
    isOpen).of_evaluates inside (.declared passes rfl rfl)) (fun v m₁ completed isOpen' => ?_)
    fun _ => id)
  obtain ⟨evaluated, rfl⟩ := value_ok completed
  exact leads_declareVariable rfl _ true isOpen' fun s st => .constantAgain passes rfl rfl evaluated

theorem variable_leads (formed : WellFormed.Variable Lexicon d) :
    Leads (Machine.Open texts) (Telling texts rounds (n + 3) (.declarations pos group) m)
      (declare (n + 1) d m') := by
  obtain ⟨_⟩ := formed
  refine Leads.at_declaration of passes ?_
  exact leads_declareVariable rfl _ false isOpen fun s st => .variableAgain passes rfl

end Declarations

theorem items_lead (texts : List Step) (rounds n : Nat) : ItemsLead texts rounds n := by
  -- By the nesting that is left, of which a call takes three and a statement inside another two.
  induction n using Nat.strongRecOn with
  | ind n ih =>
    intro node m item of isOpen
    match n, ih with
    | 0, _ | 1, _ | 2, _ => exact .error isOpen .broken
    | n + 3, ih =>
      cases item with
      | statement formed =>
        exact statement_leads (ih n (by omega)) (ih (n + 1) (by omega)) formed of isOpen
      | procedure formed =>
        obtain ⟨_, constants, vars, procedures, statement⟩ := formed
        have known : Procedure.Known texts ⟨_, _, _⟩ :=
          ⟨.mk constants vars procedures statement, of⟩
        exact Leads.at_node (leads_declareProcedure known isOpen fun s st => .procedureAgain) of
      | constants formed =>
        refine Leads.at_node (.forM (fun d m' passes isOpen' => ?_) isOpen) of
        exact constant_leads of passes isOpen' (formed d passes.mem)
      | vars formed =>
        refine Leads.at_node (.forM (fun d m' passes isOpen' => ?_) isOpen) of
        exact variable_leads of passes isOpen' (formed d passes.mem)

end Running

end PlZero
