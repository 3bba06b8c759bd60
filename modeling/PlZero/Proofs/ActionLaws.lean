import PlZero.Proofs.KeptScopes

set_option autoImplicit false

namespace PlZero

namespace Exec

def scopes : Exec Stack := fun m => .ok m.scopes m

structure Law (P : ∀ {α : Type}, Exec α → Prop) : Prop where
  pure {α : Type} (a : α) : P (Pure.pure a)
  throw {α : Type} (f : Stop) : P (MonadExcept.throw f : Exec α)
  bind {α β : Type} {x : Exec α} {f : α → Exec β} : P x → (∀ a, P (f a)) → P (x >>= f)
  locating {α : Type} (p : Position) {x : Exec α} : P x → P (locating p x)
  onExhaustion {α : Type} (f : Stop) {x : Exec α} : P x → P (onExhaustion f x)
  inOwnScope {x : Exec Unit} : P x → P (modify Machine.push >>= fun _ => ensuring Machine.pop x)
  scopes : P Exec.scopes
  onInnermost (change : Scope → Except Stop Scope) : P (onInnermost change)
  assign (name : String) (d : Datum) : P (assign name d)
  record (e : Event) : P (modify (·.record e))
  write (text : String) : P (modify (·.write text))
  readDatum : P readDatum

namespace Law

variable {α : Type} {P : ∀ {α : Type}, Exec α → Prop} (law : Law P)

include law

theorem ofExcept (r : Except Stop α) : P (ofExcept r) := by
  cases r with
  | ok a => exact law.pure a
  | error f => exact law.throw f

theorem forM {f : α → Exec Unit} (each : ∀ a, P (f a)) (as : List α) : P (as.forM f) := by
  induction as with
  | nil => exact law.pure ()
  | cons a as ih => exact law.bind (each a) fun _ => ih

theorem optional {f : α → Exec Unit} (each : ∀ a, P (f a)) (a : Option α) : P (a.forM f) := by
  cases a with
  | none => exact law.pure ()
  | some a => exact each a

theorem repeatWhile {test : Exec Bool} {body : Exec Unit} (tests : P test) (bodies : P body)
    (rounds : Nat) : P (repeatWhile test body rounds) := by
  induction rounds with
  | zero => exact law.throw _
  | succ rounds ih =>
    refine law.bind tests fun goesOn => ?_
    cases goesOn with
    | false => exact law.pure ()
    | true => exact law.bind bodies fun _ => ih

theorem activeScopes : P activeScopes := by
  have looks : Exec.activeScopes = Exec.scopes >>= fun st =>
      if st.isEmpty then MonadExcept.throw (.breakdown .noScope) else Pure.pure st := by
    funext m
    obtain ⟨st, _, _, _⟩ := m
    cases st <;> rfl
  rw [looks]
  refine law.bind law.scopes fun st => ?_
  split
  · exact law.throw _
  · exact law.pure _

theorem result (n : Nat) (node : Node) : P (result n node) :=
  law.bind (f := fun st => Exec.ofExcept (evaluate st n node)) law.scopes fun _ => law.ofExcept _

theorem value (n : Nat) (node : Node) : P (value n node) :=
  law.bind (law.result n node) fun _ => law.ofExcept _

theorem test (n : Nat) (c : Condition Node) : P (test n c) :=
  law.bind (f := fun st => Exec.ofExcept (holds st n c)) law.scopes fun _ => law.ofExcept _

theorem block {run : Node → Exec Unit} (each : ∀ node, P (run node)) (ownScope : Bool)
    (b : Block Node) : P (block run ownScope b) := by
  have looks : Exec.block run ownScope b = Exec.scopes >>= fun st =>
      if ownScope || st.isEmpty then modify Machine.push >>= fun _ =>
        ensuring Machine.pop (b.body.forM run)
      else b.body.forM run := rfl
  rw [looks]
  refine law.bind law.scopes fun st => ?_
  split
  · exact law.inOwnScope (law.forM each _)
  · exact law.forM each _

theorem declare (n : Nat) (d : VariableDeclaration) : P (declare n d) := by
  unfold Exec.declare
  apply law.locating
  split
  · exact law.bind (law.value n _) fun _ => law.onInnermost _
  · exact law.onInnermost _

theorem call {run : Node → Exec Unit} (each : ∀ node, P (run node)) (name : String) :
    P (call run name) := by
  refine law.bind law.activeScopes fun st => ?_
  split
  · exact law.throw _
  · exact law.bind (law.record _) fun _ => law.onExhaustion _ (law.block each true _)

theorem input (name : String) : P (input name) := by
  refine law.bind law.activeScopes fun st => ?_
  split
  · exact law.throw _
  · exact law.bind law.readDatum fun _ => law.assign name _

theorem execute (exits : ∀ line, P (exit line)) (rounds n : Nat) (node : Node) :
    P (execute rounds n node) := by
  induction n using Nat.strongRecOn generalizing node with
  | ind n ih =>
    match n, ih with
    | 0, _ | 1, _ | 2, _ => exact law.throw _
    | n + 3, ih =>
      have blocks := ih n (by omega)
      have nested := ih (n + 1) (by omega)
      unfold PlZero.execute
      cases node with
      | block b => exact law.locating _ (law.block blocks true b)
      | declarations pos group => exact law.locating _ (law.forM (law.declare _) group)
      | procedure => exact law.locating _ (law.onInnermost _)
      | assignment pos target expr =>
        exact law.locating _ (law.bind (law.result _ _) fun _ => law.assign _ _)
      | call => exact law.locating _ (law.call blocks _)
      | input => exact law.locating _ (law.input _)
      | print => exact law.locating _ (law.bind (law.value _ _) fun _ => law.write _)
      | sequence pos body => exact law.locating _ (law.forM nested body)
      | conditional pos c body =>
        refine law.locating _ (law.bind (law.test _ _) fun goesOn => ?_)
        cases goesOn with
        | false => exact law.pure ()
        | true => exact law.optional nested body
      | loop pos c body =>
        exact law.locating _ (law.repeatWhile (law.test _ _) (law.optional nested body) rounds)
      | exitMarker => exact law.locating _ (exits _)
      | _ => exact law.throw _

end Law

section Machines

variable {α β : Type} {m : Machine}

theorem machineOf_locating (p : Position) (x : Exec α) (m : Machine) :
    machineOf (locating p x m) = machineOf (x m) := by
  unfold locating
  cases x m <;> rfl

theorem machineOf_onExhaustion (f : Stop) (x : Exec α) (m : Machine) :
    machineOf (onExhaustion f x m) = machineOf (x m) := by
  unfold onExhaustion
  split
  · next result => rw [result]; rfl
  · rfl

theorem machineOf_ensuring (finish : Machine → Machine) (x : Exec α) (m : Machine) :
    machineOf (ensuring finish x m) = finish (machineOf (x m)) := by
  unfold ensuring
  cases x m <;> rfl

theorem assign_run (name : String) (d : Datum) (m : Machine) :
    assign name d m = match m.scopes with
      | [] => .error (.breakdown .noScope) m
      | s :: st => match Stack.assign name d (s :: st) with
        | .ok st' => .ok () { m with scopes := st' }
        | .error f => .error f m := by
  obtain ⟨st, input, output, log⟩ := m
  cases st with
  | nil => rfl
  | cons s st =>
    have looks : activeScopes ⟨s :: st, input, output, log⟩ = .ok (s :: st) _ := rfl
    simp only [assign, Bind.bind, EStateM.bind, looks]
    cases Stack.assign name d (s :: st) <;> rfl

theorem readDatum_run (m : Machine) :
    readDatum m = match m.input.read.1 with
      | .line text => .ok (.text (Text.chomp text)) { m with input := m.input.read.2 }
      | .ended => .ok .absent { m with input := m.input.read.2 }
      | .interrupted => .error (.breakdown .interrupted) { m with input := m.input.read.2 } := by
  change (match m.input.read.1 with
    | .line text => Pure.pure (.text (Text.chomp text))
    | .ended => Pure.pure .absent
    | .interrupted => MonadExcept.throw (.breakdown .interrupted) : Exec Datum)
      { m with input := m.input.read.2 } = _
  cases m.input.read.1 <;> rfl

theorem Law.of_machines {R : Machine → Machine → Prop} (refl : ∀ m, R m m)
    (trans : ∀ {m m' m''}, R m m' → R m' m'' → R m m'')
    (leave : ∀ {m m'}, R m.push m' → R m m'.pop)
    (change : ∀ m (st : Stack), st.length = m.scopes.length → R m { m with scopes := st })
    (record : ∀ m e, R m (m.record e)) (write : ∀ m text, R m (m.write text))
    (read : ∀ m, R m { m with input := m.input.read.2 }) :
    Law fun x => ∀ m, R m (machineOf (x m)) where
  pure _ := refl
  throw _ := refl
  bind {α β x f} first rest m := by
    have before := first m
    simp only [Bind.bind, EStateM.bind]
    cases result : x m with
    | error => rwa [result] at before
    | ok a m' =>
      rw [result] at before
      exact trans before (rest a m')
  locating p x h m := by rw [machineOf_locating]; exact h m
  onExhaustion f x h m := by rw [machineOf_onExhaustion]; exact h m
  inOwnScope {x} h m := by
    change R m (machineOf (ensuring Machine.pop x m.push))
    rw [machineOf_ensuring]
    exact leave (h m.push)
  scopes := refl
  onInnermost changes m := by
    unfold Exec.onInnermost
    cases scopes : m.scopes with
    | nil => exact refl m
    | cons s st =>
      dsimp only
      cases changes s with
      | error => exact refl m
      | ok s' => exact change m (s' :: st) (by simp [scopes])
  assign name d m := by
    rw [assign_run]
    cases scopes : m.scopes with
    | nil => exact refl m
    | cons s st =>
      dsimp only
      cases assigned : Stack.assign name d (s :: st) with
      | error => exact refl m
      | ok st' => exact change m st' (by rw [Stack.length_assign assigned, scopes])
  record e m := record m e
  write text m := write m text
  readDatum m := by
    rw [readDatum_run]
    cases m.input.read.1 <;> exact read m

theorem length_pop (m : Machine) :
    m.pop.scopes.length = if m.scopes.length ≤ 1 then m.scopes.length else m.scopes.length - 1 := by
  unfold Machine.pop
  split
  · next scopes => simp [scopes]
  · next other =>
    match scopes : m.scopes with
    | [] | [_] => rfl
    | s :: s' :: st => exact absurd scopes (other s s' st)

theorem stack_law :
    Law fun x => ∀ m, (machineOf (x m)).scopes.length ≤ max m.scopes.length 1 := by
  apply Law.of_machines (R := fun m m' => m'.scopes.length ≤ max m.scopes.length 1)
  case leave =>
    intro m m' inside
    have entered : m.push.scopes.length = m.scopes.length + 1 := rfl
    rw [length_pop]
    split <;> omega
  case trans =>
    intro m m' m'' first second
    omega
  case change =>
    intro m st same
    exact Nat.le_trans (Nat.le_of_eq same) (Nat.le_max_left _ _)
  all_goals intros; exact Nat.le_max_left _ _

theorem height_law :
    Law fun x => ∀ m, m.scopes ≠ [] → (machineOf (x m)).scopes.length = m.scopes.length := by
  apply Law.of_machines
    (R := fun m m' => m.scopes ≠ [] → m'.scopes.length = m.scopes.length)
  case leave =>
    intro m m' inside some
    have height : m'.scopes.length = m.scopes.length + 1 := inside (List.cons_ne_nil _ _)
    have positive := List.length_pos_iff.2 some
    rw [length_pop]
    split <;> omega
  case trans =>
    intro m m' m'' first second some
    have same := first some
    have some' : m'.scopes ≠ [] := by
      rw [← List.length_pos_iff, same]
      exact List.length_pos_iff.2 some
    exact (second some').trans same
  case change => exact fun _ _ same _ => same
  all_goals intros; rfl

theorem lines_read (i : Input) : i.read.2.lines <:+ i.lines := by
  unfold Input.read
  split
  · exact List.suffix_refl _
  · exact List.nil_suffix
  · next line lines some _ =>
    rw [some]
    exact List.suffix_cons line lines

theorem input_pop (m : Machine) : m.pop.input = m.input := by
  unfold Machine.pop
  split <;> rfl

theorem input_law : Law fun x => ∀ m, (machineOf (x m)).input.lines <:+ m.input.lines := by
  apply Law.of_machines (R := fun m m' => m'.input.lines <:+ m.input.lines)
  case leave =>
    intro m m' inside
    rw [input_pop]
    exact inside
  case trans => exact fun first second => second.trans first
  case read => exact fun m => lines_read m.input
  all_goals intros; exact List.suffix_refl _

end Machines

end Exec

def Machine.unlogged (m : Machine) : Machine := { m with log := [] }

inductive Alike {α : Type} :
    EStateM.Result Stop Machine α → EStateM.Result Stop Machine α → Prop
  | ok {a : α} {m m' : Machine} : m.unlogged = m'.unlogged → Alike (.ok a m) (.ok a m')
  | error {f : Stop} {m m' : Machine} : m.unlogged = m'.unlogged →
      Alike (.error f m) (.error f m')

theorem Machine.exists_log {m m' : Machine} (same : m.unlogged = m'.unlogged) :
    ∃ log, m' = { m with log } := by
  obtain ⟨st, input, output, _⟩ := m
  cases same
  exact ⟨m'.log, rfl⟩

theorem Machine.unlogged_pop {m m' : Machine} (same : m.unlogged = m'.unlogged) :
    m.pop.unlogged = m'.pop.unlogged := by
  obtain ⟨log, rfl⟩ := exists_log same
  obtain ⟨st, _, _, _⟩ := m
  match st with
  | [] | [_] | _ :: _ :: _ => rfl

namespace Alike

variable {α β : Type} {m m' : Machine} {x y : Exec α}

theorem bind {f g : α → Exec β} (first : Alike (x m) (y m'))
    (rest : ∀ a m₁ m₂, x m = .ok a m₁ → m₁.unlogged = m₂.unlogged → Alike (f a m₁) (g a m₂)) :
    Alike ((x >>= f) m) ((y >>= g) m') := by
  simp only [Bind.bind, EStateM.bind]
  generalize result : x m = r at first
  generalize y m' = r' at first
  cases first with
  | ok same => exact rest _ _ _ result same
  | error same => exact .error same

theorem ensuring {finish : Machine → Machine}
    (blind : ∀ {m m' : Machine}, m.unlogged = m'.unlogged →
      (finish m).unlogged = (finish m').unlogged) (alike : Alike (x m) (y m')) :
    Alike (Exec.ensuring finish x m) (Exec.ensuring finish y m') := by
  unfold Exec.ensuring
  generalize x m = r at alike
  generalize y m' = r' at alike
  cases alike with
  | ok same => exact .ok (blind same)
  | error same => exact .error (blind same)

theorem locating (p : Position) (alike : Alike (x m) (y m')) :
    Alike (Exec.locating p x m) (Exec.locating p y m') := by
  unfold Exec.locating
  generalize x m = r at alike
  generalize y m' = r' at alike
  cases alike with
  | ok same => exact .ok same
  | error same => exact .error same

theorem onExhaustion (f : Stop) (alike : Alike (x m) (y m')) :
    Alike (Exec.onExhaustion f x m) (Exec.onExhaustion f y m') := by
  unfold Exec.onExhaustion
  generalize x m = r at alike
  generalize y m' = r' at alike
  cases alike with
  | ok same => exact .ok same
  | @error g _ _ same =>
    cases g with
    | report => exact .error same
    | breakdown b => cases b <;> exact .error same

end Alike

theorem Exec.log_law :
    Law fun x => ∀ {m m' : Machine}, m.unlogged = m'.unlogged → Alike (x m) (x m') where
  pure _ _ _ same := .ok same
  throw _ _ _ same := .error same
  bind first rest _ _ same := (first same).bind fun a _ _ _ => rest a
  locating p _ h _ _ same := (h same).locating p
  onExhaustion f _ h _ _ same := (h same).onExhaustion f
  inOwnScope {x} h m m' same := by
    obtain ⟨log, rfl⟩ := Machine.exists_log same
    exact Alike.ensuring (m := m.push) Machine.unlogged_pop (h rfl)
  scopes {m m'} same := by
    obtain ⟨log, rfl⟩ := Machine.exists_log same
    exact .ok rfl
  onInnermost change m m' same := by
    obtain ⟨log, rfl⟩ := Machine.exists_log same
    obtain ⟨st, _, _, _⟩ := m
    cases st with
    | nil => exact .error rfl
    | cons s st =>
      unfold Exec.onInnermost
      dsimp only
      cases change s with
      | error => exact .error rfl
      | ok => exact .ok rfl
  assign name d m m' same := by
    obtain ⟨log, rfl⟩ := Machine.exists_log same
    obtain ⟨st, _, _, _⟩ := m
    rw [assign_run, assign_run]
    cases st with
    | nil => exact .error rfl
    | cons s st =>
      dsimp only
      cases Stack.assign name d (s :: st) with
      | error => exact .error rfl
      | ok => exact .ok rfl
  record e m m' same := by
    obtain ⟨log, rfl⟩ := Machine.exists_log same
    exact .ok rfl
  write text m m' same := by
    obtain ⟨log, rfl⟩ := Machine.exists_log same
    exact .ok rfl
  readDatum {m m'} same := by
    obtain ⟨log, rfl⟩ := Machine.exists_log same
    rw [readDatum_run, readDatum_run]
    dsimp only
    cases m.input.read.1 with
    | line => exact .ok rfl
    | ended => exact .ok rfl
    | interrupted => exact .error rfl

end PlZero
