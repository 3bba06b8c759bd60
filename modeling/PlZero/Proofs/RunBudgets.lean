import PlZero.Statement

set_option autoImplicit false

namespace PlZero

section Evaluation

variable {α β : Type} {x y : Except Stop α}

def Limited (x y : Except Stop α) : Prop := x = y ∨ x = breakDown .exhausted

theorem Limited.refl (x : Except Stop α) : Limited x x := .inl rfl

theorem Limited.bind {f g : α → Except Stop β} (first : Limited x y)
    (rest : ∀ a, Limited (f a) (g a)) : Limited (x >>= f) (y >>= g) := by
  rcases first with rfl | rfl
  · cases x with
    | ok a => exact rest a
    | error => exact .inl rfl
  · exact .inr rfl

theorem Limited.map (f : α → β) (limited : Limited x y) : Limited (x.map f) (y.map f) := by
  rcases limited with rfl | rfl
  · exact .inl rfl
  · exact .inr rfl

theorem Limited.placed (p : Position) (limited : Limited x y) :
    Limited (placed p x) (placed p y) := by
  rcases limited with rfl | rfl
  · exact .inl rfl
  · exact .inr rfl

theorem evaluate_limited (st : Stack) {n k : Nat} (le : n ≤ k) :
    (∀ e, Limited (evaluate st n e) (evaluate st k e)) ∧
      ∀ c, Limited (holds st n c) (holds st k c) := by
  induction n using Nat.strongRecOn generalizing k with
  | ind n ih =>
    constructor
    · intro e
      match n, k, le with
      | 0, _, _ | 1, _, _ => exact .inr rfl
      | n + 2, k + 2, le =>
        have inner := (ih n (by omega) (k := k) (by omega)).1
        have conditions := (ih (n + 1) (by omega) (k := k + 1) (by omega)).2
        rw [evaluate.eq_def, evaluate.eq_def]
        cases e with
        | unary pos operator a => exact ((inner a).bind fun _ => .refl _).placed pos
        | binary pos operator a b =>
          exact ((inner a).bind fun _ => (inner b).bind fun _ => .refl _).placed pos
        | typecast pos target a => exact ((inner a).bind fun _ => .refl _).placed pos
        | condition c => exact (conditions c).map _
        | _ => exact .refl _
    · intro c
      match n, k, le with
      | 0, _, _ => exact .inr rfl
      | n + 1, k + 1, le =>
        have inner := (ih n (by omega) (k := k) (by omega)).1
        rw [holds.eq_def, holds.eq_def]
        refine ((inner c.left).bind fun left => ?_).placed c.pos
        split
        · exact .refl _
        · split
          · exact (inner _).bind fun _ => .refl _
          · exact .refl _

end Evaluation

inductive Failure.OfLimit : Stop → Prop
  | nesting : OfLimit (.breakdown .exhausted)
  | rounds : OfLimit (.breakdown .unfinished)
  | overflow {r : Report Fault} : r.kind = .stackOverflow → OfLimit (.report r)

instance (f : Stop) : Decidable f.OfLimit :=
  match f with
  | .report r =>
    decidable_of_iff (r.kind = .stackOverflow) ⟨.overflow, fun | .overflow overflow => overflow⟩
  | .breakdown b =>
    decidable_of_iff (b = .exhausted ∨ b = .unfinished)
      ⟨fun | .inl same => same ▸ .nesting | .inr same => same ▸ .rounds,
        fun | .nesting => .inl rfl | .rounds => .inr rfl⟩

theorem Failure.OfLimit.locate {f : Stop} (limit : f.OfLimit) (p : Position) :
    (f.locate p).OfLimit := by
  cases limit with
  | nesting => exact .nesting
  | rounds => exact .rounds
  | @overflow r overflow =>
    refine .overflow ?_
    rw [← overflow]
    exact congrArg Fault.kind (r.cause_locate _ _)

namespace Exec

inductive CutShort {α : Type} : EStateM.Result Stop Machine α → Prop
  | stopped {f : Stop} {m : Machine} : f.OfLimit → CutShort (.error f m)

variable {α β : Type} {x y z : Exec α} {m : Machine}

instance (r : EStateM.Result Stop Machine α) : Decidable (CutShort r) :=
  match r with
  | .ok _ _ => .isFalse nofun
  | .error f _ => decidable_of_iff f.OfLimit ⟨.stopped, fun | .stopped limit => limit⟩

theorem CutShort.bind {f : α → Exec β} (cut : CutShort (x m)) : CutShort ((x >>= f) m) := by
  simp only [Bind.bind, EStateM.bind]
  generalize x m = r at cut
  cases cut with
  | stopped limit => exact .stopped limit

theorem CutShort.locating (p : Position) (cut : CutShort (x m)) : CutShort (locating p x m) := by
  unfold Exec.locating
  generalize x m = r at cut
  cases cut with
  | stopped limit => exact .stopped (limit.locate p)

theorem CutShort.ensuring (finish : Machine → Machine) (cut : CutShort (x m)) :
    CutShort (ensuring finish x m) := by
  unfold Exec.ensuring
  generalize x m = r at cut
  cases cut with
  | stopped limit => exact .stopped limit

theorem CutShort.onExhaustion {f : Stop} (overflow : f.OfLimit) (cut : CutShort (x m)) :
    CutShort (onExhaustion f x m) := by
  unfold Exec.onExhaustion
  generalize x m = r at cut
  cases cut with
  | stopped limit =>
    cases limit with
    | nesting => exact .stopped overflow
    | rounds => exact .stopped .rounds
    | overflow reported => exact .stopped (.overflow reported)

def Within (x y : Exec α) : Prop := ∀ m, x m = y m ∨ CutShort (x m)

namespace Within

theorem refl (x : Exec α) : x.Within x := fun _ => .inl rfl

theorem of_cut (cut : ∀ m, CutShort (x m)) : x.Within y := fun m => .inr (cut m)

theorem trans (first : x.Within y) (second : y.Within z) : x.Within z := by
  intro m
  rcases first m with same | cut
  · rw [same]
    exact second m
  · exact .inr cut

theorem bind {f g : α → Exec β} (first : x.Within y) (rest : ∀ a, (f a).Within (g a)) :
    (x >>= f).Within (y >>= g) := by
  intro m
  rcases first m with same | cut
  · simp only [Bind.bind, EStateM.bind, same]
    cases y m with
    | ok a m' => exact rest a m'
    | error => exact .inl rfl
  · exact .inr cut.bind

theorem locating (p : Position) (within : x.Within y) :
    (locating p x).Within (locating p y) := by
  intro m
  rcases within m with same | cut
  · exact .inl (by unfold Exec.locating; rw [same])
  · exact .inr (cut.locating p)

theorem ensuring (finish : Machine → Machine) (within : x.Within y) :
    (ensuring finish x).Within (ensuring finish y) := by
  intro m
  rcases within m with same | cut
  · exact .inl (by unfold Exec.ensuring; rw [same])
  · exact .inr (cut.ensuring finish)

theorem onExhaustion {f : Stop} (overflow : f.OfLimit) (within : x.Within y) :
    (onExhaustion f x).Within (onExhaustion f y) := by
  intro m
  rcases within m with same | cut
  · exact .inl (by unfold Exec.onExhaustion; rw [same])
  · exact .inr (cut.onExhaustion overflow)

theorem ofExcept {r r' : Except Stop α} (limited : Limited r r') :
    (ofExcept r).Within (ofExcept r') := by
  rcases limited with rfl | rfl
  · exact .refl _
  · exact .of_cut fun _ => .stopped .nesting

theorem forM {f g : α → Exec Unit} (each : ∀ a, (f a).Within (g a)) (as : List α) :
    (as.forM f).Within (as.forM g) := by
  induction as with
  | nil => exact .refl _
  | cons a as ih => exact (each a).bind fun _ => ih

theorem optional {f g : α → Exec Unit} (each : ∀ a, (f a).Within (g a)) (a : Option α) :
    Within (a.forM f) (a.forM g) := by
  cases a with
  | none => exact .refl _
  | some a => exact each a

theorem repeatWhile {test test' : Exec Bool} {body body' : Exec Unit} (tests : test.Within test')
    (bodies : body.Within body') {rounds rounds' : Nat} (le : rounds ≤ rounds') :
    (repeatWhile test body rounds).Within (repeatWhile test' body' rounds') := by
  induction rounds generalizing rounds' with
  | zero => exact .of_cut fun _ => .stopped .rounds
  | succ rounds ih =>
    match rounds', le with
    | rounds' + 1, le =>
      refine tests.bind fun goesOn => ?_
      cases goesOn with
      | false => exact .refl _
      | true => exact bodies.bind fun _ => ih (by omega)

section Actions

variable {n k : Nat} (le : n ≤ k)

include le

theorem result (node : Node) : (result n node).Within (result k node) := by
  intro m
  exact ofExcept ((evaluate_limited m.scopes le).1 node) m

theorem value (node : Node) : (value n node).Within (value k node) :=
  (result le node).bind fun _ => .refl _

theorem test (c : Condition Node) : (test n c).Within (test k c) := by
  intro m
  exact ofExcept ((evaluate_limited m.scopes le).2 c) m

theorem declare (d : VariableDeclaration) : (declare n d).Within (declare k d) := by
  unfold Exec.declare
  refine .locating _ ?_
  split
  · exact (value le _).bind fun _ => .refl _
  · exact .refl _

end Actions

variable {run run' : Node → Exec Unit} (each : ∀ node, (run node).Within (run' node))

include each

theorem block (ownScope : Bool) (b : Block Node) :
    (block run ownScope b).Within (block run' ownScope b) := by
  refine .bind (.refl _) fun m => ?_
  split
  · exact .bind (.refl _) fun _ => .ensuring _ (forM each _)
  · exact forM each _

theorem call (name : String) : (call run name).Within (call run' name) := by
  refine .bind (.refl _) fun st => ?_
  split
  · exact .refl _
  · exact .bind (.refl _) fun _ => .onExhaustion (.overflow rfl) (block each true _)

end Within

end Exec

open Exec in
theorem execute_within {rounds rounds' n k : Nat} (more : rounds ≤ rounds') (le : n ≤ k)
    (node : Node) : (execute rounds n node).Within (execute rounds' k node) := by
  induction n using Nat.strongRecOn generalizing k node with
  | ind n ih =>
    match n, k, le, ih with
    | 0, _, _, _ | 1, _, _, _ | 2, _, _, _ => exact .of_cut fun _ => .stopped .nesting
    | n + 3, k + 3, le, ih =>
      have blocks := ih n (by omega) (k := k) (by omega)
      have nested := ih (n + 1) (by omega) (k := k + 1) (by omega)
      have deeper : n + 1 ≤ k + 1 := by omega
      rw [execute.eq_def, execute.eq_def]
      cases node with
      | block b => exact .locating _ (.block blocks true b)
      | declarations pos group => exact .locating _ (.forM (.declare deeper) group)
      | assignment pos target e => exact .locating _ (.bind (.result deeper e) fun _ => .refl _)
      | call pos target => exact .locating _ (.call blocks target.name)
      | print pos e => exact .locating _ (.bind (.value deeper e) fun _ => .refl _)
      | sequence pos body => exact .locating _ (.forM nested body)
      | conditional pos c body =>
        refine .locating _ (.bind (.test deeper c) fun goesOn => ?_)
        cases goesOn with
        | false => exact .refl _
        | true => exact .optional nested body
      | loop pos c body =>
        exact .locating _ (.repeatWhile (.test deeper c) (.optional nested body) more)
      | _ => exact .refl _

namespace Node

open Exec

/-- A node, run on a machine, comes to an end, if it is given the nesting and the rounds it needs
for that. -/
def Ends (a : Node) (m : Machine) (r : EStateM.Result Stop Machine Unit) : Prop :=
  ∃ rounds n, execute rounds n a m = r ∧ ¬ CutShort r

variable {a b : Node} {m : Machine} {r r' : EStateM.Result Stop Machine Unit}

theorem Ends.unique (ends : a.Ends m r) (ends' : a.Ends m r') : r = r' := by
  obtain ⟨rounds, n, rfl, settled⟩ := ends
  obtain ⟨rounds', n', rfl, settled'⟩ := ends'
  have left := execute_within (Nat.le_max_left rounds rounds') (Nat.le_max_left n n') a m
  have right := execute_within (Nat.le_max_right rounds rounds') (Nat.le_max_right n n') a m
  exact (left.resolve_right settled).trans (right.resolve_right settled').symm

/-- Two nodes that do the same on every machine: they come to the same ends, and with whatever
limits they are run, what they do is the same unless a limit has cut one of them short. -/
structure Equivalent (a b : Node) : Prop where
  ends : ∀ m r, a.Ends m r ↔ b.Ends m r
  agree : ∀ {rounds n rounds' n' m}, ¬ CutShort (execute rounds n a m) →
    ¬ CutShort (execute rounds' n' b m) → execute rounds n a m = execute rounds' n' b m

def Below (a b : Node) : Prop :=
  ∀ rounds n, ∃ rounds' n', (execute rounds n a).Within (execute rounds' n' b)

theorem Below.ends (below : a.Below b) (ends : a.Ends m r) : b.Ends m r := by
  obtain ⟨rounds, n, rfl, settled⟩ := ends
  obtain ⟨rounds', n', within⟩ := below rounds n
  exact ⟨rounds', n', ((within m).resolve_right settled).symm, settled⟩

theorem Equivalent.of_below (below : a.Below b) (above : b.Below a) : a.Equivalent b where
  ends _ _ := ⟨below.ends, above.ends⟩
  agree settled settled' :=
    (below.ends ⟨_, _, rfl, settled⟩).unique ⟨_, _, rfl, settled'⟩

end Node

end PlZero
