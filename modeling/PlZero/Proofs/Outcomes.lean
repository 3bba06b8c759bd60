import PlZero.Proofs.RunPoints

set_option autoImplicit false

namespace PlZero

/-- A computation that gives something good, or fails for a reason. -/
inductive Gives {α : Type} (Good : α → Prop) (Why : Stop → Prop) : Except Stop α → Prop
  | ok {a : α} : Good a → Gives Good Why (.ok a)
  | error {f : Stop} : Why f → Gives Good Why (.error f)

namespace Gives

variable {α β : Type} {Good : α → Prop} {Good' : β → Prop} {Why Why' : Stop → Prop}
  {x : Except Stop α}

theorem because (gives : Gives Good Why x) (reasons : ∀ f, Why f → Why' f) :
    Gives Good Why' x := by
  cases gives with
  | ok good => exact .ok good
  | error why => exact .error (reasons _ why)

theorem bind {g : α → Except Stop β} (first : Gives Good Why x)
    (next : ∀ a, x = .ok a → Good a → Gives Good' Why (g a)) : Gives Good' Why (x >>= g) := by
  cases first with
  | ok good => exact next _ rfl good
  | error why => exact .error why

theorem map {g : α → β} (gives : Gives Good Why x) (good : ∀ a, Good a → Good' (g a)) :
    Gives Good' Why (x.map g) := by
  cases gives with
  | ok holds => exact .ok (good _ holds)
  | error why => exact .error why

theorem placed {p : Position} (gives : Gives Good Why x)
    (reasons : ∀ f, Why f → Why' (f.locate p)) : Gives Good Why' (placed p x) := by
  cases gives with
  | ok good => exact .ok good
  | error why => exact .error (reasons _ why)

end Gives

namespace Exec

/-- A run that ends in a state with an invariant, and that has failed for a reason if it has. -/
inductive Leads {α : Type} (Inv : Machine → Prop) (Why : Stop → Prop) :
    EStateM.Result Stop Machine α → Prop
  | ok {a : α} {m : Machine} : Inv m → Leads Inv Why (.ok a m)
  | error {f : Stop} {m : Machine} : Inv m → Why f → Leads Inv Why (.error f m)

namespace Leads

variable {α β : Type} {Inv Inv' : Machine → Prop} {Why Why' : Stop → Prop} {m : Machine}

theorem imp {r : EStateM.Result Stop Machine α} (leads : Leads Inv Why r)
    (states : ∀ m, Inv m → Inv' m) (reasons : ∀ f, Why f → Why' f) : Leads Inv' Why' r := by
  cases leads with
  | ok inv => exact .ok (states _ inv)
  | error inv why => exact .error (states _ inv) (reasons _ why)

theorem because {r : EStateM.Result Stop Machine α} (leads : Leads Inv Why r)
    (reasons : ∀ f, Why f → Why' f) : Leads Inv Why' r :=
  leads.imp (fun _ => id) reasons

theorem bind {x : Exec α} {f : α → Exec β} (first : Leads Inv Why (x m))
    (rest : ∀ a m', x m = .ok a m' → Inv m' → Leads Inv' Why (f a m'))
    (states : ∀ m, Inv m → Inv' m) : Leads Inv' Why ((x >>= f) m) := by
  simp only [Bind.bind, EStateM.bind]
  generalize result : x m = r at first
  cases first with
  | ok inv => exact rest _ _ result inv
  | error inv why => exact .error (states _ inv) why

theorem locating {p : Position} {x : Exec α} (leads : Leads Inv Why (x m))
    (reasons : ∀ f, Why f → Why' (f.locate p)) : Leads Inv Why' (locating p x m) := by
  unfold Exec.locating
  generalize x m = r at leads
  cases leads with
  | ok inv => exact .ok inv
  | error inv why => exact .error inv (reasons _ why)

theorem onExhaustion {f : Stop} {x : Exec α} (leads : Leads Inv Why (x m))
    (deep : ∀ m', x m = .error (.breakdown .exhausted) m' → Why f) :
    Leads Inv Why (onExhaustion f x m) := by
  unfold Exec.onExhaustion
  generalize x m = r at leads deep
  split
  · next m' =>
    cases leads with
    | error inv _ => exact .error inv (deep m' rfl)
  · exact leads

theorem ensuring {finish : Machine → Machine} {x : Exec α} (leads : Leads Inv Why (x m))
    (states : ∀ m, Inv m → Inv' (finish m)) : Leads Inv' Why (ensuring finish x m) := by
  unfold Exec.ensuring
  generalize x m = r at leads
  cases leads with
  | ok inv => exact .ok (states _ inv)
  | error inv why => exact .error (states _ inv) why

theorem ofExcept {Good : α → Prop} {x : Except Stop α} (gives : Gives Good Why x) (inv : Inv m) :
    Leads Inv Why (ofExcept x m) := by
  cases gives with
  | ok => exact .ok inv
  | error why => exact .error inv why

theorem forM {f : α → Exec Unit} {as : List α}
    (each : ∀ a m', Passes f as m a m' → Inv m' → Leads Inv Why (f a m')) (inv : Inv m) :
    Leads Inv Why (as.forM f m) := by
  induction as generalizing m with
  | nil => exact .ok inv
  | cons a as ih =>
    change Leads Inv Why ((f a >>= fun _ => as.forM f) m)
    refine .bind (each a m ⟨[], as, rfl, rfl⟩ inv) (fun _ m₁ first inv => ?_) fun _ => id
    refine ih (fun b m' passes => each b m' ?_) inv
    obtain ⟨before, after, eq, completed⟩ := passes
    refine ⟨a :: before, after, by rw [eq]; rfl, ?_⟩
    change (f a >>= fun _ => before.forM f) m = _
    simp only [Bind.bind, EStateM.bind, first, completed]

theorem optional {f : α → Exec Unit} {a : Option α} (each : ∀ b ∈ a, Leads Inv Why (f b m))
    (inv : Inv m) : Leads Inv Why (a.forM f m) := by
  cases a with
  | none => exact .ok inv
  | some b => exact each b rfl

theorem repeatWhile {test : Exec Bool} {body : Exec Unit} {rounds : Nat}
    (tests : ∀ i m', i < rounds → Rounds test body i m m' → Inv m' → Leads Inv Why (test m'))
    (bodies : ∀ i m₁ m₂, i < rounds → Rounds test body i m m₁ → test m₁ = .ok true m₂ → Inv m₂ →
      Leads Inv Why (body m₂))
    (ends : ∀ m', Rounds test body rounds m m' → Why (.breakdown .unfinished)) (inv : Inv m) :
    Leads Inv Why (repeatWhile test body rounds m) := by
  induction rounds generalizing m with
  | zero => exact .error inv (ends m .none)
  | succ rounds ih =>
    refine .bind (tests 0 m (Nat.succ_pos _) .none inv) (fun goesOn m₁ tested inv => ?_) fun _ => id
    cases goesOn with
    | false => exact .ok inv
    | true =>
      refine .bind (bodies 0 m m₁ (Nat.succ_pos _) .none tested inv) (fun _ m₂ done inv => ?_)
        fun _ => id
      exact ih
        (fun i m' less passed =>
          tests (i + 1) m' (Nat.succ_lt_succ less) (.more tested done passed))
        (fun i m' m'' less passed =>
          bodies (i + 1) m' m'' (Nat.succ_lt_succ less) (.more tested done passed))
        (fun m' passed => ends m' (.more tested done passed)) inv

end Leads

end Exec

namespace Program

open Exec

variable {limits : Limits} {debug : Bool} {p : Program} {m : Machine}

theorem block_run (run : Node → Exec Unit) (debug : Bool) (p : Program) (m : Machine) :
    ∃ finish, (finish = Machine.pop ∨ finish = id) ∧ block run false p.body (p.logged debug m) =
      ensuring finish (p.body.body.forM run) (p.start debug m) := by
  change ∃ finish, _ ∧ (if (false || (p.logged debug m).scopes.isEmpty) = true then _ else _ :
    Exec Unit) (p.logged debug m) = _
  unfold start
  rw [Bool.false_or]
  split
  · exact ⟨Machine.pop, .inl rfl, rfl⟩
  · refine ⟨id, .inr rfl, ?_⟩
    unfold ensuring
    cases p.body.body.forM run (p.logged debug m) <;> rfl

theorem leads_block {Inv : Machine → Prop} {Why : Stop → Prop}
    (body : Leads Inv Why
      (p.body.body.forM (execute limits.rounds limits.nesting) (p.start debug m)))
    (leave : ∀ m, Inv m → Inv m.pop) :
    Leads Inv Why
      (block (execute limits.rounds limits.nesting) false p.body (p.logged debug m)) := by
  obtain ⟨finish, which, runs⟩ := block_run (execute limits.rounds limits.nesting) debug p m
  rw [runs]
  refine body.ensuring fun m inv => ?_
  rcases which with rfl | rfl
  · exact leave m inv
  · exact inv

end Program

end PlZero
