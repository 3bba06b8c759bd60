import PlZero.Proofs.RunBudgets
import PlZero.Proofs.RunFaults

set_option autoImplicit false

namespace PlZero

section Places

variable {α β : Type} {x : Exec α}

theorem Failure.locate_locate {p : Position} (line : 0 < p.line) (q : Position) (f : Stop) :
    (f.locate p).locate q = f.locate p := by
  cases f with
  | report r => exact congrArg Failure.report (r.locate_locate line _ _ _)
  | breakdown => rfl

namespace Exec

/-- An action that has placed what it fails with: no position from outside is taken. -/
def SelfPlaced (x : Exec α) : Prop := ∀ p, locating p x = x

namespace SelfPlaced

theorem pure (a : α) : (Pure.pure a : Exec α).SelfPlaced := fun _ => rfl

theorem broken (b : Breakdown) : (throw (.breakdown b) : Exec α).SelfPlaced := fun _ => rfl

theorem bind {f : α → Exec β} (first : x.SelfPlaced) (rest : ∀ a, (f a).SelfPlaced) :
    (x >>= f).SelfPlaced := by
  intro p
  funext m
  have before := congrFun (first p) m
  simp only [Exec.locating, Bind.bind, EStateM.bind] at before ⊢
  cases result : x m with
  | ok a m' => exact congrFun (rest a p) m'
  | error g m' =>
    rw [result] at before
    have same : g.locate p = g := (EStateM.Result.error.inj before).1
    exact congrArg (EStateM.Result.error · m') same

theorem locating {p : Position} (line : 0 < p.line) (x : Exec α) : (locating p x).SelfPlaced := by
  intro q
  funext m
  unfold Exec.locating
  cases x m with
  | ok => rfl
  | error f m' => exact congrArg (EStateM.Result.error · m') (f.locate_locate line q)

theorem forM {f : α → Exec Unit} {as : List α} (each : ∀ a ∈ as, (f a).SelfPlaced) :
    (as.forM f).SelfPlaced := by
  induction as with
  | nil => exact .pure ()
  | cons a as ih =>
    obtain ⟨head, tail⟩ := List.forall_mem_cons.1 each
    exact head.bind fun _ => ih tail

theorem repeatWhile {test : Exec Bool} {body : Exec Unit} (tests : test.SelfPlaced)
    (bodies : body.SelfPlaced) (rounds : Nat) : (repeatWhile test body rounds).SelfPlaced := by
  induction rounds with
  | zero => exact .broken _
  | succ rounds ih =>
    refine tests.bind fun goesOn => ?_
    cases goesOn with
    | false => exact .pure ()
    | true => exact bodies.bind fun _ => ih

theorem placed {p : Position} (line : 0 < p.line) (r : Except Stop α) :
    (ofExcept (placed p r)).SelfPlaced := by
  cases r with
  | ok a => exact .pure a
  | error f =>
    intro q
    funext m
    exact congrArg (EStateM.Result.error · m) (f.locate_locate line q)

theorem test {c : Condition Node} (line : 0 < c.pos.line) (n : Nat) : (test n c).SelfPlaced := by
  have looks : (get : Exec Machine).SelfPlaced := fun _ => rfl
  refine looks.bind fun m => ?_
  match n with
  | 0 => exact .broken _
  | n + 1 =>
    rw [holds]
    exact .placed line _

theorem optional {f : α → Exec Unit} {a : Option α} (each : ∀ b ∈ a, (f b).SelfPlaced) :
    SelfPlaced (a.forM f) := by
  cases a with
  | none => exact .pure ()
  | some a => exact each a rfl

end SelfPlaced

end Exec

end Places

namespace Node

open Exec

def SelfPlaced (a : Node) : Prop := ∀ rounds n, (execute rounds n a).SelfPlaced

theorem SelfPlaced.of_line {a : Node} (line : 0 < a.pos.line) : a.SelfPlaced := by
  intro rounds n
  match n with
  | 0 | 1 | 2 => exact .broken _
  | n + 3 =>
    have refused (cause : Fault) :
        (throw (.ofCauseAt a.pos cause) : Exec Unit).SelfPlaced := by
      intro q
      funext m
      exact congrArg (EStateM.Result.error · m) (Failure.locate_ofCauseAt line q cause)
    rw [execute.eq_def]
    cases a with
    | identifier | literal | unary | binary | typecast | condition | declaration | program
    | unknown => exact refused _
    | _ => exact .locating line _

section Composites

variable {rounds n : Nat} {p : Position} {nodes : List Node} {c : Condition Node}
  {body : Option Node}

theorem execute_sequence (placed : ∀ a ∈ nodes, a.SelfPlaced) :
    execute rounds (n + 3) (.sequence p nodes) = nodes.forM (execute rounds (n + 1)) :=
  SelfPlaced.forM (fun a mem => placed a mem _ _) p

theorem execute_conditional (line : 0 < c.pos.line) (placed : ∀ a ∈ body, a.SelfPlaced) :
    execute rounds (n + 3) (.conditional p c body) = (do
      if ← test (n + 1) c then body.forM (execute rounds (n + 1))) := by
  refine SelfPlaced.bind (.test line _) (fun goesOn => ?_) p
  cases goesOn with
  | false => exact .pure ()
  | true => exact .optional fun a mem => placed a mem _ _

theorem execute_loop (line : 0 < c.pos.line) (placed : ∀ a ∈ body, a.SelfPlaced) :
    execute rounds (n + 3) (.loop p c body) =
      repeatWhile (test (n + 1) c) (body.forM (execute rounds (n + 1))) rounds :=
  SelfPlaced.repeatWhile (.test line _) (.optional fun a mem => placed a mem _ _) rounds p

theorem SelfPlaced.sequence (placed : ∀ a ∈ nodes, a.SelfPlaced) :
    (sequence p nodes).SelfPlaced := by
  intro rounds n
  match n with
  | 0 | 1 | 2 => exact .broken _
  | n + 3 =>
    rw [execute_sequence placed]
    exact .forM fun a mem => placed a mem _ _

theorem SelfPlaced.loop (line : 0 < c.pos.line) (placed : ∀ a ∈ body, a.SelfPlaced) :
    (loop p c body).SelfPlaced := by
  intro rounds n
  match n with
  | 0 | 1 | 2 => exact .broken _
  | n + 3 =>
    rw [execute_loop line placed]
    exact .repeatWhile (.test line _) (.optional fun a mem => placed a mem _ _) rounds

theorem sequence_within (placed : ∀ a ∈ nodes, a.SelfPlaced) :
    (execute rounds n (.sequence p nodes)).Within (nodes.forM (execute rounds n)) := by
  match n with
  | 0 | 1 | 2 => exact .of_cut fun _ => .stopped .nesting
  | n + 3 =>
    rw [execute_sequence placed]
    exact .forM (execute_within (Nat.le_refl _) (by omega)) nodes

theorem forM_toList_append (f : Node → Exec Unit) (body : Option Node) (a : Node) :
    (body.toList ++ [a]).forM f = (do body.forM f; f a) := by
  have one : [a].forM f = f a := bind_pure_unit
  cases body with
  | none => exact one
  | some b => exact congrArg (f b >>= fun _ => ·) one

end Composites

section Equivalences

variable {c : Condition Node} {body : Option Node} {xs ys zs : List Node}

theorem nested_sequence_equivalent (placed : ∀ a ∈ xs ++ ys ++ zs, a.SelfPlaced)
    (p p' q : Position) :
    (sequence p (xs ++ sequence q ys :: zs)).Equivalent (sequence p' (xs ++ ys ++ zs)) := by
  have inner : ∀ a ∈ ys, a.SelfPlaced := fun a mem => placed a (by simp [mem])
  have outer : ∀ a ∈ xs ++ sequence q ys :: zs, a.SelfPlaced := by
    intro a mem
    simp only [List.mem_append, List.mem_cons] at mem
    rcases mem with mem | rfl | mem
    · exact placed a (by simp [mem])
    · exact .sequence inner
    · exact placed a (by simp [mem])
  refine .of_below (fun rounds n => ?_) fun rounds n => ?_
  · refine ⟨rounds, n, ?_⟩
    match n with
    | 0 | 1 | 2 => exact .of_cut fun _ => .stopped .nesting
    | n + 3 =>
      rw [execute_sequence outer, execute_sequence placed]
      simp only [List.forM_eq_forM, List.append_assoc, List.forM_append, List.forM_cons]
      exact .bind (.refl _) fun _ => .bind (sequence_within inner) fun _ => .refl _
  · -- The statements of the sequence inside keep what they had, and it takes two more.
    refine ⟨rounds, n + 2, ?_⟩
    match n with
    | 0 | 1 | 2 => exact .of_cut fun _ => .stopped .nesting
    | n + 3 =>
      have more := fun nodes : List Node =>
        Within.forM (execute_within (Nat.le_refl rounds) (Nat.le_add_right (n + 1) 2)) nodes
      rw [execute_sequence outer, execute_sequence placed]
      simp only [List.forM_eq_forM, List.append_assoc, List.forM_append, List.forM_cons,
        execute_sequence inner] at more ⊢
      exact .bind (more xs) fun _ => .bind (.refl _) fun _ => more zs

section Loops

variable (line : 0 < c.pos.line) (placed : ∀ a ∈ body, a.SelfPlaced) (p p' q : Position)

include line placed

theorem selfPlaced_again : ∀ a ∈ body.toList ++ [loop p c body], a.SelfPlaced := by
  intro a mem
  rcases List.mem_append.1 mem with mem | mem
  · exact placed a (Option.mem_toList.1 mem)
  · rw [List.mem_singleton.1 mem]
    exact .loop line placed

theorem execute_unrolled (rounds n : Nat) :
    execute rounds (n + 3) (conditional p' c (some (sequence q (body.toList ++ [loop p c body])))) =
      (do if ← test (n + 1) c then
            execute rounds (n + 1) (sequence q (body.toList ++ [loop p c body]))) := by
  refine execute_conditional line ?_
  rintro a ⟨⟩
  exact .sequence (selfPlaced_again line placed p)

-- The loop inside has a round more than it needs, and the nesting that the loop had.
theorem loop_below_unrolled :
    (loop p c body).Below
      (conditional p' c (some (sequence q (body.toList ++ [loop p c body])))) := by
  refine fun rounds n => ⟨rounds, n + 4, ?_⟩
  match n, rounds with
  | 0, _ | 1, _ | 2, _ => exact .of_cut fun _ => .stopped .nesting
  | n + 3, 0 =>
    rw [execute_loop line placed]
    exact .of_cut fun _ => .stopped .rounds
  | n + 3, rounds + 1 =>
    have once : Exec.Within
        (do body.forM (execute (rounds + 1) (n + 1))
            repeatWhile (test (n + 1) c) (body.forM (execute (rounds + 1) (n + 1))) rounds)
        (execute (rounds + 1) (n + 2 + 3) (sequence q (body.toList ++ [loop p c body]))) := by
      rw [execute_sequence (selfPlaced_again line placed p), forM_toList_append,
        execute_loop line placed]
      refine .bind (.optional (execute_within (Nat.le_refl _) (by omega)) body) fun _ => ?_
      exact .repeatWhile (.refl _) (.refl _) (Nat.le_succ rounds)
    rw [execute_loop line placed, execute_unrolled line placed]
    refine .bind (.test (by omega) c) fun goesOn => ?_
    cases goesOn with
    | false => exact .refl _
    | true => exact once

-- The rounds that the loop inside had, and one for the body before it.
theorem unrolled_below_loop :
    (conditional p' c (some (sequence q (body.toList ++ [loop p c body])))).Below
      (loop p c body) := by
  refine fun rounds n => ⟨rounds + 1, n, ?_⟩
  match n with
  | 0 | 1 | 2 => exact .of_cut fun _ => .stopped .nesting
  | n + 3 =>
    have bodies : Exec.Within (body.forM (execute rounds (n + 1)))
        (body.forM (execute (rounds + 1) (n + 1))) :=
      .optional (execute_within (Nat.le_succ _) (Nat.le_refl _)) body
    have again : (execute rounds (n + 1) (loop p c body)).Within
        (repeatWhile (test (n + 1) c) (body.forM (execute (rounds + 1) (n + 1))) rounds) := by
      have more := execute_within (Nat.le_refl rounds) (Nat.le_add_right (n + 1) 2) (loop p c body)
      rw [execute_loop line placed] at more
      exact more.trans (.repeatWhile (.refl _) bodies (Nat.le_refl _))
    rw [execute_loop line placed, execute_unrolled line placed]
    refine .bind (.refl _) fun goesOn => ?_
    cases goesOn with
    | false => exact .refl _
    | true =>
      refine (sequence_within (selfPlaced_again line placed p)).trans ?_
      rw [forM_toList_append]
      exact .bind bodies fun _ => again

end Loops

end Equivalences

end Node

/-- A loop of a text does what a conditional does that runs the body once, if there is one, and then
the loop; and a sequence inside another one does what its statements do in its place. Where the
nodes around them stand does not matter. On every machine the two come to an end in the same cases,
and then with the same output, the same input left, the same scopes and the same failure. -/
theorem loops_unroll_sequences_flatten {texts : List Step} {c : Condition Node}
    {body : Option Node} {xs ys zs : List Node} (condition : (Node.condition c).IsOf texts)
    (inside : ∀ s ∈ body, s.IsOf texts) (listed : ∀ s ∈ xs ++ ys ++ zs, s.IsOf texts)
    (p p' q : Position) :
    (Node.loop p c body).Equivalent
        (.conditional p' c (some (.sequence q (body.toList ++ [.loop p c body])))) ∧
      (Node.sequence p (xs ++ .sequence q ys :: zs)).Equivalent
        (.sequence p' (xs ++ ys ++ zs)) := by
  have line : 0 < c.pos.line := condition.onLines _ .refl
  have placed {s : Node} (of : s.IsOf texts) : s.SelfPlaced := .of_line (of.onLines s .refl)
  have bodies : ∀ s ∈ body, s.SelfPlaced := fun s mem => placed (inside s mem)
  constructor
  · exact .of_below (Node.loop_below_unrolled line bodies p p' q)
      (Node.unrolled_below_loop line bodies p p' q)
  · exact Node.nested_sequence_equivalent (fun s mem => placed (listed s mem)) p p' q

theorem loops_unroll_sequences_flatten_countdown :
    let step := Step.program "while x > 0 do\n begin ! 6 / (x - 1); x := x - 1 end."
    let m : Machine := { scopes := [{ variableTable := [("x", ⟨.integer 3, false⟩)] }] }
    ∃ (p : Position) (c : Condition Node) (r : Position) (a b : Node),
      let body := Node.sequence r [a, b]
      (Node.loop p c (some body)).IsOf [step] ∧ ∀ p' q : Position,
        (∃ m', m'.output = "3\n6\n" ∧
          (Node.conditional p' c (some (.sequence q [body, .loop p c (some body)]))).Ends m
            (.error (.report ⟨.divideByZero, 2, 15⟩) m')) ∧
        (Node.sequence p' [a, .sequence q [b]]).Equivalent (.sequence r [a, b]) := by
  intro step m
  have checked : (step.read.toOption.any fun tree => tree.body.body.head?.any fun node =>
      let result := execute 10 100 node m
      node.variety == "While" && node.children[1]?.any (fun body =>
          body.variety == "Begin" && body.children.length == 2) &&
        decide (¬ Exec.CutShort result) && (machineOf result).output == "3\n6\n" &&
        failureOf result == some (.report ⟨.divideByZero, 2, 15⟩)) = true := by decide +kernel
  cases accepted : step.read with
  | error f =>
    rw [accepted] at checked
    cases checked
  | ok tree =>
    rw [accepted] at checked
    simp only [Except.toOption, Option.any_some, Option.any_eq_true, Bool.and_eq_true,
      decide_eq_true_eq, beq_iff_eq] at checked
    obtain ⟨node, head, ⟨⟨⟨isLoop, body, inside, isSequence, two⟩, settled⟩, printed⟩, failed⟩ :=
      checked
    have whole : node.IsOf [step] :=
      ⟨step, List.mem_singleton.2 rfl, tree, accepted,
        .inside (List.mem_singleton.2 rfl) (.of_mem (List.mem_of_mem_head? head))⟩
    cases node with
    | loop p c statement =>
      obtain rfl : statement = some body := by
        cases statement with
        | none => cases inside
        | some => exact inside
      have sequence := whole.child (List.mem_of_getElem? inside)
      cases body with
      | sequence r nodes =>
        obtain ⟨a, b, rfl⟩ := List.length_eq_two.1 two
        have bodies : ∀ s ∈ some (Node.sequence r [a, b]), s.IsOf [step] := by
          rintro s ⟨⟩
          exact sequence
        have statements : ∀ s ∈ [a] ++ [b] ++ [], s.IsOf [step] := fun s mem => sequence.child mem
        have apart := loops_unroll_sequences_flatten (whole.child List.mem_cons_self) bodies
          statements
        refine ⟨p, c, r, a, b, whole, fun p' q => ⟨?_, (apart p' r q).2⟩⟩
        cases result : execute 10 100 (.loop p c (some (.sequence r [a, b]))) m with
        | ok =>
          rw [result] at failed
          cases failed
        | error f m' =>
          rw [result] at settled printed failed
          cases failed
          exact ⟨m', printed, ((apart p p' q).1.ends m _).1 ⟨10, 100, result, settled⟩⟩
      | unknown => cases two
      | _ => simp [Node.variety] at isSequence
    | unknown => cases inside
    | _ => simp [Node.variety] at isLoop

end PlZero
