import Mathlib.Data.Stream.Init
import PlZero.Proofs.RuleFollows

set_option autoImplicit false

namespace PlZero

def Reader.ahead (r : Reader) : Stream' (Except (Failure SyntaxFault) Token) :=
  (r.current :: r.feed.tokens).map .ok ++ₛ Stream'.const r.feed.last

namespace Reader

variable {r s : Reader} {u : List Token}

theorem ahead_advance {t : Token} (h : Rule.advance r = .ok t s) :
    r.ahead = Stream'.cons (.ok r.current) s.ahead := by
  obtain ⟨current, ⟨tokens, last⟩, depth⟩ := r
  cases tokens with
  | cons t ts =>
    cases h
    rfl
  | nil =>
    cases last with
    | error f => cases h
    | ok e =>
      cases h
      exact congrArg (Stream'.cons (.ok current)) (Stream'.const_eq (Except.ok e))

theorem Reads.ahead_eq (h : r.Reads u s) : r.ahead = u.map .ok ++ₛ s.ahead := by
  induction h with
  | nil => rfl
  | cons _ step _ ih =>
    rw [ahead_advance step, ih]
    rfl

/-- A reader has read tokens on the way to another one. They, the token that is current then and
what comes after it are what was ahead; and no block was left or entered for good. -/
structure Passed (r : Reader) (u : List Token) (s : Reader) : Prop where
  reads : r.Reads u s
  ahead : r.ahead = u.map .ok ++ₛ s.ahead
  depth : s.depth = r.depth

theorem Reads.passed (h : r.Reads u s) : r.Passed u s := ⟨h, h.ahead_eq, h.depth_eq⟩

theorem Stops.passed {Stuck : List Token → Token → Prop} {f : Failure SyntaxFault}
    (h : r.Stops Stuck f s) : ∃ u, r.Passed u s := by
  cases h with
  | exhausted reads => exact ⟨_, reads.passed⟩
  | unscanned reads => exact ⟨_, reads.passed⟩
  | rejected reads => exact ⟨_, reads.passed⟩

end Reader

namespace Rule

variable {α : Type} {x : Rule α} {r : Reader}

def PassesFrom (x : Rule α) (r : Reader) (least : Nat) : Prop :=
  match x r with
  | .ok _ s => ∃ u, r.Passed u s ∧ least ≤ u.length
  | .error _ s => ∃ u, r.Passed u s

def Passes (x : Rule α) (least : Nat) : Prop := ∀ r, x.PassesFrom r least

theorem Follows.passes {Phrase : List Token → Token → α → Prop} {Stuck : List Token → Token → Prop}
    {least : Nat} (follows : x.Follows r Phrase Stuck)
    (long : ∀ {u next a}, Phrase u next a → least ≤ u.length) : x.PassesFrom r least := by
  unfold Follows at follows
  unfold PassesFrom
  split <;> rename_i result <;> rw [result] at follows
  · obtain ⟨u, reads, phrase⟩ := follows
    exact ⟨u, reads.passed, long phrase⟩
  · exact follows.passed

theorem passes_exhausted (least : Nat) : (exhausted : Rule α).Passes least :=
  fun _ => ⟨[], Reader.Reads.nil.passed⟩

end Rule

theorem Phrase.IsCondition.ne_nil {n : Nat} {u : List Token} {next : Token} {c : Condition Node}
    (phrase : IsCondition n u next c) : u ≠ [] := by
  cases phrase <;> simp

namespace Grammar

open Rule Phrase

variable {n : Nat}

/-- What the rules pass, where those that call others may nest so deep. Blocks and statements can be
empty. -/
structure RulesPass (n : Nat) : Prop where
  block : (block n).Passes 0
  constants : constantGroup.Passes 1
  vars : variableGroup.Passes 1
  procedure : (procedure n).Passes 1
  statement : (statement n).Passes 0
  sequence : (sequence n).Passes 1
  identifier (place : Place) : (identifier place).Passes 1
  condition : (condition n).Passes 1
  expression : (expression n).Passes 1
  term : (term n).Passes 1
  unary : (unary n).Passes 1
  factor : (factor n).Passes 1

theorem group_passes {word : TokenKind} (notEnd : word ≠ .eof) {item : Rule VariableDeclaration}
    {Item : Nat → List Token → Token → VariableDeclaration → Prop}
    {Stuck : Nat → List Token → Token → Prop}
    (follows : ∀ r, item.Follows r (Item 0) (Stuck 0)) : (group word item).Passes 1 := by
  intro r
  refine (group_follows notEnd follows r).passes ?_
  rintro u next a ⟨⟩
  simp

-- Only at a `begin` is a sequence read at all.
theorem sequence_passes (n : Nat) : (sequence n).Passes 1 := by
  intro r
  by_cases begins : r.current.kind = .beginWord
  · refine ((statements_follow n).2 r begins).passes ?_
    rintro u next a ⟨⟩
    simp
  · cases n with
    | zero => exact passes_exhausted 1 r
    | succ n =>
      have fails : sequence (n + 1) r = .error _ r := bind_error (expect_error begins)
      rw [PassesFrom, fails]
      exact ⟨[], Reader.Reads.nil.passed⟩

-- A procedure reads three tokens before its block, at whatever depth it stands.
theorem procedure_passes (n : Nat) : (procedure n).Passes 1 := by
  cases n with
  | zero => exact passes_exhausted 1
  | succ n =>
    intro r
    have follows : (procedure (n + 1)).Follows r (fun u _ _ => 1 ≤ u.length) fun _ _ => True := by
      unfold procedure
      refine .expect (by decide) (fun s _ _ => ?_) fun _ => trivial
      refine .expect (by decide) (fun s' _ _ => ?_) fun _ => trivial
      simp only [follows_discard]
      refine .expect (by decide) (fun s'' _ _ => ?_) fun _ => trivial
      refine .bind ((blocks_follow n).1 s'') (fun u b t _ _ => ?_) fun _ _ _ => trivial
      exact .pure (by simp)
    exact follows.passes id

theorem rules_pass (n : Nat) : RulesPass n where
  block r := ((blocks_follow n).1 r).passes fun _ => Nat.zero_le _
  constants := constantGroup_eq ▸ group_passes (by decide) constantItem_follows
  vars := variableGroup_eq ▸ group_passes (by decide) variableItem_follows
  procedure := procedure_passes n
  statement r := ((statements_follow n).1 r).passes fun _ => Nat.zero_le _
  sequence := sequence_passes n
  identifier place r := (identifier_follows place r).passes fun ⟨_, one, _⟩ => by simp [one]
  condition r := (condition_follows n r).passes fun h => List.length_pos_iff.2 h.ne_nil
  expression r := ((arithmetic_follows n).2.2.2 r).passes fun h => List.length_pos_iff.2 h.ne_nil
  term r := ((arithmetic_follows n).2.2.1 r).passes fun h => List.length_pos_iff.2 h.ne_nil
  unary r := ((arithmetic_follows n).2.1 r).passes fun h => List.length_pos_iff.2 h.ne_nil
  factor r := ((arithmetic_follows n).1 r).passes fun h => List.length_pos_iff.2 h.ne_nil

/-- In the loops of the grammar, over constants, variables, procedures and statements, a round that
starts at the first reader is followed by one that starts at the second. After a procedure the loop
over procedures always looks for the next. -/
inductive NextRound : Reader → Reader → Prop
  | constant {r s : Reader} {d : VariableDeclaration} :
      groupRound constantItem r = .ok (d, true) s → NextRound r s
  | var {r s : Reader} {d : VariableDeclaration} :
      groupRound variableItem r = .ok (d, true) s → NextRound r s
  | procedure {n : Nat} {r s : Reader} {a : Node} : procedure n r = .ok a s → NextRound r s
  | statement {n : Nat} {r s : Reader} {a : Option Node} :
      sequenceRound n r = .ok (a, true) s → NextRound r s

def Productive {α : Type} (step : Rule (α × Bool)) : Prop :=
  ∀ {r a s}, step r = .ok (a, true) s → ∃ u, u ≠ [] ∧ r.Reads u s

theorem productive_of_separated {α : Type} {Item : Nat → List Token → Token → α → Prop}
    {separator : TokenKind} {Finish : Token → Prop} {step : Rule (α × Bool)}
    {Stuck : List Token → Token → Prop}
    (follows : ∀ r, step.Follows r (Separated Item separator Finish n) Stuck) :
    Productive step := by
  intro r a s more
  have here := follows r
  unfold Follows at here
  rw [more] at here
  obtain ⟨u, reads, v, mark, rfl, _⟩ := here
  exact ⟨_, by simp, reads⟩

theorem productive_constants : Productive (groupRound constantItem) :=
  productive_of_separated (groupRound_follows constantItem_follows)

theorem productive_variables : Productive (groupRound variableItem) :=
  productive_of_separated (groupRound_follows variableItem_follows)

theorem productive_sequence (n : Nat) : Productive (sequenceRound n) :=
  productive_of_separated (sequenceRound_follows (statements_follow n).1)

theorem reads_procedure {r s : Reader} {a : Node} (h : procedure n r = .ok a s) :
    ∃ u, u ≠ [] ∧ r.Reads u s := by
  have passes := (rules_pass n).procedure r
  rw [PassesFrom, h] at passes
  obtain ⟨u, passed, long⟩ := passes
  exact ⟨u, List.length_pos_iff.1 long, passed.reads⟩

theorem NextRound.passed {r s : Reader} (h : NextRound r s) : ∃ u, u ≠ [] ∧ r.Passed u s := by
  obtain ⟨u, some, reads⟩ : ∃ u, u ≠ [] ∧ r.Reads u s := by
    cases h with
    | constant more => exact productive_constants more
    | var more => exact productive_variables more
    | procedure given => exact reads_procedure given
    | statement more => exact productive_sequence _ more
  exact ⟨u, some, reads.passed⟩

end Grammar

end PlZero
