import PlZero.Proofs.ErasedRuns
import PlZero.Proofs.MatchingRuns
import PlZero.Proofs.PiecewiseRuns

set_option autoImplicit false

namespace PlZero

open Exec

def Procedure.node (p : Procedure) : Node := .procedure p.pos p.name p.body

section Tables

theorem lookup_eq_of_perm {α : Type} {entries entries' : List (String × α)}
    (perm : entries.Perm entries') (nodup : (entries.map (·.1)).Nodup) (name : String) :
    entries.lookup name = entries'.lookup name := by
  induction perm with
  | nil => rfl
  | cons entry _ ih =>
    rw [List.lookup_cons, List.lookup_cons, ih (List.nodup_cons.1 nodup).2]
  | swap first second entries =>
    obtain ⟨key, a⟩ := first
    obtain ⟨key', b⟩ := second
    have different : key' ≠ key := by
      rintro rfl
      simp at nodup
    simp only [List.lookup_cons]
    by_cases here : name = key
    · subst here
      simp [beq_false_of_ne different.symm]
    · simp [beq_false_of_ne here]
  | trans first _ ih ih' =>
    exact (ih nodup).trans (ih' ((first.map (·.1)).nodup_iff.1 nodup))

namespace Scope

variable {R : Block Node → Block Node → Prop} {s s' : Scope} {ps ps' : List Procedure}

def withProcedures (s : Scope) (ps : List Procedure) : Scope :=
  { s with procedureTable := (ps.map fun p => (p.name, p)).reverse ++ s.procedureTable }

theorem declares_variable {name other : String} (different : other ≠ name) (v : Variable) :
    declares { s with variableTable := (name, v) :: s.variableTable } other = s.declares other := by
  simp only [declares, findVariable, List.lookup_cons, beq_false_of_ne different]
  rfl

theorem declares_procedure {p : Procedure} {other : String} (different : other ≠ p.name) :
    (s.withProcedures [p]).declares other = s.declares other := by
  simp only [declares, withProcedures, findProcedure, List.map_cons, List.map_nil,
    List.reverse_singleton, List.singleton_append, List.lookup_cons, beq_false_of_ne different]
  rfl

theorem Matches.withProcedures (related : ∀ b, R b b) (like : s.Matches R s') (perm : ps.Perm ps')
    (nodup : (ps.map (·.name)).Nodup) :
    (s.withProcedures ps).Matches R (s'.withProcedures ps') := by
  have entries : (ps.map fun p => (p.name, p)).reverse.Perm
      (ps'.map fun p => (p.name, p)).reverse :=
    (List.reverse_perm _).trans ((perm.map _).trans (List.reverse_perm _).symm)
  refine ⟨like.vars, fun name => ?_, ?_⟩
  · have same := lookup_eq_of_perm entries (by simpa [Function.comp_def] using nodup) name
    have old := like.procedures name
    simp only [findProcedure, Scope.withProcedures, List.lookup_append] at old ⊢
    rw [same]
    cases (ps'.map fun p => (p.name, p)).reverse.lookup name with
    | some p => exact .some (related _)
    | none => exact old
  · simp only [Scope.withProcedures, List.map_append]
    exact (entries.map _).append like.names

end Scope

end Tables

section Declaring

variable {R : Block Node → Block Node → Prop} {names : List String} {m m' : Machine}
  {ps ps' : List Procedure}

def Machine.Spares (names : List String) (m : Machine) : Prop :=
  ∃ s st, m.scopes = s :: st ∧ ∀ name ∈ names, s.declares name = false

theorem Machine.spares_push (names : List String) (m : Machine) : m.push.Spares names :=
  ⟨{}, m.scopes, rfl, fun _ _ => rfl⟩

abbrev Sparing {α : Type} (names : List String) (r : EStateM.Result Stop Machine α) : Prop :=
  Leads (Machine.Spares names) (fun _ => True) r

theorem sparing_ofExcept {α : Type} (r : Except Stop α) (spares : m.Spares names) :
    Sparing names (ofExcept r m) := by
  cases r with
  | ok => exact .ok spares
  | error => exact .error spares trivial

theorem sparing_declareVariable {name : String} (other : name ∉ names) (d : Datum)
    (isConstant : Bool) (spares : m.Spares names) :
    Sparing names (onInnermost (·.declareVariable name d isConstant) m) := by
  obtain ⟨s, st, scopes, free⟩ := id spares
  simp only [onInnermost, scopes, Scope.declareVariable]
  split
  · next s' declared =>
    split at declared
    · cases declared
    · cases value : d.toValue with
      | error => rw [value] at declared; cases declared
      | ok v =>
        rw [value] at declared
        cases declared
        refine .ok ⟨_, st, rfl, fun known mem => ?_⟩
        rw [Scope.declares_variable (ne_of_mem_of_not_mem mem other)]
        exact free known mem
  · exact .error spares trivial

theorem sparing_declare {n : Nat} {d : VariableDeclaration} (other : d.name ∉ names)
    (spares : m.Spares names) : Sparing names (declare n d m) := by
  obtain ⟨pos, name, isConstant, literal⟩ := d
  refine .locating ?_ fun _ => id
  cases isConstant with
  | false => exact sparing_declareVariable other _ _ spares
  | true =>
    cases literal with
    | none => exact sparing_declareVariable other _ _ spares
    | some l =>
      have evaluated : Sparing names (value n (.literal l) m) :=
        .bind (sparing_ofExcept _ spares) (fun _ _ _ => sparing_ofExcept _) fun _ => id
      exact evaluated.bind (fun _ _ _ => sparing_declareVariable other _ _) fun _ => id

inductive Node.IsGroup : Node → Prop
  | mk {pos : Position} {group : List VariableDeclaration} : IsGroup (.declarations pos group)

theorem sparing_groups {groups : List Node} (declare : ∀ node ∈ groups, node.IsGroup)
    (others : ∀ name ∈ groups.flatMap Node.declared, name ∉ names) (rounds n : Nat)
    (spares : m.Spares names) : Sparing names (groups.forM (execute rounds n) m) := by
  refine .forM (fun node m' passes spares => ?_) spares
  match n with
  | 0 | 1 | 2 => exact .error spares trivial
  | n + 3 =>
    obtain ⟨⟩ := declare node passes.mem
    refine .locating (.forM (fun d m' among spares => sparing_declare ?_ spares) spares) fun _ => id
    exact others d.name (List.mem_flatMap.2 ⟨_, passes.mem, List.mem_map_of_mem among.mem⟩)

theorem declare_procedures {s : Scope} {st : Stack} (scopes : m.scopes = s :: st)
    (nodup : (ps.map (·.name)).Nodup) (free : ∀ p ∈ ps, s.declares p.name = false)
    (rounds n : Nat) :
    (ps.map Procedure.node).forM (execute rounds (n + 3)) m =
      .ok () { m with scopes := s.withProcedures ps :: st } := by
  induction ps generalizing m s with
  | nil =>
    obtain ⟨_, _, _, _⟩ := m
    cases scopes
    rfl
  | cons p ps ih =>
    obtain ⟨absent, nodup⟩ := List.nodup_cons.1 nodup
    obtain ⟨first, free⟩ := List.forall_mem_cons.1 free
    have declared : execute rounds (n + 3) p.node m =
        .ok () { m with scopes := s.withProcedures [p] :: st } := by
      change locating p.pos (onInnermost (·.declareProcedure p)) m = _
      simp only [locating, onInnermost, scopes, Scope.declareProcedure, first]
      rfl
    have rest := ih (m := { m with scopes := s.withProcedures [p] :: st }) rfl nodup
      fun q mem => by
        have different : q.name ≠ p.name := fun same => absent (List.mem_map.2 ⟨q, mem, same⟩)
        rw [Scope.declares_procedure different]
        exact free q mem
    change (execute rounds (n + 3) p.node >>= fun _ => _) m = _
    simp only [Bind.bind, EStateM.bind, declared, rest]
    simp [Scope.withProcedures]

theorem procedures_match (related : ∀ b, R b b) (perm : ps.Perm ps')
    (nodup : (ps.map (·.name)).Nodup) (rounds n : Nat) (like : m.Matches R m')
    (spares : m.Spares (ps.map (·.name))) (spares' : m'.Spares (ps.map (·.name))) :
    Matched R ((ps.map Procedure.node).forM (execute rounds n) m)
      ((ps'.map Procedure.node).forM (execute rounds n) m') := by
  match n with
  | 0 | 1 | 2 =>
    -- Without nesting there is no difference but between some procedures and none.
    cases ps with
    | nil =>
      cases perm.nil_eq
      exact .ok like
    | cons p ps =>
      cases ps' with
      | nil => exact absurd perm.eq_nil (List.cons_ne_nil p ps)
      | cons p' ps' => exact .error like
  | n + 3 =>
    obtain ⟨s, st, scopes, free⟩ := spares
    obtain ⟨s', st', scopes', free'⟩ := spares'
    rw [declare_procedures scopes nodup (fun p mem => free _ (List.mem_map_of_mem mem)),
      declare_procedures scopes' ((perm.map _).nodup_iff.1 nodup)
        (fun p mem => free' _ (List.mem_map_of_mem (perm.mem_iff.2 mem)))]
    have both := like.scopes
    rw [scopes, scopes'] at both
    cases both with
    | cons top others =>
      exact .ok ⟨.cons (top.withProcedures related perm nodup) others, like.input, like.output⟩

end Declaring

def Node.isProcedure : Node → Bool
  | .procedure _ _ _ => true
  | _ => false

def Node.Exchanged (a a' : Node) : Prop := a = a' ∨ a.isProcedure = true ∧ a'.isProcedure = true

/-- The procedures of a list change places, and every other node stays where it is. -/
structure Rearranged (nodes nodes' : List Node) : Prop where
  perm : nodes.Perm nodes'
  places : List.Forall₂ Node.Exchanged nodes nodes'

/-- The procedures of a block change places, those of the block itself or those of the body of some
procedure in it. Where they do, no name is declared twice. -/
inductive Block.Permuted : Block Node → Block Node → Prop
  | here {pos : Position} {nodes nodes' : List Node} : (Block.declared ⟨pos, nodes⟩).Nodup →
      Rearranged nodes nodes' → Permuted ⟨pos, nodes⟩ ⟨pos, nodes'⟩
  | inside {pos place : Position} {name : String} {before after : List Node} {b b' : Block Node} :
      Permuted b b' → Permuted ⟨pos, before ++ .procedure place name b :: after⟩
        ⟨pos, before ++ .procedure place name b' :: after⟩

section Shapes

open WellFormed

variable {nodes nodes' : List Node}

theorem Node.exists_procedure {node : Node} (procedure : node.isProcedure = true) :
    ∃ p : PlZero.Procedure, node = p.node := by
  cases node with
  | procedure pos name b => exact ⟨⟨pos, name, b⟩, rfl⟩
  | _ => cases procedure

theorem exists_procedures (procedures : ∀ node ∈ nodes, node.isProcedure = true) :
    ∃ ps : List PlZero.Procedure, nodes = ps.map Procedure.node := by
  induction nodes with
  | nil => exact ⟨[], rfl⟩
  | cons node nodes ih =>
    obtain ⟨first, rest⟩ := List.forall_mem_cons.1 procedures
    obtain ⟨p, rfl⟩ := Node.exists_procedure first
    obtain ⟨ps, rfl⟩ := ih rest
    exact ⟨p :: ps, rfl⟩

theorem WellFormed.Group.isGroup {Item : VariableDeclaration → Prop} (group : Group Item nodes) :
    ∀ node ∈ nodes, node.IsGroup := by
  cases group with
  | absent => nofun
  | present => exact List.forall_mem_singleton.2 .mk

theorem WellFormed.Body.sections (formed : Body Lexicon nodes) :
    ∃ (groups rest : List Node) (ps : List PlZero.Procedure),
      nodes = groups ++ ps.map Procedure.node ++ rest ∧ (∀ node ∈ groups, node.IsGroup) ∧
        ∀ node ∈ rest, node.isProcedure = false := by
  obtain ⟨constants, vars, procedures, statement⟩ := formed
  obtain ⟨ps, rfl⟩ := exists_procedures fun node mem => by
    obtain ⟨⟩ := procedures node mem
    rfl
  refine ⟨_, _, ps, rfl, List.forall_mem_append.2 ⟨constants.isGroup, vars.isGroup⟩, ?_⟩
  intro node mem
  cases statement node (Option.mem_toList.1 mem) <;> rfl

theorem WellFormed.Outer.sections (outer : Outer nodes) :
    ∃ (groups rest : List Node) (ps : List PlZero.Procedure),
      nodes = groups ++ ps.map Procedure.node ++ rest ∧ (∀ node ∈ groups, node.IsGroup) ∧
        ∀ node ∈ rest, node.isProcedure = false := by
  cases outer with
  | unclosed formed => exact formed.sections
  | closed formed =>
    obtain ⟨groups, rest, ps, rfl, declare, run⟩ := formed.sections
    exact ⟨groups, _, ps, List.append_assoc _ _ _, declare,
      List.forall_mem_append.2 ⟨run, List.forall_mem_singleton.2 rfl⟩⟩

theorem WellFormed.Body.body {place : Position} {name : String} {b : Block Node}
    (formed : Body Lexicon nodes) (mem : .procedure place name b ∈ nodes) : Outer b.body := by
  cases formed.items _ mem with
  | statement statement => cases statement
  | procedure formed => exact .unclosed (procedure_iff.1 formed).2

theorem WellFormed.Outer.body {place : Position} {name : String} {b : Block Node}
    (outer : Outer nodes) (mem : .procedure place name b ∈ nodes) : Outer b.body := by
  cases outer with
  | unclosed formed => exact formed.body mem
  | closed formed =>
    rcases List.mem_append.1 mem with mem | mem
    · exact formed.body mem
    · cases List.mem_singleton.1 mem

theorem eq_of_exchanged (places : List.Forall₂ Node.Exchanged nodes nodes')
    (others : ∀ node ∈ nodes, node.isProcedure = false) : nodes = nodes' := by
  induction places with
  | nil => rfl
  | cons first _ ih =>
    obtain ⟨other, others⟩ := List.forall_mem_cons.1 others
    rcases first with rfl | ⟨procedure, _⟩
    · rw [ih others]
    · rw [other] at procedure
      cases procedure

theorem exists_procedures_of_exchanged {ps : List PlZero.Procedure}
    (places : List.Forall₂ Node.Exchanged (ps.map Procedure.node) nodes') :
    ∃ ps' : List PlZero.Procedure, nodes' = ps'.map Procedure.node := by
  induction ps generalizing nodes' with
  | nil =>
    cases places
    exact ⟨[], rfl⟩
  | cons p ps ih =>
    cases places with
    | cons first places =>
      obtain ⟨ps', rfl⟩ := ih places
      rcases first with rfl | ⟨_, procedure⟩
      · exact ⟨p :: ps', rfl⟩
      · obtain ⟨p', rfl⟩ := Node.exists_procedure procedure
        exact ⟨p' :: ps', rfl⟩

theorem Rearranged.exists_procedures {groups rest : List Node} {ps : List PlZero.Procedure}
    (rearranged : Rearranged (groups ++ ps.map Procedure.node ++ rest) nodes')
    (declare : ∀ node ∈ groups, node.IsGroup) (run : ∀ node ∈ rest, node.isProcedure = false) :
    ∃ ps', nodes' = groups ++ ps'.map Procedure.node ++ rest ∧ ps.Perm ps' := by
  obtain ⟨perm, places⟩ := rearranged
  have split {xs ys zs : List Node} (places : List.Forall₂ Node.Exchanged (xs ++ ys) zs) :
      ∃ xs' ys', zs = xs' ++ ys' ∧ List.Forall₂ Node.Exchanged xs xs' ∧
        List.Forall₂ Node.Exchanged ys ys' :=
    ⟨_, _, (List.take_append_drop xs.length zs).symm,
      by simpa using List.forall₂_take xs.length places,
      by simpa using List.forall₂_drop xs.length places⟩
  obtain ⟨front, rest', rfl, places, last⟩ := split places
  obtain ⟨groups', middle, rfl, first, places⟩ := split places
  obtain ⟨ps', rfl⟩ := exists_procedures_of_exchanged places
  have undeclared : ∀ node ∈ groups, node.isProcedure = false := by
    intro node mem
    obtain ⟨⟩ := declare node mem
    rfl
  obtain rfl := eq_of_exchanged first undeclared
  obtain rfl := eq_of_exchanged last run
  refine ⟨ps', rfl, ?_⟩
  rw [List.perm_append_right_iff, List.perm_append_left_iff] at perm
  refine (List.map_perm_map_iff fun p q same => ?_).1 perm
  cases p
  cases q
  cases same
  rfl

end Shapes

/-- The same block, or a block of a text and what has become of it as its procedures have changed
places. -/
inductive Block.Reordered : Block Node → Block Node → Prop
  | same {b : Block Node} : Reordered b b
  | permuted {b b' : Block Node} : WellFormed.Outer b.body → b.Permuted b' → Reordered b b'

namespace Block

variable {rounds n : Nat} {b b' : Block Node} {m m' : Machine}

theorem forall₂_execute (nodes : NodesMatch Reordered rounds n) (as : List Node) :
    List.Forall₂ (fun a b => Exec.Matches Reordered (execute rounds n a) (execute rounds n b))
      as as :=
  List.forall₂_same.2 fun a _ => nodes a a .same

theorem matched_rearranged {pos : Position} {as as' : List Node}
    (nodes : NodesMatch Reordered rounds n) (outer : WellFormed.Outer as)
    (nodup : (Block.declared ⟨pos, as⟩).Nodup) (rearranged : Rearranged as as')
    (like : m.Matches Reordered m') :
    Matched Reordered (as.forM (execute rounds n) m.push)
      (as'.forM (execute rounds n) m'.push) := by
  obtain ⟨groups, rest, ps, rfl, declare, run⟩ := outer.sections
  obtain ⟨ps', rfl, perm⟩ := rearranged.exists_procedures declare run
  have names : (ps.map Procedure.node).flatMap Node.declared = ps.map (·.name) := by
    rw [List.flatMap_map, List.map_eq_flatMap]
    rfl
  simp only [Block.declared, List.flatMap_append, names, List.nodup_append] at nodup
  obtain ⟨⟨_, nodup, apart⟩, _, _⟩ := nodup
  have spares {m m₁ : Machine} (done : groups.forM (execute rounds n) m.push = .ok () m₁) :
      m₁.Spares (ps.map (·.name)) := by
    have spared := sparing_groups declare (fun name mem mem' => apart name mem name mem' rfl)
      rounds n (m.spares_push (ps.map (·.name)))
    rw [done] at spared
    cases spared with
    | ok spares => exact spares
  simp only [List.forM_eq_forM, List.append_assoc, List.forM_append]
  refine matched_bind (Exec.Matches.forM (forall₂_execute nodes groups) _ _ like.push)
    fun _ m₁ m₂ done done' like => ?_
  refine matched_bind (procedures_match (fun _ => .same) perm nodup rounds n like (spares done)
    (spares done')) fun _ _ _ _ _ like => ?_
  exact Exec.Matches.forM (forall₂_execute nodes rest) _ _ like

theorem Reordered.matched_body (nodes : NodesMatch Reordered rounds n) (reordered : Reordered b b')
    (like : m.Matches Reordered m') :
    Matched Reordered (b.body.forM (execute rounds n) m.push)
      (b'.body.forM (execute rounds n) m'.push) := by
  cases reordered with
  | same => exact Exec.Matches.forM (forall₂_execute nodes _) _ _ like.push
  | permuted outer permuted =>
    cases permuted with
    | here nodup rearranged => exact matched_rearranged nodes outer nodup rearranged like
    | @inside _ _ _ before after _ _ inner =>
      have body := outer.body (List.mem_append_right _ List.mem_cons_self)
      refine Exec.Matches.forM (List.rel_append (forall₂_execute nodes before)
        (.cons ?_ (forall₂_execute nodes after))) _ _ like.push
      exact nodes _ _ (.procedure (.permuted body inner))

theorem nodesMatch (rounds n : Nat) : NodesMatch Reordered rounds n :=
  execute_matches (fun _ => .same) (fun nodes reordered _ _ like =>
    matched_ensuring Machine.Matches.pop (reordered.matched_body nodes like)) n

theorem depthOfItems_perm {nodes nodes' : List Node} (perm : nodes.Perm nodes') :
    Json.depthOfItems (outlines nodes) = Json.depthOfItems (outlines nodes') := by
  induction perm with
  | nil => rfl
  | cons node _ ih => rw [outlines, outlines, Json.depthOfItems, Json.depthOfItems, ih]
  | swap first second nodes =>
    simp only [outlines, Json.depthOfItems]
    exact Nat.max_left_comm _ _ _
  | trans _ _ ih ih' => exact ih.trans ih'

theorem Permuted.depth_eq (permuted : b.Permuted b') :
    (blockOutline b).depth = (blockOutline b').depth := by
  have block {pos : Position} {nodes nodes' : List Node}
      (same : Json.depthOfItems (outlines nodes) = Json.depthOfItems (outlines nodes')) :
      (blockOutline ⟨pos, nodes⟩).depth = (blockOutline ⟨pos, nodes'⟩).depth := by
    simp only [blockOutline, depth_outline, Json.depthOfFields, Json.depth, same]
  induction permuted with
  | here _ rearranged => exact block (depthOfItems_perm rearranged.perm)
  | @inside pos place name before after b b' _ ih =>
    apply block
    have first (b : Block Node) :
        Json.depthOfItems (outlines (before ++ .procedure place name b :: after)) =
          Json.depthOfItems (outlines (.procedure place name b :: (before ++ after))) :=
      depthOfItems_perm List.perm_middle
    simp only [first, outlines, Json.depthOfItems, Node.outline, depth_outline, Json.depthOfFields,
      ih]

end Block

namespace Program

variable {limits : Limits} {pos : Position} {b b' : Block Node}

theorem loggable_iff_of_permuted (permuted : b.Permuted b') :
    Loggable limits ⟨pos, b⟩ ↔ Loggable limits ⟨pos, b'⟩ := by
  simp only [Loggable, node, Node.outline, depth_outline, Json.depthOfFields, permuted.depth_eq]

theorem matched_run (outer : WellFormed.Outer b.body) (permuted : b.Permuted b') (limits : Limits)
    (debug : Bool) (pos : Position) (input : Input) :
    Matched Block.Reordered (Program.run limits debug ⟨pos, b⟩ { input })
      (Program.run limits debug ⟨pos, b'⟩ { input }) := by
  have start : Machine.Matches Block.Reordered { input } { input } := ⟨.nil, rfl, rfl⟩
  by_cases logged : debug = true → Loggable limits ⟨pos, b⟩
  · have logged' : debug = true → Loggable limits ⟨pos, b'⟩ :=
      fun debugs => (loggable_iff_of_permuted permuted).1 (logged debugs)
    have short : (Machine.scopes { input }).length ≤ 1 := Nat.zero_le 1
    rw [run_of_short short logged, run_of_short short logged']
    have nodes := Block.nodesMatch limits.rounds limits.nesting
    refine matched_onExhaustion _ ?_
    cases debug with
    | false => exact Block.Reordered.matched_body nodes (.permuted outer permuted) start
    | true =>
      exact Block.Reordered.matched_body nodes (.permuted outer permuted) (start.record _ _)
  · obtain ⟨rfl, deep⟩ := Classical.not_imp.1 logged
    rw [run_unlogged deep, run_unlogged fun shallow =>
      deep ((loggable_iff_of_permuted permuted).2 shallow)]
    exact .error start

end Program

/-- The order of procedures does not matter. If the procedures of a block of a text in which no name
is declared twice change places, a run on a fresh machine gives the same output, takes the same
input, fails in the same way if it fails, and leaves scopes with the same variables and the same
names of procedures. -/
theorem procedure_order_does_not_matter {step : Step} {pos : Position} {b b' : Block Node}
    (accepted : step.read = .ok ⟨pos, b⟩) (permuted : b.Permuted b') (limits : Limits)
    (debug : Bool) (input : Input) :
    let result := Program.run limits debug ⟨pos, b⟩ { input }
    let result' := Program.run limits debug ⟨pos, b'⟩ { input }
    (machineOf result).output = (machineOf result').output ∧
      (machineOf result).input = (machineOf result').input ∧
      failureOf result = failureOf result' ∧
      List.Forall₂ (fun s s' => s.variableTable = s'.variableTable ∧
          (s.procedureTable.map (·.1)).Perm (s'.procedureTable.map (·.1)))
        (machineOf result).scopes (machineOf result').scopes := by
  intro result result'
  have same : Matched Block.Reordered result result' :=
    Program.matched_run (Step.outer_of_read accepted) permuted limits debug pos input
  have observed {m m' : Machine} (like : m.Matches Block.Reordered m') :
      List.Forall₂ (fun s s' => s.variableTable = s'.variableTable ∧
        (s.procedureTable.map (·.1)).Perm (s'.procedureTable.map (·.1))) m.scopes m'.scopes :=
    like.scopes.imp fun _ _ scope => ⟨scope.vars, scope.names⟩
  generalize result = r at same
  generalize result' = r' at same
  cases same with
  | ok like => exact ⟨like.output, like.input, rfl, observed like⟩
  | error like => exact ⟨like.output, like.input, rfl, observed like⟩

theorem procedure_order_does_not_matter_mutual :
    let step := Step.program "var n;
      procedure shows; begin ! n; call counts end;
      procedure counts; begin n := n - 1; if n > 0 then call shows; ! 1 / n end;
      begin n := 2; call shows end."
    ∃ (pos : Position) (b : Block Node) (g p q s e : Node), b.body = [g, p, q, s, e] ∧
      step.read = .ok ⟨pos, b⟩ ∧ b.Permuted ⟨b.pos, [g, q, p, s, e]⟩ ∧
      let result := Program.run {} true ⟨pos, b.pos, [g, q, p, s, e]⟩ {}
      (machineOf result).output = "2\n1\n" ∧
        failureOf result = some (.report ⟨.divideByZero, 3, 75⟩) := by
  intro step
  have checked : (step.read.toOption.any fun program =>
      let result := program.run {} true {}
      program.body.body.length == 5 && decide program.body.declared.Nodup &&
        program.body.body[1]?.any Node.isProcedure && program.body.body[2]?.any Node.isProcedure &&
        (machineOf result).output == "2\n1\n" &&
        failureOf result == some (.report ⟨.divideByZero, 3, 75⟩)) = true := by decide +kernel
  cases accepted : step.read with
  | error f =>
    rw [accepted] at checked
    cases checked
  | ok program =>
    obtain ⟨pos, start, nodes⟩ := program
    rw [accepted] at checked
    simp only [Except.toOption, Option.any_some, Bool.and_eq_true, decide_eq_true_eq,
      beq_iff_eq] at checked
    obtain ⟨⟨⟨⟨⟨five, nodup⟩, first⟩, second⟩, printed⟩, failed⟩ := checked
    rcases nodes with _ | ⟨g, _ | ⟨p, _ | ⟨q, _ | ⟨s, _ | ⟨e, _ | ⟨_, _⟩⟩⟩⟩⟩⟩
    all_goals simp only [List.length_nil, List.length_cons, Nat.reduceAdd, Nat.reduceEqDiff,
      reduceCtorEq] at five
    have permuted : Block.Permuted ⟨start, [g, p, q, s, e]⟩ ⟨start, [g, q, p, s, e]⟩ :=
      .here nodup ⟨.cons g (.swap q p _), .cons (.inl rfl) (.cons (.inr ⟨first, second⟩)
        (.cons (.inr ⟨second, first⟩) (.cons (.inl rfl) (.cons (.inl rfl) .nil))))⟩
    obtain ⟨output, _, failure, _⟩ := procedure_order_does_not_matter accepted permuted {} true {}
    exact ⟨pos, _, g, p, q, s, e, rfl, rfl, permuted, output ▸ printed, failure ▸ failed⟩

end PlZero
