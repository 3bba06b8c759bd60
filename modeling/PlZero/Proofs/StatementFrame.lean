import PlZero.Proofs.RunPoints

set_option autoImplicit false

namespace PlZero

namespace Scope

structure Kept (s s' : Scope) : Prop where
  names : s'.variableTable.map Prod.fst = s.variableTable.map Prod.fst
  flags : s'.variableTable.map (·.2.isConstant) = s.variableTable.map (·.2.isConstant)
  constants : ∀ name v, s.findVariable name = some v → v.isConstant = true →
    s'.findVariable name = some v
  procedures : s'.procedureTable = s.procedureTable

theorem map_fixed_findVariable (s : Scope) (name : String) :
    (s.findVariable name).map Variable.fixed = s.signature.lookup name := by
  unfold findVariable signature
  induction s.variableTable with
  | nil => rfl
  | cons entry table ih =>
    rw [List.map_cons, List.lookup_cons, List.lookup_cons]
    cases name == entry.1 with
    | true => rfl
    | false => exact ih

variable {s s' : Scope}

theorem Grown.kept (h : s.Grown [] s') : s.Kept s' := by
  obtain ⟨⟨added, signature, within⟩, ⟨more, procedures, within'⟩⟩ := h
  obtain rfl : added = [] := List.eq_nil_iff_forall_not_mem.2 fun e mem => nomatch within e mem
  obtain rfl : more = [] := List.eq_nil_iff_forall_not_mem.2 fun e mem => nomatch within' e mem
  rw [List.nil_append] at signature procedures
  have isSome (v : Variable) : v.fixed.isSome = v.isConstant := by
    unfold Variable.fixed
    cases v.isConstant <;> rfl
  refine ⟨?_, ?_, ?_, procedures⟩
  · have firsts := congrArg (List.map Prod.fst) signature
    simpa only [Scope.signature, List.map_map, Function.comp_def] using firsts
  · have flags := congrArg (List.map fun entry => entry.2.isSome) signature
    simpa only [Scope.signature, List.map_map, Function.comp_def, isSome] using flags
  · intro name v found constant
    have same := s'.map_fixed_findVariable name
    rw [signature, ← s.map_fixed_findVariable name, found, Option.map_some] at same
    obtain ⟨v', found', fixed⟩ := Option.map_eq_some_iff.1 same
    obtain ⟨value, isConstant⟩ := v
    obtain ⟨value', isConstant'⟩ := v'
    cases constant
    cases isConstant' with
    | false => cases fixed
    | true =>
      cases fixed
      exact found'

end Scope

/-- What reading gives as a statement leaves the scopes of a session as they are, except for the
values of variables, whether it completes or stops. -/
theorem statement_frame {limits : Limits} {debug : Bool} {input : Input} {m : Machine}
    (reached : Session.Reaches limits debug input m) (some : m.scopes ≠ []) {k : Nat}
    {r r' : Reader} {node : Node} (parsed : Grammar.statement k r = .ok (.some node) r')
    (rounds n : Nat) :
    List.Forall₂ Scope.Kept m.scopes (machineOf (execute rounds n node m)).scopes := by
  obtain ⟨u, _, phrase⟩ := ((Grammar.statements_follow k).1 r).exists_of_ok parsed
  have statement := (Phrase.statements_statement k).1 phrase node rfl
  obtain ⟨scopes, _⟩ := statement.keeps rounds n m (reached.active some)
  generalize m.scopes = before, (machineOf (execute rounds n node m)).scopes = after at scopes
  cases scopes with
  | mk top below => exact .cons top.kept (below.imp fun _ _ => Scope.Grown.kept)

-- A procedure with names of its own that assigns to a variable outside and then divides by zero.
theorem statement_frame_call :
    let step := Step.entry
      "const c = 1; var x; procedure p; const c = 2; var y; begin x := c; y := x / 0 end;"
    let m := Session.afterSteps {} false [step] {}
    let call : Node := .call .start ⟨.start, "p"⟩
    (m.scopes.map fun s => s.variableTable.map Prod.fst) = [["x", "c"]] ∧
      (machineOf (execute 10 10 call m)).scopes.findVariable "x" = some ⟨.integer 2, false⟩ ∧
      List.Forall₂ Scope.Kept m.scopes (machineOf (execute 10 10 call m)).scopes := by
  intro step m call
  have names : (m.scopes.map fun s => s.variableTable.map Prod.fst) = [["x", "c"]] := by
    decide +kernel
  have some : m.scopes ≠ [] := by
    intro none
    rw [none] at names
    cases names
  have parsed : Grammar.statement 1 ⟨⟨.callWord, "call", .start⟩,
      ⟨[⟨.name, "p", .start⟩], .ok ⟨.eof, "", .start⟩⟩, 0⟩ =
        .ok (.some call) ⟨⟨.eof, "", .start⟩, ⟨[], .ok ⟨.eof, "", .start⟩⟩, 0⟩ := rfl
  exact ⟨names, by decide +kernel, statement_frame (.between [step]) some parsed 10 10⟩

end PlZero
