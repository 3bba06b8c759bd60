import PlZero.Proofs.RunFaults

set_option autoImplicit false

namespace PlZero

namespace Exec

variable {α β : Type} {f : Stop} {m m' : Machine}

def Stops (f : Stop) (x : Exec α) (m : Machine) : Prop := ∃ m', x m = .error f m'

theorem Stops.bind {x : Exec α} (stops : x.Stops f m) (g : α → Exec β) : (x >>= g).Stops f m := by
  obtain ⟨m', failed⟩ := stops
  exact ⟨m', by simp only [Bind.bind, EStateM.bind, failed]⟩

theorem Stops.after {x : Exec α} {g : α → Exec β} {a : α} (completed : x m = .ok a m')
    (stops : (g a).Stops f m') : (x >>= g).Stops f m := by
  obtain ⟨m'', failed⟩ := stops
  exact ⟨m'', by simp only [Bind.bind, EStateM.bind, completed, failed]⟩

theorem Stops.locating {x : Exec α} (stops : x.Stops f m) (q : Position) :
    (locating q x).Stops (f.locate q) m := by
  obtain ⟨m', failed⟩ := stops
  exact ⟨m', by simp only [Exec.locating, failed]⟩

theorem Stops.placed {x : Exec α} {cause : Fault} (stops : x.Stops (.ofCause cause) m)
    (q : Position) : (Exec.locating q x).Stops (.ofCauseAt q cause) m :=
  stops.locating q

theorem Stops.ensuring {x : Exec α} (stops : x.Stops f m) (finish : Machine → Machine) :
    (ensuring finish x).Stops f m := by
  obtain ⟨m', failed⟩ := stops
  exact ⟨finish m', by simp only [Exec.ensuring, failed]⟩

theorem Stops.onExhaustion {x : Exec α} {r : Report Fault} (stops : x.Stops (.report r) m)
    (g : Stop) : (onExhaustion g x).Stops (.report r) m := by
  obtain ⟨m', failed⟩ := stops
  exact ⟨m', by simp only [Exec.onExhaustion, failed]⟩

theorem Stops.ofExcept {x : Except Stop α} (failed : x = .error f) : (ofExcept x).Stops f m :=
  ⟨m, failed ▸ rfl⟩

theorem Passes.stops {run : α → Exec Unit} {as : List α} {a : α} (passes : Passes run as m a m')
    (stops : (run a).Stops f m') : (as.forM run).Stops f m := by
  obtain ⟨before, after, rfl, completed⟩ := passes
  rw [List.forM_eq_forM, List.forM_append, List.forM_cons]
  exact .after completed (stops.bind _)

theorem Rounds.repeatWhile_eq {test : Exec Bool} {body : Exec Unit} {i : Nat}
    (passed : Rounds test body i m m') (rounds : Nat) :
    repeatWhile test body (rounds + i) m = repeatWhile test body rounds m' := by
  induction passed with
  | none => rfl
  | more goesOn runs _ ih =>
    rw [← ih, ← Nat.add_assoc, repeatWhile]
    simp only [Bind.bind, EStateM.bind, goesOn, if_true, runs]

-- The round that a loop has come to is one of those it may take.
theorem Rounds.stops {test : Exec Bool} {body : Exec Unit} {i rounds : Nat}
    (passed : Rounds test body i m m') (less : i < rounds)
    (stops : ∀ k, (repeatWhile test body (k + 1)).Stops f m') :
    (repeatWhile test body rounds).Stops f m := by
  obtain ⟨k, rfl⟩ := Nat.exists_eq_add_of_lt less
  have same := passed.repeatWhile_eq (k + 1)
  obtain ⟨m'', failed⟩ := stops k
  refine ⟨m'', ?_⟩
  rw [← failed, ← same]
  congr 1
  omega

theorem result_stops {n : Nat} {e : Node} (failed : evaluate m.scopes n e = .error f) :
    (result n e).Stops f m :=
  Stops.ofExcept (m := m) failed

theorem result_run {n : Nat} {e : Node} {r : Result} (evaluated : evaluate m.scopes n e = .ok r) :
    result n e m = .ok r m := by
  change ofExcept (evaluate m.scopes n e) m = _
  rw [evaluated]
  rfl

theorem value_stops {n : Nat} {e : Node} (failed : evaluate m.scopes n e = .error f) :
    (value n e).Stops f m :=
  (result_stops failed).bind _

theorem value_run {n : Nat} {e : Node} {v : Value}
    (evaluated : evaluate m.scopes n e = .ok (.value v)) : value n e m = .ok v m := by
  simp only [value, Bind.bind, EStateM.bind, result_run evaluated]
  rfl

theorem test_stops {n : Nat} {c : Condition Node}
    (failed : evaluate m.scopes (n + 2) (.condition c) = .error f) :
    (test (n + 1) c).Stops f m := by
  rw [evaluate] at failed
  refine Stops.ofExcept (m := m) (x := holds m.scopes (n + 1) c) ?_
  cases tested : holds m.scopes (n + 1) c with
  | ok => rw [tested] at failed; cases failed
  | error g =>
    rw [tested] at failed
    cases failed
    rfl

theorem call_stops {run : Node → Exec Unit} {name : String} {p : Procedure}
    (found : m.scopes.findProcedure name = some p)
    (stops : (onExhaustion (.ofCause (.tooManyCalls name)) (block run true p.body)).Stops f
      (m.record (.call name))) : (call run name).Stops f m := by
  obtain ⟨m', failed⟩ := stops
  exact ⟨m', (call_run found).trans failed⟩

end Exec

open Exec

section Placed

variable {rounds n k : Nat} {node e blamed : Node} {m m' : Machine} {st : Stack} {cause : Fault}
  {p : Position} (line : 0 < p.line)

include line

theorem Exec.Stops.kept {α : Type} {x : Exec α} (stops : x.Stops (.ofCauseAt p cause) m)
    (q : Position) : (Exec.locating q x).Stops (.ofCauseAt p cause) m := by
  have located := stops.locating q
  rwa [Failure.locate_ofCauseAt line] at located

theorem Evaluates.stops (evaluates : Evaluates rounds n node m k e st)
    (failed : evaluate st k e = .error (.ofCauseAt p cause)) :
    (execute rounds n node).Stops (.ofCauseAt p cause) m := by
  cases evaluates with
  | assigned =>
    unfold execute
    exact .kept line ((result_stops failed).bind _) _
  | printed =>
    unfold execute
    exact .kept line ((value_stops failed).bind _) _
  | chosen =>
    unfold execute
    exact .kept line ((test_stops failed).bind _) _
  | repeated less passed =>
    unfold execute
    exact .kept line (passed.stops less fun _ => (test_stops failed).bind _) _
  | @declared n _ _ d l _ _ passes constant value =>
    unfold execute
    refine .kept line (passes.stops ?_) _
    unfold declare
    rw [constant, value]
    exact .kept line ((value_stops failed).bind _) _

theorem Running.stops {node' : Node} (running : Running rounds n node m k node' m')
    (stops : (execute rounds k node').Stops (.ofCauseAt p cause) m') :
    (execute rounds n node).Stops (.ofCauseAt p cause) m := by
  induction running with
  | here => exact stops
  | item passes _ ih =>
    unfold execute
    exact .kept line (passes.stops (ih stops)) _
  | chosen holds _ ih =>
    unfold execute
    exact .kept line (.after holds (ih stops)) _
  | round less passed holds _ ih =>
    unfold execute
    exact .kept line (passed.stops less fun _ => .after holds ((ih stops).bind _)) _
  | @called n k pos target q inner node m m₁ m' found passes _ ih =>
    unfold execute
    have inside : (block (execute rounds n) true q.body).Stops (.ofCauseAt p cause)
        (m.record (.call target.name)) := (passes.stops (ih stops)).ensuring Machine.pop
    exact .kept line (call_stops found (inside.onExhaustion _)) _

end Placed

theorem Stack.ne_nil_of_findVariable {st : Stack} {name : String} {v : Variable}
    (found : st.findVariable name = some v) : st ≠ [] := by
  rintro rfl
  cases found

theorem Stack.Refuses.assign_eq {st : Stack} {name : String} {cause : Fault}
    (refuses : st.Refuses name cause) (d : Datum) : st.assign name d = fail cause := by
  induction st with
  | nil =>
    cases refuses with
    | unknown => rfl
    | constant found => cases found
  | cons s st ih =>
    rw [assign]
    cases found : s.findVariable name with
    | some v =>
      cases refuses with
      | unknown absent =>
        rw [findVariable_of_inner found] at absent
        cases absent
      | constant found' constant =>
        rw [findVariable_of_inner found] at found'
        cases found'
        simp only [Variable.assign, constant, if_true]
        rfl
    | none =>
      have outside : Stack.Refuses st name cause := by
        cases refuses with
        | unknown absent => exact .unknown (findVariable_of_outer found ▸ absent)
        | constant found' constant =>
          exact .constant (findVariable_of_outer found ▸ found') constant
      dsimp only
      rw [ih outside]
      rfl

namespace Exec

variable {m : Machine} {name : String} {cause : Fault}

theorem assign_stops {d : Datum} (some : m.scopes ≠ []) (refuses : m.scopes.Refuses name cause) :
    (assign name d).Stops (.ofCause cause) m := by
  refine ⟨m, ?_⟩
  unfold assign
  simp only [Bind.bind, EStateM.bind, activeScopes_run some, refuses.assign_eq]
  rfl

theorem onInnermost_stops {change : Scope → Except Stop Scope} {s : Scope} {st : Stack} {f : Stop}
    (scopes : m.scopes = s :: st) (failed : change s = .error f) :
    (onInnermost change).Stops f m := by
  refine ⟨m, ?_⟩
  unfold onInnermost
  rw [scopes]
  dsimp only
  rw [failed]

theorem redeclared_stops {d : Datum} {isConstant : Bool} {s : Scope} {st : Stack}
    (scopes : m.scopes = s :: st) (again : s.declares name = true) :
    (onInnermost (·.declareVariable name d isConstant)).Stops (.ofCause (.redeclared name)) m :=
  onInnermost_stops scopes (if_pos again)

theorem input_unknown (some : m.scopes ≠ []) (absent : m.scopes.findVariable name = none) :
    (input name).Stops (.ofCause (.variableNotFound name)) m := by
  refine ⟨m, ?_⟩
  unfold input
  simp only [Bind.bind, EStateM.bind, activeScopes_run some, absent]
  rfl

theorem readDatum_scopes {d : Datum} {m' : Machine} (read : readDatum m = .ok d m') :
    m'.scopes = m.scopes := by
  obtain ⟨m'', scopes, ⟨d', w, read', _⟩ | read'⟩ := readDatum_cases m
  · rw [read'] at read
    cases read
    exact scopes
  · rw [read'] at read
    cases read

theorem input_constant {d : Datum} {m' : Machine} {v : Variable} (read : readDatum m = .ok d m')
    (found : m.scopes.findVariable name = some v) (constant : v.isConstant = true) :
    (input name).Stops (.ofCause .reassignedConstant) m := by
  have some := Stack.ne_nil_of_findVariable found
  have scopes := readDatum_scopes read
  have refuses : m'.scopes.Refuses name .reassignedConstant := by
    rw [scopes]
    exact .constant found constant
  obtain ⟨m'', failed⟩ := assign_stops (d := d) (scopes ▸ some) refuses
  refine ⟨m'', ?_⟩
  unfold input
  simp only [Bind.bind, EStateM.bind, activeScopes_run some, found, read, failed]

theorem call_unknown {run : Node → Exec Unit} (some : m.scopes ≠ [])
    (absent : m.scopes.findProcedure name = none) :
    (call run name).Stops (.ofCause (.procedureNotFound name)) m := by
  refine ⟨m, ?_⟩
  unfold call
  simp only [Bind.bind, EStateM.bind, activeScopes_run some, absent]
  rfl

theorem onExhaustion_stops {α : Type} {x : Exec α} {m' : Machine}
    (deep : x m = .error (.breakdown .exhausted) m') (f : Stop) : (onExhaustion f x).Stops f m :=
  ⟨m', by simp only [onExhaustion, deep]⟩

end Exec

theorem Blames.stops {rounds n : Nat} {node blamed : Node} {m : Machine} {cause : Fault}
    (blames : Blames rounds n node m cause blamed) (line : 0 < blamed.pos.line) :
    (execute rounds n node).Stops (.ofCauseAt blamed.pos cause) m := by
  cases blames with
  | expression evaluates faults => exact evaluates.stops line (faults.evaluate_eq line)
  | unknownTarget evaluated some absent =>
    unfold execute
    refine .placed (.after (result_run evaluated) ?_) _
    exact assign_stops some (.unknown absent)
  | constantTarget evaluated found constant =>
    unfold execute
    refine .placed (.after (result_run evaluated) ?_) _
    exact assign_stops (Stack.ne_nil_of_findVariable found) (.constant found constant)
  | unknownInput some absent =>
    unfold execute
    exact .placed (input_unknown some absent) _
  | constantInput read found constant =>
    unfold execute
    exact .placed (input_constant read found constant) _
  | unknownProcedure some absent =>
    unfold execute
    exact .placed (call_unknown some absent) _
  | tooDeep found deep =>
    unfold execute
    exact .placed (call_stops found (onExhaustion_stops deep _)) _
  | constantAgain passes constant value evaluated scopes again =>
    unfold execute
    refine .kept line (passes.stops ?_) _
    unfold declare
    rw [constant, value]
    refine .placed (.after (value_run evaluated) ?_) _
    exact redeclared_stops scopes again
  | variableAgain passes plain scopes again =>
    unfold execute
    refine .kept line (passes.stops ?_) _
    unfold declare
    rw [plain]
    exact .placed (redeclared_stops scopes again) _
  | procedureAgain scopes again =>
    unfold execute
    refine .placed (onInnermost_stops scopes ?_) _
    exact if_pos again

end PlZero
