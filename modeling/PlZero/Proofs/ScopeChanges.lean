import PlZero.Proofs.FittingValues
import PlZero.Proofs.RunFaults

set_option autoImplicit false

namespace PlZero

/-- What is done between one moment of a session and the next. A declaration that stops has
declared nothing; any other node has been run, whether it has stopped or not. -/
inductive Deed
  | opened
  | begun
  | entered
  | left
  | declared (d : VariableDeclaration)
  | refused (d : VariableDeclaration)
  | ran (node : Node)
  | concluded

def Deed.hasDeclared : Deed → Bool
  | declared _ => true
  | _ => false

namespace Scope

structure Coherent (s : Scope) : Prop where
  apart : ∀ name, s.findVariable name = none ∨ s.findProcedure name = none
  fits : ∀ entry ∈ s.variableTable, entry.2.value.Fits
  valid : ∀ entry ∈ s.variableTable, entry.2.isConstant = true → entry.2.value ≠ .invalid

structure Sound (texts : List Step) (s : Scope) : Prop where
  coherent : s.Coherent
  known : ∀ entry ∈ s.procedureTable, entry.2.Known texts

def constant (s : Scope) (name : String) : Option Value := (s.findVariable name).bind Variable.fixed

def withVariable (s : Scope) (name : String) (v : Variable) : Scope :=
  { s with variableTable := (name, v) :: s.variableTable }

def withProcedure (s : Scope) (p : Procedure) : Scope :=
  { s with procedureTable := (p.name, p) :: s.procedureTable }

variable {texts : List Step} {s s' : Scope} {name other : String} {v w : Variable}

theorem declares_eq_false :
    s.declares name = false ↔ s.findVariable name = none ∧ s.findProcedure name = none := by
  simp [declares]

theorem declareVariable_ok {d : Datum} {isConstant : Bool}
    (declared : s.declareVariable name d isConstant = .ok s') :
    ∃ value, d.toValue = .ok value ∧ s.declares name = false ∧
      s' = s.withVariable name ⟨value, isConstant⟩ := by
  unfold declareVariable at declared
  split at declared
  · cases declared
  · next unused =>
    cases value : d.toValue with
    | error => rw [value] at declared; cases declared
    | ok w =>
      rw [value] at declared
      cases declared
      exact ⟨w, rfl, by simpa using unused, rfl⟩

theorem declareProcedure_ok {p : Procedure} (declared : s.declareProcedure p = .ok s') :
    s.declares p.name = false ∧ s' = s.withProcedure p := by
  unfold declareProcedure at declared
  split at declared
  · cases declared
  · next unused =>
    cases declared
    exact ⟨by simpa using unused, rfl⟩

theorem findVariable_withVariable :
    (s.withVariable name v).findVariable other =
      if other = name then some v else s.findVariable other := by
  by_cases same : other = name
  · simp [withVariable, findVariable, same]
  · simp [withVariable, findVariable, List.lookup_cons, same, beq_false_of_ne same]

theorem findProcedure_withProcedure {p : Procedure} :
    (s.withProcedure p).findProcedure other =
      if other = p.name then some p else s.findProcedure other := by
  by_cases same : other = p.name
  · simp [withProcedure, findProcedure, same]
  · simp [withProcedure, findProcedure, List.lookup_cons, same, beq_false_of_ne same]

theorem findVariable_setVariable (found : s.findVariable name = some v) :
    (s.setVariable name w).findVariable other =
      if other = name then some w else s.findVariable other := by
  unfold findVariable Scope.setVariable at *
  by_cases same : other = name
  · rw [if_pos same, same, lookup_replaceEntry_self found]
  · rw [if_neg same, lookup_replaceEntry_of_ne same]

theorem mem_replaceEntry {α : Type} {a : α} {entry : String × α} {entries : List (String × α)}
    (mem : entry ∈ replaceEntry name a entries) : entry ∈ entries ∨ entry.2 = a := by
  induction entries with
  | nil => cases mem
  | cons first entries ih =>
    obtain ⟨key, b⟩ := first
    unfold replaceEntry at mem
    split at mem
    · rcases List.mem_cons.1 mem with rfl | mem
      · exact .inr rfl
      · exact .inl (List.mem_cons_of_mem _ mem)
    · rcases List.mem_cons.1 mem with rfl | mem
      · exact .inl List.mem_cons_self
      · exact (ih mem).imp_left (List.mem_cons_of_mem _)

theorem sound_empty : Sound texts {} := ⟨⟨fun _ => .inl rfl, nofun, nofun⟩, nofun⟩

theorem Sound.withVariable (sound : s.Sound texts) (unused : s.declares name = false)
    (fits : v.value.Fits) (valid : v.isConstant = true → v.value ≠ .invalid) :
    (s.withVariable name v).Sound texts := by
  obtain ⟨⟨apart, allFit, allValid⟩, known⟩ := sound
  refine ⟨⟨fun other => ?_, ?_, ?_⟩, known⟩
  · rw [findVariable_withVariable]
    split
    · next same => exact .inr (same ▸ (declares_eq_false.1 unused).2)
    · exact apart other
  · exact List.forall_mem_cons.2 ⟨fits, allFit⟩
  · exact List.forall_mem_cons.2 ⟨valid, allValid⟩

theorem Sound.withProcedure {p : Procedure} (sound : s.Sound texts)
    (unused : s.declares p.name = false) (stands : p.Known texts) :
    (s.withProcedure p).Sound texts := by
  obtain ⟨⟨apart, allFit, allValid⟩, known⟩ := sound
  refine ⟨⟨fun other => ?_, allFit, allValid⟩, List.forall_mem_cons.2 ⟨stands, known⟩⟩
  rw [findProcedure_withProcedure]
  split
  · next same => exact .inl (same ▸ (declares_eq_false.1 unused).1)
  · exact apart other

theorem Sound.setVariable (sound : s.Sound texts) (found : s.findVariable name = some v)
    (fits : w.value.Fits) (changes : w.isConstant = false) :
    (s.setVariable name w).Sound texts := by
  obtain ⟨⟨apart, allFit, allValid⟩, known⟩ := sound
  refine ⟨⟨fun other => ?_, fun entry mem => ?_, fun entry mem constant => ?_⟩, known⟩
  · rw [findVariable_setVariable found]
    split
    · next same =>
      have none : ¬ s.findVariable other = none := by simp [same, found]
      exact .inr ((apart other).resolve_left none)
    · exact apart other
  · rcases mem_replaceEntry mem with mem | rfl
    · exact allFit entry mem
    · exact fits
  · rcases mem_replaceEntry mem with mem | rfl
    · exact allValid entry mem constant
    · rw [changes] at constant
      cases constant

theorem constant_withVariable :
    (s.withVariable name v).constant other =
      if other = name then v.fixed else s.constant other := by
  unfold constant
  rw [findVariable_withVariable]
  split <;> rfl

theorem constant_of_unused (unused : s.declares name = false) : s.constant name = none := by
  unfold constant
  rw [(declares_eq_false.1 unused).1]
  rfl

theorem constant_setVariable (found : s.findVariable name = some v) (same : w.fixed = v.fixed) :
    (s.setVariable name w).constant = s.constant := by
  funext other
  unfold constant
  rw [findVariable_setVariable found]
  split
  · next this =>
    rw [this, found]
    exact same
  · rfl

end Scope

namespace Stack

def Sound (texts : List Step) (st : Stack) : Prop := ∀ s ∈ st, s.Sound texts

def constantAt (st : Stack) (depth : Nat) (name : String) : Option Value :=
  st.reverse[depth]?.bind (·.constant name)

/-- What a deed may do to the scopes. Nothing changes where it has stopped, or where it concerns
other parts of the machine. -/
inductive Change (texts : List Step) : Deed → Stack → Stack → Prop
  | same {deed : Deed} {st : Stack} : deed.hasDeclared = false → Change texts deed st st
  | begun : Change texts .begun [] [{}]
  | entered {st : Stack} : Change texts .entered st ({} :: st)
  | left {s : Scope} {st : Stack} : st ≠ [] → Change texts .left (s :: st) st
  | ended {pos : Position} {st : Stack} : Change texts (.ran (.exitMarker pos)) st []
  | constant {d : VariableDeclaration} {l : Literal} {v : Value} {s : Scope} {st : Stack} :
      (Node.declaration d).IsOf texts → d.isConstant = true → d.value = some l → l.Denotes v →
      s.declares d.name = false →
      Change texts (.declared d) (s :: st) (s.withVariable d.name ⟨v, true⟩ :: st)
  | unset {d : VariableDeclaration} {s : Scope} {st : Stack} : d.isConstant = false →
      s.declares d.name = false →
      Change texts (.declared d) (s :: st) (s.withVariable d.name ⟨.invalid, false⟩ :: st)
  | procedure {p : Procedure} {s : Scope} {st : Stack} : p.Known texts →
      s.declares p.name = false →
      Change texts (.ran (.procedure p.pos p.name p.body)) (s :: st) (s.withProcedure p :: st)
  | assigned {node : Node} {name : String} {inner outer : Stack} {s : Scope} {v : Variable}
      {w : Value} : s.findVariable name = some v → v.isConstant = false → w.Fits →
      Change texts (.ran node) (inner ++ s :: outer)
        (inner ++ s.setVariable name { v with value := w } :: outer)

variable {texts : List Step} {deed : Deed} {st st' : Stack} {s : Scope} {depth : Nat}
  {name : String} {v : Value}

theorem assign_ok {d : Datum} (assigned : st.assign name d = .ok st') :
    ∃ inner s outer v w, st = inner ++ s :: outer ∧ s.findVariable name = some v ∧
      v.isConstant = false ∧ d.toValue = .ok w ∧
      st' = inner ++ s.setVariable name { v with value := w } :: outer := by
  induction st generalizing st' with
  | nil => cases assigned
  | cons s st ih =>
    rw [assign] at assigned
    cases found : s.findVariable name with
    | some v =>
      simp only [found, Variable.assign] at assigned
      split at assigned
      · cases assigned
      · next changes =>
        cases value : d.toValue with
        | error => rw [value] at assigned; cases assigned
        | ok w =>
          rw [value] at assigned
          cases assigned
          exact ⟨[], s, st, v, w, rfl, found, by simpa using changes, rfl, rfl⟩
    | none =>
      simp only [found] at assigned
      cases rest : assign name d st with
      | error => rw [rest] at assigned; cases assigned
      | ok st'' =>
        rw [rest] at assigned
        cases assigned
        obtain ⟨inner, s', outer, v, w, rfl, found, changes, value, rfl⟩ := ih rest
        exact ⟨s :: inner, s', outer, v, w, rfl, found, changes, value, rfl⟩

theorem sound_cons : Sound texts (s :: st) ↔ s.Sound texts ∧ Sound texts st := List.forall_mem_cons

theorem Sound.fits (sound : st.Sound texts) : st.Fits := fun s mem => (sound s mem).coherent.fits

theorem Sound.known {p : Procedure} (sound : st.Sound texts)
    (found : st.findProcedure name = some p) : p.Known texts := by
  obtain ⟨s, mem, here⟩ := List.exists_of_findSome?_eq_some found
  obtain ⟨earlier, later, table, _⟩ := List.lookup_eq_some_iff.1 here
  exact (sound s mem).known (name, p) (by simp [table])

theorem Change.sound (change : st.Change texts deed st') (sound : st.Sound texts) :
    st'.Sound texts := by
  cases change with
  | same => exact sound
  | begun => exact List.forall_mem_singleton.2 Scope.sound_empty
  | entered => exact sound_cons.2 ⟨Scope.sound_empty, sound⟩
  | left => exact (sound_cons.1 sound).2
  | ended => exact List.forall_mem_nil _
  | constant _ _ _ denotes unused =>
    obtain ⟨top, below⟩ := sound_cons.1 sound
    exact sound_cons.2 ⟨top.withVariable unused denotes.fits fun _ => denotes.ne_invalid, below⟩
  | unset _ unused =>
    obtain ⟨top, below⟩ := sound_cons.1 sound
    exact sound_cons.2 ⟨top.withVariable unused trivial nofun, below⟩
  | procedure known unused =>
    obtain ⟨top, below⟩ := sound_cons.1 sound
    exact sound_cons.2 ⟨top.withProcedure unused known, below⟩
  | assigned found changes fits =>
    obtain ⟨inside, here, outside⟩ := List.forall_mem_append.1 sound |>.imp_right sound_cons.1
    refine List.forall_mem_append.2 ⟨inside, sound_cons.2 ⟨?_, outside⟩⟩
    exact here.setVariable found fits changes

theorem constantAt_cons :
    constantAt (s :: st) depth name =
      if depth < st.length then constantAt st depth name
      else if depth = st.length then s.constant name else none := by
  unfold constantAt
  rw [List.reverse_cons]
  by_cases less : depth < st.length
  · rw [if_pos less, List.getElem?_append_left (by simpa using less)]
  · rw [if_neg less, List.getElem?_append_right (by simpa using less), List.length_reverse]
    by_cases top : depth = st.length
    · simp [top]
    · have more : depth - st.length ≠ 0 := by omega
      simp [top, more]

theorem constantAt_congr (same : st'.map Scope.constant = st.map Scope.constant) :
    constantAt st' = constantAt st := by
  funext depth name
  have mapped (st : Stack) : constantAt st depth name =
      (st.map Scope.constant).reverse[depth]?.bind (· name) := by
    rw [← List.map_reverse, List.getElem?_map, Option.bind_map]
    rfl
  rw [mapped, mapped, same]

theorem lt_of_constantAt (found : constantAt st depth name = some v) : depth < st.length := by
  obtain ⟨s, here, _⟩ := Option.bind_eq_some_iff.1 found
  obtain ⟨less, _⟩ := List.getElem?_eq_some_iff.1 here
  simpa using less

theorem constantAt_withVariable {declared : String} {w : Variable} :
    constantAt (s.withVariable declared w :: st) depth name =
      if depth = st.length ∧ name = declared then w.fixed
      else constantAt (s :: st) depth name := by
  rw [constantAt_cons, constantAt_cons, Scope.constant_withVariable]
  by_cases top : depth = st.length
  · simp only [top, Nat.lt_irrefl, if_false, if_true, true_and]
  · simp only [top, if_false, false_and]

theorem constantAt_of_unused (unused : s.declares name = false) :
    constantAt (s :: st) st.length name = none := by
  rw [constantAt_cons, if_neg (Nat.lt_irrefl _), if_pos rfl, Scope.constant_of_unused unused]

theorem constantAt_withProcedure {p : Procedure} :
    constantAt (s.withProcedure p :: st) = constantAt (s :: st) :=
  constantAt_congr rfl

-- The variable that is assigned to is no constant, neither before nor after.
theorem constantAt_setVariable {inner outer : Stack} {u : Variable}
    (found : s.findVariable name = some u) (changes : u.isConstant = false) :
    constantAt (inner ++ s.setVariable name { u with value := v } :: outer) =
      constantAt (inner ++ s :: outer) := by
  apply constantAt_congr
  have same := Scope.constant_setVariable (w := { u with value := v }) found
    (by simp [Variable.fixed, changes])
  simp [same]

-- A name that is declared was not in use before, and so it was no constant.
theorem constantAt_of_declared {declared : String} {w : Variable}
    (unused : s.declares declared = false) (found : constantAt (s :: st) depth name = some v) :
    constantAt (s.withVariable declared w :: st) depth name = some v := by
  rw [constantAt_withVariable]
  split
  · next here =>
    rw [here.1, here.2, constantAt_of_unused unused] at found
    cases found
  · exact found

theorem Change.constantAt_kept (change : st.Change texts deed st') (active : depth < st'.length)
    (found : constantAt st depth name = some v) : constantAt st' depth name = some v := by
  have less := lt_of_constantAt found
  cases change with
  | same => exact found
  | begun => cases less
  | entered => rwa [constantAt_cons, if_pos less]
  | left => rwa [constantAt_cons, if_pos active] at found
  | ended => cases active
  | constant _ _ _ _ unused => exact constantAt_of_declared unused found
  | unset _ unused => exact constantAt_of_declared unused found
  | procedure => rwa [constantAt_withProcedure]
  | assigned found' changes => rwa [constantAt_setVariable found' changes]

/-- A deed that has declared a constant of a text, in the innermost of the scopes, with the value
that its literal denotes. -/
inductive Declares (texts : List Step) (st : Stack) : Deed → Nat → String → Value → Prop
  | mk {d : VariableDeclaration} {l : Literal} {v : Value} : (Node.declaration d).IsOf texts →
      d.isConstant = true → d.value = some l → l.Denotes v →
      Declares texts st (.declared d) st.depth d.name v

theorem Change.constantAt_origin (change : st.Change texts deed st')
    (found : constantAt st' depth name = some v) :
    constantAt st depth name = some v ∨ Declares texts st' deed depth name v := by
  have less := lt_of_constantAt found
  cases change with
  | same => exact .inl found
  | begun =>
    obtain rfl : depth = 0 := by simpa using less
    cases found
  | entered =>
    rw [constantAt_cons] at found
    split at found
    · exact .inl found
    · split at found <;> cases found
  | left =>
    rw [constantAt_cons, if_pos less]
    exact .inl found
  | ended => cases less
  | constant of isConstant value denotes unused =>
    rw [constantAt_withVariable] at found
    split at found
    · next here =>
      obtain ⟨rfl, rfl⟩ := here
      cases found
      exact .inr (.mk of isConstant value denotes)
    · exact .inl found
  | unset =>
    rw [constantAt_withVariable] at found
    split at found
    · cases found
    · exact .inl found
  | procedure =>
    rw [constantAt_withProcedure] at found
    exact .inl found
  | assigned found' changes =>
    rw [constantAt_setVariable found' changes] at found
    exact .inl found

theorem Change.constantAt_declared {d : VariableDeclaration}
    (change : st.Change texts (.declared d) st') (isConstant : d.isConstant = true) :
    ∃ v, Declares texts st' (.declared d) st'.depth d.name v ∧
      constantAt st' st'.depth d.name = some v := by
  cases change with
  | same other => cases other
  | constant of _ value denotes _ =>
    refine ⟨_, .mk of isConstant value denotes, ?_⟩
    rw [constantAt_withVariable]
    exact if_pos ⟨rfl, rfl⟩
  | unset varies =>
    rw [varies] at isConstant
    cases isConstant

end Stack

end PlZero
