import Mathlib.Data.List.Chain
import PlZero.Proofs.CompleteMoments

set_option autoImplicit false

namespace PlZero

namespace Moment

def constant (a : Moment) (depth : Nat) (name : String) : Option Value :=
  a.machine.scopes.constantAt depth name

def Before (texts : List Step) (a b : Moment) : Prop :=
  a.machine.scopes.Change texts b.deed b.machine.scopes

def Declares (texts : List Step) (a : Moment) (depth : Nat) (name : String) (v : Value) : Prop :=
  Stack.Declares texts a.machine.scopes a.deed depth name v

end Moment

namespace Follows

variable {texts : List Step} {m m' : Machine} {as : List Moment}

theorem isChain (follows : Follows texts m as m') :
    ∀ deed, List.IsChain (Moment.Before texts) (⟨deed, m⟩ :: as) := by
  induction follows with
  | done => exact fun _ => .singleton _
  | @next m m' a as change _ ih => exact fun _ => .cons_cons change (ih a.deed)

theorem getLast_machine (follows : Follows texts m as m') :
    ∀ deed, ((⟨deed, m⟩ :: as : List Moment).getLast?).map Moment.machine = some m' := by
  induction follows with
  | done => exact fun _ => rfl
  | @next m m' a as _ _ ih =>
    intro deed
    rw [List.getLast?_cons_cons]
    exact ih a.deed

theorem sound_of_mem (follows : Follows texts m as m') (sound : m.scopes.Sound texts) :
    ∀ a ∈ as, a.machine.scopes.Sound texts := by
  induction follows with
  | done => exact List.forall_mem_nil _
  | next change _ ih =>
    exact List.forall_mem_cons.2 ⟨change.sound sound, ih (change.sound sound)⟩

theorem exists_change (follows : Follows texts m as m') {a : Moment} (mem : a ∈ as) :
    ∃ st, Stack.Change texts a.deed st a.machine.scopes := by
  induction follows with
  | done => cases mem
  | next change _ ih =>
    rcases List.mem_cons.1 mem with rfl | mem
    · exact ⟨_, change⟩
    · exact ih mem

end Follows

section Constants

variable {texts : List Step} {depth : Nat} {name : String} {v : Value}

theorem constant_kept {a : Moment} {since : List Moment}
    (chain : List.IsChain (Moment.Before texts) (a :: since))
    (found : a.constant depth name = some v)
    (active : ∀ b ∈ since, depth < b.machine.scopes.length) :
    ∀ b ∈ since, b.constant depth name = some v := by
  induction since generalizing a with
  | nil => exact List.forall_mem_nil _
  | cons b since ih =>
    obtain ⟨before, rest⟩ := List.isChain_cons_cons.1 chain
    obtain ⟨here, later⟩ := List.forall_mem_cons.1 active
    have kept : b.constant depth name = some v := before.constantAt_kept here found
    exact List.forall_mem_cons.2 ⟨kept, ih rest kept later⟩

-- By induction from the last moment back, to the one that has declared the constant.
theorem constant_origin {first : Moment} (none : first.machine.scopes = [])
    (past : List Moment) : ∀ b, List.IsChain (Moment.Before texts) (past ++ [b]) →
      (past ++ [b]).head? = some first → b.constant depth name = some v →
      ∃ a since, a :: since <:+ past ++ [b] ∧ a.Declares texts depth name v ∧
        ∀ c ∈ a :: since, c.constant depth name = some v := by
  induction past using List.reverseRecOn with
  | nil =>
    rintro b _ ⟨⟩ found
    rw [Moment.constant, none] at found
    cases found
  | append_singleton past a ih =>
    intro b chain head found
    have before : a.Before texts b := by
      rw [List.append_assoc] at chain
      exact (List.isChain_cons_cons.1 chain.right_of_append).1
    rcases before.constantAt_origin found with earlier | declares
    · have head : (past ++ [a]).head? = some first := by
        rw [← head]
        simp
      obtain ⟨origin, since, ⟨rest, whole⟩, declares, held⟩ :=
        ih a chain.left_of_append head earlier
      refine ⟨origin, since ++ [b], ⟨rest, by rw [← whole]; simp⟩, declares, ?_⟩
      rw [← List.cons_append]
      exact List.forall_mem_append.2 ⟨held, List.forall_mem_singleton.2 found⟩
    · exact ⟨b, [], List.suffix_append _ _, declares, List.forall_mem_singleton.2 found⟩

end Constants

/-- At every moment of every session the scopes are coherent. A constant that has been declared
holds what its literal denotes, and keeps it as long as its scope is active; and every constant that
there is was declared in its scope, by a declaration of a text of the session, and was held ever
since. The moments are all there are: they end with the machine that the session leaves, each comes
from the one before it by one deed, and every machine that a run comes to is there at one of
them. -/
theorem sessions_stay_coherent (limits : Limits) (debug : Bool) (input : Input)
    (steps : List Step) :
    let moments := Session.moments limits debug steps input
    (∀ a ∈ moments, ∀ s ∈ a.machine.scopes, s.Coherent) ∧
    (∀ a ∈ moments, ∀ d, a.deed = .declared d → d.isConstant = true →
      ∃ v, a.Declares steps a.machine.scopes.depth d.name v ∧
        a.constant a.machine.scopes.depth d.name = some v) ∧
    (∀ a since, a :: since <:+: moments → ∀ depth name v, a.constant depth name = some v →
      (∀ b ∈ since, depth < b.machine.scopes.length) →
      ∀ b ∈ since, b.constant depth name = some v) ∧
    (∀ past b, past ++ [b] <+: moments → ∀ depth name v, b.constant depth name = some v →
      ∃ a since, a :: since <:+ past ++ [b] ∧ a.Declares steps depth name v ∧
        ∀ c ∈ a :: since, c.constant depth name = some v) ∧
    moments.getLast?.map Moment.machine = some (Session.afterSteps limits debug steps { input }) ∧
    moments.IsChain (Moment.Before steps) ∧
    ∀ earlier step later p k node m, steps = earlier ++ step :: later → step.read = .ok p →
      p.Comes limits debug (Session.afterSteps limits debug earlier { input }) k node m →
      ∃ a ∈ moments, a.machine = m := by
  intro moments
  have resting := Machine.resting_new input
  have empty : Stack.Sound steps ({ input } : Machine).scopes := nofun
  have follows := Session.follows_afterSteps limits debug (List.Subset.refl steps) resting empty
  have chain : moments.IsChain (Moment.Before steps) := follows.isChain .opened
  refine ⟨?_, ?_, ?_, ?_, follows.getLast_machine .opened, chain, ?_⟩
  · intro a mem s active
    rcases List.mem_cons.1 mem with rfl | mem
    · cases active
    · exact (follows.sound_of_mem empty a mem s active).coherent
  · intro a mem d deed isConstant
    rcases List.mem_cons.1 mem with rfl | mem
    · cases deed
    · obtain ⟨st, change⟩ := follows.exists_change mem
      unfold Moment.Declares
      rw [deed] at change ⊢
      exact change.constantAt_declared isConstant
  · rintro a since ⟨before, after, whole⟩ depth name v
    rw [← whole] at chain
    exact constant_kept chain.left_of_append.right_of_append
  · rintro past b ⟨after, whole⟩ depth name v
    have head : (past ++ [b]).head? = some (⟨.opened, { input }⟩ : Moment) := by
      have first : moments.head? = some ⟨.opened, { input }⟩ := rfl
      rw [← whole] at first
      cases past <;> exact first
    rw [← whole] at chain
    exact constant_origin rfl past b chain.left_of_append head
  · rintro earlier step later p k node m rfl accepted comes
    rcases Session.shows_of_comes resting empty (List.Subset.refl _) accepted comes with rfl | shown
    · exact ⟨_, List.mem_cons_self, rfl⟩
    · obtain ⟨a, mem, same⟩ := shown
      exact ⟨a, List.mem_cons_of_mem _ mem, same⟩

-- The constant of the root and that of the procedure, before, during and after the call.
example :
    let wrapped : Value := .integer (-2147483648)
    (Session.moments {} false
        [.entry "const c = 2147483648; procedure p; const c = 'in'; begin end; call p"] {}).map
        (fun a => (a.constant 0 "c", a.constant 1 "c")) =
      [(none, none), (none, none), (some wrapped, none), (some wrapped, none),
        (some wrapped, none), (some wrapped, some (.text "in")), (some wrapped, none),
        (some wrapped, none)] := by
  decide +kernel

end PlZero
