import PlZero.Proofs.SessionMoments

set_option autoImplicit false

namespace PlZero

open WellFormed Exec

def Shows (m : Machine) (as : List Moment) (m' : Machine) : Prop :=
  m' = m ∨ ∃ a ∈ as, a.machine = m'

variable {α : Type} {texts : List Step} {rounds n k i : Nat} {node node' : Node}
  {m m' m'' : Machine} {as bs : List Moment} {run : α → Exec Unit}
  {each : α → Machine → List Moment}

theorem Shows.of_subset (shows : Shows m as m') (subset : as ⊆ bs) : Shows m bs m' :=
  shows.imp_right fun ⟨a, mem, same⟩ => ⟨a, subset mem, same⟩

theorem Shows.trans (first : Shows m as m') (second : Shows m' as m'') : Shows m as m'' := by
  rcases second with rfl | later
  · exact first
  · exact .inr later

theorem Shows.cons {a : Moment} (shows : Shows a.machine as m') : Shows m (a :: as) m' := by
  rcases shows with rfl | ⟨b, mem, same⟩
  · exact .inr ⟨a, List.mem_cons_self, rfl⟩
  · exact .inr ⟨b, List.mem_cons_of_mem _ mem, same⟩

theorem Follows.shows (follows : Follows texts m as m') : Shows m as m' := by
  induction follows with
  | done => exact .inl rfl
  | next _ _ ih => exact ih.cons

theorem momentsOfAll_append {before rest : List α} (completed : before.forM run m = .ok () m') :
    momentsOfAll run each (before ++ rest) m =
      momentsOfAll run each before m ++ momentsOfAll run each rest m' := by
  induction before generalizing m with
  | nil =>
    cases completed
    rfl
  | cons a before ih =>
    change (run a >>= fun _ => before.forM run) m = _ at completed
    simp only [Bind.bind, EStateM.bind] at completed
    simp only [List.cons_append, momentsOfAll, momentsThen]
    cases result : run a m with
    | error => rw [result] at completed; cases completed
    | ok _ m₁ =>
      rw [result] at completed
      simp only [ih completed, List.append_assoc]

theorem Exec.Passes.shows {items : List α} {a : α} (passes : Passes run items m a m')
    (traces : ∀ a ∈ items, Traces texts (run a) (each a)) (sound : m.scopes.Sound texts) :
    m'.scopes.Sound texts ∧ Shows m (momentsOfAll run each items m) m' ∧
      each a m' ⊆ momentsOfAll run each items m := by
  obtain ⟨before, after, rfl, completed⟩ := passes
  have earlier := traces_all (fun b mem => traces b (List.mem_append_left _ mem)) m sound
  rw [completed] at earlier
  rw [momentsOfAll_append completed]
  refine ⟨earlier.sound sound, earlier.shows.of_subset ?_, fun b mem => ?_⟩
  · exact List.subset_append_left _ _
  · exact List.mem_append_right _ (List.mem_append_left _ mem)

theorem Exec.Rounds.shows {test : Exec Bool} {body : Exec Unit} {inside : Machine → List Moment}
    (passed : Rounds test body i m m') (less : i < rounds) (tests : ∀ m, machineOf (test m) = m)
    (bodies : Traces texts body inside) (sound : m.scopes.Sound texts) :
    m'.scopes.Sound texts ∧ Shows m (momentsOfRounds test body inside rounds m) m' ∧
      ∀ m'', test m' = .ok true m'' →
        inside m'' ⊆ momentsOfRounds test body inside rounds m := by
  induction passed generalizing rounds with
  | none =>
    refine ⟨sound, .inl rfl, fun m'' tested => ?_⟩
    obtain ⟨rounds, rfl⟩ := Nat.exists_eq_succ_of_ne_zero (Nat.ne_of_gt less)
    simp only [momentsOfRounds, momentsIf, momentsThen, tested]
    exact List.subset_append_left _ _
  | @more i m m₁ m₂ m' tested done _ ih =>
    obtain ⟨rounds, rfl⟩ := Nat.exists_eq_succ_of_ne_zero (Nat.ne_of_gt (Nat.zero_lt_of_lt less))
    have stays := tests m
    rw [tested] at stays
    obtain rfl : m₁ = m := stays
    have first := bodies m₁ sound
    rw [done] at first
    obtain ⟨sound', shown, inner⟩ := ih (Nat.lt_of_succ_lt_succ less) (first.sound sound)
    have later : momentsOfRounds test body inside rounds m₂ ⊆
        momentsOfRounds test body inside (rounds + 1) m₁ := by
      simp only [momentsOfRounds, momentsIf, momentsThen, tested, done]
      exact List.subset_append_right _ _
    have earlier : inside m₁ ⊆ momentsOfRounds test body inside (rounds + 1) m₁ := by
      simp only [momentsOfRounds, momentsIf, momentsThen, tested, done]
      exact List.subset_append_left _ _
    refine ⟨sound', ?_, fun m'' goesOn => List.Subset.trans (inner m'' goesOn) later⟩
    exact (first.shows.of_subset earlier).trans (shown.of_subset later)

theorem WellFormed.Item.statement_of {node : Node} (item : Item node)
    (declaresNothing : ¬ node.Declares) : Statement Lexicon node := by
  cases item with
  | constants | vars => exact absurd .declarations declaresNothing
  | procedure formed => exact absurd formed.declares declaresNothing
  | statement formed => exact formed

theorem Running.shows (running : Running rounds n node m k node' m') :
    Item node → node.IsOf texts → m.scopes.Sound texts →
      Shows m (moments rounds n node m) m' := by
  induction running with
  | here => exact fun _ _ _ => .inl rfl
  | @item n k pos body inner node m m₁ m' passes _ ih =>
    intro item of sound
    cases item.statement_of (by rintro ⟨⟩) with
    | sequence formed =>
      have traces (inner : Node) (mem : inner ∈ body) :=
        items_trace texts rounds (n + 1) (.statement (formed inner mem)) (of.child mem)
      obtain ⟨sound', shown, inside⟩ := passes.shows traces sound
      have rest := ih (.statement (formed inner passes.mem)) (of.child passes.mem) sound'
      rw [moments]
      exact shown.trans (rest.of_subset inside)
  | @chosen n k pos c inner node m m₁ m' tested _ ih =>
    intro item of sound
    cases item.statement_of (by rintro ⟨⟩) with
    | conditional _ formed =>
      obtain rfl := test_ok tested
      rw [moments, momentsIf, tested]
      exact ih (.statement (formed inner rfl)) (of.child (by simp [Node.children])) sound
  | @round n k i pos c inner node m m₁ m₂ m' less passed tested _ ih =>
    intro item of sound
    cases item.statement_of (by rintro ⟨⟩) with
    | loop _ formed =>
      have of' : inner.IsOf texts := of.child (by simp [Node.children])
      have bodies := items_trace texts rounds (n + 1) (.statement (formed inner rfl)) of'
      obtain ⟨sound', shown, inside⟩ := passed.shows less (machineOf_test (n + 1) c) bodies sound
      have within := inside m₂ tested
      obtain rfl := test_ok tested
      have rest := ih (.statement (formed inner rfl)) of' sound'
      rw [moments]
      exact shown.trans (rest.of_subset within)
  | @called n k pos target p inner node m m₁ m' found passes _ ih =>
    intro item of sound
    obtain ⟨formed, of⟩ := sound.known found
    have inside (inner : Node) (mem : inner ∈ p.body.body) : inner.IsOf texts :=
      (of.child (List.mem_singleton.2 rfl)).child mem
    have traces (inner : Node) (mem : inner ∈ p.body.body) :=
      items_trace texts rounds n (formed.items inner mem) (inside inner mem)
    have start : Stack.Sound texts (m.record (.call target.name)).push.scopes :=
      Stack.sound_cons.2 ⟨Scope.sound_empty, sound⟩
    obtain ⟨sound', shown, within⟩ := passes.shows traces start
    have rest := ih (formed.items inner passes.mem) (inside inner passes.mem) sound'
    rw [moments, found]
    -- The first moment is that at which the scope of the call has been entered.
    exact .cons ((shown.trans (rest.of_subset within)).of_subset (List.subset_append_left _ _))

namespace Program

variable {limits : Limits} {debug : Bool} {p : Program}

theorem Comes.shows (comes : p.Comes limits debug m k node m') (of : p.node.IsOf texts)
    (outer : Outer p.body.body) (sound : m.scopes.Sound texts) :
    Shows m (p.moments limits debug m) m' := by
  obtain ⟨logged, first, m₁, passes, running⟩ := comes
  have begins : m.scopes.Change texts .begun (p.start debug m).scopes := change_start debug p m
  obtain ⟨sound', shown, within⟩ :=
    passes.shows (body_traces limits of outer) (begins.sound sound)
  have inside : first.IsOf texts := (of.child (List.mem_singleton.2 rfl)).child passes.mem
  rw [moments_of_loggable logged]
  refine .cons (shown.trans ?_)
  rcases outer.items first passes.mem with item | ⟨pos, rfl⟩
  · exact (running.shows item inside sound').of_subset within
  · exact .inl running.eq_of_exitMarker

end Program

theorem Session.momentsAfter_append (limits : Limits) (debug : Bool) (steps later : List Step)
    (m : Machine) :
    momentsAfter limits debug (steps ++ later) m =
      momentsAfter limits debug steps m ++
        momentsAfter limits debug later (afterSteps limits debug steps m) := by
  induction steps generalizing m with
  | nil => rfl
  | cons step steps ih =>
    simp only [List.cons_append, momentsAfter, ih, List.append_assoc]
    rfl

theorem Session.shows_of_comes {limits : Limits} {debug : Bool} {steps later : List Step}
    {step : Step} {p : Program} (resting : m.Resting) (sound : m.scopes.Sound texts)
    (some : steps ++ step :: later ⊆ texts) (accepted : step.read = .ok p)
    (comes : p.Comes limits debug (afterSteps limits debug steps m) k node m') :
    Shows m (momentsAfter limits debug (steps ++ step :: later) m) m' := by
  obtain ⟨before, after⟩ := List.append_subset.1 some
  have earlier := follows_afterSteps limits debug before resting sound
  have mem : step ∈ texts := after List.mem_cons_self
  have inside := comes.shows ⟨step, mem, p, accepted, .refl⟩ (Step.outer_of_read accepted)
    (earlier.sound sound)
  have within : p.moments limits debug (afterSteps limits debug steps m) ⊆
      momentsAfter limits debug (step :: later) (afterSteps limits debug steps m) := by
    unfold momentsAfter Step.moments
    rw [accepted]
    exact fun a mem => List.mem_append_left _ (List.mem_append_left _ mem)
  rw [momentsAfter_append]
  refine (earlier.shows.of_subset (List.subset_append_left _ _)).trans ?_
  exact inside.of_subset (List.Subset.trans within (List.subset_append_right _ _))

end PlZero
