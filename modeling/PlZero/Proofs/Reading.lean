import PlZero.Grammar.Reader

set_option autoImplicit false

namespace PlZero

/-- A reader gets to another by reading tokens, none of which is the end token. -/
inductive Reader.Reads : Reader → List Token → Reader → Prop
  | nil {r : Reader} : Reads r [] r
  | cons {r r' r'' : Reader} {u : List Token} : r.current.kind ≠ .eof →
      Rule.advance r = .ok r.current r' → Reads r' u r'' → Reads r (r.current :: u) r''

namespace Reader.Reads

variable {r s t : Reader} {u v : List Token}

theorem append (first : r.Reads u s) (second : s.Reads v t) : r.Reads (u ++ v) t := by
  induction first with
  | nil => exact second
  | cons notEnd step _ ih => exact .cons notEnd step (ih second)

theorem split (h : r.Reads (u ++ v) t) : ∃ s, r.Reads u s ∧ s.Reads v t := by
  induction u generalizing r with
  | nil => exact ⟨r, .nil, h⟩
  | cons token u ih =>
    cases h with
    | cons notEnd step rest =>
      obtain ⟨s, first, second⟩ := ih rest
      exact ⟨s, .cons notEnd step first, second⟩

theorem head {token : Token} (h : r.Reads (token :: u) t) : r.current = token := by
  cases h; rfl

theorem tail {token : Token} (h : r.Reads (token :: u) t) :
    ∃ s, Rule.advance r = .ok token s ∧ r.Reads [token] s ∧ s.Reads u t := by
  cases h with
  | cons notEnd step rest => exact ⟨_, step, .cons notEnd step .nil, rest⟩

theorem current_eq (h : r.Reads u t) : r.current = u.headD t.current := by
  cases h <;> rfl

theorem kind_ne_eof {token : Token} (h : r.Reads u t) (mem : token ∈ u) : token.kind ≠ .eof := by
  induction h with
  | nil => simp at mem
  | cons notEnd _ _ ih =>
    rcases List.mem_cons.1 mem with rfl | mem
    · exact notEnd
    · exact ih mem

end Reader.Reads

theorem Rule.last_advance {r r' : Reader} {t : Token} (h : advance r = .ok t r') :
    r'.feed.last = r.feed.last := by
  unfold advance at h
  split at h <;> simp at h <;> simp_all [← h.2]

namespace Reader

variable {r r' : Reader} {u : List Token}

theorem Reads.depth_eq (h : r.Reads u r') : r'.depth = r.depth := by
  induction h with
  | nil => rfl
  | cons _ step _ ih => rw [ih, Rule.depth_advance step]

theorem Reads.last_eq (h : r.Reads u r') : r'.feed.last = r.feed.last := by
  induction h with
  | nil => rfl
  | cons _ step _ ih => rw [ih, Rule.last_advance step]

theorem advance_withDepth {s : Reader} {t : Token} (h : Rule.advance r = .ok t s) (d : Nat) :
    Rule.advance { r with depth := d } = .ok t { s with depth := d } := by
  unfold Rule.advance at h ⊢
  split at h <;> simp at h <;> obtain ⟨rfl, rfl⟩ := h <;> simp_all

theorem Reads.withDepth (h : r.Reads u r') (d : Nat) :
    Reads { r with depth := d } u { r' with depth := d } := by
  induction h with
  | nil => exact .nil
  | cons notEnd step _ ih => exact .cons notEnd (advance_withDepth step d) ih

end Reader

structure Feed.Proper (f : Feed) : Prop where
  kind_ne_eof : ∀ t ∈ f.tokens, t.kind ≠ .eof
  ends : ∀ e, f.last = .ok e → e.kind = .eof

def Feed.stream (f : Feed) : List Token :=
  f.tokens ++ match f.last with
    | .ok e => [e]
    | .error _ => []

theorem Feed.length_stream_le (f : Feed) : f.stream.length ≤ f.tokens.length + 1 := by
  unfold Feed.stream
  split <;> simp

namespace Reader

variable {r r' : Reader} {u : List Token}

def stream (r : Reader) : List Token :=
  if r.current.kind = .eof then [r.current] else r.current :: r.feed.stream

theorem stream_eq_cons (r : Reader) : ∃ rest, r.stream = r.current :: rest := by
  unfold stream
  split
  · exact ⟨[], rfl⟩
  · exact ⟨_, rfl⟩

theorem stream_advance {t : Token} (proper : r.feed.Proper) (h : Rule.advance r = .ok t r') :
    r'.stream = r.feed.stream ∧ r'.feed.Proper := by
  unfold Rule.advance at h
  split at h
  · next t ts tokens =>
    simp only [EStateM.Result.ok.injEq] at h
    obtain ⟨rfl, rfl⟩ := h
    have notEnd := proper.kind_ne_eof t (by simp [tokens])
    refine ⟨by simp [stream, notEnd, Feed.stream, tokens], ?_⟩
    exact ⟨fun t mem => proper.kind_ne_eof t (by simp [tokens, mem]), proper.ends⟩
  · next e tokens last =>
    simp only [EStateM.Result.ok.injEq] at h
    obtain ⟨rfl, rfl⟩ := h
    exact ⟨by simp [stream, proper.ends e last, Feed.stream, tokens, last], proper⟩
  · simp at h

theorem Reads.stream_eq (h : r.Reads u r') (proper : r.feed.Proper) :
    r.stream = u ++ r'.stream ∧ r'.feed.Proper := by
  induction h with
  | nil => exact ⟨rfl, proper⟩
  | cons notEnd step _ ih =>
    obtain ⟨stream, proper'⟩ := stream_advance proper step
    obtain ⟨rest, proper''⟩ := ih proper'
    refine ⟨?_, proper''⟩
    rw [Reader.stream, if_neg notEnd, ← stream, rest]
    rfl

theorem Reads.length_le (h : r.Reads u r') (proper : r.feed.Proper) :
    u.length ≤ r.feed.tokens.length + 1 := by
  have whole := congrArg List.length (h.stream_eq proper).1
  have bound := r.feed.length_stream_le
  obtain ⟨rest, after⟩ := r'.stream_eq_cons
  rw [after, List.length_append, List.length_cons] at whole
  unfold Reader.stream at whole
  split at whole <;> simp only [List.length_cons, List.length_nil] at whole <;> omega

-- Whatever stands before another token can be read, because that token is still to come.
theorem reads_of_stream {rest : List Token} {t : Token} (proper : r.feed.Proper)
    (notEnd : ∀ x ∈ u, x.kind ≠ .eof) (stream : r.stream = u ++ t :: rest) :
    ∃ s, r.Reads u s ∧ s.current = t := by
  induction u generalizing r with
  | nil =>
    obtain ⟨after, whole⟩ := r.stream_eq_cons
    rw [stream] at whole
    exact ⟨r, .nil, (List.cons.inj whole).1.symm⟩
  | cons x u ih =>
    have head : r.current = x := by
      obtain ⟨after, whole⟩ := r.stream_eq_cons
      rw [stream] at whole
      exact (List.cons.inj whole).1.symm
    have here : r.current.kind ≠ .eof := head ▸ notEnd x (by simp)
    have later : r.feed.stream = u ++ t :: rest := by
      rw [Reader.stream, if_neg here, List.cons_append] at stream
      exact (List.cons.inj stream).2
    obtain ⟨s, step⟩ : ∃ s, Rule.advance r = .ok r.current s := by
      unfold Rule.advance
      unfold Feed.stream at later
      split
      · exact ⟨_, rfl⟩
      · exact ⟨_, rfl⟩
      · simp_all
    obtain ⟨stream', proper'⟩ := stream_advance proper step
    obtain ⟨s', reads, current⟩ :=
      ih proper' (fun y mem => notEnd y (by simp [mem])) (stream'.trans later)
    exact ⟨s', head ▸ .cons here step reads, current⟩

theorem stream_ofFeed {f : Feed} (proper : f.Proper) (h : Reader.ofFeed f = .ok r) :
    r.stream = f.stream ∧ r.feed.Proper ∧ r.depth = 0 ∧ r.feed.last = f.last := by
  unfold Reader.ofFeed at h
  split at h
  · next t ts tokens =>
    cases h
    have notEnd := proper.kind_ne_eof t (by simp [tokens])
    refine ⟨by simp [stream, notEnd, Feed.stream, tokens], ?_, rfl, rfl⟩
    exact ⟨fun t mem => proper.kind_ne_eof t (by simp [tokens, mem]), proper.ends⟩
  · next tokens =>
    cases last : f.last with
    | error fault => simp [last, Except.map] at h
    | ok e =>
      simp only [last, Except.map, Except.ok.injEq] at h
      subst h
      exact ⟨by simp [stream, proper.ends e last, Feed.stream, tokens, last], proper, rfl, last⟩

end Reader

def SyntaxFault.rejects : SyntaxFault → Bool
  | .expected _ _ _ | .expectedLiteral _ | .expectedSeparator _ | .expectedComparison _
  | .expectedExpression _ => true
  | _ => false

/-- The ways in which a rule stops: the nesting is used up, the text does not scan, or it is stuck
at the current token. -/
inductive Reader.Stops (r : Reader) (Stuck : List Token → Token → Prop) :
    Failure SyntaxFault → Reader → Prop
  | exhausted {u : List Token} {r' : Reader} : r.Reads u r' →
      Stops r Stuck (.breakdown .exhausted) r'
  | unscanned {u : List Token} {r' : Reader} {f : Failure SyntaxFault} : r.Reads u r' →
      r'.feed.tokens = [] → r'.feed.last = .error f → Stops r Stuck f r'
  | rejected {u : List Token} {r' : Reader} {cause : SyntaxFault} : r.Reads u r' →
      cause.rejects = true → Stuck u r'.current →
      Stops r Stuck (.ofCauseAt r'.current.pos cause) r'

theorem Reader.Stops.after {r s t : Reader} {u : List Token} {f : Failure SyntaxFault}
    {Inner Stuck : List Token → Token → Prop} (h : s.Stops Inner f t) (reads : r.Reads u s)
    (stuck : ∀ v token, Inner v token → Stuck (u ++ v) token) : r.Stops Stuck f t := by
  cases h with
  | exhausted more => exact .exhausted (reads.append more)
  | unscanned more none last => exact .unscanned (reads.append more) none last
  | rejected more cause inner => exact .rejected (reads.append more) cause (stuck _ _ inner)

namespace Rule

variable {α β : Type}

section

variable {x : Rule α} {r s : Reader}

theorem bind_run {f : α → Rule β} {a : α} (h : x r = .ok a s) : (x >>= f) r = f a s := by
  simp [Bind.bind, EStateM.bind, h]

theorem bind_error {f : α → Rule β} {e : Failure SyntaxFault} (h : x r = .error e s) :
    (x >>= f) r = .error e s := by
  simp [Bind.bind, EStateM.bind, h]

theorem discard_bind {f : Unit → Rule β} : (discard x >>= f) r = (x >>= fun _ => f ()) r := by
  simp only [discard, Functor.discard, Functor.mapConst, Function.comp_apply, Bind.bind,
    EStateM.bind, EStateM.map]
  cases x r <;> rfl

theorem discard_run {f : Unit → Rule β} {a : α} (h : x r = .ok a s) :
    (discard x >>= f) r = f () s := by
  rw [discard_bind, bind_run h]

theorem current_run {f : Token → Rule β} : (current >>= f) r = f r.current r := rfl

theorem get_run {f : Reader → Rule β} : ((get : Rule Reader) >>= f) r = f r r := rfl

theorem sees_run {kind : TokenKind} {f : Bool → Rule β} :
    (sees kind >>= f) r = f (r.current.kind == kind) r := rfl

theorem expect_run {kind : TokenKind} {place : Place} (seen : r.current.kind = kind) :
    expect kind place r = advance r := by
  simp [expect, sees_run, seen]

theorem expect_error {kind : TokenKind} {place : Place} (other : r.current.kind ≠ kind) :
    expect kind place r =
      .error (.ofCauseAt r.current.pos (.expected kind place r.current.kind)) r := by
  unfold expect
  rw [sees_run]
  simp only [beq_false_of_ne other]
  rfl

theorem eq_current_of_advance {t : Token} (h : advance r = .ok t s) : t = r.current := by
  unfold advance at h
  split at h <;> simp at h <;> exact h.1.symm

theorem advance_error {f : Failure SyntaxFault} (h : advance r = .error f s) :
    s = r ∧ r.feed.tokens = [] ∧ r.feed.last = .error f := by
  unfold advance at h
  split at h <;> simp at h
  next tokens last => exact ⟨h.2.symm, tokens, h.1 ▸ last⟩

end

/-- What a rule gives depends on the tokens it reads and the one after them, and so does where it
is stuck. -/
def Follows (x : Rule α) (r : Reader) (Phrase : List Token → Token → α → Prop)
    (Stuck : List Token → Token → Prop) : Prop :=
  match x r with
  | .ok a r' => ∃ u, r.Reads u r' ∧ Phrase u r'.current a
  | .error f r' => r.Stops Stuck f r'

variable {x : Rule α} {r : Reader} {Phrase : List Token → Token → β → Prop}
  {Stuck : List Token → Token → Prop}

theorem Follows.bind {Part : List Token → Token → α → Prop} {Inner : List Token → Token → Prop}
    {f : α → Rule β} (first : x.Follows r Part Inner)
    (next : ∀ u a s, r.Reads u s → Part u s.current a →
      (f a).Follows s (fun v => Phrase (u ++ v)) (fun v => Stuck (u ++ v)))
    (stuck : ∀ u token, Inner u token → Stuck u token) : (x >>= f).Follows r Phrase Stuck := by
  unfold Follows at first ⊢
  simp only [Bind.bind, EStateM.bind]
  cases h : x r with
  | error fault s =>
    rw [h] at first
    exact first.after .nil stuck
  | ok a s =>
    rw [h] at first
    obtain ⟨u, reads, part⟩ := first
    have rest := next u a s reads part
    unfold Follows at rest
    dsimp only
    split
    · next b t h =>
      rw [h] at rest
      obtain ⟨v, more, phrase⟩ := rest
      exact ⟨u ++ v, reads.append more, phrase⟩
    · next fault t h =>
      rw [h] at rest
      exact rest.after reads fun _ _ stuck => stuck

theorem Follows.imp {Part : List Token → Token → β → Prop} {Inner : List Token → Token → Prop}
    {x : Rule β} (h : x.Follows r Part Inner) (part : ∀ u next a, Part u next a → Phrase u next a)
    (stuck : ∀ u token, Inner u token → Stuck u token) : x.Follows r Phrase Stuck := by
  unfold Follows at h ⊢
  split <;> rename_i result <;> rw [result] at h
  · obtain ⟨u, reads, phrase⟩ := h
    exact ⟨u, reads, part _ _ _ phrase⟩
  · exact h.after .nil stuck

theorem Follows.withHead {x : Rule β} (h : x.Follows r Phrase Stuck) :
    x.Follows r (fun u next b => r.current = u.headD next ∧ Phrase u next b)
      (fun u token => r.current = u.headD token ∧ Stuck u token) := by
  unfold Follows at h ⊢
  split <;> rename_i result <;> rw [result] at h
  · obtain ⟨u, reads, phrase⟩ := h
    exact ⟨u, reads, reads.current_eq, phrase⟩
  · cases h with
    | exhausted reads => exact .exhausted reads
    | unscanned reads none last => exact .unscanned reads none last
    | rejected reads cause stuck => exact .rejected reads cause ⟨reads.current_eq, stuck⟩

theorem Follows.pure {b : β} (h : Phrase [] r.current b) :
    (Pure.pure b : Rule β).Follows r Phrase Stuck :=
  ⟨[], .nil, h⟩

theorem Follows.exhausted : (Rule.exhausted : Rule β).Follows r Phrase Stuck :=
  Reader.Stops.exhausted .nil

theorem Follows.reject {cause : TokenKind → SyntaxFault} (rejects : ∀ kind, (cause kind).rejects = true)
    (h : Stuck [] r.current) : (reject cause : Rule β).Follows r Phrase Stuck :=
  Reader.Stops.rejected .nil (rejects _) h

@[simp] theorem follows_current {f : Token → Rule β} :
    (current >>= f).Follows r Phrase Stuck ↔ (f r.current).Follows r Phrase Stuck := Iff.rfl

@[simp] theorem follows_sees {kind : TokenKind} {f : Bool → Rule β} :
    (sees kind >>= f).Follows r Phrase Stuck ↔
      (f (r.current.kind == kind)).Follows r Phrase Stuck := Iff.rfl

@[simp] theorem follows_get {f : Reader → Rule β} :
    ((get : Rule Reader) >>= f).Follows r Phrase Stuck ↔ (f r).Follows r Phrase Stuck := Iff.rfl

@[simp] theorem follows_discard {f : Unit → Rule β} :
    (discard x >>= f).Follows r Phrase Stuck ↔ (x >>= fun _ => f ()).Follows r Phrase Stuck := by
  unfold Follows
  rw [discard_bind]

theorem Follows.advance {f : Token → Rule β} (notEnd : r.current.kind ≠ .eof)
    (next : ∀ s, r.Reads [r.current] s →
      (f r.current).Follows s (fun v => Phrase (r.current :: v)) (fun v => Stuck (r.current :: v))) :
    (advance >>= f).Follows r Phrase Stuck := by
  have token : Rule.advance.Follows r (fun u _ t => u = [r.current] ∧ t = r.current)
      (fun _ _ => False) := by
    cases h : Rule.advance r with
    | ok t s =>
      have same := eq_current_of_advance h
      subst same
      simp only [Follows, h]
      exact ⟨_, .cons notEnd h .nil, rfl, trivial⟩
    | error fault s =>
      obtain ⟨rfl, tokens, last⟩ := advance_error h
      simp only [Follows, h]
      exact .unscanned .nil tokens last
  refine token.bind ?_ (fun _ _ h => h.elim)
  rintro u t s reads ⟨rfl, rfl⟩
  exact next s reads

theorem Follows.expect {kind : TokenKind} {place : Place} {f : Token → Rule β} (notEnd : kind ≠ .eof)
    (next : ∀ s, r.current.kind = kind → r.Reads [r.current] s →
      (f r.current).Follows s (fun v => Phrase (r.current :: v)) (fun v => Stuck (r.current :: v)))
    (stuck : r.current.kind ≠ kind → Stuck [] r.current) :
    (expect kind place >>= f).Follows r Phrase Stuck := by
  by_cases seen : r.current.kind = kind
  · have same : (Rule.expect kind place >>= f) r = (Rule.advance >>= f) r := by
      simp only [Bind.bind, EStateM.bind, expect_run seen]
    have advanced := Follows.advance (f := f) (seen ▸ notEnd) (fun s => next s seen)
    unfold Follows at advanced ⊢
    rwa [same]
  · unfold Follows
    rw [bind_error (expect_error seen)]
    exact .rejected .nil rfl (stuck seen)

end Rule

end PlZero
