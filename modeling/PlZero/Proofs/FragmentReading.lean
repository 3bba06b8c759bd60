import PlZero.Proofs.BlockBody
import PlZero.Proofs.PhraseDerives
import PlZero.Proofs.ProgramReading
import PlZero.Session

set_option autoImplicit false

namespace PlZero

open Rule Phrase

namespace Rule

variable {α β : Type} {x : Rule α} {r t : Reader}

theorem exists_of_bind {f : α → Rule β} {b : β} (h : (x >>= f) r = .ok b t) :
    ∃ a s, x r = .ok a s ∧ f a s = .ok b t := by
  cases first : x r with
  | ok a s => exact ⟨a, s, rfl, by rwa [bind_run first] at h⟩
  | error f s => rw [bind_error first] at h; cases h

theorem Follows.exists_of_ok {Phrase : List Token → Token → α → Prop}
    {Stuck : List Token → Token → Prop} {a : α} (follows : x.Follows r Phrase Stuck)
    (h : x r = .ok a t) : ∃ u, r.Reads u t ∧ Phrase u t.current a := by
  unfold Follows at follows
  rwa [h] at follows

end Rule

inductive Phrase.IsFragment : Nat → List Token → Token → Block Node → Prop
  | mk {n : Nat} {u v : List Token} {next : Token} {b : Block Node} :
      IsBlock n true u (v.headD next) b → Skipped .dot v next → IsFragment n (u ++ v) next b

theorem Grammar.fragment_ok {r t : Reader} {b : Block Node} (outer : r.depth = 0)
    (h : fragment r = .ok b t) :
    ∃ u s, r.Reads u s ∧ s.current.kind = .eof ∧ IsFragment nestingLimit u s.current b := by
  obtain ⟨b', s₁, guards, h⟩ := exists_of_bind h
  have blocks : block nestingLimit r = .ok b' s₁ := by
    unfold guarded at guards
    split at guards
    · cases guards
    · exact guards
  obtain ⟨u, reads, body⟩ := ((blocks_follow nestingLimit).1 r).exists_of_ok blocks
  obtain ⟨_, s₂, skips, h⟩ := exists_of_bind h
  obtain ⟨v, reads', point⟩ := (skip_follows (by decide) s₁).exists_of_ok skips
  rw [discard_bind] at h
  obtain ⟨_, s₃, closes, h⟩ := exists_of_bind h
  cases h
  have ended : s₂.current.kind = .eof := by
    by_contra other
    rw [expect_error other] at closes
    cases closes
  rw [reads'.current_eq] at body
  exact ⟨u ++ v, s₂, reads.append reads', ended, .mk (by simpa [outer] using body) point⟩

theorem parseFragment_ok {source : String} {b : Block Node} (h : parseFragment source = .ok b) :
    ∃ e, (scan source).last = .ok e ∧ e.kind = .eof ∧
      IsFragment Grammar.nestingLimit (scan source).tokens e b := by
  have proper := scan_proper source
  unfold parseFragment readBy Reader.ofSource at h
  cases first : Reader.ofFeed (scan source) with
  | error f => rw [first] at h; cases h
  | ok r =>
    obtain ⟨stream, proper', outer, _⟩ := Reader.stream_ofFeed proper first
    rw [first] at h
    simp only [Bind.bind, Except.bind] at h
    split at h
    · next b' t result =>
      cases h
      obtain ⟨u, s, reads, ended, phrase⟩ := Grammar.fragment_ok outer result
      obtain ⟨rest, after⟩ := s.stream_eq_cons
      have whole := (reads.stream_eq proper').1
      rw [stream, after] at whole
      obtain ⟨rfl, last⟩ :=
        Feed.tokens_of_stream proper (fun t mem => reads.kind_ne_eof mem) ended whole
      exact ⟨s.current, last, ended, phrase⟩
    · cases h

def Form.pointless : Form → Bool
  | .empty => true
  | .token kind => kind != .dot
  | .category .program => false
  | .category _ => true
  | .seq f g => f.pointless && g.pointless
  | .either f g => f.pointless && g.pointless
  | .optional f => f.pointless
  | .repeated f => f.pointless

theorem Form.pointless_eq (f : Form) :
    f.pointless = f.keepsTo (· != .dot) (fun | .program => false | _ => true) := by
  induction f with
  | empty | token => rfl
  | category c => cases c <;> rfl
  | seq f g first second | either f g first second => rw [pointless, first, second]; rfl
  | optional f ih | repeated f ih => exact ih

theorem Derives.dot_not_mem {f : Form} {w : List TokenKind} (h : Derives f w)
    (pointless : f.pointless = true) : .dot ∉ w := by
  rw [Form.pointless_eq] at pointless
  have others := h.allowed_of_mem (by intro c; cases c <;> decide) pointless
  intro mem
  exact absurd (others _ mem) (by decide)

theorem Phrase.IsBlock.dot_not_mem {n : Nat} {outermost : Bool} {u : List Token} {next : Token}
    {b : Block Node} (phrase : IsBlock n outermost u next b) : ∀ t ∈ u, t.kind ≠ .dot := by
  have word : kinds u ++ [] ∈ lang .block * 1 := (blocks_derive n).1 phrase rfl
  rw [List.append_nil, mul_one] at word
  intro t mem dot
  exact Derives.dot_not_mem word rfl (List.mem_map.2 ⟨t, mem, dot⟩)

theorem Phrase.IsBlock.not_closed {n : Nat} {outermost : Bool} {u : List Token} {next : Token}
    {b : Block Node} (phrase : IsBlock n outermost u next b) :
    u.getLast?.any (·.kind == .dot) = false := by
  cases last : u.getLast? with
  | none => rfl
  | some t => exact beq_false_of_ne (phrase.dot_not_mem t (List.mem_of_getLast? last))

inductive Block.Outermost : Bool → Block Node → Prop
  | unclosed {b : Block Node} : (∀ node ∈ b.body, node.Inner) → Outermost false b
  | closed {start pos : Position} {nodes : List Node} : (∀ node ∈ nodes, node.Inner) →
      Outermost true ⟨start, nodes ++ [.exitMarker pos]⟩

theorem Block.Outermost.ends_eq {closed : Bool} {b : Block Node} (h : b.Outermost closed) :
    Session.ends b = closed := by
  cases h with
  | closed => simp [Session.ends, Node.isExitMarker]
  | unclosed inner =>
    unfold Session.ends
    cases last : b.body.getLast? with
    | none => rfl
    | some node => exact (inner node (List.mem_of_getLast? last)).isExitMarker_eq

theorem Phrase.IsBlock.outermost {n : Nat} {u : List Token} {next : Token} {b : Block Node}
    (phrase : IsBlock n true u next b) : b.Outermost (next.kind == .dot) := by
  obtain ⟨nodes, inner, eq⟩ := (blocks_inner n).1 phrase
  obtain ⟨start, body⟩ := b
  change body = _ at eq
  subst eq
  by_cases dot : next.kind = .dot
  · have exits : exitAt true next = [.exitMarker next.pos] := by simp [exitAt, dot]
    rw [exits, dot]
    exact .closed inner
  · have exits : exitAt true next = [] := by simp [exitAt, dot]
    rw [exits, beq_false_of_ne dot, List.append_nil]
    exact .unclosed inner

def closedByPoint (source : String) : Bool :=
  (scan source).tokens.getLast?.any (·.kind == .dot)

theorem outermost_of_parseFragment {source : String} {b : Block Node}
    (h : parseFragment source = .ok b) : b.Outermost (closedByPoint source) := by
  obtain ⟨e, _, ended, phrase⟩ := parseFragment_ok h
  unfold closedByPoint
  generalize (scan source).tokens = u at phrase
  cases phrase with
  | mk body point =>
    cases point with
    | present dot => simpa [dot] using body.outermost
    | absent =>
      have other : (e.kind == .dot) = false := by rw [ended]; rfl
      rw [List.append_nil, body.not_closed, ← other]
      exact body.outermost

theorem outermost_of_parse {source : String} {p : Program} (h : parse source = .ok p) :
    closedByPoint source = true ∧ p.body.Outermost true := by
  have outcome := parseWithin_outcome Grammar.nestingLimit source
  rw [show parseWithin Grammar.nestingLimit source = .ok p from h] at outcome
  cases outcome with
  | accepted _ phrase =>
    unfold closedByPoint
    generalize (scan source).tokens = u at phrase
    cases phrase with
    | mk body dot => exact ⟨by simp [dot], by simpa [dot] using body.outermost⟩

end PlZero
