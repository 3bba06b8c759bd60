import PlZero.Proofs.ErasedReading
import PlZero.Proofs.ScannerProgress
import PlZero.Proofs.ShortSupplies

set_option autoImplicit false

namespace PlZero

/-- The tokens that a number of calls of the scanner give. A call beyond that number is a failure,
and after a failure there is no call. -/
def Cursor.supply (beyond : Failure SyntaxFault) : Nat → Cursor → Feed
  | 0, _ => ⟨[], .error beyond⟩
  | n + 1, c =>
    match c.next with
    | (.ok t, after) => .cons t (supply beyond n after)
    | (.error f, _) => ⟨[], .error f⟩

namespace Cursor

variable {c after : Cursor} {e : Token} {beyond : Failure SyntaxFault}

theorem skipBlanks_of_nil (none : c.rest = []) : c.skipBlanks = c := by
  obtain ⟨rest, pos⟩ := c
  cases none
  rfl

theorem next_at_end (next : c.next = (.ok e, after)) (ended : e.kind = .eof) :
    after.next = (.ok e, after) := by
  have blank : c.skipBlanks.rest = [] :=
    (Text.Scanner.ended_iff c).1 ⟨e, congrArg Prod.fst next, ended⟩
  have found := next_of_ended blank
  rw [next] at found
  obtain ⟨token, rfl⟩ := Prod.mk.inj found
  have stays := skipBlanks_of_nil blank
  have again := next_of_ended (stays.symm ▸ blank)
  rwa [stays, ← token] at again

theorem feed_at_end (next : c.next = (.ok e, after)) (ended : e.kind = .eof) :
    c.feed = ⟨[], .ok e⟩ := by
  rw [feed]
  split
  · next t after' found =>
    cases next.symm.trans found
    rw [if_pos ended]
  · next f after' found => cases next.symm.trans found

theorem feed_of_fault {f : Failure SyntaxFault} (next : c.next = (.error f, after)) :
    c.feed = ⟨[], .error f⟩ := by
  rw [feed]
  split
  · next t after' found => cases next.symm.trans found
  · next g after' found =>
    cases next.symm.trans found
    rfl

theorem advance_feed (t : Token) (c : Cursor) (depth : Nat) :
    Rule.advance ⟨t, c.feed, depth⟩ =
      match c.next with
      | (.ok t', after) => .ok t ⟨t', after.feed, depth⟩
      | (.error f, _) => .error f ⟨t, c.feed, depth⟩ := by
  match next : c.next with
  | (.error f, after) => simp [Rule.advance, feed_of_fault next]
  | (.ok t', after) =>
    by_cases ended : t'.kind = .eof
    · simp [Rule.advance, feed_at_end next ended, feed_at_end (next_at_end next ended) ended]
    · simp [Rule.advance, feed_of_next next ended, Feed.cons]

theorem supply_at_end (next : c.next = (.ok e, after)) (ended : e.kind = .eof) (n : Nat) :
    c.supply beyond n = ⟨List.replicate n e, .error beyond⟩ := by
  induction n generalizing c with
  | zero => rfl
  | succ n ih =>
    rw [supply, next]
    dsimp only
    rw [ih (next_at_end next ended)]
    rfl

theorem supply_of_fault {f : Failure SyntaxFault} (fault : c.feed.last = .error f) {n : Nat}
    (enough : c.feed.tokens.length < n) : c.supply beyond n = c.feed := by
  obtain ⟨n, rfl⟩ := Nat.exists_eq_succ_of_ne_zero (Nat.ne_zero_of_lt enough)
  fun_induction Cursor.feed c generalizing n with
  | case1 => cases fault
  | case2 c t after next notEnd ih =>
    simp only [Feed.cons, List.length_cons] at enough
    obtain ⟨n, rfl⟩ := Nat.exists_eq_succ_of_ne_zero (n := n) (by omega)
    rw [supply, next]
    dsimp only
    rw [ih fault n (by omega)]
  | case3 c f after next => rw [supply, next]

theorem supply_of_end (last : c.feed.last = .ok e) (n : Nat) :
    c.supply beyond (c.feed.tokens.length + n) =
      ⟨c.feed.tokens ++ List.replicate n e, .error beyond⟩ := by
  fun_induction Cursor.feed c with
  | case1 c t after next ended =>
    cases last
    simpa using supply_at_end next ended n
  | case2 c t after next notEnd ih =>
    simp only [Feed.cons, List.length_cons, Nat.add_right_comm _ 1 n]
    rw [supply, next]
    dsimp only
    rw [ih last]
    rfl
  | case3 => cases last

end Cursor

/-- The tokens of a text before a reader, and the end token twice, as two calls at the end give it. -/
def Reader.Stocked (e : Token) (q : Reader) : Prop :=
  ∃ ts : List Token, (∀ t ∈ ts, t.kind ≠ .eof) ∧ q.current :: q.feed.tokens = ts ++ [e, e]

namespace Reader.Stocked

variable {e : Token} {q q' : Reader} {u : List Token}

theorem tokens_ne_nil (h : q.Stocked e) : q.feed.tokens ≠ [] := by
  obtain ⟨ts, _, line⟩ := h
  intro none
  simpa [none] using congrArg List.length line

theorem reads (ended : e.kind = .eof) (h : q.Stocked e) (reads : q.Reads u q') : q'.Stocked e := by
  induction reads with
  | nil => exact h
  | @cons r s t v notEnd step _ ih =>
    refine ih ?_
    obtain ⟨ts, others, line⟩ := h
    cases ts with
    | nil => exact absurd ((List.cons.inj line).1 ▸ ended) notEnd
    | cons x ts =>
      have tokens : r.feed.tokens = ts ++ [e, e] := (List.cons.inj line).2
      refine ⟨ts, fun t mem => others t (by simp [mem]), ?_⟩
      rw [tokens_advance step (by simp [tokens]), tokens]

end Reader.Stocked

namespace Rule

variable {α β : Type} {e : Token} {x : Rule α}

def Suffices (e : Token) (x : Rule α) : Prop := ∀ q, q.Stocked e → ¬ RanOut (x q)

-- A rule that only passes tokens stops before the end token, so that both calls are left.
theorem Passes.suffices {f : α → Rule β} {least : Nat} (ended : e.kind = .eof)
    (passes : x.Passes least) (rest : ∀ a, (f a).Suffices e) : (x >>= f).Suffices e := by
  intro q stocked
  have here := passes q
  unfold PassesFrom at here
  cases done : x q with
  | ok a s =>
    rw [done] at here
    obtain ⟨u, passed, _⟩ := here
    have out := rest a s (stocked.reads ended passed.reads)
    rwa [RanOut, bind_run done]
  | error f s =>
    rw [done] at here
    obtain ⟨u, passed⟩ := here
    rw [RanOut, bind_error done]
    rintro ⟨_, _, ⟨⟩, none⟩
    exact (stocked.reads ended passed.reads).tokens_ne_nil none

theorem Passes.discard_suffices {k : Rule β} {least : Nat} (ended : e.kind = .eof)
    (passes : x.Passes least) (rest : k.Suffices e) : (discard x >>= fun _ => k).Suffices e := by
  intro q stocked
  rw [discard_bind]
  exact passes.suffices ended (fun _ => rest) q stocked

theorem suffices_closing (place : Place) (a : α) :
    (discard (expect .eof place) >>= fun _ => (pure a : Rule α)).Suffices e := by
  intro q stocked
  rw [discard_bind]
  by_cases seen : q.current.kind = .eof
  · cases step : advance q with
    | ok t s =>
      rw [bind_run ((expect_run seen).trans step)]
      rintro ⟨_, _, ⟨⟩, _⟩
    | error f s => exact absurd (advance_error step).2.1 stocked.tokens_ne_nil
  · rw [bind_error (expect_error seen)]
    rintro ⟨_, _, ⟨⟩, none⟩
    exact stocked.tokens_ne_nil none

theorem passes_current : current.Passes 0 := fun _ => ⟨[], Reader.Reads.nil.passed, Nat.zero_le _⟩

theorem passes_expect {kind : TokenKind} (notEnd : kind ≠ .eof) (place : Place) :
    (expect kind place).Passes 0 := by
  intro r
  have follows : (expect kind place).Follows r (fun _ _ _ => True) fun _ _ => True := by
    rw [← bind_pure (expect kind place)]
    exact .expect notEnd (fun _ _ _ => .pure trivial) fun _ => trivial
  exact follows.passes fun _ => Nat.zero_le _

theorem passes_skip {kind : TokenKind} (notEnd : kind ≠ .eof) : (skip kind).Passes 0 :=
  fun r => (Grammar.skip_follows notEnd r).passes fun _ => Nat.zero_le _

theorem Passes.guarded {least : Nat} (passes : x.Passes least) : (guarded x).Passes least := by
  intro r
  have here := passes r
  unfold PassesFrom at here ⊢
  cases done : x r with
  | ok a s =>
    rw [done] at here
    rwa [Grammar.guarded_ok done]
  | error f s =>
    rw [done] at here
    rcases Grammar.guarded_error done with ⟨g, _, fails⟩ | fails <;> rwa [fails]

theorem suffices_program (ended : e.kind = .eof) : Grammar.program.Suffices e :=
  passes_current.suffices ended fun start =>
    (Grammar.rules_pass _).block.guarded.suffices ended fun body =>
      (passes_expect (by decide) _).discard_suffices ended (suffices_closing _ _)

theorem suffices_fragment (ended : e.kind = .eof) : Grammar.fragment.Suffices e :=
  (Grammar.rules_pass _).block.guarded.suffices ended fun body =>
    (passes_skip (by decide)).suffices ended fun _ => suffices_closing _ _

end Rule

theorem Reader.begins_ofFeed {f : Feed} {e : Token} (proper : f.Proper) (last : f.last = .ok e)
    (beyond : Failure SyntaxFault) :
    ∃ q r, Reader.ofFeed ⟨f.tokens ++ [e, e], .error beyond⟩ = .ok q ∧
      Reader.ofFeed f = .ok r ∧ q.Begins r ∧ q.Stocked e := by
  obtain ⟨tokens, last'⟩ := f
  cases last
  have endless : Stream'.const (Except.ok e) =
      [e, e].map .ok ++ₛ Stream'.const (.ok e : Except (Failure SyntaxFault) Token) := by
    funext i
    rcases i with _ | _ | i <;> rfl
  cases tokens with
  | nil =>
    refine ⟨_, _, rfl, rfl, ⟨⟨Stream'.const (.ok e), ?_⟩, rfl, ⟨_, rfl⟩, proper⟩, [], nofun, rfl⟩
    exact (Stream'.const_eq _).symm.trans endless
  | cons t ts =>
    refine ⟨_, _, rfl, rfl, ⟨⟨Stream'.const (.ok e), ?_⟩, rfl, ⟨_, rfl⟩, ?_⟩, t :: ts,
      proper.kind_ne_eof, rfl⟩
    · have whole := congrArg ((t :: ts).map Except.ok ++ₛ ·) endless
      rwa [← Stream'.append_append_stream, ← List.map_append] at whole
    · exact ⟨fun x mem => proper.kind_ne_eof x (by simp [mem]), proper.ends⟩

theorem readBy_supply {α : Type} {rule : Rule α} (steady : rule.Steady)
    (suffices' : ∀ {e : Token}, e.kind = .eof → rule.Suffices e) (source : String)
    (beyond : Failure SyntaxFault) :
    ((Cursor.ofSource source).supply beyond ((scan source).tokens.length + 2)).readBy rule =
      (scan source).readBy rule := by
  cases last : (scan source).last with
  | error f => rw [Cursor.supply_of_fault last (by exact Nat.lt_add_of_pos_right (by decide))]; rfl
  | ok e =>
    have proper := scan_proper source
    obtain ⟨q, r, start, start', begins, stocked⟩ := Reader.begins_ofFeed proper last beyond
    have supplied : (Cursor.ofSource source).supply beyond ((scan source).tokens.length + 2) =
        ⟨(scan source).tokens ++ [e, e], .error beyond⟩ := Cursor.supply_of_end last 2
    rw [supplied]
    unfold Feed.readBy
    rw [start, start']
    have same := (steady begins).resolve_left (suffices' (proper.ends e last) q stocked)
    simp only [Bind.bind, Except.bind]
    revert same
    cases rule q <;> cases rule r <;> rintro ⟨_⟩ <;> rfl

/-- Rules read on and do nothing else. From every reader, whether a rule gives something or fails, it
has passed tokens, in the order in which they were ahead, and the depth is what it was; all rules but
blocks and statements pass at least one token if they give something, and so does a round of a loop
that another round follows. To move to the next token is to call the scanner once, and a scanner that
answers only two calls more than the text has tokens is enough to read the text, as a program or as a
fragment, to the same tree or failure. -/
theorem rules_read_on :
    (∀ n, Grammar.RulesPass n) ∧
    (∀ r s, Grammar.NextRound r s → ∃ u, u ≠ [] ∧ r.Passed u s) ∧
    (∀ t c depth, Rule.advance ⟨t, Cursor.feed c, depth⟩ =
      match c.next with
      | (.ok t', after) => .ok t ⟨t', after.feed, depth⟩
      | (.error f, _) => .error f ⟨t, c.feed, depth⟩) ∧
    ∀ source beyond, let feed :=
        (Cursor.ofSource source).supply beyond ((scan source).tokens.length + 2)
      feed.readBy Grammar.program = parse source ∧
        feed.readBy Grammar.fragment = parseFragment source := by
  refine ⟨Grammar.rules_pass, fun r s => Grammar.NextRound.passed, Cursor.advance_feed, ?_⟩
  intro source beyond feed
  exact ⟨readBy_supply Grammar.steady_program Rule.suffices_program source beyond,
    readBy_supply Grammar.steady_fragment Rule.suffices_fragment source beyond⟩

-- An empty statement reads nothing, but the semicolon after it is read.
theorem rules_read_on_semicolon :
    let finish : Token := ⟨.endWord, "end", ⟨1, 1, 2⟩⟩
    let last : Token := ⟨.eof, "", ⟨4, 1, 5⟩⟩
    let r : Reader := ⟨⟨.semicolon, ";", .start⟩, ⟨[finish], .ok last⟩, 1⟩
    let s : Reader := ⟨finish, ⟨[], .ok last⟩, 1⟩
    Grammar.NextRound r s ∧ ∃ u, u ≠ [] ∧ r.Passed u s :=
  have more : Grammar.NextRound _ _ := .statement (n := 1) (a := none) rfl
  ⟨more, rules_read_on.2.1 _ _ more⟩

-- One call less is not enough where the text is a program.
example : ((Cursor.ofSource " .").supply (.breakdown .interrupted) 2).readBy Grammar.program =
    .error (.breakdown .interrupted) := by
  rfl

end PlZero
