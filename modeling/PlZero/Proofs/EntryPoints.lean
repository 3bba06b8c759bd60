import PlZero.Proofs.Completion
import PlZero.Proofs.FragmentReading

set_option autoImplicit false

namespace PlZero

open Rule Phrase

namespace Reader

variable {r s : Reader} {u : List Token}

theorem Reads.stays (reads : r.Reads u s) (proper : r.feed.Proper)
    (start : r.current.kind = .eof → advance r = .ok r.current r) (ended : s.current.kind = .eof) :
    advance s = .ok s.current s := by
  induction reads with
  | nil => exact start ended
  | cons _ step _ ih =>
    have proper' := (stream_advance proper step).2
    exact ih proper' (Grammar.advance_at_end proper step) ended

theorem advance_ofFeed {f : Feed} (proper : f.Proper) (first : ofFeed f = .ok r)
    (ended : r.current.kind = .eof) : advance r = .ok r.current r := by
  unfold ofFeed at first
  split at first
  · next t ts tokens =>
    cases first
    exact absurd ended (proper.kind_ne_eof t (by simp [tokens]))
  · next tokens =>
    cases last : f.last with
    | error fault => simp [last, Except.map] at first
    | ok e =>
      simp only [last, Except.map, Except.ok.injEq] at first
      subst first
      simp [advance, tokens, last]

end Reader

theorem Grammar.fragment_run {r s : Reader} {u : List Token} {b : Block Node}
    (proper : r.feed.Proper) (outer : r.depth = 0) (reads : r.Reads u s)
    (ended : s.current.kind = .eof) (stays : advance s = .ok s.current s)
    (phrase : IsFragment nestingLimit u s.current b) : fragment r = .ok b s := by
  cases phrase with
  | @mk u v _ _ body point =>
    obtain ⟨s₁, reads₁, rest⟩ := reads.split
    rw [← rest.current_eq] at body
    have block := (blocks_run nestingLimit).1 proper reads₁ (by simpa [outer] using body)
    unfold fragment
    rw [bind_run (guarded_ok block), bind_run (skip_run point rest),
      discard_run ((expect_run ended).trans stays)]
    rfl

theorem parseFragment_of_isFragment {source : String} {b : Block Node} {e : Token}
    (last : (scan source).last = .ok e)
    (phrase : IsFragment Grammar.nestingLimit (scan source).tokens e b) :
    parseFragment source = .ok b := by
  obtain ⟨r, s, first, proper, outer, reads, rfl⟩ := exists_reads_of_scan last
  have ended := (scan_proper source).ends _ last
  have stays := reads.stays proper (Reader.advance_ofFeed (scan_proper source) first) ended
  have run := Grammar.fragment_run proper outer reads ended stays phrase
  unfold parseFragment readBy Reader.ofSource
  simp only [first, Bind.bind, Except.bind, run]

namespace Phrase

variable {n : Nat} {u : List Token} {e : Token} {b : Block Node}

theorem endsBlock_eof {k : TokenKind} (same : k = .eof) : EndsBlock k := by
  rw [same]
  exact ⟨⟨⟨rfl, rfl⟩, rfl⟩, by decide, by decide, by decide, by decide⟩

theorem IsBlock.pos_eq {outermost : Bool} {next : Token} (phrase : IsBlock n outermost u next b) :
    b.pos = (u.headD next).pos := by
  cases phrase
  rfl

theorem IsProgram.isFragment {p : Program} (phrase : IsProgram n u p) (e : Token) :
    IsFragment n u e p.body ∧ p = .ofBlock p.body := by
  cases phrase with
  | @mk u point b body dot =>
    refine ⟨.mk body (.present dot), ?_⟩
    rw [Program.ofBlock, body.pos_eq]

theorem IsBlock.plain (phrase : IsBlock n true u e b) (ended : e.kind = .eof) :
    ∀ node ∈ b.body, node.isExitMarker = false := by
  intro node mem
  have unclosed := phrase.outermost
  rw [ended] at unclosed
  cases unclosed with
  | unclosed inner => exact (inner node mem).isExitMarker_eq

theorem IsFragment.cases_closed (phrase : IsFragment n u e b) (ended : e.kind = .eof) :
    (Session.ends b = true ∧ IsProgram n u (.ofBlock b)) ∨
      ((∀ node ∈ b.body, node.isExitMarker = false) ∧ IsBlock n true u e b) := by
  cases phrase with
  | @mk u v _ _ body point =>
    cases point with
    | @present point _ dot =>
      have closed : b.Outermost true := by simpa [dot] using body.outermost
      refine .inl ⟨closed.ends_eq, ?_⟩
      rw [Program.ofBlock, body.pos_eq]
      exact .mk body dot
    | absent =>
      rw [List.append_nil]
      exact .inr ⟨IsBlock.plain body ended, body⟩

end Phrase

theorem ends_eq_false {b : Block Node} (plain : ∀ node ∈ b.body, node.isExitMarker = false) :
    Session.ends b = false := by
  unfold Session.ends
  cases last : b.body.getLast? with
  | none => rfl
  | some node => exact plain node (List.mem_of_getLast? last)

theorem parse_iff_parseFragment {source : String} {p : Program} :
    parse source = .ok p ↔
      ∃ b, parseFragment source = .ok b ∧ Session.ends b = true ∧ p = .ofBlock b := by
  constructor
  · intro parsed
    obtain ⟨⟨e, last⟩, phrase⟩ := isProgram_of_parse parsed
    obtain ⟨fragment, same⟩ := phrase.isFragment e
    exact ⟨p.body, parseFragment_of_isFragment last fragment,
      (outermost_of_parse parsed).2.ends_eq, same⟩
  · rintro ⟨b, parsed, ends, rfl⟩
    obtain ⟨e, last, ended, fragment⟩ := parseFragment_ok parsed
    rcases fragment.cases_closed ended with ⟨_, phrase⟩ | ⟨plain, _⟩
    · exact parseWithin_of_isProgram last phrase
    · rw [ends_eq_false plain] at ends
      cases ends

section Scanning

theorem isBlank_eq_false_of {q : Char → Bool} (none : ∀ c, isBlank c = true → q c = false) {c : Char}
    (holds : q c = true) : isBlank c = false := by
  cases blank : isBlank c with
  | false => rfl
  | true => rw [none c blank] at holds; cases holds

theorem Lexical.getLast_not_blank {x r : List Char} {kind : TokenKind} {text : String}
    (lexeme : Lexical x r kind text) : ∀ c ∈ x.getLast?, isBlank c = false := by
  have digit {c : Char} (holds : c.isDigit = true) : isBlank c = false :=
    isBlank_eq_false_of (fun _ => isDigit_of_isBlank) holds
  intro c last
  cases lexeme with
  | @word d xs _ start run _ =>
    have all : ∀ a ∈ d :: xs, isWordChar a = true :=
      List.forall_mem_cons.2 ⟨Lexeme.isWordChar_of_isWordStart start, run⟩
    exact isBlank_eq_false_of (fun _ => isWordChar_of_isBlank) (all c (List.mem_of_getLast? last))
  | zero =>
    cases last
    rfl
  | radix announced some run _ _ =>
    rw [List.getLast?_append_of_ne_nil _ some] at last
    have holds := run c (List.mem_of_getLast? last)
    cases announced with
    | octal => exact isBlank_eq_false_of (fun _ => isOctalDigit_of_isBlank) holds
    | hex => exact isBlank_eq_false_of (fun _ => isHexDigit_of_isBlank) holds
    | binary => exact isBlank_eq_false_of (fun _ => isBinaryDigit_of_isBlank) holds
  | @decimal d xs _ first _ run _ _ =>
    have all : ∀ a ∈ d :: xs, a.isDigit = true := List.forall_mem_cons.2 ⟨first, run⟩
    exact digit (all c (List.mem_of_getLast? last))
  | @float d xs fs _ _ _ _ some run _ =>
    have split : d :: (xs ++ '.' :: fs) = (d :: (xs ++ ['.'])) ++ fs := by simp
    rw [split, List.getLast?_append_of_ne_nil _ some] at last
    exact digit (run c (List.mem_of_getLast? last))
  | @string quote body _ mark _ =>
    rw [← List.cons_append, List.getLast?_concat] at last
    cases last
    rcases mark with rfl | rfl <;> rfl
  | pair =>
    cases last
    rfl
  | single blank =>
    cases last
    exact blank

theorem Spells.getLast_not_blank {p : Position} {s r : List Char} {ts : List Token}
    (spells : Spells p s ts r) : ∀ c ∈ s.getLast?, isBlank c = false := by
  induction spells with
  | nil => nofun
  | @cons p blanks x y r t ts _ lexeme _ _ ih =>
    intro c last
    rw [List.getLast?_append_of_ne_nil _ (by simp [lexeme.ne_nil])] at last
    cases y with
    | nil =>
      rw [List.append_nil] at last
      exact lexeme.getLast_not_blank c last
    | cons d y =>
      rw [List.getLast?_append_of_ne_nil _ (List.cons_ne_nil d y)] at last
      exact ih c last

theorem Lexical.eq_point {x r : List Char} {kind : TokenKind} {text : String}
    (lexeme : Lexical x r kind text) (dot : kind = .dot) : x = ['.'] := by
  have others : ∀ kind ∈ keywords.map Prod.snd, kind ≠ .dot := by decide
  cases lexeme with
  | @word c xs _ _ _ _ =>
    rcases TokenKind.ofWord_eq_name_or_mem (c :: xs) with name | mem
    · rw [name] at dot
      cases dot
    · exact absurd dot (others _ mem)
  | pair pair =>
    unfold pairKind? at pair
    split at pair <;> cases pair <;> cases dot
  | single _ _ _ _ _ _ =>
    unfold Lexeme.symbolKind at dot
    split at dot <;> first | rfl | cases dot
  | _ => cases dot

theorem calm_of_blank {blanks : List Char} (blank : ∀ c ∈ blanks, isBlank c = true) :
    Calm blanks :=
  fun c mem => blank c (List.mem_of_mem_head? mem)

theorem concat_eq_append {x y z : List Char} {c : Char} (same : x ++ [c] = y ++ z) :
    (z = [] ∧ y = x ++ [c]) ∨ ∃ z', z = z' ++ [c] ∧ x = y ++ z' := by
  rcases List.eq_nil_or_concat z with rfl | ⟨z', d, rfl⟩
  · exact .inl ⟨rfl, by simpa using same.symm⟩
  · rw [List.concat_eq_append, ← List.append_assoc] at same
    obtain ⟨rfl, last⟩ := List.append_inj' same rfl
    cases last
    exact .inr ⟨z', List.concat_eq_append, rfl⟩

theorem toList_point (source : String) :
    (source ++ " .").toList = source.toList ++ [' '] ++ ['.'] := by
  simp

theorem scan_point {source : String} {e : Token} (last : (scan source).last = .ok e) :
    ∃ point e', point.kind = .dot ∧
      scan (source ++ " .") = ⟨(scan source).tokens ++ [point], .ok e'⟩ := by
  have found : (scan source).tokens = (scan source).tokens ++ [] := by simp
  obtain ⟨s, tail, text, spells, feed⟩ := Cursor.spells_of_feed found
  have blank : ∀ c ∈ tail ++ [' '], isBlank c = true := by
    have blank := Cursor.blank_of_feed (feed.trans (congrArg _ last))
    simpa [or_imp, forall_and] using ⟨blank, by decide⟩
  let place := (Position.start.advanceAll s).advanceAll (tail ++ [' '])
  have lexeme : Lexical ['.'] ([] ++ []) .dot "." :=
    .single (c := '.') (by decide) (by decide) (by decide) (by decide) (by decide) (.inl rfl)
  have second : Spells (Position.start.advanceAll s) (tail ++ [' '] ++ (['.'] ++ []))
      [⟨.dot, ".", place⟩] [] := .cons blank lexeme rfl .nil
  have calm : Calm (tail ++ [' '] ++ (['.'] ++ []) ++ []) := by
    intro c mem
    refine blank c (List.mem_of_mem_head? ?_)
    cases tail <;> simpa using mem
  have whole := ((spells.cut (.here calm)).append second).feed
  have none : ∀ c ∈ ([] : List Char), isBlank c = true := nofun
  rw [Cursor.feed_blank none] at whole
  have same : (source ++ " .").toList = s ++ (tail ++ [' '] ++ (['.'] ++ [])) ++ [] := by
    rw [toList_point, show source.toList = s ++ tail from text]
    simp
  have scanned : scan (source ++ " .") = _ := (congrArg (Cursor.feed ⟨·, .start⟩) same).trans whole
  rw [List.append_nil] at scanned
  exact ⟨_, _, rfl, scanned⟩

theorem scan_of_point {source : String} {u : List Token} {point e : Token}
    (dot : point.kind = .dot) (tokens : (scan (source ++ " .")).tokens = u ++ [point])
    (last : (scan (source ++ " .")).last = .ok e) :
    ∃ e', scan source = ⟨u, .ok e'⟩ := by
  obtain ⟨s, r, text, spells, feed⟩ := Cursor.spells_of_feed tokens
  have one := (congrArg Feed.tokens feed).trans (List.append_nil [point]).symm
  obtain ⟨y, rest, text', spells', feed'⟩ := Cursor.spells_of_feed one
  have after := Cursor.blank_of_feed (feed'.trans (by rw [feed]; exact congrArg _ last))
  cases spells' with
  | @cons _ blanks x _ _ _ _ before lexeme _ nothing =>
    cases nothing
    obtain rfl := lexeme.eq_point dot
    have whole : source.toList ++ [' '] ++ ['.'] = s ++ blanks ++ ['.'] ++ rest := by
      rw [← toList_point, show (source ++ " .").toList = s ++ r from text,
        show r = blanks ++ (['.'] ++ []) ++ rest from text']
      simp
    have noBlank : isBlank '.' = false := by decide
    rcases concat_eq_append whole with ⟨rfl, inner⟩ | ⟨rest', rfl, _⟩
    · have inner := (List.append_inj' inner rfl).1.symm
      -- The blank before the point is no part of a lexeme.
      rcases concat_eq_append inner with ⟨_, ends⟩ | ⟨tail, rfl, text⟩
      · have solid := spells.getLast_not_blank ' ' (by simp [ends])
        exact absurd solid (by decide)
      · have blank : ∀ c ∈ tail, isBlank c = true := fun c mem =>
          before c (List.mem_append_left _ mem)
        have scanned := (spells.cut (.here (calm_of_blank blank))).feed
        rw [Cursor.feed_blank blank, ← text, List.append_nil] at scanned
        exact ⟨_, scanned⟩
    · rw [after '.' (by simp)] at noBlank
      cases noBlank

end Scanning

theorem parseFragment_iff_parse_point {source : String} {nodes : List Node} :
    (∃ b, parseFragment source = .ok b ∧ (∀ node ∈ b.body, node.isExitMarker = false) ∧
        b.body.map Node.erase = nodes) ↔
      ∃ p body pos, parse (source ++ " .") = .ok p ∧ p.body.body = body ++ [.exitMarker pos] ∧
        body.map Node.erase = nodes := by
  constructor
  · rintro ⟨b, parsed, plain, rfl⟩
    obtain ⟨e, last, ended, fragment⟩ := parseFragment_ok parsed
    obtain ⟨point, e', dot, scanned⟩ := scan_point last
    rcases fragment.cases_closed ended with ⟨ends, _⟩ | ⟨_, block⟩
    · rw [ends_eq_false plain] at ends
      cases ends
    · obtain ⟨b', nodes, nodes', block', body, body', same⟩ :=
        (blocks_before _).1 block (endsBlock_dot dot)
      have program := IsProgram.mk block' dot
      have last' : (scan (source ++ " .")).last = .ok e' := by rw [scanned]
      refine ⟨_, nodes', point.pos, parseWithin_of_isProgram last' (by rwa [scanned]), ?_, ?_⟩
      · simpa [exitAt, dot] using body'
      · simp [same, body, exitAt, ended]
  · rintro ⟨p, body, pos, parsed, closed, rfl⟩
    obtain ⟨⟨e, last⟩, program⟩ := isProgram_of_parse parsed
    generalize tokens : (scan (source ++ " .")).tokens = w at program
    cases program with
    | @mk u point b block dot =>
      obtain ⟨e', scanned⟩ := scan_of_point dot tokens last
      have ended : e'.kind = .eof := (scan_proper source).ends _ (by rw [scanned])
      obtain ⟨b', nodes, nodes', block', whole, whole', same⟩ :=
        (blocks_before _).1 block (endsBlock_eof ended)
      have fragment : IsFragment Grammar.nestingLimit (u ++ []) e' b' :=
        .mk block' (.absent (by simp [ended]))
      rw [List.append_nil] at fragment
      refine ⟨b', parseFragment_of_isFragment (by rw [scanned]) (by rwa [scanned]),
        block'.plain ended, ?_⟩
      have markers : nodes ++ [.exitMarker point.pos] = body ++ [.exitMarker pos] := by
        rw [← closed, whole, exitAt, if_pos ⟨rfl, dot⟩]
      rw [whole', List.map_append, same, (List.append_inj' markers rfl).1]
      simp [exitAt, ended]

theorem runEntry_of_parse {source : String} {p : Program} (parsed : parse source = .ok p)
    (limits : Limits) (debug : Bool) :
    Session.runEntry limits debug source =
      (fun _ => true) <$> Session.runSource limits debug source := by
  obtain ⟨b, fragment, ends, rfl⟩ := parse_iff_parseFragment.1 parsed
  funext m
  simp only [Session.runEntry, Session.runSource, parsed, fragment, Session.read, pure_bind, ends]
  rfl

/-- A text is a program exactly if it is a fragment that ends at a closing point, and its tree is
that of the fragment; a text without a closing point is a fragment exactly if it is a program once
a blank and a point stand after it. So an entry that is a program runs as the program does, and
ends the session. -/
theorem entry_points_agree (source : String) :
    (∀ p, parse source = .ok p ↔
      ∃ b, parseFragment source = .ok b ∧ Session.ends b = true ∧ p = .ofBlock b) ∧
    (∀ nodes, (∃ b, parseFragment source = .ok b ∧
        (∀ node ∈ b.body, node.isExitMarker = false) ∧ b.body.map Node.erase = nodes) ↔
      ∃ p body pos, parse (source ++ " .") = .ok p ∧ p.body.body = body ++ [.exitMarker pos] ∧
        body.map Node.erase = nodes) ∧
    (∀ p, parse source = .ok p → ∀ limits debug, Session.runEntry limits debug source =
      (fun _ => true) <$> Session.runSource limits debug source) :=
  ⟨fun _ => parse_iff_parseFragment, fun _ => parseFragment_iff_parse_point,
    fun _ => runEntry_of_parse⟩

theorem entry_points_agree_procedure :
    (∃ b, parseFragment "procedure p; ! 0x1F; call p ." = .ok b ∧ Session.ends b = true) ∧
    ∀ limits debug, Session.runEntry limits debug "procedure p; ! 0x1F; call p ." =
      (fun _ => true) <$> Session.runSource limits debug "procedure p; ! 0x1F; call p ." := by
  obtain ⟨program, _, runs⟩ := entry_points_agree "procedure p; ! 0x1F; call p ."
  have accepted : (parse "procedure p; ! 0x1F; call p .").isOk = true := by decide +kernel
  cases parsed : parse "procedure p; ! 0x1F; call p ." with
  | error f => rw [parsed] at accepted; cases accepted
  | ok p =>
    obtain ⟨b, fragment, ends, _⟩ := (program p).1 parsed
    exact ⟨⟨b, fragment, ends⟩, runs p parsed⟩

end PlZero
