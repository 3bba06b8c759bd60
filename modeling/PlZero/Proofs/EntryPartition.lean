import PlZero.Proofs.PromptSurvival

set_option autoImplicit false

namespace PlZero.Talk

def Balanced (lines : List String) : Prop :=
  ∃ depth, openBlocks (entryOf lines) = .ok depth ∧ depth ≤ 0

def Unbalanced (lines : List String) : Prop :=
  ∃ depth, openBlocks (entryOf lines) = .ok depth ∧ 0 < depth

structure Complete (piece : List String) : Prop where
  ne_nil : piece ≠ []
  balanced : Balanced piece
  shortest : ∀ shorter, shorter ≠ [] → shorter <+: piece → shorter ≠ piece → Unbalanced shorter

structure Unfinished (piece : List String) : Prop where
  ne_nil : piece ≠ []
  unbalanced : ∀ shorter, shorter ≠ [] → shorter <+: piece → Unbalanced shorter

def Countable (lines : List String) : Prop :=
  ∀ piece, piece <:+: lines → ∃ depth, openBlocks (entryOf piece) = .ok depth

theorem Countable.of_suffix {lines rest : List String} (countable : Countable lines)
    (suffix : rest <:+ lines) : Countable rest :=
  fun piece inside => countable piece (inside.trans suffix.isInfix)

theorem countable_of_all {lines : List String} (counted : (lines.tails.flatMap List.inits).all
    (fun piece => (openBlocks (entryOf piece)).isOk) = true) : Countable lines := by
  intro piece inside
  obtain ⟨tail, start, suffix⟩ := List.infix_iff_prefix_suffix.1 inside
  have mem : piece ∈ lines.tails.flatMap List.inits :=
    List.mem_flatMap.2 ⟨tail, (List.mem_tails _ _).2 suffix, (List.mem_inits _ _).2 start⟩
  have ok := List.all_eq_true.1 counted piece mem
  cases result : openBlocks (entryOf piece) with
  | ok depth => exact ⟨depth, rfl⟩
  | error b =>
    rw [result] at ok
    cases ok

def entryLines (entry : String) : List String := (entry.toList.splitOn '\n').map String.ofList

theorem entryLines_entryOf {piece : List String} (some : piece ≠ [])
    (whole : ∀ line ∈ piece, '\n' ∉ line.toList) : entryLines (entryOf piece) = piece := by
  have text : (entryOf piece).toList = ['\n'].intercalate (piece.map String.toList) := by
    simp [entryOf]
  have split : (entryOf piece).toList.splitOn '\n' = piece.map String.toList := by
    rw [text]
    apply List.splitOn_intercalate
    · simpa using whole
    · simpa using some
  simp [entryLines, split]

def readEntries : Nat → Talk (List String)
  | 0 => throw .unfinished
  | n + 1 => do
    match ← readEntry [] (← rounds) with
    | none => return []
    | some entry => return entry :: (← readEntries n)

variable {p : Prompt} {pending : List String} {n : Nat}

theorem readEntry_piece (patient : p.machine.input.patience = none) (enough : p.lines.length < n)
    (countable : Countable (pending ++ p.lines)) (more : pending ++ p.lines ≠ [])
    (unbalanced : ∀ shorter, shorter ≠ [] → shorter <+: pending → Unbalanced shorter) :
    ∃ taken p', p.Took taken p' ∧
      readEntry pending n p = .ok (some (entryOf (pending ++ taken))) p' ∧
      (Complete (pending ++ taken) ∨ p'.lines = [] ∧ Unfinished (pending ++ taken)) := by
  induction n generalizing p pending with
  | zero => omega
  | succ n ih =>
    cases lines : p.lines with
    | nil =>
      rw [lines, List.append_nil] at more
      have notEmpty : pending.isEmpty = false := by simpa using more
      have read : readEntry pending (n + 1) p = _ := readEntry_ended patient lines
      simp only [notEmpty, Bool.false_eq_true, if_false] at read
      have unfinished : Unfinished pending := ⟨more, unbalanced⟩
      have took : p.Took [] (p.shown (mark pending) []) := ⟨_, [], lines, rfl⟩
      rw [← List.append_nil pending] at unfinished
      exact ⟨[], _, took, by rw [read, List.append_nil], .inr ⟨rfl, unfinished⟩⟩
    | cons line rest =>
      have took : p.Took [line] (p.shown (mark pending) rest) := ⟨_, _, lines, rfl⟩
      have reads : readEntry pending (n + 1) p = _ := readEntry_line patient lines
      rw [lines] at countable enough
      have whole : pending ++ line :: rest = (pending ++ [line]) ++ rest := by simp
      obtain ⟨depth, counted⟩ := countable (pending ++ [line]) (whole ▸ List.infix_append' [] _ _)
      rw [counted] at reads
      by_cases closed : depth ≤ 0
      · have complete : Complete (pending ++ [line]) := by
          refine ⟨by simp, ⟨depth, counted, closed⟩, fun shorter some before notAll => ?_⟩
          rcases List.prefix_concat_iff.1 before with all | before
          · exact absurd all notAll
          · exact unbalanced shorter some before
        simp only [closed, if_true] at reads
        exact ⟨[line], _, took, reads, .inl complete⟩
      · have unbalanced' : ∀ shorter, shorter ≠ [] → shorter <+: pending ++ [line] →
            Unbalanced shorter := by
          intro shorter some before
          rcases List.prefix_concat_iff.1 before with rfl | before
          · exact ⟨depth, counted, by omega⟩
          · exact unbalanced shorter some before
        rw [whole] at countable
        obtain ⟨taken, p', took', read, ends⟩ :=
          ih (p := p.shown (mark pending) rest) rfl (Nat.lt_of_succ_lt_succ enough) countable
            (by simp) unbalanced'
        simp only [closed, if_false] at reads
        rw [List.append_assoc, List.singleton_append] at read ends
        exact ⟨line :: taken, p', took'.after (mark pending) lines, reads.trans read, ends⟩

theorem readEntries_ended (patient : p.machine.input.patience = none) (none : p.lines = []) :
    readEntries (n + 1) p = .ok [] (p.shown (mark []) []) := by
  have read : readEntry [] (p.lines.length + 1) p = .ok .none (p.shown (mark []) []) :=
    readEntry_ended patient none
  change (readEntry [] (p.lines.length + 1) >>= _) p = _
  simp only [Bind.bind, EStateM.bind, read]
  rfl

theorem readEntries_more {entry : String} {p' p'' : Prompt} {entries : List String}
    (read : readEntry [] (p.lines.length + 1) p = .ok (some entry) p')
    (rest : readEntries n p' = .ok entries p'') :
    readEntries (n + 1) p = .ok (entry :: entries) p'' := by
  change (readEntry [] (p.lines.length + 1) >>= _) p = _
  simp only [Bind.bind, EStateM.bind, read, rest]
  rfl

theorem readEntries_pieces (patient : p.machine.input.patience = none) (enough : p.lines.length < n)
    (countable : Countable p.lines) :
    ∃ pieces p', readEntries n p = .ok (pieces.map entryOf) p' ∧ p'.lines = [] ∧
      pieces.flatten = p.lines ∧ ∀ before piece after, pieces = before ++ piece :: after →
        Complete piece ∨ after = [] ∧ Unfinished piece := by
  induction n generalizing p with
  | zero => omega
  | succ n ih =>
    by_cases more : p.lines = []
    · exact ⟨[], _, readEntries_ended patient more, rfl, more.symm, by simp⟩
    · have none : ∀ shorter, shorter ≠ [] → shorter <+: [] → Unbalanced shorter :=
        fun shorter some before => absurd (List.prefix_nil.1 before) some
      have start : Countable ([] ++ p.lines) := countable
      obtain ⟨first, p', took, read, ends⟩ :=
        readEntry_piece patient (Nat.lt_succ_self _) start more none
      have lines := took.lines
      have some : first ≠ [] := ends.elim Complete.ne_nil fun ends => ends.2.ne_nil
      have patient' : p'.machine.input.patience = .none := by
        obtain ⟨_, _, _, rfl⟩ := took
        rfl
      have fewer : p'.lines.length < n := by
        have positive := List.length_pos_iff.2 some
        have whole := congrArg List.length lines
        rw [List.length_append] at whole
        omega
      obtain ⟨pieces, p'', rest, ended, flat, later⟩ :=
        ih patient' fewer (countable.of_suffix ⟨first, lines.symm⟩)
      refine ⟨first :: pieces, p'', readEntries_more read rest, ended, by simp [flat, lines], ?_⟩
      intro before piece after split
      cases before with
      | nil =>
        obtain ⟨rfl, rfl⟩ := List.cons.inj split
        rcases ends with complete | ⟨none, unfinished⟩
        · exact .inl complete
        · rw [none] at flat
          cases pieces with
          | nil => exact .inr ⟨rfl, unfinished⟩
          | cons second pieces =>
            have some := (later [] second pieces rfl).elim Complete.ne_nil fun ends => ends.2.ne_nil
            exact absurd (List.append_eq_nil_iff.1 flat).1 some
      | cons _ before => exact later before piece after (List.cons.inj split).2

/-- Whatever lines are to be read, the entries that are read from them are these lines, divided. An
entry has its lines back when it is split at its line breaks; all entries together have all lines, in
their order. Each entry but the last is the shortest that may stand there, and the last is, too,
unless the lines end while a block is open. -/
theorem entries_partition_lines {p : Prompt} (patient : p.machine.input.patience = none)
    (whole : ∀ line ∈ p.lines, '\n' ∉ line.toList) (countable : Countable p.lines) {n : Nat}
    (enough : p.lines.length < n) :
    ∃ entries p', readEntries n p = .ok entries p' ∧ p'.lines = [] ∧
      entries.flatMap entryLines = p.lines ∧
      (∀ entry ∈ entries, entryOf (entryLines entry) = entry) ∧
      ∀ before entry after, entries = before ++ entry :: after →
        Complete (entryLines entry) ∨ after = [] ∧ Unfinished (entryLines entry) := by
  obtain ⟨pieces, p', read, ended, flat, ends⟩ := readEntries_pieces patient enough countable
  have back : ∀ piece ∈ pieces, entryLines (entryOf piece) = piece := by
    intro piece mem
    obtain ⟨before, after, split⟩ := List.append_of_mem mem
    have some : piece ≠ [] := (ends before piece after split).elim Complete.ne_nil
      fun ends => ends.2.ne_nil
    apply entryLines_entryOf some
    intro line inside
    apply whole
    rw [← flat]
    exact List.mem_flatten.2 ⟨piece, mem, inside⟩
  refine ⟨pieces.map entryOf, p', read, ended, ?_, ?_, ?_⟩
  · rw [List.flatMap_map, List.flatMap_congr back, List.flatMap_id', flat]
  · intro entry mem
    obtain ⟨piece, inside, rfl⟩ := List.mem_map.1 mem
    rw [back piece inside]
  · intro before entry after split
    obtain ⟨earlier, later, rfl, rfl, more⟩ := List.map_eq_append_iff.1 split
    obtain ⟨piece, rest, rfl, rfl, rfl⟩ := List.map_eq_cons_iff.1 more
    rw [back piece (by simp)]
    rcases ends earlier piece rest rfl with complete | ⟨rfl, unfinished⟩
    · exact .inl complete
    · exact .inr ⟨rfl, unfinished⟩

-- A word in a string closes no block; a text that does not scan ends its entry, although a block is
-- open in it.
theorem entries_partition_lines_open_end :
    let lines := ["begin ! 'end'", "end", "", "begin", "'", "begin"]
    let p : Prompt := { machine := { input := { lines } } }
    Countable lines ∧ ∃ p', readEntries 7 p =
        .ok ["begin ! 'end'\nend", "", "begin\n'", "begin"] p' ∧ p'.lines = [] ∧
      Complete ["begin", "'"] ∧ Unfinished ["begin"] := by
  intro lines p
  have countable : Countable lines := countable_of_all (by decide +kernel)
  have whole : ∀ line ∈ lines, '\n' ∉ line.toList := by decide
  obtain ⟨entries, p', read, ended, _, _, ends⟩ :=
    entries_partition_lines (p := p) rfl whole countable (Nat.lt_succ_self 6)
  have found : (match readEntries 7 p with
      | .ok entries _ => entries
      | .error _ _ => []) = ["begin ! 'end'\nend", "", "begin\n'", "begin"] := by
    decide +kernel
  rw [read] at found
  cases found
  have third : entryLines "begin\n'" = ["begin", "'"] := by decide +kernel
  have last : entryLines "begin" = ["begin"] := by decide +kernel
  have complete := ends ["begin ! 'end'\nend", ""] "begin\n'" ["begin"] rfl
  have unfinished := ends ["begin ! 'end'\nend", "", "begin\n'"] "begin" [] rfl
  rw [third] at complete
  rw [last] at unfinished
  have goesOn : ¬ Complete ["begin"] := by
    rintro ⟨_, ⟨depth, counted, closed⟩, _⟩
    have one : (openBlocks (entryOf ["begin"])).toOption = some 1 := by decide +kernel
    rw [counted] at one
    cases one
    contradiction
  exact ⟨countable, p', read, ended, complete.resolve_right (by simp),
    (unfinished.resolve_left goesOn).2⟩

end PlZero.Talk
