import PlZero.Proofs.ClosingQuotes
import PlZero.Proofs.StreamScanning

set_option autoImplicit false

namespace PlZero.Text.Scanner

def Ended (result : Except (Failure SyntaxFault) Token) : Prop :=
  ∃ t, result = .ok t ∧ t.kind = .eof

theorem ended_iff (c : Cursor) : Ended c.next.1 ↔ c.skipBlanks.rest = [] := by
  constructor
  · rintro ⟨t, given, ends⟩
    by_contra more
    obtain ⟨d, ds, rest⟩ := List.exists_cons_of_ne_nil more
    have stop : isBlank d = false := stop_of_dropWhile (q := isBlank) c.rest d (by
      rw [show c.rest.dropWhile isBlank = d :: ds from rest]; rfl)
    simp only [Cursor.next, rest, Lexeme.token] at given
    split at given
    · next kind text read =>
      cases given
      exact (lexical_of_read stop read).kind_ne_eof ends
    · cases given
  · intro ended
    exact ⟨_, congrArg Prod.fst (Cursor.next_of_ended ended), rfl⟩

/-- What a number of calls give, with faults of the text passed over. -/
def calls : Nat → Scanner (List (Except (Failure SyntaxFault) Token))
  | 0 => return []
  | n + 1 => do
    let result ← nextToken
    let results ← calls n
    return result :: results

/-- Where a call that starts at an offset stops. -/
def stop (source : List Char) (k : Nat) : Nat :=
  source.length - (Cursor.at source k).next.2.rest.length

def place (source : List Char) (i : Nat) : Nat := (stop source)^[i] 0

def result (source : List Char) (i : Nat) : Except (Failure SyntaxFault) Token :=
  (Cursor.at source (place source i)).next.1

variable {source : List Char} {i k : Nat}

theorem call_at (within : k ≤ source.length) :
    nextToken.run (Stream.placed source k) =
      .ok ((Cursor.at source k).next.1, Stream.placed source (stop source k)) ∧
    (Cursor.at source k).next.2 = Cursor.at source (stop source k) := by
  obtain ⟨taken, text, pos, call⟩ := run_nextToken (source.take k) (source.drop k)
  have here : Cursor.mk (source.drop k) (Position.after (source.take k)) = Cursor.at source k := rfl
  rw [here] at text pos call
  have length : stop source k = k + taken.length := by
    have sum := congrArg List.length text
    rw [List.length_drop, List.length_append] at sum
    unfold stop
    omega
  have before : source.take (stop source k) = source.take k ++ taken := by
    rw [length, List.take_add, text, List.take_left]
  have after : source.drop (stop source k) = (Cursor.at source k).next.2.rest := by
    rw [length, ← List.drop_drop, text, List.drop_left]
  have stopped : Cursor.at source (stop source k) = (Cursor.at source k).next.2 := by
    rw [Cursor.at, before, after, ← pos]
  refine ⟨?_, stopped.symm⟩
  rw [Stream.placed_eq, call, Stream.placed_eq, before, after]

theorem lt_stop (within : k ≤ source.length) (more : ¬ Ended (Cursor.at source k).next.1) :
    k < stop source k := by
  rw [ended_iff] at more
  have shorter := Cursor.length_next_lt more
  have length : (Cursor.at source k).rest.length = source.length - k := List.length_drop
  unfold stop
  omega

theorem call_of_ended (within : k ≤ source.length) (ended : Ended (Cursor.at source k).next.1) :
    (Cursor.at source k).next.1 = .ok (.endOfFile (Position.after source)) ∧
      stop source k = source.length := by
  have blank := (ended_iff _).1 ended
  have skipped : (Cursor.at source k).skipBlanks = Cursor.at source source.length := by
    refine Cursor.skipBlanks_at within ?_ ?_
    · have whole := extract_append_drop source within
      rw [List.drop_length, List.append_nil] at whole
      rw [whole]
      exact List.dropWhile_eq_nil_iff.1 blank
    · rw [List.drop_length]
      exact nofun
  have next := Cursor.next_of_ended blank
  rw [skipped] at next
  unfold stop
  rw [next]
  simp [Cursor.at]

theorem ended_at_length : Ended (Cursor.at source source.length).next.1 := by
  rw [ended_iff]
  simp [Cursor.skipBlanks, Cursor.at]

theorem place_succ (source : List Char) (i : Nat) :
    place source (i + 1) = stop source (place source i) :=
  Function.iterate_succ_apply' _ _ _

theorem place_le (source : List Char) (i : Nat) : place source i ≤ source.length := by
  cases i with
  | zero => exact Nat.zero_le _
  | succ i =>
    rw [place_succ]
    exact Nat.sub_le _ _

theorem run_calls (source : List Char) (i n : Nat) :
    (calls n).run (Stream.placed source (place source i)) =
      .ok ((List.range' i n).map (result source), Stream.placed source (place source (i + n))) := by
  induction n generalizing i with
  | zero => rfl
  | succ n ih =>
    have call : nextToken.run (Stream.placed source (place source i)) =
        .ok (result source i, Stream.placed source (place source (i + 1))) := by
      rw [place_succ]
      exact (call_at (place_le source i)).1
    have later := ih (i + 1)
    simp [calls, call, later, List.range'_succ, Nat.add_assoc, Nat.add_comm 1]

theorem take_eq (source : List Char) (i n : Nat) :
    Cursor.take n (Cursor.at source (place source i)) = (List.range' i n).map (result source) := by
  induction n generalizing i with
  | zero => rfl
  | succ n ih =>
    have next := (call_at (place_le source i)).2
    rw [← place_succ] at next
    rw [Cursor.take, next, ih, List.range'_succ, List.map_cons]
    rfl

theorem ended_succ (ended : Ended (result source i)) : Ended (result source (i + 1)) := by
  have stopped := (call_of_ended (place_le source i) ended).2
  rw [result, place_succ, stopped]
  exact ended_at_length

theorem le_place (more : ∀ j < i, ¬ Ended (result source j)) : i ≤ place source i := by
  induction i with
  | zero => exact Nat.zero_le _
  | succ i ih =>
    have before := ih fun j less => more j (by omega)
    have moved := lt_stop (place_le source i) (more i (by omega))
    rw [place_succ]
    omega

theorem exists_first_end (source : List Char) :
    ∃ n ≤ source.length, ∀ i, Ended (result source i) ↔ n ≤ i := by
  classical
  have found : ∃ n, Ended (result source n) := by
    by_contra never
    have moved : source.length + 1 ≤ place source (source.length + 1) :=
      le_place fun j _ ended => never ⟨j, ended⟩
    have within := place_le source (source.length + 1)
    omega
  refine ⟨Nat.find found, ?_, fun i => ⟨fun ended => Nat.find_min' found ended, fun late => ?_⟩⟩
  · have moved := le_place fun j => Nat.find_min found (m := j)
    exact moved.trans (place_le source _)
  · induction i, late using Nat.le_induction with
    | base => exact Nat.find_spec found
    | succ i _ ih => exact ended_succ ih

/-- The scanner called on a stream again and again, also after failures of the text. The stream
itself never fails, so it is not read past its end; each call that does not give an end token moves
it; such calls are no more than the source has characters; and every later call gives the end token
that stands at the end of the source. -/
theorem scanner_makes_progress (source : String) :
    ∃ (results : ℕ → Except (Failure SyntaxFault) Token) (places : ℕ → ℕ),
      places 0 = 0 ∧
      (∀ n, (calls n).run { source := source.toList.toArray } =
        .ok ((List.range n).map results, Stream.placed source.toList (places n))) ∧
      (∀ n, Cursor.take n (Cursor.ofSource source) = (List.range n).map results) ∧
      (∀ i, places i ≤ source.length) ∧
      (∀ i, ¬ Ended (results i) → places i < places (i + 1)) ∧
      ∃ n ≤ source.length, (∀ i, Ended (results i) ↔ n ≤ i) ∧
        ∀ i ≥ n, results i = .ok (.endOfFile (Position.after source.toList)) ∧
          places (i + 1) = source.length := by
  have length : source.length = source.toList.length := String.length_toList.symm
  refine ⟨result source.toList, place source.toList, rfl, fun n => ?_, fun n => ?_, fun i => ?_,
    fun i more => ?_, ?_⟩
  · have run := run_calls source.toList 0 n
    rw [Nat.zero_add, ← List.range_eq_range'] at run
    exact run
  · have taken := take_eq source.toList 0 n
    rw [← List.range_eq_range'] at taken
    exact taken
  · rw [length]
    exact place_le _ i
  · rw [place_succ]
    exact lt_stop (place_le _ i) more
  · obtain ⟨n, within, ends⟩ := exists_first_end source.toList
    refine ⟨n, length ▸ within, ends, fun i late => ?_⟩
    obtain ⟨token, stopped⟩ := call_of_ended (place_le _ i) ((ends i).2 late)
    refine ⟨token, ?_⟩
    rw [place_succ, stopped, length]

-- A point without digits after it is left for the next call; an open string is taken to the end.
example : Cursor.take 5 (Cursor.ofSource "1. 'a") =
    [.error (.ofCauseAt .start (.malformedFloat "1")), .ok ⟨.dot, ".", ⟨1, 1, 2⟩⟩,
      .error (.ofCauseAt ⟨3, 1, 4⟩ .unterminatedString), .ok (.endOfFile ⟨5, 1, 6⟩),
      .ok (.endOfFile ⟨5, 1, 6⟩)] := by
  decide +kernel

end PlZero.Text.Scanner
