import PlZero.Proofs.LosslessScanning
import PlZero.Text.Stream

set_option autoImplicit false

namespace PlZero

theorem Position.after_append (xs ys : List Char) :
    Position.after (xs ++ ys) = (Position.after xs).advanceAll ys := by
  rw [← advanceAll_start, ← advanceAll_start, advanceAll_append]

theorem Lexeme.ne_backslash {c : Char} {cs : List Char} (alone : c = '\\' → cs = [] → False)
    (notEscape : ∀ d ds, c = '\\' → cs = d :: ds → False) : c ≠ '\\' := by
  intro escape
  cases cs with
  | nil => exact alone escape rfl
  | cons d ds => exact notEscape d ds escape rfl

namespace Text

namespace Stream

def left (s : Stream) : Nat := (s.source.size - s.pos.offset).toNat

theorem next_of_ended {s : Stream} (finished : s.ended = true) :
    s.next = .error (.pastEnd s.pos) := by
  simp [next, finished]

theorem left_next_lt {s after : Stream} {c : Char} (read : s.next = .ok (c, after)) :
    after.left < s.left := by
  have within : s.pos.offset < s.source.size := by
    by_contra beyond
    have finished : s.ended = true := by simpa [ended] using beyond
    cases (next_of_ended finished).symm.trans read
  have moved : after = { s with pos := s.pos.advance c } := by
    unfold next at read
    dsimp only at read
    split_ifs at read
    all_goals
      split at read
      · cases read
        rfl
      · cases read
  simp only [moved, left, Position.offset_advance]
  omega

def between (done rest : List Char) : Stream := ⟨(done ++ rest).toArray, Position.after done⟩

def placed (source : List Char) (k : Nat) : Stream :=
  ⟨source.toArray, Position.after (source.take k)⟩

theorem placed_eq (source : List Char) (k : Nat) :
    Stream.placed source k = between (source.take k) (source.drop k) := by
  simp [Stream.placed, between]

section Between

variable {done rest : List Char}

theorem offset_between : (between done rest).pos.offset = done.length := by
  simp [between, ← Position.advanceAll_start, Position.offset_advanceAll, Position.start]

@[simp] theorem ended_between : (between done rest).ended = rest.isEmpty := by
  cases rest <;> simp [ended, offset_between] <;> simp [between]

theorem peek_between (k : Nat) : (between done rest).peek k = rest[k]? := by
  have index : ((done.length : Int) + k).toNat = done.length + k := by omega
  have ahead : ¬ (done.length : Int) + k < 0 := by omega
  simp only [peek, offset_between, ahead, index, if_false]
  simp [between, List.getElem?_append]

@[simp] theorem next_between (c : Char) :
    (between done (c :: rest)).next = .ok (c, between (done ++ [c]) rest) := by
  have more : (between done (c :: rest)).ended = false := by simp
  have ahead : ¬ (done.length : Int) < 0 := by omega
  simp only [next, more, offset_between, ahead, if_false]
  simp [between, Position.after_append]

end Between

end Stream

/-- Reading from a stream, which fails where a character is asked for beyond its ends. -/
abbrev Scanner (α : Type) := StateT Stream (Except StreamFault) α

namespace Scanner

open Number

def advance : Scanner Char := Stream.next

def peek (distance : Nat) : Scanner (Option Char) := do return (← get).peek distance

def ended : Scanner Bool := do return (← get).ended

def readWhile (q : Char → Bool) : Scanner (List Char)
  | s =>
    if (s.peek 0).any q then
      match _read : s.next with
      | .error fault => .error fault
      | .ok (c, after) => (readWhile q after).map fun (cs, rest) => (c :: cs, rest)
    else .ok ([], s)
termination_by s => s.left
decreasing_by exact Stream.left_next_lt _read

def closeString (quote : Char) : Scanner (Option (List Char))
  | s =>
    if s.ended then .ok (none, s)
    else match _read : s.next with
      | .error fault => .error fault
      | .ok (c, after) =>
        if c = '\\' then
          if after.ended then .ok (none, after)
          else match _protected : after.next with
            | .error fault => .error fault
            | .ok (d, later) =>
              (closeString quote later).map fun (body, rest) => (body.map (c :: d :: ·), rest)
        else if c = quote then .ok (some [], after)
        else (closeString quote after).map fun (body, rest) => (body.map (c :: ·), rest)
termination_by s => s.left
decreasing_by
  · exact (Stream.left_next_lt _protected).trans (Stream.left_next_lt _read)
  · exact Stream.left_next_lt _read

abbrev Reading := Except Flaw (TokenKind × String)

def word : Scanner Reading := do
  let letters ← readWhile isWordChar
  return .ok (.ofWord letters, String.ofList letters)

def radix (base : Nat) (isDigit : Char → Bool) : Scanner Reading := do
  let digits ← readWhile isDigit
  return Lexeme.numeral (digitsValue base digits)

def decimal : Scanner Reading := do
  let digits ← readWhile Char.isDigit
  if (← peek 0) ≠ some '.' then return .ok (.number, String.ofList digits)
  else if !(← peek 1).any Char.isDigit then
    return .error (.malformedFloat (String.ofList digits))
  else
    let point ← advance
    let fraction ← readWhile Char.isDigit
    return .ok (.float, String.ofList (digits ++ point :: fraction))

def number : Scanner Reading := do
  let mark ← peek 1
  let first ← peek 2
  if (← peek 0) ≠ some '0' then decimal
  else if mark.any isOctalDigit then radix 8 isOctalDigit
  else if mark.any (fun c => c == 'x' || c == 'X') && first.any isHexDigit then
    let _ ← advance
    let _ ← advance
    radix 16 isHexDigit
  else if mark.any (fun c => c == 'b' || c == 'B') && first.any isBinaryDigit then
    let _ ← advance
    let _ ← advance
    radix 2 isBinaryDigit
  else if mark = some '.' then decimal
  else
    let _ ← advance
    return .ok (.number, "0")

def string : Scanner Reading := do
  let quote ← advance
  match ← closeString quote with
  | some body => return .ok (.string, String.ofList body)
  | none => return .error .unterminatedString

def markKind? : List Char → Option TokenKind
  | [c, '='] => pairKind? c
  | [c] => if Lexeme.symbolKind c = .invalid then none else some (Lexeme.symbolKind c)
  | _ => none

def longestMark? (ahead : List Char) : Option (List Char × TokenKind) :=
  [ahead.take 2, ahead.take 1].findSome? fun text => (markKind? text).map (text, ·)

def symbol : Scanner Reading := do
  let first ← peek 0
  let second ← peek 1
  match longestMark? (first.elim [] (· :: second.toList)) with
  | some (mark, kind) =>
    let text ← mark.mapM fun _ => advance
    return .ok (kind, String.ofList text)
  | none => return .ok (.invalid, String.singleton (← advance))

def lexeme : Scanner Reading := do
  let c ← peek 0
  if c.all isWordStart then word
  else if c.all Char.isDigit then number
  else if c = some '\'' ∨ c = some '"' then string
  else symbol

def nextToken : Scanner (Except (Failure SyntaxFault) Token) := do
  let _ ← readWhile isBlank
  let start := (← get).pos
  if ← ended then return .ok (.endOfFile start)
  else match ← lexeme with
    | .ok (kind, text) => return .ok ⟨kind, text, start⟩
    | .error flaw => return .error (flaw.failure start)

@[simp] theorem ok_bind {α β : Type} (a : α) (f : α → Except StreamFault β) :
    (Except.ok a >>= f) = f a := rfl

@[simp] theorem pure_eq_ok {α : Type} (a : α) : (pure a : Except StreamFault α) = .ok a := rfl

@[simp] theorem error_bind {α β : Type} (fault : StreamFault) (f : α → Except StreamFault β) :
    (Except.error fault >>= f) = .error fault := rfl

theorem run_peek (k : Nat) (s : Stream) : (peek k).run s = .ok (s.peek k, s) := rfl

@[simp] theorem run_ended (s : Stream) : ended.run s = .ok (s.ended, s) := rfl

@[simp] theorem run_advance (s : Stream) : advance.run s = s.next := rfl

theorem readWhile_eq (q : Char → Bool) : readWhile q = do
    if (← peek 0).any q then
      let c ← advance
      let cs ← readWhile q
      return c :: cs
    else return [] := by
  apply StateT.ext
  intro s
  have unfolded : (readWhile q).run s = _ := readWhile.eq_1 q s
  rw [unfolded]
  by_cases more : (s.peek 0).any q = true
  · rw [if_pos more]
    split
    · next fault read => simp [more, read, run_peek]
    · next c after read =>
      simp [more, read, run_peek]
      rfl
  · simp [more, run_peek]

theorem closeString_eq (quote : Char) : closeString quote = do
    if ← ended then return none
    else
      let c ← advance
      if c = '\\' then
        if ← ended then return none
        else
          let d ← advance
          let body ← closeString quote
          return body.map (c :: d :: ·)
      else if c = quote then return some []
      else
        let body ← closeString quote
        return body.map (c :: ·) := by
  apply StateT.ext
  intro s
  have unfolded : (closeString quote).run s = _ := closeString.eq_1 quote s
  rw [unfolded]
  by_cases finished : s.ended = true
  · simp [finished]
  rw [if_neg finished]
  split
  · next fault read => simp [finished, read]
  next c after read =>
  by_cases escape : c = '\\'
  · rw [if_pos escape]
    by_cases last : after.ended = true
    · simp [finished, read, escape, last]
    rw [if_neg last]
    split
    · next fault stuck => simp [finished, read, escape, last, stuck]
    · next d later kept =>
      simp [finished, read, escape, last, kept]
      rfl
  rw [if_neg escape]
  by_cases closing : c = quote
  · subst closing
    simp [finished, read, escape]
  · simp [finished, read, escape, closing]
    rfl

section Runs

open PlZero.Text.Stream

variable {done rest : List Char}

@[simp] theorem run_peek_between (k : Nat) :
    (peek k).run (between done rest) = .ok (rest[k]?, between done rest) := by
  rw [run_peek, peek_between]

@[simp] theorem run_readWhile (q : Char → Bool) :
    (readWhile q).run (between done rest) =
      .ok (rest.takeWhile q, between (done ++ rest.takeWhile q) (rest.dropWhile q)) := by
  induction rest generalizing done with
  | nil =>
    rw [readWhile_eq]
    simp
  | cons c rest ih =>
    rw [readWhile_eq]
    by_cases kept : q c = true
    · simp [kept, ih]
    · simp [kept]

theorem run_closeString (quote : Char) :
    (closeString quote).run (between done rest) = .ok (match Lexeme.closeString quote rest with
      | some (body, after) => (some body, between (done ++ (body ++ [quote])) after)
      | none => (none, between (done ++ rest) [])) := by
  induction rest using Lexeme.closeString.induct quote generalizing done with
  | case1 =>
    rw [closeString_eq]
    simp [Lexeme.closeString]
  | case2 =>
    rw [closeString_eq]
    simp [Lexeme.closeString]
  | case3 c cs ih =>
    rw [closeString_eq]
    cases closed : Lexeme.closeString quote cs with
    | none => simp [Lexeme.closeString, ih, closed]
    | some parts => simp [Lexeme.closeString, ih, closed]
  | case4 cs alone notEscape =>
    rw [closeString_eq]
    have plain : quote ≠ '\\' := Lexeme.ne_backslash alone notEscape
    simp [Lexeme.closeString, plain]
  | case5 c cs alone notEscape other ih =>
    rw [closeString_eq]
    have plain : c ≠ '\\' := Lexeme.ne_backslash alone notEscape
    cases closed : Lexeme.closeString quote cs with
    | none => simp [Lexeme.closeString, ih, closed, plain, other]
    | some parts => simp [Lexeme.closeString, ih, closed, plain, other]

/-- The scanner takes the lexeme from the text, wherever the text starts in the source. -/
def Reads (scanner : Scanner Reading) (text : List Char) (l : Lexeme) : Prop :=
  ∀ done, scanner.run (between done text) = .ok (l.reading, between (done ++ l.taken) l.rest)

theorem reads_word (text : List Char) : Reads word text (Lexeme.word text) := by
  intro done
  simp [word, Lexeme.word]

theorem reads_radix (base : Nat) (isDigit : Char → Bool) (text : List Char) :
    Reads (radix base isDigit) text (Lexeme.radix base [] isDigit text) := by
  intro done
  simp [radix, Lexeme.radix]

theorem reads_marked (base : Nat) (isDigit : Char → Bool) (zero mark : Char) (text : List Char) :
    Reads (do let _ ← advance; let _ ← advance; radix base isDigit) (zero :: mark :: text)
      (Lexeme.radix base [zero, mark] isDigit text) := by
  intro done
  have read := reads_radix base isDigit text (done ++ [zero, mark])
  simp only [List.append_assoc] at read
  simpa [Lexeme.radix] using read

theorem reads_decimal (text : List Char) : Reads decimal text (Lexeme.decimal text) := by
  intro done
  unfold decimal Lexeme.decimal
  cases stop : text.dropWhile Char.isDigit with
  | nil => simp [stop]
  | cons c after =>
    by_cases point : c = '.'
    · subst point
      cases after with
      | nil => simp [stop]
      | cons d after =>
        by_cases digit : d.isDigit = true
        · simp [stop, digit]
        · simp [stop, digit]
    · simp [stop, point]

theorem reads_number {c : Char} (cs : List Char) :
    Reads number (c :: cs) (Lexeme.number (c :: cs)) := by
  intro done
  by_cases zero : c = '0'
  · subst zero
    cases cs with
    | nil => simp [number, Lexeme.number]
    | cons mark after =>
      rw [Lexeme.number_zero_cons, List.head?_eq_getElem?]
      simp only [Bool.and_eq_true, Bool.or_eq_true, beq_iff_eq]
      split_ifs with octal hex binary point
      · have read := reads_radix 8 isOctalDigit ('0' :: mark :: after) done
        simpa [number, octal] using read
      · rw [← reads_marked 16 isHexDigit '0' mark after done]
        simp [number, octal, if_pos hex]
      · rw [← reads_marked 2 isBinaryDigit '0' mark after done]
        simp [number, octal, if_neg hex, if_pos binary]
      · subst point
        rw [← reads_decimal ('0' :: '.' :: after) done]
        simp [number, octal]
      · simp [number, octal, if_neg hex, if_neg binary, point]
  · have read := reads_decimal (c :: cs) done
    rw [Lexeme.number_of_ne_zero zero, ← read]
    simp [number, zero]

theorem reads_string {quote : Char} (text : List Char) :
    Reads string (quote :: text) (Lexeme.string quote text) := by
  intro done
  cases closed : Lexeme.closeString quote text with
  | none => simp [string, Lexeme.string, run_closeString, closed]
  | some parts => simp [string, Lexeme.string, run_closeString, closed]

theorem longestMark?_pair {c : Char} {kind : TokenKind} (pair : pairKind? c = some kind) :
    longestMark? [c, '='] = some ([c, '='], kind) := by
  simp [longestMark?, markKind?, pair]

theorem longestMark?_single {c : Char} (alone : pairKind? c = none ∨ Stops (· == '=') rest) :
    longestMark? (c :: rest[0]?.toList) =
      if Lexeme.symbolKind c = .invalid then none else some ([c], Lexeme.symbolKind c) := by
  have single : (markKind? [c]).map (([c], ·)) =
      if Lexeme.symbolKind c = .invalid then none else some ([c], Lexeme.symbolKind c) := by
    split_ifs with invalid <;> simp [markKind?, invalid]
  cases rest with
  | nil =>
    rw [← single]
    cases kind : markKind? [c] <;> simp [longestMark?, kind]
  | cons d rest =>
    have noPair : markKind? [c, d] = none := by
      by_cases equal : d = '='
      · subst equal
        rcases alone with none | stop
        · exact none
        · exact absurd (stop '=' rfl) (by decide)
      · simp [markKind?, equal]
    rw [← single]
    simp [longestMark?, noPair]

theorem reads_symbol (c : Char) (cs : List Char) :
    Reads symbol (c :: cs) (Lexeme.symbol c cs) := by
  intro done
  by_cases alone : pairKind? c = none ∨ Stops (· == '=') cs
  · have mark := longestMark?_single alone
    rw [Lexeme.symbol_single alone]
    by_cases invalid : Lexeme.symbolKind c = .invalid
    · simp [symbol, mark, invalid]
    · simp [symbol, mark, invalid]
  · obtain ⟨some, equal⟩ := not_or.1 alone
    obtain ⟨kind, pair⟩ := Option.ne_none_iff_exists'.1 some
    cases cs with
    | nil => exact absurd nofun equal
    | cons d cs =>
      have next : d = '=' := by simpa [Stops] using equal
      subst next
      rw [Lexeme.symbol_pair pair]
      simp [symbol, longestMark?_pair pair, -String.ofList_cons]

theorem reads_lexeme (c : Char) (cs : List Char) :
    Reads lexeme (c :: cs) (Lexeme.read c cs) := by
  intro done
  unfold Lexeme.read
  simp only [Bool.or_eq_true, beq_iff_eq]
  split_ifs with start digit quote
  · rw [← reads_word (c :: cs) done]
    simp [lexeme, start]
  · rw [← reads_number cs done]
    simp [lexeme, start, digit]
  · rw [← reads_string cs done]
    simp [lexeme, start, digit, quote]
  · rw [← reads_symbol c cs done]
    simp [lexeme, start, digit, if_neg quote]

theorem run_nextToken (done rest : List Char) : ∃ taken,
    rest = taken ++ (Cursor.mk rest (Position.after done)).next.2.rest ∧
    (Cursor.mk rest (Position.after done)).next.2.pos = Position.after (done ++ taken) ∧
    nextToken.run (between done rest) = .ok ((Cursor.mk rest (Position.after done)).next.1,
      between (done ++ taken) (Cursor.mk rest (Position.after done)).next.2.rest) := by
  have split := List.takeWhile_append_dropWhile (p := isBlank) (l := rest)
  have place : (Position.after done).advanceAll (rest.takeWhile isBlank) =
      Position.after (done ++ rest.takeWhile isBlank) := (Position.after_append _ _).symm
  have here (blanks more : List Char) : (between (done ++ blanks) more).pos =
      Position.after (done ++ blanks) := rfl
  cases ahead : rest.dropWhile isBlank with
  | nil =>
    have skipped : (Cursor.mk rest (Position.after done)).skipBlanks =
        ⟨[], Position.after (done ++ rest.takeWhile isBlank)⟩ := by
      simp only [Cursor.skipBlanks, ahead, place]
    refine ⟨rest.takeWhile isBlank, ?_⟩
    rw [Cursor.next_of_ended (congrArg Cursor.rest skipped), skipped]
    rw [ahead] at split
    simp [nextToken, ahead, here, split]
  | cons d ds =>
    have skipped : (Cursor.mk rest (Position.after done)).skipBlanks =
        ⟨d :: ds, Position.after (done ++ rest.takeWhile isBlank)⟩ := by
      simp only [Cursor.skipBlanks, ahead, place]
    have next : (Cursor.mk rest (Position.after done)).next =
        ((Lexeme.read d ds).token (Position.after (done ++ rest.takeWhile isBlank)),
          ⟨(Lexeme.read d ds).rest, (Position.after (done ++ rest.takeWhile isBlank)).advanceAll
            (Lexeme.read d ds).taken⟩) := by
      simp only [Cursor.next, skipped]
    have whole := Lexeme.taken_append_rest d ds
    have read := reads_lexeme d ds (done ++ rest.takeWhile isBlank)
    refine ⟨rest.takeWhile isBlank ++ (Lexeme.read d ds).taken, ?_, ?_, ?_⟩
    · rw [next, List.append_assoc, whole, ← ahead, split]
    · rw [next, ← List.append_assoc, Position.after_append _ (Lexeme.read d ds).taken]
    · rw [next]
      cases reading : (Lexeme.read d ds).reading with
      | ok token => simp [nextToken, ahead, read, here, Lexeme.token, reading]
      | error flaw => simp [nextToken, ahead, read, here, Lexeme.token, reading]

end Runs

end Scanner

end Text

end PlZero
