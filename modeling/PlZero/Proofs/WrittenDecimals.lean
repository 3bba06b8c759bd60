import PlZero.Proofs.DecimalReading
import PlZero.Proofs.NumeralTexts

set_option autoImplicit false

namespace PlZero.Number

section Digits

variable {ds : List Char}

theorem decimalValue_append (ds es : List Char) :
    decimalValue (ds ++ es) = decimalValue ds * 10 ^ es.length + decimalValue es := by
  rw [decimalValue, Nat.ofDigitChars_append, Nat.ofDigitChars_eq_ofDigitChars_zero, Nat.mul_comm]
  rfl

@[simp] theorem decimalValue_zeros (n : Nat) : decimalValue (List.replicate n '0') = 0 := by
  induction n with
  | zero => rfl
  | succ n ih => rw [List.replicate_succ', decimalValue_append, ih]; rfl

theorem decimalValue_padded (i j : Nat) (ds : List Char) :
    decimalValue (List.replicate i '0' ++ ds ++ List.replicate j '0') =
      decimalValue ds * 10 ^ j := by
  simp [decimalValue_append]

theorem decimalValue_lt (digits : ∀ c ∈ ds, c.isDigit = true) :
    decimalValue ds < 10 ^ ds.length := by
  induction ds using List.reverseRecOn with
  | nil => decide
  | append_singleton ds c ih =>
    have before := ih fun a mem => digits a (List.mem_append_left _ mem)
    have range : 48 ≤ c.toNat ∧ c.toNat ≤ 57 := Char.isDigit_iff_toNat.1 (digits c (by simp))
    have last : decimalValue [c] = c.toNat - 48 := by simp [decimalValue, Nat.ofDigitChars_cons]
    rw [decimalValue_append, last, List.length_append, List.length_singleton, pow_one, pow_succ]
    omega

theorem stripZeros_append (ds : List Char) :
    ∃ n, ds = stripZeros ds ++ List.replicate n '0' := by
  have zeros : ∀ c ∈ ds.reverse.takeWhile (· == '0'), c = '0' := by
    intro c mem
    simpa using List.mem_takeWhile_imp mem
  refine ⟨(ds.reverse.takeWhile (· == '0')).length, ?_⟩
  rw [stripZeros, ← List.reverse_replicate, ← List.eq_replicate_of_mem zeros,
    ← List.reverse_append, List.takeWhile_append_dropWhile, List.reverse_reverse]

end Digits

namespace Layout

variable {digits : List Char} {count : Nat} {magnitude : Int}

/-- A text with significant digits, zeros around them, and a last place that makes up for the
zeros. -/
def Shows (digits : List Char) (magnitude : Int) (negative : Bool) (text : List Char) : Prop :=
  ∃ (i j : Nat) (whole fraction : List Char) (e : Int),
    NumeralText negative whole fraction e text ∧
      whole ++ fraction = List.replicate i '0' ++ digits ++ List.replicate j '0' ∧
      e - fraction.length + j = magnitude + 1 - digits.length

theorem zeros_eq (n : Int) : zeros n = List.replicate n.toNat '0' := rfl

theorem isDigit_of_mem_zeros {n : Int} {c : Char} (mem : c ∈ zeros n) : c.isDigit = true := by
  rw [List.eq_of_mem_replicate mem]
  rfl

theorem exponentText_mark (e : Int) : ExponentText e ('E' :: exponentText e) := by
  have digits : ∀ c ∈ zeros (2 - (Nat.toDigits 10 e.natAbs).length) ++ Nat.toDigits 10 e.natAbs,
      c.isDigit = true := by
    rw [List.forall_mem_append]
    exact ⟨fun c => isDigit_of_mem_zeros,
      fun c => Nat.isDigit_of_mem_toDigits (by decide) (by decide)⟩
  have some : zeros (2 - (Nat.toDigits 10 e.natAbs).length) ++ Nat.toDigits 10 e.natAbs ≠ [] := by
    simp [Nat.toDigits_ne_nil]
  have value : decimalValue (zeros (2 - (Nat.toDigits 10 e.natAbs).length) ++
      Nat.toDigits 10 e.natAbs) = e.natAbs := by
    rw [zeros_eq, decimalValue_append, decimalValue_zeros, decimalValue_toDigits, Nat.zero_mul,
      Nat.zero_add]
  have sign : SignText (decide (e < 0)) [if e < 0 then '-' else '+'] := by
    by_cases negative : e < 0
    · rw [if_pos negative, decide_eq_true negative]
      exact .minus
    · rw [if_neg negative, decide_eq_false negative]
      exact .plus
  have signed : Floating.signed (decide (e < 0)) e.natAbs = e := by
    by_cases negative : e < 0 <;> simp only [Floating.signed, negative, decide_true, decide_false,
      if_true, Bool.false_eq_true, if_false] <;> omega
  have text := ExponentText.mark (.inr rfl) sign some digits
  rw [value, signed] at text
  exact text

section Write

variable {negative : Bool} {sign : List Char}

theorem shows_fraction (signed : SignText negative sign)
    (run : ∀ c ∈ digits, c.isDigit = true) (below : magnitude < 0) :
    Shows digits magnitude negative
      (sign ++ '0' :: '.' :: (zeros (-magnitude - 1) ++ digits)) := by
  have fraction : ∀ c ∈ zeros (-magnitude - 1) ++ digits, c.isDigit = true :=
    List.forall_mem_append.2 ⟨fun c => isDigit_of_mem_zeros, run⟩
  have whole : ∀ c ∈ ['0'], c.isDigit = true := List.forall_mem_singleton.2 rfl
  refine ⟨(-magnitude - 1).toNat + 1, 0, ['0'], zeros (-magnitude - 1) ++ digits, 0, ?_, ?_, ?_⟩
  · have text := NumeralText.mk signed whole (.point fraction) .none (List.cons_ne_nil _ _)
    rwa [List.append_nil] at text
  · rw [zeros_eq, List.replicate_succ, List.replicate_zero, List.append_nil]
    rfl
  · simp only [zeros_eq, List.length_append, List.length_replicate]
    omega

theorem shows_whole (signed : SignText negative sign) (some : digits ≠ [])
    (run : ∀ c ∈ digits, c.isDigit = true) (all : (digits.length : Int) ≤ magnitude + 1) :
    Shows digits magnitude negative
      (sign ++ (digits ++ zeros (magnitude + 1 - digits.length))) := by
  have whole : ∀ c ∈ digits ++ zeros (magnitude + 1 - digits.length), c.isDigit = true :=
    List.forall_mem_append.2 ⟨run, fun c => isDigit_of_mem_zeros⟩
  refine ⟨0, (magnitude + 1 - digits.length).toNat,
    digits ++ zeros (magnitude + 1 - digits.length), [], 0, ?_, ?_, ?_⟩
  · have text := NumeralText.mk signed whole .none .none (by simp [some])
    rwa [List.append_nil, List.append_nil] at text
  · rw [zeros_eq, List.append_nil, List.replicate_zero, List.nil_append]
  · rw [List.length_nil]
    omega

theorem shows_point (signed : SignText negative sign) (some : digits ≠ [])
    (run : ∀ c ∈ digits, c.isDigit = true) (low : 0 ≤ magnitude)
    (more : magnitude + 1 < digits.length) :
    Shows digits magnitude negative
      (sign ++
        (digits.take (magnitude + 1).toNat ++ '.' :: digits.drop (magnitude + 1).toNat)) := by
  have parts := List.take_append_drop (magnitude + 1).toNat digits
  have whole : ∀ c ∈ digits.take (magnitude + 1).toNat, c.isDigit = true :=
    fun c mem => run c (List.mem_of_mem_take mem)
  have fraction : ∀ c ∈ digits.drop (magnitude + 1).toNat, c.isDigit = true :=
    fun c mem => run c (List.mem_of_mem_drop mem)
  refine ⟨0, 0, digits.take (magnitude + 1).toNat, digits.drop (magnitude + 1).toNat, 0, ?_, ?_, ?_⟩
  · have text := NumeralText.mk signed whole (.point fraction) .none (parts.symm ▸ some)
    rwa [List.append_nil] at text
  · rw [parts, List.replicate_zero, List.nil_append, List.append_nil]
  · rw [List.length_drop]
    omega

theorem shows_exponent (signed : SignText negative sign) (some : digits ≠ [])
    (run : ∀ c ∈ digits, c.isDigit = true) (magnitude : Int) :
    Shows digits magnitude negative
      (sign ++ (digits.take 1 ++ (if (digits.drop 1).isEmpty then [] else '.' :: digits.drop 1) ++
        'E' :: exponentText magnitude)) := by
  have parts := List.take_append_drop 1 digits
  have whole : ∀ c ∈ digits.take 1, c.isDigit = true :=
    fun c mem => run c (List.mem_of_mem_take mem)
  have fraction : FractionText (digits.drop 1)
      (if (digits.drop 1).isEmpty then [] else '.' :: digits.drop 1) := by
    split
    · next empty =>
      rw [List.isEmpty_iff.1 empty]
      exact .none
    · exact .point fun c mem => run c (List.mem_of_mem_drop mem)
  refine ⟨0, 0, digits.take 1, digits.drop 1, magnitude, ?_, ?_, ?_⟩
  · have text := NumeralText.mk signed whole fraction (exponentText_mark magnitude)
      (parts.symm ▸ some)
    rwa [← List.append_assoc (digits.take 1)] at text
  · rw [parts, List.replicate_zero, List.nil_append, List.append_nil]
  · have pos : 0 < digits.length := List.length_pos_iff.2 some
    rw [List.length_drop]
    omega

theorem shows_write (signed : SignText negative sign) (some : digits ≠ [])
    (run : ∀ c ∈ digits, c.isDigit = true) (count : Nat) (magnitude : Int) :
    Shows digits magnitude negative
      (sign ++ (Floating.renderLayout count).write digits magnitude) := by
  unfold Layout.write
  split
  · split
    · next below => exact shows_fraction signed run below
    split
    · next all =>
      rw [Floating.renderLayout, List.append_nil]
      exact shows_whole signed some run all
    · exact shows_point signed some run (by omega) (by omega)
  · exact shows_exponent signed some run magnitude

end Write

theorem Shows.exists_value {negative : Bool} {text : List Char}
    (shows : Shows digits magnitude negative text) :
    ∃ d : Decimal, singleOfText (String.ofList text) = d.toSingle negative ∧
      d.value = decimalValue digits * 10 ^ (magnitude + 1 - digits.length : Int) := by
  obtain ⟨i, j, whole, fraction, e, numeral, padded, place⟩ := shows
  refine ⟨_, singleOfText_of_numeral numeral, ?_⟩
  rw [Decimal.value, padded, decimalValue_padded, ← place, zpow_add₀ (by norm_num), zpow_natCast]
  push_cast
  ring

end Layout

namespace Decimal

variable (d : Decimal)

def shown : List Char := if d.digits = 0 then ['0'] else stripZeros (Nat.toDigits 10 d.digits)

theorem exists_shown (some : d.digits ≠ 0) :
    ∃ n, Nat.toDigits 10 d.digits = d.shown ++ List.replicate n '0' := by
  rw [shown, if_neg some]
  exact stripZeros_append _

theorem shown_run : d.shown ≠ [] ∧ ∀ c ∈ d.shown, c.isDigit = true := by
  by_cases none : d.digits = 0
  · rw [shown, if_pos none]
    exact ⟨nofun, List.forall_mem_singleton.2 rfl⟩
  · obtain ⟨n, digits⟩ := d.exists_shown none
    constructor
    · intro empty
      rw [empty, List.nil_append] at digits
      have value := decimalValue_toDigits d.digits
      rw [digits, decimalValue_zeros] at value
      exact none value.symm
    · intro c mem
      have mem : c ∈ Nat.toDigits 10 d.digits := digits ▸ List.mem_append_left _ mem
      exact Nat.isDigit_of_mem_toDigits (by decide) (by decide) mem

theorem value_eq_shown (some : d.digits ≠ 0) :
    d.value = decimalValue d.shown * 10 ^ (d.magnitude + 1 - d.shown.length : Int) := by
  obtain ⟨n, digits⟩ := d.exists_shown some
  have value := decimalValue_toDigits d.digits
  have length := congrArg List.length digits
  rw [List.length_append, List.length_replicate] at length
  rw [digits, decimalValue_append, decimalValue_zeros, Nat.add_zero, List.length_replicate] at value
  have place : (d.magnitude + 1 - d.shown.length : Int) = n + d.exponent := by
    rw [magnitude, length]
    push_cast
    ring
  rw [Decimal.value, ← value, place, zpow_add₀ (by norm_num), zpow_natCast]
  push_cast
  ring

theorem shows_write (negative : Bool) (count : Nat) :
    ∃ magnitude : Int,
      Layout.Shows d.shown magnitude negative (d.write (Floating.renderLayout count) negative) ∧
        d.value = decimalValue d.shown * 10 ^ (magnitude + 1 - d.shown.length : Int) := by
  have signed : SignText negative (if negative then ['-'] else []) := by
    cases negative <;> constructor
  have text (magnitude : Int) :=
    Layout.shows_write signed d.shown_run.1 d.shown_run.2 count magnitude
  by_cases none : d.digits = 0
  · refine ⟨0, ?_, ?_⟩
    · have text := text 0
      rw [shown, if_pos none] at text ⊢
      rw [write, if_pos none]
      cases negative <;> exact text
    · have zero : decimalValue ['0'] = 0 := rfl
      simp [Decimal.value, shown, none, zero]
  · refine ⟨d.magnitude, ?_, d.value_eq_shown none⟩
    have text := text d.magnitude
    rw [shown, if_neg none] at text ⊢
    rw [write, if_neg none]
    cases negative <;> exact text

theorem singleOfText_write (negative : Bool) (count : Nat) :
    singleOfText (String.ofList (d.write (Floating.renderLayout count) negative)) =
      d.toSingle negative := by
  obtain ⟨magnitude, shows, value⟩ := d.shows_write negative count
  obtain ⟨d', read, value'⟩ := shows.exists_value
  rw [read]
  exact toSingle_congr (value'.trans value.symm) negative

end Decimal

end PlZero.Number
