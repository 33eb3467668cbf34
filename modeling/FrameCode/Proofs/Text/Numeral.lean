import FrameCode.Proofs.Text.Layout
import FrameCode.Proofs.Text.Spelling
import Mathlib.Data.List.Induction

/-! Decimal numerals as a grammar with exact values, and what is left of a text without the blanks
around it. Each reader accepts what its grammar says and gives the exact value
(`Decimal.natural?_eq_some_iff` and those that follow it). -/

namespace FrameCode.Text

/-! ## Texts without the blanks around them -/

/-- What is left once the characters of a set are taken from both ends. -/
structure Stripped (set : Char → Prop) (cs core : List Char) : Prop where
  surrounded : Surrounded set core cs
  head : ∀ c, core.head? = some c → ¬set c
  last : ∀ c, core.getLast? = some c → ¬set c

theorem surrounded_trim (set : Char → Bool) (cs : List Char) :
    Surrounded (set · = true) (trim set cs) cs := by
  have hend := List.takeWhile_append_dropWhile (p := set) (l := (cs.dropWhile set).reverse)
  refine ⟨cs.takeWhile set, ((cs.dropWhile set).reverse.takeWhile set).reverse, ?_, ?_, ?_⟩
  · rw [List.append_assoc, trim, ← List.reverse_append, hend, List.reverse_reverse,
      List.takeWhile_append_dropWhile]
  · exact List.all_eq_true.mp List.all_takeWhile
  · intro c hc
    exact List.all_eq_true.mp List.all_takeWhile c (List.mem_reverse.mp hc)

theorem stripped_iff {set : Char → Bool} {cs core : List Char} :
    Stripped (set · = true) cs core ↔ core = trim set cs := by
  constructor
  · intro h
    rw [trim_surrounded h.surrounded]
    refine (trim_eq_self ?_ ?_).symm
    · exact fun c hc => Bool.eq_false_iff.mpr (h.head c hc)
    · exact fun c hc => Bool.eq_false_iff.mpr (h.last c hc)
  · rintro rfl
    refine ⟨surrounded_trim set cs, ?_, ?_⟩
    · exact fun c hc => Bool.eq_false_iff.mp (head?_trim hc)
    · exact fun c hc => Bool.eq_false_iff.mp (getLast?_trim hc)

/-- The characters that may surround an operand's text. -/
theorem isPadding_iff {c : Char} :
    isPadding c = true ↔ c ∈ [' ', '\t', '\n', '\x0c', '\r', '\x00', '\x0b'] := by
  simp only [isPadding, isWordBlank, Bool.or_eq_true, beq_iff_eq, List.mem_cons, List.not_mem_nil,
    or_false, or_assoc]

/-! ## Digits -/

/-- One or more ASCII digits, with the number that they stand for. -/
inductive Digits : List Char → Nat → Prop
  | single {d : Nat} (digit : d < 10) : Digits [Nat.digitChar d] d
  | snoc {cs : List Char} {n d : Nat} (front : Digits cs n) (digit : d < 10) :
    Digits (cs ++ [Nat.digitChar d]) (10 * n + d)

/-- Digits after an optional sign, with the number that they stand for. -/
inductive Numeral : List Char → Int → Prop
  | unsigned {cs : List Char} {n : Nat} (digits : Digits cs n) : Numeral cs n
  | plus {cs : List Char} {n : Nat} (digits : Digits cs n) : Numeral ('+' :: cs) n
  | minus {cs : List Char} {n : Nat} (digits : Digits cs n) : Numeral ('-' :: cs) (-n)

theorem Digits.isDigit_of_mem {cs : List Char} {n : Nat} (h : Digits cs n) :
    ∀ c ∈ cs, c.isDigit = true := by
  induction h with
  | single digit =>
    intro c hc
    rw [List.mem_singleton.mp hc, Nat.isDigit_digitChar, decide_eq_true digit]
  | snoc _ digit ih =>
    intro c hc
    rcases List.mem_append.mp hc with hc | hc
    · exact ih c hc
    · rw [List.mem_singleton.mp hc, Nat.isDigit_digitChar, decide_eq_true digit]

theorem Digits.ne_nil {cs : List Char} {n : Nat} (h : Digits cs n) : cs ≠ [] := by
  cases h <;> simp

theorem not_numeral_nil (n : Int) : ¬Numeral [] n := by
  intro h
  cases h with
  | unsigned digits => exact digits.ne_nil rfl

namespace Decimal

theorem exists_digit_of_isDigit {c : Char} (h : c.isDigit = true) :
    ∃ d < 10, c = Nat.digitChar d := by
  obtain ⟨hlow, hhigh⟩ := Char.isDigit_iff_toNat.mp h
  have hzero : '0'.toNat = 48 := rfl
  have hnine : '9'.toNat = 57 := rfl
  refine ⟨c.toNat - 48, by omega, ?_⟩
  rw [← Char.toNat_inj, Nat.toNat_digitChar_of_lt_ten (by omega)]
  omega

theorem ofDigitChars_snoc (cs : List Char) {d : Nat} (h : d < 10) :
    Nat.ofDigitChars 10 (cs ++ [Nat.digitChar d]) 0 = 10 * Nat.ofDigitChars 10 cs 0 + d := by
  have hdigit : (Nat.digitChar d).toNat - '0'.toNat = d := by
    have hzero : '0'.toNat = 48 := rfl
    rw [Nat.toNat_digitChar_of_lt_ten h]
    omega
  rw [Nat.ofDigitChars_append, Nat.ofDigitChars_cons, Nat.ofDigitChars_nil, hdigit]

theorem ofDigitChars_of_digits {cs : List Char} {n : Nat} (h : Digits cs n) :
    Nat.ofDigitChars 10 cs 0 = n := by
  induction h with
  | single digit =>
    have hsnoc := ofDigitChars_snoc [] digit
    rw [Nat.ofDigitChars_nil, Nat.mul_zero, Nat.zero_add] at hsnoc
    exact hsnoc
  | snoc _ digit ih => rw [ofDigitChars_snoc _ digit, ih]

/-- Digits from the first to the last, by induction on what stands before the last one. -/
theorem digits_of_isDigit {cs : List Char} (hne : cs ≠ []) (h : ∀ c ∈ cs, c.isDigit = true) :
    Digits cs (Nat.ofDigitChars 10 cs 0) := by
  induction cs using List.reverseRecOn with
  | nil => exact absurd rfl hne
  | append_singleton front c ih =>
    obtain ⟨d, hd, rfl⟩ := exists_digit_of_isDigit (h c (by simp))
    rw [ofDigitChars_snoc front hd]
    by_cases hfront : front = []
    · subst hfront
      simpa using Digits.single hd
    · exact .snoc (ih hfront fun c hc => h c (List.mem_append_left _ hc)) hd

/-! ## Readers -/

theorem natural?_eq_some_iff {cs : List Char} {n : Nat} : natural? cs = some n ↔ Digits cs n := by
  unfold natural?
  constructor
  · intro h
    split at h
    · next hdigits =>
      cases h
      exact digits_of_isDigit hdigits.1 (List.all_eq_true.mp hdigits.2)
    · cases h
  · intro h
    rw [if_pos ⟨h.ne_nil, List.all_eq_true.mpr h.isDigit_of_mem⟩, ofDigitChars_of_digits h]

theorem order?_eq_some_iff {cs : List Char} {n : Nat} :
    order? cs = some n ↔ Digits cs n ∧ 1 ≤ n ∧ n < UInt64.size := by
  rw [order?, Option.filter_eq_some_iff, natural?_eq_some_iff, Bool.and_eq_true, decide_eq_true_eq,
    decide_eq_true_eq]

/-- The digits behind a sign, read as an integer. -/
theorem map_natural?_eq_some_iff {cs : List Char} {f : Int → Int} {n : Int} :
    (natural? cs : Option Int).map f = some n ↔ ∃ k : Nat, Digits cs k ∧ f k = n := by
  simp only [← natural?_eq_some_iff]
  cases natural? cs <;> simp

theorem integer?_eq_some_iff {cs : List Char} {n : Int} :
    integer? cs = some n ↔ Numeral cs n := by
  constructor
  · intro h
    unfold integer? at h
    split at h
    · obtain ⟨k, digits, rfl⟩ := map_natural?_eq_some_iff.mp h
      exact .minus digits
    · obtain ⟨k, digits, rfl⟩ := map_natural?_eq_some_iff.mp h
      exact .plus digits
    · obtain ⟨k, digits, rfl⟩ := map_natural?_eq_some_iff.mp h
      exact .unsigned digits
  · intro h
    cases h with
    | minus digits => exact map_natural?_eq_some_iff.mpr ⟨_, digits, rfl⟩
    | plus digits => exact map_natural?_eq_some_iff.mpr ⟨_, digits, rfl⟩
    | unsigned digits =>
      unfold integer?
      -- a sign is no digit
      split
      · exact absurd (digits.isDigit_of_mem _ List.mem_cons_self) (by decide)
      · exact absurd (digits.isDigit_of_mem _ List.mem_cons_self) (by decide)
      · exact map_natural?_eq_some_iff.mpr ⟨_, digits, rfl⟩

/-- A word is read from the numerals of its own value, and of no other. -/
theorem word?_eq_some_iff {cs : List Char} {n : Int64} :
    word? cs = some n ↔ Numeral cs n.toInt := by
  rw [word?, Option.bind_eq_some_iff]
  constructor
  · rintro ⟨k, hk, h⟩
    split at h
    · next hrange =>
      cases h
      rw [Int64.toInt_ofInt_of_le hrange.1 (Int.lt_of_le_of_lt hrange.2 (by decide))]
      exact integer?_eq_some_iff.mp hk
    · cases h
  · intro h
    refine ⟨n.toInt, integer?_eq_some_iff.mpr h, ?_⟩
    rw [if_pos ⟨n.minValue_le_toInt, n.toInt_le⟩, Int64.ofInt_toInt]

theorem word?_eq_none {cs : List Char} (h : ∀ n : Int64, ¬Numeral cs n.toInt) : word? cs = none :=
  Option.eq_none_iff_forall_not_mem.mpr fun n hn => h n (word?_eq_some_iff.mp hn)

end Decimal

end FrameCode.Text
