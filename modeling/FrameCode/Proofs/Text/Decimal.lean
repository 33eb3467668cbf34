import FrameCode.Text.Decimal

/-! Decimal numbers read back: the digits of an order and the text of a word give the
number again. -/

namespace FrameCode.Text.Decimal

/-- Digits are no blanks and start no comment. -/
theorem solid_of_isDigit {c : Char} (h : c.isDigit = true) : 32 < c.toNat ∧ c ≠ '#' := by
  have hrange := Char.isDigit_iff_toNat.mp h
  have hzero : '0'.toNat = 48 := rfl
  refine ⟨by omega, fun heq => ?_⟩
  rw [heq] at h
  exact absurd h (by decide)

theorem isDigit_of_mem_ofNat {n : Nat} {c : Char} (h : c ∈ (ofNat n).toList) : c.isDigit = true := by
  rw [ofNat, String.toList_ofList] at h
  exact Nat.isDigit_of_mem_toDigits (by decide) (by decide) h

theorem natural?_ofNat (n : Nat) : natural? (ofNat n).toList = some n := by
  have hdigits : (Nat.toDigits 10 n).all Char.isDigit = true := by
    rw [List.all_eq_true]
    intro c hc
    exact Nat.isDigit_of_mem_toDigits (by decide) (by decide) hc
  rw [ofNat, String.toList_ofList, natural?, if_pos ⟨Nat.toDigits_ne_nil, hdigits⟩,
    Nat.ofDigitChars_ten_toDigits]

theorem order?_ofNat {n : Nat} (hpos : 1 ≤ n) (hlt : n < UInt64.size) : order? (ofNat n).toList = some n := by
  rw [order?, natural?_ofNat]
  exact Option.filter_eq_some_iff.mpr ⟨rfl, by rw [decide_eq_true hpos, decide_eq_true hlt]; rfl⟩

theorem bounds_of_order? {cs : List Char} {n : Nat} (h : order? cs = some n) : 1 ≤ n ∧ n < UInt64.size := by
  have hrange := (Option.filter_eq_some_iff.mp h).2
  rw [Bool.and_eq_true, decide_eq_true_eq, decide_eq_true_eq] at hrange
  exact hrange

/-- What starts with a digit has no sign. -/
theorem integer?_ofNat (n : Nat) : integer? (ofNat n).toList = some (n : Int) := by
  have hread := natural?_ofNat n
  have hfirst := @isDigit_of_mem_ofNat n
  generalize (ofNat n).toList = cs at hread hfirst
  unfold integer?
  split
  · exact absurd (hfirst List.mem_cons_self) (by decide)
  · exact absurd (hfirst List.mem_cons_self) (by decide)
  · rw [hread]
    rfl

theorem integer?_ofWord (n : Int64) : integer? (ofWord n).toList = some n.toInt := by
  unfold ofWord
  split
  · next hneg =>
    have hlt : n.toInt < 0 := Int64.lt_iff_toInt_lt.mp hneg
    rw [String.toList_append, show "-".toList = ['-'] from rfl, List.singleton_append, integer?,
      natural?_ofNat]
    show some (-(n.toInt.natAbs : Int)) = some n.toInt
    congr 1
    omega
  · next hneg =>
    have hnn : ¬n.toInt < 0 := fun h => hneg (Int64.lt_iff_toInt_lt.mpr h)
    rw [integer?_ofNat]
    congr 1
    omega

theorem word?_ofWord (n : Int64) : word? (ofWord n).toList = some n := by
  rw [word?, integer?_ofWord, Option.bind_some, if_pos ⟨n.minValue_le_toInt, n.toInt_le⟩, Int64.ofInt_toInt]

theorem ofWord_ne_nil (n : Int64) : (ofWord n).toList ≠ [] := by
  intro hnil
  have hread := integer?_ofWord n
  rw [hnil] at hread
  cases hread

theorem mem_ofWord {n : Int64} {c : Char} (h : c ∈ (ofWord n).toList) : c = '-' ∨ c.isDigit = true := by
  unfold ofWord at h
  split at h
  · rw [String.toList_append, List.mem_append] at h
    exact h.imp List.mem_singleton.mp isDigit_of_mem_ofNat
  · exact .inr (isDigit_of_mem_ofNat h)

end FrameCode.Text.Decimal
