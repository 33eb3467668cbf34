import FrameCode.Proofs.Operation
import Mathlib.Data.Int.ModEq

/-! Arithmetic on 64-bit words. A word is known by its residue (`Word.eq_of_wraps`), so that a sum, a
difference and a product wrap around to one word only. A quotient is the truncated one, which is a
word but for the least word divided by -1. -/

namespace FrameCode

/-! ## Words and residues -/

namespace Word

/-- The word is congruent to the integer modulo 2^64. -/
def Wraps (word : Int64) (exact : Int) : Prop := word.toInt ≡ exact [ZMOD Int64.size]

theorem wraps_of_toInt_eq_bmod {word : Int64} {exact : Int}
    (h : word.toInt = exact.bmod Int64.size) : Wraps word exact := by
  unfold Wraps Int.ModEq
  rw [h, Int.bmod_emod]

theorem eq_of_wraps {word other : Int64} {exact : Int} (h : Wraps word exact)
    (hother : Wraps other exact) : word = other := by
  have hresidue : word.toInt % Int64.size = other.toInt % Int64.size := h.trans hother.symm
  rw [← Int64.toInt_inj]
  calc
    word.toInt = (word.toInt % Int64.size).bmod Int64.size := by
      rw [Int.emod_bmod, Int64.toInt_bmod_size]
    _ = (other.toInt % Int64.size).bmod Int64.size := by rw [hresidue]
    _ = other.toInt := by rw [Int.emod_bmod, Int64.toInt_bmod_size]

end Word

/-! ## Operators -/

namespace Binary

/-- The result is the one word that is congruent to the integer. -/
def GivesWord (r : Except Fault Value) (exact : Int) : Prop :=
  ∃ word : Int64, r = .ok (.int word) ∧ Word.Wraps word exact ∧
    ∀ other, Word.Wraps other exact → other = word

theorem givesWord_of_toInt_eq_bmod {word : Int64} {exact : Int}
    (h : word.toInt = exact.bmod Int64.size) : GivesWord (.ok (.int word)) exact := by
  have hwraps := Word.wraps_of_toInt_eq_bmod h
  exact ⟨word, rfl, hwraps, fun other hother => Word.eq_of_wraps hother hwraps⟩

theorem givesWord_add (a b : Int64) :
    GivesWord (add.eval (.int a) (.int b)) (a.toInt + b.toInt) :=
  givesWord_of_toInt_eq_bmod (Int64.toInt_add a b)

theorem givesWord_sub (a b : Int64) :
    GivesWord (sub.eval (.int a) (.int b)) (a.toInt - b.toInt) :=
  givesWord_of_toInt_eq_bmod (Int64.toInt_sub a b)

theorem givesWord_mul (a b : Int64) :
    GivesWord (mul.eval (.int a) (.int b)) (a.toInt * b.toInt) :=
  givesWord_of_toInt_eq_bmod (Int64.toInt_mul a b)

theorem eval_idiv (a b : Int64) : idiv.eval (.int a) (.int b) =
    if b = 0 then .error .divisionByZero else .ok (.int (a / b)) := by
  by_cases hb : b = 0
  · simp only [eval, arithmetic, Value.expectInt, bind, Except.bind, if_pos hb]
  · simp only [eval, arithmetic, Value.expectInt, bind, Except.bind, if_neg hb]
    rfl

/-! ## Quotients -/

/-- The truncated quotient is a word but in one case. -/
theorem toInt_div_eq_tdiv {a b : Int64} (h : ¬(a = Int64.minValue ∧ b = -1)) :
    (a / b).toInt = a.toInt.tdiv b.toInt := by
  by_cases ha : a = Int64.minValue
  · exact Int64.toInt_div_of_ne_right a b fun hb => h ⟨ha, hb⟩
  · exact Int64.toInt_div_of_ne_left a b ha

theorem natAbs_tmod_lt (a : Int) {b : Int} (hb : b ≠ 0) : (a.tmod b).natAbs < b.natAbs := by
  rw [Int.natAbs_tmod]
  exact Nat.mod_lt _ (Int.natAbs_pos.mpr hb)

theorem tmod_eq_zero_or_sign (a b : Int) : a.tmod b = 0 ∨ (a.tmod b).sign = a.sign := by
  rw [Int.sign_tmod]
  split
  · next hdvd => exact .inl (Int.tmod_eq_zero_of_dvd hdvd)
  · exact .inr rfl

/-- Quotient and remainder give the dividend back, exactly but in the case that wraps. -/
theorem div_mul_add_tmod_iff (a b : Int64) :
    a.toInt = (a / b).toInt * b.toInt + a.toInt.tmod b.toInt ↔
      ¬(a = Int64.minValue ∧ b = -1) := by
  constructor
  · rintro hexact ⟨rfl, rfl⟩
    exact absurd hexact (by decide)
  · intro h
    rw [toInt_div_eq_tdiv h, Int.tdiv_mul_add_tmod]

theorem div_mul_add_tmod_modEq (a b : Int64) :
    a.toInt ≡ (a / b).toInt * b.toInt + a.toInt.tmod b.toInt [ZMOD Int64.size] := by
  by_cases h : a = Int64.minValue ∧ b = -1
  · obtain ⟨rfl, rfl⟩ := h
    decide
  · rw [← (div_mul_add_tmod_iff a b).mpr h]

/-- **Arithmetic wraps around.** ADD, SUB and MUL give the one word that is congruent to the exact
sum, difference and product, so that SUB undoes ADD and MUL distributes over ADD. IDIV fails with
code 57 exactly when the divisor is zero. Otherwise the dividend is congruent to quotient times
divisor plus a remainder below the divisor that is zero or has the sign of the dividend, and equal
to it but for the least word divided by -1, which gives the least word again. The instructions of
both forms give these results or fail with the same fault. -/
theorem arithmetic_wraps (a b c : Int64) :
    GivesWord (add.eval (.int a) (.int b)) (a.toInt + b.toInt) ∧
    GivesWord (sub.eval (.int a) (.int b)) (a.toInt - b.toInt) ∧
    GivesWord (mul.eval (.int a) (.int b)) (a.toInt * b.toInt) ∧
    (do sub.eval (← add.eval (.int a) (.int b)) (.int b)) = .ok (.int a) ∧
    (do mul.eval (.int a) (← add.eval (.int b) (.int c))) =
      (do add.eval (← mul.eval (.int a) (.int b)) (← mul.eval (.int a) (.int c))) ∧
    (coded (idiv.eval (.int a) (.int b)) = .error 57 ↔ b = 0) ∧
    (b ≠ 0 → ∃ (q : Int64) (r : Int), idiv.eval (.int a) (.int b) = .ok (.int q) ∧
      a.toInt ≡ q.toInt * b.toInt + r [ZMOD Int64.size] ∧ r.natAbs < b.toInt.natAbs ∧
      (r = 0 ∨ r.sign = a.toInt.sign) ∧
      (a.toInt = q.toInt * b.toInt + r ↔ ¬(a = Int64.minValue ∧ b = -1)) ∧
      (a = Int64.minValue → b = -1 → q = Int64.minValue)) ∧
    ∀ op ∈ [add, sub, mul, idiv], ∀ (m : Machine) (labels : LabelTable) (i : Instruction),
      (∀ v, m.Applies i op v (.int a) (.int b) →
        m.Delivers labels i (.variable v) (op.eval (.int a) (.int b))) ∧
      ∀ rest, m.AppliesStack i op (.int a) (.int b) rest →
        m.Delivers labels i (.stack rest) (op.eval (.int a) (.int b)) := by
  refine ⟨givesWord_add a b, givesWord_sub a b, givesWord_mul a b, ?_, ?_, ?_, fun hb => ?_,
    fun op _ m labels i => ⟨fun v h => h.performs.delivers labels,
      fun rest h => h.performs.delivers labels⟩⟩
  · show Except.ok (Value.int (a + b - b)) = _
    rw [Int64.add_sub_cancel]
  · show Except.ok (Value.int (a * (b + c))) = Except.ok (Value.int (a * b + a * c))
    rw [Int64.mul_add]
  · rw [eval_idiv]
    split
    · next hzero => exact iff_of_true rfl hzero
    · next hzero => exact iff_of_false (fun h => by cases h) hzero
  · have hdivisor : b.toInt ≠ 0 := fun h => hb (Int64.toInt_inj.mp h)
    refine ⟨a / b, a.toInt.tmod b.toInt, by rw [eval_idiv, if_neg hb], div_mul_add_tmod_modEq a b,
      natAbs_tmod_lt _ hdivisor, tmod_eq_zero_or_sign _ _, div_mul_add_tmod_iff a b, ?_⟩
    rintro rfl rfl
    exact Int64.minValue_div_neg_one

/-- The least word divided by -1, in its stack form. -/
theorem arithmetic_wraps_least_word :
    let least : Value := .int Int64.minValue
    let m : Machine := { data := [.int (-1), least, .nil] }
    idiv.eval least (.int (-1)) = .ok least ∧
      (m.step .empty ⟨1, .binaryStack .idiv, []⟩).result = .ok .next ∧
      (m.step .empty ⟨1, .binaryStack .idiv, []⟩).machine.data = [least, .nil] := by
  intro least m
  obtain ⟨-, -, -, -, -, -, hquotient, hforms⟩ := arithmetic_wraps Int64.minValue (-1) 0
  obtain ⟨q, r, hq, -, -, -, -, hleast⟩ := hquotient (by decide)
  obtain rfl := hleast rfl rfl
  have happlies : m.AppliesStack ⟨1, .binaryStack .idiv, []⟩ .idiv least (.int (-1)) [.nil] :=
    ⟨rfl, rfl⟩
  have hdelivers := (hforms .idiv (by simp) m .empty _).2 _ happlies
  exact ⟨hq, (hdelivers.ok_iff least).mp hq⟩

end Binary

end FrameCode
