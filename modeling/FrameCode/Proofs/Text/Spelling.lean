import FrameCode.Proofs.Text.Decimal
import FrameCode.Text.Blank

/-! Texts that differ in their spelling only: in characters around them that trimming takes
away, in the case of their letters, in zeros before a number. They are read as the same. -/

namespace FrameCode.Text

/-- The second text is the first one with characters of a set before and after it. -/
def Surrounded (set : Char → Prop) (cs cs' : List Char) : Prop :=
  ∃ before after, cs' = before ++ cs ++ after ∧ (∀ c ∈ before, set c) ∧ ∀ c ∈ after, set c

/-- The two texts are the same but for the case of ASCII letters. -/
def Recased (cs cs' : List Char) : Prop := cs'.map Char.toLower = cs.map Char.toLower

instance (cs cs' : List Char) : Decidable (Recased cs cs') :=
  inferInstanceAs (Decidable (cs'.map Char.toLower = cs.map Char.toLower))

theorem trim_surrounded {set : Char → Bool} {cs cs' : List Char}
    (h : Surrounded (set · = true) cs cs') : trim set cs' = trim set cs := by
  obtain ⟨before, after, rfl, hbefore, hafter⟩ := h
  rw [trim, trim, List.append_assoc, List.dropWhile_append_of_pos hbefore, List.dropWhile_append]
  by_cases hnil : (cs.dropWhile set).isEmpty = true
  · have hcut : (after ++ []).dropWhile set = [] := List.dropWhile_append_of_pos hafter
    rw [List.append_nil] at hcut
    rw [if_pos hnil, hcut, List.isEmpty_iff.mp hnil]
  · have hreversed : ∀ c ∈ after.reverse, set c = true := fun c hc => hafter c (List.mem_reverse.mp hc)
    rw [if_neg hnil, List.reverse_append, List.dropWhile_append_of_pos hreversed]

/-! ## Letters -/

theorem toNat_toLower (c : Char) : c.toLower = c ∨ 65 ≤ c.toNat ∧ c.toNat ≤ 90 ∧
    97 ≤ c.toLower.toNat ∧ c.toLower.toNat ≤ 122 := by
  unfold Char.toLower
  split
  · next h =>
    have hlow : 65 ≤ c.toNat := UInt32.le_iff_toNat_le.mp h.1
    have hhigh : c.toNat ≤ 90 := UInt32.le_iff_toNat_le.mp h.2
    have hmoved : (c.val + ('a'.val - 'A'.val)).toNat = c.toNat + 32 := by
      rw [UInt32.toNat_add]
      show (c.toNat + 32) % 4294967296 = c.toNat + 32
      omega
    refine .inr ⟨hlow, hhigh, ?_, ?_⟩
    · show 97 ≤ (c.val + ('a'.val - 'A'.val)).toNat
      omega
    · show (c.val + ('a'.val - 'A'.val)).toNat ≤ 122
      omega
  · exact .inl rfl

/-- Letters are no white space, in either case. -/
theorem isWhiteSpace_toLower (c : Char) : isWhiteSpace c.toLower = isWhiteSpace c := by
  have hletter : ∀ d : Char, 65 ≤ d.toNat → d.toNat ≤ 122 → isWhiteSpace d = false := by
    intro d hlow hhigh
    simp only [isWhiteSpace, whiteSpace, List.any_cons, List.any_nil, Bool.or_eq_false_iff,
      Bool.and_eq_false_iff, decide_eq_false_iff_not, and_true]
    omega
  rcases toNat_toLower c with hsame | ⟨hlow, hhigh, hlow', hhigh'⟩
  · rw [hsame]
  · rw [hletter c hlow (by omega), hletter c.toLower (by omega) hhigh']

theorem trim_map {set : Char → Bool} {f : Char → Char} (h : ∀ c, set (f c) = set c)
    (cs : List Char) : trim set (cs.map f) = (trim set cs).map f := by
  have hset : set ∘ f = set := funext h
  rw [trim, trim, List.dropWhile_map, ← List.map_reverse, List.dropWhile_map, ← List.map_reverse, hset]

/-- White space is trimmed off alike, whatever the case of the letters is. -/
theorem Recased.trim {cs cs' : List Char} (h : Recased cs cs') :
    Recased (Text.trim isWhiteSpace cs) (Text.trim isWhiteSpace cs') := by
  unfold Recased at h ⊢
  rw [← trim_map isWhiteSpace_toLower, ← trim_map isWhiteSpace_toLower, h]

/-! ## Numbers -/

namespace Decimal

/-- A number in decimal digits, with zeros before it. -/
def withZeros (zeros n : Nat) : List Char := List.replicate zeros '0' ++ Nat.toDigits 10 n

theorem ofDigitChars_zeros (zeros : Nat) (cs : List Char) :
    Nat.ofDigitChars 10 (List.replicate zeros '0' ++ cs) 0 = Nat.ofDigitChars 10 cs 0 := by
  induction zeros with
  | zero => rfl
  | succ zeros ih =>
    rw [List.replicate_succ, List.cons_append, Nat.ofDigitChars_cons]
    exact ih

theorem order?_withZeros (zeros : Nat) {n : Nat} (hpos : 1 ≤ n) (hlt : n < UInt64.size) :
    order? (withZeros zeros n) = some n := by
  have hdigits : ∀ c ∈ withZeros zeros n, c.isDigit = true := by
    intro c hc
    rcases List.mem_append.mp hc with hc | hc
    · rw [List.eq_of_mem_replicate hc]
      rfl
    · exact Nat.isDigit_of_mem_toDigits (by decide) (by decide) hc
  have hne : withZeros zeros n ≠ [] := List.append_ne_nil_of_right_ne_nil _ Nat.toDigits_ne_nil
  have hvalue : Nat.ofDigitChars 10 (withZeros zeros n) 0 = n := by
    rw [withZeros, ofDigitChars_zeros, Nat.ofDigitChars_ten_toDigits]
  rw [order?, natural?, if_pos ⟨hne, List.all_eq_true.mpr hdigits⟩, hvalue]
  exact Option.filter_eq_some_iff.mpr ⟨rfl, by rw [decide_eq_true hpos, decide_eq_true hlt]; rfl⟩

end Decimal

end FrameCode.Text
