import FrameCode.Proofs.Text.Utf8

/-! The order of texts. UTF-8 keeps the order of code points: the lead byte grows with the number
of bytes, and behind one lead byte come the digits of the code point in base 64, highest first
(`utf8EncodeChar_eq`). So the first difference of two encodings is as the first difference of the
texts (`compareLex_utf8Encode`). -/

namespace FrameCode.Text

/-- The code points of a text. -/
def codePoints (text : String) : List Nat := text.toList.map Char.toNat

/-- The bytes of a text in UTF-8. -/
def bytes (text : String) : List UInt8 := text.toUTF8.data.toList

theorem bytes_eq (text : String) : bytes text = text.toList.flatMap String.utf8EncodeChar := by
  rw [bytes, String.toUTF8_eq_toByteArray, ← String.utf8Encode_toList, List.utf8Encode,
    List.data_toByteArray, List.toList_toArray]

namespace Utf8

/-! ## Digits in base 64 -/

/-- What is left of a number without its last `k` digits. -/
def leading : Nat → Nat → Nat
  | 0, n => n
  | k + 1, n => leading k (n / 64)

/-- The last `k` digits of a number, each as a continuation byte. -/
def continued : Nat → Nat → List UInt8
  | 0, _ => []
  | k + 1, n => continued k (n / 64) ++ [UInt8.ofNat (n % 64 + 128)]

theorem leading_le {n m : Nat} (h : n ≤ m) (k : Nat) : leading k n ≤ leading k m := by
  induction k generalizing n m with
  | zero => exact h
  | succ k ih => exact ih (Nat.div_le_div_right h)

theorem compareLex_append {α : Type} [Ord α] [Std.ReflOrd α] (l x y : List α) :
    List.compareLex compare (l ++ x) (l ++ y) = List.compareLex compare x y := by
  induction l with
  | nil => rfl
  | cons a l ih => simp [List.compareLex_cons_cons, ih]

theorem compare_ofNat {n m : Nat} (hm : m < 256) (h : n < m) :
    compare (UInt8.ofNat n) (UInt8.ofNat m) = .lt := by
  rw [Std.compare_eq_lt, UInt8.lt_iff_toNat_lt, toNat_byte hm, toNat_byte (Nat.lt_trans h hm)]
  exact h

/-- Numbers that agree but for their last `k` digits are ordered as these digits are. -/
theorem compareLex_continued {k n m : Nat} (h : n < m) (hleading : leading k n = leading k m)
    (x y : List UInt8) :
    List.compareLex compare (continued k n ++ x) (continued k m ++ y) = .lt := by
  induction k generalizing n m x y with
  | zero => exact absurd hleading (Nat.ne_of_lt h)
  | succ k ih =>
    rw [continued, continued, List.append_assoc, List.append_assoc]
    rcases Nat.lt_or_eq_of_le (Nat.div_le_div_right (c := 64) (Nat.le_of_lt h)) with hlt | heq
    · exact ih hlt hleading _ _
    · rw [heq, compareLex_append, List.singleton_append, List.singleton_append,
        List.compareLex_cons_cons, compare_ofNat (by omega) (by omega)]
      rfl

/-! ## One character -/

/-- The number of bytes behind the lead byte of a code point. -/
def width (n : Nat) : Nat :=
  if n ≤ 127 then 0 else if n ≤ 2047 then 1 else if n ≤ 65535 then 2 else 3

/-- The smallest byte that can lead as many others. -/
def mark : Nat → Nat
  | 0 => 0
  | 1 => 192
  | 2 => 224
  | 3 => 240
  | _ => 248

/-- The lead byte of a code point. -/
def lead (n : Nat) : Nat := leading (width n) n + mark (width n)

theorem toNat_le (c : Char) : c.toNat ≤ 0x10FFFF := by
  have hvalid : c.toNat.isValidChar := c.valid
  rcases hvalid with h | h <;> omega

theorem utf8EncodeChar_eq (c : Char) : String.utf8EncodeChar c =
    UInt8.ofNat (lead c.toNat) :: continued (width c.toNat) c.toNat := by
  have hle := toNat_le c
  rw [String.utf8EncodeChar, ← Char.toNat, lead, width]
  generalize c.toNat = n at hle
  split
  · rfl
  · split
    · have hlead : n / 64 % 32 = n / 64 := by omega
      rw [hlead]
      rfl
    · split
      · have hlead : n / 4096 % 16 = n / 64 / 64 := by omega
        rw [hlead]
        rfl
      · have hlead : n / 262144 % 8 = n / 64 / 64 / 64 := by omega
        have hsecond : n / 4096 = n / 64 / 64 := by omega
        rw [hlead, hsecond]
        rfl

theorem mark_le {k j : Nat} (h : k ≤ j) : mark k ≤ mark j := by
  induction h with
  | refl => exact Nat.le_refl _
  | @step j _ ih =>
    refine Nat.le_trans ih ?_
    match j with
    | 0 | 1 | 2 | 3 => decide
    | _ + 4 => exact Nat.le_refl 248

theorem width_cases (n : Nat) : width n = 0 ∧ n ≤ 127 ∨ width n = 1 ∧ 127 < n ∧ n ≤ 2047 ∨
    width n = 2 ∧ 2047 < n ∧ n ≤ 65535 ∨ width n = 3 ∧ 65535 < n := by
  unfold width
  grind

theorem width_le {n m : Nat} (h : n ≤ m) : width n ≤ width m := by
  have hn := width_cases n
  have hm := width_cases m
  omega

/-- Lead bytes stay below those that more bytes follow. -/
theorem lead_lt {n : Nat} (h : n ≤ 0x10FFFF) : lead n < mark (width n + 1) := by
  unfold lead
  rcases width_cases n with ⟨hw, hn⟩ | ⟨hw, hn⟩ | ⟨hw, hn⟩ | ⟨hw, hn⟩
  all_goals
    rw [hw]
    simp only [leading, mark]
    omega

/-- The smaller code point has the smaller encoding, whatever comes after either. -/
theorem compareLex_utf8EncodeChar {c d : Char} (h : c.toNat < d.toNat) (x y : List UInt8) :
    List.compareLex compare (String.utf8EncodeChar c ++ x) (String.utf8EncodeChar d ++ y) = .lt := by
  have hc := toNat_le c
  have hd := toNat_le d
  rw [utf8EncodeChar_eq, utf8EncodeChar_eq, List.cons_append, List.cons_append,
    List.compareLex_cons_cons]
  generalize c.toNat = n at h hc
  generalize d.toNat = m at h hd
  have hbyte : lead m < 256 := by
    have hmark := mark_le (Nat.succ_le_succ (width_le hd))
    exact Nat.lt_of_lt_of_le (lead_lt hd) (Nat.le_trans hmark (by decide))
  rcases Nat.lt_or_eq_of_le (width_le (Nat.le_of_lt h)) with hwidth | hwidth
  · have hlead : lead n < lead m := calc
      lead n < mark (width n + 1) := lead_lt hc
      _ ≤ mark (width m) := mark_le hwidth
      _ ≤ lead m := Nat.le_add_left _ _
    rw [compare_ofNat hbyte hlead]
    rfl
  · have hleading := leading_le (Nat.le_of_lt h) (width m)
    rcases Nat.lt_or_eq_of_le hleading with hlt | heq
    · have hlead : lead n < lead m := by
        rw [lead, lead, hwidth]
        omega
      rw [compare_ofNat hbyte hlead]
      rfl
    · have hlead : lead n = lead m := by rw [lead, lead, hwidth, heq]
      rw [hlead, hwidth, Std.compare_self]
      exact compareLex_continued h heq x y

/-! ## Whole texts -/

theorem compareLex_utf8Encode (cs ds : List Char) :
    List.compareLex compare (cs.flatMap String.utf8EncodeChar) (ds.flatMap String.utf8EncodeChar) =
      List.compareLex compare (cs.map Char.toNat) (ds.map Char.toNat) := by
  induction cs generalizing ds with
  | nil =>
    cases ds with
    | nil => rfl
    | cons d ds => rw [List.flatMap_cons, utf8EncodeChar_eq d]; rfl
  | cons c cs ih =>
    cases ds with
    | nil => rw [List.flatMap_cons, utf8EncodeChar_eq c]; rfl
    | cons d ds =>
      rw [List.flatMap_cons, List.flatMap_cons, List.map_cons, List.map_cons,
        List.compareLex_cons_cons]
      rcases Nat.lt_trichotomy c.toNat d.toNat with hlt | heq | hgt
      · rw [compareLex_utf8EncodeChar hlt, Nat.compare_eq_lt.mpr hlt]
        rfl
      · rw [heq, Std.compare_self, Char.toNat_inj.mp heq, compareLex_append, ih]
        rfl
      · rw [Std.OrientedCmp.gt_of_lt (compareLex_utf8EncodeChar hgt _ _), Nat.compare_eq_gt.mpr hgt]
        rfl

end Utf8

theorem compareLex_bytes (a b : String) : List.compareLex compare (bytes a) (bytes b) =
    List.compareLex compare (codePoints a) (codePoints b) := by
  rw [bytes_eq, bytes_eq]
  exact Utf8.compareLex_utf8Encode a.toList b.toList

theorem compareLex_toNat_eq_lt_iff {cs ds : List Char} :
    List.compareLex compare (cs.map Char.toNat) (ds.map Char.toNat) = .lt ↔ cs < ds := by
  induction cs generalizing ds with
  | nil => cases ds <;> simp [List.compareLex_nil_nil, List.compareLex_nil_cons]
  | cons c cs ih =>
    cases ds with
    | nil => simp [List.compareLex_cons_nil]
    | cons d ds =>
      rw [List.map_cons, List.map_cons, List.compareLex_cons_cons, List.cons_lt_cons_iff,
        Ordering.then_eq_lt, ih, Nat.compare_eq_lt, Nat.compare_eq_eq, Char.toNat_inj]
      rfl

theorem codePoints_inj {a b : String} (h : codePoints a = codePoints b) : a = b := by
  refine String.toList_inj.mp (List.map_inj_right (fun c d hcd => ?_) |>.mp h)
  exact Char.toNat_inj.mp hcd

/-- Strings are ordered by their code points. -/
theorem compare_eq (a b : String) :
    compare a b = List.compareLex compare (codePoints a) (codePoints b) := by
  have hlt : List.compareLex compare (codePoints a) (codePoints b) = .lt ↔ a < b :=
    compareLex_toNat_eq_lt_iff.trans String.lt_iff.symm
  change compareOfLessAndEq a b = _
  unfold compareOfLessAndEq
  split
  · next h => exact (hlt.mpr h).symm
  · next h =>
    split
    · next heq =>
      subst heq
      exact Std.ReflCmp.compare_self.symm
    · next hne =>
      cases horder : List.compareLex compare (codePoints a) (codePoints b) with
      | lt => exact absurd (hlt.mp horder) h
      | eq => exact absurd (codePoints_inj (Std.LawfulEqCmp.eq_of_compare horder)) hne
      | gt => rfl

end FrameCode.Text
