import FrameCode.Proofs.Operation

/-! Strings, character by character. Every operation with an index looks at the character that
`Value.charAt?` finds, so that its result is read off what `charAt?` says of a concatenation and of
a string with one character replaced. -/

namespace FrameCode

namespace Value

variable {s t : String} {index : Int64}

/-! ## The character at an index -/

/-- The character at an index, if there is one. -/
def charAt? (s : String) (index : Int64) : Option Char :=
  if index < 0 then none else s.toList[index.toNatClampNeg]?

theorem charAt_eq_elim (s : String) (index : Int64) : charAt s index =
    (charAt? s index).elim (.error (.indexOutOfRange index s.length)) .ok := by
  unfold charAt charAt?
  cases (if index < 0 then none else s.toList[index.toNatClampNeg]?) <;> rfl

theorem not_neg_iff : ¬index < 0 ↔ 0 ≤ index.toInt := by
  rw [Int64.lt_iff_toInt_lt, Int64.toInt_zero, Int.not_lt]

theorem charAt?_of_nonneg (h : 0 ≤ index.toInt) : charAt? s index = s.toList[index.toInt.toNat]? :=
  if_neg (not_neg_iff.mpr h)

theorem charAt?_of_neg (h : index.toInt < 0) : charAt? s index = none :=
  if_pos (Decidable.not_not.mp fun hpos => Int.not_le.mpr h (not_neg_iff.mp hpos))

theorem isSome_charAt?_iff :
    (charAt? s index).isSome = true ↔ 0 ≤ index.toInt ∧ index.toInt < s.length := by
  have hlength : s.toList.length = s.length := String.length_toList
  by_cases hneg : index.toInt < 0
  · simp [charAt?_of_neg hneg, Int.not_le.mpr hneg]
  · have hpos : 0 ≤ index.toInt := Int.not_lt.mp hneg
    rw [charAt?_of_nonneg hpos, Option.isSome_iff_ne_none, ne_eq, List.getElem?_eq_none_iff]
    omega

theorem charAt?_append (s t : String) (index : Int64) {n : Int64} (hn : n.toInt = s.length) :
    charAt? (s ++ t) index =
      if index < n then charAt? s index else charAt? t (index - n) := by
  have hnonneg : 0 ≤ n := by rw [Int64.le_iff_toInt_le, Int64.toInt_zero]; omega
  have hlength : s.toList.length = s.length := String.length_toList
  split
  · next hlt =>
    rw [Int64.lt_iff_toInt_lt] at hlt
    by_cases hneg : index.toInt < 0
    · rw [charAt?_of_neg hneg, charAt?_of_neg hneg]
    · have hpos : 0 ≤ index.toInt := Int.not_lt.mp hneg
      rw [charAt?_of_nonneg hpos, charAt?_of_nonneg hpos, String.toList_append,
        List.getElem?_append_left (by omega)]
  · next hge =>
    have hle : n ≤ index := Int64.not_lt.mp hge
    have hdiff : (index - n).toInt = index.toInt - n.toInt := Int64.toInt_sub_of_le _ _ hnonneg hle
    rw [Int64.le_iff_toInt_le] at hle
    rw [charAt?_of_nonneg (by omega), charAt?_of_nonneg (by omega), String.toList_append,
      List.getElem?_append_right (by omega), hdiff]
    congr 1
    omega

/-- The string with another character at an index. -/
def replaced (s : String) (index : Int64) (c : Char) : String :=
  String.ofList (s.toList.set index.toNatClampNeg c)

theorem length_replaced (s : String) (index : Int64) (c : Char) :
    (replaced s index c).length = s.length := by
  rw [replaced, String.length_ofList, List.length_set, String.length_toList]

theorem charAt?_replaced {old : Char} (h : charAt? s index = some old) (c : Char) (other : Int64) :
    charAt? (replaced s index c) other = if other = index then some c else charAt? s other := by
  by_cases hneg : other.toInt < 0
  · have hne : other ≠ index := by
      rintro rfl
      rw [charAt?_of_neg hneg] at h
      cases h
    rw [if_neg hne, charAt?_of_neg hneg, charAt?_of_neg hneg]
  · have hpos : 0 ≤ index.toInt := by
      refine Int.not_lt.mp fun hlt => ?_
      rw [charAt?_of_neg hlt] at h
      cases h
    have hother : 0 ≤ other.toInt := Int.not_lt.mp hneg
    rw [charAt?_of_nonneg hpos] at h
    obtain ⟨hlt, -⟩ := List.getElem?_eq_some_iff.mp h
    have hplaces : index.toInt.toNat = other.toInt.toNat ↔ other = index := by
      rw [← Int64.toInt_inj]
      omega
    rw [charAt?_of_nonneg hother, charAt?_of_nonneg hother, replaced, String.toList_ofList,
      Int64.toNatClampNeg, List.getElem?_set]
    by_cases heq : other = index
    · rw [if_pos (hplaces.mpr heq), if_pos hlt, if_pos heq]
    · rw [if_neg fun h => heq (hplaces.mp h), if_neg heq]

/-! ## The operations -/

/-- What an operation makes of the character at an index. -/
def atIndex (s : String) (index : Int64) (f : Char → Value) : Except Fault Value :=
  (charAt? s index).elim (.error (.indexOutOfRange index s.length)) fun c => .ok (f c)

theorem atIndex_eq (s : String) (index : Int64) (f : Char → Value) :
    (charAt s index >>= fun c => .ok (f c)) = atIndex s index f := by
  rw [charAt_eq_elim, atIndex]
  cases charAt? s index <;> rfl

theorem atIndex_of_some {c : Char} (h : charAt? s index = some c) (f : Char → Value) :
    atIndex s index f = .ok (f c) := by
  rw [atIndex, h, Option.elim_some]

theorem exists_atIndex_iff (f : Char → Value) :
    (∃ x, atIndex s index f = .ok x) ↔ (charAt? s index).isSome = true := by
  unfold atIndex
  cases charAt? s index <;> simp

theorem coded_atIndex (f : Char → Value) :
    coded (atIndex s index f) = (charAt? s index).elim (.error 58) fun c => .ok (f c) := by
  unfold atIndex
  cases charAt? s index <;> rfl

theorem getChar_eq_atIndex (s : String) (index : Int64) :
    (str s).getChar (int index) = atIndex s index fun c => str (String.ofList [c]) :=
  atIndex_eq s index _

theorem stri2Int_eq_atIndex (s : String) (index : Int64) :
    Binary.stri2Int.eval (str s) (int index) =
      atIndex s index fun c => int (Int64.ofNat c.toNat) :=
  atIndex_eq s index _

theorem setChar_eq_atIndex (s : String) (index : Int64) {u : String} {c : Char}
    (hc : u.toList.head? = some c) : (str s).setChar (int index) (str u) =
      atIndex s index fun _ => str (replaced s index c) := by
  obtain ⟨rest, hu⟩ := List.head?_eq_some_iff.mp hc
  rw [← atIndex_eq]
  simp only [setChar, expectStr, expectInt, hu, bind, Except.bind]
  rfl

theorem strlen_eq (s : String) : (str s).strlen = .ok (int (Int64.ofNat s.length)) := rfl

theorem toInt_ofNat {n : Nat} (h : (n : Int) ≤ Int64.maxValue.toInt) :
    (Int64.ofNat n).toInt = n := by
  have hmax : Int64.maxValue.toInt = 9223372036854775807 := rfl
  exact Int64.toInt_ofNat_of_lt (by omega)

/-! ## Concatenation, replacement, codes -/

theorem coded_getChar_append (s t : String) (index : Int64) {n : Int64}
    (hn : n.toInt = s.length) : coded ((str (s ++ t)).getChar (int index)) =
      coded (if index < n then (str s).getChar (int index)
        else (str t).getChar (int (index - n))) := by
  rw [getChar_eq_atIndex, getChar_eq_atIndex, getChar_eq_atIndex, coded_atIndex,
    charAt?_append s t index hn]
  split <;> rw [coded_atIndex]

/-- Where a string with one character replaced has the replacement, and what stands elsewhere. -/
theorem getChar_replaced {old : Char} (h : charAt? s index = some old) (c : Char) (other : Int64) :
    (str (replaced s index c)).getChar (int other) =
      if other = index then .ok (str (String.ofList [c])) else (str s).getChar (int other) := by
  rw [getChar_eq_atIndex, getChar_eq_atIndex, atIndex, charAt?_replaced h, length_replaced]
  split <;> rfl

theorem toInt_code (c : Char) : (Int64.ofNat c.toNat).toInt = c.toNat := by
  have hbound : c.toNat < 4294967296 := c.val.toNat_lt
  have hmax : Int64.maxValue.toInt = 9223372036854775807 := rfl
  exact toInt_ofNat (by omega)

/-- The character of a code is read back up to 255, and no further. -/
theorem coded_int2Char_code (c : Char) :
    coded (Unary.int2Char.eval (int (Int64.ofNat c.toNat))) =
      if Int64.ofNat c.toNat ≤ 255 then .ok (str (String.ofList [c])) else .error 58 := by
  have hcode := toInt_code c
  have hnonneg : 0 ≤ Int64.ofNat c.toNat := by
    rw [Int64.le_iff_toInt_le, hcode, Int64.toInt_zero]
    omega
  have hchar : Char.ofNat (Int64.ofNat c.toNat).toNatClampNeg = c := by
    rw [Int64.toNatClampNeg, hcode, Int.toNat_natCast, Char.ofNat_toNat]
  simp only [Unary.eval, expectInt, bind, Except.bind, hnonneg, true_and, hchar]
  split <;> rfl

/-- **Strings are indexed by character.** GETCHAR, STRI2INT and SETCHAR succeed exactly at the
indices from 0 up to STRLEN, and fail with code 58 elsewhere. The length of a concatenation is the
sum of the lengths, and its characters are those of the first string, then those of the second.
SETCHAR keeps the length and every character but the one at the index, which becomes the first of
the replacement. STRI2INT gives the code of the character that GETCHAR gives, and INT2CHAR gives
that character back where the code is at most 255. The instructions, whatever their form, leave
these results at their place or fail with the same fault. -/
theorem strings_by_character (s t u : String) (index : Int64) (hu : u ≠ "")
    (hs : (s.length : Int) ≤ Int64.maxValue.toInt) (ht : (t.length : Int) ≤ Int64.maxValue.toInt) :
    ∃ n k : Int64, (str s).strlen = .ok (int n) ∧ n.toInt = s.length ∧
      (str t).strlen = .ok (int k) ∧ k.toInt = t.length ∧
    (∀ r ∈ [(str s).getChar (int index), Binary.stri2Int.eval (str s) (int index),
        (str s).setChar (int index) (str u)],
      ((∃ x, r = .ok x) ↔ 0 ≤ index ∧ index < n) ∧
      (¬(0 ≤ index ∧ index < n) → coded r = .error 58)) ∧
    (∃ joined, (str s).concat (str t) = .ok joined ∧ joined.strlen = .ok (int (n + k)) ∧
      ((s.length + t.length : Int) ≤ Int64.maxValue.toInt → (n + k).toInt = n.toInt + k.toInt) ∧
      coded (joined.getChar (int index)) =
        coded (if index < n then (str s).getChar (int index)
          else (str t).getChar (int (index - n)))) ∧
    (∀ x, (str s).setChar (int index) (str u) = .ok x → x.strlen = (str s).strlen ∧
      (∃ c, u.toList.head? = some c ∧ x.getChar (int index) = .ok (str (String.ofList [c]))) ∧
      ∀ other, other ≠ index → x.getChar (int other) = (str s).getChar (int other)) ∧
    (0 ≤ index → index < n → ∃ (c : Char) (code : Int64),
      s.toList[index.toNatClampNeg]? = some c ∧
      (str s).getChar (int index) = .ok (str (String.ofList [c])) ∧
      Binary.stri2Int.eval (str s) (int index) = .ok (int code) ∧ code.toInt = c.toNat ∧
      coded (Unary.int2Char.eval (int code)) =
        if code ≤ 255 then coded ((str s).getChar (int index)) else .error 58) ∧
    ∀ (m : Machine) (labels : LabelTable) (i : Instruction) (place : Place) (r : Except Fault Value),
      m.Performs i place r → m.Delivers labels i place r := by
  have hn := toInt_ofNat hs
  have hk := toInt_ofNat ht
  have hhead : ∃ c, u.toList.head? = some c := by
    cases hlist : u.toList with
    | nil => exact absurd (String.toList_eq_nil_iff.mp hlist) hu
    | cons c rest => exact ⟨c, rfl⟩
  obtain ⟨c, hc⟩ := hhead
  have hrange : 0 ≤ index ∧ index < Int64.ofNat s.length ↔ (charAt? s index).isSome = true := by
    rw [isSome_charAt?_iff, Int64.le_iff_toInt_le, Int64.lt_iff_toInt_lt, hn, Int64.toInt_zero]
  refine ⟨Int64.ofNat s.length, Int64.ofNat t.length, strlen_eq s, hn, strlen_eq t, hk, ?_,
    ⟨str (s ++ t), rfl, ?_, ?_, coded_getChar_append s t index hn⟩, ?_, ?_,
    fun m labels i place r h => h.delivers labels⟩
  · -- the three operations differ only in what they make of the character
    have houtcome (f : Char → Value) :
        ((∃ x, atIndex s index f = .ok x) ↔ 0 ≤ index ∧ index < Int64.ofNat s.length) ∧
        (¬(0 ≤ index ∧ index < Int64.ofNat s.length) → coded (atIndex s index f) = .error 58) := by
      refine ⟨(exists_atIndex_iff f).trans hrange.symm, fun hout => ?_⟩
      rw [hrange, Bool.not_eq_true, Option.isSome_eq_false_iff, Option.isNone_iff_eq_none] at hout
      rw [coded_atIndex, hout, Option.elim_none]
    intro r hr
    simp only [getChar_eq_atIndex, stri2Int_eq_atIndex, setChar_eq_atIndex s index hc,
      List.mem_cons, List.not_mem_nil, or_false] at hr
    rcases hr with rfl | rfl | rfl
    · exact houtcome _
    · exact houtcome _
    · exact houtcome _
  · rw [strlen_eq, String.length_append, Int64.ofNat_add]
  · intro hsum
    rw [← Int64.ofNat_add, toInt_ofNat (by omega), hn, hk]
    omega
  · intro x hx
    rw [setChar_eq_atIndex s index hc] at hx
    obtain ⟨old, hold⟩ := Option.isSome_iff_exists.mp ((exists_atIndex_iff _).mp ⟨x, hx⟩)
    rw [atIndex_of_some hold] at hx
    cases hx
    refine ⟨?_, ⟨c, hc, ?_⟩, fun other hne => ?_⟩
    · rw [strlen_eq, strlen_eq, length_replaced]
    · rw [getChar_replaced hold, if_pos rfl]
    · rw [getChar_replaced hold, if_neg hne]
  · intro hpos hlt
    obtain ⟨d, hd⟩ := Option.isSome_iff_exists.mp (hrange.mp ⟨hpos, hlt⟩)
    have hget : (str s).getChar (int index) = .ok (str (String.ofList [d])) := by
      rw [getChar_eq_atIndex, atIndex_of_some hd]
    refine ⟨d, Int64.ofNat d.toNat, ?_, hget, ?_, toInt_code d, ?_⟩
    · rwa [charAt?, if_neg (Int64.not_lt.mpr hpos)] at hd
    · rw [stri2Int_eq_atIndex, atIndex_of_some hd]
    · rw [hget, coded_int2Char_code]
      rfl

/-- Characters of one, two and four bytes: an index in the second of two strings, one out of range,
a replacement of which only the first character counts, a code above 255, and STRI2INTS. -/
theorem strings_by_character_of_mixed_widths :
    let m : Machine := { data := [int 1, str "aé", nil] }
    (∃ joined, (str "aé").concat (str "😀z") = .ok joined ∧
      coded (joined.getChar (int 2)) = .ok (str "😀")) ∧
    coded ((str "aé").getChar (int 2)) = .error 58 ∧
    (∃ x, (str "aé").setChar (int 1) (str "xyz") = .ok x ∧ x.getChar (int 1) = .ok (str "x") ∧
      x.getChar (int 0) = .ok (str "a")) ∧
    (∃ code, Binary.stri2Int.eval (str "😀z") (int 0) = .ok (int code) ∧
      coded (Unary.int2Char.eval (int code)) = .error 58) ∧
    (m.step .empty ⟨1, .binaryStack .stri2Int, []⟩).machine.data = [int 233, nil] := by
  intro m
  have hshort (s : String) (h : s.length = 2) : (s.length : Int) ≤ Int64.maxValue.toInt := by
    rw [h]
    decide
  have hlength {s : String} {n : Int64} (hn : (str s).strlen = .ok (int n)) (h : s.length = 2) :
      n = 2 := by
    rw [strlen_eq, h] at hn
    cases hn
    rfl
  obtain ⟨n, k, hn, -, hk, -, hout, ⟨joined, hjoined, -, -, hsecond⟩, -⟩ :=
    strings_by_character "aé" "😀z" "xyz" 2 (by decide) (hshort _ rfl) (hshort _ rfl)
  obtain ⟨n', -, hn', -, -, -, hin, -, hset, -, hforms⟩ :=
    strings_by_character "aé" "😀z" "xyz" 1 (by decide) (hshort _ rfl) (hshort _ rfl)
  obtain ⟨n'', -, hn'', -, -, -, -, -, -, hcode, -⟩ :=
    strings_by_character "😀z" "aé" "x" 0 (by decide) (hshort _ rfl) (hshort _ rfl)
  obtain rfl := hlength hn rfl
  obtain rfl := hlength hn' rfl
  obtain rfl := hlength hn'' rfl
  have hperforms : m.Performs ⟨1, .binaryStack .stri2Int, []⟩ (.stack [nil])
      (Binary.stri2Int.eval (str "aé") (int 1)) := .binaryStack rfl rfl
  have hdelivers := hforms m .empty _ _ _ hperforms
  refine ⟨⟨joined, hjoined, hsecond⟩, (hout _ (by simp)).2 (by decide), ?_, ?_, ?_⟩
  · obtain ⟨x, hx⟩ := ((hin ((str "aé").setChar (int 1) (str "xyz")) (by simp)).1).mpr (by decide)
    obtain ⟨-, ⟨c, hc, hreplaced⟩, hother⟩ := hset x hx
    cases hc
    exact ⟨x, hx, hreplaced, (hother 0 (by decide)).trans rfl⟩
  · obtain ⟨c, code, hc, -, hstri, -, hint⟩ := hcode (by decide) (by decide)
    cases hstri
    exact ⟨_, rfl, hint⟩
  · exact ((hdelivers.ok_iff (int 233)).mp rfl).2

end Value

end FrameCode
