import FrameCode.Instruction
import FrameCode.Proofs.Text.Decimal

/-! Escapes read back. Decoding undoes encoding whatever text comes after it
(`decode_encode`), and an encoded text holds neither blanks nor the mark of a
comment, and no backslash but those of its escapes. -/

namespace FrameCode.Text.Escape

theorem toNat_lt_of_isSpecial {c : Char} (h : isSpecial c = true) : c.toNat < 100 := by
  simp only [isSpecial, Bool.or_eq_true, decide_eq_true_eq, beq_iff_eq] at h
  rcases h with (h | rfl) | rfl
  · exact Nat.lt_of_le_of_lt h (by decide)
  · decide
  · decide

theorem digits_lt {c : Char} (h : c.toNat < 1000) :
    c.toNat / 100 < 10 ∧ c.toNat / 10 % 10 < 10 ∧ c.toNat % 10 < 10 := by
  omega

theorem isDigit_digitChar {n : Nat} (h : n < 10) : (Nat.digitChar n).isDigit = true := by
  rw [Nat.isDigit_digitChar, decide_eq_true h]

/-- The three digits of a code point below 1000 have that code point as value. -/
theorem decode_code {c : Char} (h : c.toNat < 1000) (rest : List Char) :
    decode (code c ++ rest) = c :: decode rest := by
  obtain ⟨hhigh, hmid, hlow⟩ := digits_lt h
  have hvalue : 10 * (10 * (10 * 0 + c.toNat / 100) + c.toNat / 10 % 10) + c.toNat % 10 = c.toNat := by
    omega
  simp only [code, List.cons_append, List.nil_append, decode, Nat.isDigit_digitChar, hhigh, hmid, hlow,
    decide_true, Bool.and_self, if_true, Nat.ofDigitChars_cons_digitChar_of_lt_ten,
    Nat.ofDigitChars_nil, hvalue, Char.ofNat_toNat]

theorem decode_cons {c : Char} (h : c ≠ '\\') (rest : List Char) :
    decode (c :: rest) = c :: decode rest := by
  rw [decode.eq_def]
  split
  · next heq =>
    cases heq
    exact absurd rfl h
  · next heq => cases heq; rfl
  · next heq => cases heq

theorem decode_encode (cs rest : List Char) : decode (encode cs ++ rest) = cs ++ decode rest := by
  induction cs with
  | nil => rfl
  | cons c cs ih =>
    rw [encode, List.flatMap_cons, List.append_assoc, ← encode, List.cons_append, ← ih]
    cases hc : isSpecial c with
    | true =>
      have hlt := toNat_lt_of_isSpecial hc
      rw [if_pos rfl, decode_code (by omega)]
    | false =>
      have hne : c ≠ '\\' := fun heq => absurd (heq ▸ hc) (by decide)
      rw [if_neg Bool.false_ne_true, List.singleton_append, decode_cons hne]

theorem decodeText_encodeText (text : String) : decodeText (encodeText text) = text := by
  have hdecode := decode_encode text.toList []
  rw [List.append_nil, decode, List.append_nil] at hdecode
  rw [decodeText, encodeText, String.toList_ofList, hdecode, String.ofList_toList]

theorem mem_code {c d : Char} (h : c.toNat < 1000) (hd : d ∈ code c) : d = '\\' ∨ d.isDigit = true := by
  obtain ⟨hhigh, hmid, hlow⟩ := digits_lt h
  simp only [code, List.mem_cons, List.not_mem_nil, or_false] at hd
  rcases hd with rfl | rfl | rfl | rfl
  · exact .inl rfl
  · exact .inr (isDigit_digitChar hhigh)
  · exact .inr (isDigit_digitChar hmid)
  · exact .inr (isDigit_digitChar hlow)

/-- An encoded text can stand in a source line: it goes beyond the blanks and holds no
comment. -/
theorem mem_encode {cs : List Char} {c : Char} (h : c ∈ encode cs) : 32 < c.toNat ∧ c ≠ '#' := by
  obtain ⟨a, -, hc⟩ := List.mem_flatMap.mp h
  cases ha : isSpecial a with
  | true =>
    rw [ha, if_pos rfl] at hc
    have hlt := toNat_lt_of_isSpecial ha
    rcases mem_code (by omega) hc with rfl | hdigit
    · decide
    · exact Decimal.solid_of_isDigit hdigit
  | false =>
    rw [ha, if_neg Bool.false_ne_true, List.mem_singleton] at hc
    subst hc
    simp only [isSpecial, Bool.or_eq_false_iff, decide_eq_false_iff_not, beq_eq_false_iff_ne] at ha
    exact ⟨Nat.not_le.mp ha.1.1, ha.1.2⟩

/-- Every backslash of the text begins an escape: three digits come after it. -/
def Escaped (cs : List Char) : Prop :=
  ∀ before behind, cs = before ++ '\\' :: behind →
    ∃ a b c rest, behind = a :: b :: c :: rest ∧
      a.isDigit = true ∧ b.isDigit = true ∧ c.isDigit = true

theorem Escaped.cons {c : Char} {cs : List Char} (hc : c ≠ '\\') (h : Escaped cs) :
    Escaped (c :: cs) := by
  intro before behind heq
  cases before with
  | nil => exact absurd (List.cons.inj heq).1 hc
  | cons _ before => exact h before behind (List.cons.inj heq).2

theorem Escaped.code {c : Char} {cs : List Char} (hc : c.toNat < 1000) (h : Escaped cs) :
    Escaped (code c ++ cs) := by
  obtain ⟨hhigh, hmid, hlow⟩ := digits_lt hc
  have hother {n : Nat} (hn : n < 10) : Nat.digitChar n ≠ '\\' := fun heq =>
    absurd (heq ▸ isDigit_digitChar hn) (by decide)
  intro before behind heq
  cases before with
  | nil =>
    obtain ⟨-, hbehind⟩ := List.cons.inj heq
    exact ⟨_, _, _, cs, hbehind.symm, isDigit_digitChar hhigh, isDigit_digitChar hmid,
      isDigit_digitChar hlow⟩
  | cons _ before =>
    have hdigits := ((h.cons (hother hlow)).cons (hother hmid)).cons (hother hhigh)
    exact hdigits before behind (List.cons.inj heq).2

theorem escaped_encode (cs : List Char) : Escaped (encode cs) := by
  induction cs with
  | nil =>
    intro before behind heq
    cases before <;> cases heq
  | cons c cs ih =>
    rw [encode, List.flatMap_cons, ← encode]
    cases hc : isSpecial c with
    | true =>
      have hlt := toNat_lt_of_isSpecial hc
      exact ih.code (by omega)
    | false =>
      have hne : c ≠ '\\' := fun heq => absurd (heq ▸ hc) (by decide)
      exact ih.cons hne

/-- **The text of a string constant reads back**, whatever text comes after it: no digit and no
backslash there can be taken for a part of the last escape. In a source line it is one word, which
starts no comment, and all of its backslashes are those of escapes. -/
theorem decodeText_encodeText_append (s t : String) :
    (Operand.const (.str s)).text = "string@" ++ encodeText s ∧
    decodeText (encodeText s ++ t) = s ++ decodeText t ∧
    decodeText (encodeText s) = s ∧
    (∀ c ∈ (encodeText s).toList, 32 < c.toNat ∧ c ≠ '#') ∧
    ∀ before behind, (encodeText s).toList = before ++ '\\' :: behind →
      ∃ a b c rest, behind = a :: b :: c :: rest ∧
        a.isDigit = true ∧ b.isDigit = true ∧ c.isDigit = true := by
  have hchars : (encodeText s).toList = encode s.toList := String.toList_ofList
  refine ⟨rfl, ?_, decodeText_encodeText s, fun c hc => mem_encode (hchars ▸ hc), ?_⟩
  · rw [decodeText, String.toList_append, hchars, decode_encode, String.ofList_append,
      String.ofList_toList, decodeText]
  · rw [hchars]
    exact escaped_encode s.toList

/-- A backslash with one digit after it, then a mark of a comment before two more digits. -/
theorem decodeText_encodeText_before_digits :
    encodeText " \\1#" = "\\032\\0921\\035" ∧
    decodeText ("\\032\\0921\\035" ++ "34") = " \\1#" ++ decodeText "34" ∧
    (∀ c ∈ "\\032\\0921\\035".toList, 32 < c.toNat ∧ c ≠ '#') ∧
    ∃ a b c rest, "0921\\035".toList = a :: b :: c :: rest ∧
      a.isDigit = true ∧ b.isDigit = true ∧ c.isDigit = true := by
  have hencoded : encodeText " \\1#" = "\\032\\0921\\035" := by decide
  obtain ⟨-, hrest, -, hplain, hescaped⟩ := decodeText_encodeText_append " \\1#" "34"
  rw [hencoded] at hrest hplain hescaped
  exact ⟨hencoded, hrest, hplain, hescaped "\\032".toList _ (by decide)⟩

end FrameCode.Text.Escape
