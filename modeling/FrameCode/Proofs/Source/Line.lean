import FrameCode.Proofs.Node.Canonical
import FrameCode.Source.Assemble
import Mathlib.Data.List.TakeWhile

/-! The line of an instruction. Its words are the mnemonic and the operands
(`Instruction.ofLine_text`), and each of them gives the written form of its operand
again. Names must be plain for that; constants always are. -/

namespace FrameCode

/-! ## Tokens -/

namespace Token

theorem text_ofWord (cs : List Char) : (ofWord cs).text = String.ofList cs := by
  unfold ofWord
  split
  · rfl
  · split
    · next mark body hcut =>
      rw [← String.toList_inj, text, Text.toList_tagged, String.toList_ofList, String.toList_ofList,
        String.toList_ofList, Text.eq_append_of_cut? hcut]
    · rfl

/-- A mark that starts with no dot makes a tagged word with whatever follows the `@`. -/
theorem ofWord_tagged {mark : String} (body : String) (hne : mark.toList ≠ [])
    (hdot : mark.toList.head? ≠ some '.') (hat : '@' ∉ mark.toList) :
    ofWord (mark.toList ++ '@' :: body.toList) = tagged mark body := by
  have hhead : ¬(mark.toList ++ '@' :: body.toList).head? = some '.' := by
    rw [List.head?_append_of_ne_nil _ hne]
    exact hdot
  rw [ofWord, if_neg hhead, Text.cut?_append hat]
  simp only [String.ofList_toList]

/-- The words of a line hold neither blanks nor comments. -/
theorem plain_of_mem_ofLine {line : List Char} {t : Token} (h : t ∈ ofLine line) :
    ∀ c ∈ t.text.toList, Text.isPlain c = true := by
  obtain ⟨w, hw, rfl⟩ := List.mem_map.mp h
  rw [text_ofWord, String.toList_ofList]
  intro c hc
  obtain ⟨hmem, hblank⟩ := Text.mem_words hw hc
  have hsign : (c != '#') = true := List.all_eq_true.mp List.all_takeWhile c hmem
  exact Text.isPlain_iff.mpr ⟨hblank, by simpa using hsign⟩

/-- An operand's text is all of a word or what follows its mark. -/
theorem mem_of_operand? {slot : Option Slot} {t : Token} {kind text : String}
    (h : t.operand? slot = some (kind, text)) : ∀ c ∈ text.toList, c ∈ t.text.toList := by
  unfold operand? at h
  split at h
  · cases h
    exact fun c hc => hc
  · cases h
    exact fun c hc => hc
  · next mark body _ _ =>
    split at h
    · cases h
      exact fun c hc => hc
    · split at h
      · cases h
        intro c hc
        rw [Token.text, String.toList_append]
        exact List.mem_append_right _ hc
      · cases h
  · cases h
    exact fun c hc => hc
  · cases h

end Token

/-! ## The text of an operand -/

namespace Operand

theorem text_const (value : Value) :
    (const value).text = value.type.name ++ "@" ++ (const value).form.2 := by
  cases value with
  | str s =>
    have hmark : TypeTag.string.name ++ "@" = "string@" := rfl
    rw [text, form, Value.type, hmark]
  | int n => rfl
  | bool b => rfl
  | nil => rfl

/-- In a slot that takes it, the text of an operand is read as its written form. -/
theorem operand?_text {slot : Slot} {o : Operand} (h : slot.accepts o = true) :
    (Token.ofWord o.text.toList).operand? (some slot) = some o.form := by
  cases o with
  | var v =>
    have htoken : Token.ofWord v.text.toList = .tagged v.frame.mark v.name := by
      rw [Variable.toList_text]
      apply Token.ofWord_tagged <;> cases v.frame <;> decide
    have hmark : (FrameKind.ofMark? v.frame.mark).isSome = true := by
      rw [FrameKind.ofMark?_mark, Option.isSome_some]
    rw [text, htoken]
    rcases (Slot.accepts_var_iff.mp h).1 with rfl | rfl
    · exact if_pos hmark
    · exact if_pos hmark
  | const value =>
    obtain rfl := Slot.accepts_const_iff.mp h
    have htoken : Token.ofWord (const value).text.toList =
        .tagged value.type.name (const value).form.2 := by
      rw [text_const, Text.toList_tagged]
      apply Token.ofWord_tagged <;> cases value.type <;> decide
    rw [htoken]
    cases value <;> rfl
  | label name =>
    obtain ⟨rfl, -⟩ := Slot.accepts_label_iff.mp h
    simp [Token.operand?, Token.text_ofWord, text, form]
  | type tag =>
    obtain ⟨rfl, -⟩ := Slot.accepts_type_iff.mp h
    simp [Token.operand?, Token.text_ofWord, text, form]

/-- The names in an operand hold neither blanks nor comments. -/
def isPlain : Operand → Bool
  | var v => v.name.toList.all Text.isPlain
  | label name => name.toList.all Text.isPlain
  | _ => true

theorem plain_text {o : Operand} (h : o.isPlain = true) :
    ∀ c ∈ o.text.toList, Text.isPlain c = true := by
  have htagged : ∀ mark body : String, mark.toList.all Text.isPlain = true →
      body.toList.all Text.isPlain = true →
      (mark ++ "@" ++ body).toList.all Text.isPlain = true := by
    intro mark body hmark hbody
    have hat : Text.isPlain '@' = true := by decide
    rw [Text.toList_tagged, List.all_append, hmark, List.all_cons, hat, hbody]
    rfl
  rw [← List.all_eq_true]
  cases o with
  | var v => exact htagged _ _ (by cases v.frame <;> decide) h
  | const value =>
    have hbody : (const value).form.2.toList.all Text.isPlain = true := by
      rw [List.all_eq_true]
      intro c hc
      exact Text.isPlain_of_lt (mem_form_const hc).1 (mem_form_const hc).2
    rw [text_const]
    exact htagged _ _ (by cases value.type <;> decide) hbody
  | label name => exact h
  | type tag => cases tag <;> decide

theorem text_ne_nil {slot : Slot} {o : Operand} (h : slot.accepts o = true) : o.text.toList ≠ [] := by
  cases o with
  | var v => simp [text, Variable.toList_text]
  | const value => simp [text_const]
  | label name => simpa [text] using (Slot.accepts_label_iff.mp h).2
  | type tag => cases tag <;> decide

end Operand

/-! ## The text of an instruction -/

namespace Opcode

theorem plain_mnemonic {op : Opcode} {c : Char} (h : c ∈ op.mnemonic.toList) :
    Text.isPlain c = true := by
  obtain ⟨hlow, -, -⟩ := bounds_of_mem_mnemonic h
  refine Text.isPlain_of_lt (by omega) fun heq => ?_
  rw [heq] at hlow
  exact absurd hlow (by decide)

/-- A mnemonic is a word without a mark, and no directive. -/
theorem ofWord_mnemonic (op : Opcode) : Token.ofWord op.mnemonic.toList = .word op.mnemonic := by
  have hdot : ¬op.mnemonic.toList.head? = some '.' := by
    intro hhead
    have hbounds := bounds_of_mem_mnemonic (List.mem_of_head? hhead)
    exact absurd hbounds.1 (by decide)
  have hat : '@' ∉ op.mnemonic.toList := fun hmem => (bounds_of_mem_mnemonic hmem).2.2 rfl
  rw [Token.ofWord, if_neg hdot, Text.cut?_eq_none hat]
  simp only [String.ofList_toList]

end Opcode

namespace Instruction

theorem toList_text (i : Instruction) : i.text.toList =
    i.opcode.mnemonic.toList ++ (i.operands.map fun o => o.text.toList).flatMap fun w => ' ' :: w := by
  have hspace : " ".toList = [' '] := rfl
  simp [text, String.toList_join, hspace, List.flatMap_map]

variable {i : Instruction} (h : i.Conforms) (hplain : ∀ o ∈ i.operands, o.isPlain = true)
include hplain

theorem mem_text {c : Char} (hc : c ∈ i.text.toList) : Text.isPlain c = true ∨ c = ' ' := by
  rw [toList_text, List.mem_append, List.mem_flatMap] at hc
  rcases hc with hc | ⟨w, hw, hc⟩
  · exact .inl (Opcode.plain_mnemonic hc)
  · obtain ⟨o, ho, rfl⟩ := List.mem_map.mp hw
    rcases List.mem_cons.mp hc with rfl | hc
    · exact .inr rfl
    · exact .inl (Operand.plain_text (hplain o ho) c hc)

/-- The text of an instruction is a single line. -/
theorem unbroken_text : '\n' ∉ i.text.toList ∧ '\r' ∉ i.text.toList := by
  constructor
  · intro hmem
    exact absurd (mem_text hplain hmem) (by decide)
  · intro hmem
    exact absurd (mem_text hplain hmem) (by decide)

include h

/-- The words of the line are the mnemonic and the operands. -/
theorem ofLine_text : Token.ofLine i.text.toList =
    .word i.opcode.mnemonic :: i.operands.map fun o => Token.ofWord o.text.toList := by
  have hcomment : i.text.toList.takeWhile (· != '#') = i.text.toList := by
    rw [List.takeWhile_eq_self_iff]
    intro c hc
    rcases mem_text hplain hc with hc | rfl
    · simpa using (Text.isPlain_iff.mp hc).2
    · decide
  have hwords : Text.words i.text.toList =
      i.opcode.mnemonic.toList :: i.operands.map fun o => o.text.toList := by
    rw [toList_text]
    apply Text.words_spaced
    intro w hw
    rcases List.mem_cons.mp hw with rfl | hw
    · exact ⟨i.opcode.mnemonic_ne_nil, fun c hc => (Text.isPlain_iff.mp (Opcode.plain_mnemonic hc)).1⟩
    · obtain ⟨o, ho, rfl⟩ := List.mem_map.mp hw
      obtain ⟨slot, hslot⟩ := h.exists_slot ho
      exact ⟨Operand.text_ne_nil hslot,
        fun c hc => (Text.isPlain_iff.mp (Operand.plain_text (hplain o ho) c hc)).1⟩
  rw [Token.ofLine, hcomment, hwords, List.map_cons, Opcode.ofWord_mnemonic, List.map_map]
  rfl

end Instruction

end FrameCode
