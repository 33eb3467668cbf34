import FrameCode.Proofs.Node.Canonical
import FrameCode.Proofs.Streams
import FrameCode.Proofs.Text.Numeral

/-! Where decimal numbers are read: integer operands, lines of input and orders of nodes. The three
differ in the blanks around a number, in its sign, in what an empty text means and in the range.
Each accepts the numerals of its grammar and gives their exact value. -/

namespace FrameCode

/-! ## Integer operands -/

theorem Argument.operand_int {a : Argument} (h : a.kind = some "int") (op : Opcode) (index : Nat) :
    a.operand op index .symb =
      Operand.read (.value .int) (Text.trim Text.isPadding a.text.toList) := by
  have hkind : OperandKind.ofName? "int" = some (.value .int) := rfl
  simp only [operand, h, hkind, OperandKind.fits, if_true]

namespace Operand

variable {cs : List Char}

/-- What an integer operand stands for: an empty text is zero. -/
def IntLiteral (cs : List Char) (n : Int64) : Prop := cs = [] ∧ n = 0 ∨ Text.Numeral cs n.toInt

theorem read_int_eq_ok_iff {n : Int64} :
    read (.value .int) cs = .ok (.const (.int n)) ↔ IntLiteral cs n := by
  unfold IntLiteral
  by_cases hempty : cs = []
  · subst hempty
    simp [read, Text.not_numeral_nil, eq_comm]
  · simp only [hempty, false_and, false_or, ← Text.Decimal.word?_eq_some_iff]
    simp only [read, if_neg hempty]
    cases Text.Decimal.word? cs <;> simp

theorem read_int_eq_error (h : ∀ n, ¬IntLiteral cs n) :
    read (.value .int) cs = .error (.invalidInt (String.ofList cs)) := by
  have hempty : cs ≠ [] := fun hnil => h 0 (.inl ⟨hnil, rfl⟩)
  have hword := Text.Decimal.word?_eq_none fun n hn => h n (.inr hn)
  simp only [read, if_neg hempty, hword]

end Operand

/-! ## Lines of input -/

namespace Value

variable {line : String}

theorem ofInput_int (line : String) : ofInput (some line) .int =
    ((Text.Decimal.word? (Text.trim Text.isWhiteSpace line.toList)).map int).getD nil := by
  simp only [ofInput]
  cases Text.Decimal.word? (Text.trim Text.isWhiteSpace line.toList) <;> rfl

theorem ofInput_int_eq_int_iff {n : Int64} : ofInput (some line) .int = int n ↔
    Text.Numeral (Text.trim Text.isWhiteSpace line.toList) n.toInt := by
  rw [ofInput_int, ← Text.Decimal.word?_eq_some_iff]
  cases Text.Decimal.word? (Text.trim Text.isWhiteSpace line.toList) <;> simp

theorem ofInput_int_eq_nil
    (h : ∀ n : Int64, ¬Text.Numeral (Text.trim Text.isWhiteSpace line.toList) n.toInt) :
    ofInput (some line) .int = nil := by
  rw [ofInput_int, Text.Decimal.word?_eq_none h]
  rfl

end Value

/-- The instruction reads an integer into a variable that has been declared, and the host answers
with that line. -/
structure Machine.ReadsInt (m : Machine) (i : Instruction) (v : Variable) (line : String) : Prop where
  opcode : i.opcode = .read
  operands : i.operands = [.var v, .type .int]
  declared : ∃ cell, m.cell v = .ok cell
  answer : m.host.input.read.1 = .ok (some line)

theorem Machine.ReadsInt.stores {m : Machine} {i : Instruction} {v : Variable} {line : String}
    (h : m.ReadsInt i v line) (labels : LabelTable) : (m.step labels i).result = .ok .next ∧
      (m.step labels i).machine.value v = .ok (Value.ofInput (some line) .int) := by
  obtain ⟨cell, declared⟩ := h.declared
  obtain ⟨m', hread, -, hvalue⟩ := read_of_answer h.answer h.operands declared
  have hstep : m.step labels i = ⟨m', .ok .next⟩ := by simp only [step, h.opcode, hread]
  rw [hstep]
  exact ⟨rfl, hvalue⟩

/-! ## Orders -/

namespace Draft

variable {d : Draft} {n : Node} {text : String}

/-- An order is a number from 1 to 2^64 - 1 in digits alone. -/
def IsOrder (text : String) (order : Nat) : Prop :=
  Text.Digits text.toList order ∧ 1 ≤ order ∧ order < UInt64.size

theorem orderOf_eq_ok_iff_isOrder (hn : n.order = some text) {order : Nat}
    (hfree : order ∉ d.checked) : d.orderOf n = .ok order ↔ IsOrder text order := by
  rw [orderOf_eq_ok_iff, Node.statedOrder?, hn, Option.bind_some,
    Text.Decimal.order?_eq_some_iff, and_iff_left hfree]
  rfl

theorem orderOf_eq_invalidOrder (hn : n.order = some text) (h : ∀ order, ¬IsOrder text order) :
    d.orderOf n = .error (.invalidOrder text) := by
  have horder : Text.Decimal.order? text.toList = none :=
    Option.eq_none_iff_forall_not_mem.mpr fun k hk => h k (Text.Decimal.order?_eq_some_iff.mp hk)
  simp only [orderOf, hn, horder]

end Draft

/-! ## The canonical text -/

namespace Value

theorem numeral_text (n : Int64) : Text.Numeral (int n).text.toList n.toInt :=
  Text.Decimal.word?_eq_some_iff.mp (Text.Decimal.word?_ofWord n)

theorem trim_padding_text (n : Int64) :
    Text.trim Text.isPadding (int n).text.toList = (int n).text.toList :=
  Operand.trimmed_const (int n)

theorem trim_whiteSpace_text (n : Int64) :
    Text.trim Text.isWhiteSpace (int n).text.toList = (int n).text.toList := by
  have hsolid : ∀ c : Char, 45 ≤ c.toNat → c.toNat ≤ 57 → Text.isWhiteSpace c = false := by
    intro c hlow hhigh
    simp only [Text.isWhiteSpace, Text.whiteSpace, List.any_cons, List.any_nil,
      Bool.or_eq_false_iff, Bool.and_eq_false_iff, decide_eq_false_iff_not, and_true]
    omega
  refine Text.trim_of_forall fun c hc => ?_
  rcases Text.Decimal.mem_ofWord hc with rfl | hdigit
  · exact hsolid _ (by decide) (by decide)
  · have hrange := Char.isDigit_iff_toNat.mp hdigit
    have hzero : '0'.toNat = 48 := rfl
    have hnine : '9'.toNat = 57 := rfl
    exact hsolid c (by omega) (by omega)

end Value

/-- **Decimal numbers are read exactly.** An integer operand is what is left of its text without
the padding around it: nothing, which is zero, or a numeral of the operand's value; any other text
is invalid. READ takes the same numerals, without white space around them, and nil for any other
line, an empty one included. An order is digits alone, from 1 to 2^64 - 1. The canonical text of an
integer is read back as that integer in both places. -/
theorem decimal_numbers_read (text : String) :
    (∃ core, Text.Stripped (· ∈ [' ', '\t', '\n', '\x0c', '\r', '\x00', '\x0b']) text.toList core ∧
      ∀ (a : Argument) (op : Opcode) (index : Nat), a.kind = some "int" → a.text = text →
        (∀ n, a.operand op index .symb = .ok (.const (.int n)) ↔ Operand.IntLiteral core n) ∧
        ((∀ n, ¬Operand.IntLiteral core n) →
          a.operand op index .symb = .error (.invalidInt (String.ofList core)))) ∧
    (∃ core, Text.Stripped (Text.isWhiteSpace · = true) text.toList core ∧
      ∀ (m : Machine) (labels : LabelTable) (i : Instruction) (v : Variable),
        m.ReadsInt i v text → (m.step labels i).result = .ok .next ∧
        (∀ n, (m.step labels i).machine.value v = .ok (.int n) ↔ Text.Numeral core n.toInt) ∧
        ((∀ n : Int64, ¬Text.Numeral core n.toInt) →
          (m.step labels i).machine.value v = .ok .nil) ∧
        (core = [] → (m.step labels i).machine.value v = .ok .nil)) ∧
    (∀ (d : Draft) (n : Node), n.order = some text →
      (∀ order, order ∉ d.checked → (d.orderOf n = .ok order ↔ Draft.IsOrder text order)) ∧
      ((∀ order, ¬Draft.IsOrder text order) → d.orderOf n = .error (.invalidOrder text))) ∧
    ∀ n : Int64, text = (Value.int n).text →
      (∀ (a : Argument) (op : Opcode) (index : Nat), a.kind = some "int" → a.text = text →
        a.operand op index .symb = .ok (.const (.int n))) ∧
      ∀ (m : Machine) (labels : LabelTable) (i : Instruction) (v : Variable),
        m.ReadsInt i v text → (m.step labels i).machine.value v = .ok (.int n) := by
  have hpadding : (· ∈ [' ', '\t', '\n', '\x0c', '\r', '\x00', '\x0b']) =
      (Text.isPadding · = true) := funext fun c => propext Text.isPadding_iff.symm
  refine ⟨⟨Text.trim Text.isPadding text.toList, ?_, ?_⟩,
    ⟨Text.trim Text.isWhiteSpace text.toList, Text.stripped_iff.mpr rfl, ?_⟩,
    fun d n hn => ⟨fun order hfree => Draft.orderOf_eq_ok_iff_isOrder hn hfree,
      Draft.orderOf_eq_invalidOrder hn⟩, ?_⟩
  · rw [hpadding]
    exact Text.stripped_iff.mpr rfl
  · rintro a op index hkind rfl
    rw [Argument.operand_int hkind]
    exact ⟨fun n => Operand.read_int_eq_ok_iff, Operand.read_int_eq_error⟩
  · intro m labels i v h
    obtain ⟨hresult, hvalue⟩ := h.stores labels
    have hnil (hnone : ∀ n : Int64,
        ¬Text.Numeral (Text.trim Text.isWhiteSpace text.toList) n.toInt) :
        (m.step labels i).machine.value v = .ok .nil := by
      rw [hvalue, Value.ofInput_int_eq_nil hnone]
    refine ⟨hresult, fun n => ?_, hnil, fun hempty => hnil fun n => ?_⟩
    · rw [hvalue, Except.ok.injEq, Value.ofInput_int_eq_int_iff]
    · rw [hempty]
      exact Text.not_numeral_nil n.toInt
  · rintro n rfl
    refine ⟨?_, fun m labels i v h => ?_⟩
    · rintro a op index hkind htext
      rw [Argument.operand_int hkind, htext, Value.trim_padding_text]
      exact Operand.read_int_eq_ok_iff.mpr (.inr (Value.numeral_text n))
    · rw [(h.stores labels).2, Except.ok.injEq, Value.ofInput_int_eq_int_iff,
        Value.trim_whiteSpace_text]
      exact Value.numeral_text n

/-- A blank is zero as an operand and nil as a line, and the least word is read back in both
places. -/
theorem decimal_numbers_read_least_word :
    let x : Variable := ⟨.globals, "x"⟩
    let read : Instruction := ⟨1, .read, [.var x, .type .int]⟩
    let literal : String → Argument := fun text => ⟨"arg1", some "int", text⟩
    let before : String → Machine := fun line =>
      { globals := (Frame.empty.declare? "x").getD .empty, host := { input := { lines := [line] } } }
    let least := "-9223372036854775808"
    (literal " ").operand .pushs 1 .symb = .ok (.const (.int 0)) ∧
    ((before " ").step .empty read).machine.value x = .ok .nil ∧
    (literal least).operand .pushs 1 .symb = .ok (.const (.int Int64.minValue)) ∧
    ((before least).step .empty read).machine.value x = .ok (.int Int64.minValue) := by
  intro x read literal before least
  have hcell : Machine.cell { globals := (Frame.empty.declare? "x").getD .empty } x =
      .ok { name := "x" } := by decide +kernel
  have hreads (line : String) : (before line).ReadsInt read x line :=
    ⟨rfl, rfl, ⟨_, hcell⟩, rfl⟩
  have hnothing {set : Char → Prop} {core : List Char} (hset : set ' ')
      (h : Text.Stripped set " ".toList core) : core = [] := by
    cases core with
    | nil => rfl
    | cons c rest =>
      obtain ⟨_, _, heq, -, -⟩ := h.surrounded
      have hc : c ∈ " ".toList := by simp [heq]
      obtain rfl : c = ' ' := List.mem_singleton.mp hc
      exact absurd hset (h.head ' ' rfl)
  obtain ⟨⟨_, hcore, hoperand⟩, ⟨_, hcore', hline⟩, -⟩ := decimal_numbers_read " "
  obtain ⟨-, -, -, hcanonical⟩ := decimal_numbers_read least
  obtain ⟨hleast, hleast'⟩ := hcanonical Int64.minValue (by decide +kernel)
  refine ⟨?_, ?_, hleast (literal least) .pushs 1 rfl rfl, hleast' _ .empty read x (hreads least)⟩
  · exact ((hoperand (literal " ") .pushs 1 rfl rfl).1 0).mpr
      (.inl ⟨hnothing List.mem_cons_self hcore, rfl⟩)
  · exact (hline (before " ") .empty read x (hreads " ")).2.2.2 (hnothing (by decide) hcore')

end FrameCode
