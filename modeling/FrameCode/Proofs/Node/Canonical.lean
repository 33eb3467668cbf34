import FrameCode.Proofs.Signature
import FrameCode.Proofs.Text.Decimal
import FrameCode.Proofs.Text.Escape
import FrameCode.Proofs.Text.Layout

/-! The node that an instruction is written as: every operand as one text, under the
kind that reads it. Decoding the node gives the instruction again
(`Instruction.decode_node`), as long as no operand's text has padding around it, and no
decoded one has (`Node.trimmed_of_decode`). -/

namespace FrameCode

/-! ## Names that are read back -/

theorem Opcode.mem_all (op : Opcode) : op ∈ Opcode.all := by
  cases op with
  | unary op => cases op <;> decide
  | binary op => cases op <;> decide
  | unaryStack op => cases op <;> decide
  | binaryStack op => cases op <;> decide
  | jumpIf equal => cases equal <;> decide
  | jumpIfStack equal => cases equal <;> decide
  | _ => decide

theorem Opcode.ofMnemonic?_mnemonic (op : Opcode) : Opcode.ofMnemonic? op.mnemonic = some op := by
  have hall : ∀ op ∈ Opcode.all, Opcode.ofMnemonic? op.mnemonic = some op := by decide +kernel
  exact hall op op.mem_all

/-- Mnemonics are made of digits and capital letters. -/
theorem Opcode.bounds_of_mem_mnemonic {op : Opcode} {c : Char} (h : c ∈ op.mnemonic.toList) :
    48 ≤ c.toNat ∧ c.toNat ≤ 90 ∧ c ≠ '@' := by
  have hall : ∀ op ∈ Opcode.all, op.mnemonic.toList.all
      (fun c => 48 ≤ c.toNat && c.toNat ≤ 90 && c != '@') = true := by decide +kernel
  have hc := List.all_eq_true.mp (hall op op.mem_all) c h
  simpa [and_assoc] using hc

theorem Opcode.isWhiteSpace_of_mem_mnemonic {op : Opcode} {c : Char} (h : c ∈ op.mnemonic.toList) :
    Text.isWhiteSpace c = false := by
  have hbounds := Opcode.bounds_of_mem_mnemonic h
  simp only [Text.isWhiteSpace, Text.whiteSpace, List.any_cons, List.any_nil, Bool.or_eq_false_iff,
    Bool.and_eq_false_iff, decide_eq_false_iff_not, and_true]
  omega

theorem Opcode.mnemonic_ne_nil (op : Opcode) : op.mnemonic.toList ≠ [] := by
  have hall : ∀ op ∈ Opcode.all, op.mnemonic.toList ≠ [] := by decide +kernel
  exact hall op op.mem_all

theorem Opcode.length_signature_le (op : Opcode) : op.signature.length ≤ 3 := by
  cases op <;> simp [Opcode.signature]

theorem FrameKind.ofMark?_mark (k : FrameKind) : FrameKind.ofMark? k.mark = some k := by
  cases k <;> rfl

theorem FrameKind.mark_of_ofMark? {mark : String} {k : FrameKind}
    (h : FrameKind.ofMark? mark = some k) : k.mark = mark := by
  simpa using List.find?_some h

namespace Variable

theorem toList_text (v : Variable) :
    v.text.toList = v.frame.mark.toList ++ '@' :: v.name.toList :=
  Text.toList_tagged v.frame.mark v.name

theorem cut?_text (v : Variable) :
    Text.cut? '@' v.text.toList = some (v.frame.mark.toList, v.name.toList) := by
  rw [toList_text]
  apply Text.cut?_append
  cases v.frame <;> decide

theorem ofText?_text {v : Variable} (h : v.name ≠ "") : ofText? v.text = some v := by
  have hne : ¬v.name.toList = [] := by simpa using h
  simp [ofText?, cut?_text, FrameKind.ofMark?_mark, hne]

theorem text_of_ofText? {word : String} {v : Variable} (h : ofText? word = some v) : v.text = word := by
  obtain ⟨mark, hcut, hframe, -⟩ := ofText?_eq_some h
  rw [← String.toList_inj, toList_text, FrameKind.mark_of_ofMark? hframe, String.toList_ofList,
    Text.eq_append_of_cut? hcut]

end Variable

/-! ## Operands and their texts -/

namespace Operand

/-- Kind and text of the argument that an operand is written as. -/
def form : Operand → String × String
  | var v => ("var", v.text)
  | const (.str s) => ("string", Text.Escape.encodeText s)
  | const value => (value.type.name, value.text)
  | label name => ("label", name)
  | type tag => ("type", tag.name)

/-- No padding stands around the operand's text. -/
def Trimmed (o : Operand) : Prop :=
  Text.trim Text.isPadding o.form.2.toList = o.form.2.toList

/-- The text of a constant has neither blanks nor comments in it, whatever the constant
holds. -/
theorem mem_form_const {value : Value} {c : Char} (h : c ∈ (const value).form.2.toList) :
    32 < c.toNat ∧ c ≠ '#' := by
  have hliteral : ∀ text : String, text.toList.all (fun c => 32 < c.toNat && c != '#') = true →
      c ∈ text.toList → 32 < c.toNat ∧ c ≠ '#' := by
    intro text hall hc
    simpa using List.all_eq_true.mp hall c hc
  cases value with
  | int n =>
    rcases Text.Decimal.mem_ofWord h with rfl | hdigit
    · decide
    · exact Text.Decimal.solid_of_isDigit hdigit
  | bool b => cases b <;> exact hliteral _ (by decide) h
  | str s =>
    rw [form, Text.Escape.encodeText, String.toList_ofList] at h
    exact Text.Escape.mem_encode h
  | nil => exact hliteral _ (by decide) h

theorem trimmed_const (value : Value) : (const value).Trimmed :=
  Text.trim_of_forall fun _ hc => Text.isPadding_eq_false (mem_form_const hc).1

theorem trimmed_of_read {kind : OperandKind} {cs : List Char} {o : Operand}
    (h : read kind (Text.trim Text.isPadding cs) = .ok o) : o.Trimmed := by
  cases reading_of_read h with
  | var named =>
    rw [Trimmed, form, Variable.text_of_ofText? named, String.toList_ofList, Text.trim_trim]
  | const value => exact trimmed_const value
  | label given => rw [Trimmed, form, String.toList_ofList, Text.trim_trim]
  | @type tag readable => cases tag <;> rfl

/-- The written form of an operand that a slot takes is read as that operand. -/
theorem read_form {slot : Slot} {o : Operand} (h : slot.accepts o = true) :
    ∃ kind, OperandKind.ofName? o.form.1 = some kind ∧ kind.fits slot = true ∧
      read kind o.form.2.toList = .ok o := by
  cases o with
  | var v =>
    obtain ⟨hslot, hname⟩ := Slot.accepts_var_iff.mp h
    refine ⟨.var, rfl, by rcases hslot with rfl | rfl <;> rfl, ?_⟩
    simp only [read, form, String.ofList_toList, Variable.ofText?_text hname]
  | const value =>
    obtain rfl := Slot.accepts_const_iff.mp h
    refine ⟨.value value.type, by cases value <;> rfl, rfl, ?_⟩
    cases value with
    | int n =>
      show read (.value .int) (Text.Decimal.ofWord n).toList = _
      rw [read, if_neg (Text.Decimal.ofWord_ne_nil n), Text.Decimal.word?_ofWord]
    | bool b => cases b <;> rfl
    | str s =>
      show read (.value .string) (Text.Escape.encodeText s).toList = _
      rw [read, String.ofList_toList, Text.Escape.decodeText_encodeText]
    | nil => rfl
  | label name =>
    obtain ⟨rfl, hname⟩ := Slot.accepts_label_iff.mp h
    have hne : ¬name.toList = [] := by simpa using hname
    refine ⟨.label, rfl, rfl, ?_⟩
    simp only [read, form, hne, if_false, String.ofList_toList]
  | type tag =>
    obtain ⟨rfl, htag⟩ := Slot.accepts_type_iff.mp h
    refine ⟨.type, rfl, rfl, ?_⟩
    cases tag with
    | nil => cases htag
    | int => rfl
    | bool => rfl
    | string => rfl

end Operand

/-! ## Nodes -/

/-- The argument is the written form of the operand. -/
def Argument.Writes (a : Argument) (o : Operand) : Prop :=
  a.kind = some o.form.1 ∧ a.text = o.form.2

theorem Argument.operand_of_writes {a : Argument} {o : Operand} (h : a.Writes o) (htrim : o.Trimmed)
    {slot : Slot} (hslot : slot.accepts o = true) (op : Opcode) (index : Nat) :
    a.operand op index slot = .ok o := by
  obtain ⟨kind, hkind, hfits, hread⟩ := Operand.read_form hslot
  unfold Argument.operand
  rw [h.1, h.2, htrim]
  simp only [hkind, hfits, if_true, hread]

namespace Node

/-- Adds the written forms of operands. -/
def write (n : Node) (ops : List Operand) : Node :=
  ops.foldl (fun n o => n.arg o.form.1 o.form.2) n

theorem order_write (n : Node) (ops : List Operand) : (n.write ops).order = n.order := by
  induction ops generalizing n with
  | nil => rfl
  | cons o ops ih => exact ih (n.arg o.form.1 o.form.2)

theorem opcode_write (n : Node) (ops : List Operand) : (n.write ops).opcode = n.opcode := by
  induction ops generalizing n with
  | nil => rfl
  | cons o ops ih => exact ih (n.arg o.form.1 o.form.2)

/-- Arguments that are numbered as they are added are found in that order, up to the
three that a node can have. -/
theorem arguments_write {order opcode : Option String} {ops : List Operand} (h : ops.length ≤ 3) :
    ∃ args, (({ order, opcode } : Node).write ops).arguments = .ok args ∧
      List.Forall₂ Argument.Writes args ops := by
  have htag₁ : "arg" ++ Text.Decimal.ofNat 1 = "arg1" := rfl
  have htag₂ : "arg" ++ Text.Decimal.ofNat 2 = "arg2" := rfl
  have htag₃ : "arg" ++ Text.Decimal.ofNat 3 = "arg3" := rfl
  match ops with
  | [] => exact ⟨[], rfl, .nil⟩
  | [a] =>
    refine ⟨[⟨"arg1", some a.form.1, a.form.2⟩], ?_, .cons ⟨rfl, rfl⟩ .nil⟩
    simp [write, arg, child, arguments, checkTags, argumentTags, htag₁]
  | [a, b] =>
    refine ⟨[⟨"arg1", some a.form.1, a.form.2⟩, ⟨"arg2", some b.form.1, b.form.2⟩], ?_,
      .cons ⟨rfl, rfl⟩ (.cons ⟨rfl, rfl⟩ .nil)⟩
    simp [write, arg, child, arguments, checkTags, argumentTags, htag₁, htag₂]
  | [a, b, c] =>
    refine ⟨[⟨"arg1", some a.form.1, a.form.2⟩, ⟨"arg2", some b.form.1, b.form.2⟩,
      ⟨"arg3", some c.form.1, c.form.2⟩], ?_,
      .cons ⟨rfl, rfl⟩ (.cons ⟨rfl, rfl⟩ (.cons ⟨rfl, rfl⟩ .nil))⟩
    simp [write, arg, child, arguments, checkTags, argumentTags, htag₁, htag₂, htag₃]
  | a :: b :: c :: d :: rest =>
    simp only [List.length_cons] at h
    omega

theorem operands_of_writes {op : Opcode} {k : Nat} {slots : List Slot} {ops : List Operand}
    {args : List Argument} (hslots : List.Forall₂ (fun slot o => slot.accepts o = true) slots ops)
    (htrim : ∀ o ∈ ops, o.Trimmed) (hargs : List.Forall₂ Argument.Writes args ops) :
    operands op k slots args = .ok ops := by
  induction hslots generalizing args k with
  | nil =>
    cases hargs
    rfl
  | cons hslot _ ih =>
    cases hargs with
    | cons ha hargs =>
      have hrest := fun k => @ih k _ (fun o ho => htrim o (List.mem_cons_of_mem _ ho)) hargs
      have hfirst := fun k => Argument.operand_of_writes ha (htrim _ List.mem_cons_self) hslot op k
      simp [operands, hfirst, hrest]

/-- Whatever a node decodes to has the padding around its operands removed. -/
theorem trimmed_of_decode {n : Node} {k : Nat} {i : Instruction} (h : n.decode k = .ok i) :
    ∀ o ∈ i.operands, o.Trimmed := by
  refine forall_operands_of_decode h fun a _ op k slot o ho => ?_
  obtain ⟨_, kind, _, _, _, hread⟩ := Argument.operand_eq_ok ho
  exact Operand.trimmed_of_read hread

end Node

namespace Instruction

/-- The node that an instruction is written as. -/
def node (i : Instruction) : Node :=
  ({ order := some (Text.Decimal.ofNat i.position), opcode := some i.opcode.mnemonic } : Node).write
    i.operands

theorem opcodeOf_node (i : Instruction) : i.node.opcodeOf = .ok i.opcode := by
  have htrim : Text.trim Text.isWhiteSpace i.opcode.mnemonic.toList = i.opcode.mnemonic.toList :=
    Text.trim_of_forall fun _ hc => Opcode.isWhiteSpace_of_mem_mnemonic hc
  simp only [Node.opcodeOf, node, Node.opcode_write, htrim, String.ofList_toList,
    Opcode.ofMnemonic?_mnemonic]

/-- An instruction that fits its signature is read back from the node that it is
written as. -/
theorem decode_node {i : Instruction} (h : i.Conforms) (htrim : ∀ o ∈ i.operands, o.Trimmed) :
    i.node.decode i.position = .ok i := by
  have hlen : i.operands.length = i.opcode.arity := h.length_eq.symm
  obtain ⟨args, hargs, hwrites⟩ :=
    Node.arguments_write (hlen ▸ i.opcode.length_signature_le : i.operands.length ≤ 3)
  exact Node.decode_eq_ok_iff.mpr ⟨i.opcode, args, i.operands, i.opcodeOf_node, hargs,
    hwrites.length_eq.trans hlen, Node.operands_of_writes h htrim hwrites, rfl⟩

end Instruction

end FrameCode
