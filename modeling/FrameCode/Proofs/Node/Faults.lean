import FrameCode.Program.Load
import FrameCode.Proofs.Signature

/-! What decoding a node can object to. Every fault quotes the node itself: its opcode, a tag or
a kind of a child, or the text of a child without the padding (`Node.decode_objects`). -/

namespace FrameCode

/-- The faults that reading a word as an operand can end in. -/
inductive Operand.Misread (word : String) : NodeFault → Prop
  | var : Misread word (.invalidVariable word)
  | int : Misread word (.invalidInt word)
  | bool : Misread word (.invalidBool word)
  | nil : Misread word (.invalidNil word)
  | label : Misread word .emptyLabel
  | type : Misread word (.invalidTypeName word)

/-- The faults that a node can be told of, its label aside. -/
inductive Node.Objection (n : Node) : NodeFault → Prop
  | noOpcode : Objection n .missingOpcode
  | opcode {name : String} (stated : n.opcode = some name) : Objection n (.unknownOpcode name)
  | unexpected {a : Argument} (child : a ∈ n.children) : Objection n (.unexpectedChild a.tag)
  | duplicate {a : Argument} (child : a ∈ n.children) : Objection n (.duplicateChild a.tag)
  | gap {tag : String} (known : tag ∈ argumentTags) : Objection n (.argumentGap tag)
  | count (op : Opcode) (found : Nat) : Objection n (.wrongOperandCount op found)
  | noKind {a : Argument} (child : a ∈ n.children) : Objection n (.missingOperandKind a.tag)
  | kind {a : Argument} {name : String} (child : a ∈ n.children) (stated : a.kind = some name) :
    Objection n (.unknownOperandKind name)
  | mismatch {a : Argument} {name : String} (child : a ∈ n.children) (stated : a.kind = some name)
    (op : Opcode) (index : Nat) : Objection n (.operandKindMismatch op index name)
  | text {a : Argument} {fault : NodeFault} (child : a ∈ n.children)
    (misread : Operand.Misread (String.ofList (Text.trim Text.isPadding a.text.toList)) fault) :
    Objection n fault

theorem Operand.read_misreads (kind : OperandKind) (text : List Char) :
    FailsOnly (Operand.Misread (String.ofList text)) (Operand.read kind text) := by
  cases kind with
  | var =>
    simp only [Operand.read]
    split
    · exact .ok _
    · exact .error .var
  | value tag =>
    cases tag with
    | int =>
      simp only [Operand.read]
      split
      · exact .ok _
      · split
        · exact .ok _
        · exact .error .int
    | bool =>
      simp only [Operand.read]
      split
      · exact .ok _
      · split
        · exact .ok _
        · exact .error .bool
    | string => exact .ok _
    | nil =>
      simp only [Operand.read]
      split
      · exact .ok _
      · exact .error .nil
  | label =>
    simp only [Operand.read]
    split
    · exact .error .label
    · exact .ok _
  | type =>
    simp only [Operand.read]
    split
    · exact .ok _
    · exact .error .type

namespace Node

variable {n : Node}

theorem operand_objects {a : Argument} (ha : a ∈ n.children) (op : Opcode) (index : Nat)
    (slot : Slot) : FailsOnly n.Objection (a.operand op index slot) := by
  unfold Argument.operand
  split
  · exact .error (.noKind ha)
  · next name hname =>
    split
    · exact .error (.kind ha hname)
    · split
      · exact fun fault hfault => .text ha (Operand.read_misreads _ _ fault hfault)
      · exact .error (.mismatch ha hname op index)

theorem operands_object {args : List Argument} (hargs : args ⊆ n.children) (op : Opcode)
    (index : Nat) (slots : List Slot) : FailsOnly n.Objection (operands op index slots args) := by
  induction slots generalizing args index with
  | nil => exact .ok _
  | cons slot slots ih =>
    cases args with
    | nil => exact .ok _
    | cons a args =>
      obtain ⟨ha, hrest⟩ := List.cons_subset.mp hargs
      unfold operands
      exact .bind (operand_objects ha op index slot) fun o =>
        .bind (ih hrest (index + 1)) fun ops => .ok _

theorem checkTags_objects {children : List Argument} (h : children ⊆ n.children)
    (seen : List String) : FailsOnly n.Objection (checkTags seen children) := by
  induction children generalizing seen with
  | nil => exact .ok _
  | cons a rest ih =>
    obtain ⟨ha, hrest⟩ := List.cons_subset.mp h
    unfold checkTags
    split
    · exact .error (.unexpected ha)
    · split
      · exact .error (.duplicate ha)
      · exact ih hrest (a.tag :: seen)

theorem arguments_object (n : Node) : FailsOnly n.Objection n.arguments := by
  refine .bind (checkTags_objects (List.Subset.refl _) []) fun _ => ?_
  dsimp only
  split
  · exact .ok _
  · exact .ok _
  · exact .ok _
  · exact .ok _
  · exact .error (.gap (by simp [argumentTags]))
  · exact .error (.gap (by simp [argumentTags]))

theorem opcodeOf_objects (n : Node) : FailsOnly n.Objection n.opcodeOf := by
  unfold opcodeOf
  split
  · exact .error .noOpcode
  · next name hname =>
    split
    · exact .ok _
    · exact .error (.opcode hname)

/-- The arguments are children, so what is said of them is said of the node. -/
theorem decode_objects (n : Node) (k : Nat) : FailsOnly n.Objection (n.decode k) := by
  refine .bind n.opcodeOf_objects fun op => ?_
  intro fault hfault
  rcases bind_eq_error_iff.mp hfault with hargs | ⟨args, hargs, hrest⟩
  · exact n.arguments_object fault hargs
  · split at hrest
    · exact FailsOnly.error (.count op args.length) fault hrest
    · have hoperands := operands_object (arguments_subset hargs) op 1 op.signature
      exact FailsOnly.bind hoperands (fun ops => .ok _) fault hrest

theorem Objection.errorClass {fault : NodeFault} (h : n.Objection fault) :
    fault.errorClass = .structural := by
  cases h with
  | text _ misread => cases misread <;> rfl
  | _ => rfl

end Node

end FrameCode
