import FrameCode.Proofs.Source.Assembled

/-! Which signature decides what the words of a line are. The assembler looks up the first
word as it stands, and the loader looks it up without the white space around it. Word blanks
never surround a word, but other white space may: then only the loader knows the opcode, and
the words after it have been read without any signature (`Source.kinds_of_assemble`). -/

namespace FrameCode

/-! ## Two ways to look up an opcode -/

/-- No white space surrounds the text. -/
def Text.Bare (text : String) : Prop := Text.trim Text.isWhiteSpace text.toList = text.toList

instance (text : String) : Decidable (Text.Bare text) :=
  inferInstanceAs (Decidable (Text.trim Text.isWhiteSpace text.toList = text.toList))

/-- A name that stands for an opcode as it is has no white space in it. -/
theorem Opcode.bare_of_ofMnemonic? {name : String} {op : Opcode}
    (h : Opcode.ofMnemonic? name = some op) : Text.Bare name := by
  rw [← String.ofList_toList (s := name), Opcode.ofMnemonic?_eq_some_iff] at h
  apply Text.trim_of_forall
  intro c hc
  have hlower : c.toLower ∈ op.mnemonic.toList.map Char.toLower := h ▸ List.mem_map_of_mem hc
  obtain ⟨d, hd, heq⟩ := List.mem_map.mp hlower
  rw [← Text.isWhiteSpace_toLower, ← heq, Text.isWhiteSpace_toLower]
  exact Opcode.isWhiteSpace_of_mem_mnemonic hd

/-- What the loader finds without white space is found at once, or not at all. -/
theorem Node.ofMnemonic?_of_opcodeOf {n : Node} {name : String} {op : Opcode}
    (hname : n.opcode = some name) (hop : n.opcodeOf = .ok op) :
    Opcode.ofMnemonic? name = if Text.Bare name then some op else none := by
  split
  · next hbare =>
    obtain ⟨name', hname', hletters⟩ := Node.opcodeOf_eq_ok_iff.mp hop
    cases hname.symm.trans hname'
    rw [← Opcode.ofMnemonic?_eq_some_iff] at hletters
    rwa [hbare, String.ofList_toList] at hletters
  · next hbare =>
    cases hfound : Opcode.ofMnemonic? name with
    | none => rfl
    | some op' => exact absurd (Opcode.bare_of_ofMnemonic? hfound) hbare

/-! ## Kinds of operands -/

namespace Node

/-- Each child states the kind and the text that its word gives for its slot, or for none
where there is no slot left. -/
def ReadBy (slots : List Slot) (args : List Token) (n : Node) : Prop :=
  ∀ (k : Nat) a, n.children[k]? = some a → ∃ t kind, args[k]? = some t ∧ a.kind = some kind ∧
    t.operand? slots[k]? = some (kind, a.text)

/-- Children in slots for labels and for types state that they are such. -/
def KindsFollow (op : Opcode) (n : Node) : Prop :=
  ∀ (k : Nat) a, n.children[k]? = some a →
    (op.signature[k]? = some .label → a.kind = some "label") ∧
    (op.signature[k]? = some .type → a.kind = some "type")

theorem readBy_of_ofTokens {order : Nat} {head : Token} {args : List Token} {n : Node}
    (h : ofTokens order head args = .ok n) :
    n.ReadBy (((Opcode.ofMnemonic? head.text).map Opcode.signature).getD []) args := by
  unfold ofTokens at h
  split at h
  · cases h
  · split at h
    · cases h
    · obtain ⟨-, -, added, hchildren, -, hadded⟩ := children_of_withOperands h
      rw [List.nil_append] at hchildren
      subst hchildren
      exact fun k a hk => (hadded k a hk).2

theorem ReadBy.kindsFollow {op : Opcode} {args : List Token} {n : Node}
    (h : n.ReadBy op.signature args) : n.KindsFollow op := by
  intro k a hk
  obtain ⟨t, kind, -, hkind, hoperand⟩ := h k a hk
  constructor
  · intro hslot
    rw [hslot] at hoperand
    obtain ⟨rfl, -⟩ := Prod.mk.inj (Option.some.inj hoperand)
    exact hkind
  · intro hslot
    rw [hslot] at hoperand
    obtain ⟨rfl, -⟩ := Prod.mk.inj (Option.some.inj hoperand)
    exact hkind

end Node

namespace Source

/-- **The signature decides, unless white space hides the opcode.** Where the loader finds an
opcode in the node of a line and no white space surrounds the line's first word, the words
after it have been read by the signature of this opcode: those in slots for labels and types
as labels and types. Where there is white space around the first word they have been read
without a signature, each by its own shape. -/
theorem kinds_of_assemble {text : String} {ns : List Node} (h : assemble text = .ok ns) {k : Nat}
    {n : Node} (hn : ns[k]? = some n) {op : Opcode} (hop : n.opcodeOf = .ok op) :
    ∃ head args, (instructionLines text)[k]? = some (head :: args) ∧ n.opcode = some head.text ∧
      (Text.Bare head.text → n.ReadBy op.signature args ∧ n.KindsFollow op) ∧
      (¬Text.Bare head.text → n.ReadBy [] args) := by
  obtain ⟨-, hlines⟩ := ofTokens_of_assemble h
  obtain ⟨head, args, hline, hnode⟩ := hlines k n hn
  have hname : n.opcode = some head.text := (Node.fromWords_of_ofTokens hnode).opcode
  have hread := Node.readBy_of_ofTokens hnode
  rw [Node.ofMnemonic?_of_opcodeOf hname hop] at hread
  refine ⟨head, args, hline, hname, fun hbare => ?_, fun hbare => ?_⟩
  · rw [if_pos hbare] at hread
    exact ⟨hread, hread.kindsFollow⟩
  · rw [if_neg hbare] at hread
    exact hread

/-- A jump whose label looks like a variable, and one behind a space that parts no words. -/
theorem kinds_of_assemble_two_jumps :
    let text := "jump GF@x\n\u00a0JUMP GF@x\n"
    ∃ n n', assemble text = .ok [n, n'] ∧ n.opcodeOf = .ok .jump ∧ n'.opcodeOf = .ok .jump ∧
      n.KindsFollow .jump ∧ n'.ReadBy [] [.tagged "GF" "x"] := by
  intro text
  have hwords : instructionLines text =
      [[.word "jump", .tagged "GF" "x"], [.word "\u00a0JUMP", .tagged "GF" "x"]] := by decide
  have hnodes : ∃ n n', assemble text = .ok [n, n'] ∧ n.opcodeOf = .ok .jump ∧
      n'.opcodeOf = .ok .jump := by
    unfold text
    exact ⟨_, _, rfl, rfl, rfl⟩
  obtain ⟨n, n', h, hop, hop'⟩ := hnodes
  have hfirst := kinds_of_assemble h (k := 0) rfl hop
  have hsecond := kinds_of_assemble h (k := 1) rfl hop'
  rw [hwords] at hfirst hsecond
  obtain ⟨head, args, hline, -, hfollow, -⟩ := hfirst
  obtain ⟨head', args', hline', -, -, hastray⟩ := hsecond
  cases hline
  cases hline'
  exact ⟨n, n', h, hop, hop', (hfollow (by decide)).2, hastray (by decide)⟩

/-- A type that is not read as one, because the line begins with a space that parts no words. -/
theorem kinds_astray_behind_space :
    let text := "\u00a0READ GF@x int"
    ∃ ns n, assemble text = .ok ns ∧ n ∈ ns ∧ n.opcodeOf = .ok .read ∧ ¬n.KindsFollow .read := by
  intro text
  let n : Node := {
    order := some "1"
    opcode := some "\u00a0READ"
    children := [⟨"arg1", some "var", "GF@x"⟩, ⟨"arg2", some "label", "int"⟩] }
  have hnodes : assemble text = .ok [n] := by
    unfold text
    rfl
  refine ⟨[n], n, hnodes, List.mem_singleton_self n, rfl, fun hfollow => ?_⟩
  have htype : some "label" = some "type" := (hfollow 1 _ rfl).2 rfl
  exact absurd htype (by decide)

end Source

end FrameCode
