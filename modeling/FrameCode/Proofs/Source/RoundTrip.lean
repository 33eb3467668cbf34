import FrameCode.Proofs.Load
import FrameCode.Proofs.Source.Line
import FrameCode.Source.Build

/-! Programs and their source texts. The source of a loaded program is assembled to the
nodes that its instructions are written as (`Source.assemble_source`), and those load to
the program again. Names must be plain for that, and they are in every program that was
itself built from a source (`Program.plainNames_of_ofSource`). -/

namespace FrameCode

/-! ## From the source of a program to its nodes -/

namespace Node

theorem withOperands_text {slots : List Slot} {ops : List Operand}
    (h : List.Forall₂ (fun slot o => slot.accepts o = true) slots ops) (n : Node) :
    n.withOperands slots (ops.map fun o => Token.ofWord o.text.toList) = .ok (n.write ops) := by
  induction h generalizing n with
  | nil => rfl
  | cons hslot _ ih =>
    simp only [List.map_cons, withOperands, List.head?_cons, Operand.operand?_text hslot, List.tail_cons]
    exact ih _

theorem ofTokens_text {i : Instruction} (h : i.Conforms) :
    ofTokens i.position (.word i.opcode.mnemonic)
      (i.operands.map fun o => Token.ofWord o.text.toList) = .ok i.node := by
  have hlen : ¬3 < (i.operands.map fun o => Token.ofWord o.text.toList).length := by
    rw [List.length_map, ← h.length_eq]
    exact Nat.not_lt.mpr i.opcode.length_signature_le
  simp only [ofTokens, hlen, if_false, Token.text, Opcode.ofMnemonic?_mnemonic, Option.map_some,
    Option.getD_some]
  exact withOperands_text h _

end Node

namespace Source

/-- The lines that hold words, numbered on from a first one. -/
def numbered (first : Nat) (lines : List (List Char)) : List (Nat × Token × List Token) :=
  (lines.zipIdx first).filterMap fun (line, k) =>
    match Token.ofLine line with
    | [] => none
    | head :: args => some (k + 1, head, args)

theorem content_eq (text : String) : content text = numbered 0 (Text.lines text.toList) := rfl

theorem numbered_cons {line : List Char} {head : Token} {args : List Token}
    (h : Token.ofLine line = head :: args) (first : Nat) (lines : List (List Char)) :
    numbered first (line :: lines) = (first + 1, head, args) :: numbered (first + 1) lines := by
  simp only [numbered, List.zipIdx_cons, List.filterMap_cons, h]

theorem numbered_skip {line : List Char} (h : Token.ofLine line = []) (first : Nat)
    (lines : List (List Char)) : numbered first (line :: lines) = numbered (first + 1) lines := by
  simp only [numbered, List.zipIdx_cons, List.filterMap_cons, h]

/-- Lines of instructions give their nodes, as long as the orders count along with the
positions. -/
theorem nodes_numbered {is : List Instruction}
    (h : ∀ i ∈ is, i.Conforms ∧ ∀ o ∈ i.operands, o.isPlain = true) {order : Nat}
    (hpos : ∀ k i, is[k]? = some i → i.position = order + k) (first : Nat) :
    nodes order (numbered first (is.map fun i => i.text.toList)) = .ok (is.map Instruction.node) := by
  induction is generalizing order first with
  | nil => rfl
  | cons i is ih =>
    obtain ⟨hconf, hplain⟩ := h i List.mem_cons_self
    have hfirst : i.position = order := hpos 0 i rfl
    have hnext : ∀ k j, is[k]? = some j → j.position = order + 1 + k := by
      intro k j hj
      rw [hpos (k + 1) j hj]
      omega
    have hrest := ih (fun j hj => h j (List.mem_cons_of_mem i hj)) hnext (first + 1)
    rw [List.map_cons, numbered_cons (Instruction.ofLine_text hconf hplain), nodes, ← hfirst,
      Node.ofTokens_text hconf, hfirst, hrest]
    rfl

end Source

namespace Program

/-- The names of variables and labels in a program hold neither blanks nor the sign that
starts a comment. -/
def PlainNames (p : Program) : Prop := ∀ i ∈ p.instructions, ∀ o ∈ i.operands, o.isPlain = true

instance (p : Program) : Decidable p.PlainNames :=
  inferInstanceAs (Decidable (∀ i ∈ p.instructions, ∀ o ∈ i.operands, o.isPlain = true))

theorem toList_source (p : Program) : p.source.toList =
    (header.toList :: p.instructions.toList.map fun i => i.text.toList).flatMap fun l => l ++ ['\n'] := by
  have hfeed : "\n".toList = ['\n'] := rfl
  simp [source, String.toList_join, hfeed, List.flatMap_map]

theorem lines_source {p : Program} (h : p.PlainNames) : Text.lines p.source.toList =
    header.toList :: p.instructions.toList.map fun i => i.text.toList := by
  rw [toList_source]
  apply Text.lines_flatMap
  intro l hl
  rcases List.mem_cons.mp hl with rfl | hl
  · decide
  · obtain ⟨i, hi, rfl⟩ := List.mem_map.mp hl
    exact Instruction.unbroken_text (h i (Array.mem_toList_iff.mp hi))

/-- Lines that are the texts of a program's instructions, wherever they are counted from. -/
theorem nodes_of_instructions {p : Program} (hp : p.WellFormed) (h : p.PlainNames) (first : Nat) :
    Source.nodes 1 (Source.numbered first (p.instructions.toList.map fun i => i.text.toList)) =
      .ok (p.instructions.toList.map Instruction.node) := by
  have hlines : ∀ i ∈ p.instructions.toList, i.Conforms ∧ ∀ o ∈ i.operands, o.isPlain = true := by
    intro i hi
    have hmem := Array.mem_toList_iff.mp hi
    exact ⟨hp.conforms i hmem, h i hmem⟩
  refine Source.nodes_numbered hlines (fun k i hi => ?_) first
  rw [Array.getElem?_toList] at hi
  rw [hp.position k i hi]
  omega

theorem assemble_source {p : Program} (hp : p.WellFormed) (h : p.PlainNames) :
    Source.assemble p.source = .ok (p.instructions.toList.map Instruction.node) := by
  have hheader : Token.ofLine header.toList = [.directive header] := rfl
  have hdrop : Token.isHeader [.directive header] = true := by decide
  rw [Source.assemble, Source.content_eq, lines_source h, Source.numbered_cons hheader, Source.body,
    if_pos hdrop]
  exact nodes_of_instructions hp h 1

theorem reads_node {nodes : List Node} {p : Program} (h : load nodes = .ok p) {i : Instruction}
    (hi : i ∈ p.instructions) : i.node.Reads (i.position, i) := by
  have hp := wellFormed_of_load h
  obtain ⟨n, -, hdecode⟩ := exists_node_of_load h hi
  obtain ⟨k, hk, hget⟩ := Array.mem_iff_getElem.mp hi
  have hposition : i.position = k + 1 := hp.position k i (hget ▸ Array.getElem?_eq_getElem hk)
  have hsize : p.size < UInt64.size := size_lt_of_load h
  have hbound : k < p.size := hk
  constructor
  · show i.node.order.bind (fun text => Text.Decimal.order? text.toList) = some i.position
    rw [Instruction.node, Node.order_write, Option.bind_some,
      Text.Decimal.order?_ofNat (by omega) (by omega)]
  · exact Instruction.decode_node (hp.conforms i hi) (Node.trimmed_of_decode hdecode)

theorem ofSource_eq_ok_iff {text : String} {p : Program} :
    ofSource text = .ok p ↔ ∃ nodes, Source.assemble text = .ok nodes ∧ load nodes = .ok p := by
  simp only [ofSource, bind_eq_ok_iff, mapError_eq_ok_iff]

/-- Any text that is assembled to the nodes of a loaded program gives that program. -/
theorem ofSource_of_assemble {nodes : List Node} {p : Program} (h : load nodes = .ok p)
    {text : String}
    (hassemble : Source.assemble text = .ok (p.instructions.toList.map Instruction.node)) :
    ofSource text = .ok p := by
  refine ofSource_eq_ok_iff.mpr ⟨_, hassemble, (wellFormed_of_load h).load_eq_ok ?_⟩
  rw [List.forall₂_map_left_iff, List.forall₂_map_right_iff, List.forall₂_same]
  intro i hi
  exact reads_node h (Array.mem_toList_iff.mp hi)

theorem ofSource_source {nodes : List Node} {p : Program} (h : load nodes = .ok p)
    (hplain : p.PlainNames) : ofSource p.source = .ok p :=
  ofSource_of_assemble h (assemble_source (wellFormed_of_load h) hplain)

end Program

/-! ## Names in a program that was built from a source -/

/-- The texts of the node's arguments hold neither blanks nor comments. -/
def Node.Plain (n : Node) : Prop := ∀ a ∈ n.children, ∀ c ∈ a.text.toList, Text.isPlain c = true

namespace Node

theorem plain_of_withOperands {n n' : Node} {slots : List Slot} {args : List Token}
    (h : n.withOperands slots args = .ok n') (hn : n.Plain)
    (hargs : ∀ t ∈ args, ∀ c ∈ t.text.toList, Text.isPlain c = true) : n'.Plain := by
  induction args generalizing n slots with
  | nil =>
    rw [withOperands] at h
    cases h
    exact hn
  | cons t args ih =>
    rw [withOperands] at h
    split at h
    · next kind text htext =>
      refine ih h ?_ fun t' ht' => hargs t' (List.mem_cons_of_mem t ht')
      intro a ha
      rcases List.mem_append.mp ha with ha | ha
      · exact hn a ha
      · cases List.mem_singleton.mp ha
        intro c hc
        exact hargs t List.mem_cons_self c (Token.mem_of_operand? htext c hc)
    · cases h

theorem plain_of_ofTokens {order : Nat} {head : Token} {args : List Token} {n : Node}
    (h : ofTokens order head args = .ok n)
    (hargs : ∀ t ∈ args, ∀ c ∈ t.text.toList, Text.isPlain c = true) : n.Plain := by
  have hnone : ∀ order opcode : Option String, ({ order, opcode } : Node).Plain := by
    intro order opcode a ha
    cases ha
  unfold ofTokens at h
  split at h
  · cases h
  · split at h
    · cases h
    · exact plain_of_withOperands h (hnone _ _) hargs

end Node

namespace Source

theorem plain_of_nodes {order : Nat} {entries : List (Nat × Token × List Token)} {ns : List Node}
    (h : nodes order entries = .ok ns)
    (hentries : ∀ e ∈ entries, ∀ t ∈ e.2.2, ∀ c ∈ t.text.toList, Text.isPlain c = true) :
    ∀ n ∈ ns, n.Plain := by
  induction entries generalizing order ns with
  | nil =>
    rw [nodes] at h
    cases h
    intro n hn
    cases hn
  | cons e entries ih =>
    obtain ⟨line, head, args⟩ := e
    simp only [nodes, bind_eq_ok_iff, mapError_eq_ok_iff, pure_eq_ok_iff] at h
    obtain ⟨n, hn, rest, hrest, rfl⟩ := h
    intro n' hn'
    rcases List.mem_cons.mp hn' with rfl | hn'
    · exact Node.plain_of_ofTokens hn (hentries _ List.mem_cons_self)
    · exact ih hrest (fun e he => hentries e (List.mem_cons_of_mem _ he)) n' hn'

theorem body_subset (entries : List (Nat × Token × List Token)) : body entries ⊆ entries := by
  intro e he
  unfold body at he
  split at he
  · split at he
    · exact List.mem_cons_of_mem _ he
    · exact he
  · exact he

/-- A line is cut at its comment and split at its blanks before anything else is read. -/
theorem plain_of_assemble {text : String} {ns : List Node} (h : assemble text = .ok ns) :
    ∀ n ∈ ns, n.Plain := by
  refine plain_of_nodes h fun e he t ht => ?_
  obtain ⟨⟨line, k⟩, -, hline⟩ := List.mem_filterMap.mp (body_subset _ he)
  cases htokens : Token.ofLine line with
  | nil => simp [htokens] at hline
  | cons head args =>
    simp only [htokens, Option.some.injEq] at hline
    subst hline
    have hmem : t ∈ Token.ofLine line := htokens ▸ List.mem_cons_of_mem head ht
    exact Token.plain_of_mem_ofLine hmem

end Source

theorem Operand.isPlain_of_read {kind : OperandKind} {cs : List Char} {o : Operand}
    (h : Operand.read kind cs = .ok o) (hcs : ∀ c ∈ cs, Text.isPlain c = true) : o.isPlain = true := by
  cases Operand.reading_of_read h with
  | @var v named =>
    have htext : v.text.toList = cs := by
      rw [Variable.text_of_ofText? named, String.toList_ofList]
    refine List.all_eq_true.mpr fun c hc => hcs c ?_
    rw [← htext, Variable.toList_text]
    exact List.mem_append_right _ (List.mem_cons_of_mem _ hc)
  | const value => rfl
  | label given =>
    rw [Operand.isPlain, String.toList_ofList]
    exact List.all_eq_true.mpr hcs
  | type readable => rfl

namespace Program

theorem plainNames_of_ofSource {text : String} {p : Program} (h : ofSource text = .ok p) :
    p.PlainNames := by
  obtain ⟨nodes, hnodes, hload⟩ := ofSource_eq_ok_iff.mp h
  intro i hi
  obtain ⟨n, hn, hdecode⟩ := exists_node_of_load hload hi
  refine Node.forall_operands_of_decode hdecode fun a ha op k slot o ho => ?_
  obtain ⟨_, kind, _, _, _, hread⟩ := Argument.operand_eq_ok ho
  refine Operand.isPlain_of_read hread fun c hc => ?_
  exact Source.plain_of_assemble hnodes n hn a ha c (Text.mem_of_mem_trim hc)

theorem readsBack_eq_true_iff {nodes : List Node} {p : Program} (h : load nodes = .ok p) :
    p.readsBack = .ok true ↔ p.PlainNames := by
  simp only [readsBack, bind_eq_ok_iff, pure_eq_ok_iff, beq_iff_eq]
  constructor
  · intro hback
    obtain ⟨_, hsource, rfl⟩ := hback
    exact plainNames_of_ofSource hsource
  · intro hplain
    exact ⟨p, ofSource_source h hplain, rfl⟩

/-- **Sources read back.** A loaded program is given back by its own source exactly when
the names in it are plain, whatever strings it holds. The names of a program that was
built from a source are plain, so that its source always gives it back. -/
theorem source_reads_back :
    (∀ nodes p, load nodes = .ok p → (ofSource p.source = .ok p ↔ p.PlainNames)) ∧
    ∀ text p, ofSource text = .ok p → p.PlainNames ∧ ofSource p.source = .ok p := by
  constructor
  · intro nodes p hload
    exact ⟨plainNames_of_ofSource, ofSource_source hload⟩
  · intro text p hp
    obtain ⟨nodes, -, hload⟩ := ofSource_eq_ok_iff.mp hp
    have hplain := plainNames_of_ofSource hp
    exact ⟨hplain, ofSource_source hload hplain⟩

/-- Blanks and comment signs do no harm in a string. In a name they do, and a text with a
comment never gives such a name. -/
theorem source_reads_back_unless_blank_name :
    let hard : List Node := [
      { order := some "9", opcode := some "write",
        children := [⟨"arg1", some "string", "a #b\\035\\32\tc"⟩] },
      { order := some "4", opcode := some "LABEL", children := [⟨"arg1", some "label", ".x@\x00y"⟩] }]
    let blank : List Node := [
      { order := some "1", opcode := some "DEFVAR", children := [⟨"arg1", some "var", "GF@a b"⟩] }]
    (∃ p, load hard = .ok p ∧ ofSource p.source = .ok p) ∧
    (∃ p, load blank = .ok p ∧ ¬ofSource p.source = .ok p) ∧
    ∃ p, ofSource "DEFVAR GF@a# b\n" = .ok p ∧ ofSource p.source = .ok p := by
  intro hard blank
  have hhard : ∃ p, load hard = .ok p ∧ p.PlainNames := ⟨_, rfl, by decide⟩
  have hblank : ∃ p, load blank = .ok p ∧ ¬p.PlainNames := ⟨_, rfl, by decide⟩
  have htext : ∃ p, ofSource "DEFVAR GF@a# b\n" = .ok p := ⟨_, rfl⟩
  obtain ⟨p, hp, hplain⟩ := hhard
  obtain ⟨q, hq, hnot⟩ := hblank
  obtain ⟨r, hr⟩ := htext
  exact ⟨⟨p, hp, (source_reads_back.1 hard p hp).mpr hplain⟩,
    ⟨q, hq, fun hsource => hnot ((source_reads_back.1 blank q hq).mp hsource)⟩,
    ⟨r, hr, (source_reads_back.2 _ r hr).2⟩⟩

end Program

end FrameCode
