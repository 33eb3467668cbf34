import FrameCode.Proofs.Node.Faults
import FrameCode.Proofs.Node.Parts
import FrameCode.Proofs.Source.RoundTrip
import Mathlib.Order.Fin.Basic

/-! Assembled nodes are well shaped. The node of a line has its order in digits, an opcode,
and children that are numbered from one and have a known kind; so that loading can only
object to what the words of a line say, and the instructions follow the lines one by one
(`Source.load_of_assemble`). -/

namespace FrameCode

/-! ## The node of a line -/

/-- A word that gives an operand gives it under the name of a kind. -/
theorem Token.exists_kind_of_operand? {slot : Option Slot} {t : Token} {name text : String}
    (h : t.operand? slot = some (name, text)) : ∃ kind, OperandKind.ofName? name = some kind := by
  unfold Token.operand? at h
  split at h
  · cases h
    exact ⟨.label, rfl⟩
  · cases h
    exact ⟨.type, rfl⟩
  · next mark body _ _ =>
    split at h
    · cases h
      exact ⟨.var, rfl⟩
    · split at h
      · next htag =>
        cases h
        obtain ⟨tag, htag⟩ := Option.isSome_iff_exists.mp htag
        unfold OperandKind.ofName?
        rw [htag]
        split_ifs <;> exact ⟨_, rfl⟩
      · cases h
  · cases h
    exact ⟨.label, rfl⟩
  · cases h

/-- The argument states a kind that there is. -/
def Argument.HasKind (a : Argument) : Prop :=
  ∃ name kind, a.kind = some name ∧ OperandKind.ofName? name = some kind

namespace Node

/-- The node that a line with these words becomes, whatever its opcode is. -/
structure FromWords (order : Nat) (head : Token) (args : List Token) (n : Node) : Prop where
  order : n.order = some (Text.Decimal.ofNat order)
  opcode : n.opcode = some head.text
  tags : n.children.map Argument.tag = argumentTags.take n.children.length
  count : n.children.length = args.length
  kinds : ∀ a ∈ n.children, a.HasKind

/-- Each word adds one child, tagged with its number. -/
theorem children_of_withOperands {n n' : Node} {slots : List Slot} {args : List Token}
    (h : n.withOperands slots args = .ok n') :
    n'.order = n.order ∧ n'.opcode = n.opcode ∧ ∃ added, n'.children = n.children ++ added ∧
      added.length = args.length ∧ ∀ k a, added[k]? = some a →
        a.tag = "arg" ++ Text.Decimal.ofNat (n.children.length + k + 1) ∧
        ∃ t name, args[k]? = some t ∧ a.kind = some name ∧
          t.operand? slots[k]? = some (name, a.text) := by
  induction args generalizing n slots with
  | nil =>
    rw [withOperands] at h
    cases h
    exact ⟨rfl, rfl, [], by simp, rfl, fun k a hk => by simp at hk⟩
  | cons t args ih =>
    rw [withOperands] at h
    split at h
    · next name text hoperand =>
      obtain ⟨horder, hopcode, added, hchildren, hlen, hadded⟩ := ih h
      let first : Argument := ⟨"arg" ++ Text.Decimal.ofNat (n.children.length + 1), some name, text⟩
      refine ⟨horder, hopcode, first :: added, ?_, congrArg Nat.succ hlen, fun k a hk => ?_⟩
      · rw [hchildren, arg, child, List.append_assoc, List.singleton_append]
      · cases k with
        | zero =>
          cases hk
          exact ⟨rfl, t, name, rfl, rfl, by rwa [← List.head?_eq_getElem?]⟩
        | succ k =>
          obtain ⟨htag, t', name', ht', hkind, hoperand'⟩ := hadded k a hk
          refine ⟨?_, t', name', ht', hkind, by rwa [List.getElem?_tail] at hoperand'⟩
          rw [htag, arg, child, List.length_append, List.length_singleton]
          congr 2
          omega
    · cases h

theorem tags_of_numbered {children : List Argument} (hcount : children.length ≤ 3)
    (h : ∀ k a, children[k]? = some a → a.tag = "arg" ++ Text.Decimal.ofNat (k + 1)) :
    children.map Argument.tag = argumentTags.take children.length := by
  have htags : ∀ k < 3, argumentTags[k]? = some ("arg" ++ Text.Decimal.ofNat (k + 1)) := by decide
  apply List.ext_getElem?
  intro k
  by_cases hk : k < children.length
  · rw [List.getElem?_map, List.getElem?_eq_getElem hk, Option.map_some,
      h k _ (List.getElem?_eq_getElem hk), List.getElem?_take_of_lt hk, htags k (by omega)]
  · rw [List.getElem?_eq_none (by simpa using hk), List.getElem?_eq_none]
    exact Nat.le_trans (List.length_take_le _ _) (Nat.not_lt.mp hk)

theorem fromWords_of_ofTokens {order : Nat} {head : Token} {args : List Token} {n : Node}
    (h : ofTokens order head args = .ok n) : n.FromWords order head args := by
  unfold ofTokens at h
  split at h
  · cases h
  · split at h
    · cases h
    · next hcount =>
      obtain ⟨horder, hopcode, added, hchildren, hlen, hadded⟩ := children_of_withOperands h
      rw [List.nil_append] at hchildren
      subst hchildren
      refine ⟨horder, hopcode, ?_, hlen, fun a ha => ?_⟩
      · refine tags_of_numbered (hlen ▸ Nat.not_lt.mp hcount) fun k a hk => ?_
        rw [(hadded k a hk).1, List.length_nil, Nat.zero_add]
      · obtain ⟨k, hk⟩ := List.getElem?_of_mem ha
        obtain ⟨-, t, name, -, hkind, hoperand⟩ := hadded k a hk
        obtain ⟨kind, hname⟩ := Token.exists_kind_of_operand? hoperand
        exact ⟨name, kind, hkind, hname⟩

namespace FromWords

variable {order : Nat} {head : Token} {args : List Token} {n : Node}

theorem statedOrder? (h : n.FromWords order head args) (hpos : 1 ≤ order) (hlt : order < UInt64.size) :
    n.statedOrder? = some order := by
  rw [Node.statedOrder?, h.order, Option.bind_some, Text.Decimal.order?_ofNat hpos hlt]

/-- The children are the arguments as they stand. -/
theorem arguments (h : n.FromWords order head args) : n.arguments = .ok n.children :=
  arguments_eq_ok_iff.mpr ⟨.refl _, h.tags⟩

theorem opcode_of_decode (h : n.FromWords order head args) {k : Nat} {i : Instruction}
    (hdecode : n.decode k = .ok i) (op : Opcode) :
    Text.Recased op.mnemonic.toList (Text.trim Text.isWhiteSpace head.text.toList) ↔
      op = i.opcode := by
  obtain ⟨op', _, _, hop, _, _, _, rfl⟩ := decode_eq_ok_iff.mp hdecode
  obtain ⟨name, hname, hletters⟩ := opcodeOf_eq_ok_iff.mp hop
  cases h.opcode.symm.trans hname
  rw [← Opcode.ofMnemonic?_eq_some_iff] at hletters ⊢
  rw [hletters, Option.some.injEq, eq_comm]

theorem length_operands_of_decode (h : n.FromWords order head args) {k : Nat} {i : Instruction}
    (hdecode : n.decode k = .ok i) : i.operands.length = args.length := by
  have hconforms := conforms_of_decode hdecode
  obtain ⟨op, children, ops, _, hchildren, hlen, _, rfl⟩ := decode_eq_ok_iff.mp hdecode
  cases h.arguments.symm.trans hchildren
  calc
    ops.length = op.arity := hconforms.length_eq.symm
    _ = n.children.length := hlen.symm
    _ = args.length := h.count

end FromWords

end Node

/-! ## What loading can object to -/

/-- Faults in the shape of a node: an attribute that is missing, or children whose tags or
kinds are wrong, whatever their texts are. -/
def NodeFault.isShape : NodeFault → Bool
  | missingOpcode | unexpectedChild _ | duplicateChild _ | argumentGap _ => true
  | missingOperandKind _ | unknownOperandKind _ => true
  | _ => false

/-- Errors in the shape of nodes; orders that cannot be used are among them. -/
def LoadError.isShape : LoadError → Bool
  | missingOrder _ | invalidOrder _ | duplicateOrder _ => true
  | node _ fault => fault.isShape

theorem Operand.read_failsOnly (kind : OperandKind) (text : List Char) :
    FailsOnly (NodeFault.isShape · = false) (Operand.read kind text) := by
  intro fault hfault
  cases Operand.read_misreads kind text fault hfault <;> rfl

theorem Argument.operand_failsOnly {a : Argument} (h : a.HasKind) (op : Opcode) (index : Nat)
    (slot : Slot) : FailsOnly (NodeFault.isShape · = false) (a.operand op index slot) := by
  obtain ⟨name, kind, hname, hkind⟩ := h
  simp only [Argument.operand, hname, hkind]
  split
  · exact Operand.read_failsOnly kind _
  · exact .error rfl

namespace Node

theorem operands_failsOnly {args : List Argument} (h : ∀ a ∈ args, a.HasKind) (op : Opcode)
    (index : Nat) (slots : List Slot) :
    FailsOnly (NodeFault.isShape · = false) (operands op index slots args) := by
  induction slots generalizing args index with
  | nil => exact .ok _
  | cons slot slots ih =>
    cases args with
    | nil => exact .ok _
    | cons a args =>
      have hrest := ih (fun b hb => h b (List.mem_cons_of_mem a hb)) (index + 1)
      unfold operands
      refine .bind (Argument.operand_failsOnly (h a List.mem_cons_self) op index slot) fun o => ?_
      exact .bind hrest fun ops => .ok _

theorem FromWords.decode_failsOnly {order : Nat} {head : Token} {args : List Token} {n : Node}
    (h : n.FromWords order head args) (k : Nat) :
    FailsOnly (NodeFault.isShape · = false) (n.decode k) := by
  have hopcode : FailsOnly (NodeFault.isShape · = false) n.opcodeOf := by
    simp only [opcodeOf, h.opcode]
    split
    · exact .ok _
    · exact .error rfl
  refine .bind hopcode fun op => ?_
  rw [h.arguments]
  show FailsOnly _ (if n.children.length ≠ op.arity then _ else _)
  split
  · exact .error rfl
  · exact .bind (operands_failsOnly h.kinds op 1 op.signature) fun ops => .ok _

end Node

namespace Draft

theorem define_failsOnly (d : Draft) (name : String) :
    FailsOnly (NodeFault.isShape · = false) (d.define name) := by
  unfold define
  split
  · exact .error rfl
  · exact .ok _

theorem add_failsOnly {d : Draft} {order : Nat} {head : Token} {args : List Token} {n : Node}
    (h : n.FromWords order head args) (horder : d.orderOf n = .ok order) :
    FailsOnly (LoadError.isShape · = false) (d.add n) := by
  refine .bind (horder ▸ .ok order) fun k => ?_
  refine .bind ((h.decode_failsOnly k).mapError fun _ => id) fun i => ?_
  cases i.definedLabel? with
  | none => exact .ok _
  | some name => exact .bind ((d.define_failsOnly name).mapError fun _ => id) fun d' => .ok _

/-- Orders that count up are new to a draft that holds smaller ones only. -/
theorem foldlM_add_failsOnly {ns : List Node} {order : Nat}
    (h : ∀ (k : Nat) (n : Node), ns[k]? = some n → ∃ head args, n.FromWords (order + k) head args)
    (hpos : 1 ≤ order) (hlt : order + ns.length ≤ UInt64.size) {d : Draft}
    (hd : ∀ k ∈ d.checked, k < order) :
    FailsOnly (LoadError.isShape · = false) (ns.foldlM Draft.add d) := by
  induction ns generalizing order d with
  | nil => exact .ok d
  | cons n ns ih =>
    obtain ⟨head, args, hfrom⟩ := h 0 n rfl
    have hnext : ∀ (k : Nat) (m : Node), ns[k]? = some m →
        ∃ head args, m.FromWords (order + 1 + k) head args := by
      intro k m hm
      rw [Nat.add_right_comm]
      exact h (k + 1) m hm
    rw [List.length_cons] at hlt
    have hstated : n.statedOrder? = some order := hfrom.statedOrder? hpos (by omega)
    have horder : d.orderOf n = .ok order :=
      orderOf_eq_ok_iff.mpr ⟨hstated, fun hmem => Nat.lt_irrefl _ (hd order hmem)⟩
    intro e he
    rcases bind_eq_error_iff.mp he with hfirst | ⟨d', hd', hlater⟩
    · exact add_failsOnly hfrom horder e hfirst
    · obtain ⟨entry, hread, -, -, rfl⟩ := add_eq_ok_iff.mp hd'
      have hkey : entry.1 = order := Option.some.inj (hread.1.symm.trans hstated)
      refine ih hnext (by omega) (by omega) (fun k hk => ?_) e hlater
      rcases mem_checked_enter.mp hk with heq | hmem
      · omega
      · exact Nat.lt_succ_of_lt (hd k hmem)

end Draft

/-- Nodes that count themselves up from one become the instructions as they stand. -/
theorem Program.fetch?_of_counted {ns : List Node} {p : Program} (h : load ns = .ok p)
    (hcounted : ∀ (k : Nat) (n : Node), ns[k]? = some n → n.statedOrder? = some (k + 1))
    {k : Nat} {n : Node} (hk : ns[k]? = some n) :
    ∃ i, p.fetch? (k + 1) = some i ∧ n.decode (k + 1) = .ok i := by
  obtain ⟨order, place, hstated, hlt, hplace⟩ := exists_place_of_load h
  have horder : ∀ a, order a = a + 1 := fun a =>
    Option.some.inj ((hstated a).symm.trans (hcounted a _ (List.getElem?_eq_getElem a.isLt)))
  -- the only way to arrange the nodes without changing the order of two is to leave them
  let ranked : Fin ns.length ≃o Fin p.size :=
    { toEquiv := place
      map_rel_iff' := by
        intro a b
        rw [← not_lt, ← not_lt, hlt, horder, horder, Fin.lt_def]
        omega }
  have hsame : ∀ a, (place a : Nat) = a := Fin.coe_orderIso_apply ranked
  obtain ⟨hlen, rfl⟩ := List.getElem?_eq_some_iff.mp hk
  have hplaced := hplace ⟨k, hlen⟩
  rwa [hsame] at hplaced

namespace Source

/-! ## Instructions and their lines -/

/-- The words of the lines that hold instructions: of all lines with words in them, a
header that comes first apart. -/
def instructionLines (text : String) : List (List Token) :=
  match ((Text.lines text.toList).map Token.ofLine).filter (· ≠ []) with
  | first :: rest => if Token.isHeader first then rest else first :: rest
  | [] => []

theorem words_numbered (first : Nat) (lines : List (List Char)) :
    (numbered first lines).map (fun e => e.2.1 :: e.2.2) =
      (lines.map Token.ofLine).filter (· ≠ []) := by
  induction lines generalizing first with
  | nil => rfl
  | cons line lines ih =>
    cases hwords : Token.ofLine line with
    | nil =>
      rw [numbered_skip hwords, ih, List.map_cons, hwords]
      rfl
    | cons head args =>
      rw [numbered_cons hwords, List.map_cons, ih, List.map_cons, hwords]
      rfl

theorem words_body (text : String) :
    (body (content text)).map (fun e => e.2.1 :: e.2.2) = instructionLines text := by
  have hwords := words_numbered 0 (Text.lines text.toList)
  rw [← content_eq] at hwords
  unfold instructionLines
  rw [← hwords]
  cases content text with
  | nil => rfl
  | cons e rest =>
    obtain ⟨line, head, args⟩ := e
    simp only [body, List.map_cons]
    split
    · rfl
    · rfl

theorem length_instructionLines_le (text : String) :
    (instructionLines text).length ≤ (Text.lines text.toList).length := by
  have hfilter : (((Text.lines text.toList).map Token.ofLine).filter (· ≠ [])).length ≤
      (Text.lines text.toList).length := by
    simpa using List.length_filter_le (· ≠ []) ((Text.lines text.toList).map Token.ofLine)
  unfold instructionLines
  split
  · next first rest hwords =>
    rw [hwords] at hfilter
    split
    · exact Nat.le_of_succ_le hfilter
    · exact hfilter
  · exact Nat.zero_le _

/-- The nodes are those of the lines, one by one. -/
theorem ofTokens_of_nodes {entries : List (Nat × Token × List Token)} {order : Nat} {ns : List Node}
    (h : nodes order entries = .ok ns) : ns.length = entries.length ∧
    ∀ (k : Nat) (n : Node), ns[k]? = some n →
      ∃ e, entries[k]? = some e ∧ Node.ofTokens (order + k) e.2.1 e.2.2 = .ok n := by
  induction entries generalizing order ns with
  | nil =>
    cases h
    exact ⟨rfl, fun k n hk => by simp at hk⟩
  | cons e entries ih =>
    simp only [nodes, bind_eq_ok_iff, mapError_eq_ok_iff, pure_eq_ok_iff] at h
    obtain ⟨n, hn, rest, hrest, rfl⟩ := h
    obtain ⟨hlen, hlines⟩ := ih hrest
    refine ⟨congrArg Nat.succ hlen, fun k m hk => ?_⟩
    cases k with
    | zero =>
      cases hk
      exact ⟨e, rfl, hn⟩
    | succ k =>
      obtain ⟨e', he', hm⟩ := hlines k m hk
      rw [Nat.add_right_comm] at hm
      exact ⟨e', he', hm⟩

/-- The nodes of a text, one for each instruction line and numbered with it. -/
theorem ofTokens_of_assemble {text : String} {ns : List Node} (h : assemble text = .ok ns) :
    ns.length = (instructionLines text).length ∧
    ∀ (k : Nat) (n : Node), ns[k]? = some n →
      ∃ head args, (instructionLines text)[k]? = some (head :: args) ∧
        Node.ofTokens (k + 1) head args = .ok n := by
  obtain ⟨hlen, hlines⟩ := ofTokens_of_nodes h
  rw [← words_body, List.length_map]
  refine ⟨hlen, fun k n hk => ?_⟩
  obtain ⟨e, he, hn⟩ := hlines k n hk
  refine ⟨e.2.1, e.2.2, ?_, Nat.add_comm 1 k ▸ hn⟩
  rw [List.getElem?_map, he]
  rfl

theorem fromWords_of_assemble {text : String} {ns : List Node} (h : assemble text = .ok ns) :
    ns.length = (instructionLines text).length ∧
    ∀ (k : Nat) (n : Node), ns[k]? = some n →
      ∃ head args, (instructionLines text)[k]? = some (head :: args) ∧
        n.FromWords (k + 1) head args := by
  obtain ⟨hlen, hlines⟩ := ofTokens_of_assemble h
  refine ⟨hlen, fun k n hk => ?_⟩
  obtain ⟨head, args, hline, hn⟩ := hlines k n hk
  exact ⟨head, args, hline, Node.fromWords_of_ofTokens hn⟩

/-- **Assembled nodes load by their words.** Nodes of a source text never fail to load for
their shape. When they load, the instructions are those of the lines, in order: each has the
one opcode that the first word of its line names in some letters, and as many operands as
there are words after it. -/
theorem load_of_assemble {text : String} {ns : List Node}
    (hlines : (Text.lines text.toList).length < UInt64.size) (h : assemble text = .ok ns) :
    (∀ e, Program.load ns = .error e → e.isShape = false) ∧
    ∀ p, Program.load ns = .ok p → p.size = (instructionLines text).length ∧
      ∀ k i, p.fetch? (k + 1) = some i →
        ∃ head args, (instructionLines text)[k]? = some (head :: args) ∧
          (∀ op : Opcode, Text.Recased op.mnemonic.toList
            (Text.trim Text.isWhiteSpace head.text.toList) ↔ op = i.opcode) ∧
          i.operands.length = args.length := by
  obtain ⟨hlen, hfrom⟩ := fromWords_of_assemble h
  have hfew : ns.length < UInt64.size := by
    have hle := length_instructionLines_le text
    omega
  constructor
  · have hnodes : ∀ (k : Nat) (n : Node), ns[k]? = some n →
        ∃ head args, n.FromWords (1 + k) head args := by
      intro k n hk
      obtain ⟨head, args, -, hn⟩ := hfrom k n hk
      exact ⟨head, args, Nat.add_comm k 1 ▸ hn⟩
    have hfold := Draft.foldlM_add_failsOnly hnodes (Nat.le_refl 1) (by omega) (d := {}) (by simp)
    exact hfold.bind fun d => .ok _
  · intro p hp
    have hsize := Program.size_of_load hp
    refine ⟨hsize.trans hlen, fun k i hi => ?_⟩
    have hk : k < ns.length := hsize ▸ (Program.bounds_of_fetch? hi).2
    have hcounted : ∀ (k : Nat) (n : Node), ns[k]? = some n → n.statedOrder? = some (k + 1) := by
      intro k n hn
      obtain ⟨hlt, -⟩ := List.getElem?_eq_some_iff.mp hn
      obtain ⟨_, _, -, hn⟩ := hfrom k n hn
      exact hn.statedOrder? (Nat.succ_pos k) (by omega)
    have hnode := List.getElem?_eq_getElem hk
    obtain ⟨head, args, hline, hn⟩ := hfrom k _ hnode
    obtain ⟨i', hi', hdecode⟩ := Program.fetch?_of_counted hp hcounted hnode
    cases Option.some.inj (hi.symm.trans hi')
    exact ⟨head, args, hline, hn.opcode_of_decode hdecode, hn.length_operands_of_decode hdecode⟩

/-- A header, a comment and a blank line hold no instruction, and white space that parts no words
is no part of an opcode's name. A jump without a label fails, but not for its shape. -/
theorem load_of_assemble_two_lines :
    let text := "# start\n.TRIAD\n\n write int@7 # seven\n\u00a0Label end\n"
    (∃ ns p i, assemble text = .ok ns ∧ Program.load ns = .ok p ∧ p.size = 2 ∧
      p.fetch? 2 = some i ∧ i.opcode = .label ∧ i.operands.length = 1) ∧
    ∃ ns e, assemble "jump\n" = .ok ns ∧ Program.load ns = .error e ∧ e.isShape = false := by
  intro text
  have hwords : instructionLines text =
      [[.word "write", .tagged "int" "7"], [.word "\u00a0Label", .word "end"]] := by decide
  have hload : ∃ p, Program.ofSource text = .ok p := by
    unfold text
    exact ⟨_, rfl⟩
  have hns' : assemble "jump\n" = .ok [{ order := some "1", opcode := some "jump" }] := rfl
  have he : ∃ e, Program.load [{ order := some "1", opcode := some "jump" }] = .error e := ⟨_, rfl⟩
  obtain ⟨p, hp⟩ := hload
  obtain ⟨ns, hns, hp⟩ := Program.ofSource_eq_ok_iff.mp hp
  obtain ⟨e, he⟩ := he
  obtain ⟨hsize, hlines⟩ := (load_of_assemble (by decide) hns).2 p hp
  rw [hwords] at hsize hlines
  have hsecond : ¬p.fetch? 2 = none := by
    rw [Program.fetch?_eq_none_iff, hsize]
    decide
  obtain ⟨i, hi⟩ := Option.ne_none_iff_exists'.mp hsecond
  obtain ⟨head, args, hline, hopcode, hcount⟩ := hlines 1 i hi
  cases hline
  exact ⟨⟨ns, p, i, hns, hp, hsize, hi, ((hopcode .label).mp (by decide)).symm, hcount⟩,
    _, e, hns', he, (load_of_assemble (by decide) hns').1 e he⟩

end Source

end FrameCode
