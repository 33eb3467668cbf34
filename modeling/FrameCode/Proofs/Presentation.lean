import FrameCode.Proofs.Load
import FrameCode.Proofs.Node.Parts
import FrameCode.Proofs.Text.Spelling
import Mathlib.Data.List.Perm.Basic

/-! Presentations of the same nodes. The nodes of a program can be written down in any
order and their children too, with other orders as long as these compare alike, with
opcodes in other letters, and with blanks around opcodes and operands. None of this makes
a difference to the loaded program (`Program.load_presentation`). -/

namespace FrameCode

/-! ## Arguments and nodes in another presentation -/

/-- The characters that may be put around the text of an operand. -/
def Text.paddings : List Char := [' ', '\t', '\n', '\x0c', '\r', '\x00', '\x0b']

/-- The second name is the first one in letters of any case, with white space around it. -/
def Text.Respelled (name name' : String) : Prop :=
  ∃ letters, Recased name.toList letters ∧ Surrounded (isWhiteSpace · = true) letters name'.toList

/-- The second argument is the first one with padding around its text. -/
structure Argument.Padded (a a' : Argument) : Prop where
  tag : a'.tag = a.tag
  kind : a'.kind = a.kind
  text : Text.Surrounded (· ∈ Text.paddings) a.text.toList a'.text.toList

/-- The second node says the same as the first one, its order mapped by `f`. An order that
is missing or no number stays as it is. -/
structure Node.Restated (f : Nat → Nat) (n n' : Node) : Prop where
  order : ∀ k, n.statedOrder? = some k → 1 ≤ f k ∧ f k < UInt64.size ∧
    ∃ zeros, n'.order = some (String.ofList (Text.Decimal.withZeros zeros (f k)))
  noOrder : n.statedOrder? = none → n'.order = n.order
  opcode : Option.Rel Text.Respelled n.opcode n'.opcode
  children : ∃ arranged : List Argument, arranged.Perm n.children ∧
    List.Forall₂ Argument.Padded arranged n'.children

/-- The second list holds the nodes of the first one in any order, each of them restated. -/
def Presents (f : Nat → Nat) (nodes nodes' : List Node) : Prop :=
  ∃ arranged : List Node, arranged.Perm nodes ∧ List.Forall₂ (Node.Restated f) arranged nodes'

/-! ## What reading does not see -/

/-- The two arguments have one tag and give the same operands. -/
def Argument.Alike (a a' : Argument) : Prop :=
  a.tag = a'.tag ∧ ∀ op index slot, a.operand op index slot = a'.operand op index slot

/-- The two nodes have the same opcode, and alike arguments in any order. -/
structure Node.Alike (n n' : Node) : Prop where
  opcode : ∀ op, n.opcodeOf = .ok op ↔ n'.opcodeOf = .ok op
  children : ∃ arranged : List Argument, arranged.Perm n.children ∧
    List.Forall₂ Argument.Alike arranged n'.children

theorem Argument.Padded.alike {a a' : Argument} (h : a.Padded a') : a.Alike a' := by
  have hset : ∀ c ∈ Text.paddings, Text.isPadding c = true := by
    simp [Text.paddings, Text.isPadding, Text.isWordBlank]
  obtain ⟨before, after, htext, hbefore, hafter⟩ := h.text
  have htrim : Text.trim Text.isPadding a'.text.toList = Text.trim Text.isPadding a.text.toList :=
    Text.trim_surrounded ⟨before, after, htext, fun c hc => hset c (hbefore c hc),
      fun c hc => hset c (hafter c hc)⟩
  refine ⟨h.tag.symm, fun op index slot => ?_⟩
  simp only [operand, h.tag, h.kind, htrim]

namespace Node

theorem opcodeOf_respelled {n n' : Node} (h : Option.Rel Text.Respelled n.opcode n'.opcode)
    (op : Opcode) : n.opcodeOf = .ok op ↔ n'.opcodeOf = .ok op := by
  rw [opcodeOf_eq_ok_iff, opcodeOf_eq_ok_iff]
  generalize n.opcode = name, n'.opcode = name' at h
  cases h with
  | none => rfl
  | @some name name' hname =>
    obtain ⟨letters, hcase, hblank⟩ := hname
    simp only [Option.some.injEq, exists_eq_left']
    rw [Text.trim_surrounded hblank, Text.Recased, Text.Recased, hcase.trim]

theorem Restated.alike {f : Nat → Nat} {n n' : Node} (h : n.Restated f n') : n.Alike n' := by
  obtain ⟨arranged, hperm, hpadded⟩ := h.children
  exact ⟨opcodeOf_respelled h.opcode, arranged, hperm, hpadded.imp fun _ _ => Argument.Padded.alike⟩

theorem Restated.statedOrder? {f : Nat → Nat} {n n' : Node} (h : n.Restated f n') :
    n'.statedOrder? = n.statedOrder?.map f := by
  cases hk : n.statedOrder? with
  | none =>
    rw [Node.statedOrder?, h.noOrder hk]
    exact hk
  | some k =>
    obtain ⟨hpos, hlt, zeros, horder⟩ := h.order k hk
    rw [Node.statedOrder?, horder, Option.bind_some, String.toList_ofList,
      Text.Decimal.order?_withZeros zeros hpos hlt, Option.map_some]

namespace Alike

variable {n n' : Node}

theorem symm (h : n.Alike n') : n'.Alike n := by
  obtain ⟨arranged, hperm, halike⟩ := h.children
  -- the rearrangement is carried over to the other side of the pairs
  obtain ⟨arranged', halike', hperm'⟩ := List.perm_comp_forall₂ hperm.symm halike
  refine ⟨fun op => (h.opcode op).symm, arranged', hperm', halike'.flip.imp fun a a' ha => ?_⟩
  exact ⟨ha.1.symm, fun op index slot => (ha.2 op index slot).symm⟩

theorem tags {args args' : List Argument} (h : List.Forall₂ Argument.Alike args args') :
    args.map Argument.tag = args'.map Argument.tag := by
  induction h with
  | nil => rfl
  | cons ha _ ih => rw [List.map_cons, List.map_cons, ha.1, ih]

theorem operands {args args' : List Argument} (h : List.Forall₂ Argument.Alike args args')
    (op : Opcode) (index : Nat) (slots : List Slot) :
    Node.operands op index slots args = Node.operands op index slots args' := by
  induction h generalizing index slots with
  | nil => rfl
  | cons ha _ ih =>
    cases slots with
    | nil => rfl
    | cons slot slots => simp only [Node.operands, ha.2, ih]

theorem decode {k : Nat} {i : Instruction} (h : n.Alike n') (hdecode : n.decode k = .ok i) :
    n'.decode k = .ok i := by
  obtain ⟨op, args, ops, hop, hargs, hlen, hops, rfl⟩ := decode_eq_ok_iff.mp hdecode
  obtain ⟨hperm, htags⟩ := arguments_eq_ok_iff.mp hargs
  obtain ⟨arranged, harranged, halike⟩ := h.children
  obtain ⟨args', halike', hperm'⟩ := List.perm_comp_forall₂ (hperm.trans harranged.symm) halike
  have hlen' : args'.length = args.length := halike'.length_eq.symm
  refine decode_eq_ok_iff.mpr ⟨op, args', ops, (h.opcode op).mp hop, ?_, hlen'.trans hlen, ?_, rfl⟩
  · exact arguments_eq_ok_iff.mpr ⟨hperm', by rw [← tags halike', htags, hlen']⟩
  · rw [← operands halike', hops]

end Alike

end Node

/-! ## Entries under other orders -/

/-- The entry with its order mapped, and its instruction placed there. -/
def Entry.renumber (f : Nat → Nat) (e : Entry) : Entry := (f e.1, { e.2 with position := f e.1 })

theorem orders_renumber (f : Nat → Nat) (entries : List Entry) :
    (entries.map (Entry.renumber f)).map Prod.fst = (entries.map Prod.fst).map f := by
  simp only [List.map_map]
  rfl

theorem definedLabels_renumber (f : Nat → Nat) (entries : List Entry) :
    definedLabels ((entries.map (Entry.renumber f)).map Prod.snd) =
      definedLabels (entries.map Prod.snd) := by
  simp only [definedLabels, List.map_map, List.filterMap_map]
  rfl

/-- A restated node is read as the same entry under its new order. -/
theorem Node.Restated.reads_iff {f : Nat → Nat} {n n' : Node} (h : n.Restated f n') {e' : Entry} :
    n'.Reads e' ↔ ∃ e, n.Reads e ∧ e' = Entry.renumber f e := by
  constructor
  · intro ⟨horder, hdecode⟩
    rw [h.statedOrder?, Option.map_eq_some_iff] at horder
    obtain ⟨k, hk, heq⟩ := horder
    obtain ⟨_, _, _, _, _, _, _, hi⟩ := Node.decode_eq_ok_iff.mp hdecode
    have hback := Node.decode_place (h.alike.symm.decode hdecode) k
    refine ⟨(k, { e'.2 with position := k }), ⟨hk, hback⟩, ?_⟩
    have hposition : e'.2.position = f k := by rw [hi, heq]
    exact Prod.ext heq.symm (by simp [Entry.renumber, ← hposition])
  · intro ⟨e, ⟨horder, hdecode⟩, heq⟩
    subst heq
    refine ⟨?_, h.alike.decode (Node.decode_place hdecode (f e.1))⟩
    rw [h.statedOrder?, horder]
    rfl

theorem reads_restated_iff {f : Nat → Nat} {nodes nodes' : List Node}
    (h : List.Forall₂ (Node.Restated f) nodes nodes') {entries' : List Entry} :
    List.Forall₂ Node.Reads nodes' entries' ↔ ∃ entries,
      List.Forall₂ Node.Reads nodes entries ∧ entries' = entries.map (Entry.renumber f) := by
  induction h generalizing entries' with
  | nil =>
    constructor
    · intro hreads
      cases hreads
      exact ⟨[], .nil, rfl⟩
    · intro ⟨entries, hreads, heq⟩
      cases hreads
      subst heq
      exact .nil
  | cons hn _ ih =>
    constructor
    · intro hreads
      cases hreads with
      | cons hread hreads =>
        obtain ⟨e, he, rfl⟩ := hn.reads_iff.mp hread
        obtain ⟨entries, hentries, rfl⟩ := ih.mp hreads
        exact ⟨e :: entries, .cons he hentries, rfl⟩
    · intro ⟨entries, hreads, heq⟩
      subst heq
      cases hreads with
      | cons hread hreads =>
        exact .cons (hn.reads_iff.mpr ⟨_, hread, rfl⟩) (ih.mpr ⟨_, hreads, rfl⟩)

namespace Draft

theorem empty_admits_perm {entries entries' : List Entry} (hperm : entries'.Perm entries) :
    ({} : Draft).Admits entries' ↔ ({} : Draft).Admits entries := by
  have hlabels : (definedLabels (entries'.map Prod.snd)).Perm (definedLabels (entries.map Prod.snd)) :=
    (hperm.map Prod.snd).filterMap Instruction.definedLabel?
  rw [empty_admits_iff, empty_admits_iff, (hperm.map Prod.fst).nodup_iff, hlabels.nodup_iff]

/-- Orders that are apart after the renumbering were apart before it. -/
theorem admits_of_renumber {f : Nat → Nat} {entries : List Entry}
    (h : ({} : Draft).Admits (entries.map (Entry.renumber f))) : ({} : Draft).Admits entries := by
  obtain ⟨horders, hlabels⟩ := empty_admits_iff.mp h
  rw [orders_renumber] at horders
  rw [definedLabels_renumber] at hlabels
  exact empty_admits_iff.mpr ⟨horders.of_map, hlabels⟩

section Renumber

variable {f : Nat → Nat} {orders : Set Nat} {entries entries' : List Entry}
  (hf : StrictMonoOn f orders) (horders : ∀ e ∈ entries, e.1 ∈ orders)
  (hadm : ({} : Draft).Admits entries) (hperm : entries'.Perm (entries.map (Entry.renumber f)))
include hf horders hadm hperm

theorem admits_renumber : ({} : Draft).Admits entries' := by
  have hmem : ∀ k ∈ entries.map Prod.fst, k ∈ orders := by
    intro k hk
    obtain ⟨e, he, rfl⟩ := List.mem_map.mp hk
    exact horders e he
  rw [empty_admits_perm hperm, empty_admits_iff, orders_renumber, definedLabels_renumber]
  refine ⟨List.Nodup.map_on (fun a ha b hb heq => ?_) hadm.orders, hadm.labels⟩
  exact hf.injOn (hmem a ha) (hmem b hb) heq

/-- Entries under other orders that compare alike come out in the same places. -/
theorem toList_checked_renumber : (entries'.foldl enter {}).checked.toList =
    (entries.foldl enter {}).checked.toList.map (Entry.renumber f) := by
  have hsorted := toList_checked_perm hadm
  have hsorted' := toList_checked_perm (admits_renumber hf horders hadm hperm)
  have hascending := sorted_toList_checked (entries.foldl enter {})
  have hmapped : ((entries.foldl enter {}).checked.toList.map (Entry.renumber f)).Pairwise
      fun a b => a.1 < b.1 := by
    refine List.pairwise_map.mpr (hascending.imp_of_mem fun {a b} ha hb hab => ?_)
    exact hf (horders a (hsorted.mem_iff.mp ha)) (horders b (hsorted.mem_iff.mp hb)) hab
  refine List.Perm.eq_of_pairwise (fun a b _ _ hab hba => absurd hab (Nat.lt_asymm hba))
    (sorted_toList_checked _) hmapped ?_
  exact (hsorted'.trans hperm).trans (hsorted.map _).symm

theorem program_renumber :
    (entries'.foldl enter {}).program = (entries.foldl enter {}).program := by
  have hinstructions :
      (entries'.foldl enter {}).instructions = (entries.foldl enter {}).instructions := by
    apply List.ext_getElem?
    intro k
    rw [getElem?_instructions, getElem?_instructions, toList_checked_renumber hf horders hadm hperm,
      List.getElem?_map, Option.map_map]
    rfl
  rw [program, program, hinstructions]

end Renumber

end Draft

/-! ## Loading -/

namespace Program

/-- The orders that the nodes state. -/
def statedOrders (nodes : List Node) : Set Nat := {k | ∃ n ∈ nodes, n.statedOrder? = some k}

theorem load_of_presents {f : Nat → Nat} {nodes nodes' : List Node} {p : Program}
    (hf : StrictMonoOn f (statedOrders nodes)) (h : Presents f nodes nodes')
    (hload : load nodes = .ok p) : load nodes' = .ok p := by
  obtain ⟨arranged, hperm, hrestated⟩ := h
  obtain ⟨entries, hreads, hadm, rfl⟩ := load_eq_ok_iff.mp hload
  obtain ⟨entries₁, hreads₁, hperm₁⟩ := List.perm_comp_forall₂ hperm hreads
  have hstated : ∀ e ∈ entries, e.1 ∈ statedOrders nodes :=
    forall_of_reads (fun n hn e hread => ⟨n, hn, hread.1⟩) hreads
  have hperm' := hperm₁.map (Entry.renumber f)
  exact load_eq_ok_iff.mpr ⟨_, (reads_restated_iff hrestated).mpr ⟨entries₁, hreads₁, rfl⟩,
    Draft.admits_renumber hf hstated hadm hperm',
    (Draft.program_renumber hf hstated hadm hperm').symm⟩

theorem exists_load_of_presents {f : Nat → Nat} {nodes nodes' : List Node} {p : Program}
    (h : Presents f nodes nodes') (hload : load nodes' = .ok p) : ∃ q, load nodes = .ok q := by
  obtain ⟨arranged, hperm, hrestated⟩ := h
  obtain ⟨entries', hreads', hadm', -⟩ := load_eq_ok_iff.mp hload
  obtain ⟨entries₁, hreads₁, rfl⟩ := (reads_restated_iff hrestated).mp hreads'
  obtain ⟨entries, hreads, hperm₁⟩ := List.perm_comp_forall₂ hperm.symm hreads₁
  have hadm := (Draft.empty_admits_perm hperm₁).mpr (Draft.admits_of_renumber hadm')
  exact ⟨_, load_eq_ok_iff.mpr ⟨entries, hreads, hadm, rfl⟩⟩

/-- **Loading sees content only.** Nodes in another presentation load to the same program,
and nodes that fail to load fail in every presentation. -/
theorem load_presentation {f : Nat → Nat} {nodes nodes' : List Node}
    (hf : StrictMonoOn f (statedOrders nodes)) (h : Presents f nodes nodes') :
    (∀ p, load nodes = .ok p → load nodes' = .ok p) ∧
    ((∃ e, load nodes = .error e) → ∃ e, load nodes' = .error e) := by
  refine ⟨fun p => load_of_presents hf h, fun ⟨e, he⟩ => ?_⟩
  cases hload : load nodes' with
  | error e' => exact ⟨e', rfl⟩
  | ok p =>
    obtain ⟨q, hq⟩ := exists_load_of_presents h hload
    rw [he] at hq
    cases hq

/-- A jump and its label in another presentation: the nodes and the children in another order,
and 7 and 30 replaced by 14 and 60. Written down twice, the label fails in both. -/
theorem load_presentation_shuffled :
    let label : Node :=
      { order := some "30", opcode := some "Label",
        children := [⟨"arg1", some "label", "end"⟩] }
    let jump : Node :=
      { order := some "007", opcode := some "jumpifeq",
        children := [⟨"arg1", some "label", "end"⟩, ⟨"arg2", some "int", " 1"⟩,
          ⟨"arg3", some "var", "GF@x"⟩] }
    let label' : Node :=
      { order := some "0060", opcode := some "LABEL\n",
        children := [⟨"arg1", some "label", "\x0bend"⟩] }
    let jump' : Node :=
      { order := some "14", opcode := some "\u00a0JumpIfEq",
        children := [⟨"arg3", some "var", "GF@x\x00\r"⟩, ⟨"arg1", some "label", "end"⟩,
          ⟨"arg2", some "int", " 1"⟩] }
    (∃ p, load [label, jump] = .ok p ∧ load [jump', label'] = .ok p ∧
      p.labels.resolve? "end" = some 2) ∧
    (∃ e, load [label, label] = .error e) ∧ ∃ e, load [label', label'] = .error e := by
  intro label jump label' jump'
  have hf : ∀ nodes, StrictMonoOn (fun k => 2 * k) (statedOrders nodes) := by
    intro nodes a _ b _ hab
    show 2 * a < 2 * b
    omega
  have hlabel : label.Restated (fun k => 2 * k) label' := by
    refine ⟨fun k hk => ?_, fun hnone => ?_,
      .some ⟨"LABEL".toList, by decide, [], ['\n'], by simp, ?_⟩, _, .refl _,
      .cons ⟨rfl, rfl, ['\x0b'], [], rfl, ?_⟩ .nil⟩
    · cases hk
      exact ⟨by decide, by decide, 2, rfl⟩
    · cases hnone
    · simp [Text.isWhiteSpace, Text.whiteSpace]
    · simp [Text.paddings]
  have hjump : jump.Restated (fun k => 2 * k) jump' := by
    have hsame : ∀ a : Argument, a.Padded a := fun a => ⟨rfl, rfl, [], [], by simp⟩
    refine ⟨fun k hk => ?_, fun hnone => ?_,
      .some ⟨"JumpIfEq".toList, by decide, ['\u00a0'], [], by simp, ?_⟩,
      [⟨"arg3", some "var", "GF@x"⟩, ⟨"arg1", some "label", "end"⟩, ⟨"arg2", some "int", " 1"⟩],
      by decide, .cons ⟨rfl, rfl, [], ['\x00', '\r'], rfl, ?_⟩
        (.cons (hsame _) (.cons (hsame _) .nil))⟩
    · cases hk
      exact ⟨by decide, by decide, 0, rfl⟩
    · cases hnone
    · simp [Text.isWhiteSpace, Text.whiteSpace]
    · simp [Text.paddings]
  have hload : ∃ p, load [label, jump] = .ok p ∧ p.labels.resolve? "end" = some 2 := ⟨_, rfl, rfl⟩
  have htwice : ∃ e, load [label, label] = .error e := ⟨_, rfl⟩
  obtain ⟨p, hp, hend⟩ := hload
  have hshuffled : Presents (fun k => 2 * k) [label, jump] [jump', label'] :=
    ⟨[jump, label], .swap _ _ _, .cons hjump (.cons hlabel .nil)⟩
  have hdoubled : Presents (fun k => 2 * k) [label, label] [label', label'] :=
    ⟨[label, label], .refl _, .cons hlabel (.cons hlabel .nil)⟩
  exact ⟨⟨p, hp, (load_presentation (hf _) hshuffled).1 p hp, hend⟩, htwice,
    (load_presentation (hf _) hdoubled).2 htwice⟩

end Program

end FrameCode
