import FrameCode.Proofs.Load
import FrameCode.Proofs.Node.Faults
import FrameCode.Proofs.Node.Parts

/-! Nodes that cannot be loaded. Each node is read by itself, and all that nodes share is the
orders and the label names that are taken. The first node that is refused gives the error,
whatever comes after it, and only a name that is taken makes it a semantic one
(`Draft.errorClass_of_add`). -/

namespace FrameCode

/-! ## One node by itself -/

namespace Node

/-- The name that a label node states, without the padding. -/
def labelName? (n : Node) : Option String :=
  if n.opcodeOf = .ok .label then
    (n.children.find? fun a => a.tag == "arg1").map fun a =>
      String.ofList (Text.trim Text.isPadding a.text.toList)
  else none

/-- A label node has one argument, and its text is the name. -/
theorem definedLabel?_of_reads {n : Node} {e : Entry} (h : n.Reads e) :
    e.2.definedLabel? = n.labelName? := by
  obtain ⟨op, args, ops, hop, hargs, hlen, hops, hi⟩ := decode_eq_ok_iff.mp h.2
  rw [hi]
  by_cases hlabel : op = .label
  · subst hlabel
    obtain ⟨a, rfl⟩ := List.length_eq_one_iff.mp hlen
    obtain ⟨hperm, htags⟩ := arguments_eq_ok_iff.mp hargs
    have hchildren : n.children = [a] := List.perm_singleton.mp hperm.symm
    have htag : a.tag = "arg1" := by simpa [argumentTags] using htags
    simp only [operands, Opcode.signature, bind_eq_ok_iff, pure_eq_ok_iff] at hops
    obtain ⟨o, ho, -, -, rfl⟩ := hops
    obtain ⟨_, kind, -, -, hfits, hread⟩ := Argument.operand_eq_ok ho
    have hreading := Operand.reading_of_read hread
    cases hreading with
    | label given => simp [Instruction.definedLabel?, labelName?, hop, hchildren, htag]
    | var | const | type => cases hfits
  · rw [labelName?, hop, if_neg (by simpa using hlabel)]
    simp [Instruction.definedLabel?, hlabel]

end Node

namespace Program

theorem load_singleton_isOk_iff {n : Node} :
    (∃ p, load [n] = .ok p) ↔ ∃ e, n.Reads e := by
  constructor
  · rintro ⟨p, hp⟩
    obtain ⟨entries, hall, -, -⟩ := load_eq_ok_iff.mp hp
    obtain ⟨e, _, hread, -, -⟩ := List.forall₂_cons_left_iff.mp hall
    exact ⟨e, hread⟩
  · rintro ⟨e, hread⟩
    refine ⟨_, load_eq_ok_iff.mpr ⟨[e], .cons hread .nil, Draft.empty_admits_iff.mpr ⟨?_, ?_⟩, rfl⟩⟩
    · exact List.nodup_singleton e.1
    · rw [List.map_singleton, definedLabels_cons]
      cases e.2.definedLabel? <;> simp [definedLabels]

theorem exists_reads_iff {nodes : List Node} :
    (∃ entries, List.Forall₂ Node.Reads nodes entries) ↔ ∀ n ∈ nodes, ∃ e, n.Reads e := by
  induction nodes with
  | nil => exact ⟨fun _ => nofun, fun _ => ⟨[], .nil⟩⟩
  | cons n nodes ih =>
    rw [List.forall_mem_cons, ← ih]
    constructor
    · rintro ⟨_, hall⟩
      obtain ⟨e, entries, hread, hrest, -⟩ := List.forall₂_cons_left_iff.mp hall
      exact ⟨⟨e, hread⟩, entries, hrest⟩
    · rintro ⟨⟨e, hread⟩, entries, hrest⟩
      exact ⟨e :: entries, .cons hread hrest⟩

end Program

/-! ## What nodes share -/

theorem orders_of_reads {nodes : List Node} {entries : List Entry}
    (h : List.Forall₂ Node.Reads nodes entries) :
    nodes.filterMap Node.statedOrder? = entries.map Prod.fst := by
  induction h with
  | nil => rfl
  | cons hread _ ih => rw [List.filterMap_cons_some hread.1, ih, List.map_cons]

theorem labels_of_reads {nodes : List Node} {entries : List Entry}
    (h : List.Forall₂ Node.Reads nodes entries) :
    nodes.filterMap Node.labelName? = definedLabels (entries.map Prod.snd) := by
  induction h with
  | nil => rfl
  | cons hread _ ih =>
    rw [List.map_cons, definedLabels_cons, Node.definedLabel?_of_reads hread, ← ih,
      List.filterMap_cons]
    split <;> simp_all

namespace Draft

theorem mem_checked_foldl {entries : List Entry} {d : Draft} {k : Nat} :
    k ∈ (entries.foldl enter d).checked ↔ k ∈ entries.map Prod.fst ∨ k ∈ d.checked := by
  induction entries generalizing d with
  | nil => simp
  | cons e entries ih =>
    rw [List.foldl_cons, ih, mem_checked_enter, List.map_cons, List.mem_cons]
    grind

theorem mem_labels_foldl {entries : List Entry} {d : Draft} {name : String} :
    name ∈ (entries.foldl enter d).labels ↔
      name ∈ definedLabels (entries.map Prod.snd) ∨ name ∈ d.labels := by
  induction entries generalizing d with
  | nil => simp [definedLabels]
  | cons e entries ih =>
    rw [List.foldl_cons, ih, mem_labels_enter, List.map_cons, definedLabels_cons, List.mem_append,
      Option.mem_toList]
    grind

/-- A draft of nodes knows the orders and the names that these state, and no more. -/
theorem taken_of_foldlM {nodes : List Node} {d : Draft} (h : nodes.foldlM add {} = .ok d) :
    (∀ k, k ∈ d.checked ↔ k ∈ nodes.filterMap Node.statedOrder?) ∧
      ∀ name, name ∈ d.labels ↔ name ∈ nodes.filterMap Node.labelName? := by
  obtain ⟨entries, hall, -, rfl⟩ := foldlM_add_eq_ok_iff.mp h
  rw [orders_of_reads hall, labels_of_reads hall]
  exact ⟨fun k => by simp [mem_checked_foldl], fun name => by simp [mem_labels_foldl]⟩

/-! ## The error -/

theorem orderOf_failsOnly (d : Draft) (n : Node) :
    FailsOnly (·.errorClass = .structural) (d.orderOf n) := by
  unfold orderOf
  split
  · exact .error rfl
  · split
    · exact .error rfl
    · split
      · exact .error rfl
      · exact .ok _

/-- The order comes first, then the instruction, and the name of a label last. -/
theorem cause_of_add {d : Draft} {n : Node} {e : LoadError} (h : d.add n = .error e) :
    d.orderOf n = .error e ∨
      ∃ k, d.orderOf n = .ok k ∧ ((∃ fault, n.decode k = .error fault ∧ e = .node k fault) ∨
        ∃ i name, n.decode k = .ok i ∧ i.definedLabel? = some name ∧ name ∈ d.labels ∧
          e = .node k (.duplicateLabel name)) := by
  rcases bind_eq_error_iff.mp h with horder | ⟨k, hk, h⟩
  · exact .inl horder
  refine .inr ⟨k, hk, ?_⟩
  rcases bind_eq_error_iff.mp h with hdecode | ⟨i, hi, h⟩
  · exact .inl (mapError_eq_error_iff.mp hdecode)
  rw [mapError_eq_ok_iff] at hi
  cases hname : i.definedLabel? with
  | none =>
    rw [hname] at h
    cases h
  | some name =>
    rw [hname] at h
    rcases bind_eq_error_iff.mp h with hdefine | ⟨_, _, hpure⟩
    · obtain ⟨fault, hfault, rfl⟩ := mapError_eq_error_iff.mp hdefine
      unfold define at hfault
      split at hfault
      · next hmem =>
        cases hfault
        exact .inr ⟨i, name, hi, hname, hmem, rfl⟩
      · cases hfault
    · cases hpure

/-- A node is refused with a semantic error if and only if it can be read, at an order that is
free, and is a label with a name that is taken. -/
theorem errorClass_of_add {d : Draft} {n : Node} {e : LoadError} (h : d.add n = .error e) :
    (e.errorClass = .semantic ∨ e.errorClass = .structural) ∧
    (e.errorClass = .semantic ↔ ∃ entry, n.Reads entry ∧ entry.1 ∉ d.checked ∧
      ∃ name, n.labelName? = some name ∧ name ∈ d.labels) := by
  have hstructural : e.errorClass = .structural → (∀ entry, n.Reads entry → entry.1 ∈ d.checked) →
      (e.errorClass = .semantic ∨ e.errorClass = .structural) ∧
      (e.errorClass = .semantic ↔ ∃ entry, n.Reads entry ∧ entry.1 ∉ d.checked ∧
        ∃ name, n.labelName? = some name ∧ name ∈ d.labels) := by
    intro hclass hunread
    refine ⟨.inr hclass, fun hsemantic => ?_, ?_⟩
    · rw [hclass] at hsemantic
      cases hsemantic
    · rintro ⟨entry, hread, hnew, -⟩
      exact absurd (hunread entry hread) hnew
  rcases cause_of_add h with horder | ⟨k, hk, ⟨fault, hdecode, rfl⟩ | ⟨i, name, hi, hname, hmem, rfl⟩⟩
  · refine hstructural (d.orderOf_failsOnly n e horder) fun entry hread => ?_
    by_contra hnew
    rw [orderOf_eq_ok_iff.mpr ⟨hread.1, hnew⟩] at horder
    cases horder
  · refine hstructural (n.decode_objects k fault hdecode).errorClass fun entry hread => ?_
    have hsame : entry.1 = k := Option.some.inj (hread.1.symm.trans (orderOf_eq_ok_iff.mp hk).1)
    have hok := hread.2
    rw [hsame, hdecode] at hok
    cases hok
  · obtain ⟨hstated, hnew⟩ := orderOf_eq_ok_iff.mp hk
    have hread : n.Reads (k, i) := ⟨hstated, hi⟩
    refine ⟨.inl rfl, fun _ => ⟨(k, i), hread, hnew, name, ?_, hmem⟩, fun _ => rfl⟩
    rw [← Node.definedLabel?_of_reads hread, hname]

/-- Checking fails at a first node; the nodes before it make a draft. -/
theorem exists_refused {nodes : List Node} {d : Draft} {e : LoadError}
    (h : nodes.foldlM add d = .error e) :
    ∃ k n d', nodes[k]? = some n ∧ (nodes.take k).foldlM add d = .ok d' ∧ d'.add n = .error e := by
  induction nodes generalizing d with
  | nil => cases h
  | cons n nodes ih =>
    rcases bind_eq_error_iff.mp h with hfirst | ⟨d₁, hd₁, hrest⟩
    · exact ⟨0, n, d, rfl, rfl, hfirst⟩
    · obtain ⟨k, n', d', hn', hd', herror⟩ := ih hrest
      refine ⟨k + 1, n', d', hn', ?_, herror⟩
      rw [List.take_succ_cons, List.foldlM_cons, hd₁]
      exact hd'

end Draft

namespace Program

theorem load_eq_error_iff {nodes : List Node} {e : LoadError} :
    load nodes = .error e ↔ nodes.foldlM Draft.add {} = .error e := by
  refine bind_eq_error_iff.trans (or_iff_left ?_)
  rintro ⟨_, _, hpure⟩
  cases hpure

/-- More nodes change nothing once one is refused. -/
theorem load_append_of_error {nodes : List Node} {e : LoadError} (h : load nodes = .error e)
    (rest : List Node) : load (nodes ++ rest) = .error e := by
  rw [load_eq_error_iff, List.foldlM_append, load_eq_error_iff.mp h]
  rfl

theorem load_isOk_iff {nodes : List Node} :
    (∃ p, load nodes = .ok p) ↔ (∀ n ∈ nodes, ∃ p, load [n] = .ok p) ∧
      (nodes.filterMap Node.statedOrder?).Nodup ∧ (nodes.filterMap Node.labelName?).Nodup := by
  simp only [load_singleton_isOk_iff, ← exists_reads_iff]
  constructor
  · rintro ⟨p, hp⟩
    obtain ⟨entries, hall, hadm, -⟩ := load_eq_ok_iff.mp hp
    rw [orders_of_reads hall, labels_of_reads hall]
    exact ⟨⟨entries, hall⟩, hadm.orders, hadm.labels⟩
  · rintro ⟨⟨entries, hall⟩, hdistinct⟩
    rw [orders_of_reads hall, labels_of_reads hall] at hdistinct
    exact ⟨_, load_eq_ok_iff.mpr ⟨entries, hall, Draft.empty_admits_iff.mpr hdistinct, rfl⟩⟩

/-- Of two lengths at which loading turns from success to failure, neither is below the other. -/
theorem not_lt_of_load_take {nodes : List Node} {k k' : Nat} {e : LoadError}
    (hfails : load (nodes.take (k + 1)) = .error e) (hloads : ∃ p, load (nodes.take k') = .ok p) :
    ¬k < k' := by
  intro hlt
  obtain ⟨p, hp⟩ := hloads
  have hbegin : nodes.take (k + 1) = (nodes.take k').take (k + 1) := by
    rw [List.take_take, Nat.min_eq_left hlt]
  have herror := load_append_of_error (hbegin ▸ hfails) ((nodes.take k').drop (k + 1))
  rw [List.take_append_drop, hp] at herror
  cases herror

/-- Nodes can be loaded if and only if each can be loaded alone and no two state one order or one
label. Otherwise one length parts the beginnings that can be loaded from those that cannot, and
the node there gives the error: a semantic one if it is a label with a name that is taken and
nothing else is wrong with it, and a structural one if not. -/
theorem load_refuses_first (nodes : List Node) :
    ((∃ p, load nodes = .ok p) ↔ (∀ n ∈ nodes, ∃ p, load [n] = .ok p) ∧
      (nodes.filterMap Node.statedOrder?).Nodup ∧ (nodes.filterMap Node.labelName?).Nodup) ∧
    ∀ e, load nodes = .error e → ∃ k n, nodes[k]? = some n ∧
      (∀ k', (∃ p, load (nodes.take k') = .ok p) ∧ (∃ e', load (nodes.take (k' + 1)) = .error e') ↔
        k' = k) ∧
      (∀ rest, load (nodes.take (k + 1) ++ rest) = .error e) ∧
      (e.errorClass = .semantic ↔ (∃ p, load [n] = .ok p) ∧
        (∀ order, n.statedOrder? = some order →
          order ∉ (nodes.take k).filterMap Node.statedOrder?) ∧
        ∃ name, n.labelName? = some name ∧ name ∈ (nodes.take k).filterMap Node.labelName?) ∧
      (e.errorClass ≠ .semantic → e.errorClass = .structural) := by
  refine ⟨load_isOk_iff, fun e he => ?_⟩
  obtain ⟨k, n, d, hn, hd, hadd⟩ := Draft.exists_refused (load_eq_error_iff.mp he)
  have hloads : ∃ p, load (nodes.take k) = .ok p := ⟨d.program, by rw [load, hd]; rfl⟩
  have hfails : load (nodes.take (k + 1)) = .error e := by
    rw [load_eq_error_iff, List.take_add_one, hn, Option.toList_some, List.foldlM_append, hd]
    exact bind_eq_error_iff.mpr (.inr ⟨d, rfl, bind_eq_error_iff.mpr (.inl hadd)⟩)
  obtain ⟨horders, hlabels⟩ := Draft.taken_of_foldlM hd
  obtain ⟨hclass, hsemantic⟩ := Draft.errorClass_of_add hadd
  refine ⟨k, n, hn, fun k' => ⟨?_, ?_⟩, load_append_of_error hfails, ?_, hclass.resolve_left⟩
  · rintro ⟨hloads', e', hfails'⟩
    have hle := not_lt_of_load_take hfails hloads'
    have hge := not_lt_of_load_take hfails' hloads
    omega
  · rintro rfl
    exact ⟨hloads, e, hfails⟩
  · simp only [hsemantic, load_singleton_isOk_iff, horders, hlabels]
    constructor
    · rintro ⟨entry, hread, hnew, hname⟩
      refine ⟨⟨entry, hread⟩, fun order horder => ?_, hname⟩
      cases hread.1.symm.trans horder
      exact hnew
    · rintro ⟨⟨entry, hread⟩, hnew, hname⟩
      exact ⟨entry, hread, hnew entry.1 hread.1, hname⟩

/-- The third node defines a name again. The fourth has no order, which is not noticed. -/
theorem load_refuses_second_label :
    let label := fun order text =>
      Node.mk (some order) (some "Label") [⟨"arg1", some "label", text⟩]
    let nodes := [label "20" "end", label "7" "start", label "10" " end\n", {}]
    load nodes = .error (.node 10 (.duplicateLabel "end")) ∧
    (LoadError.node 10 (.duplicateLabel "end")).errorClass = .semantic ∧
    ∃ k n, nodes[k]? = some n ∧
      (∀ k', (∃ p, load (nodes.take k') = .ok p) ∧ (∃ e', load (nodes.take (k' + 1)) = .error e') ↔
        k' = k) ∧
      (∀ rest, load (nodes.take (k + 1) ++ rest) = .error (.node 10 (.duplicateLabel "end"))) ∧
      ∃ name, n.labelName? = some name ∧ name ∈ (nodes.take k).filterMap Node.labelName? := by
  intro label nodes
  have herror : load nodes = .error (.node 10 (.duplicateLabel "end")) := rfl
  obtain ⟨k, n, hn, hunique, hrest, hclass, -⟩ := (load_refuses_first nodes).2 _ herror
  exact ⟨herror, rfl, k, n, hn, hunique, hrest, (hclass.mp rfl).2.2⟩

end Program

end FrameCode
