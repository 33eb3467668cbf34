import FrameCode.Proofs.Load

/-! Loading in two passes. A ledger takes the nodes as they are written down and notes each label
with the order that its instruction states. Then the instructions are sorted and numbered, and a
label stands for the number of its order. A draft keeps its instructions sorted from the start
and numbers the labels with them; both ways give the same program, and the same error where there
is none (`Program.load_eq_renumbered`). -/

namespace FrameCode

/-- Two computations end in the same error or in results that are related. -/
inductive Agree {ε α β : Type} (R : α → β → Prop) : Except ε α → Except ε β → Prop
  | ok {a : α} {b : β} (h : R a b) : Agree R (.ok a) (.ok b)
  | error (e : ε) : Agree R (.error e) (.error e)

namespace Agree

variable {ε α β α' β' : Type} {R : α → β → Prop} {R' : α' → β' → Prop}

theorem bind {x : Except ε α} {y : Except ε β} {f : α → Except ε α'} {g : β → Except ε β'}
    (h : Agree R x y) (hnext : ∀ a b, R a b → Agree R' (f a) (g b)) :
    Agree R' (x >>= f) (y >>= g) := by
  cases h with
  | ok h => exact hnext _ _ h
  | error e => exact .error e

theorem bind_same {γ : Type} {x : Except ε γ} {f : γ → Except ε α} {g : γ → Except ε β}
    (hnext : ∀ c, x = .ok c → Agree R (f c) (g c)) : Agree R (x >>= f) (x >>= g) := by
  cases x with
  | ok c => exact hnext c rfl
  | error e => exact .error e

end Agree

/-- The entries of the nodes checked so far as they are written down, the orders that they state,
and the order at which each label is defined. -/
structure Ledger where
  orders : Std.ExtTreeSet Nat := ∅
  labels : Std.ExtTreeMap String Nat := ∅
  entries : List Entry := []

namespace Ledger

/-- The order that the next node states: a number that no node before it has. -/
def claim (l : Ledger) (n : Node) : Except LoadError Nat :=
  match n.order with
  | none => .error (.missingOrder (l.entries.length + 1))
  | some text =>
    match Text.Decimal.order? text.toList with
    | none => .error (.invalidOrder text)
    | some order => if order ∈ l.orders then .error (.duplicateOrder order) else .ok order

/-- Notes a label with the order of its instruction; a name is defined once. -/
def define (l : Ledger) (name : String) (order : Nat) : Except NodeFault Ledger :=
  if name ∈ l.labels then .error (.duplicateLabel name)
  else .ok { l with labels := l.labels.insert name order }

/-- Checks one more node. -/
def add (l : Ledger) (n : Node) : Except LoadError Ledger := do
  let order ← l.claim n
  let i ← (n.decode order).mapError (.node order)
  let l ← match i.definedLabel? with
    | some name => (l.define name order).mapError (.node order)
    | none => .ok l
  return { l with orders := l.orders.insert order, entries := l.entries ++ [(order, i)] }

/-- The entries in ascending order. -/
def sorted (l : Ledger) : List Entry := l.entries.mergeSort fun a b => a.1 ≤ b.1

/-- Where each order comes among all, counted from one. -/
def positionOf (l : Ledger) : Std.ExtTreeMap Nat Nat :=
  .ofList ((l.sorted.map Prod.fst).zipIdx 1)

/-- Each label at the position of its order. A label is left out if its order has none. -/
def resolve (l : Ledger) : LabelTable where
  positions := l.labels.filterMap fun _ order => l.positionOf[order]?

/-- The instructions sorted and numbered, and the labels at their positions. -/
def renumber (l : Ledger) : Program where
  instructions := (l.sorted.zipIdx.map fun (e, k) => { e.2 with position := k + 1 }).toArray
  labels := l.resolve

/-! ## A ledger beside a draft -/

/-- The ledger with one more entry. -/
def enter (l : Ledger) (e : Entry) : Ledger where
  orders := l.orders.insert e.1
  labels := match e.2.definedLabel? with
    | some name => l.labels.insert name e.1
    | none => l.labels
  entries := l.entries ++ [e]

/-- The ledger and the draft come from the same nodes: their entries are the same but for the
sequence, and the labels noted are those that the entries define, each at its entry's order. -/
structure Matches (l : Ledger) (d : Draft) : Prop where
  orders : ∀ k, k ∈ l.orders ↔ k ∈ d.checked
  names : ∀ name, name ∈ l.labels ↔ name ∈ d.labels
  entries : d.checked.toList.Perm l.entries
  defined : ∀ e ∈ l.entries, ∀ name, e.2.definedLabel? = some name → l.labels[name]? = some e.1
  noted : ∀ name order, l.labels[name]? = some order →
    ∃ i, (order, i) ∈ l.entries ∧ i.definedLabel? = some name

theorem matches_empty : ({} : Ledger).Matches {} where
  orders := by simp
  names := by simp
  entries := by simp
  defined := by simp
  noted := by simp

theorem getElem?_labels_enter {l : Ledger} {e : Entry} {name : String} :
    (l.enter e).labels[name]? =
      if e.2.definedLabel? = some name then some e.1 else l.labels[name]? := by
  cases h : e.2.definedLabel? with
  | none => simp [enter, h]
  | some other => simp [enter, h, Std.ExtTreeMap.getElem?_insert]

variable {l : Ledger} {d : Draft}

theorem Matches.enter (h : l.Matches d) {e : Entry} (hnew : e.1 ∉ d.checked)
    (hname : ∀ name, e.2.definedLabel? = some name → name ∉ d.labels) :
    (l.enter e).Matches (d.enter e) := by
  have hnone : ∀ name, e.2.definedLabel? = some name → l.labels[name]? = none := by
    intro name hdef
    exact Std.ExtTreeMap.getElem?_eq_none fun hmem => hname name hdef ((h.names name).mp hmem)
  constructor
  case orders =>
    intro k
    rw [Draft.mem_checked_enter, ← h.orders k]
    simp [Ledger.enter, Std.ExtTreeSet.mem_insert]
  case names =>
    intro name
    rw [Draft.mem_labels_enter, ← h.names name]
    cases hdef : e.2.definedLabel? <;> simp [Ledger.enter, hdef, Std.ExtTreeMap.mem_insert]
  case entries =>
    refine (Draft.toList_checked_enter hnew).trans ?_
    exact (h.entries.cons e).trans (List.perm_append_singleton e l.entries).symm
  case defined =>
    intro e' he' name hdef
    rw [getElem?_labels_enter]
    rcases List.mem_append.mp he' with he' | he'
    · -- An entry from before keeps its label, since the new one defines another.
      have hnoted := h.defined e' he' name hdef
      rw [if_neg fun hsame => by simp [hnone name hsame] at hnoted, hnoted]
    · rw [List.mem_singleton.mp he'] at hdef ⊢
      rw [if_pos hdef]
  case noted =>
    intro name order hnoted
    rw [getElem?_labels_enter] at hnoted
    split at hnoted
    · next hdef =>
      cases hnoted
      exact ⟨e.2, List.mem_append_right _ (List.mem_singleton.mpr rfl), hdef⟩
    · obtain ⟨i, hi, hdef⟩ := h.noted name order hnoted
      exact ⟨i, List.mem_append_left _ hi, hdef⟩

theorem Matches.claim_eq (h : l.Matches d) (n : Node) : l.claim n = d.orderOf n := by
  have hlength : l.entries.length = d.checked.size := by
    rw [← h.entries.length_eq, Std.ExtTreeMap.length_toList]
  simp only [claim, hlength, h.orders]
  rfl

/-- **One node.** Ledger and draft refuse it with the same error or take in the same entry. -/
theorem Matches.add (h : l.Matches d) (n : Node) : Agree Matches (l.add n) (d.add n) := by
  unfold Ledger.add Draft.add
  rw [h.claim_eq n]
  refine .bind_same fun order horder => .bind_same fun i _ => ?_
  have hnew : order ∉ d.checked := (Draft.orderOf_eq_ok_iff.mp horder).2
  cases hdef : i.definedLabel? with
  | none =>
    have hnext := h.enter (e := (order, i)) hnew (by simp [hdef])
    simp only [Ledger.enter, Draft.enter, hdef] at hnext
    exact .ok hnext
  | some name =>
    by_cases hmem : name ∈ d.labels
    · simp only [define, Draft.define, h.names, hmem, if_true]
      exact .error _
    · have hnext := h.enter (e := (order, i)) hnew (by simpa [hdef] using hmem)
      simp only [Ledger.enter, Draft.enter, hdef] at hnext
      simp only [define, Draft.define, h.names, hmem, if_false]
      exact .ok hnext

/-- **All nodes.** What one node gives carries over to the whole list. -/
theorem Matches.foldlM_add (nodes : List Node) (h : l.Matches d) :
    Agree Matches (nodes.foldlM Ledger.add l) (nodes.foldlM Draft.add d) := by
  induction nodes generalizing l d with
  | nil => exact .ok h
  | cons n nodes ih =>
    rw [List.foldlM_cons, List.foldlM_cons]
    exact (h.add n).bind fun _ _ hnext => ih hnext

/-! ## Numbering -/

theorem pairwise_sorted (l : Ledger) : l.sorted.Pairwise fun a b => a.1 ≤ b.1 := by
  have htrans : ∀ a b c : Entry, decide (a.1 ≤ b.1) → decide (b.1 ≤ c.1) → decide (a.1 ≤ c.1) := by
    intro a b c
    simp only [decide_eq_true_eq]
    exact Nat.le_trans
  have htotal : ∀ a b : Entry, decide (a.1 ≤ b.1) || decide (b.1 ≤ a.1) := by
    intro a b
    simpa using Nat.le_total a.1 b.1
  simpa [sorted] using List.pairwise_mergeSort htrans htotal l.entries

/-- Entries of one order are one entry, so there is only one way to sort them. -/
theorem Matches.sorted_eq (h : l.Matches d) : l.sorted = d.checked.toList := by
  have hperm : l.sorted.Perm d.checked.toList := (List.mergeSort_perm _ _).trans h.entries.symm
  have hasc : d.checked.toList.Pairwise fun a b => a.1 ≤ b.1 :=
    d.sorted_toList_checked.imp Nat.le_of_lt
  refine hperm.eq_of_pairwise (fun a b ha hb hab hba => ?_) l.pairwise_sorted hasc
  have hget := Std.ExtTreeMap.mem_toList_iff_getElem?_eq_some.mp (hperm.subset ha)
  rw [Nat.le_antisymm hab hba, Std.ExtTreeMap.mem_toList_iff_getElem?_eq_some.mp hb] at hget
  exact Prod.ext (Nat.le_antisymm hab hba) (Option.some.inj hget).symm

/-- An order's position is its place among the sorted entries. -/
theorem Matches.getElem?_positionOf (h : l.Matches d) {k : Nat} {e : Entry}
    (he : d.checked.toList[k]? = some e) : l.positionOf[e.1]? = some (k + 1) := by
  have hdistinct : ((l.sorted.map Prod.fst).zipIdx 1).Pairwise
      fun a b => ¬compare a.1 b.1 = .eq := by
    have hasc := List.pairwise_map.mpr d.sorted_toList_checked
    rw [← h.sorted_eq, ← List.zipIdx_map_fst 1 (l.sorted.map Prod.fst), List.pairwise_map] at hasc
    exact hasc.imp fun hab => by simpa using Nat.ne_of_lt hab
  refine Std.ExtTreeMap.getElem?_ofList_of_mem (Std.ReflCmp.compare_self (a := e.1)) hdistinct ?_
  rw [h.sorted_eq, List.mk_mem_zipIdx_iff_le_and_getElem?_sub, Nat.add_sub_cancel,
    List.getElem?_map, he]
  exact ⟨Nat.le_add_left 1 k, rfl⟩

theorem resolve?_resolve (l : Ledger) (name : String) :
    l.resolve.resolve? name = l.labels[name]?.bind fun order => l.positionOf[order]? := by
  simp [resolve, LabelTable.resolve?, Std.ExtTreeMap.getElem?_filterMap, Option.pbind_eq_bind]

/-- No label is left out: the order that it is noted with is that of an entry. -/
theorem Matches.resolve_eq (h : l.Matches d) : l.resolve = .ofInstructions d.instructions := by
  have hempty (name : String) : LabelTable.empty.resolve? name = none := by
    simp [LabelTable.empty, LabelTable.resolve?]
  have hresolve : ∀ name, l.resolve.resolve? name =
      (LabelTable.ofInstructions d.instructions).resolve? name := by
    intro name
    rw [resolve?_resolve, LabelTable.ofInstructions, LabelTable.resolve?_foldl_enter, hempty,
      Option.none_or]
    cases hfind : d.instructions.find? fun i => i.definedLabel? = some name with
    | some i =>
      obtain ⟨k, hk⟩ := List.getElem?_of_mem (List.mem_of_find?_eq_some hfind)
      rw [Draft.getElem?_instructions, Option.map_eq_some_iff] at hk
      obtain ⟨e, he, rfl⟩ := hk
      have hfound := List.find?_some hfind
      have hdef : e.2.definedLabel? = some name := of_decide_eq_true hfound
      have hmem : e ∈ l.entries := h.entries.subset (List.mem_of_getElem? he)
      simp [h.defined e hmem name hdef, h.getElem?_positionOf he]
    | none =>
      cases hnoted : l.labels[name]? with
      | none => rfl
      | some order =>
        obtain ⟨i, hi, hdef⟩ := h.noted name order hnoted
        obtain ⟨k, hk⟩ := List.getElem?_of_mem (h.entries.symm.subset hi)
        have hmem : { i with position := k + 1 } ∈ d.instructions :=
          List.mem_of_getElem? (by rw [Draft.getElem?_instructions, hk]; rfl)
        have hmissed := List.find?_eq_none.mp hfind _ hmem
        exact absurd (decide_eq_true hdef) hmissed
  exact congrArg LabelTable.mk (Std.ExtTreeMap.ext_getElem? hresolve)

end Ledger

/-- **Numbering after sorting gives the program.** Nodes taken as they are written down, sorted by
the orders that they state, numbered, and with their labels looked up by order, are the program
that they load as; and nodes that do not load are refused with the same error. -/
theorem Program.load_eq_renumbered (nodes : List Node) :
    load nodes = (nodes.foldlM Ledger.add {}).map Ledger.renumber := by
  have hprogram : ∀ {l : Ledger} {d : Draft}, l.Matches d → d.program = l.renumber := by
    intro l d h
    unfold Draft.program Ledger.renumber
    rw [h.sorted_eq, h.resolve_eq]
    rfl
  have hagree := Ledger.matches_empty.foldlM_add nodes
  unfold load
  generalize nodes.foldlM Ledger.add {} = ledger, nodes.foldlM Draft.add {} = draft at hagree
  cases hagree with
  | ok h => exact congrArg Except.ok (hprogram h)
  | error e => rfl

end FrameCode
