import FrameCode.Program.Load
import FrameCode.Proofs.Signature
import FrameCode.Proofs.Text.Decimal
import Mathlib.Data.List.NodupEquivFin

/-! What loading gives. Each node is read by itself as an entry: the order that it
states and its instruction. Loading succeeds exactly when every node can be read and
no two entries share an order or define the same label (`Program.load_eq_ok_iff`), and
the program is then the entries in the order of their numbers. -/

namespace FrameCode

/-- An order and the instruction that a node states for it. -/
abbrev Entry : Type := Nat × Instruction

namespace Node

/-- The number that a node states as its order. -/
def statedOrder? (n : Node) : Option Nat :=
  n.order.bind fun text => Text.Decimal.order? text.toList

/-- What a node gives by itself, whatever the other nodes are. -/
def Reads (n : Node) (e : Entry) : Prop :=
  n.statedOrder? = some e.1 ∧ n.decode e.1 = .ok e.2

end Node

/-- The names that instructions define, in order. -/
def definedLabels (is : List Instruction) : List String := is.filterMap Instruction.definedLabel?

theorem definedLabels_cons (i : Instruction) (is : List Instruction) :
    definedLabels (i :: is) = i.definedLabel?.toList ++ definedLabels is := by
  cases h : i.definedLabel? <;> simp [definedLabels, h]

/-! ## One node, then all of them -/

namespace Draft

/-- The draft with one more entry. -/
def enter (d : Draft) (e : Entry) : Draft where
  checked := d.checked.insert e.1 e.2
  labels := match e.2.definedLabel? with
    | some name => d.labels.insert name
    | none => d.labels

/-- The entries can be added one after the other: nothing in them is there twice, and
nothing is in the draft already. -/
structure Admits (d : Draft) (entries : List Entry) : Prop where
  orders : (entries.map Prod.fst).Nodup
  labels : (definedLabels (entries.map Prod.snd)).Nodup
  newOrders : ∀ e ∈ entries, e.1 ∉ d.checked
  newLabels : ∀ name ∈ definedLabels (entries.map Prod.snd), name ∉ d.labels

theorem mem_checked_enter {d : Draft} {e : Entry} {k : Nat} :
    k ∈ (d.enter e).checked ↔ e.1 = k ∨ k ∈ d.checked := by
  simp [enter, Std.ExtTreeMap.mem_insert]

theorem mem_labels_enter {d : Draft} {e : Entry} {name : String} :
    name ∈ (d.enter e).labels ↔ e.2.definedLabel? = some name ∨ name ∈ d.labels := by
  cases h : e.2.definedLabel? <;> simp [enter, h, Std.ExtTreeSet.mem_insert]

theorem admits_cons {d : Draft} {e : Entry} {entries : List Entry} :
    d.Admits (e :: entries) ↔ e.1 ∉ d.checked ∧
      (∀ name, e.2.definedLabel? = some name → name ∉ d.labels) ∧ (d.enter e).Admits entries := by
  have hlabels : definedLabels ((e :: entries).map Prod.snd) =
      e.2.definedLabel?.toList ++ definedLabels (entries.map Prod.snd) := by
    rw [List.map_cons, definedLabels_cons]
  constructor
  · intro hleft
    obtain ⟨ho, hl, hno, hnl⟩ := hleft
    rw [hlabels] at hl hnl
    obtain ⟨hfst, ho⟩ := List.nodup_cons.mp ho
    obtain ⟨-, hl, hdisj⟩ := List.nodup_append.mp hl
    refine ⟨hno e List.mem_cons_self, fun name h => hnl name (by simp [h]), ho, hl, ?_, ?_⟩
    · intro e' he' hmem
      rcases mem_checked_enter.mp hmem with heq | hmem
      · exact hfst (heq ▸ List.mem_map_of_mem he')
      · exact hno e' (List.mem_cons_of_mem e he') hmem
    · intro name hname hmem
      rcases mem_labels_enter.mp hmem with heq | hmem
      · exact hdisj name (by simp [heq]) name hname rfl
      · exact hnl name (List.mem_append_right _ hname) hmem
  · intro hright
    obtain ⟨hnew, hname, ho, hl, hno, hnl⟩ := hright
    have hfst : e.1 ∉ entries.map Prod.fst := by
      intro hmem
      obtain ⟨e', he', heq⟩ := List.mem_map.mp hmem
      exact hno e' he' (mem_checked_enter.mpr (.inl heq.symm))
    refine ⟨List.nodup_cons.mpr ⟨hfst, ho⟩, ?_, ?_, ?_⟩
    · rw [hlabels]
      refine List.nodup_append.mpr ⟨by cases e.2.definedLabel? <;> simp, hl, ?_⟩
      intro a ha b hb heq
      subst heq
      exact hnl a hb (mem_labels_enter.mpr (.inl (by simpa using ha)))
    · intro e' he' hmem
      rcases List.mem_cons.mp he' with rfl | he'
      · exact hnew hmem
      · exact hno e' he' (mem_checked_enter.mpr (.inr hmem))
    · rw [hlabels]
      intro name hmem hin
      rcases List.mem_append.mp hmem with hmem | hmem
      · exact hname name (by simpa using hmem) hin
      · exact hnl name hmem (mem_labels_enter.mpr (.inr hin))

/-- An empty draft admits what has nothing in it twice. -/
theorem empty_admits_iff {entries : List Entry} : ({} : Draft).Admits entries ↔
    (entries.map Prod.fst).Nodup ∧ (definedLabels (entries.map Prod.snd)).Nodup := by
  constructor
  · intro h
    exact ⟨h.orders, h.labels⟩
  · intro ⟨horders, hlabels⟩
    exact ⟨horders, hlabels, fun e _ => by simp, fun name _ => by simp⟩

theorem orderOf_eq_ok_iff {d : Draft} {n : Node} {k : Nat} :
    d.orderOf n = .ok k ↔ n.statedOrder? = some k ∧ k ∉ d.checked := by
  unfold orderOf Node.statedOrder?
  cases n.order with
  | none => simp
  | some text =>
    simp only [Option.bind_some]
    cases Text.Decimal.order? text.toList with
    | none => simp
    | some order =>
      by_cases h : order ∈ d.checked
      · simp only [h, if_true, reduceCtorEq, Option.some.injEq, false_iff, not_and, not_not]
        intro heq
        subst heq
        exact h
      · simp only [h, if_false, Except.ok.injEq, Option.some.injEq]
        constructor
        · intro heq
          subst heq
          exact ⟨rfl, h⟩
        · exact And.left

theorem add_eq_ok_iff {d d' : Draft} {n : Node} :
    d.add n = .ok d' ↔ ∃ e, n.Reads e ∧ e.1 ∉ d.checked ∧
      (∀ name, e.2.definedLabel? = some name → name ∉ d.labels) ∧ d' = d.enter e := by
  simp only [add, bind_eq_ok_iff, mapError_eq_ok_iff, orderOf_eq_ok_iff]
  constructor
  · intro hleft
    obtain ⟨k, ⟨hk, hnew⟩, i, hi, h⟩ := hleft
    refine ⟨(k, i), ⟨hk, hi⟩, hnew, ?_⟩
    cases hl : i.definedLabel? with
    | none =>
      simp only [hl, bind_eq_ok_iff, pure_eq_ok_iff, Except.ok.injEq] at h
      obtain ⟨_, rfl, rfl⟩ := h
      exact ⟨by simp, by simp [enter, hl]⟩
    | some name =>
      simp only [hl, define, bind_eq_ok_iff, mapError_eq_ok_iff, pure_eq_ok_iff] at h
      obtain ⟨d₁, hd₁, rfl⟩ := h
      split at hd₁
      · cases hd₁
      · next hmem =>
        cases hd₁
        exact ⟨by simpa [hl] using hmem, by simp [enter, hl]⟩
  · intro hright
    obtain ⟨⟨k, i⟩, ⟨hk, hi⟩, hnew, hname, rfl⟩ := hright
    refine ⟨k, ⟨hk, hnew⟩, i, hi, ?_⟩
    cases hl : i.definedLabel? with
    | none => simp [enter, hl]
    | some name =>
      simp only [define, hname name hl, if_false, bind_eq_ok_iff, mapError_eq_ok_iff,
        pure_eq_ok_iff, Except.ok.injEq]
      exact ⟨_, rfl, by simp [enter, hl]⟩

/-- Checking nodes one after the other reads each of them by itself, and needs no more
than that the entries can be added. -/
theorem foldlM_add_eq_ok_iff {nodes : List Node} {d d' : Draft} :
    nodes.foldlM add d = .ok d' ↔ ∃ entries, List.Forall₂ Node.Reads nodes entries ∧
      d.Admits entries ∧ d' = entries.foldl enter d := by
  induction nodes generalizing d with
  | nil =>
    simp only [List.foldlM_nil, pure_eq_ok_iff, List.forall₂_nil_left_iff]
    constructor
    · intro heq
      subst heq
      exact ⟨[], rfl, ⟨by simp, by simp [definedLabels], by simp, by simp [definedLabels]⟩, rfl⟩
    · intro hright
      obtain ⟨_, rfl, -, rfl⟩ := hright
      rfl
  | cons n nodes ih =>
    simp only [List.foldlM_cons, bind_eq_ok_iff, add_eq_ok_iff, ih]
    constructor
    · intro hleft
      obtain ⟨_, ⟨e, hread, hnew, hname, rfl⟩, entries, hall, hadm, rfl⟩ := hleft
      exact ⟨e :: entries, .cons hread hall, admits_cons.mpr ⟨hnew, hname, hadm⟩, rfl⟩
    · intro hright
      obtain ⟨_, hall, hadm, rfl⟩ := hright
      cases hall with
      | cons hread hall =>
        obtain ⟨hnew, hname, hadm⟩ := admits_cons.mp hadm
        exact ⟨_, ⟨_, hread, hnew, hname, rfl⟩, _, hall, hadm, rfl⟩

/-! ## The entries of a draft -/

theorem nodup_toList_checked (d : Draft) : d.checked.toList.Nodup :=
  Std.ExtTreeMap.distinct_keys_toList.imp fun hab heq => hab (by simp [heq])

theorem sorted_toList_checked (d : Draft) : d.checked.toList.Pairwise fun a b => a.1 < b.1 :=
  Std.ExtTreeMap.ordered_keys_toList.imp fun hab => Nat.compare_eq_lt.mp hab

theorem toList_checked_enter {d : Draft} {e : Entry} (h : e.1 ∉ d.checked) :
    (d.enter e).checked.toList.Perm (e :: d.checked.toList) := by
  have hnone : d.checked[e.1]? = none := Std.ExtTreeMap.getElem?_eq_none h
  have hmem : e ∉ d.checked.toList := by
    intro hin
    rw [Std.ExtTreeMap.mem_toList_iff_getElem?_eq_some.mp hin] at hnone
    cases hnone
  refine (List.perm_ext_iff_of_nodup (nodup_toList_checked _)
    (List.nodup_cons.mpr ⟨hmem, nodup_toList_checked d⟩)).mpr ?_
  intro entry
  obtain ⟨k, i⟩ := entry
  simp only [enter, List.mem_cons, Std.ExtTreeMap.mem_toList_iff_getElem?_eq_some,
    Std.ExtTreeMap.getElem?_insert, Nat.compare_eq_eq]
  by_cases hk : e.1 = k
  · subst hk
    simp [hnone, Prod.ext_iff, eq_comm]
  · simp [hk, Prod.ext_iff, Ne.symm hk]

theorem toList_checked_foldl {entries : List Entry} {d : Draft} (h : d.Admits entries) :
    (entries.foldl enter d).checked.toList.Perm (entries ++ d.checked.toList) := by
  induction entries generalizing d with
  | nil => exact .refl _
  | cons e entries ih =>
    obtain ⟨hnew, -, hadm⟩ := admits_cons.mp h
    refine (ih hadm).trans ?_
    exact ((toList_checked_enter hnew).append_left entries).trans List.perm_middle

/-- From nothing, a draft holds just the entries, in ascending order. -/
theorem toList_checked_perm {entries : List Entry} (h : ({} : Draft).Admits entries) :
    (entries.foldl enter {}).checked.toList.Perm entries := by
  have hnil : ({} : Draft).checked.toList = [] := Std.ExtTreeMap.toList_eq_nil_iff.mpr rfl
  simpa [hnil] using toList_checked_foldl h

/-! ## Numbering -/

theorem getElem?_instructions (d : Draft) (k : Nat) :
    d.instructions[k]? = d.checked.toList[k]?.map fun e => { e.2 with position := k + 1 } := by
  simp [instructions, List.getElem?_zipIdx, Function.comp_def]

theorem length_instructions (d : Draft) : d.instructions.length = d.checked.toList.length := by
  simp [instructions]

theorem definedLabels_instructions (d : Draft) :
    definedLabels d.instructions = definedLabels (d.checked.toList.map Prod.snd) := by
  have hrenumber : ∀ (entries : List Entry) (start : Nat),
      definedLabels ((entries.zipIdx start).map fun x => { x.1.2 with position := x.2 + 1 }) =
        definedLabels (entries.map Prod.snd) := by
    intro entries
    induction entries with
    | nil => intro start; rfl
    | cons e entries ih =>
      intro start
      simp only [List.zipIdx_cons, List.map_cons, definedLabels_cons, ih]
      rfl
  exact hrenumber d.checked.toList 0

end Draft

/-! ## Labels of a list of instructions -/

namespace LabelTable

/-- Enters the label that an instruction defines, if it defines one. -/
def enter (t : LabelTable) (i : Instruction) : LabelTable :=
  match i.definedLabel? with
  | some name => t.insertNew name i.position
  | none => t

/-- The labels that instructions define. Of two with one name the first counts. -/
def ofInstructions (is : List Instruction) : LabelTable := is.foldl enter .empty

theorem resolve?_insertNew (t : LabelTable) (name other : String) (k : Nat) :
    (t.insertNew name k).resolve? other =
      (t.resolve? other).or (if name = other then some k else none) := by
  unfold insertNew insert
  cases h : t.resolve? name with
  | some existing =>
    by_cases hn : name = other
    · subst hn
      simp [h]
    · simp [hn]
  | none =>
    simp only [resolve?] at h ⊢
    by_cases hn : name = other
    · subst hn
      simp [h]
    · simp [Std.ExtTreeMap.getElem?_insert, hn]

theorem resolve?_foldl_enter (is : List Instruction) (t : LabelTable) (name : String) :
    (is.foldl enter t).resolve? name = (t.resolve? name).or
      ((is.find? fun i => i.definedLabel? = some name).map Instruction.position) := by
  induction is generalizing t with
  | nil => simp
  | cons i is ih =>
    rw [List.foldl_cons, ih]
    cases h : i.definedLabel? with
    | none => simp [enter, h]
    | some other =>
      by_cases hn : other = name
      · subst hn
        simp [enter, h, resolve?_insertNew]
      · simp [enter, h, resolve?_insertNew, hn]

theorem find?_definedLabel? {is : List Instruction} (h : (definedLabels is).Nodup)
    {i : Instruction} (hi : i ∈ is) {name : String} (hname : i.definedLabel? = some name) :
    (is.find? fun i => i.definedLabel? = some name) = some i := by
  induction is with
  | nil => cases hi
  | cons j is ih =>
    rw [definedLabels_cons] at h
    obtain ⟨-, hrest, hdisj⟩ := List.nodup_append.mp h
    rcases List.mem_cons.mp hi with rfl | hi
    · simp [hname]
    · have hj : ¬j.definedLabel? = some name := by
        intro hj
        exact hdisj name (by simp [hj]) name (List.mem_filterMap.mpr ⟨i, hi, hname⟩) rfl
      simpa [hj] using ih hrest hi

/-- Where no name is defined twice, a name stands for the instruction that defines it. -/
theorem resolve?_ofInstructions_iff {is : List Instruction} (h : (definedLabels is).Nodup)
    {name : String} {k : Nat} : (ofInstructions is).resolve? name = some k ↔
      ∃ i ∈ is, i.definedLabel? = some name ∧ i.position = k := by
  have hempty : LabelTable.empty.resolve? name = none := by simp [empty, resolve?]
  rw [ofInstructions, resolve?_foldl_enter, hempty, Option.none_or, Option.map_eq_some_iff]
  constructor
  · intro hleft
    obtain ⟨i, hfind, rfl⟩ := hleft
    exact ⟨i, List.mem_of_find?_eq_some hfind, by simpa using List.find?_some hfind, rfl⟩
  · intro hright
    obtain ⟨i, hmem, hname, rfl⟩ := hright
    exact ⟨i, find?_definedLabel? h hmem hname, rfl⟩

end LabelTable

/-! ## Loaded programs -/

namespace Program

/-- What running a program relies on: each instruction states its own position and has
the operands that its opcode asks for, and the labels are those that are defined. -/
structure WellFormed (p : Program) : Prop where
  position : ∀ k i, p.instructions[k]? = some i → i.position = k + 1
  conforms : ∀ i ∈ p.instructions, i.Conforms
  distinct : (definedLabels p.instructions.toList).Nodup
  labels : p.labels = .ofInstructions p.instructions.toList

theorem load_eq_ok_iff {nodes : List Node} {p : Program} :
    load nodes = .ok p ↔ ∃ entries, List.Forall₂ Node.Reads nodes entries ∧
      ({} : Draft).Admits entries ∧ p = (entries.foldl Draft.enter {}).program := by
  simp only [load, bind_eq_ok_iff, pure_eq_ok_iff, Draft.foldlM_add_eq_ok_iff]
  constructor
  · intro hleft
    obtain ⟨_, ⟨entries, hall, hadm, rfl⟩, rfl⟩ := hleft
    exact ⟨entries, hall, hadm, rfl⟩
  · intro hright
    obtain ⟨entries, hall, hadm, rfl⟩ := hright
    exact ⟨_, ⟨entries, hall, hadm, rfl⟩, rfl⟩

theorem fetch?_succ (p : Program) (k : Nat) : p.fetch? (k + 1) = p.instructions[k]? := by
  simp [fetch?]

theorem fetch?_eq_none_iff {p : Program} {k : Nat} : p.fetch? k = none ↔ k = 0 ∨ p.size < k := by
  cases k with
  | zero => simp [fetch?]
  | succ k =>
    rw [fetch?_succ, Array.getElem?_eq_none_iff, size]
    omega

theorem fetch?_eq_some_iff {p : Program} {k : Nat} {i : Instruction} :
    p.fetch? k = some i ↔ ∃ index, p.instructions[index]? = some i ∧ k = index + 1 := by
  cases k with
  | zero => simp [fetch?]
  | succ k => simp [fetch?_succ]

theorem bounds_of_fetch? {p : Program} {k : Nat} {i : Instruction} (h : p.fetch? k = some i) :
    1 ≤ k ∧ k ≤ p.size := by
  have hnone : ¬(k = 0 ∨ p.size < k) := by
    rw [← fetch?_eq_none_iff, h]
    simp
  omega

/-- The draft of admitted entries, written out in ascending order, is a program that
can be run. -/
theorem wellFormed_program {entries : List Entry} (hadm : ({} : Draft).Admits entries)
    (hconf : ∀ e ∈ entries, e.2.Conforms) : (entries.foldl Draft.enter {}).program.WellFormed := by
  have hperm := Draft.toList_checked_perm hadm
  generalize entries.foldl Draft.enter {} = d at hperm ⊢
  refine ⟨?_, ?_, ?_, rfl⟩
  · intro k i hi
    simp only [Draft.program, List.getElem?_toArray, Draft.getElem?_instructions,
      Option.map_eq_some_iff] at hi
    obtain ⟨e, -, rfl⟩ := hi
    rfl
  · intro i hi
    obtain ⟨k, hk⟩ := List.getElem?_of_mem (List.mem_toArray.mp hi)
    rw [Draft.getElem?_instructions, Option.map_eq_some_iff] at hk
    obtain ⟨e, he, rfl⟩ := hk
    exact hconf e (hperm.subset (List.mem_of_getElem? he))
  · have hlabels := (hperm.map Prod.snd).filterMap Instruction.definedLabel?
    simp only [Draft.program, List.toList_toArray, Draft.definedLabels_instructions]
    exact hlabels.nodup_iff.mpr hadm.labels

/-- Entries and the same entries in ascending order, matched up one by one. -/
theorem exists_ranking {entries sorted : List Entry} (hperm : sorted.Perm entries)
    (hsorted : sorted.Pairwise fun a b => a.1 < b.1) :
    ∃ place : Fin entries.length ≃ Fin sorted.length,
      (∀ a, sorted.get (place a) = entries.get a) ∧
      ∀ a b, place a < place b ↔ (entries.get a).1 < (entries.get b).1 := by
  have hnodup : sorted.Nodup := hsorted.imp fun {a b} hab heq => by
    subst heq
    exact Nat.lt_irrefl _ hab
  let place := ((hperm.nodup_iff.mp hnodup).getEquiv entries).trans
    ((Equiv.subtypeEquivRight fun e => hperm.symm.mem_iff).trans (hnodup.getEquiv sorted).symm)
  have hget : ∀ a, sorted.get (place a) = entries.get a := by
    intro a
    exact congrArg Subtype.val ((hnodup.getEquiv sorted).apply_symm_apply _)
  have hlt : ∀ {a b}, place a < place b → (entries.get a).1 < (entries.get b).1 := by
    intro a b hab
    rw [← hget a, ← hget b]
    exact List.pairwise_iff_get.mp hsorted _ _ hab
  refine ⟨place, hget, fun a b => ⟨hlt, fun hab => ?_⟩⟩
  rcases lt_trichotomy (place a) (place b) with h | h | h
  · exact h
  · rw [place.injective h] at hab
    exact absurd hab (Nat.lt_irrefl _)
  · exact absurd (hlt h) (Nat.lt_asymm hab)

/-- What holds of whatever one of the nodes can give holds of all entries that they give. -/
theorem forall_of_reads {P : Entry → Prop} {nodes : List Node}
    (hP : ∀ n ∈ nodes, ∀ e, Node.Reads n e → P e) {entries : List Entry}
    (h : List.Forall₂ Node.Reads nodes entries) : ∀ e ∈ entries, P e := by
  induction h with
  | nil => intro e he; cases he
  | cons hread _ ih =>
    intro e he
    rcases List.mem_cons.mp he with rfl | he
    · exact hP _ List.mem_cons_self _ hread
    · exact ih (fun n hn => hP n (List.mem_cons_of_mem _ hn)) e he

theorem wellFormed_of_load {nodes : List Node} {p : Program} (h : load nodes = .ok p) :
    p.WellFormed := by
  obtain ⟨entries, hall, hadm, rfl⟩ := load_eq_ok_iff.mp h
  refine wellFormed_program hadm (forall_of_reads (fun _ _ _ hread => ?_) hall)
  exact Node.conforms_of_decode hread.2

namespace WellFormed

variable {p : Program} (hp : p.WellFormed)
include hp

theorem position_of_fetch? {k : Nat} {i : Instruction} (h : p.fetch? k = some i) :
    i.position = k := by
  obtain ⟨index, hi, rfl⟩ := fetch?_eq_some_iff.mp h
  exact hp.position index i hi

theorem conforms_of_fetch? {k : Nat} {i : Instruction} (h : p.fetch? k = some i) :
    i.Conforms := by
  obtain ⟨index, hi, rfl⟩ := fetch?_eq_some_iff.mp h
  exact hp.conforms i (Array.mem_of_getElem? hi)

/-- A label stands for the one instruction that defines it. -/
theorem resolve?_eq_some_iff {name : String} {k : Nat} :
    p.labels.resolve? name = some k ↔
      ∃ i, p.fetch? k = some i ∧ i.opcode = .label ∧ i.operands = [.label name] := by
  rw [hp.labels, LabelTable.resolve?_ofInstructions_iff hp.distinct]
  constructor
  · intro hleft
    obtain ⟨i, hi, hname, rfl⟩ := hleft
    obtain ⟨index, hindex⟩ := List.getElem?_of_mem hi
    rw [Array.getElem?_toList] at hindex
    refine ⟨i, fetch?_eq_some_iff.mpr ⟨index, hindex, hp.position index i hindex⟩, ?_⟩
    exact (hp.conforms i (by simpa using hi)).definedLabel?_eq_some_iff.mp hname
  · intro hright
    obtain ⟨i, hi, hop⟩ := hright
    obtain ⟨index, hindex, rfl⟩ := fetch?_eq_some_iff.mp hi
    have hmem := Array.mem_of_getElem? hindex
    exact ⟨i, by simpa using hmem, (hp.conforms i hmem).definedLabel?_eq_some_iff.mpr hop,
      hp.position index i hindex⟩

/-- A label is mentioned at least by the instruction that defines it. -/
theorem mentionedLabels_eq : p.mentionedLabels = p.labels.positions.toList := by
  refine List.filter_eq_self.mpr fun entry hentry => ?_
  have hresolve : p.labels.resolve? entry.1 = some entry.2 :=
    Std.ExtTreeMap.mem_toList_iff_getElem?_eq_some.mp hentry
  obtain ⟨i, hi, -, hops⟩ := hp.resolve?_eq_some_iff.mp hresolve
  obtain ⟨index, hindex, -⟩ := fetch?_eq_some_iff.mp hi
  have hmention : entry.1 ∈ i.operands.filterMap Operand.label? := by simp [hops, Operand.label?]
  rw [decide_eq_true_eq, Std.ExtTreeSet.mem_ofList, List.contains_iff_mem, List.mem_flatMap]
  exact ⟨i, Array.mem_toList_iff.mpr (Array.mem_of_getElem? hindex), hmention⟩

end WellFormed

theorem size_program {entries : List Entry} (hadm : ({} : Draft).Admits entries) :
    (entries.foldl Draft.enter {}).program.size = entries.length := by
  rw [← (Draft.toList_checked_perm hadm).length_eq]
  simp [size, Draft.program, Draft.length_instructions]

theorem size_of_load {nodes : List Node} {p : Program} (h : load nodes = .ok p) :
    p.size = nodes.length := by
  obtain ⟨entries, hall, hadm, rfl⟩ := load_eq_ok_iff.mp h
  rw [size_program hadm, hall.length_eq]

/-- Loaded nodes are the instructions of the program, each node at the place that its
order has among all orders. -/
theorem exists_place_of_load {nodes : List Node} {p : Program} (h : load nodes = .ok p) :
    ∃ (order : Fin nodes.length → Nat) (place : Fin nodes.length ≃ Fin p.size),
      (∀ a, (nodes.get a).statedOrder? = some (order a)) ∧
      (∀ a b, place a < place b ↔ order a < order b) ∧
      ∀ a, ∃ i, p.fetch? (place a + 1) = some i ∧ (nodes.get a).decode (place a + 1) = .ok i := by
  obtain ⟨entries, hall, hadm, rfl⟩ := load_eq_ok_iff.mp h
  have hperm := Draft.toList_checked_perm hadm
  have hsorted := Draft.sorted_toList_checked (entries.foldl Draft.enter {})
  generalize entries.foldl Draft.enter {} = d at hperm hsorted
  obtain ⟨place, hget, hlt⟩ := exists_ranking hperm hsorted
  obtain ⟨hlen, hreads⟩ := List.forall₂_iff_get.mp hall
  have hsize : d.checked.toList.length = d.program.size := by
    simp [size, Draft.program, Draft.length_instructions]
  let index : Fin nodes.length → Fin entries.length := Fin.cast hlen
  have hread : ∀ a, (nodes.get a).Reads (entries.get (index a)) :=
    fun a => hreads a a.isLt (index a).isLt
  refine ⟨fun a => (entries.get (index a)).1, ((finCongr hlen).trans place).trans (finCongr hsize),
    fun a => (hread a).1, fun a b => hlt (index a) (index b), fun a => ?_⟩
  refine ⟨{ (entries.get (index a)).2 with position := place (index a) + 1 }, ?_,
    Node.decode_place (hread a).2 _⟩
  have hk : d.checked.toList[(place (index a)).val]? = some (entries.get (index a)) := by
    rw [← hget (index a)]
    exact List.getElem?_eq_getElem _
  rw [fetch?_succ]
  simp only [Draft.program, List.getElem?_toArray, Draft.getElem?_instructions]
  show d.checked.toList[(place (index a)).val]?.map _ = _
  rw [hk]
  rfl

theorem exists_node_of_load {nodes : List Node} {p : Program} (h : load nodes = .ok p)
    {i : Instruction} (hi : i ∈ p.instructions) : ∃ n ∈ nodes, n.decode i.position = .ok i := by
  obtain ⟨order, place, -, -, hplace⟩ := exists_place_of_load h
  obtain ⟨k, hk, hget⟩ := Array.mem_iff_getElem.mp hi
  have hfetch : p.fetch? (k + 1) = some i := by
    rw [fetch?_succ, ← hget]
    exact Array.getElem?_eq_getElem hk
  obtain ⟨i', hi', hdecode⟩ := hplace (place.symm ⟨k, hk⟩)
  rw [Equiv.apply_symm_apply] at hi' hdecode
  cases Option.some.inj (hfetch.symm.trans hi')
  have hposition : i.position = k + 1 := (wellFormed_of_load h).position_of_fetch? hfetch
  exact ⟨_, List.get_mem nodes _, hposition ▸ hdecode⟩

/-- There are no more instructions than orders that a node can state. -/
theorem size_lt_of_load {nodes : List Node} {p : Program} (h : load nodes = .ok p) :
    p.size < UInt64.size := by
  obtain ⟨entries, hall, hadm, rfl⟩ := load_eq_ok_iff.mp h
  have hbounds : ∀ e ∈ entries, 1 ≤ e.1 ∧ e.1 < UInt64.size := by
    refine forall_of_reads (fun n _ e hread => ?_) hall
    obtain ⟨text, -, htext⟩ := Option.bind_eq_some_iff.mp hread.1
    exact Text.Decimal.bounds_of_order? htext
  have hrange : entries.map Prod.fst ⊆ List.range' 1 (UInt64.size - 1) := by
    intro k hk
    obtain ⟨e, he, rfl⟩ := List.mem_map.mp hk
    obtain ⟨hpos, hlt⟩ := hbounds e he
    rw [List.mem_range'_1]
    omega
  have hlen := (List.subperm_of_subset hadm.orders hrange).length_le
  rw [List.length_map, List.length_range'] at hlen
  rw [size_program hadm]
  exact Nat.lt_of_le_pred (by decide) hlen

/-- A program that can be run is loaded from any nodes that state its instructions, each
at its own position. -/
theorem WellFormed.load_eq_ok {p : Program} (hp : p.WellFormed) {nodes : List Node}
    (h : List.Forall₂ Node.Reads nodes (p.instructions.toList.map fun i => (i.position, i))) :
    load nodes = .ok p := by
  have hget : ∀ k : Nat, (p.instructions.toList.map fun i => (i.position, i))[k]? =
      p.instructions[k]?.map fun i => (k + 1, i) := by
    intro k
    rw [List.getElem?_map, Array.getElem?_toList]
    cases hk : p.instructions[k]? with
    | none => rfl
    | some i => simp [hp.position k i hk]
  have hsnd : (p.instructions.toList.map fun i => (i.position, i)).map Prod.snd =
      p.instructions.toList := by
    simp [Function.comp_def]
  generalize p.instructions.toList.map (fun i => (i.position, i)) = entries at h hget hsnd
  have hsorted : entries.Pairwise fun a b => a.1 < b.1 := by
    have hfst : ∀ k (hk : k < entries.length), (entries.get ⟨k, hk⟩).1 = k + 1 := by
      intro k hk
      have hentry := (List.getElem?_eq_getElem hk).symm.trans (hget k)
      obtain ⟨i, -, hi⟩ := Option.map_eq_some_iff.mp hentry.symm
      exact (congrArg Prod.fst hi).symm
    rw [List.pairwise_iff_get]
    intro a b hab
    rw [hfst, hfst]
    omega
  have hadm : ({} : Draft).Admits entries := by
    refine Draft.empty_admits_iff.mpr ⟨?_, hsnd ▸ hp.distinct⟩
    exact List.pairwise_map.mpr (hsorted.imp fun hab => Nat.ne_of_lt hab)
  refine load_eq_ok_iff.mpr ⟨entries, h, hadm, ?_⟩
  have hperm := Draft.toList_checked_perm hadm
  have hasc := Draft.sorted_toList_checked (entries.foldl Draft.enter {})
  generalize entries.foldl Draft.enter {} = d at hperm hasc
  have hsame : d.checked.toList = entries :=
    hperm.eq_of_pairwise (fun a b _ _ hab hba => absurd hab (Nat.lt_asymm hba)) hasc hsorted
  have hinstr : d.instructions = p.instructions.toList := by
    apply List.ext_getElem?
    intro k
    rw [Draft.getElem?_instructions, hsame, hget, Array.getElem?_toList]
    cases hk : p.instructions[k]? with
    | none => rfl
    | some i =>
      have hposition := hp.position k i hk
      simp [← hposition]
  cases p with
  | mk instructions labels =>
    have hlabels := hp.labels
    simp only at hinstr hlabels
    simp only [Draft.program, hinstr, Array.toArray_toList, hlabels]
    rfl

/-- **Loading arranges the nodes.** There is one instruction for each node, in the
order that the nodes state and numbered from one; operands fit their signatures; and a
label stands for the instruction that defines it, wherever its node was written. -/
theorem load_arranges_nodes {nodes : List Node} {p : Program} (h : load nodes = .ok p) :
    p.size = nodes.length ∧
    (∀ k i, p.instructions[k]? = some i → i.position = k + 1) ∧
    (∃ (order : Fin nodes.length → Nat) (place : Fin nodes.length ≃ Fin p.size),
      (∀ a, (nodes.get a).statedOrder? = some (order a)) ∧
      (∀ a b, place a < place b ↔ order a < order b) ∧
      ∀ a, ∃ i, p.fetch? (place a + 1) = some i ∧ (nodes.get a).decode (place a + 1) = .ok i) ∧
    (∀ i ∈ p.instructions, i.Conforms) ∧
    ∀ name k, p.labels.resolve? name = some k ↔ 1 ≤ k ∧ k ≤ p.size ∧
      ∃ i, p.fetch? k = some i ∧ i.opcode = .label ∧ i.operands = [.label name] := by
  have hp := wellFormed_of_load h
  obtain ⟨order, place, hplace⟩ := exists_place_of_load h
  refine ⟨size_of_load h, hp.position, ⟨order, place, hplace⟩, hp.conforms, fun name k => ?_⟩
  rw [hp.resolve?_eq_some_iff]
  constructor
  · intro ⟨i, hi, hlabel⟩
    exact ⟨(bounds_of_fetch? hi).1, (bounds_of_fetch? hi).2, i, hi, hlabel⟩
  · intro ⟨_, _, hi⟩
    exact hi

/-- Two nodes in descending order, the label written first. -/
theorem load_arranges_two_nodes :
    let nodes : List Node := [
      { order := some "30", opcode := some " label", children := [⟨"arg1", some "label", "end\n"⟩] },
      { order := some "007", opcode := some "JUMP", children := [⟨"arg1", some "label", "end"⟩] }]
    ∃ p, load nodes = .ok p ∧ p.size = 2 ∧ p.labels.resolve? "end" = some 2 ∧
      (∃ i, p.fetch? 2 = some i ∧ i.opcode = .label ∧ i.operands = [.label "end"]) ∧
      ∀ i ∈ p.instructions, i.Conforms := by
  intro nodes
  have hload : ∃ p, load nodes = .ok p ∧ p.labels.resolve? "end" = some 2 := ⟨_, rfl, rfl⟩
  obtain ⟨p, hp, hend⟩ := hload
  obtain ⟨hsize, -, -, hconf, hlabels⟩ := load_arranges_nodes hp
  exact ⟨p, hp, hsize, hend, ((hlabels "end" 2).mp hend).2.2, hconf⟩

end Program

end FrameCode
