import FrameCode.Machine.Run
import Mathlib.Logic.Function.Basic

/-! New names for labels and variables: what becomes of an instruction, a program, a frame
and an error under them. A frame with new names finds under a new name what the other
one finds under the old name. -/

namespace FrameCode

/-- New names, for labels and for the variables of all frames. Names that differ stay
different. -/
structure Renaming where
  label : String → String
  var : String → String
  label_injective : Function.Injective label
  var_injective : Function.Injective var

/-- Every name stays. -/
def Renaming.identity : Renaming := ⟨id, id, Function.injective_id, Function.injective_id⟩

variable (ρ : Renaming)

/-! ## Programs -/

def Variable.rename (v : Variable) : Variable := { v with name := ρ.var v.name }

def Operand.rename : Operand → Operand
  | var v => var (v.rename ρ)
  | const value => const value
  | label name => label (ρ.label name)
  | type tag => type tag

def Instruction.rename (i : Instruction) : Instruction :=
  { i with operands := i.operands.map (Operand.rename ρ) }

def LabelTable.rename (t : LabelTable) : LabelTable where
  positions := .ofList (t.positions.toList.map fun e => (ρ.label e.1, e.2))

def Program.rename (p : Program) : Program where
  instructions := p.instructions.map (Instruction.rename ρ)
  labels := p.labels.rename ρ

theorem Operand.rename_identity (o : Operand) : o.rename .identity = o := by
  cases o <;> rfl

theorem Instruction.rename_identity (i : Instruction) : i.rename .identity = i := by
  have hsame : i.operands.map (Operand.rename .identity) = i.operands :=
    List.map_id'' Operand.rename_identity i.operands
  rw [Instruction.rename, hsame]

theorem LabelTable.resolve?_rename (t : LabelTable) (name : String) :
    (t.rename ρ).resolve? (ρ.label name) = t.resolve? name := by
  have hdistinct : (t.positions.toList.map fun e => (ρ.label e.1, e.2)).Pairwise
      fun a b => ¬compare a.1 b.1 = .eq := by
    refine List.pairwise_map.mpr (Std.ExtTreeMap.distinct_keys_toList.imp fun hab heq => hab ?_)
    exact Std.LawfulEqCmp.compare_eq_iff_eq.mpr
      (ρ.label_injective (Std.LawfulEqCmp.compare_eq_iff_eq.mp heq))
  unfold resolve? rename
  cases h : t.positions[name]? with
  | none =>
    apply Std.ExtTreeMap.getElem?_ofList_of_contains_eq_false
    rw [List.contains_eq_mem, decide_eq_false_iff_not]
    intro hmem
    simp only [List.map_map, List.mem_map, Function.comp_apply] at hmem
    obtain ⟨⟨other, k⟩, hother, heq⟩ := hmem
    obtain rfl : other = name := ρ.label_injective heq
    rw [Std.ExtTreeMap.mem_toList_iff_getElem?_eq_some, h] at hother
    cases hother
  | some k =>
    have hmem := Std.ExtTreeMap.mem_toList_iff_getElem?_eq_some.mpr h
    exact Std.ExtTreeMap.getElem?_ofList_of_mem Std.ReflCmp.compare_self hdistinct
      (List.mem_map_of_mem hmem)

theorem Program.fetch?_rename (p : Program) (k : Nat) :
    (p.rename ρ).fetch? k = (p.fetch? k).map (Instruction.rename ρ) := by
  unfold fetch? rename
  split
  · rfl
  · rw [Array.getElem?_map]

/-! ## Errors -/

def Cause.rename : Cause → Cause
  | undefinedVariable v => undefinedVariable (v.rename ρ)
  | redefinition v => redefinition (v.rename ρ)
  | unsetVariable v => unsetVariable (v.rename ρ)
  | undefinedLabel name => undefinedLabel (ρ.label name)
  | cause => cause

theorem Cause.rename_identity (cause : Cause) : cause.rename .identity = cause := by
  cases cause <;> rfl

theorem Cause.errorClass_rename (cause : Cause) :
    (cause.rename ρ).errorClass = cause.errorClass := by
  cases cause <;> rfl

/-! ## Frames -/

def Cell.rename (cell : Cell) : Cell := { cell with name := ρ.var cell.name }

namespace Frame

/-- The second frame is the first one with new names. -/
structure Renamed (f f' : Frame) : Prop where
  cells : f'.cells = f.cells.map (Cell.rename ρ)
  index : ∀ name, f'.index[ρ.var name]? = f.index[name]?

variable {ρ} {f f' : Frame}

namespace Renamed

theorem empty : Renamed ρ .empty .empty := by
  refine ⟨by simp [Frame.empty], fun name => ?_⟩
  simp [Frame.empty]

theorem size (h : f.Renamed ρ f') : f'.size = f.size := by
  simp [Frame.size, h.cells]

theorem get? (h : f.Renamed ρ f') (name : String) :
    f'.get? (ρ.var name) = (f.get? name).map (Cell.rename ρ) := by
  unfold Frame.get?
  rw [h.index, h.cells]
  cases f.index[name]? with
  | none => rfl
  | some i => simp

theorem set? (h : f.Renamed ρ f') (name : String) (value : Option Value) :
    Option.Rel (Renamed ρ) (f.set? name value) (f'.set? (ρ.var name) value) := by
  unfold Frame.set?
  rw [h.index]
  cases f.index[name]? with
  | none => exact .none
  | some i =>
    simp only [Option.bind_some, h.cells, Array.size_map]
    split
    · refine .some ⟨?_, h.index⟩
      apply Array.ext_getElem?
      intro k
      simp only [Array.getElem?_modify, Array.getElem?_map]
      split
      · simp [Function.comp_def, Cell.rename]
      · rfl
    · exact .none

theorem declare? (h : f.Renamed ρ f') (name : String) :
    Option.Rel (Renamed ρ) (f.declare? name) (f'.declare? (ρ.var name)) := by
  have hcontains : f'.contains (ρ.var name) = f.contains name := by
    simp only [Frame.contains, Std.ExtTreeMap.contains_eq_isSome_getElem?, h.index]
  unfold Frame.declare?
  rw [hcontains]
  split
  · exact .none
  · refine .some ⟨?_, fun other => ?_⟩
    · simp [h.cells, Cell.rename]
    · have hsize : f'.cells.size = f.cells.size := h.size
      simp only [Std.ExtTreeMap.getElem?_insert, hsize, h.index]
      by_cases hn : name = other
      · simp [hn]
      · have hvar : ρ.var name ≠ ρ.var other := fun heq => hn (ρ.var_injective heq)
        simp [hn, hvar]

theorem identity (f : Frame) : f.Renamed .identity f :=
  ⟨(Array.map_id f.cells).symm, fun _ => rfl⟩

/-- With the same names it is the same frame. -/
theorem eq_of_identity (h : f.Renamed .identity f') : f' = f := by
  obtain ⟨cells, index⟩ := f
  obtain ⟨cells', index'⟩ := f'
  obtain rfl : cells' = cells := h.cells.trans (Array.map_id cells)
  obtain rfl : index' = index := Std.ExtTreeMap.ext_getElem? h.index
  rfl

end Renamed

end Frame

end FrameCode
