import FrameCode.Proofs.Reachable

/-! Which error wins where an instruction with symbols could fail in several ways. Its checks are
written down in order: what the signature asks of each operand, from left to right, then what the
operation asks of the values. Each function that `step` is made of is decided by its own checks
(`DecidedBy`), and computations one after the other by all of their checks. -/

namespace FrameCode

/-- A condition, with the code of the error where it does not hold. -/
structure Check where
  holds : Bool
  code : Nat

/-- The code of the first check that does not hold. -/
def Check.firstFailing (checks : List Check) : Option Nat :=
  (checks.find? fun check => !check.holds).map Check.code

/-! ## What an instruction checks -/

namespace Machine

def cell? (m : Machine) (v : Variable) : Option Cell :=
  (m.frame? v.frame).bind fun f => f.get? v.name

def value? (m : Machine) (v : Variable) : Option Value := (m.cell? v).bind Cell.value

/-- The frame of the variable exists, and the variable has been declared in it. -/
def locating (m : Machine) (v : Variable) : List Check :=
  [⟨(m.frame? v.frame).isSome, 55⟩, ⟨(m.cell? v).isSome, 54⟩]

/-- The variable has a value besides. -/
def reading (m : Machine) (v : Variable) : List Check :=
  m.locating v ++ [⟨(m.value? v).isSome, 56⟩]

end Machine

namespace Operand

/-- A label is defined, a destination is declared and a symbol has a value. The destination of
SETCHAR needs a value too, and the symbol of TYPE needs none. -/
def checks (labels : LabelTable) (m : Machine) (op : Opcode) : Slot → Operand → List Check
  | .label, label name => [⟨(labels.resolve? name).isSome, 52⟩]
  | .var, var v => if op = .setChar then m.reading v else m.locating v
  | .symb, var v => if op = .type then m.locating v else m.reading v
  | _, _ => []

/-- The value that the operation gets from an operand. -/
def value? (m : Machine) (op : Opcode) : Slot → Operand → Option Value
  | .var, var v => if op = .setChar then m.value? v else none
  | .symb, var v => m.value? v
  | .symb, const x => some x
  | _, _ => none

end Operand

namespace Value

def typed (v : Value) (tag : TypeTag) : Check := ⟨v.type == tag, 53⟩

/-- The second value is an index of a character of the first one. -/
def covers : Value → Value → Check
  | str s, int n => ⟨0 ≤ n.toInt && n.toInt < s.length, 58⟩
  | _, _ => ⟨false, 58⟩

def within (lo hi : Int64) (code : Nat) : Value → Check
  | int n => ⟨lo ≤ n && n ≤ hi, code⟩
  | _ => ⟨false, code⟩

/-- The values can be ordered. -/
def ordered (left right : Value) : Check := ⟨left.type == right.type && left.type != .nil, 53⟩

/-- The values can be told apart. -/
def comparable (left right : Value) : Check :=
  ⟨left.type == right.type || left.type == .nil || right.type == .nil, 53⟩

end Value

def Unary.checks : Unary → Value → List Check
  | not, x => [x.typed .bool]
  | int2Char, x => [x.typed .int, x.within 0 255 58]

def Binary.checks : Binary → Value → Value → List Check
  | add, x, y | sub, x, y | mul, x, y => [x.typed .int, y.typed .int]
  | idiv, x, y => [x.typed .int, y.typed .int, ⟨y != .int 0, 57⟩]
  | lt, x, y | gt, x, y => [x.ordered y]
  | eq, x, y => [x.comparable y]
  | and, x, y | or, x, y => [x.typed .bool, y.typed .bool]
  | stri2Int, x, y => [x.typed .string, y.typed .int, x.covers y]

/-- What the operation asks of its values. SETCHAR looks at the replacement last, so that an index
out of range goes before a replacement of another type. -/
def Opcode.valueChecks : Opcode → List Value → List Check
  | unary op, [x] => op.checks x
  | binary op, [x, y] => op.checks x y
  | concat, [x, y] => [x.typed .string, y.typed .string]
  | strlen, [x] => [x.typed .string]
  | getChar, [x, y] => [x.typed .string, y.typed .int, x.covers y]
  | setChar, [x, y, z] =>
    [x.typed .string, y.typed .int, x.covers y, z.typed .string, ⟨z != .str "", 53⟩]
  | jumpIf _, [x, y] => [x.comparable y]
  | exit, [x] => [x.typed .int, x.within 0 9 57]
  | _, _ => []

/-- The operand is of a kind that the slot takes, whatever names it holds. -/
def Slot.takes : Slot → Operand → Bool
  | .var, .var _ | .symb, .var _ | .symb, .const _ | .label, .label _ | .type, .type _ => true
  | _, _ => false

/-- A slot that accepts an operand takes it; it asks for names besides. -/
theorem Slot.takes_of_accepts {slot : Slot} {o : Operand} (h : slot.accepts o = true) :
    slot.takes o = true := by
  cases o with
  | var v => obtain ⟨rfl | rfl, -⟩ := accepts_var_iff.mp h <;> rfl
  | const value =>
    obtain rfl := accepts_const_iff.mp h
    rfl
  | label name =>
    obtain ⟨rfl, -⟩ := accepts_label_iff.mp h
    rfl
  | type tag =>
    obtain ⟨rfl, -⟩ := accepts_type_iff.mp h
    rfl

namespace Instruction

/-- The operands match the signature in number and kind. -/
def FitsSignature (i : Instruction) : Prop :=
  List.Forall₂ (fun slot o => slot.takes o = true) i.opcode.signature i.operands

theorem Conforms.fitsSignature {i : Instruction} (h : i.Conforms) : i.FitsSignature :=
  h.imp fun _ _ => Slot.takes_of_accepts

def operandChecks (labels : LabelTable) (m : Machine) (i : Instruction) : List Check :=
  (i.opcode.signature.zipWith (Operand.checks labels m i.opcode) i.operands).flatten

/-- The values that the operation gets, as far as there are any. -/
def values (m : Machine) (i : Instruction) : List Value :=
  (i.opcode.signature.zipWith (Operand.value? m i.opcode) i.operands).filterMap id

/-- All checks of an instruction with symbols, in order. -/
def checks (labels : LabelTable) (m : Machine) (i : Instruction) : List Check :=
  i.operandChecks labels m ++ i.opcode.valueChecks (i.values m)

end Instruction

/-! ## Computations and the checks that decide them -/

/-- The code of the error that a computation ends in. -/
def errorCode? {ε α : Type} (errorClass : ε → ErrorClass) : Except ε α → Option Nat
  | .ok _ => none
  | .error e => some (errorClass e).code

/-- The computation succeeds if all checks hold, and otherwise fails with the code of the first that
does not. -/
def DecidedBy {ε α : Type} (errorClass : ε → ErrorClass) (checks : List Check) (r : Except ε α) :
    Prop :=
  errorCode? errorClass r = Check.firstFailing checks

theorem Check.firstFailing_append (checks checks' : List Check) :
    firstFailing (checks ++ checks') = (firstFailing checks).or (firstFailing checks') := by
  simp only [firstFailing, List.find?_append]
  cases checks.find? fun check => !check.holds <;> rfl

theorem Check.firstFailing_eq_none_iff {checks : List Check} :
    firstFailing checks = none ↔ ∀ check ∈ checks, check.holds = true := by
  simp [firstFailing]

namespace DecidedBy

variable {ε ε' α β : Type} {errorClass : ε → ErrorClass} {errorClass' : ε' → ErrorClass}
  {checks checks' : List Check}

theorem ok (a : α) : DecidedBy errorClass [] (.ok a) := rfl

theorem bind {x : Except ε α} {f : α → Except ε β} (hx : DecidedBy errorClass checks x)
    (hf : ∀ a, x = .ok a → DecidedBy errorClass checks' (f a)) :
    DecidedBy errorClass (checks ++ checks') (x >>= f) := by
  unfold DecidedBy at hx ⊢
  rw [Check.firstFailing_append, ← hx]
  cases x with
  | error e => rfl
  | ok a => exact hf a rfl

theorem passed {check : Check} (h : check.holds = true) (a : α) :
    DecidedBy errorClass [check] (.ok a) := by
  simp [DecidedBy, errorCode?, Check.firstFailing, h]

theorem refused {check : Check} (h : check.holds = false) {e : ε}
    (hcode : (errorClass e).code = check.code) :
    DecidedBy errorClass [check] (.error e : Except ε α) := by
  simp [DecidedBy, errorCode?, Check.firstFailing, h, hcode]

/-- What follows the last check cannot fail. -/
theorem last {x : Except ε α} {f : α → Except ε β} (hx : DecidedBy errorClass checks x)
    (hf : ∀ a, x = .ok a → ∃ b, f a = .ok b) : DecidedBy errorClass checks (x >>= f) := by
  rw [← List.append_nil checks]
  refine hx.bind fun a ha => ?_
  obtain ⟨b, hb⟩ := hf a ha
  rw [hb]
  exact .ok b

theorem mapError {x : Except ε α} (hx : DecidedBy errorClass checks x) {g : ε → ε'}
    (hg : ∀ e, errorClass' (g e) = errorClass e) : DecidedBy errorClass' checks (x.mapError g) := by
  cases x with
  | ok a => exact hx
  | error e =>
    show some (errorClass' (g e)).code = _
    rw [hg]
    exact hx

theorem error_iff {x : Except ε α} (hx : DecidedBy errorClass checks x) (code : Nat) :
    (∃ e, x = .error e ∧ (errorClass e).code = code) ↔ Check.firstFailing checks = some code := by
  rw [← hx]
  cases x <;> simp [errorCode?]

theorem ok_iff {x : Except ε α} (hx : DecidedBy errorClass checks x) :
    (∃ a, x = .ok a) ↔ ∀ check ∈ checks, check.holds = true := by
  rw [← Check.firstFailing_eq_none_iff, ← hx]
  cases x <;> simp [errorCode?]

end DecidedBy

/-! ## Operations on values -/

namespace Value

theorem expectInt_decided (x : Value) : DecidedBy Fault.errorClass [x.typed .int] x.expectInt := by
  cases x <;> rfl

theorem expectBool_decided (x : Value) :
    DecidedBy Fault.errorClass [x.typed .bool] x.expectBool := by
  cases x <;> rfl

theorem expectStr_decided (x : Value) :
    DecidedBy Fault.errorClass [x.typed .string] x.expectStr := by
  cases x <;> rfl

theorem eq_int_of_expectInt {x : Value} {n : Int64} (h : x.expectInt = .ok n) : x = .int n := by
  cases x <;> cases h
  rfl

theorem eq_str_of_expectStr {x : Value} {s : String} (h : x.expectStr = .ok s) : x = .str s := by
  cases x <;> cases h
  rfl

theorem charAt_decided (s : String) (n : Int64) :
    DecidedBy Fault.errorClass [(str s).covers (int n)] (charAt s n) := by
  have hneg : n < 0 ↔ n.toInt < 0 := by rw [Int64.lt_iff_toInt_lt, Int64.toInt_zero]
  have hlength : s.toList.length = s.length := String.length_toList
  unfold charAt
  split
  · next c hc =>
    split at hc
    · cases hc
    · next hpos =>
      have hlt := (List.getElem?_eq_some_iff.mp hc).1
      rw [Int64.toNatClampNeg] at hlt
      rw [hneg] at hpos
      refine .passed ?_ c
      simp only [covers, Bool.and_eq_true, decide_eq_true_eq]
      omega
  · next hc =>
    refine .refused ?_ rfl
    simp only [covers, Bool.and_eq_false_iff, decide_eq_false_iff_not]
    split at hc
    · next hlt =>
      rw [hneg] at hlt
      omega
    · next hpos =>
      have hle := List.getElem?_eq_none_iff.mp hc
      rw [Int64.toNatClampNeg] at hle
      rw [hneg] at hpos
      omega

theorem concat_decided (x y : Value) : DecidedBy Fault.errorClass
    [x.typed .string, y.typed .string] (x.concat y) :=
  (expectStr_decided x).bind fun _ _ => (expectStr_decided y).last fun _ _ => ⟨_, rfl⟩

theorem strlen_decided (x : Value) : DecidedBy Fault.errorClass [x.typed .string] x.strlen :=
  (expectStr_decided x).last fun _ _ => ⟨_, rfl⟩

theorem getChar_decided (x y : Value) : DecidedBy Fault.errorClass
    [x.typed .string, y.typed .int, x.covers y] (x.getChar y) := by
  refine (expectStr_decided x).bind fun s hs => (expectInt_decided y).bind fun n hn => ?_
  rw [eq_str_of_expectStr hs, eq_int_of_expectInt hn]
  exact (charAt_decided s n).last fun _ _ => ⟨_, rfl⟩

theorem setChar_decided (x y z : Value) : DecidedBy Fault.errorClass
    [x.typed .string, y.typed .int, x.covers y, z.typed .string, ⟨z != .str "", 53⟩]
    (x.setChar y z) := by
  refine (expectStr_decided x).bind fun s hs => (expectInt_decided y).bind fun n hn => ?_
  rw [eq_str_of_expectStr hs, eq_int_of_expectInt hn]
  refine (charAt_decided s n).bind fun _ _ => (expectStr_decided z).bind fun r hr => ?_
  rw [eq_str_of_expectStr hr]
  split
  · next hempty => exact .refused (by simpa using hempty) rfl
  · next hcons => exact .passed (by simp [← String.toList_inj, hcons]) _

theorem equals_decided (x y : Value) :
    DecidedBy Fault.errorClass [x.comparable y] (x.equals y) := by
  have hnil : ∀ v : Value, v = .nil ↔ v.type = .nil := by
    intro v
    cases v <;> simp [type]
  unfold equals looseEq?
  by_cases h : x.type = y.type ∨ x = .nil ∨ y = .nil
  · rw [if_pos h]
    refine .passed ?_ _
    rw [hnil, hnil] at h
    simpa [comparable, or_assoc] using h
  · rw [if_neg h]
    refine .refused ?_ rfl
    rw [hnil, hnil] at h
    simpa [comparable, and_assoc] using h

theorem order_decided (x y : Value) : DecidedBy Fault.errorClass [x.ordered y] (x.order y) := by
  cases x <;> cases y <;> rfl

theorem within_decided {α : Type} {lo hi n : Int64} {code : Nat} {a : α} {fault : Fault}
    (hcode : fault.errorClass.code = code) : DecidedBy Fault.errorClass
      [(int n).within lo hi code] (if lo ≤ n ∧ n ≤ hi then .ok a else .error fault) := by
  split
  · next h => exact .passed (by simpa [within] using h) a
  · next h => exact .refused (by simpa [within] using h) hcode

theorem exitStatus_decided (x : Value) :
    DecidedBy Fault.errorClass [x.typed .int, x.within 0 9 57] x.exitStatus := by
  refine (expectInt_decided x).bind fun n hn => ?_
  rw [eq_int_of_expectInt hn]
  exact within_decided rfl

end Value

theorem Unary.eval_decided (op : Unary) (x : Value) :
    DecidedBy Fault.errorClass (op.checks x) (op.eval x) := by
  cases op with
  | not => exact (Value.expectBool_decided x).last fun _ _ => ⟨_, rfl⟩
  | int2Char =>
    refine (Value.expectInt_decided x).bind fun n hn => ?_
    rw [Value.eq_int_of_expectInt hn]
    exact Value.within_decided rfl

namespace Binary

theorem arithmetic_decided {f : Int64 → Int64 → Except Fault Int64}
    (checks : Value → Value → List Check)
    (hf : ∀ a b, DecidedBy Fault.errorClass (checks (.int a) (.int b)) (f a b)) (x y : Value) :
    DecidedBy Fault.errorClass (x.typed .int :: y.typed .int :: checks x y) (arithmetic f x y) := by
  refine (Value.expectInt_decided x).bind fun a ha =>
    (Value.expectInt_decided y).bind fun b hb => ?_
  rw [Value.eq_int_of_expectInt ha, Value.eq_int_of_expectInt hb]
  exact (hf a b).last fun _ _ => ⟨_, rfl⟩

theorem logical_decided (f : Bool → Bool → Bool) (x y : Value) :
    DecidedBy Fault.errorClass [x.typed .bool, y.typed .bool] (logical f x y) :=
  (Value.expectBool_decided x).bind fun _ _ => (Value.expectBool_decided y).last fun _ _ => ⟨_, rfl⟩

theorem eval_decided (op : Binary) (x y : Value) :
    DecidedBy Fault.errorClass (op.checks x y) (op.eval x y) := by
  cases op with
  | add | sub | mul =>
    exact arithmetic_decided (fun _ _ => []) (fun a b => .ok _) x y
  | idiv =>
    refine arithmetic_decided (fun _ y => [⟨y != .int 0, 57⟩]) (fun a b => ?_) x y
    split
    · next hzero => exact .refused (by simp [hzero]) rfl
    · next hzero => exact .passed (by simpa using hzero) _
  | lt | gt => exact (Value.order_decided x y).last fun _ _ => ⟨_, rfl⟩
  | eq => exact (Value.equals_decided x y).last fun _ _ => ⟨_, rfl⟩
  | and | or => exact logical_decided _ x y
  | stri2Int =>
    refine (Value.expectStr_decided x).bind fun s hs =>
      (Value.expectInt_decided y).bind fun n hn => ?_
    rw [Value.eq_str_of_expectStr hs, Value.eq_int_of_expectInt hn]
    exact (Value.charAt_decided s n).last fun _ _ => ⟨_, rfl⟩

end Binary

/-! ## Operands -/

namespace Machine

variable (m : Machine) {i : Instruction}

theorem frame_decided (kind : FrameKind) :
    DecidedBy RunError.errorClass [⟨(m.frame? kind).isSome, 55⟩] (m.frame kind) := by
  unfold frame
  split
  · next f hf => exact .passed (by rw [hf]; rfl) f
  · next hf => exact .refused (by rw [hf]; rfl) rfl

theorem cell_decided (v : Variable) :
    DecidedBy RunError.errorClass (m.locating v) (m.cell v) := by
  refine (frame_decided m v.frame).bind fun f hf => ?_
  have hcell : m.cell? v = f.get? v.name := by rw [cell?, frame_eq_ok_iff.mp hf, Option.bind_some]
  split
  · next cell hget => exact .passed (by rw [hcell, hget]; rfl) cell
  · next hget => exact .refused (by rw [hcell, hget]; rfl) rfl

theorem value_decided (v : Variable) :
    DecidedBy RunError.errorClass (m.reading v) (m.value v) := by
  refine (cell_decided m v).bind fun cell hcell => ?_
  obtain ⟨f, hf, hget⟩ := cell_eq_ok hcell
  have hvalue : m.value? v = cell.value := by
    rw [value?, cell?, hf, Option.bind_some, hget, Option.bind_some]
  split
  · next x hx => exact .passed (by rw [hvalue, hx]; rfl) x
  · next hx => exact .refused (by rw [hvalue, hx]; rfl) rfl

theorem value?_of_value {v : Variable} {x : Value} (h : m.value v = .ok x) :
    m.value? v = some x := by
  obtain ⟨cell, hcell, h⟩ := bind_eq_ok_iff.mp h
  obtain ⟨f, hf, hget⟩ := cell_eq_ok hcell
  split at h
  · next x' hx =>
    cases h
    rw [value?, cell?, hf, Option.bind_some, hget, Option.bind_some, hx]
  · cases h

theorem accept_decided {α : Type} {checks : List Check} {r : Except Fault α}
    (h : DecidedBy Fault.errorClass checks r) :
    DecidedBy RunError.errorClass checks (m.accept i r) :=
  h.mapError fun _ => rfl

theorem target_decided (labels : LabelTable) {name : String} {k : Nat}
    (ho : i.operand? k = some (.label name)) :
    DecidedBy RunError.errorClass [⟨(labels.resolve? name).isSome, 52⟩] (m.target labels i k) := by
  simp only [target, ho]
  split
  · next position hr => exact .passed (by rw [hr]; rfl) position
  · next hr => exact .refused (by rw [hr]; rfl) rfl

end Machine

namespace Slot

theorem eq_var_of_takes {o : Operand} (h : Slot.var.takes o = true) : ∃ v, o = .var v := by
  cases o <;> cases h
  exact ⟨_, rfl⟩

theorem eq_label_of_takes {o : Operand} (h : Slot.label.takes o = true) :
    ∃ name, o = .label name := by
  cases o <;> cases h
  exact ⟨_, rfl⟩

end Slot

namespace Instruction.FitsSignature

variable {i : Instruction} (hi : i.FitsSignature)
include hi

theorem operands_symb (hs : i.opcode.signature = [.symb]) :
    ∃ o, i.operands = [o] ∧ Slot.symb.takes o = true := by
  simp only [FitsSignature, hs, List.forall₂_cons_left_iff, List.forall₂_nil_left_iff] at hi
  obtain ⟨o, _, ho, rfl, hops⟩ := hi
  exact ⟨o, hops, ho⟩

theorem operands_var_symb (hs : i.opcode.signature = [.var, .symb]) :
    ∃ v o, i.operands = [.var v, o] ∧ Slot.symb.takes o = true := by
  simp only [FitsSignature, hs, List.forall₂_cons_left_iff, List.forall₂_nil_left_iff] at hi
  obtain ⟨_, _, hvar, ⟨o, _, ho, rfl, rfl⟩, hops⟩ := hi
  obtain ⟨v, rfl⟩ := Slot.eq_var_of_takes hvar
  exact ⟨v, o, hops, ho⟩

theorem operands_symb_symb {slot : Slot} (hs : i.opcode.signature = [slot, .symb, .symb]) :
    ∃ first o o', i.operands = [first, o, o'] ∧ slot.takes first = true ∧
      Slot.symb.takes o = true ∧ Slot.symb.takes o' = true := by
  simp only [FitsSignature, hs, List.forall₂_cons_left_iff, List.forall₂_nil_left_iff] at hi
  obtain ⟨first, _, hfirst, ⟨o, _, ho, ⟨o', _, ho', rfl, rfl⟩, rfl⟩, hops⟩ := hi
  exact ⟨first, o, o', hops, hfirst, ho, ho'⟩

end Instruction.FitsSignature

namespace Machine

variable (m : Machine) (labels : LabelTable) {i : Instruction}

/-- A symbol is decided by the checks of its operand, and what follows gets the operand's value. -/
theorem symbol_bind_decided {α : Type} (hop : i.opcode ≠ .type) {o : Operand} {k : Nat}
    (ho : i.operand? k = some o) (htakes : Slot.symb.takes o = true) {checks : List Check}
    {f : Value → Except RunError α}
    (hf : ∀ x, o.value? m i.opcode .symb = some x → DecidedBy RunError.errorClass checks (f x)) :
    DecidedBy RunError.errorClass (o.checks labels m i.opcode .symb ++ checks)
      (m.symbol i k >>= f) := by
  simp only [symbol, ho]
  cases o with
  | var v =>
    rw [Operand.checks, if_neg hop]
    exact (value_decided m v).bind fun x hx => hf x (value?_of_value m hx)
  | const value => exact hf value rfl
  | label name | type tag => cases htakes

section TwoSymbols

variable {slot : Slot} (hs : i.opcode.signature = [slot, .symb, .symb]) {first o o' : Operand}
  (hops : i.operands = [first, o, o'])
include hs hops

theorem checks_symb_symb : i.checks labels m = first.checks labels m i.opcode slot ++
    (o.checks labels m i.opcode .symb ++ (o'.checks labels m i.opcode .symb ++
      i.opcode.valueChecks (i.values m))) := by
  simp [Instruction.checks, Instruction.operandChecks, hs, hops]

/-- Two symbols are decided one after the other, and then there are the values of both. -/
theorem symbols_bind_decided {α : Type} (ho : Slot.symb.takes o = true)
    (ho' : Slot.symb.takes o' = true) {checks : List Check}
    {f : Value → Value → Except RunError α}
    (hf : ∀ x y, i.values m = (first.value? m i.opcode slot).toList ++ [x, y] →
      DecidedBy RunError.errorClass checks (f x y)) :
    DecidedBy RunError.errorClass
      (o.checks labels m i.opcode .symb ++ (o'.checks labels m i.opcode .symb ++ checks))
      (do
        let x ← m.symbol i 1
        let y ← m.symbol i 2
        f x y) := by
  have hop : i.opcode ≠ .type := by
    intro h
    rw [h] at hs
    cases hs
  refine symbol_bind_decided m labels hop (by simp [Instruction.operand?, hops]) ho fun x hx => ?_
  refine symbol_bind_decided m labels hop (by simp [Instruction.operand?, hops]) ho' fun y hy => ?_
  refine hf x y ?_
  cases h : first.value? m i.opcode slot <;> simp [Instruction.values, hs, hops, h, hx, hy]

end TwoSymbols

/-! ## Operand forms -/

section Forms

variable (hi : i.FitsSignature)
include hi

theorem symb_decided {op : Opcode} (hop : i.opcode = op) (hs : op.signature = [.symb]) {α : Type}
    {f : Value → Except RunError α}
    (hf : ∀ x, DecidedBy RunError.errorClass (op.valueChecks [x]) (f x)) :
    DecidedBy RunError.errorClass (i.checks labels m) (m.symbol i 0 >>= f) := by
  subst hop
  obtain ⟨o, hops, ho⟩ := hi.operands_symb hs
  have hop : i.opcode ≠ .type := by
    intro h
    rw [h] at hs
    cases hs
  have hchecks : i.checks labels m =
      o.checks labels m i.opcode .symb ++ i.opcode.valueChecks (i.values m) := by
    simp [Instruction.checks, Instruction.operandChecks, hs, hops]
  rw [hchecks]
  refine symbol_bind_decided m labels hop (by simp [Instruction.operand?, hops]) ho fun x hx => ?_
  have hvalues : i.values m = [x] := by simp [Instruction.values, hs, hops, hx]
  rw [hvalues]
  exact hf x

theorem unary_decided {op : Opcode} (hop : i.opcode = op) (hs : op.signature = [.var, .symb])
    (htype : op ≠ .type) {f : Value → Except Fault Value}
    (hf : ∀ x, DecidedBy Fault.errorClass (op.valueChecks [x]) (f x)) :
    DecidedBy RunError.errorClass (i.checks labels m) (m.unary i f) := by
  subst hop
  obtain ⟨v, o, hops, ho⟩ := hi.operands_var_symb hs
  have hplain : i.opcode ≠ .setChar := by
    intro h
    rw [h] at hs
    cases hs
  have hdest : destination i 0 = .ok v := by simp [destination, Instruction.operand?, hops]
  have hchecks : i.checks labels m = m.locating v ++
      (o.checks labels m i.opcode .symb ++ i.opcode.valueChecks (i.values m)) := by
    have hfirst : Operand.checks labels m i.opcode .var (.var v) = m.locating v := if_neg hplain
    simp [Instruction.checks, Instruction.operandChecks, hs, hops, hfirst]
  unfold unary
  rw [hdest, hchecks]
  refine (cell_decided m v).bind fun cell hcell => ?_
  refine symbol_bind_decided m labels htype (by simp [Instruction.operand?, hops]) ho fun x hx => ?_
  have hvalues : i.values m = [x] := by
    have hfirst : Operand.value? m i.opcode .var (.var v) = none := if_neg hplain
    simp [Instruction.values, hs, hops, hfirst, hx]
  rw [hvalues]
  exact (accept_decided m (hf x)).last fun y _ => exists_assign_of_cell hcell y

theorem binary_decided {op : Opcode} (hop : i.opcode = op)
    (hs : op.signature = [.var, .symb, .symb]) (hplain : op ≠ .setChar)
    {f : Value → Value → Except Fault Value}
    (hf : ∀ x y, DecidedBy Fault.errorClass (op.valueChecks [x, y]) (f x y)) :
    DecidedBy RunError.errorClass (i.checks labels m) (m.binary i f) := by
  subst hop
  obtain ⟨_, o, o', hops, hfirst, ho, ho'⟩ := hi.operands_symb_symb hs
  obtain ⟨v, rfl⟩ := Slot.eq_var_of_takes hfirst
  have hdest : destination i 0 = .ok v := by simp [destination, Instruction.operand?, hops]
  have hlocating : Operand.checks labels m i.opcode .var (.var v) = m.locating v := if_neg hplain
  have hnone : Operand.value? m i.opcode .var (.var v) = none := if_neg hplain
  unfold binary
  rw [hdest, checks_symb_symb m labels hs hops, hlocating]
  refine (cell_decided m v).bind fun cell hcell => ?_
  refine symbols_bind_decided m labels hs hops ho ho' fun x y hvalues => ?_
  rw [hvalues, hnone]
  exact (accept_decided m (hf x y)).last fun z _ => exists_assign_of_cell hcell z

theorem setChar_decided (hop : i.opcode = .setChar) :
    DecidedBy RunError.errorClass (i.checks labels m) (m.setChar i) := by
  have hs : i.opcode.signature = [.var, .symb, .symb] := by rw [hop]; rfl
  obtain ⟨_, o, o', hops, hfirst, ho, ho'⟩ := hi.operands_symb_symb hs
  obtain ⟨v, rfl⟩ := Slot.eq_var_of_takes hfirst
  have hdest : destination i 0 = .ok v := by simp [destination, Instruction.operand?, hops]
  have hreading : Operand.checks labels m i.opcode .var (.var v) = m.reading v := if_pos hop
  have hvalue : Operand.value? m i.opcode .var (.var v) = m.value? v := if_pos hop
  unfold setChar
  rw [hdest, checks_symb_symb m labels hs hops, hreading]
  refine (value_decided m v).bind fun string hstring => ?_
  refine symbols_bind_decided m labels hs hops ho ho' fun x y hvalues => ?_
  rw [hvalues, hvalue, value?_of_value m hstring, hop]
  obtain ⟨cell, hcell, -⟩ := bind_eq_ok_iff.mp hstring
  exact (accept_decided m (Value.setChar_decided string x y)).last fun z _ =>
    exists_assign_of_cell hcell z

theorem jumpIf_decided {equal : Bool} (hop : i.opcode = .jumpIf equal) :
    DecidedBy RunError.errorClass (i.checks labels m) (m.jumpIf labels i equal) := by
  have hs : i.opcode.signature = [.label, .symb, .symb] := by rw [hop]; rfl
  obtain ⟨_, o, o', hops, hfirst, ho, ho'⟩ := hi.operands_symb_symb hs
  obtain ⟨name, rfl⟩ := Slot.eq_label_of_takes hfirst
  unfold jumpIf
  rw [checks_symb_symb m labels hs hops]
  refine (target_decided m labels (by simp [Instruction.operand?, hops])).bind fun target _ => ?_
  refine symbols_bind_decided m labels hs hops ho ho' fun x y hvalues => ?_
  rw [hvalues, hop]
  exact (accept_decided m (Value.equals_decided x y)).last fun _ _ => ⟨_, rfl⟩

/-- TYPE asks of its symbol only that it is declared. -/
theorem type_decided (hop : i.opcode = .type) :
    DecidedBy RunError.errorClass (i.checks labels m) (m.type i) := by
  have hs : i.opcode.signature = [.var, .symb] := by rw [hop]; rfl
  obtain ⟨v, o, hops, ho⟩ := hi.operands_var_symb hs
  have hdest : destination i 0 = .ok v := by simp [destination, Instruction.operand?, hops]
  have hsecond : i.operand? 1 = some o := by simp [Instruction.operand?, hops]
  have hchecks : i.checks labels m = m.locating v ++ Operand.checks labels m .type .symb o := by
    have hfirst : Operand.checks labels m .type .var (.var v) = m.locating v := rfl
    simp [Instruction.checks, Instruction.operandChecks, hops, hop, Opcode.signature, hfirst,
      Opcode.valueChecks]
  unfold type
  rw [hdest, hchecks]
  refine (cell_decided m v).bind fun cell hcell => ?_
  simp only [hsecond]
  cases o with
  | const value =>
    obtain ⟨m', hm'⟩ := exists_assign_of_cell hcell (.str value.type.name)
    simp only [hm']
    exact .ok m'
  | var source =>
    have hlocating : Operand.checks labels m .type .symb (.var source) = m.locating source := rfl
    rw [hlocating]
    refine (cell_decided m source).last fun found _ => ?_
    cases found.value with
    | none => exact exists_assign_of_cell hcell _
    | some value => exact exists_assign_of_cell hcell _
  | label name | type tag => cases ho

end Forms

/-! ## Steps -/

theorem update_decided {checks : List Check} {r : Except RunError Machine}
    (h : DecidedBy RunError.errorClass checks r) :
    DecidedBy RunError.errorClass checks (m.update r).result := by
  cases r <;> exact h

theorem go_decided {checks : List Check} {r : Except RunError Flow}
    (h : DecidedBy RunError.errorClass checks r) :
    DecidedBy RunError.errorClass checks (m.go r).result := by
  cases r <;> exact h

theorem withSymbol_result (i : Instruction) (k : Value → Step) :
    (m.withSymbol i k).result = m.symbol i 0 >>= fun x => (k x).result := by
  unfold withSymbol
  cases m.symbol i 0 <;> rfl

/-- A text that the sink takes. -/
theorem result_write {text : String} (h : (m.host.output.write text).1 = .ok ()) :
    (m.write text).result = .ok .next := by
  unfold write
  generalize m.host.output.write text = w at h
  obtain ⟨answer, output⟩ := w
  cases h
  rfl

theorem result_diagnose {text : String} (h : (m.host.diagnostics.write text).1 = .ok ()) :
    (m.diagnose text).result = .ok .next := by
  unfold diagnose
  generalize m.host.diagnostics.write text = w at h
  obtain ⟨answer, diagnostics⟩ := w
  cases h
  rfl

theorem step_decided (hi : i.FitsSignature) (hsymb : .symb ∈ i.opcode.signature)
    (houtput : ∀ text, (m.host.output.write text).1 = .ok ())
    (hdiagnostics : ∀ text, (m.host.diagnostics.write text).1 = .ok ()) :
    DecidedBy RunError.errorClass (i.checks labels m) (m.step labels i).result := by
  unfold step
  cases hop : i.opcode with
  | move => exact update_decided m (unary_decided m labels hi hop rfl (by simp) fun x => .ok x)
  | unary op => exact update_decided m (unary_decided m labels hi hop rfl (by simp) op.eval_decided)
  | strlen =>
    exact update_decided m (unary_decided m labels hi hop rfl (by simp) Value.strlen_decided)
  | binary op =>
    exact update_decided m (binary_decided m labels hi hop rfl (by simp) op.eval_decided)
  | concat =>
    exact update_decided m (binary_decided m labels hi hop rfl (by simp) Value.concat_decided)
  | getChar =>
    exact update_decided m (binary_decided m labels hi hop rfl (by simp) Value.getChar_decided)
  | setChar => exact update_decided m (setChar_decided m labels hi hop)
  | type => exact update_decided m (type_decided m labels hi hop)
  | jumpIf equal => exact go_decided m (jumpIf_decided m labels hi hop)
  | pushs => exact update_decided m (symb_decided m labels hi hop rfl fun x => .ok _)
  | exit =>
    refine go_decided m (symb_decided m labels hi hop rfl fun x => ?_)
    exact (accept_decided m x.exitStatus_decided).last fun _ _ => ⟨_, rfl⟩
  | write =>
    show DecidedBy _ _ (m.withSymbol i fun x => m.write x.outputText).result
    rw [withSymbol_result]
    refine symb_decided m labels hi hop rfl fun x => ?_
    rw [result_write m (houtput _)]
    exact .ok Flow.next
  | dprint =>
    show DecidedBy _ _ (m.withSymbol i fun x => m.diagnose x.text).result
    rw [withSymbol_result]
    refine symb_decided m labels hi hop rfl fun x => ?_
    rw [result_diagnose m (hdiagnostics _)]
    exact .ok Flow.next
  | _ =>
    rw [hop] at hsymb
    simp [Opcode.signature] at hsymb

/-- The checks of each operand are among those of the instruction. -/
theorem mem_checks {slot : Slot} {o : Operand} {k : Nat} (hs : i.opcode.signature[k]? = some slot)
    (ho : i.operand? k = some o) {check : Check} (h : check ∈ o.checks labels m i.opcode slot) :
    check ∈ i.checks labels m := by
  have hplace : (i.opcode.signature.zipWith (Operand.checks labels m i.opcode) i.operands)[k]? =
      some (o.checks labels m i.opcode slot) := by
    rw [List.getElem?_zipWith, hs, show i.operands[k]? = some o from ho]
  exact List.mem_append_left _ (List.mem_flatten.mpr ⟨_, List.mem_of_getElem? hplace, h⟩)

/-- **The first check that fails decides.** An instruction with a symbol among its operands, on a
machine whose sinks take every text, fails if and only if one of its checks does not hold, and then
with the code of the first: the label is defined (52), or the destination is in a frame that exists
(55), is declared (54) and, for SETCHAR, has a value (56); then each symbol from left to right is in
a frame that exists, is declared and, but for TYPE, has a value; then the operation takes the values
(53, 57, 58). So it never succeeds without the value of a symbol, be it one that would not change
the result. -/
theorem step_first_failing_check (labels : LabelTable) (i : Instruction) (m : Machine)
    (hi : i.FitsSignature) (hsymb : .symb ∈ i.opcode.signature)
    (houtput : ∀ text, (m.host.output.write text).1 = .ok ())
    (hdiagnostics : ∀ text, (m.host.diagnostics.write text).1 = .ok ()) :
    let result := (m.step labels i).result
    (∀ code, (∃ e, result = .error e ∧ e.errorClass.code = code) ↔
      Check.firstFailing (i.checks labels m) = some code) ∧
    ((∃ flow, result = .ok flow) ↔ ∀ check ∈ i.checks labels m, check.holds = true) ∧
    ((∃ flow, result = .ok flow) → ∀ (k : Nat) v, i.opcode.signature[k]? = some .symb →
      i.operand? k = some (.var v) →
      (∃ cell, m.cell v = .ok cell) ∧ (i.opcode ≠ .type → ∃ x, m.value v = .ok x)) := by
  intro result
  have hdecided := step_decided m labels hi hsymb houtput hdiagnostics
  refine ⟨hdecided.error_iff, hdecided.ok_iff, fun hok k v hs ho => ?_⟩
  have hall : ∀ check ∈ Operand.checks labels m i.opcode .symb (.var v), check.holds = true :=
    fun check hcheck => hdecided.ok_iff.mp hok check (mem_checks m labels hs ho hcheck)
  by_cases hop : i.opcode = .type
  · rw [Operand.checks, if_pos hop] at hall
    exact ⟨(cell_decided m v).ok_iff.mpr hall, fun hne => absurd hop hne⟩
  · rw [Operand.checks, if_neg hop] at hall
    refine ⟨(cell_decided m v).ok_iff.mpr fun check hcheck => ?_, fun _ => ?_⟩
    · exact hall check (List.mem_append_left _ hcheck)
    · exact (value_decided m v).ok_iff.mpr hall

/-- A conjunction with a false side and an unset one, an index out of range before a replacement
that is no string, and a jump to a label that is not defined over symbols without a frame. -/
theorem step_first_failing_check_of_several :
    let x : Operand := .var ⟨.globals, "x"⟩
    let s : Operand := .var ⟨.globals, "s"⟩
    let l : Operand := .var ⟨.locals, "x"⟩
    let m : Machine := { globals := {
      cells := #[⟨"x", none⟩, ⟨"s", some (.str "ab")⟩]
      index := ((∅ : Std.ExtTreeMap String Nat).insert "x" 0).insert "s" 1 } }
    let fails (i : Instruction) (code : Nat) : Prop :=
      ∃ e, (m.step .empty i).result = .error e ∧ e.errorClass.code = code
    fails ⟨1, .binary .and, [x, .const (.bool false), x]⟩ 56 ∧
      fails ⟨1, .setChar, [s, .const (.int 2), .const .nil]⟩ 58 ∧
      fails ⟨1, .jumpIf true, [.label "k", l, l]⟩ 52 := by
  intro x s l m fails
  have htakes : ∀ text, (Sink.write {} text).1 = .ok () := by
    intro text
    unfold Sink.write
    split <;> rfl
  have hfails : ∀ (i : Instruction) code, i.FitsSignature → .symb ∈ i.opcode.signature →
      Check.firstFailing (i.checks .empty m) = some code → fails i code :=
    fun i code hi hsymb => ((step_first_failing_check .empty i m hi hsymb htakes htakes).1 code).mpr
  refine ⟨hfails _ _ ?_ (by decide) (by decide +kernel),
    hfails _ _ ?_ (by decide) (by decide +kernel),
    hfails _ _ ?_ (by decide) (by decide +kernel)⟩
  all_goals exact .cons rfl (.cons rfl (.cons rfl .nil))

/-- In a loaded program operands always fit, so that the checks of the instruction that the machine
is at decide whether the run fails there. -/
theorem advance_first_failing_check {nodes : List Node} {p : Program}
    (hp : Program.load nodes = .ok p) (hi : p.fetch? m.position = some i)
    (hsymb : .symb ∈ i.opcode.signature)
    (houtput : ∀ text, (m.host.output.write text).1 = .ok ())
    (hdiagnostics : ∀ text, (m.host.diagnostics.write text).1 = .ok ()) (code : Nat) :
    (∃ e last, m.advance p = .stopped (.failed e) last ∧ e.errorClass.code = code) ↔
      Check.firstFailing (i.checks p.labels m) = some code := by
  have hfits := ((Program.wellFormed_of_load hp).conforms_of_fetch? hi).fitsSignature
  have hdecided := step_decided m.counted p.labels hfits hsymb houtput hdiagnostics
  rw [advance_of_some hi]
  refine Iff.trans ?_ (hdecided.error_iff code)
  generalize m.counted.step p.labels i = s
  obtain ⟨m', result⟩ := s
  cases result with
  | error e => simp [Step.progress]
  | ok flow => cases flow <;> simp [Step.progress]

end Machine

end FrameCode
