import FrameCode.Proofs.Operation
import FrameCode.Proofs.Text.Order
import Mathlib.Logic.ExistsUnique

/-! Comparing values. The order of two values, their equality and the condition of a jump are
defined on different pairs of values; where they are, they agree. Everything is derived from the
laws of `Value.compare?` and `Value.looseEq?`, and instructions, in whatever form they have their
values, do what the operator says. -/

namespace FrameCode

namespace Value

variable {a b c : Value}

/-! ## Laws of the order and of equality -/

theorem isSome_compare?_iff :
    (a.compare? b).isSome = true ↔ a.type = b.type ∧ a.type ≠ .nil := by
  cases a <;> cases b <;> simp [compare?, type]

theorem compare?_swap (a b : Value) : b.compare? a = (a.compare? b).map Ordering.swap := by
  cases a with
  | int n =>
    cases b with
    | int k => exact congrArg some Std.OrientedOrd.eq_swap
    | bool _ | str _ | nil => rfl
  | bool p =>
    cases b with
    | bool q => exact congrArg some Std.OrientedOrd.eq_swap
    | int _ | str _ | nil => rfl
  | str s =>
    cases b with
    | str t => exact congrArg some Std.OrientedOrd.eq_swap
    | int _ | bool _ | nil => rfl
  | nil => cases b <;> rfl

theorem compare?_eq_some_eq_iff : a.compare? b = some .eq ↔ a = b ∧ a ≠ .nil := by
  cases a <;> cases b <;> simp [compare?]

theorem compare?_trans (hab : a.compare? b = some .lt) (hbc : b.compare? c = some .lt) :
    a.compare? c = some .lt := by
  have htype : a.type = b.type ∧ a.type ≠ .nil := isSome_compare?_iff.mp (by rw [hab]; rfl)
  have htype' : b.type = c.type ∧ b.type ≠ .nil := isSome_compare?_iff.mp (by rw [hbc]; rfl)
  cases a <;> cases b <;> simp [type] at htype <;> cases c <;> simp [type] at htype'
  all_goals
    simp only [compare?, Option.some.injEq] at hab hbc ⊢
    exact Std.TransCmp.lt_trans hab hbc

theorem isSome_looseEq?_iff :
    (a.looseEq? b).isSome = true ↔ a.type = b.type ∨ a = .nil ∨ b = .nil := by
  unfold looseEq?
  split
  · next h => simp [h]
  · next h => simp [h]

theorem looseEq?_comm (a b : Value) : a.looseEq? b = b.looseEq? a := by
  have hdomain : (a.type = b.type ∨ a = .nil ∨ b = .nil) ↔
      (b.type = a.type ∨ b = .nil ∨ a = .nil) := by
    rw [eq_comm, or_comm (a := a = .nil)]
  unfold looseEq?
  simp only [hdomain, BEq.comm]

theorem looseEq?_eq_some_true_iff : a.looseEq? b = some true ↔ a = b := by
  unfold looseEq?
  split
  · simp
  · next h =>
    have hne : a ≠ b := fun heq => h (.inl (congrArg type heq))
    simp [hne]

end Value

/-! ## Laws of the comparisons -/

namespace Binary

variable {op : Binary} {a b : Value} {r : Bool}

/-- What LT, EQ or GT says of two values, if it says anything. -/
def answer? : Binary → Value → Value → Option Bool
  | lt, a, b => (a.compare? b).map (· == .lt)
  | gt, a, b => (a.compare? b).map (· == .gt)
  | _, a, b => a.looseEq? b

/-- A comparison gives its answer, or the types do not go together. -/
theorem eval_eq_elim (hop : op ∈ [lt, Binary.eq, gt]) (a b : Value) : op.eval a b =
    (op.answer? a b).elim (.error (.incompatibleTypes a.type b.type)) fun r => .ok (.bool r) := by
  simp only [List.mem_cons, List.not_mem_nil, or_false] at hop
  rcases hop with rfl | rfl | rfl
  · simp only [eval, answer?, Value.order]
    cases a.compare? b <;> rfl
  · simp only [eval, answer?, Value.equals]
    cases a.looseEq? b <;> rfl
  · simp only [eval, answer?, Value.order]
    cases a.compare? b <;> rfl

theorem eval_eq_ok_iff (hop : op ∈ [lt, Binary.eq, gt]) :
    op.eval a b = .ok (.bool r) ↔ op.answer? a b = some r := by
  rw [eval_eq_elim hop]
  cases op.answer? a b <;> simp

theorem exists_eval_iff (hop : op ∈ [lt, Binary.eq, gt]) :
    (∃ r, op.eval a b = .ok (.bool r)) ↔ (op.answer? a b).isSome = true := by
  simp only [eval_eq_ok_iff hop, Option.isSome_iff_exists]

theorem eval_eq_eq_ok_iff : Binary.eq.eval a b = .ok (.bool r) ↔ a.looseEq? b = some r :=
  eval_eq_ok_iff (by simp)

theorem eval_eq_eq_true_iff : Binary.eq.eval a b = .ok (.bool true) ↔ a = b :=
  eval_eq_eq_ok_iff.trans Value.looseEq?_eq_some_true_iff

theorem eval_lt_eq_true_iff : lt.eval a b = .ok (.bool true) ↔ a.compare? b = some .lt := by
  rw [eval_eq_ok_iff (by simp), answer?, Option.map_eq_some_iff]
  simp

theorem eval_gt_eq_true_iff : gt.eval a b = .ok (.bool true) ↔ a.compare? b = some .gt := by
  rw [eval_eq_ok_iff (by simp), answer?, Option.map_eq_some_iff]
  simp

/-- To be greater is to be less the other way round. -/
theorem answer?_gt (a b : Value) : gt.answer? a b = lt.answer? b a := by
  simp only [answer?, Value.compare?_swap a b, Option.map_map]
  refine congrArg (Option.map · (a.compare? b)) (funext fun o => ?_)
  cases o <;> rfl

/-- The comparison that holds of two values in that order. -/
def ofOrdering : Ordering → Binary
  | .lt => lt
  | .eq => Binary.eq
  | .gt => gt

theorem eval_eq_true_iff_ofOrdering {o : Ordering} (h : a.compare? b = some o)
    (hop : op ∈ [lt, Binary.eq, gt]) :
    op.eval a b = .ok (.bool true) ↔ op = ofOrdering o := by
  have heq : a = b ↔ o = .eq := by
    have hequal := Value.compare?_eq_some_eq_iff (a := a) (b := b)
    have hnil : a ≠ .nil := by
      rintro rfl
      cases b <;> cases h
    rw [h, Option.some.injEq, and_iff_left hnil] at hequal
    exact hequal.symm
  simp only [List.mem_cons, List.not_mem_nil, or_false] at hop
  rcases hop with rfl | rfl | rfl
  · rw [eval_lt_eq_true_iff, h, Option.some.injEq]
    cases o <;> simp [ofOrdering]
  · rw [eval_eq_eq_true_iff, heq]
    cases o <;> simp [ofOrdering]
  · rw [eval_gt_eq_true_iff, h, Option.some.injEq]
    cases o <;> simp [ofOrdering]

/-- Of two values that have an order, exactly one comparison holds. -/
theorem existsUnique_of_compare? (h : (a.compare? b).isSome = true) :
    ∃! op, op ∈ [lt, Binary.eq, gt] ∧ op.eval a b = .ok (.bool true) := by
  obtain ⟨o, ho⟩ := Option.isSome_iff_exists.mp h
  have hmem : ofOrdering o ∈ [lt, Binary.eq, gt] := by cases o <;> simp [ofOrdering]
  refine ⟨ofOrdering o, ⟨hmem, (eval_eq_true_iff_ofOrdering ho hmem).mpr rfl⟩, ?_⟩
  rintro op ⟨hop, htrue⟩
  exact (eval_eq_true_iff_ofOrdering ho hop).mp htrue

end Binary

/-! ## Instructions that compare -/

namespace Machine

variable {m : Machine} {labels : LabelTable} {i : Instruction} {a b : Value}

/-- A conditional jump in either form, with a label that is defined. -/
inductive Compares (m : Machine) (labels : LabelTable) (i : Instruction) (equal : Bool)
    (target : Nat) (a b : Value) : Prop
  | operands (opcode : i.opcode = .jumpIf equal) (aim : m.target labels i 0 = .ok target)
    (left : m.symbol i 1 = .ok a) (right : m.symbol i 2 = .ok b)
  | stack {rest : Stack Value} (opcode : i.opcode = .jumpIfStack equal)
    (aim : m.target labels i 0 = .ok target) (data : m.data = b :: a :: rest)

theorem Applies.ok_iff {op : Binary} {v : Variable} (h : m.Applies i op v a b) (x : Value) :
    op.eval a b = .ok x ↔ (m.step labels i).result = .ok .next ∧
      (m.step labels i).machine.value v = .ok x :=
  (h.performs.delivers labels).ok_iff x

theorem Applies.error_iff {op : Binary} {v : Variable} (h : m.Applies i op v a b) (fault : Fault) :
    op.eval a b = .error fault ↔
      (m.step labels i).result = .error (m.error (.rejected (.binary op) fault)) := by
  rw [← h.opcode]
  exact (h.performs.delivers labels).error_iff fault

theorem AppliesStack.ok_iff {op : Binary} {rest : Stack Value} (h : m.AppliesStack i op a b rest)
    (x : Value) : op.eval a b = .ok x ↔ (m.step labels i).result = .ok .next ∧
      (m.step labels i).machine.data = x :: rest :=
  (h.performs.delivers labels).ok_iff x

theorem AppliesStack.error_iff {op : Binary} {rest : Stack Value}
    (h : m.AppliesStack i op a b rest) (fault : Fault) : op.eval a b = .error fault ↔
      (m.step labels i).result = .error (m.error (.rejected (.binaryStack op) fault)) := by
  rw [← h.opcode]
  exact (h.performs.delivers labels).error_iff fault

theorem result_go (m : Machine) (r : Except RunError Flow) : (m.go r).result = r := by
  cases r <;> rfl

/-- Whatever form the jump has, it goes where the branch on the two values goes. -/
theorem Compares.result_eq {equal : Bool} {target : Nat} (h : m.Compares labels i equal target a b) :
    (m.step labels i).result = m.branch i equal target a b := by
  cases h with
  | operands opcode aim left right =>
    simp only [step, opcode, jumpIf, aim, left, right, result_go]
    rfl
  | stack opcode aim data =>
    simp only [step, opcode, jumpIfStack, aim, popping, data, Stack.pop?, result_go]
    rfl

theorem branch_eq_ok_iff {equal : Bool} {target : Nat} {flow : Flow} :
    m.branch i equal target a b = .ok flow ↔
      ∃ r, Binary.eq.eval a b = .ok (.bool r) ∧ (if r = equal then .jump target else .next) = flow := by
  simp only [Binary.eval_eq_eq_ok_iff, branch, Value.equals]
  cases a.looseEq? b <;> simp [accept, Except.mapError, bind, Except.bind, pure, Except.pure]

theorem branch_eq_error_iff {equal : Bool} {target : Nat} {e : RunError} :
    m.branch i equal target a b = .error e ↔
      ∃ fault, Binary.eq.eval a b = .error fault ∧ m.error (.rejected i.opcode fault) = e := by
  simp only [Binary.eval, branch, Value.equals]
  cases a.looseEq? b <;> simp [accept, Except.mapError, bind, Except.bind, pure, Except.pure]

namespace Compares

variable {equal : Bool} {target : Nat} (h : m.Compares labels i equal target a b)
include h

theorem jump_iff : (m.step labels i).result = .ok (.jump target) ↔
    Binary.eq.eval a b = .ok (.bool equal) := by
  rw [h.result_eq, branch_eq_ok_iff]
  refine ⟨?_, fun heq => ⟨equal, heq, if_pos rfl⟩⟩
  rintro ⟨r, heq, hflow⟩
  split at hflow
  · next hr => rw [heq, hr]
  · cases hflow

theorem next_iff : (m.step labels i).result = .ok .next ↔
    Binary.eq.eval a b = .ok (.bool !equal) := by
  rw [h.result_eq, branch_eq_ok_iff]
  refine ⟨?_, fun heq => ⟨!equal, heq, if_neg (Bool.not_ne_self equal)⟩⟩
  rintro ⟨r, heq, hflow⟩
  split at hflow
  · cases hflow
  · next hr => rw [heq, Bool.eq_not.mpr hr]

theorem error_iff : (∃ e, (m.step labels i).result = .error e ∧ e.errorClass.code = 53) ↔
    ∃ fault, Binary.eq.eval a b = .error fault ∧ fault.errorClass.code = 53 := by
  rw [h.result_eq]
  simp only [branch_eq_error_iff]
  refine ⟨?_, ?_⟩
  · rintro ⟨e, ⟨fault, heq, rfl⟩, hcode⟩
    exact ⟨fault, heq, hcode⟩
  · rintro ⟨fault, heq, hcode⟩
    exact ⟨_, ⟨fault, heq, rfl⟩, hcode⟩

end Compares

end Machine

/-- **Strings are ordered by their code points**, one after the other from the first on, and this is
the order of their UTF-8 encodings byte by byte. LT and GT follow it. -/
theorem Value.compare?_of_strings (a b : String) :
    (Value.str a).compare? (.str b) =
      some (List.compareLex compare (Text.codePoints a) (Text.codePoints b)) ∧
    List.compareLex compare (Text.codePoints a) (Text.codePoints b) =
      List.compareLex compare (Text.bytes a) (Text.bytes b) ∧
    Binary.lt.eval (.str a) (.str b) =
      .ok (.bool (List.compareLex compare (Text.bytes a) (Text.bytes b) == .lt)) ∧
    Binary.gt.eval (.str a) (.str b) =
      .ok (.bool (List.compareLex compare (Text.bytes a) (Text.bytes b) == .gt)) := by
  have hcompare : (Value.str a).compare? (.str b) =
      some (List.compareLex compare (Text.codePoints a) (Text.codePoints b)) :=
    congrArg some (Text.compare_eq a b)
  rw [Text.compareLex_bytes]
  refine ⟨hcompare, rfl, ?_, ?_⟩
  · rw [Binary.eval_eq_ok_iff (by simp), Binary.answer?, hcompare]
    rfl
  · rw [Binary.eval_eq_ok_iff (by simp), Binary.answer?, hcompare]
    rfl

/-- **Comparisons agree with each other.** LT and GT are defined within one type other than nil, EQ
within one type and for nil; otherwise all of them fail with code 53. Where LT is defined, exactly
one of LT, EQ and GT holds; GT is LT the other way round, LT is transitive, and EQ holds of nothing
but equal values. Conditional jumps of both forms follow EQ, and the instructions of both forms of
an operator give its result or its fault. -/
theorem Value.comparisons_agree (a b c : Value) :
    (∀ op ∈ [Binary.lt, .gt],
      (∃ r, op.eval a b = .ok (.bool r)) ↔ a.type = b.type ∧ a.type ≠ .nil) ∧
    ((∃ r, Binary.eq.eval a b = .ok (.bool r)) ↔ a.type = b.type ∨ a = .nil ∨ b = .nil) ∧
    (∀ op ∈ [Binary.lt, .eq, .gt], (∃ r, op.eval a b = .ok (.bool r)) ∨
      ∃ fault, op.eval a b = .error fault ∧ fault.errorClass.code = 53) ∧
    ((∃ r, Binary.lt.eval a b = .ok (.bool r)) →
      ∃! op, op ∈ [Binary.lt, .eq, .gt] ∧ op.eval a b = .ok (.bool true)) ∧
    (∀ r, Binary.gt.eval a b = .ok (.bool r) ↔ Binary.lt.eval b a = .ok (.bool r)) ∧
    (Binary.lt.eval a b = .ok (.bool true) → Binary.lt.eval b c = .ok (.bool true) →
      Binary.lt.eval a c = .ok (.bool true)) ∧
    (Binary.eq.eval a b = .ok (.bool true) ↔ a = b) ∧
    (∀ r, Binary.eq.eval a b = .ok (.bool r) ↔ Binary.eq.eval b a = .ok (.bool r)) ∧
    Binary.eq.eval .nil b = .ok (.bool (b == .nil)) ∧
    (∀ (m : Machine) (labels : LabelTable) (i : Instruction) (equal : Bool) (target : Nat),
      m.Compares labels i equal target a b →
      ((m.step labels i).result = .ok (.jump target) ↔ Binary.eq.eval a b = .ok (.bool equal)) ∧
      ((m.step labels i).result = .ok .next ↔ Binary.eq.eval a b = .ok (.bool !equal)) ∧
      ((∃ e, (m.step labels i).result = .error e ∧ e.errorClass.code = 53) ↔
        ∃ fault, Binary.eq.eval a b = .error fault ∧ fault.errorClass.code = 53)) ∧
    ∀ (m m' : Machine) (labels : LabelTable) (i i' : Instruction) (op : Binary) (v : Variable)
      (rest : Stack Value), m.Applies i op v a b → m'.AppliesStack i' op a b rest →
      (∀ x, (op.eval a b = .ok x ↔ (m.step labels i).result = .ok .next ∧
          (m.step labels i).machine.value v = .ok x) ∧
        (op.eval a b = .ok x ↔ (m'.step labels i').result = .ok .next ∧
          (m'.step labels i').machine.data = x :: rest)) ∧
      ∀ fault, (op.eval a b = .error fault ↔
          (m.step labels i).result = .error (m.error (.rejected (.binary op) fault))) ∧
        (op.eval a b = .error fault ↔
          (m'.step labels i').result = .error (m'.error (.rejected (.binaryStack op) fault))) := by
  have hdomain (op : Binary) (hop : op ∈ [Binary.lt, .gt]) :
      (∃ r, op.eval a b = .ok (.bool r)) ↔ (a.compare? b).isSome = true := by
    simp only [List.mem_cons, List.not_mem_nil, or_false] at hop
    rcases hop with rfl | rfl
    · rw [Binary.exists_eval_iff (by simp), Binary.answer?, Option.isSome_map]
    · rw [Binary.exists_eval_iff (by simp), Binary.answer?, Option.isSome_map]
  refine ⟨fun op hop => (hdomain op hop).trans isSome_compare?_iff, ?_, fun op hop => ?_,
    fun hdefined => ?_, fun r => ?_, ?_, Binary.eval_eq_eq_true_iff, fun r => ?_, ?_,
    fun m labels i equal target h => ⟨h.jump_iff, h.next_iff, h.error_iff⟩, ?_⟩
  · exact (Binary.exists_eval_iff (by simp)).trans isSome_looseEq?_iff
  · rw [Binary.eval_eq_elim hop]
    cases op.answer? a b with
    | none => exact .inr ⟨_, rfl, rfl⟩
    | some r => exact .inl ⟨r, rfl⟩
  · exact Binary.existsUnique_of_compare? ((hdomain .lt (by simp)).mp hdefined)
  · rw [Binary.eval_eq_ok_iff (by simp), Binary.eval_eq_ok_iff (by simp), Binary.answer?_gt]
  · simp only [Binary.eval_lt_eq_true_iff]
    exact compare?_trans
  · rw [Binary.eval_eq_eq_ok_iff, Binary.eval_eq_eq_ok_iff, looseEq?_comm]
  · rw [Binary.eval_eq_eq_ok_iff]
    simp [looseEq?, BEq.comm]
  · intro m m' labels i i' op v rest h h'
    exact ⟨fun x => ⟨h.ok_iff x, h'.ok_iff x⟩, fun fault => ⟨h.error_iff fault, h'.error_iff fault⟩⟩

/-- Three strings of which the first is a beginning of the second, compared by an instruction of
each form, and a jump that is taken because two of them differ. -/
theorem Value.comparisons_agree_on_beginning :
    let a : Value := .str "a"
    let b : Value := .str "ab"
    let c : Value := .str "b"
    let x : Variable := ⟨.globals, "x"⟩
    let labels : LabelTable := LabelTable.empty.insertNew "l" 7
    let m : Machine := { globals := (Frame.empty.declare? "x").getD .empty, data := [b, a, .nil] }
    Binary.lt.eval a c = .ok (.bool true) ∧
    (∃! op, op ∈ [Binary.lt, .eq, .gt] ∧ op.eval a b = .ok (.bool true)) ∧
    (m.step labels ⟨1, .jumpIfStack false, [.label "l"]⟩).result = .ok (.jump 7) ∧
    (m.step labels ⟨1, .binary .lt, [.var x, .const a, .const b]⟩).machine.value x =
      .ok (.bool true) ∧
    (m.step labels ⟨1, .binaryStack .lt, []⟩).machine.data = [.bool true, .nil] := by
  intro a b c x labels m
  have hab : Binary.lt.eval a b = .ok (.bool true) := by decide +kernel
  have hbc : Binary.lt.eval b c = .ok (.bool true) := by decide +kernel
  have hne : Binary.eq.eval a b = .ok (.bool false) := by decide +kernel
  obtain ⟨-, -, -, hone, -, htrans, -, -, -, hjump, hforms⟩ := Value.comparisons_agree a b c
  have hcompares : m.Compares labels ⟨1, .jumpIfStack false, [.label "l"]⟩ false 7 a b :=
    .stack rfl (by decide +kernel) rfl
  have happlies : m.Applies ⟨1, .binary .lt, [.var x, .const a, .const b]⟩ .lt x a b :=
    ⟨rfl, rfl, ⟨{ name := "x" }, by decide +kernel⟩, rfl, rfl⟩
  have hstack : m.AppliesStack ⟨1, .binaryStack .lt, []⟩ .lt a b [.nil] := ⟨rfl, rfl⟩
  obtain ⟨hresults, -⟩ := hforms m m labels _ _ .lt x [.nil] happlies hstack
  obtain ⟨hvalue, hdata⟩ := hresults (.bool true)
  exact ⟨htrans hab hbc, hone ⟨_, hab⟩, (hjump m labels _ _ _ hcompares).1.mpr hne,
    (hvalue.mp hab).2, (hdata.mp hab).2⟩

end FrameCode
