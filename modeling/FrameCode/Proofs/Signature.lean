import FrameCode.Node.Decode
import Mathlib.Data.List.Forall2

/-! Operands that fit the slots of a signature. Whatever a node decodes to fits
(`Node.conforms_of_decode`), which is what running an instruction relies on. Decoding
is taken apart once, by `Node.decode_eq_ok_iff`; no later proof unfolds it. -/

namespace FrameCode

/-! ## Results that may be errors -/

section Results

variable {ε ε' α β : Type}

@[simp] theorem bind_eq_ok_iff {x : Except ε α} {f : α → Except ε β} {b : β} :
    x >>= f = .ok b ↔ ∃ a, x = .ok a ∧ f a = .ok b := by
  cases x <;> simp [bind, Except.bind]

theorem bind_eq_error_iff {x : Except ε α} {f : α → Except ε β} {e : ε} :
    x >>= f = .error e ↔ x = .error e ∨ ∃ a, x = .ok a ∧ f a = .error e := by
  cases x <;> simp [bind, Except.bind]

@[simp] theorem pure_eq_ok_iff {a b : α} : (pure a : Except ε α) = .ok b ↔ a = b := by
  simp [pure, Except.pure]

@[simp] theorem mapError_eq_ok_iff {x : Except ε α} {f : ε → ε'} {a : α} :
    x.mapError f = .ok a ↔ x = .ok a := by
  cases x <;> simp [Except.mapError]

theorem mapError_eq_error_iff {x : Except ε α} {f : ε → ε'} {e' : ε'} :
    x.mapError f = .error e' ↔ ∃ e, x = .error e ∧ e' = f e := by
  cases x <;> simp [Except.mapError, eq_comm]

/-- Every error that a computation can end in is one of these. -/
def FailsOnly (P : ε → Prop) (x : Except ε α) : Prop := ∀ e, x = .error e → P e

namespace FailsOnly

variable {P : ε → Prop}

theorem ok (a : α) : FailsOnly P (.ok a) := by
  intro e h
  cases h

theorem error {e : ε} (h : P e) : FailsOnly P (.error e : Except ε α) := by
  intro e' he'
  cases he'
  exact h

theorem bind {x : Except ε α} {f : α → Except ε β} (hx : FailsOnly P x)
    (hf : ∀ a, FailsOnly P (f a)) : FailsOnly P (x >>= f) := by
  cases x with
  | ok a => exact hf a
  | error e => exact error (hx e rfl)

theorem map {x : Except ε α} {f : α → β} (hx : FailsOnly P x) : FailsOnly P (x.map f) := by
  cases x with
  | ok a => exact ok (f a)
  | error e => exact error (hx e rfl)

theorem mapError {Q : ε' → Prop} {x : Except ε α} {f : ε → ε'} (hx : FailsOnly P x)
    (hf : ∀ e, P e → Q (f e)) : FailsOnly Q (x.mapError f) := by
  cases x with
  | ok a => exact ok a
  | error e => exact error (hf e (hx e rfl))

end FailsOnly

/-- A computation gives values of this kind only, and every error that it can end in is one of
these. -/
structure Yields (P : α → Prop) (Q : ε → Prop) (x : Except ε α) : Prop where
  ok : ∀ a, x = .ok a → P a
  error : FailsOnly Q x

namespace Yields

variable {P P' : β → Prop} {Q : ε → Prop}

theorem pure {b : β} (h : P b) : Yields P Q (.ok b) :=
  ⟨fun _ hb => Except.ok.inj hb ▸ h, .ok b⟩

theorem fail {e : ε} (h : Q e) : Yields P Q (.error e) :=
  ⟨fun _ hb => (by cases hb), .error h⟩

theorem bind {x : Except ε α} {f : α → Except ε β} (hx : FailsOnly Q x)
    (hf : ∀ a, x = .ok a → Yields P Q (f a)) : Yields P Q (x >>= f) := by
  cases x with
  | ok a => exact hf a rfl
  | error e => exact fail (hx e rfl)

theorem imp {x : Except ε β} (hx : Yields P Q x) (h : ∀ b, P b → P' b) : Yields P' Q x :=
  ⟨fun b hb => h b (hx.ok b hb), hx.error⟩

end Yields

end Results

/-! ## Slots and what they take -/

/-- The operands that a slot takes. Variables and labels have a name, and a type is
one that a line of input can be read as. -/
def Slot.accepts : Slot → Operand → Bool
  | .var, .var v => v.name != ""
  | .symb, .var v => v.name != ""
  | .symb, .const _ => true
  | .label, .label name => name != ""
  | .type, .type tag => tag.isReadable
  | _, _ => false

/-- The operands match the signature of the opcode in number and kind. -/
def Instruction.Conforms (i : Instruction) : Prop :=
  List.Forall₂ (fun slot o => slot.accepts o = true) i.opcode.signature i.operands

namespace Slot

theorem accepts_var_iff {slot : Slot} {v : Variable} :
    slot.accepts (.var v) = true ↔ (slot = .var ∨ slot = .symb) ∧ v.name ≠ "" := by
  cases slot <;> simp [accepts]

theorem accepts_const_iff {slot : Slot} {value : Value} :
    slot.accepts (.const value) = true ↔ slot = .symb := by
  cases slot <;> simp [accepts]

theorem accepts_label_iff {slot : Slot} {name : String} :
    slot.accepts (.label name) = true ↔ slot = .label ∧ name ≠ "" := by
  cases slot <;> simp [accepts]

theorem accepts_type_iff {slot : Slot} {tag : TypeTag} :
    slot.accepts (.type tag) = true ↔ slot = .type ∧ tag.isReadable = true := by
  cases slot <;> simp [accepts]

end Slot

theorem Slot.eq_label_of_accepts {o : Operand} (h : Slot.label.accepts o = true) :
    ∃ name, o = .label name ∧ name ≠ "" := by
  cases o with
  | label name => exact ⟨name, rfl, by simpa [Slot.accepts] using h⟩
  | var v => cases h
  | const value => cases h
  | type tag => cases h

namespace Instruction.Conforms

variable {i : Instruction} (h : i.Conforms)
include h

theorem operand?_eq_some {k : Nat} {slot : Slot} (hs : i.opcode.signature[k]? = some slot) :
    ∃ o, i.operand? k = some o ∧ slot.accepts o = true := by
  obtain ⟨hk, rfl⟩ := List.getElem?_eq_some_iff.mp hs
  obtain ⟨hlen, hget⟩ := List.forall₂_iff_get.mp h
  refine ⟨i.operands.get ⟨k, hlen ▸ hk⟩, by simp [operand?], hget k hk (hlen ▸ hk)⟩

theorem exists_slot {o : Operand} (ho : o ∈ i.operands) : ∃ slot : Slot, slot.accepts o = true := by
  obtain ⟨hlen, hget⟩ := List.forall₂_iff_get.mp h
  obtain ⟨k, hk, rfl⟩ := List.mem_iff_getElem.mp ho
  exact ⟨_, hget k (hlen ▸ hk) hk⟩

theorem definedLabel?_eq_some_iff {name : String} : i.definedLabel? = some name ↔
    i.opcode = .label ∧ i.operands = [.label name] := by
  constructor
  · intro hname
    have hop : i.opcode = .label := by
      unfold definedLabel? at hname
      split at hname
      · assumption
      · cases hname
    -- the signature of a label leaves room for one operand
    have hsig := h
    simp only [Conforms, hop, Opcode.signature, List.forall₂_cons_left_iff,
      List.forall₂_nil_left_iff] at hsig
    obtain ⟨o, _, ho, rfl, hops⟩ := hsig
    obtain ⟨other, rfl, -⟩ := Slot.eq_label_of_accepts ho
    simp only [definedLabel?, hop, hops, Option.some.injEq] at hname
    exact ⟨hop, hname ▸ hops⟩
  · intro hright
    obtain ⟨hop, hops⟩ := hright
    simp [definedLabel?, hop, hops]

end Instruction.Conforms

/-- Where the signature asks for a symbol, there is a constant or a variable. -/
theorem Instruction.not_conforms_of_symb {i : Instruction} {k : Nat}
    (hs : i.opcode.signature[k]? = some .symb) (hconst : ∀ x, i.operand? k ≠ some (.const x))
    (hvar : ∀ v, i.operand? k ≠ some (.var v)) : ¬i.Conforms := by
  intro hi
  obtain ⟨o, ho, hfit⟩ := hi.operand?_eq_some hs
  cases o with
  | const value => exact hconst value ho
  | var v => exact hvar v ho
  | label name | type tag => cases hfit

theorem Variable.ofText?_eq_some {text : String} {v : Variable} (h : Variable.ofText? text = some v) :
    ∃ mark, Text.cut? '@' text.toList = some (mark, v.name.toList) ∧
      FrameKind.ofMark? (String.ofList mark) = some v.frame ∧ v.name ≠ "" := by
  simp only [Variable.ofText?, Option.bind_eq_bind, Option.bind_eq_some_iff] at h
  obtain ⟨⟨mark, name⟩, hcut, frame, hframe, h⟩ := h
  split at h
  · cases h
  · next hname =>
    cases h
    exact ⟨mark, by simpa using hcut, hframe, by simpa using hname⟩

theorem Operand.eq_const_of_read {tag : TypeTag} {text : List Char} {o : Operand}
    (h : Operand.read (.value tag) text = .ok o) : ∃ value, o = .const value := by
  cases tag with
  | int =>
    simp only [Operand.read] at h
    split at h
    · exact ⟨_, (Except.ok.inj h).symm⟩
    · split at h
      · exact ⟨_, (Except.ok.inj h).symm⟩
      · cases h
  | bool =>
    simp only [Operand.read] at h
    split at h
    · exact ⟨_, (Except.ok.inj h).symm⟩
    · split at h
      · exact ⟨_, (Except.ok.inj h).symm⟩
      · cases h
  | string => exact ⟨_, (Except.ok.inj h).symm⟩
  | nil =>
    simp only [Operand.read] at h
    split at h
    · exact ⟨_, (Except.ok.inj h).symm⟩
    · cases h

/-- All that reading a text can give, by the kind that the argument states. -/
inductive Operand.Reading (text : List Char) : OperandKind → Operand → Prop
  | var {v : Variable} (named : Variable.ofText? (String.ofList text) = some v) :
    Reading text .var (.var v)
  | const {tag : TypeTag} (value : Value) : Reading text (.value tag) (.const value)
  | label (given : text ≠ []) : Reading text .label (.label (String.ofList text))
  | type {tag : TypeTag} (readable : tag.isReadable = true) : Reading text .type (.type tag)

theorem Operand.reading_of_read {kind : OperandKind} {text : List Char} {o : Operand}
    (h : Operand.read kind text = .ok o) : Operand.Reading text kind o := by
  cases kind with
  | var =>
    simp only [Operand.read] at h
    split at h
    · next v hv =>
      cases h
      exact .var hv
    · cases h
  | value tag =>
    obtain ⟨value, rfl⟩ := Operand.eq_const_of_read h
    exact .const value
  | label =>
    simp only [Operand.read] at h
    split at h
    · cases h
    · next hne =>
      cases h
      exact .label hne
  | type =>
    simp only [Operand.read] at h
    split at h
    · next tag htag =>
      cases h
      exact .type (Option.filter_eq_some_iff.mp htag).2
    · cases h

theorem Operand.accepts_of_read {kind : OperandKind} {slot : Slot} {text : List Char} {o : Operand}
    (hf : kind.fits slot = true) (h : Operand.read kind text = .ok o) : slot.accepts o = true := by
  cases Operand.reading_of_read h with
  | var named =>
    obtain ⟨_, _, _, hname⟩ := Variable.ofText?_eq_some named
    exact Slot.accepts_var_iff.mpr ⟨by cases slot <;> simp_all [OperandKind.fits], hname⟩
  | const value => exact Slot.accepts_const_iff.mpr (by cases slot <;> simp_all [OperandKind.fits])
  | label given =>
    exact Slot.accepts_label_iff.mpr ⟨by cases slot <;> simp_all [OperandKind.fits], by simpa using given⟩
  | type readable =>
    exact Slot.accepts_type_iff.mpr ⟨by cases slot <;> simp_all [OperandKind.fits], readable⟩

/-! ## Decoding taken apart -/

theorem Argument.operand_eq_ok {a : Argument} {op : Opcode} {index : Nat} {slot : Slot} {o : Operand}
    (h : a.operand op index slot = .ok o) :
    ∃ name kind, a.kind = some name ∧ OperandKind.ofName? name = some kind ∧
      kind.fits slot = true ∧ Operand.read kind (Text.trim Text.isPadding a.text.toList) = .ok o := by
  unfold Argument.operand at h
  split at h
  · cases h
  · next name hname =>
    split at h
    · cases h
    · next kind hkind =>
      split at h
      · next hfits => exact ⟨name, kind, hname, hkind, hfits, h⟩
      · cases h

namespace Node

theorem decode_eq_ok_iff {n : Node} {k : Nat} {i : Instruction} :
    n.decode k = .ok i ↔ ∃ op args ops, n.opcodeOf = .ok op ∧ n.arguments = .ok args ∧
      args.length = op.arity ∧ operands op 1 op.signature args = .ok ops ∧ i = ⟨k, op, ops⟩ := by
  simp only [decode, bind_eq_ok_iff]
  constructor
  · intro hleft
    obtain ⟨op, hop, args, hargs, h⟩ := hleft
    split at h
    · cases h
    · next hlen =>
      simp only [bind_eq_ok_iff, pure_eq_ok_iff] at h
      obtain ⟨ops, hops, rfl⟩ := h
      exact ⟨op, args, ops, hop, hargs, by simpa using hlen, hops, rfl⟩
  · intro hright
    obtain ⟨op, args, ops, hop, hargs, hlen, hops, rfl⟩ := hright
    refine ⟨op, hop, args, hargs, ?_⟩
    simp [hlen, hops]

/-- Where an instruction is placed has no part in decoding it. -/
theorem decode_place {n : Node} {k : Nat} {i : Instruction} (h : n.decode k = .ok i) (k' : Nat) :
    n.decode k' = .ok { i with position := k' } := by
  obtain ⟨op, args, ops, hop, hargs, hlen, hops, rfl⟩ := decode_eq_ok_iff.mp h
  exact decode_eq_ok_iff.mpr ⟨op, args, ops, hop, hargs, hlen, hops, rfl⟩

/-- As many operands as slots, and each one read from the argument in its place. -/
theorem forall₂_of_operands {op : Opcode} {P : Slot → Operand → Prop}
    {args : List Argument} (hP : ∀ a ∈ args, ∀ k slot o, a.operand op k slot = .ok o → P slot o)
    {k : Nat} {slots : List Slot} {ops : List Operand} (hlen : args.length = slots.length)
    (h : operands op k slots args = .ok ops) : List.Forall₂ P slots ops := by
  induction slots generalizing args k ops with
  | nil =>
    obtain rfl : args = [] := List.length_eq_zero_iff.mp hlen
    cases h
    exact .nil
  | cons slot slots ih =>
    cases args with
    | nil => cases hlen
    | cons a args =>
      simp only [operands, bind_eq_ok_iff, pure_eq_ok_iff] at h
      obtain ⟨o, ho, rest, hrest, rfl⟩ := h
      have hP' := fun b hb => hP b (List.mem_cons_of_mem a hb)
      exact .cons (hP a List.mem_cons_self k slot o ho)
        (ih hP' (Nat.succ.inj hlen) hrest)

theorem arguments_subset {n : Node} {args : List Argument} (h : n.arguments = .ok args) :
    args ⊆ n.children := by
  simp only [arguments, bind_eq_ok_iff] at h
  obtain ⟨_, -, h⟩ := h
  have hfound : ∀ {tag a}, n.children.find? (fun a => a.tag == tag) = some a → a ∈ n.children :=
    fun hfind => List.mem_of_find?_eq_some hfind
  split at h
  · cases h
    exact List.nil_subset _
  · next ha _ _ =>
    cases h
    simp [hfound ha]
  · next ha hb _ =>
    cases h
    simp [hfound ha, hfound hb]
  · next ha hb hc =>
    cases h
    simp [hfound ha, hfound hb, hfound hc]
  · cases h
  · cases h

/-- What holds of every operand that a child of the node can give holds of the operands
that it decodes to. -/
theorem forall_operands_of_decode {n : Node} {k : Nat} {i : Instruction} (h : n.decode k = .ok i)
    {P : Operand → Prop}
    (hP : ∀ a ∈ n.children, ∀ op k slot o, a.operand op k slot = .ok o → P o) :
    ∀ o ∈ i.operands, P o := by
  obtain ⟨op, args, ops, -, hargs, hlen, hops, rfl⟩ := decode_eq_ok_iff.mp h
  have hall : List.Forall₂ (fun _ o => P o) op.signature ops :=
    forall₂_of_operands (fun a ha k slot o => hP a (arguments_subset hargs ha) op k slot o) hlen hops
  obtain ⟨hsame, hget⟩ := List.forall₂_iff_get.mp hall
  intro o ho
  obtain ⟨index, hindex, rfl⟩ := List.mem_iff_getElem.mp ho
  exact hget index (hsame ▸ hindex) hindex

/-- What a node decodes to fits the signature of its opcode. -/
theorem conforms_of_decode {n : Node} {k : Nat} {i : Instruction} (h : n.decode k = .ok i) :
    i.Conforms := by
  obtain ⟨op, args, ops, -, -, hlen, hops, rfl⟩ := decode_eq_ok_iff.mp h
  refine forall₂_of_operands (fun a _ k slot o ho => ?_) hlen hops
  obtain ⟨_, kind, _, _, hfits, hread⟩ := Argument.operand_eq_ok ho
  exact Operand.accepts_of_read hfits hread

end Node

end FrameCode
