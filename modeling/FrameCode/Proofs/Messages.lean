import FrameCode.Proofs.LockStep
import FrameCode.Proofs.Refusal
import FrameCode.Proofs.Source.Assembled
import FrameCode.Proofs.Source.Legal

/-! Every message about a source text is one line. Messages quote words of a line, which hold no
line feed, and numbers. A run can quote no names but those of its program: under new names for
all others it would do the same (`RunError.oneLine_of_run`). -/

namespace FrameCode

namespace Text

/-- The text holds no line feed. -/
def OneLine (text : String) : Prop := '\n' ∉ text.toList

instance (text : String) : Decidable (OneLine text) :=
  inferInstanceAs (Decidable ('\n' ∉ text.toList))

theorem OneLine.append {text text' : String} (h : OneLine text) (h' : OneLine text') :
    OneLine (text ++ text') := by
  simpa [OneLine, not_or] using ⟨h, h'⟩

/-- How most messages quote a word: between two texts that are given. -/
theorem OneLine.quote {before word after : String} (h : OneLine word)
    (hbefore : OneLine before := by decide) (hafter : OneLine after := by decide) :
    OneLine (toString before ++ toString word ++ toString after) :=
  (hbefore.append h).append hafter

theorem oneLine_of_plain {text : String} (h : ∀ c ∈ text.toList, isPlain c = true) :
    OneLine text :=
  fun hmem => absurd (h _ hmem) (by decide)

theorem oneLine_ofNat (n : Nat) : OneLine (Decimal.ofNat n) := by
  intro hmem
  have hsolid := (Decimal.solid_of_isDigit (Decimal.isDigit_of_mem_ofNat hmem)).1
  exact absurd hsolid (by decide)

theorem oneLine_repr (n : Nat) : OneLine n.repr := oneLine_ofNat n

theorem oneLine_ofWord (n : Int64) : OneLine (Decimal.ofWord n) := by
  intro hmem
  rcases Decimal.mem_ofWord hmem with hsign | hdigit
  · exact absurd hsign (by decide)
  · exact absurd hdigit (by decide)

/-- Cutting at both ends adds nothing. -/
theorem OneLine.trim {text : String} (h : OneLine text) (set : Char → Bool) :
    OneLine (String.ofList (Text.trim set text.toList)) := by
  intro hmem
  rw [String.toList_ofList] at hmem
  exact h (mem_of_mem_trim hmem)

end Text

open Text

theorem Opcode.oneLine_mnemonic (op : Opcode) : OneLine op.mnemonic :=
  oneLine_of_plain fun _ => plain_mnemonic

theorem FrameKind.oneLine_mark (kind : FrameKind) : OneLine kind.mark := by
  cases kind <;> decide

theorem TypeTag.oneLine_name (tag : TypeTag) : OneLine tag.name := by
  cases tag <;> decide

theorem OperandKind.oneLine_of_ofName? {name : String} {kind : OperandKind}
    (h : ofName? name = some kind) : OneLine name := by
  unfold ofName? at h
  split_ifs at h with hvar hlabel htype
  · exact hvar ▸ by decide
  · exact hlabel ▸ by decide
  · exact htype ▸ by decide
  · obtain ⟨tag, htag, -⟩ := Option.map_eq_some_iff.mp h
    have hname : tag.name = name := by simpa using List.find?_some htag
    exact hname ▸ tag.oneLine_name

/-! ## Nodes that cannot be loaded -/

/-- No part of the node holds a line feed. -/
structure Node.OneLine (n : Node) : Prop where
  order : ∀ text, n.order = some text → Text.OneLine text
  opcode : ∀ name, n.opcode = some name → Text.OneLine name
  tags : ∀ a ∈ n.children, Text.OneLine a.tag
  kinds : ∀ a ∈ n.children, ∀ name, a.kind = some name → Text.OneLine name
  texts : ∀ a ∈ n.children, Text.OneLine a.text

theorem Operand.Misread.oneLine {word : String} {fault : NodeFault} (h : Misread word fault)
    (hword : OneLine word) : OneLine fault.text := by
  cases h with
  | label => decide
  | var | int | bool | nil | type => exact hword.quote

theorem Node.Objection.oneLine {n : Node} {fault : NodeFault} (h : n.Objection fault)
    (hn : n.OneLine) : Text.OneLine fault.text := by
  cases h with
  | noOpcode => decide
  | opcode stated => exact (hn.opcode _ stated).quote
  | unexpected child | duplicate child | noKind child =>
    exact (hn.tags _ child).quote
  | @gap tag known =>
    have htag : ∀ tag ∈ argumentTags, Text.OneLine tag := by decide
    exact (htag tag known).quote
  | count op found =>
    have hname := op.oneLine_mnemonic.quote (by decide : Text.OneLine ": ")
      (by decide : Text.OneLine " expects ")
    exact ((hname.append (oneLine_repr _)).append (by decide)).append (oneLine_repr found)
  | kind child stated => exact (hn.kinds _ child _ stated).quote
  | mismatch child stated op index =>
    have hname := op.oneLine_mnemonic.quote (by decide : Text.OneLine ": ")
      (by decide : Text.OneLine " operand ")
    exact (((hname.append (oneLine_repr index)).append (by decide)).append
      (hn.kinds _ child _ stated)).append (by decide)
  | text child misread => exact misread.oneLine ((hn.texts _ child).trim _)

theorem Draft.oneLine_of_orderOf {d : Draft} {n : Node} {e : LoadError} (hn : n.OneLine)
    (h : d.orderOf n = .error e) : Text.OneLine e.message := by
  unfold orderOf at h
  split at h
  · cases h
    exact (oneLine_repr _).quote
  · next text horder =>
    split at h
    · cases h
      exact (hn.order text horder).quote
    · split at h
      · cases h
        exact OneLine.append (by decide) (oneLine_repr _)
      · cases h

theorem Program.oneLine_of_load {nodes : List Node} (hnodes : ∀ n ∈ nodes, n.OneLine)
    {e : LoadError} (h : load nodes = .error e) : Text.OneLine e.message := by
  obtain ⟨k, n, d, hk, -, hadd⟩ := Draft.exists_refused (load_eq_error_iff.mp h)
  have hn := hnodes n (List.mem_of_getElem? hk)
  have hnode : ∀ order fault, Text.OneLine (NodeFault.text fault) →
      Text.OneLine (LoadError.node order fault).message := by
    intro order fault hfault
    exact (OneLine.append (by decide) (oneLine_repr order)).append hfault
  rcases Draft.cause_of_add hadd with
    horder | ⟨order, hstated, ⟨fault, hdecode, rfl⟩ | ⟨i, name, hi, hname, -, rfl⟩⟩
  · exact Draft.oneLine_of_orderOf hn horder
  · exact hnode order fault ((n.decode_objects order fault hdecode).oneLine hn)
  · have hread : n.Reads (order, i) := ⟨(Draft.orderOf_eq_ok_iff.mp hstated).1, hi⟩
    have hlabel : n.labelName? = some name := (Node.definedLabel?_of_reads hread).symm.trans hname
    have hline : Text.OneLine name := by
      unfold Node.labelName? at hlabel
      split at hlabel
      · obtain ⟨a, ha, rfl⟩ := Option.map_eq_some_iff.mp hlabel
        exact (hn.texts a (List.mem_of_find?_eq_some ha)).trim _
      · cases hlabel
    exact hnode order _ hline.quote

/-! ## Source texts -/

namespace Source

theorem plain_of_mem_instructionLines {text : String} {words : List Token}
    (h : words ∈ instructionLines text) {t : Token} (ht : t ∈ words) :
    ∀ c ∈ t.text.toList, isPlain c = true := by
  have hlines : words ∈ ((Text.lines text.toList).map Token.ofLine).filter (· ≠ []) := by
    unfold instructionLines at h
    split at h
    · next first rest hall =>
      rw [hall]
      split at h
      · exact List.mem_cons_of_mem _ h
      · exact h
    · cases h
  obtain ⟨line, -, rfl⟩ := List.mem_map.mp (List.mem_of_mem_filter hlines)
  exact Token.plain_of_mem_ofLine ht

theorem oneLine_of_assemble {text : String} {ns : List Node} (h : assemble text = .ok ns) :
    ∀ n ∈ ns, n.OneLine := by
  intro n hn
  obtain ⟨k, hk⟩ := List.getElem?_of_mem hn
  obtain ⟨head, args, hline, hwords⟩ := (fromWords_of_assemble h).2 k n hk
  have hhead : Text.OneLine head.text :=
    oneLine_of_plain (plain_of_mem_instructionLines (List.mem_of_getElem? hline) List.mem_cons_self)
  refine ⟨fun order horder => ?_, fun name hname => ?_, fun a ha => ?_, fun a ha name hname => ?_,
    fun a ha => oneLine_of_plain (plain_of_assemble h n hn a ha)⟩
  · cases hwords.order.symm.trans horder
    exact oneLine_ofNat _
  · cases hwords.opcode.symm.trans hname
    exact hhead
  · have htag : a.tag ∈ Node.argumentTags := by
      have hmem := List.mem_map_of_mem (f := Argument.tag) ha
      rw [hwords.tags] at hmem
      exact List.mem_of_mem_take hmem
    generalize a.tag = tag at htag ⊢
    revert tag
    decide
  · obtain ⟨_, kind, hkind, hknown⟩ := hwords.kinds a ha
    cases hkind.symm.trans hname
    exact OperandKind.oneLine_of_ofName? hknown

theorem FirstFault.oneLine {head : List Char} {args : List (List Char)} {fault : SourceFault}
    (h : FirstFault head args fault) (hwords : ∀ w ∈ head :: args, Text.OneLine (String.ofList w)) :
    Text.OneLine fault.text := by
  cases h with
  | directive dot => exact (hwords head List.mem_cons_self).quote
  | count _ _ => exact (oneLine_repr _).append (by decide)
  | operand _ _ here _ _ =>
    have hmem := List.mem_cons_of_mem head (List.mem_of_getElem? here)
    exact (hwords _ hmem).quote

theorem oneLine_of_error {text : String} {e : SourceError} (h : assemble text = .error e) :
    Text.OneLine e.message := by
  rw [assemble, content_eq] at h
  cases verdict_body 0 (Text.lines text.toList) with
  | passed nodes _ =>
    rw [nodes] at h
    cases h
  | @failed k head args fault here illegal _ error =>
    rw [error _ rfl] at h
    cases h
    obtain ⟨⟨line, -, hline⟩, -⟩ := here
    have hwords : ∀ w ∈ head :: args, Text.OneLine (String.ofList w) := by
      intro w hw
      rw [← Token.text_ofWord]
      exact oneLine_of_plain (Token.plain_of_mem_ofLine (List.mem_map_of_mem (hline ▸ hw)))
    have hnumber : Text.OneLine s!"line {0 + k + 1}: " := (oneLine_repr _).quote
    exact hnumber.append (illegal.oneLine hwords)

end Source

theorem Program.oneLine_of_ofSource {text : String} {e : BuildError}
    (h : ofSource text = .error e) : Text.OneLine e.message := by
  rcases bind_eq_error_iff.mp h with hassemble | ⟨ns, hns, hload⟩
  · obtain ⟨e, he, rfl⟩ := mapError_eq_error_iff.mp hassemble
    exact Source.oneLine_of_error he
  · obtain ⟨e, he, rfl⟩ := mapError_eq_error_iff.mp hload
    exact oneLine_of_load (Source.oneLine_of_assemble (mapError_eq_ok_iff.mp hns)) he

/-! ## Runs -/

/-- The second of two runs that differ in names stops if the first one does. -/
theorem Renaming.Runs.exists_stop {ρ : Renaming} {r r' : Progress} (h : ρ.Runs r r') {why : Stop}
    {m : Machine} (hr : r = .stopped why m) :
    ∃ m', r' = .stopped (ρ.correspondence.stop why) m' := by
  cases h with
  | running => cases hr
  | stopped why machines =>
    cases hr
    exact ⟨_, rfl⟩

/-- An error is not about a name that the program does not have: new names for those leave the
program as it is, and with it what it fails for. -/
theorem Cause.rename_of_run {p : Program} {ρ : Renaming}
    (hfixed : ∀ k i, p.fetch? k = some i → ∀ o ∈ i.operands, o.rename ρ = o) {host : Host}
    {fuel : Nat} {e : RunError} {m : Machine}
    (h : (Machine.start host).run p fuel = .stopped (.failed e) m) :
    e.cause.rename ρ = e.cause := by
  have hsame : ρ.correspondence.Programs p p := by
    refine ⟨fun k => ?_, fun k i hi name hname => ?_⟩
    · show p.fetch? k = (p.fetch? k).map ρ.correspondence.instruction
      cases hi : p.fetch? k with
      | none => rfl
      | some i =>
        have hoperands : i.operands.map (Operand.rename ρ) = i.operands :=
          (List.map_congr_left (hfixed k i hi)).trans (List.map_id _)
        show some i = some { i with operands := i.operands.map (Operand.rename ρ) }
        rw [hoperands]
    · have hlabel : ρ.label name = name := Operand.label.inj (hfixed k i hi _ hname)
      show p.labels.resolve? (ρ.label name) = (p.labels.resolve? name).map id
      rw [hlabel, Option.map_id_apply]
  obtain ⟨m', hm'⟩ :=
    (Renaming.run_of_programs hsame (Renaming.start ρ host) fuel).exists_stop h
  rw [h] at hm'
  have herror : e = ρ.correspondence.error e := Stop.failed.inj (Progress.stopped.inj hm').1
  exact (congrArg RunError.cause herror).symm

namespace Renaming

/-- Moves every name that holds a line feed, and no other. -/
def lengthen (name : String) : String := if Text.OneLine name then name else name ++ "\n"

theorem lengthen_eq_iff {name : String} : lengthen name = name ↔ Text.OneLine name := by
  unfold lengthen
  split <;> simp_all

theorem lengthen_injective : Function.Injective lengthen := by
  intro a b h
  have hbroken : ∀ name : String, ¬Text.OneLine (name ++ "\n") := by simp [Text.OneLine]
  unfold lengthen at h
  split at h
  · next ha =>
    split at h
    · exact h
    · exact absurd (h ▸ ha) (hbroken b)
  · split at h
    · next hb => exact absurd (h ▸ hb) (hbroken a)
    · simpa using h

/-- New names for what no source text can name. -/
def breaking : Renaming := ⟨lengthen, lengthen, lengthen_injective, lengthen_injective⟩

end Renaming

theorem Variable.oneLine_text {v : Variable} (h : OneLine v.name) : OneLine v.text :=
  (v.frame.oneLine_mark.append (by decide)).append h

theorem Fault.oneLine_text (op : Opcode) (fault : Fault) : OneLine (fault.text op) := by
  cases fault with
  | wrongType expected found =>
    exact ((op.oneLine_mnemonic.append (by decide)).append expected.oneLine_name).append
      (by decide) |>.append found.oneLine_name
  | incompatibleTypes left right =>
    exact ((op.oneLine_mnemonic.append (by decide)).append left.oneLine_name).append
      (by decide) |>.append right.oneLine_name
  | emptyReplacement =>
    show OneLine "SETCHAR replacement is empty"
    decide
  | divisionByZero =>
    show OneLine "division by zero"
    decide
  | invalidExitCode code => exact (oneLine_ofWord code).quote
  | indexOutOfRange index length =>
    exact (oneLine_ofWord index).quote.append (oneLine_repr length)
  | invalidCharCode code => exact (oneLine_ofWord code).append (by decide)

theorem Cause.oneLine_text {cause : Cause} (h : cause.rename .breaking = cause) :
    OneLine cause.text := by
  have hvariable : ∀ {v : Variable}, v.rename .breaking = v → OneLine v.text :=
    fun hv => Variable.oneLine_text (Renaming.lengthen_eq_iff.mp (congrArg Variable.name hv))
  cases cause with
  | undefinedFrame kind => exact kind.oneLine_mark.quote
  | undefinedVariable v =>
    exact (hvariable (Cause.undefinedVariable.inj h)).quote
  | redefinition v => exact (hvariable (Cause.redefinition.inj h)).quote
  | unsetVariable v => exact (hvariable (Cause.unsetVariable.inj h)).quote
  | undefinedLabel name =>
    have hname := Renaming.lengthen_eq_iff.mp (Cause.undefinedLabel.inj h)
    exact hname.quote
  | malformedOperand op index =>
    exact (oneLine_repr index).quote.append op.oneLine_mnemonic
  | rejected op fault => exact fault.oneLine_text op
  | emptyStack | emptyCallStack => decide
  | host message =>
    show OneLine "i/o failure"
    decide

/-- A run of a program with plain names fails with one line, if it is not the host that fails. -/
theorem RunError.oneLine_of_run {p : Program} (hp : p.PlainNames) {host : Host} {fuel : Nat}
    {e : RunError} {m : Machine} (h : (Machine.start host).run p fuel = .stopped (.failed e) m)
    (hcause : e.cause.isOrdinary = true) : OneLine e.message := by
  have hfixed : ∀ k i, p.fetch? k = some i → ∀ o ∈ i.operands, o.rename .breaking = o := by
    intro k i hi o ho
    obtain ⟨index, hindex, -⟩ := Program.fetch?_eq_some_iff.mp hi
    have hplain := hp i (Array.mem_of_getElem? hindex) o ho
    cases o with
    | var v =>
      have hname := Renaming.lengthen_eq_iff.mpr (oneLine_of_plain (List.all_eq_true.mp hplain))
      exact congrArg (fun name => Operand.var ⟨v.frame, name⟩) hname
    | label name =>
      have hname := Renaming.lengthen_eq_iff.mpr (oneLine_of_plain (List.all_eq_true.mp hplain))
      exact congrArg Operand.label hname
    | const value | type tag => rfl
  have hdetail : e.cause.detail = "" := by
    cases hc : e.cause with
    | host message =>
      rw [hc] at hcause
      cases hcause
    | _ => rfl
  have hposition : OneLine s!" at instruction {e.position}" :=
    OneLine.append (by decide) (oneLine_repr _)
  have htext := Cause.oneLine_text (Cause.rename_of_run hfixed h)
  exact (htext.append hposition).append (hdetail ▸ by decide)

end FrameCode
