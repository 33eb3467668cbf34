import FrameCode.Proofs.Host

/-! One LABEL more. A label that no instruction names can be put in anywhere: what follows
moves on by one position, and a run of the new program takes one instruction more each time
it falls through the new label. The two runs are therefore not in step; after each
instruction of the old program the new one catches up (`Insertion.catch_up`). -/

namespace FrameCode

namespace Insertion

/-- Where the instruction at `k` stands once another one has been put in at `gap`. -/
def shifted (gap k : Nat) : Nat := if k < gap then k else k + 1

variable {gap k : Nat}

theorem shifted_of_lt (h : k < gap) : shifted gap k = k := if_pos h

theorem shifted_of_le (h : gap ≤ k) : shifted gap k = k + 1 := if_neg (Nat.not_lt.mpr h)

/-- The instruction after the one before the gap is the one that was put in. -/
theorem shifted_succ : shifted gap k + 1 = shifted gap (k + 1) ∨
    k + 1 = gap ∧ shifted gap k + 1 = gap := by
  unfold shifted
  split <;> split <;> omega

theorem shifted_succ_succ : shifted (gap + 1) (k + 1) = shifted gap k + 1 := by
  unfold shifted
  split <;> split <;> omega

/-- Every position but the gap is one that an instruction moved to. -/
theorem exists_shifted (h : k ≠ gap) : ∃ j, shifted gap j = k := by
  rcases Nat.lt_or_gt_of_ne h with hlt | hgt
  · exact ⟨k, shifted_of_lt hlt⟩
  · refine ⟨k - 1, ?_⟩
    rw [shifted_of_le (Nat.le_sub_one_of_lt hgt)]
    omega

/-- All instructions after the gap move on. How many instructions are executed, and what
diagnostics say, is open. -/
def correspondence (gap : Nat) : Correspondence where
  names := .identity
  place := shifted gap
  counts _ _ := True
  sinks s s' := s.Accepts ∧ s'.Accepts

theorem lawful (gap : Nat) : (correspondence gap).Lawful :=
  Correspondence.lawful_of_accepts (fun _ => trivial) Iff.rfl

theorem instruction_eq (gap : Nat) (i : Instruction) :
    (correspondence gap).instruction i = { i with position := shifted gap i.position } := by
  simp only [Correspondence.instruction, correspondence, Instruction.rename_identity]

/-- The second program is the first one with a label put in at the gap. -/
structure Inserts (gap : Nat) (p p' : Program) : Prop where
  programs : (correspondence gap).Programs p p'
  label : ∃ i, p'.fetch? gap = some i ∧ i.opcode = .label

/-! ## Runs -/

/-- The second machine has what the first one has, and is at the corresponding position or
still at the label in front of it. -/
structure Lags (gap : Nat) (m m' : Machine) : Prop where
  machines : (correspondence gap).Machines m { m' with position := shifted gap m.position }
  place : m'.position = shifted gap m.position ∨ m.position = gap ∧ m'.position = gap

section Runs

variable {p p' : Program} (hp : Inserts gap p p') {m m' : Machine}
include hp

theorem one_le_gap : 1 ≤ gap := by
  obtain ⟨_, hi, _⟩ := hp.label
  exact (Program.bounds_of_fetch? hi).1

/-- A machine at the label goes through it. -/
theorem catch_up (h : Lags gap m m') : ∃ n next, m'.run p' n = .running next ∧
    (correspondence gap).Machines m next := by
  rcases h.place with hplace | ⟨hgap, hgap'⟩
  · refine ⟨0, m', rfl, ?_⟩
    have hmachines := h.machines
    rwa [← hplace] at hmachines
  · obtain ⟨i, hi, hop⟩ := hp.label
    rw [← hgap'] at hi
    have hadvance : m'.advance p' = .running { m'.counted with position := m'.position + 1 } := by
      rw [Machine.advance_of_some hi]
      simp only [Machine.step, hop, Step.progress]
      rfl
    refine ⟨1, _, Machine.run_succ_of_running hadvance 0, ?_⟩
    have hposition : m'.position + 1 = shifted gap m.position := by
      rw [hgap, hgap', shifted_of_le (Nat.le_refl gap)]
    rw [hposition]
    exact { h.machines with executed := trivial }

/-- One instruction of the first program, and the second one stops as well or lags behind. -/
theorem advance (hm : (correspondence gap).Machines m m') :
    (∃ next next', m.advance p = .running next ∧ m'.advance p' = .running next' ∧
      Lags gap next next') ∨
    ∃ why next next', m.advance p = .stopped why next ∧
      m'.advance p' = .stopped ((correspondence gap).stop why) next' ∧
      (correspondence gap).Machines next next' := by
  have hproceeds := Correspondence.advance (lawful gap) hp.programs hm
  generalize m.advance p = r, m'.advance p' = r' at hproceeds ⊢
  cases hproceeds with
  | @running next next' machines place =>
    refine .inl ⟨next, next', rfl, rfl, machines, ?_⟩
    rcases place with hplace | ⟨k, hk, hk'⟩
    · exact .inl hplace
    · rw [hk, hk']
      exact shifted_succ
  | @stopped next next' why machines => exact .inr ⟨why, next, next', rfl, rfl, machines⟩

theorem run_stopped (hm : (correspondence gap).Machines m m') {n : Nat} {why : Stop} {last : Machine}
    (h : m.run p n = .stopped why last) : ∃ n' last',
      m'.run p' n' = .stopped ((correspondence gap).stop why) last' ∧
      (correspondence gap).Machines last last' := by
  induction n generalizing m m' with
  | zero => cases h
  | succ n ih =>
    rcases advance hp hm with ⟨next, next', hadv, hadv', hlags⟩ | ⟨_, last', end', hadv, hadv', hend⟩
    · rw [Machine.run_succ_of_running hadv] at h
      obtain ⟨j, caught, hcaught, hmachines⟩ := catch_up hp hlags
      obtain ⟨n', last', hrun, hlast⟩ := ih hmachines h
      refine ⟨j + n' + 1, last', ?_, hlast⟩
      rw [Machine.run_succ_of_running hadv', Machine.run_add_of_running hcaught, hrun]
    · rw [Machine.run_succ_of_stopped hadv] at h
      cases h
      exact ⟨1, end', Machine.run_succ_of_stopped hadv' 0, hend⟩

/-- The second program has executed at least as many instructions. -/
theorem run_running (hm : (correspondence gap).Machines m m') {n : Nat} {last : Machine}
    (h : m.run p n = .running last) : ∃ n' last', n ≤ n' ∧ m'.run p' n' = .running last' := by
  induction n generalizing m m' with
  | zero => exact ⟨0, m', Nat.le_refl 0, rfl⟩
  | succ n ih =>
    rcases advance hp hm with ⟨next, next', hadv, hadv', hlags⟩ | ⟨_, _, _, hadv, _, _⟩
    · rw [Machine.run_succ_of_running hadv] at h
      obtain ⟨j, caught, hcaught, hmachines⟩ := catch_up hp hlags
      obtain ⟨n', last', hle, hrun⟩ := ih hmachines h
      refine ⟨j + n' + 1, last', by omega, ?_⟩
      rw [Machine.run_succ_of_running hadv', Machine.run_add_of_running hcaught, hrun]
    · rw [Machine.run_succ_of_stopped hadv] at h
      cases h

/-- At the start there may be the label to go through. -/
theorem lags_start {host : Host} (hd : host.diagnostics.Accepts) :
    Lags gap (.start host) (.start host) := by
  refine ⟨⟨?_, .none, .nil, rfl, rfl, rfl, trivial, rfl, rfl, hd, hd⟩, ?_⟩
  · exact .empty
  · have hpos := one_le_gap hp
    show 1 = shifted gap 1 ∨ 1 = gap ∧ 1 = gap
    rcases Nat.lt_or_eq_of_le hpos with hlt | heq
    · exact .inl (shifted_of_lt hlt).symm
    · exact .inr ⟨heq, heq⟩

/-- From the start on, either both programs stop, in corresponding ways, or neither does. -/
theorem stops_iff {host : Host} (hd : host.diagnostics.Accepts) :
    ((∃ n why last, (Machine.start host).run p n = .stopped why last) ↔
      ∃ n why last, (Machine.start host).run p' n = .stopped why last) ∧
    ∀ n n' why why' last last', (Machine.start host).run p n = .stopped why last →
      (Machine.start host).run p' n' = .stopped why' last' →
      why' = (correspondence gap).stop why ∧ (correspondence gap).Machines last last' := by
  obtain ⟨j, first, hfirst, hmachines⟩ := catch_up hp (lags_start hp hd)
  have hstop : ∀ {n why last}, (Machine.start host).run p n = .stopped why last →
      ∃ n' last', (Machine.start host).run p' n' = .stopped ((correspondence gap).stop why) last' ∧
        (correspondence gap).Machines last last' := by
    intro n why last h
    obtain ⟨n', last', hrun, hlast⟩ := run_stopped hp hmachines h
    exact ⟨j + n', last', (Machine.run_add_of_running hfirst n').trans hrun, hlast⟩
  refine ⟨⟨fun ⟨n, why, last, h⟩ => ?_, fun ⟨n', why', last', h'⟩ => ?_⟩, ?_⟩
  · obtain ⟨n', last', hrun, -⟩ := hstop h
    exact ⟨n', _, last', hrun⟩
  · cases hrun : (Machine.start host).run p n' with
    | stopped why last => exact ⟨n', why, last, hrun⟩
    | running m =>
      -- the second program would still be running after as many instructions
      obtain ⟨n, last, hle, hrun⟩ := run_running hp hmachines hrun
      have hlong := Machine.run_of_stopped_within (Nat.le_trans hle (Nat.le_add_left n j)) h'
      rw [Machine.run_add_of_running hfirst, hrun] at hlong
      cases hlong
  · intro n n' why why' last last' h h'
    obtain ⟨_, end', hrun, hlast⟩ := hstop h
    obtain ⟨rfl, rfl⟩ := Machine.stop_unique h' hrun
    exact ⟨rfl, hlast⟩

end Runs

theorem flush_eq {m m' : Machine} (hm : (correspondence gap).Machines m m') :
    m'.host.flush = m.host.flush :=
  Host.flush_eq hm.diagnostics.1 hm.diagnostics.2 hm.output

/-! ## Loading -/

/-- A sorted list with one entry more is the same list with the entry put in. -/
theorem exists_split {sorted sorted' : List Entry} {e : Entry} (hperm : sorted'.Perm (e :: sorted))
    (hsorted : sorted.Pairwise fun a b => a.1 < b.1)
    (hsorted' : sorted'.Pairwise fun a b => a.1 < b.1) :
    ∃ lower upper, sorted = lower ++ upper ∧ sorted' = lower ++ e :: upper := by
  obtain ⟨lower, upper, rfl⟩ := List.append_of_mem (hperm.mem_iff.mpr List.mem_cons_self)
  refine ⟨lower, upper, ?_, rfl⟩
  have hrest : sorted.Perm (lower ++ upper) :=
    (List.perm_middle.symm.trans hperm).cons_inv.symm
  have hasc := hsorted'.sublist ((List.sublist_cons_self e upper).append_left lower)
  exact hrest.eq_of_pairwise (fun a b _ _ hab hba => absurd hab (Nat.lt_asymm hba)) hsorted hasc

theorem getElem?_insert (lower upper : List Entry) (e : Entry) (k : Nat) :
    (lower ++ e :: upper)[shifted lower.length k]? = (lower ++ upper)[k]? := by
  rcases Nat.lt_or_ge k lower.length with hlt | hge
  · rw [shifted_of_lt hlt, List.getElem?_append_left hlt, List.getElem?_append_left hlt]
  · rw [shifted_of_le hge, List.getElem?_append_right (Nat.le_succ_of_le hge),
      List.getElem?_append_right hge, Nat.succ_sub hge, List.getElem?_cons_succ]

theorem fetch?_program (d : Draft) (k : Nat) : d.program.fetch? (k + 1) =
    d.checked.toList[k]?.map fun e => { e.2 with position := k + 1 } := by
  rw [Program.fetch?_succ]
  simp only [Draft.program, List.getElem?_toArray, Draft.getElem?_instructions]

theorem fetch?_gap {d : Draft} {e : Entry} {lower upper : List Entry}
    (hd : d.checked.toList = lower ++ e :: upper) :
    d.program.fetch? (lower.length + 1) = some { e.2 with position := lower.length + 1 } := by
  rw [fetch?_program, hd, List.getElem?_append_right (Nat.le_refl _), Nat.sub_self]
  rfl

section Split

variable {d d' : Draft} {e : Entry} {lower upper : List Entry}
  (hd : d.checked.toList = lower ++ upper) (hd' : d'.checked.toList = lower ++ e :: upper)
include hd hd'

/-- Instructions before the new one stay, and those after it move on. -/
theorem fetch?_shifted (k : Nat) : d'.program.fetch? (shifted (lower.length + 1) k) =
    (d.program.fetch? k).map (correspondence (lower.length + 1)).instruction := by
  cases k with
  | zero => rfl
  | succ k =>
    rw [shifted_succ_succ, fetch?_program, fetch?_program, hd, hd', getElem?_insert, Option.map_map]
    simp only [Function.comp_def, instruction_eq, shifted_succ_succ]

/-- Labels stand for the instructions that they stood for, wherever these are now. -/
theorem resolve?_shifted (hp : d.program.WellFormed) (hp' : d'.program.WellFormed) {name : String}
    (hname : .label name ∉ e.2.operands) : d'.program.labels.resolve? name =
      (d.program.labels.resolve? name).map (shifted (lower.length + 1)) := by
  apply Option.ext
  intro k
  rw [hp'.resolve?_eq_some_iff, Option.map_eq_some_iff]
  constructor
  · rintro ⟨i, hi, hop, hops⟩
    -- it is not the new instruction, which has another operand
    have hk : k ≠ lower.length + 1 := by
      rintro rfl
      cases (fetch?_gap hd').symm.trans hi
      exact hname (hops ▸ List.mem_singleton_self _)
    obtain ⟨j, rfl⟩ := exists_shifted hk
    rw [fetch?_shifted hd hd', Option.map_eq_some_iff] at hi
    obtain ⟨i, hi, rfl⟩ := hi
    rw [instruction_eq] at hop hops
    exact ⟨j, hp.resolve?_eq_some_iff.mpr ⟨i, hi, hop, hops⟩, rfl⟩
  · rintro ⟨j, hj, rfl⟩
    obtain ⟨i, hi, hop, hops⟩ := hp.resolve?_eq_some_iff.mp hj
    refine ⟨_, by rw [fetch?_shifted hd hd', hi]; rfl, ?_⟩
    rw [instruction_eq]
    exact ⟨hop, hops⟩

end Split

/-- A node more gives an entry more, wherever it is written. -/
theorem reads_insert {before behind : List Node} {node : Node} {e : Entry} (hread : node.Reads e)
    {entries : List Entry} (h : List.Forall₂ Node.Reads (before ++ behind) entries) :
    ∃ entries', List.Forall₂ Node.Reads (before ++ node :: behind) entries' ∧
      entries'.Perm (e :: entries) := by
  induction before generalizing entries with
  | nil => exact ⟨e :: entries, .cons hread h, .refl _⟩
  | cons n before ih =>
    cases h with
    | @cons _ first _ rest hfirst hrest =>
      obtain ⟨entries', hall, hperm⟩ := ih hrest
      exact ⟨first :: entries', .cons hfirst hall, (hperm.cons first).trans (.swap e first rest)⟩

/-- A name that no instruction has as an operand is defined by no entry. -/
theorem not_mem_definedLabels {d : Draft} (hp : d.program.WellFormed) {entries : List Entry}
    (hperm : d.checked.toList.Perm entries) {name : String}
    (hname : ∀ i ∈ d.program.instructions, .label name ∉ i.operands) :
    name ∉ definedLabels (entries.map Prod.snd) := by
  intro hmem
  have hlabels := (hperm.map Prod.snd).filterMap Instruction.definedLabel?
  have hdefined : name ∈ definedLabels d.instructions := by
    rw [Draft.definedLabels_instructions]
    exact hlabels.mem_iff.mpr hmem
  obtain ⟨i, hi, hlabel⟩ := List.mem_filterMap.mp hdefined
  have hmember : i ∈ d.program.instructions := List.mem_toArray.mpr hi
  obtain ⟨-, hops⟩ := (hp.conforms i hmember).definedLabel?_eq_some_iff.mp hlabel
  exact hname i hmember (hops ▸ List.mem_singleton_self _)

/-- A label of a new order and a new name can be entered with the others. -/
theorem admits_insert {entries entries' : List Entry} (hadm : ({} : Draft).Admits entries)
    {order : Nat} {i : Instruction} (hperm : entries'.Perm ((order, i) :: entries))
    (horder : ∀ e ∈ entries, e.1 ≠ order) {name : String} (hlabel : i.definedLabel? = some name)
    (hname : name ∉ definedLabels (entries.map Prod.snd)) : ({} : Draft).Admits entries' := by
  refine Draft.empty_admits_iff.mpr ⟨?_, ?_⟩
  · refine (hperm.map Prod.fst).nodup_iff.mpr (List.nodup_cons.mpr ⟨?_, hadm.orders⟩)
    intro hmem
    obtain ⟨e, he, heq⟩ := List.mem_map.mp hmem
    exact horder e he heq
  · refine ((hperm.map Prod.snd).filterMap Instruction.definedLabel?).nodup_iff.mpr ?_
    rw [List.map_cons, List.filterMap_cons_some hlabel]
    exact List.nodup_cons.mpr ⟨hname, hadm.labels⟩

/-- Nodes with one label node more, of an order that is new and a name that no instruction
has, load to the program with one label more. -/
theorem load_insert {before behind : List Node} {node : Node} {p : Program} {order : Nat}
    {name : String} (h : Program.load (before ++ behind) = .ok p)
    (horder : node.statedOrder? = some order)
    (hnew : ∀ n ∈ before ++ behind, n.statedOrder? ≠ some order)
    (hlabel : node.decode order = .ok ⟨order, .label, [.label name]⟩)
    (hname : ∀ i ∈ p.instructions, .label name ∉ i.operands) :
    ∃ p' gap, Program.load (before ++ node :: behind) = .ok p' ∧
      p'.labels.resolve? name = some gap ∧ Inserts gap p p' := by
  have hp := Program.wellFormed_of_load h
  obtain ⟨entries, hall, hadm, rfl⟩ := Program.load_eq_ok_iff.mp h
  have hperm := Draft.toList_checked_perm hadm
  have hsorted := Draft.sorted_toList_checked (entries.foldl Draft.enter {})
  generalize entries.foldl Draft.enter {} = d at h hp hname hperm hsorted
  have hreads : node.Reads (order, ⟨order, .label, [.label name]⟩) := ⟨horder, hlabel⟩
  obtain ⟨entries', hall', hperm'⟩ := reads_insert hreads hall
  have hother : ∀ e ∈ entries, e.1 ≠ order := Program.forall_of_reads
    (fun n hn e hread heq => hnew n hn (hread.1.trans (congrArg some heq))) hall
  have hadm' := admits_insert hadm hperm' hother rfl (not_mem_definedLabels hp hperm hname)
  have hload' := Program.load_eq_ok_iff.mpr ⟨entries', hall', hadm', rfl⟩
  have hp' := Program.wellFormed_of_load hload'
  have hsorted' := Draft.sorted_toList_checked (entries'.foldl Draft.enter {})
  have hlist := (Draft.toList_checked_perm hadm').trans (hperm'.trans (hperm.symm.cons _))
  generalize entries'.foldl Draft.enter {} = d' at hload' hp' hsorted' hlist
  obtain ⟨lower, upper, hd, hd'⟩ := exists_split hlist hsorted hsorted'
  have hgap := fetch?_gap hd'
  refine ⟨d'.program, lower.length + 1, hload', ?_, ⟨fetch?_shifted hd hd', ?_⟩, _, hgap, rfl⟩
  · exact hp'.resolve?_eq_some_iff.mpr ⟨_, hgap, rfl, rfl⟩
  · intro k i hi other hother
    refine resolve?_shifted hd hd' hp hp' fun hmem => ?_
    obtain ⟨index, hindex, -⟩ := Program.fetch?_eq_some_iff.mp hi
    cases List.mem_singleton.mp hmem
    exact hname i (Array.mem_of_getElem? hindex) hother

end Insertion

/-- **A label that nobody names does not matter.** Nodes that load still do with one LABEL
node more, of an order that is new and a name that no instruction has for an operand. On
every input, with diagnostics that never fail, the new program ends if and only if the old
one does. Both then have the same status or errors of one class, and have written the same,
left the same input unread and the same global frame; the position of an error is the one
that its instruction moved to. -/
theorem run_insert_label {before behind : List Node} {node : Node} {p : Program} {order : Nat}
    {name : String} (h : Program.load (before ++ behind) = .ok p)
    (horder : node.statedOrder? = some order)
    (hnew : ∀ n ∈ before ++ behind, n.statedOrder? ≠ some order)
    (hlabel : node.decode order = .ok ⟨order, .label, [.label name]⟩)
    (hname : ∀ i ∈ p.instructions, .label name ∉ i.operands) :
    ∃ p' gap, Program.load (before ++ node :: behind) = .ok p' ∧
      p'.labels.resolve? name = some gap ∧
      ∀ host : Host, host.diagnostics.Accepts →
        ((∃ fuel result, p.run fuel host = some result) ↔
          ∃ fuel result, p'.run fuel host = some result) ∧
        ∀ fuel fuel' r r' m m', p.run fuel host = some (r, m) → p'.run fuel' host = some (r', m') →
          (∀ status, r = .ok status → r' = .ok status) ∧
          (∀ e, r = .error e → ∃ e', r' = .error e' ∧ e'.errorClass = e.errorClass ∧
            e'.position = if e.position < gap then e.position else e.position + 1) ∧
          m'.host.output.text = m.host.output.text ∧ m'.globals = m.globals ∧
          m'.host.input.lines = m.host.input.lines := by
  obtain ⟨p', gap, hload', hgap, hp⟩ := Insertion.load_insert h horder hnew hlabel hname
  refine ⟨p', gap, hload', hgap, fun host hd => ?_⟩
  obtain ⟨hiff, hsame⟩ := Insertion.stops_iff hp hd
  refine ⟨?_, fun fuel fuel' r r' m m' hrun hrun' => ?_⟩
  · rw [Machine.exists_run_eq_some_iff, Machine.exists_run_eq_some_iff]
    exact hiff
  · obtain ⟨why, hstop, rfl⟩ := Machine.run_eq_some_iff.mp hrun
    obtain ⟨why', hstop', rfl⟩ := Machine.run_eq_some_iff.mp hrun'
    obtain ⟨rfl, hm⟩ := hsame fuel fuel' why why' m m' hstop hstop'
    have hconclude := Correspondence.conclude hm (Insertion.flush_eq hm) why
    obtain ⟨hok, herror⟩ := hconclude.eq_ok_and_eq_error
    refine ⟨hok, fun e he => ⟨_, herror e he, Cause.errorClass_rename _ e.cause, rfl⟩, ?_⟩
    exact ⟨by rw [hm.output], hm.globals.eq_of_identity, by rw [hm.input]⟩

/-- The new label stands right behind a call, so that a return comes to it. -/
theorem run_insert_label_behind_call :
    let before : List Node := [
      { order := some "10", opcode := some "CALL", children := [⟨"arg1", some "label", "f"⟩] }]
    let node : Node :=
      { order := some "20", opcode := some "LABEL", children := [⟨"arg1", some "label", "new"⟩] }
    let behind : List Node := [
      { order := some "30", opcode := some "WRITE", children := [⟨"arg1", some "string", "a"⟩] },
      { order := some "40", opcode := some "LABEL", children := [⟨"arg1", some "label", "f"⟩] },
      { order := some "50", opcode := some "RETURN" }]
    ∃ p p' m, Program.load (before ++ behind) = .ok p ∧
      p.run 9 {} = some (.error ⟨4, .emptyCallStack⟩, m) ∧
      Program.load (before ++ node :: behind) = .ok p' ∧
      ∃ fuel e m', p'.run fuel {} = some (.error e, m') ∧ e.errorClass = .missingValue ∧
        e.position = 5 ∧ m'.host.output.text = "a" := by
  intro before node behind
  have hload : ∃ p, Program.load (before ++ behind) = .ok p ∧
      (∀ i ∈ p.instructions, .label "new" ∉ i.operands) ∧
      (p.run 9 {}).map (fun (r, m) => (r, m.host.output.text)) =
        some (.error ⟨4, .emptyCallStack⟩, "a") := ⟨_, rfl, by decide +kernel, by decide +kernel⟩
  obtain ⟨p, hp, hname, hanswer⟩ := hload
  obtain ⟨⟨_, m⟩, hrun, heq⟩ := Option.map_eq_some_iff.mp hanswer
  obtain ⟨rfl, htext⟩ := Prod.mk.inj heq
  have horder : node.statedOrder? = some 20 := rfl
  obtain ⟨p', gap, hp', hgap, hsame⟩ := run_insert_label hp horder (by decide) rfl hname
  have hgap' : ∃ q, Program.load (before ++ node :: behind) = .ok q ∧
      q.labels.resolve? "new" = some 2 := ⟨_, rfl, rfl⟩
  obtain ⟨_, hq, hplace⟩ := hgap'
  cases hp'.symm.trans hq
  cases hgap.symm.trans hplace
  obtain ⟨hends, hanswers⟩ := hsame {} ⟨fun _ _ _ => rfl, rfl⟩
  obtain ⟨fuel, ⟨r, m'⟩, hrun'⟩ := hends.mp ⟨9, _, hrun⟩
  obtain ⟨-, herror, hout, -, -⟩ := hanswers _ _ _ _ _ _ hrun hrun'
  obtain ⟨e, rfl, hclass, hpos⟩ := herror _ rfl
  exact ⟨p, p', m, hp, hrun, hp', fuel, e, m', hrun', hclass, hpos, hout.trans htext⟩

end FrameCode
