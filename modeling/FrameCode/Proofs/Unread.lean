import FrameCode.Proofs.Host

/-! Lines that a run has not read. No instruction looks at the input but a read, which takes the
first line (`Machine.looks_step`). Hence the lines that are left in the end may be replaced by
others from the start, unless a read has found that there were none. -/

namespace FrameCode

def Host.withLines (host : Host) (lines : List String) : Host :=
  { host with input := { host.input with lines } }

/-- The same machine before other lines. -/
def Machine.withLines (m : Machine) (lines : List String) : Machine :=
  m.withHost (m.host.withLines lines)

def Step.withLines (s : Step) (lines : List String) : Step :=
  { s with machine := s.machine.withLines lines }

/-- The instruction asks for a line where there is none left. -/
def Execution.meetsEnd (e : Execution) : Bool :=
  match e.instruction.opcode, e.before.readOperands e.instruction, e.before.host.input.read.1 with
  | .read, .ok _, .ok none => true
  | _, _, _ => false

/-! ## One instruction -/

theorem Step.withHost_withLines {s : Step} {host : Host} (h : s.machine.host = host)
    (lines : List String) : s.withHost (host.withLines lines) = s.withLines lines := by
  subst h
  rfl

theorem Step.progress_withLines (s : Step) (lines : List String) :
    (s.withLines lines).progress = s.progress.map (·.withLines lines) := by
  obtain ⟨m, result⟩ := s
  rcases result with _ | _ | _ | _ <;> rfl

namespace Machine

variable (m : Machine) (lines : List String)

theorem write_withLines (text : String) :
    (m.withLines lines).write text = (m.write text).withLines lines := by
  have houtput : (m.withLines lines).host.output = m.host.output := rfl
  unfold write
  rw [houtput]
  generalize m.host.output.write text = w
  obtain ⟨answer, output⟩ := w
  cases answer <;> rfl

theorem diagnose_withLines (text : String) :
    (m.withLines lines).diagnose text = (m.diagnose text).withLines lines := by
  have hdiagnostics : (m.withLines lines).host.diagnostics = m.host.diagnostics := rfl
  unfold diagnose
  rw [hdiagnostics]
  generalize m.host.diagnostics.write text = w
  obtain ⟨answer, diagnostics⟩ := w
  cases answer <;> rfl

theorem withSymbol_withLines (i : Instruction) {k k' : Value → Step}
    (hk : ∀ x, k' x = (k x).withLines lines) :
    (m.withLines lines).withSymbol i k' = (m.withSymbol i k).withLines lines := by
  have hsymbol : (m.withLines lines).symbol i 0 = m.symbol i 0 := rfl
  unfold withSymbol
  rw [hsymbol]
  cases m.symbol i 0 with
  | error e => rfl
  | ok x => exact hk x

theorem update_assign_withLines (v : Variable) (x : Value) :
    (m.withLines lines).update ((m.withLines lines).assign v x) =
      (m.update (m.assign v x)).withLines lines := by
  have hupdate (host : Host) := update_withHost m host (assign_withHost m host v x)
  have hhost : (m.update (m.assign v x)).machine.host = m.host :=
    congrArg (fun s => s.machine.host) (hupdate m.host)
  exact (hupdate _).trans (Step.withHost_withLines hhost lines)

variable {m} {i : Instruction}

/-- What an instruction does with the input. These are all the possibilities. -/
inductive Looks (labels : LabelTable) (i : Instruction) (m : Machine) : Prop
  | nowhere (same : ∀ lines, (m.withLines lines).step labels i = (m.step labels i).withLines lines)
  | first (met : m.host.input.lines = [] → Execution.meetsEnd ⟨i, m, m.step labels i⟩ = true)
    (same : ∀ lines, lines.head? = m.host.input.lines.head? →
      (m.withLines lines).step labels i = (m.step labels i).withLines lines.tail)

theorem looks_read (labels : LabelTable) (hop : i.opcode = .read) : m.Looks labels i := by
  have hstep : ∀ m : Machine, m.step labels i = m.read i := fun m => by simp only [step, hop]
  have hsame (lines : List String) : (m.withLines lines).readOperands i = m.readOperands i := rfl
  cases ho : m.readOperands i with
  | error e =>
    refine .nowhere fun lines => ?_
    rw [hstep, hstep, read_of_error ((hsame lines).trans ho), read_of_error ho]
    rfl
  | ok o =>
    obtain ⟨v, tag⟩ := o
    cases hrefusal : m.host.input.refusal m.host.input.reads with
    | some message =>
      have hread (lines : List String) : (m.withLines lines).host.input.read =
          (.error message, { m.host.input with lines, reads := m.host.input.reads + 1 }) := by
        simp only [Input.read, withLines, withHost, Host.withLines, hrefusal]
      refine .nowhere fun lines => ?_
      rw [hstep, hstep, read_of_refusal ((hsame lines).trans ho) (hread lines),
        read_of_refusal ho (hread m.host.input.lines)]
      rfl
    | none =>
      have hread (lines : List String) : (m.withLines lines).host.input.read = (.ok lines.head?,
          { m.host.input with lines := lines.tail, reads := m.host.input.reads + 1 }) := by
        simp only [Input.read, withLines, withHost, Host.withLines, hrefusal]
      have hread' : m.host.input.read = _ := hread m.host.input.lines
      refine .first (fun hlines => ?_) fun lines hhead => ?_
      · simp only [Execution.meetsEnd, hop, ho, hread', hlines, List.head?_nil]
      · rw [hstep, hstep, read_of_line ((hsame lines).trans ho) (hread lines),
          read_of_line ho hread', hhead]
        refine .trans ?_ (update_assign_withLines _ lines.tail v _)
        rfl

/-- **Only a read looks at the input, and only at its first line.** -/
theorem looks_step (labels : LabelTable) (i : Instruction) (m : Machine) : m.Looks labels i := by
  cases huses : i.opcode.usesHost with
  | false =>
    refine .nowhere fun lines => ?_
    have hsame := step_withHost huses labels m (m.host.withLines lines)
    exact hsame.trans (Step.withHost_withLines (host_step huses labels m) lines)
  | true =>
    cases hop : i.opcode with
    | read => exact looks_read labels hop
    | write =>
      refine .nowhere fun lines => ?_
      simp only [step, hop]
      exact withSymbol_withLines m lines i fun x => write_withLines m lines _
    | dprint =>
      refine .nowhere fun lines => ?_
      simp only [step, hop]
      exact withSymbol_withLines m lines i fun x => diagnose_withLines m lines _
    | breakpoint =>
      refine .nowhere fun lines => ?_
      simp only [step, hop]
      exact diagnose_withLines m lines m.report
    | _ =>
      rw [hop] at huses
      cases huses

theorem Looks.suffix {labels : LabelTable} (h : m.Looks labels i) :
    (m.step labels i).machine.host.input.lines <:+ m.host.input.lines := by
  cases h with
  | nowhere same =>
    have hkept := congrArg (fun s => s.machine.host.input.lines) (same m.host.input.lines)
    exact hkept ▸ List.suffix_refl _
  | first met same =>
    have hleft := congrArg (fun s => s.machine.host.input.lines) (same m.host.input.lines rfl)
    exact hleft ▸ List.tail_suffix _

/-- The lines that an instruction leaves may have been others. -/
theorem Looks.replace {labels : LabelTable} (h : m.Looks labels i) {I R : List String}
    (hlines : m.host.input.lines = I ++ R)
    (hleft : R <:+ (m.step labels i).machine.host.input.lines)
    (hend : Execution.meetsEnd ⟨i, m, m.step labels i⟩ = false) :
    ∃ J, (m.step labels i).machine.host.input.lines = J ++ R ∧
      ∀ R', (m.withLines (I ++ R')).step labels i = (m.step labels i).withLines (J ++ R') := by
  cases h with
  | nowhere same =>
    have hkept := congrArg (fun s => s.machine.host.input.lines) (same m.host.input.lines)
    exact ⟨I, hkept.trans hlines, fun R' => same (I ++ R')⟩
  | first met same =>
    have htail := congrArg (fun s => s.machine.host.input.lines) (same m.host.input.lines rfl)
    cases I with
    | cons line J =>
      refine ⟨J, htail.trans ?_, fun R' => same (line :: J ++ R') ?_⟩
      · exact congrArg List.tail hlines
      · exact (congrArg List.head? hlines).symm
    | nil =>
      -- the line that the read takes is one of those that are left
      cases R with
      | nil =>
        rw [met hlines] at hend
        cases hend
      | cons line R =>
        have hshort : R = (m.step labels i).machine.host.input.lines :=
          ((congrArg List.tail hlines).symm.trans htail.symm)
        exact absurd (hshort ▸ hleft).length_le (by simp)

/-! ## Runs -/

section Advance

variable (p : Program) (i : Instruction) (m : Machine)

theorem suffix_progress :
    (m.execution p i).outcome.progress.machine.host.input.lines <:+ m.host.input.lines := by
  rw [Step.host_progress]
  exact (looks_step p.labels i m.counted).suffix

variable {p i m}

theorem advance_replace (hi : p.fetch? m.position = some i) {I R : List String}
    (hlines : m.host.input.lines = I ++ R)
    (hleft : R <:+ (m.execution p i).outcome.progress.machine.host.input.lines)
    (hend : (m.execution p i).meetsEnd = false) :
    ∃ J, (m.execution p i).outcome.progress.machine.host.input.lines = J ++ R ∧
      ∀ R', (m.withLines (I ++ R')).advance p =
        (m.execution p i).outcome.progress.map (·.withLines (J ++ R')) := by
  rw [Step.host_progress] at hleft ⊢
  obtain ⟨J, hJ, hstep⟩ := (looks_step p.labels i m.counted).replace hlines hleft hend
  refine ⟨J, hJ, fun R' => ?_⟩
  calc (m.withLines (I ++ R')).advance p
      = ((m.withLines (I ++ R')).counted.step p.labels i).progress := advance_of_some hi
    _ = ((m.execution p i).outcome.withLines (J ++ R')).progress :=
        congrArg Step.progress (hstep R')
    _ = (m.execution p i).outcome.progress.map (·.withLines (J ++ R')) :=
        Step.progress_withLines _ _

end Advance

namespace Passes

variable {p : Program} {fuel : Nat} {m : Machine} {done : List Execution} {r : Progress}

theorem suffix (h : Passes p fuel m done r) :
    r.machine.host.input.lines <:+ m.host.input.lines := by
  induction h with
  | pause m => exact List.suffix_refl _
  | ended none => exact List.suffix_refl _
  | @stopped fuel m m' i why fetched outcome => exact outcome ▸ suffix_progress p i m
  | @running fuel m m' i done r fetched outcome rest ih =>
    have hfirst := suffix_progress p i m
    rw [outcome] at hfirst
    exact ih.trans hfirst

/-- The lines that a run leaves may have been others. The induction follows the first run; the
second one is put together on the way. -/
theorem replace (h : Passes p fuel m done r) {I R : List String}
    (hlines : m.host.input.lines = I ++ R) (hleft : R <:+ r.machine.host.input.lines)
    (hend : ∀ e ∈ done, e.meetsEnd = false) :
    ∃ J, r.machine.host.input.lines = J ++ R ∧
      ∀ R', (m.withLines (I ++ R')).run p fuel = r.map (·.withLines (J ++ R')) := by
  induction h generalizing I with
  | pause m => exact ⟨I, hlines, fun R' => rfl⟩
  | @ended fuel m none =>
    refine ⟨I, hlines, fun R' => ?_⟩
    have hnone : p.fetch? (m.withLines (I ++ R')).position = .none := none
    exact run_succ_of_stopped (advance_of_none hnone) fuel
  | @stopped fuel m m' i why fetched outcome =>
    have hadvance := advance_replace fetched hlines (by rwa [outcome]) (hend _ List.mem_cons_self)
    rw [outcome] at hadvance
    obtain ⟨J, hJ, hadvance⟩ := hadvance
    exact ⟨J, hJ, fun R' => run_succ_of_stopped (hadvance R') fuel⟩
  | @running fuel m m' i done r fetched outcome rest ih =>
    -- what is left in the end is left now
    have hleft' : R <:+ m'.host.input.lines := hleft.trans rest.suffix
    have hadvance := advance_replace fetched hlines (by rwa [outcome]) (hend _ List.mem_cons_self)
    rw [outcome] at hadvance
    obtain ⟨J, hJ, hadvance⟩ := hadvance
    obtain ⟨K, hK, hrun⟩ := ih hJ hleft fun e he => hend e (List.mem_cons_of_mem _ he)
    exact ⟨K, hK, fun R' => (run_succ_of_running (hadvance R') fuel).trans (hrun R')⟩

end Passes

theorem result_withLines {p : Program} {n : Nat} {host host' : Host} {lines : List String}
    (h : (start host').run p n = ((start host).run p n).map (·.withLines lines)) :
    (p.run n host').map Prod.fst = (p.run n host).map Prod.fst := by
  unfold Program.run
  rw [h]
  cases (start host).run p n <;> rfl

/-- **Lines that have not been read cannot make a difference.** Let a run of any program on the
lines `I ++ R` have left at least the lines `R`, and let none of its reads have met the end of
the input. Then the run on `I ++ R'` does just the same, and what it leaves is the same with
`R'` in the place of `R`. -/
theorem run_unread {p : Program} {host : Host} {I R : List String} {n : Nat}
    (hleft : R <:+ ((start (host.withLines (I ++ R))).run p n).machine.host.input.lines)
    (hend : ∀ e ∈ (start (host.withLines (I ++ R))).history p n, e.meetsEnd = false)
    (R' : List String) :
    ∃ J, ((start (host.withLines (I ++ R))).run p n).machine.host.input.lines = J ++ R ∧
      (start (host.withLines (I ++ R'))).run p n =
        ((start (host.withLines (I ++ R))).run p n).map (·.withLines (J ++ R')) ∧
      (p.run n (host.withLines (I ++ R'))).map Prod.fst =
        (p.run n (host.withLines (I ++ R))).map Prod.fst := by
  have hpasses := passes_run p n (start (host.withLines (I ++ R)))
  obtain ⟨J, hJ, hrun⟩ := hpasses.replace rfl hleft hend
  exact ⟨J, hJ, hrun R', result_withLines (hrun R')⟩

/-- A program that reads two lines and then fails, on three lines and on two. -/
theorem run_unread_third_line :
    let x : Operand := .var ⟨.globals, "x"⟩
    let p : Program := {
      instructions := #[⟨1, .defVar, [x]⟩, ⟨2, .read, [x, .type .string]⟩, ⟨3, .write, [x]⟩,
        ⟨4, .read, [x, .type .int]⟩, ⟨5, .popFrame, []⟩]
      labels := .empty }
    let host : Host := Host.withLines {} ["a", "1", "b"]
    let host' : Host := Host.withLines {} ["a", "1"]
    ((start host).run p 9).machine.host.input.lines = ["b"] ∧
      (start host').run p 9 = ((start host).run p 9).map (·.withLines []) ∧
      (p.run 9 host').map Prod.fst = some (.error ⟨5, .undefinedFrame .locals⟩) := by
  intro x p host host'
  have hlines : ((start host).run p 9).machine.host.input.lines = ["b"] := by decide +kernel
  have hend : ∀ e ∈ (start host).history p 9, e.meetsEnd = false := by decide +kernel
  have hresult : (p.run 9 host).map Prod.fst = some (.error ⟨5, .undefinedFrame .locals⟩) := by
    decide +kernel
  -- from here on it does not matter what the program is
  clear_value p
  have hleft : ["b"] <:+ ((start host).run p 9).machine.host.input.lines :=
    hlines ▸ List.suffix_refl _
  obtain ⟨J, hJ, hrun, hsame⟩ := run_unread (I := ["a", "1"]) hleft hend []
  have hnone : J = [] := List.append_left_eq_self.mp (hlines.symm.trans hJ).symm
  subst hnone
  exact ⟨hlines, hrun, hsame.trans hresult⟩

end Machine

end FrameCode
