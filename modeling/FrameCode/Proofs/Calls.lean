import FrameCode.Proofs.Run

/-! Where a subroutine comes back to. As long as a call is open, what lay on the call
stack when it was made lies there still, with the call's own position on top of it;
only the RETURN that takes this position off goes back to before the call. -/

namespace FrameCode.Machine

variable {p : Program} {m m' : Machine} {i : Instruction}

/-- What an instruction does to the calls that are open. -/
inductive CallChange (p : Program) (m : Machine) : Progress → Prop
  | kept {r : Progress} (same : r.machine.calls = m.calls) : CallChange p m r
  | opened {m' : Machine} (pushed : m'.calls = m.position :: m.calls) : CallChange p m (.running m')
  | closed {i : Instruction} {caller : Nat} {m' : Machine} (fetched : p.fetch? m.position = some i)
    (opcode : i.opcode = .ret) (popped : m.calls = caller :: m'.calls)
    (back : m'.position = caller + 1) : CallChange p m (.running m')

theorem advance_callChange (p : Program) (m : Machine) : CallChange p m (m.advance p) := by
  cases hi : p.fetch? m.position with
  | none =>
    rw [advance_of_none hi]
    exact .kept rfl
  | some i =>
    obtain ⟨-, turn⟩ := step_turns p.labels i m.counted
    rw [advance_of_some hi]
    generalize m.counted.step p.labels i = s at turn
    change Turn p.labels i m.position m.calls s at turn
    unfold Step.progress
    cases turn with
    | next flow kept | jump _ _ flow kept | halt _ _ flow kept | fail flow kept =>
      rw [flow]
      exact .kept kept
    | call _ _ _ flow pushed =>
      rw [flow]
      exact .opened pushed
    | ret opcode flow popped =>
      rw [flow]
      exact .closed hi opcode popped rfl

/-- A call that is made leaves its position on the call stack. -/
theorem calls_of_call (hi : p.fetch? m.position = some i) (hop : i.opcode = .call)
    (h : m.advance p = .running m') : m'.calls = m.position :: m.calls := by
  rw [advance_of_some hi] at h
  simp only [step, hop, call] at h
  split at h
  · cases h
  · cases h
    rfl

/-- One instruction leaves an open call open, or is the RETURN from it. -/
theorem open_or_back {c : Nat} {outer : Stack Nat} (h : (c :: outer) <:+ m.calls) :
    (c :: outer) <:+ (m.advance p).machine.calls ∨
      ∃ i m', p.fetch? m.position = some i ∧ i.opcode = .ret ∧ m.advance p = .running m' ∧
        m'.position = c + 1 ∧ m'.calls = outer := by
  have change := advance_callChange p m
  generalize hr : m.advance p = r at change
  cases change with
  | kept same => exact .inl (same ▸ h)
  | opened pushed =>
    rw [Progress.machine_running, pushed]
    exact .inl (h.trans (List.suffix_cons _ _))
  | @closed i caller m' fetched opcode popped back =>
    rw [popped, List.suffix_cons_iff] at h
    rcases h with heq | hsuffix
    · obtain ⟨rfl, rfl⟩ := List.cons.inj heq
      exact .inr ⟨i, m', fetched, opcode, rfl, back, rfl⟩
    · exact .inl hsuffix

/-- A call stays open while the call stack does not get back to its depth. -/
theorem open_of_deeper {c : Nat} {outer : Stack Nat} (h : m.calls = c :: outer) {n : Nat}
    (hdeeper : ∀ k ≤ n, (m.after p k).calls.length ≠ outer.length) :
    (c :: outer) <:+ (m.after p n).calls := by
  induction n with
  | zero => exact h ▸ List.suffix_rfl
  | succ n ih =>
    have hopen := ih fun k hk => hdeeper k (Nat.le_succ_of_le hk)
    rw [after_succ]
    rcases open_or_back hopen with hopen | ⟨_, m', _, _, hadv, _, hcalls⟩
    · exact hopen
    · have hdepth := hdeeper (n + 1) (Nat.le_refl _)
      rw [after_succ, hadv] at hdepth
      exact absurd (congrArg List.length hcalls) hdepth

/-- **A call comes back right after itself.** Whatever a program runs after a CALL, calls
of its own, jumps and stops included, the first state in which the call stack is as deep
again as before the CALL is one that a RETURN leads to; it is at the instruction after
the CALL, and the call stack is the one before. -/
theorem back_after_call (hi : p.fetch? m.position = some i) (hop : i.opcode = .call)
    (hcall : m.advance p = .running m') {n : Nat}
    (hback : (m'.after p n).calls.length = m.calls.length)
    (hfirst : ∀ k < n, (m'.after p k).calls.length ≠ m.calls.length) :
    ∃ k j, n = k + 1 ∧ p.fetch? (m'.after p k).position = some j ∧ j.opcode = .ret ∧
      (m'.after p k).advance p = .running (m'.after p n) ∧
      (m'.after p n).position = m.position + 1 ∧ (m'.after p n).calls = m.calls := by
  have hpushed := calls_of_call hi hop hcall
  cases n with
  | zero =>
    rw [after_zero, hpushed] at hback
    exact absurd hback (Nat.succ_ne_self _)
  | succ k =>
    have hopen := open_of_deeper hpushed fun j hj => hfirst j (Nat.lt_succ_of_le hj)
    rw [after_succ] at hback ⊢
    rcases open_or_back hopen with hopen | ⟨j, back, hj, hret, hadv, hpos, hcalls⟩
    · have hlength := hopen.length_le
      rw [hback] at hlength
      exact absurd hlength (Nat.not_succ_le_self _)
    · rw [hadv, Progress.machine_running]
      exact ⟨k, j, rfl, hj, hret, hadv, hpos, hcalls⟩

/-- A subroutine that calls itself once before it returns. -/
theorem back_after_recursive_call :
    let p : Program := {
      instructions := #[⟨1, .pushs, [.const (.bool false)]⟩, ⟨2, .pushs, [.const (.bool true)]⟩,
        ⟨3, .call, [.label "f"]⟩, ⟨4, .exit, [.const (.int 0)]⟩, ⟨5, .label, [.label "f"]⟩,
        ⟨6, .pushs, [.const (.bool true)]⟩, ⟨7, .jumpIfStack false, [.label "done"]⟩,
        ⟨8, .call, [.label "f"]⟩, ⟨9, .label, [.label "done"]⟩, ⟨10, .ret, []⟩]
      labels := (LabelTable.empty.insertNew "f" 5).insertNew "done" 9 }
    let m : Machine := { data := [.bool true, .bool false], position := 3, executed := 2 }
    let m' : Machine := { m with calls := [3], position := 5, executed := 3 }
    m.advance p = .running m' ∧ (m'.after p 4).calls = [8, 3] ∧
      (m'.after p 11).position = 4 ∧ (m'.after p 11).calls = [] := by
  intro p m m'
  have hcall : m.advance p = .running m' := rfl
  have hfirst : ∀ k < 11, (m'.after p k).calls.length ≠ m.calls.length := by decide +kernel
  have hback : (m'.after p 11).calls.length = m.calls.length := by decide +kernel
  obtain ⟨_, _, _, _, _, _, hpos, hcalls⟩ := back_after_call rfl rfl hcall hback hfirst
  exact ⟨hcall, by decide +kernel, hpos, hcalls⟩

end FrameCode.Machine
