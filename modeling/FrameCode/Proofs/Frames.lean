import FrameCode.Proofs.Run

/-! What instructions do to frames. `Machine.step_frameChange` lists all of it: a frame is
created, moved between its two places, or one of its cells is declared or written, and the
only local frame that is ever written is the top one. Hence whatever runs above the local
frames at the bottom leaves them alone. -/

namespace FrameCode

namespace Machine

/-! ## One instruction -/

/-- What a step makes of the frames of the machine `m`. These are all the possibilities. -/
inductive FrameChange (i : Instruction) (m : Machine) (s : Step) : Prop
  | kept (same : m.SameFrames s.machine)
  | created (opcode : i.opcode = .createFrame) (flow : s.result = .ok .next)
    (same : SameFrames { m with temporary := some .empty } s.machine)
  | pushed {f : Frame} (opcode : i.opcode = .pushFrame) (flow : s.result = .ok .next)
    (given : m.temporary = some f)
    (same : SameFrames { m with temporary := none, locals := f :: m.locals } s.machine)
  | popped {f : Frame} {rest : Stack Frame} (opcode : i.opcode = .popFrame)
    (flow : s.result = .ok .next) (top : m.locals = f :: rest)
    (same : SameFrames { m with temporary := some f, locals := rest } s.machine)
  | declared {v : Variable} {f f' : Frame} (opcode : i.opcode = .defVar)
    (operand : i.operand? 0 = some (.var v)) (flow : s.result = .ok .next)
    (found : m.frame? v.frame = some f) (added : f.declare? v.name = some f')
    (same : SameFrames (m.setFrame v.frame f') s.machine)
  | written {v : Variable} {x : Value} {f f' : Frame} (operand : i.operand? 0 = some (.var v))
    (flow : s.result = .ok .next) (found : m.frame? v.frame = some f)
    (set : f.set? v.name (some x) = some f') (same : SameFrames (m.setFrame v.frame f') s.machine)

theorem Effect.frameChange {labels : LabelTable} {i : Instruction} {m : Machine} {flow : Flow}
    {m' : Machine} (h : Effect labels i m flow m') : FrameChange i m ⟨m', .ok flow⟩ := by
  cases h with
  | created opcode => exact .created opcode rfl (.refl _)
  | pushed opcode given => exact .pushed opcode rfl given (.refl _)
  | popped opcode top => exact .popped opcode rfl top (.refl _)
  | declared opcode operand found added => exact .declared opcode operand rfl found added (.refl _)
  | written opcode operand found set => exact .written operand rfl found set ⟨rfl, rfl, rfl⟩
  | none | called | returned | stacked | cleared | output | diagnosed => exact .kept ⟨rfl, rfl, rfl⟩

theorem step_frameChange (labels : LabelTable) (i : Instruction) (m : Machine) :
    FrameChange i m (m.step labels i) :=
  (step_outcome labels i m).elim (P := FrameChange i m) (fun _ _ heffect => heffect.frameChange)
    fun _ _ hleaves => .kept hleaves.same.1

/-! ## Local frames -/

/-- What lies on top of a stack is not among the entries at its bottom. -/
theorem take_fromBottom_cons {α : Type} {d : Nat} {rest : Stack α} (h : d ≤ rest.length) (a : α) :
    (Stack.fromBottom (a :: rest)).take d = rest.fromBottom.take d := by
  rw [Stack.fromBottom, List.reverse_cons, List.take_append_of_le_length (by simpa using h)]
  rfl

theorem take_fromBottom_length {α : Type} (s : Stack α) :
    s.fromBottom.take s.length = s.fromBottom :=
  List.take_of_length_le (Nat.le_of_eq List.length_reverse)

theorem length_setFrame (m : Machine) (kind : FrameKind) (f : Frame) :
    (m.setFrame kind f).locals.length = m.locals.length := by
  cases kind with
  | globals | temporary => rfl
  | locals => cases h : m.locals <;> simp [setFrame, Stack.setTop?, h]

/-- A frame that is replaced is the top one of the local frames, or none of them. -/
theorem bottom_setFrame {m : Machine} {d : Nat} (h : d < m.locals.length) (kind : FrameKind)
    (f : Frame) :
    (m.setFrame kind f).locals.fromBottom.take d = m.locals.fromBottom.take d := by
  cases kind with
  | globals | temporary => rfl
  | locals =>
    cases hl : m.locals with
    | nil =>
      rw [hl] at h
      exact absurd h (Nat.not_lt_zero d)
    | cons top rest =>
      have hd : d ≤ rest.length := by
        rw [hl] at h
        exact Nat.le_of_lt_succ h
      have hset : (m.setFrame .locals f).locals = f :: rest := by simp [setFrame, Stack.setTop?, hl]
      rw [hset, take_fromBottom_cons hd, take_fromBottom_cons hd]

namespace FrameChange

variable {i : Instruction} {m : Machine} {s : Step}

/-- A step with more than `d` local frames leaves the `d` at the bottom alone. -/
theorem bottom (change : FrameChange i m s) {d : Nat} (h : d < m.locals.length) :
    s.machine.locals.fromBottom.take d = m.locals.fromBottom.take d := by
  cases change with
  | kept same => rw [same.locals]
  | created opcode flow same => rw [same.locals]
  | pushed opcode flow given same =>
    rw [same.locals]
    exact take_fromBottom_cons (Nat.le_of_lt h) _
  | popped opcode flow top same =>
    rw [same.locals, top]
    rw [top] at h
    exact (take_fromBottom_cons (Nat.le_of_lt_succ h) _).symm
  | declared opcode operand flow found added same => rw [same.locals, bottom_setFrame h]
  | written operand flow found set same => rw [same.locals, bottom_setFrame h]

/-- Only POPFRAME takes a local frame away, and it takes one. -/
theorem depth (change : FrameChange i m s) : m.locals.length ≤ s.machine.locals.length ∨
    i.opcode = .popFrame ∧ s.result = .ok .next ∧
      m.locals.length = s.machine.locals.length + 1 := by
  cases change with
  | kept same => exact .inl (Nat.le_of_eq (by rw [same.locals]))
  | created opcode flow same => exact .inl (Nat.le_of_eq (by rw [same.locals]))
  | pushed opcode flow given same =>
    rw [same.locals]
    exact .inl (Nat.le_succ _)
  | popped opcode flow top same =>
    refine .inr ⟨opcode, flow, ?_⟩
    rw [same.locals, top]
    rfl
  | declared opcode operand flow found added same =>
    exact .inl (Nat.le_of_eq (by rw [same.locals, length_setFrame]))
  | written operand flow found set same =>
    exact .inl (Nat.le_of_eq (by rw [same.locals, length_setFrame]))

end FrameChange

variable {p : Program} {m m' : Machine}

theorem sameFrames_progress (s : Step) : s.machine.SameFrames s.progress.machine := by
  unfold Step.progress
  split <;> exact ⟨rfl, rfl, rfl⟩

theorem bottom_advance {d : Nat} (h : d < m.locals.length) :
    (m.advance p).machine.locals.fromBottom.take d = m.locals.fromBottom.take d := by
  cases hi : p.fetch? m.position with
  | none => rw [advance_of_none hi, Progress.machine_stopped]
  | some i =>
    rw [advance_of_some hi, (sameFrames_progress _).locals]
    exact (step_frameChange p.labels i m.counted).bottom h

theorem depth_advance (p : Program) (m : Machine) :
    m.locals.length ≤ (m.advance p).machine.locals.length ∨
    ∃ i m', p.fetch? m.position = some i ∧ i.opcode = .popFrame ∧ m.advance p = .running m' ∧
      m.locals.length = m'.locals.length + 1 := by
  cases hi : p.fetch? m.position with
  | none =>
    rw [advance_of_none hi]
    exact .inl (Nat.le_refl _)
  | some i =>
    rw [advance_of_some hi, (sameFrames_progress _).locals]
    rcases (step_frameChange p.labels i m.counted).depth with hdepth | ⟨hop, hflow, hdepth⟩
    · exact .inl hdepth
    · refine .inr ⟨i, (m.counted.step p.labels i).progress.machine, rfl, hop, ?_, ?_⟩
      · simp only [Step.progress, hflow, Progress.machine_running]
      · rw [(sameFrames_progress _).locals]
        exact hdepth

theorem locals_of_pushFrame {i : Instruction} (hi : p.fetch? m.position = some i)
    (hop : i.opcode = .pushFrame) (h : m.advance p = .running m') :
    ∃ f, m'.locals = f :: m.locals := by
  rw [advance_of_some hi] at h
  simp only [step, hop, pushFrame] at h
  split at h
  · next f _ =>
    cases h
    exact ⟨f, rfl⟩
  · cases h

/-- The bottom of the local frames over a whole run. The run may end as soon as it gets
down to this bottom. -/
theorem bottom_after {d n : Nat} (h : ∀ k < n, d < (m.after p k).locals.length) :
    (m.after p n).locals.fromBottom.take d = m.locals.fromBottom.take d := by
  induction n with
  | zero => rfl
  | succ n ih =>
    rw [after_succ, bottom_advance (h n (Nat.lt_succ_self n))]
    exact ih fun k hk => h k (Nat.lt_succ_of_lt hk)

/-- Local frames are taken away one by one, so that none of the lower ones is gone before
the depth of the stack says so. -/
theorem deeper_after {d n : Nat} (hstart : d < m.locals.length)
    (h : ∀ k ≤ n, (m.after p k).locals.length ≠ d) : d < (m.after p n).locals.length := by
  induction n with
  | zero => exact hstart
  | succ n ih =>
    have hn := ih fun k hk => h k (Nat.le_succ_of_le hk)
    have hne := h (n + 1) (Nat.le_refl _)
    rw [after_succ] at hne ⊢
    rcases depth_advance p (m.after p n) with hdepth | ⟨_, m', _, _, hadv, hdepth⟩
    · omega
    · rw [hadv, Progress.machine_running] at hne ⊢
      omega

/-- **Outer local frames are out of reach.** A run that has more than `d` local frames all
along, but for its last state perhaps, leaves the `d` frames at the bottom as they are. So
between a PUSHFRAME and the first state in which the stack of local frames is as deep again
as before, which a POPFRAME leads to, the frames below are never touched, and they are the
whole stack again in the end. -/
theorem outer_frames_kept (p : Program) :
    (∀ (m : Machine) (d n : Nat), (∀ k < n, d < (m.after p k).locals.length) →
      (m.after p n).locals.fromBottom.take d = m.locals.fromBottom.take d) ∧
    ∀ (m m' : Machine) (i : Instruction) (n : Nat), p.fetch? m.position = some i →
      i.opcode = .pushFrame → m.advance p = .running m' →
      (m'.after p n).locals.length = m.locals.length →
      (∀ k < n, (m'.after p k).locals.length ≠ m.locals.length) →
      (∀ k ≤ n, (m'.after p k).locals.fromBottom.take m.locals.length = m.locals.fromBottom) ∧
      (m'.after p n).locals = m.locals ∧
      ∃ k j, n = k + 1 ∧ p.fetch? (m'.after p k).position = some j ∧ j.opcode = .popFrame ∧
        (m'.after p k).advance p = .running (m'.after p n) := by
  refine ⟨fun m d n h => bottom_after h, fun m m' i n hi hop hpush hback hfirst => ?_⟩
  obtain ⟨f, hpushed⟩ := locals_of_pushFrame hi hop hpush
  have hstart : m.locals.length < m'.locals.length := by
    rw [hpushed]
    exact Nat.lt_succ_self _
  have hdeeper : ∀ k < n, m.locals.length < (m'.after p k).locals.length := fun k hk =>
    deeper_after hstart fun j hj => hfirst j (Nat.lt_of_le_of_lt hj hk)
  have hwhole : m'.locals.fromBottom.take m.locals.length = m.locals.fromBottom := by
    rw [hpushed, take_fromBottom_cons (Nat.le_refl _), take_fromBottom_length]
  have hbottom : ∀ k ≤ n,
      (m'.after p k).locals.fromBottom.take m.locals.length = m.locals.fromBottom := fun k hk =>
    (bottom_after fun j hj => hdeeper j (Nat.lt_of_lt_of_le hj hk)).trans hwhole
  refine ⟨hbottom, ?_, ?_⟩
  · have hlast := hbottom n (Nat.le_refl n)
    rw [← hback, take_fromBottom_length] at hlast
    exact List.reverse_injective hlast
  · cases n with
    | zero => exact absurd hback (Nat.ne_of_gt hstart)
    | succ k =>
      have hk := hdeeper k (Nat.lt_succ_self k)
      rw [after_succ] at hback ⊢
      rcases depth_advance p (m'.after p k) with hdepth | ⟨j, back, hj, hpop, hadv, _⟩
      · omega
      · rw [hadv, Progress.machine_running]
        exact ⟨k, j, rfl, hj, hpop, hadv⟩

/-- An inner frame with a variable of the same name, and a frame above that one. -/
theorem outer_frame_kept_below_two :
    let x : Operand := .var ⟨.locals, "x"⟩
    let p : Program := {
      instructions := #[⟨1, .pushFrame, []⟩, ⟨2, .defVar, [x]⟩, ⟨3, .createFrame, []⟩,
        ⟨4, .pushFrame, []⟩, ⟨5, .popFrame, []⟩, ⟨6, .move, [x, .const (.int 2)]⟩, ⟨7, .popFrame, []⟩]
      labels := .empty }
    let outer : Frame := {
      cells := #[⟨"x", some (.int 1)⟩]
      index := (∅ : Std.ExtTreeMap String Nat).insert "x" 0 }
    let m : Machine := { temporary := some .empty, locals := [outer] }
    let m' : Machine := { locals := [.empty, outer], position := 2, executed := 1 }
    m.advance p = .running m' ∧ (m'.after p 3).locals.length = 3 ∧
      (m'.after p 5).locals.fromBottom.take 1 = [outer] ∧ (m'.after p 6).locals = [outer] := by
  intro x p outer m m'
  have hpush : m.advance p = .running m' := rfl
  have hback : (m'.after p 6).locals.length = m.locals.length := by decide +kernel
  have hfirst : ∀ k < 6, (m'.after p k).locals.length ≠ m.locals.length := by decide +kernel
  have hdeeper : ∀ k < 5, 1 < (m'.after p k).locals.length := by decide +kernel
  obtain ⟨hrun, hframe⟩ := outer_frames_kept p
  obtain ⟨-, hwhole, -⟩ := hframe m m' _ 6 rfl rfl hpush hback hfirst
  exact ⟨hpush, by decide +kernel, hrun m' 1 5 hdeeper, hwhole⟩

end Machine

end FrameCode
