import FrameCode.Proofs.Globals
import Mathlib.Data.List.Induction

/-! Frames as association lists. A frame keeps its cells in an array and finds them by an index;
whatever is done to it, the two agree (`Frame.Coherent`), and it answers as the plain list of its
entries does (`Frame.apply_entries`). Instructions move frames between their places and otherwise
only declare and write, so every frame of a running program is one that such operations have made
(`Reachable.made`). -/

namespace FrameCode

def Cell.entry (cell : Cell) : String × Option Value := (cell.name, cell.value)

namespace Frame

/-! ## Operations, on a frame and on a list -/

inductive Operation where
  | declare (name : String)
  | contains (name : String)
  | get (name : String)
  | set (name : String) (value : Option Value)

inductive Answer where
  | flag (b : Bool)
  | entry (found : Option (String × Option Value))

/-- The answer to an operation, and the frame after it: the same frame, if it is refused. -/
def apply (f : Frame) : Operation → Answer × Frame
  | .declare name => (.flag (f.declare? name).isSome, (f.declare? name).getD f)
  | .contains name => (.flag (f.contains name), f)
  | .get name => (.entry ((f.get? name).map Cell.entry), f)
  | .set name value => (.flag (f.set? name value).isSome, (f.set? name value).getD f)

/-- What a sequence of operations makes of the empty frame. -/
def after (ops : List Operation) : Frame := ops.foldl (fun f op => (f.apply op).2) .empty

/-- Names and the values that they stand for, in the order in which they came. -/
abbrev Entries : Type := List (String × Option Value)

/-- The names and values of a frame, one cell after the other. -/
def entries (f : Frame) : Entries := f.cells.toList.map Cell.entry

namespace Entries

/-- The operations on an association list: a new name goes to the end, and a value is written
where the name stands. -/
def apply (l : Entries) : Operation → Answer × Entries
  | .declare name =>
    if (l.lookup name).isSome then (.flag false, l) else (.flag true, l ++ [(name, none)])
  | .contains name => (.flag (l.lookup name).isSome, l)
  | .get name => (.entry ((l.lookup name).map fun value => (name, value)), l)
  | .set name value =>
    if (l.lookup name).isSome then
      (.flag true, l.map fun e => if e.1 = name then (name, value) else e)
    else (.flag false, l)

def after (ops : List Operation) : Entries := ops.foldl (fun l op => (l.apply op).2) []

end Entries

/-! ## The index and the cells agree -/

/-- The index leads to the cells and to nothing else, and no two cells have one name. -/
structure Coherent (f : Frame) : Prop where
  place : ∀ (name : String) (k : Nat),
    f.index[name]? = some k ↔ ∃ cell, f.cells[k]? = some cell ∧ cell.name = name
  distinct : f.names.Nodup
  inRange : ∀ (name : String) (k : Nat), f.index[name]? = some k → k < f.size

variable {f f' : Frame} {name : String} {value : Option Value}

theorem getElem?_names {k : Nat} :
    f.names[k]? = some name ↔ ∃ cell, f.cells[k]? = some cell ∧ cell.name = name := by
  simp [names]

/-- Two places of one name would both be the one that the index gives. -/
theorem coherent_of_names
    (h : ∀ (name : String) (k : Nat), f.index[name]? = some k ↔ f.names[k]? = some name) :
    f.Coherent := by
  refine ⟨fun name k => (h name k).trans getElem?_names, ?_, fun name k hk => ?_⟩
  · rw [List.nodup_iff_getElem?_ne_getElem?]
    intro j k hjk hk heq
    have hname := List.getElem?_eq_getElem hk
    have hj := (h _ j).mpr (heq.trans hname)
    rw [(h _ k).mpr hname, Option.some.injEq] at hj
    omega
  · obtain ⟨hlt, -⟩ := List.getElem?_eq_some_iff.mp ((h name k).mp hk)
    simpa [names, size] using hlt

theorem coherent_empty : Coherent .empty :=
  coherent_of_names fun name k => by simp [empty, names]

theorem entries_of_declare? (h : f.declare? name = some f') :
    f'.entries = f.entries ++ [(name, none)] := by
  obtain ⟨-, rfl⟩ := declare?_eq_some h
  simp [entries, Cell.entry]

theorem names_eq_entries (f : Frame) : f.names = f.entries.map Prod.fst := by
  simp [names, entries, Cell.entry]

theorem names_of_set? (h : f.set? name value = some f') : f'.names = f.names := by
  obtain ⟨k, -, -, rfl⟩ := set?_eq_some h
  simp only [names, Array.toList_modify]
  refine List.ext_getElem? fun j => ?_
  simp only [List.getElem?_map, List.getElem?_modify]
  split
  · cases f.cells.toList[j]? <;> rfl
  · simp

/-- Where no name occurs twice, each entry is the one that is found under its name. -/
theorem Entries.lookup_of_mem {l : Entries} (h : (l.map Prod.fst).Nodup)
    (hmem : (name, value) ∈ l) : l.lookup name = some value := by
  obtain ⟨before, behind, rfl⟩ := List.append_of_mem hmem
  refine List.lookup_eq_some_iff.mpr ⟨before, behind, rfl, fun e he => ?_⟩
  rw [List.map_append, List.nodup_append] at h
  have hne := h.2.2 e.1 (List.mem_map_of_mem he) name (by simp)
  simpa using hne.symm

namespace Coherent

theorem names_iff (h : f.Coherent) (k : Nat) :
    f.index[name]? = some k ↔ f.names[k]? = some name :=
  (h.place name k).trans getElem?_names.symm

theorem declare? (h : f.Coherent) (hadd : f.declare? name = some f') : f'.Coherent := by
  have hnames : f'.names = f.names ++ [name] := by
    simp [names_eq_entries, entries_of_declare? hadd]
  obtain ⟨hnew, rfl⟩ := declare?_eq_some hadd
  have hlength : f.names.length = f.cells.size := by simp [names]
  refine coherent_of_names fun other k => ?_
  rw [hnames, Std.ExtTreeMap.getElem?_insert, List.getElem?_append, hlength]
  by_cases hother : name = other
  · subst hother
    have habsent : f.names[k]? ≠ some name := by
      rw [ne_eq, ← h.names_iff k]
      simp [hnew]
    rw [if_pos (by simp)]
    split
    · next hlt => simp [habsent, Nat.ne_of_gt hlt]
    · next hge =>
      have hend : k - f.cells.size = 0 ↔ f.cells.size = k := by omega
      rw [List.getElem?_singleton, Option.some.injEq, ← hend]
      simp
  · rw [if_neg (by simpa using hother), h.names_iff k]
    split
    · rfl
    · next hge =>
      have hout : f.names[k]? = none := List.getElem?_eq_none (by omega)
      rw [List.getElem?_singleton, hout]
      simp [hother]

theorem set? (h : f.Coherent) (hset : f.set? name value = some f') : f'.Coherent := by
  have hnames := names_of_set? hset
  obtain ⟨place, hplace, hlt, rfl⟩ := set?_eq_some hset
  exact coherent_of_names fun other k => (h.names_iff k).trans (by rw [hnames])

/-! ## The list of entries answers alike -/

/-- The name of a cell is the one under which it is found. -/
theorem name_eq (h : f.Coherent) {cell : Cell} (hcell : f.get? name = some cell) :
    cell.name = name := by
  obtain ⟨k, hk, hcell⟩ := Option.bind_eq_some_iff.mp hcell
  obtain ⟨cell', hcell', hname⟩ := (h.place name k).mp hk
  rw [hcell, Option.some.injEq] at hcell'
  rw [hcell', hname]

theorem lookup_entries (h : f.Coherent) (name : String) :
    f.entries.lookup name = (f.get? name).map Cell.value := by
  cases hk : f.index[name]? with
  | none =>
    rw [get?, hk]
    refine List.lookup_eq_none_iff.mpr fun e he => ?_
    -- a cell of that name would be in the index
    have hmem : e.1 ∈ f.names := f.names_eq_entries ▸ List.mem_map_of_mem he
    obtain ⟨k, hplace⟩ := List.mem_iff_getElem?.mp hmem
    have hindex := (h.names_iff k).mpr hplace
    rw [bne_iff_ne]
    rintro rfl
    rw [hk] at hindex
    cases hindex
  | some k =>
    obtain ⟨cell, hcell, rfl⟩ := (h.place name k).mp hk
    have hmem : cell.entry ∈ f.entries :=
      List.mem_map_of_mem (Array.mem_toList_iff.mpr (Array.mem_of_getElem? hcell))
    rw [get?, hk, Option.bind_some, hcell]
    exact Entries.lookup_of_mem (f.names_eq_entries ▸ h.distinct) hmem

theorem get?_eq (h : f.Coherent) (name : String) :
    f.get? name = (f.entries.lookup name).map fun value => { name, value } := by
  rw [h.lookup_entries]
  cases hget : f.get? name with
  | none => rfl
  | some cell =>
    obtain rfl := h.name_eq hget
    rfl

theorem contains_eq (h : f.Coherent) (name : String) : f.contains name = (f.get? name).isSome := by
  rw [contains, Std.ExtTreeMap.contains_eq_isSome_getElem?, get?]
  cases hk : f.index[name]? with
  | none => rfl
  | some k =>
    obtain ⟨cell, hcell, -⟩ := (h.place name k).mp hk
    simp [hcell]

theorem isSome_declare? (h : f.Coherent) (name : String) :
    (f.declare? name).isSome = !(f.get? name).isSome := by
  rw [← h.contains_eq, Frame.declare?]
  cases f.contains name <;> rfl

theorem isSome_set? (h : f.Coherent) (name : String) (value : Option Value) :
    (f.set? name value).isSome = (f.get? name).isSome := by
  unfold Frame.set? get?
  cases hk : f.index[name]? with
  | none => rfl
  | some k =>
    have hlt : k < f.cells.size := h.inRange name k hk
    simp [hlt]

theorem entries_of_set? (h : f.Coherent) (hset : f.set? name value = some f') :
    f'.entries = f.entries.map fun e => if e.1 = name then (name, value) else e := by
  obtain ⟨k, hk, -, rfl⟩ := set?_eq_some hset
  refine List.ext_getElem? fun j => ?_
  simp only [entries, Array.toList_modify, List.getElem?_map, List.getElem?_modify,
    Array.getElem?_toList]
  cases hcell : f.cells[j]? with
  | none => simp
  | some cell =>
    have hplace : k = j ↔ cell.name = name := by
      refine ⟨?_, fun hname => ?_⟩
      · rintro rfl
        obtain ⟨cell', hcell', hname⟩ := (h.place name k).mp hk
        rw [hcell, Option.some.injEq] at hcell'
        rw [hcell', hname]
      · have hj := (h.place name j).mpr ⟨cell, hcell, hname⟩
        rw [hk, Option.some.injEq] at hj
        exact hj
    by_cases hname : cell.name = name
    · simp [Cell.entry, hplace, hname]
    · simp [Cell.entry, hplace, hname]

/-- **One operation** gives the same answer on a frame and on the list of its entries, and leaves
behind a frame whose entries are those of the list. -/
theorem apply_entries (h : f.Coherent) (op : Operation) :
    (f.apply op).1 = (f.entries.apply op).1 ∧ (f.apply op).2.Coherent ∧
      (f.apply op).2.entries = (f.entries.apply op).2 := by
  have hlookup := h.lookup_entries
  cases op with
  | declare name =>
    have hsome := h.isSome_declare? name
    simp only [apply, Entries.apply, hlookup, Option.isSome_map]
    cases hadd : f.declare? name with
    | none =>
      have hget : (f.get? name).isSome = true := by simpa [hadd] using hsome
      simp [hget, h]
    | some f' =>
      have hget : (f.get? name).isSome = false := by simpa [hadd] using hsome
      simp [hget, h.declare? hadd, entries_of_declare? hadd]
  | contains name => exact ⟨by simp [apply, Entries.apply, hlookup, h.contains_eq], h, rfl⟩
  | get name =>
    refine ⟨?_, h, rfl⟩
    simp only [apply, Entries.apply, h.get?_eq name, Option.map_map]
    rfl
  | set name value =>
    have hsome := h.isSome_set? name value
    simp only [apply, Entries.apply, hlookup, Option.isSome_map]
    cases hset : f.set? name value with
    | none =>
      have hget : (f.get? name).isSome = false := by simpa [hset] using hsome.symm
      simp [hget, h]
    | some f' =>
      have hget : (f.get? name).isSome = true := by simpa [hset] using hsome.symm
      simp [hget, h.set? hset, h.entries_of_set? hset]

end Coherent

/-! ## Any number of operations -/

theorem after_concat (ops : List Operation) (op : Operation) :
    after (ops ++ [op]) = ((after ops).apply op).2 := by
  simp [after]

theorem Entries.after_concat (ops : List Operation) (op : Operation) :
    Entries.after (ops ++ [op]) = ((Entries.after ops).apply op).2 := by
  simp [after]

theorem coherent_after (ops : List Operation) :
    (after ops).Coherent ∧ (after ops).entries = Entries.after ops := by
  induction ops using List.reverseRecOn with
  | nil => exact ⟨coherent_empty, rfl⟩
  | append_singleton ops op ih =>
    obtain ⟨-, hcoherent, hentries⟩ := ih.1.apply_entries op
    rw [after_concat, Entries.after_concat, ← ih.2]
    exact ⟨hcoherent, hentries⟩

/-! ## What a name stands for -/

/-- What an operation makes of the value of one name; `none` stands for a name that is not there. -/
def Operation.acts (name : String) (known : Option (Option Value)) :
    Operation → Option (Option Value)
  | .declare other => if other = name then known.or (some none) else known
  | .set other value => if other = name then known.map fun _ => value else known
  | .contains _ | .get _ => known

theorem Entries.lookup_write (l : Entries) (other name : String) (value : Option Value) :
    (l.map fun e => if e.1 = other then (other, value) else e).lookup name =
      if other = name then (l.lookup name).map fun _ => value else l.lookup name := by
  induction l with
  | nil => simp
  | cons e l ih =>
    obtain ⟨first, held⟩ := e
    by_cases hfirst : first = other
    · subst hfirst
      by_cases hname : first = name
      · simp [hname]
      · have hback : (name == first) = false := by simpa using Ne.symm hname
        simp [List.lookup_cons, hback, hname, ih]
    · by_cases hname : name = first
      · subst hname
        simp [hfirst, Ne.symm hfirst]
      · have hback : (name == first) = false := by simpa using hname
        simp [List.lookup_cons, hback, hfirst, ih]

theorem Entries.lookup_apply (l : Entries) (op : Operation) (name : String) :
    (l.apply op).2.lookup name = op.acts name (l.lookup name) := by
  cases op with
  | contains other | get other => rfl
  | declare other =>
    simp only [apply, Operation.acts]
    by_cases hname : other = name
    · subst hname
      cases hknown : l.lookup other <;> simp [List.lookup_append, hknown]
    · have hback : (name == other) = false := by simpa using Ne.symm hname
      split
      · rfl
      · simp [List.lookup_append, List.lookup_cons, hback]
  | set other value =>
    simp only [apply, Operation.acts]
    split
    · exact lookup_write l other name value
    · next habsent =>
      split
      · next hname =>
        subst hname
        rw [Option.not_isSome_iff_eq_none.mp habsent]
        rfl
      · rfl

theorem Entries.lookup_after (ops : List Operation) (name : String) :
    (Entries.after ops).lookup name = ops.foldl (fun known op => op.acts name known) none := by
  induction ops using List.reverseRecOn with
  | nil => rfl
  | append_singleton ops op ih =>
    rw [after_concat, lookup_apply, ih, List.foldl_append]
    rfl

namespace Operation

variable {ops before behind : List Operation} {known : Option (Option Value)}

theorem isSome_foldl_acts :
    (ops.foldl (fun known op => op.acts name known) known).isSome = true ↔
      known.isSome = true ∨ .declare name ∈ ops := by
  induction ops generalizing known with
  | nil => simp
  | cons op ops ih =>
    rw [List.foldl_cons, ih, List.mem_cons]
    cases op with
    | contains other | get other => simp [acts]
    | declare other =>
      by_cases hname : other = name
      · simp [acts, hname]
      · simp [acts, hname, Ne.symm hname]
    | set other value =>
      by_cases hname : other = name
      · simp [acts, hname]
      · simp [acts, hname]

theorem foldl_acts_of_not_set (h : ∀ value, .set name value ∉ ops) (held : Option Value) :
    ops.foldl (fun known op => op.acts name known) (some held) = some held := by
  induction ops with
  | nil => rfl
  | cons op ops ih =>
    have hop : op.acts name (some held) = some held := by
      cases op with
      | contains other | get other => rfl
      | declare other => simp [acts]
      | set other value =>
        have hname : other ≠ name := fun heq => h value (heq ▸ List.mem_cons_self)
        simp [acts, hname]
    rw [List.foldl_cons, hop]
    exact ih fun value hmem => h value (List.mem_cons_of_mem op hmem)

/-- What was written last under a name that is there is what the name stands for. -/
theorem foldl_acts_of_set {value : Option Value} (hdeclared : .declare name ∈ before)
    (hlast : ∀ value', .set name value' ∉ behind) :
    (before ++ .set name value :: behind).foldl (fun known op => op.acts name known) none =
      some value := by
  obtain ⟨held, hheld⟩ := Option.isSome_iff_exists.mp (isSome_foldl_acts.mpr (.inr hdeclared))
  rw [List.foldl_append, List.foldl_cons, hheld]
  simp only [acts, if_true, Option.map_some]
  exact foldl_acts_of_not_set hlast value

theorem foldl_acts_of_declare (hfirst : .declare name ∉ before)
    (hunset : ∀ value, .set name value ∉ behind) :
    (before ++ .declare name :: behind).foldl (fun known op => op.acts name known) none =
      some none := by
  have hnone : before.foldl (fun known op => op.acts name known) none = none := by
    rw [← Option.not_isSome_iff_eq_none, isSome_foldl_acts]
    simp [hfirst]
  rw [List.foldl_append, List.foldl_cons, hnone]
  simp only [acts, if_true, Option.none_or]
  exact foldl_acts_of_not_set hunset none

end Operation

theorem get?_after (ops : List Operation) (name : String) :
    (after ops).get? name =
      (ops.foldl (fun known op => op.acts name known) none).map fun value => { name, value } := by
  obtain ⟨hcoherent, hentries⟩ := coherent_after ops
  rw [hcoherent.get?_eq, hentries, Entries.lookup_after]

/-- Some operations have made the frame, from the empty one on. -/
def Made (f : Frame) : Prop := ∃ ops, f = after ops

theorem Made.apply (h : f.Made) (op : Operation) : (f.apply op).2.Made := by
  obtain ⟨ops, rfl⟩ := h
  exact ⟨ops ++ [op], (after_concat ops op).symm⟩

theorem Made.declare? (h : f.Made) (hadd : f.declare? name = some f') : f'.Made := by
  simpa [Frame.apply, hadd] using h.apply (.declare name)

theorem Made.set? (h : f.Made) (hset : f.set? name value = some f') : f'.Made := by
  simpa [Frame.apply, hset] using h.apply (.set name value)

end Frame

/-! ## The frames of a running program -/

namespace Machine

/-- All frames of a machine: the global one, the temporary one if there is one, and the local
ones. -/
def frames (m : Machine) : List Frame := m.globals :: (m.temporary.toList ++ m.locals)

variable {m m' : Machine} {i : Instruction} {s : Step}

theorem mem_frames {f : Frame} :
    f ∈ m.frames ↔ f = m.globals ∨ m.temporary = some f ∨ f ∈ m.locals := by
  simp [frames]

theorem SameFrames.frames_eq (h : m.SameFrames m') : m'.frames = m.frames := by
  simp only [frames, h.globals, h.temporary, h.locals]

theorem mem_frames_of_frame? {kind : FrameKind} {f : Frame} (h : m.frame? kind = some f) :
    f ∈ m.frames := by
  rw [mem_frames]
  cases kind with
  | globals => exact .inl (Option.some.inj h).symm
  | temporary => exact .inr (.inl h)
  | locals => exact .inr (.inr (List.mem_of_head? h))

theorem mem_frames_of_setFrame {kind : FrameKind} {f f' : Frame}
    (h : f ∈ (m.setFrame kind f').frames) : f = f' ∨ f ∈ m.frames := by
  rw [mem_frames] at h ⊢
  cases kind with
  | globals =>
    obtain hf | hf := h
    · exact .inl hf
    · exact .inr (.inr hf)
  | temporary =>
    obtain hf | hf | hf := h
    · exact .inr (.inl hf)
    · exact .inl (Option.some.inj hf).symm
    · exact .inr (.inr (.inr hf))
  | locals =>
    obtain hf | hf | hf := h
    · exact .inr (.inl hf)
    · exact .inr (.inr (.inl hf))
    · cases hlocals : m.locals with
      | nil => simp [setFrame, hlocals, Stack.setTop?] at hf
      | cons top rest =>
        obtain rfl | hf : f = f' ∨ f ∈ rest := by simpa [setFrame, hlocals, Stack.setTop?] using hf
        · exact .inl rfl
        · exact .inr (.inr (.inr (List.mem_cons_of_mem top hf)))

/-- What a step makes of the frames is made by operations. -/
theorem FrameChange.made (change : FrameChange i m s) (h : ∀ f ∈ m.frames, f.Made) :
    ∀ f ∈ s.machine.frames, f.Made := by
  have hplaced {kind : FrameKind} {f f' : Frame} (hf' : f'.Made)
      (hf : f ∈ (m.setFrame kind f').frames) : f.Made := by
    obtain rfl | hf := mem_frames_of_setFrame hf
    · exact hf'
    · exact h f hf
  intro f hf
  cases change with
  | kept same => exact h f (same.frames_eq ▸ hf)
  | created opcode flow same =>
    rw [same.frames_eq, mem_frames] at hf
    obtain hf | hf | hf := hf
    · exact h f (mem_frames.mpr (.inl hf))
    · exact ⟨[], (Option.some.inj hf).symm⟩
    · exact h f (mem_frames.mpr (.inr (.inr hf)))
  | pushed opcode flow given same =>
    rw [same.frames_eq, mem_frames] at hf
    obtain hf | hf | hf := hf
    · exact h f (mem_frames.mpr (.inl hf))
    · cases hf
    · obtain rfl | hf := List.mem_cons.mp hf
      · exact h f (mem_frames.mpr (.inr (.inl given)))
      · exact h f (mem_frames.mpr (.inr (.inr hf)))
  | popped opcode flow top same =>
    rw [same.frames_eq, mem_frames] at hf
    refine h f (mem_frames.mpr ?_)
    rw [top]
    obtain hf | hf | hf := hf
    · exact .inl hf
    · cases hf
      exact .inr (.inr List.mem_cons_self)
    · exact .inr (.inr (List.mem_cons_of_mem _ hf))
  | declared opcode operand flow found added same =>
    exact hplaced ((h _ (mem_frames_of_frame? found)).declare? added) (same.frames_eq ▸ hf)
  | written operand flow found set same =>
    exact hplaced ((h _ (mem_frames_of_frame? found)).set? set) (same.frames_eq ▸ hf)

theorem made_advance (p : Program) (h : ∀ f ∈ m.frames, f.Made) :
    ∀ f ∈ (m.advance p).machine.frames, f.Made := by
  cases hi : p.fetch? m.position with
  | none =>
    rw [advance_of_none hi]
    exact h
  | some i =>
    rw [advance_of_some hi, (sameFrames_progress _).frames_eq]
    exact (step_frameChange p.labels i m.counted).made h

end Machine

theorem Reachable.made {p : Program} {host : Host} {m : Machine} (h : Reachable p host m) :
    ∀ f ∈ m.frames, f.Made := by
  induction h with
  | start =>
    intro f hf
    obtain rfl | hf | hf := Machine.mem_frames.mp hf
    · exact ⟨[], rfl⟩
    · cases hf
    · cases hf
  | advance before ih => exact Machine.made_advance p ih

/-- **A frame is an ordered association list.** After any operations the index and the cells of a
frame agree, its entries are those of the list, in their order, and every further operation has
the same answer on both. A name can be declared once, which puts it at the end without a value;
to declare it again is refused and changes nothing. From then on the name stands for what was
written last under it. In every state of every program all frames are of this kind. -/
theorem frames_as_association_lists :
    (∀ ops : List Frame.Operation, (Frame.after ops).Coherent ∧
      (Frame.after ops).entries = Frame.Entries.after ops ∧
      (∀ op, ((Frame.after ops).apply op).1 = ((Frame.Entries.after ops).apply op).1) ∧
      ∀ name : String,
        (((Frame.after ops).declare? name).isSome = true ↔ .declare name ∉ ops) ∧
        (∀ f', (Frame.after ops).declare? name = some f' →
          f'.entries = (Frame.after ops).entries ++ [(name, none)]) ∧
        (.declare name ∈ ops →
          (Frame.after ops).apply (.declare name) = (.flag false, Frame.after ops)) ∧
        ((Frame.after ops).get? name = none ↔ .declare name ∉ ops) ∧
        (∀ before behind, ops = before ++ .declare name :: behind → .declare name ∉ before →
          (∀ value, .set name value ∉ behind) →
          (Frame.after ops).get? name = some { name, value := none }) ∧
        ∀ before behind value, ops = before ++ .set name value :: behind →
          .declare name ∈ before → (∀ value', .set name value' ∉ behind) →
          (Frame.after ops).get? name = some { name, value }) ∧
    ∀ (p : Program) (host : Host) (m : Machine), Reachable p host m →
      ∀ f ∈ m.globals :: (m.temporary.toList ++ m.locals), f.Coherent ∧ ∃ ops, f = Frame.after ops := by
  refine ⟨fun ops => ?_, fun p host m hm f hf => ?_⟩
  · obtain ⟨hcoherent, hentries⟩ := Frame.coherent_after ops
    refine ⟨hcoherent, hentries, fun op => hentries ▸ (hcoherent.apply_entries op).1,
      fun name => ?_⟩
    have hthere : ((Frame.after ops).get? name).isSome = true ↔ .declare name ∈ ops := by
      rw [Frame.get?_after, Option.isSome_map, Frame.Operation.isSome_foldl_acts]
      simp
    have hdeclare : ((Frame.after ops).declare? name).isSome = true ↔ .declare name ∉ ops := by
      rw [hcoherent.isSome_declare?, ← hthere]
      simp
    refine ⟨hdeclare, fun f' => Frame.entries_of_declare?, fun hold => ?_, ?_, ?_, ?_⟩
    · have hnone : (Frame.after ops).declare? name = none := by
        rw [← Option.not_isSome_iff_eq_none, hdeclare]
        exact not_not_intro hold
      simp [Frame.apply, hnone]
    · rw [← hthere, Option.not_isSome_iff_eq_none]
    · rintro before behind rfl hfirst hunset
      rw [Frame.get?_after, Frame.Operation.foldl_acts_of_declare hfirst hunset]
      rfl
    · rintro before behind value rfl hdeclared hlast
      rw [Frame.get?_after, Frame.Operation.foldl_acts_of_set hdeclared hlast]
      rfl
  · obtain ⟨ops, rfl⟩ := hm.made f hf
    exact ⟨(Frame.coherent_after ops).1, ops, rfl⟩

/-- A name that is written before it is declared, and declared twice; and a frame that was filled
before it became a local one. -/
theorem frames_as_association_lists_once_pushed :
    let ops : List Frame.Operation :=
      [.set "x" (some .nil), .declare "x", .set "x" (some (.int 1)), .declare "y", .declare "x"]
    let p : Program := {
      instructions := #[⟨1, .createFrame, []⟩, ⟨2, .defVar, [.var ⟨.temporary, "x"⟩]⟩,
        ⟨3, .pushFrame, []⟩]
      labels := {} }
    (Frame.after ops).get? "x" = some { name := "x", value := some (.int 1) } ∧
    (Frame.after ops).apply (.declare "x") = (.flag false, Frame.after ops) ∧
    ∃ m, Reachable p {} m ∧ m.locals.length = 1 ∧ ∀ f ∈ m.locals, f.Coherent := by
  intro ops p
  obtain ⟨hafter, hreached⟩ := frames_as_association_lists
  obtain ⟨-, -, -, hname⟩ := hafter ops
  obtain ⟨-, -, hagain, -, -, hlast⟩ := hname "x"
  have hm : Reachable p {} ((Machine.start {}).run p 3).machine := Reachable.start.run 3
  refine ⟨hlast [.set "x" (some .nil), .declare "x"] [.declare "y", .declare "x"] _ rfl (by simp)
    (by simp), hagain (by simp [ops]), _, hm, rfl, fun f hf => ?_⟩
  exact (hreached p {} _ hm f (Machine.mem_frames.mpr (.inr (.inr hf)))).1

end FrameCode
