import FrameCode.CommandLine

/-! Files in folders. A path leads to the file that was last written at it, files elsewhere stay
what they were, and a source that was written to a folder is the one that the commands load. -/

namespace FrameCode.CommandLine

theorem File.text_content (text : String) : (File.content text.toUTF8).text = .ok text := by
  simp only [File.text, String.fromUTF8?, String.toUTF8_eq_toByteArray, dif_pos text.isValidUTF8]
  rfl

namespace Folder

/-- A name that leads one folder down, or to a file. -/
def Descends (name : String) : Prop :=
  (name ≠ "" ∧ name ≠ "." ∧ name ≠ "..") ∧ name.utf8ByteSize ≤ nameLimit

instance : DecidablePred Descends := fun _ => inferInstanceAs (Decidable (_ ∧ _))

variable {around around' : List Folder} {here : Folder} {name : String}
  {target other rest : List String} {bytes found : ByteArray}

theorem follow_cons_eq_content_iff (h : Descends name) :
    follow around here (name :: rest) = .content found ↔
      (∃ inner, here.lookup name = some (.folder inner) ∧
        follow (here :: around) inner rest = .content found) ∨
      (here.lookup name = some (.file found) ∧ rest = []) := by
  obtain ⟨⟨hempty, hdot, hdots⟩, hlimit⟩ := h
  simp only [follow, hempty, hdot, hdots, Nat.not_lt.mpr hlimit, or_self, if_false]
  cases here.lookup name with
  | none => simp [File.absent]
  | some entry =>
    cases entry with
    | folder inner => simp
    | file bytes => by_cases hrest : rest = [] <;> simp [hrest, File.notDirectory]

/-- Names that only go down do not depend on what is around. -/
theorem follow_around (htarget : ∀ name ∈ target, Descends name)
    (h : follow around here target = .content found) :
    follow around' here target = .content found := by
  induction target generalizing around around' here with
  | nil => exact h
  | cons name rest ih =>
    obtain ⟨hname, hrest⟩ := List.forall_mem_cons.mp htarget
    rw [follow_cons_eq_content_iff hname] at h ⊢
    rcases h with ⟨inner, hinner, h⟩ | hfile
    · exact .inl ⟨inner, hinner, ih hrest h⟩
    · exact .inr hfile

/-! ## Writing -/

theorem lookup_write_of_ne {other : String} (h : other ≠ name) :
    (write bytes (name :: rest) here).lookup other = here.lookup other := by
  have hne : (other == name) = false := by simpa using h
  cases rest <;> simp [write, List.lookup_cons, hne]

/-- The folder on the way is the one that was there, if one was. -/
theorem exists_lookup_write (bytes : ByteArray) (hrest : rest ≠ []) : ∃ inner,
    (write bytes (name :: rest) here).lookup name = some (.folder (write bytes rest inner)) ∧
      ∀ old, here.lookup name = some (.folder old) → inner = old := by
  cases rest with
  | nil => exact absurd rfl hrest
  | cons next rest =>
    refine ⟨_, List.lookup_cons_self, ?_⟩
    intro old hold
    rw [hold]

/-- **What is written is there.** -/
theorem follow_write (hsome : target ≠ []) (htarget : ∀ name ∈ target, Descends name) :
    follow around (write bytes target here) target = .content bytes := by
  induction target generalizing around here with
  | nil => exact absurd rfl hsome
  | cons name rest ih =>
    obtain ⟨hname, hrest⟩ := List.forall_mem_cons.mp htarget
    rw [follow_cons_eq_content_iff hname]
    by_cases hend : rest = []
    · subst hend
      exact .inr ⟨List.lookup_cons_self, rfl⟩
    · obtain ⟨inner, hinner, -⟩ := exists_lookup_write bytes hend
      exact .inl ⟨_, hinner, ih hend hrest⟩

/-- **All other files stay.** Only what lies on the way to the file that is written, or behind it,
can be lost. -/
theorem follow_write_of_content (hother : ∀ name ∈ other, Descends name)
    (hbehind : ¬target <+: other) (hway : ¬other <+: target)
    (h : follow around here other = .content found) :
    follow around (write bytes target here) other = .content found := by
  induction target generalizing around here other with
  | nil => exact absurd (List.nil_prefix) hbehind
  | cons name rest ih =>
    cases other with
    | nil => exact absurd List.nil_prefix hway
    | cons first others =>
      obtain ⟨hfirst, hothers⟩ := List.forall_mem_cons.mp hother
      rw [follow_cons_eq_content_iff hfirst] at h ⊢
      by_cases hsame : first = name
      · subst hsame
        simp only [List.cons_prefix_cons, true_and] at hbehind hway
        have hrest : rest ≠ [] := fun hnil => hbehind (hnil ▸ List.nil_prefix)
        rcases h with ⟨old, hold, h⟩ | ⟨-, hend⟩
        · obtain ⟨inner, hinner, hkept⟩ := exists_lookup_write bytes hrest
          rw [← hkept old hold] at h
          exact .inl ⟨_, hinner, ih hothers hbehind hway (follow_around hothers h)⟩
        · exact absurd (hend ▸ List.nil_prefix) hway
      · rw [lookup_write_of_ne hsame]
        rcases h with ⟨inner, hinner, h⟩ | hfile
        · exact .inl ⟨inner, hinner, follow_around hothers h⟩
        · exact .inr hfile

/-! ## Paths -/

/-- The first name of a path that begins with a slash is empty. -/
theorem nil_mem_names {path : String} (h : path.toList.head? = some '/') : "" ∈ names path := by
  obtain ⟨cs, hcs⟩ := List.head?_eq_some_iff.mp h
  have hsplit : [] ∈ List.splitOn '/' ('/' :: cs) := by simp [List.splitOn_cons_eq_if_modifyHead]
  rw [names, hcs]
  exact List.mem_map_of_mem hsplit

/-- **What is written at a path is in the file.** The path goes down from the working folder. -/
theorem file_write {path : String} (hlimit : path.utf8ByteSize < pathLimit)
    (hnames : ∀ name ∈ names path, Descends name) (bytes : ByteArray) (working : Folder) :
    (write bytes (names path) working).file path = .content bytes := by
  have hrelative : ¬path.toList.head? = some '/' :=
    fun hslash => (hnames "" (nil_mem_names hslash)).1.1 rfl
  rw [file, if_neg (Nat.not_le.mpr hlimit), if_neg hrelative]
  exact follow_write (by simp [names]) hnames

example : (∀ name ∈ names "lib/..x/a b", Descends name) ∧ ¬∀ name ∈ names "lib//x", Descends name := by
  decide

/-- **A written source is loaded.** The program at a path is what the text written there
gives, an error included. -/
theorem program_of_write {path : String} (hlimit : path.utf8ByteSize < pathLimit)
    (hnames : ∀ name ∈ names path, Descends name) (text : String) (working : Folder) :
    program (write text.toUTF8 (names path) working).file path =
      (Program.ofSource text).mapError fun e => .failure e.errorClass.code e.message := by
  rw [program, file_write hlimit hnames, File.text_content]

end Folder

end FrameCode.CommandLine
