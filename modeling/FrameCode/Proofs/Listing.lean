import FrameCode.Proofs.Source.Relaid

/-! The listing of a program: its source with a column of positions before the lines. All positions
take as much room as the last one (`Program.length_aligned`), so the texts of the instructions start
in the same place, and what stands from there on is the source without its header. -/

namespace FrameCode

theorem Text.Decimal.length_toDigits_le {k n : Nat} (h : k ≤ n) :
    (Nat.toDigits 10 k).length ≤ (Nat.toDigits 10 n).length := by
  have hpos : 0 < (Nat.toDigits 10 n).length := Nat.length_toDigits_pos
  have hbound := (Nat.length_toDigits_le_iff (by decide) hpos).mp (Nat.le_refl _)
  exact (Nat.length_toDigits_le_iff (by decide) hpos).mpr (Nat.lt_of_le_of_lt h hbound)

namespace Program

variable {p : Program}

/-- How many digits the last position has. -/
def numberWidth (p : Program) : Nat := (Nat.toDigits 10 p.size).length

/-- A position at the right end of its place. -/
def aligned (p : Program) (k : Nat) : List Char :=
  List.replicate (p.numberWidth - (Nat.toDigits 10 k).length) ' ' ++ Nat.toDigits 10 k

/-- The line of an instruction in the listing. -/
def listed (p : Program) (i : Instruction) : List Char :=
  p.aligned i.position ++ List.replicate 2 ' ' ++ i.text.toList

theorem length_aligned {k : Nat} (h : k ≤ p.size) : (p.aligned k).length = p.numberWidth := by
  have hle : (Nat.toDigits 10 k).length ≤ p.numberWidth := Text.Decimal.length_toDigits_le h
  rw [aligned, List.length_append, List.length_replicate]
  omega

/-! ## Lines of the listing -/

theorem toList_listing (p : Program) : p.listing.toList =
    (p.instructions.toList.map p.listed).flatMap fun l => l ++ ['\n'] := by
  have hfeed : "\n".toList = ['\n'] := rfl
  have hblanks : "  ".toList = List.replicate 2 ' ' := rfl
  have hline : ∀ i : Instruction, (Text.Decimal.padded p.numberWidth i.position ++ "  " ++ i.text ++
      "\n").toList = p.listed i ++ ['\n'] := by
    intro i
    simp only [String.toList_append, Text.Decimal.padded, String.toList_ofList, hblanks, hfeed]
    rfl
  rw [listing, String.toList_join, List.flatMap_map, List.flatMap_map]
  exact List.flatMap_congr fun i _ => hline i

theorem unbroken_aligned (p : Program) (k : Nat) : '\n' ∉ p.aligned k ∧ '\r' ∉ p.aligned k := by
  have hprinted : ∀ c ∈ p.aligned k, ' '.toNat ≤ c.toNat := by
    intro c hc
    rcases List.mem_append.mp hc with hblank | hdigit
    · rw [List.eq_of_mem_replicate hblank]
    · have hsolid := Nat.isDigit_of_mem_toDigits (by decide) (by decide) hdigit
      exact Nat.le_of_lt (Text.Decimal.solid_of_isDigit hsolid).1
  exact ⟨fun h => absurd (hprinted _ h) (by decide), fun h => absurd (hprinted _ h) (by decide)⟩

theorem lines_listing (h : p.PlainNames) :
    Text.lines p.listing.toList = p.instructions.toList.map p.listed := by
  rw [toList_listing]
  apply Text.lines_flatMap
  intro l hl
  obtain ⟨i, hi, rfl⟩ := List.mem_map.mp hl
  have hnumber := p.unbroken_aligned i.position
  have htext := Instruction.unbroken_text (h i (Array.mem_toList_iff.mp hi))
  simp [listed, hnumber, htext]

/-! ## Sources without a header -/

/-- The lines of the instructions behind so many blanks. -/
def indented (p : Program) (blanks : Nat) : List (List Char) :=
  p.instructions.toList.map fun i => List.replicate blanks ' ' ++ i.text.toList

/-- What is left of the listing without the positions, or without the blanks behind them too. -/
theorem map_drop_listed (hp : p.WellFormed) {n : Nat} (hn : p.numberWidth ≤ n)
    (hn' : n ≤ p.numberWidth + 2) :
    (p.instructions.toList.map p.listed).map (List.drop n) = p.indented (p.numberWidth + 2 - n) := by
  rw [List.map_map]
  refine List.map_congr_left fun i hi => ?_
  obtain ⟨k, hk, hget⟩ := Array.mem_iff_getElem.mp (Array.mem_toList_iff.mp hi)
  have hlast : i.position ≤ p.size := by
    rw [hp.position k i (hget ▸ Array.getElem?_eq_getElem hk)]
    exact hk
  have hlength := length_aligned hlast
  have hnumber : (p.aligned i.position).drop n = [] := List.drop_eq_nil_of_le (by omega)
  have hblanks : 2 - (n - p.numberWidth) = p.numberWidth + 2 - n := by omega
  have htext : n - p.numberWidth - 2 = 0 := by omega
  simp only [Function.comp_apply, listed, List.append_assoc, List.drop_append, hlength, hnumber,
    List.length_replicate, List.drop_replicate, hblanks, htext, List.drop_zero, List.nil_append]

theorem lines_indented (h : p.PlainNames) (blanks : Nat) :
    Text.lines ((p.indented blanks).flatMap fun l => l ++ ['\n']) = p.indented blanks := by
  apply Text.lines_flatMap
  intro l hl
  obtain ⟨i, hi, rfl⟩ := List.mem_map.mp hl
  have htext := Instruction.unbroken_text (h i (Array.mem_toList_iff.mp hi))
  simp [htext]

/-- Blanks before the lines make no difference. -/
theorem wordLines_indented (h : p.PlainNames) (blanks : Nat) :
    Source.wordLines ((p.indented blanks).flatMap fun l => l ++ ['\n']) =
      Source.wordLines ((p.indented 0).flatMap fun l => l ++ ['\n']) := by
  have hwords : (p.indented blanks).map Source.wordsOf = (p.indented 0).map Source.wordsOf := by
    rw [indented, indented, List.map_map, List.map_map]
    refine List.map_congr_left fun i _ => ?_
    refine Source.wordsOf_blank_append (fun c hc => ?_) i.text.toList
    rw [List.eq_of_mem_replicate hc]
    decide
  rw [Source.wordLines, Source.wordLines, lines_indented h, lines_indented h, hwords]

/-- The first line is an instruction, and so there is no header to leave out. -/
theorem body_indented (hp : p.WellFormed) (h : p.PlainNames) :
    Source.body (Source.numbered 0 (p.indented 0)) = Source.numbered 0 (p.indented 0) := by
  have hword : ∀ text args, Token.isHeader (.word text :: args) = false := by
    intro text args
    cases args <;> rfl
  cases hlist : p.instructions.toList with
  | nil =>
    rw [indented, hlist]
    rfl
  | cons i rest =>
    have hi : i ∈ p.instructions := Array.mem_toList_iff.mp (hlist ▸ List.mem_cons_self)
    have hline := Instruction.ofLine_text (hp.conforms i hi) (h i hi)
    rw [indented, hlist, List.map_cons, List.replicate_zero, List.nil_append,
      Source.numbered_cons hline, Source.body, hword]
    rfl

theorem assemble_indented (hp : p.WellFormed) (h : p.PlainNames) (blanks : Nat) :
    Source.assemble (String.ofList ((p.indented blanks).flatMap fun l => l ++ ['\n'])) =
      .ok (p.instructions.toList.map Instruction.node) := by
  have hbare : Source.assemble (String.ofList ((p.indented 0).flatMap fun l => l ++ ['\n'])) =
      .ok (p.instructions.toList.map Instruction.node) := by
    rw [Source.assemble, Source.content_eq, String.toList_ofList, lines_indented h,
      body_indented hp h]
    exact nodes_of_instructions hp h 0
  refine (Source.alike_of_wordLines ?_).eq_ok hbare
  rw [String.toList_ofList, String.toList_ofList]
  exact (wordLines_indented h blanks).symm

/-- **A listing is a numbered source.** For a program that was built from a source, the listing has
one line for each instruction. Line k is k at the right end of a place as wide as the number of
instructions, two blanks, and line k + 1 of the source, the header being the first. So the texts of
all instructions start in the same place. What stands behind the positions, with or without the
blanks, is assembled and loaded to the program again. -/
theorem listing_numbers_source {text : String} (h : ofSource text = .ok p) :
    let width := (Nat.toDigits 10 p.size).length
    let listing := Text.lines p.listing.toList
    let source := Text.lines p.source.toList
    p.listing.toList = listing.flatMap (fun line => line ++ ['\n']) ∧ listing.length = p.size ∧
    source.length = p.size + 1 ∧
    (∀ k, 1 ≤ k → k ≤ p.size → ∃ blanks line, source[k]? = some line ∧
      listing[k - 1]? =
        some (List.replicate blanks ' ' ++ Nat.toDigits 10 k ++ [' ', ' '] ++ line) ∧
      blanks + (Nat.toDigits 10 k).length = width) ∧
    listing.map (List.drop (width + 2)) = p.instructions.toList.map (fun i => i.text.toList) ∧
    ∀ n, width ≤ n → n ≤ width + 2 → ofSource (String.ofList
      ((listing.map (List.drop n)).flatMap fun line => line ++ ['\n'])) = .ok p := by
  intro width listing source
  obtain ⟨nodes, -, hload⟩ := ofSource_eq_ok_iff.mp h
  have hp := wellFormed_of_load hload
  have hplain := plainNames_of_ofSource h
  have hlisting : listing = p.instructions.toList.map p.listed := lines_listing hplain
  have hsource : source = header.toList :: p.instructions.toList.map fun i => i.text.toList :=
    lines_source hplain
  have hdrop : ∀ n, width ≤ n → n ≤ width + 2 →
      listing.map (List.drop n) = p.indented (width + 2 - n) := by
    intro n hn hn'
    rw [hlisting]
    exact map_drop_listed hp hn hn'
  refine ⟨?_, ?_, ?_, fun k hpos hle => ?_, ?_, fun n hn hn' => ?_⟩
  · rw [hlisting, toList_listing]
  · rw [hlisting, List.length_map]
    rfl
  · rw [hsource, List.length_cons, List.length_map]
    rfl
  · obtain ⟨j, rfl⟩ : ∃ j, k = j + 1 := ⟨k - 1, by omega⟩
    have hget : p.instructions[j]? = some p.instructions[j] := Array.getElem?_eq_getElem hle
    have hposition := hp.position j _ hget
    have hwidth : (Nat.toDigits 10 (j + 1)).length ≤ width := Text.Decimal.length_toDigits_le hle
    refine ⟨width - (Nat.toDigits 10 (j + 1)).length, p.instructions[j].text.toList, ?_, ?_,
      by omega⟩
    · simp [hsource, hget]
    · simp only [hlisting, Nat.add_sub_cancel, List.getElem?_map, Array.getElem?_toList, hget,
        Option.map_some, listed, hposition]
      rfl
  · rw [hdrop _ (by omega) (Nat.le_refl _), Nat.sub_self]
    rfl
  · rw [hdrop n hn hn']
    exact ofSource_of_assemble hload (assemble_indented hp hplain _)

/-- A program of ten instructions: the position of the ninth has a blank before it. -/
theorem listing_numbers_source_of_ten :
    let text := String.join (List.replicate 9 "RETURN\n") ++ "\n  nots # the last"
    ∃ p, ofSource text = .ok p ∧
      (Text.lines p.listing.toList)[8]? = some " 9  RETURN".toList ∧
      (Text.lines p.listing.toList)[9]? = some "10  NOTS".toList ∧
      ofSource (String.ofList (((Text.lines p.listing.toList).map (List.drop 2)).flatMap
        fun line => line ++ ['\n'])) = .ok p := by
  intro text
  have hbuilt : (ofSource text).map (fun p =>
      (p.size, (Text.lines p.source.toList)[9]?, (Text.lines p.source.toList)[10]?)) =
        .ok (10, some "RETURN".toList, some "NOTS".toList) := by decide +kernel
  clear_value text
  cases hp : ofSource text with
  | error e =>
    rw [hp] at hbuilt
    cases hbuilt
  | ok p =>
    simp only [hp, Except.map, Except.ok.injEq, Prod.mk.injEq] at hbuilt
    obtain ⟨hsize, hninth, htenth⟩ := hbuilt
    obtain ⟨-, -, -, hlines, -, hagain⟩ := listing_numbers_source hp
    rw [hsize] at hlines hagain
    obtain ⟨blanks, line, hline, hnine, hwidth⟩ := hlines 9 (by decide) (by decide)
    obtain ⟨blanks', line', hline', hten, hwidth'⟩ := hlines 10 (by decide) (by decide)
    obtain rfl : blanks = 1 := Nat.add_right_cancel hwidth
    obtain rfl : blanks' = 0 := Nat.add_right_cancel (m := 2) hwidth'
    obtain rfl := Option.some.inj (hline.symm.trans hninth)
    obtain rfl := Option.some.inj (hline'.symm.trans htenth)
    exact ⟨p, rfl, hnine, hten, hagain 2 (by decide) (by decide)⟩

end Program

end FrameCode
