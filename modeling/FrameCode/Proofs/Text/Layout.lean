import FrameCode.Text.Lines

/-! Lines, words and trimming, read back from a text that was put together from them.
A word is plain: not empty, with no blank in it; a line that is words and single blanks
gives the words again, and lines that end in a line feed give the lines again. -/

namespace FrameCode.Text

/-! ## Characters -/

/-- Characters that a word of a source line can hold: no blank, and not the sign that
starts a comment. -/
def isPlain (c : Char) : Bool := !isWordBlank c && c != '#'

theorem isPlain_iff {c : Char} : isPlain c = true ↔ isWordBlank c = false ∧ c ≠ '#' := by
  simp [isPlain]

/-- All padding is at or below the space. -/
theorem isPadding_eq_false {c : Char} (h : 32 < c.toNat) : isPadding c = false := by
  have hne : ∀ d : Char, d.toNat ≤ 32 → (c == d) = false := by
    intro d hd
    rw [beq_eq_false_iff_ne]
    intro heq
    rw [heq] at h
    omega
  simp only [isPadding, isWordBlank, Bool.or_eq_false_iff]
  exact ⟨⟨⟨⟨⟨⟨hne _ (by decide), hne _ (by decide)⟩, hne _ (by decide)⟩, hne _ (by decide)⟩,
    hne _ (by decide)⟩, hne _ (by decide)⟩, hne _ (by decide)⟩

theorem isPlain_of_lt {c : Char} (h : 32 < c.toNat) (hc : c ≠ '#') : isPlain c = true := by
  have hpad := isPadding_eq_false h
  simp only [isPadding, Bool.or_eq_false_iff] at hpad
  exact isPlain_iff.mpr ⟨hpad.1.1, hc⟩

/-! ## Words -/

theorem words_append {w rest : List Char} (hne : w ≠ []) (hw : ∀ c ∈ w, isWordBlank c = false)
    (hrest : rest.head?.all isWordBlank = true) : words (w ++ rest) = w :: words rest := by
  induction w with
  | nil => exact absurd rfl hne
  | cons c w ih =>
    have hc := hw c List.mem_cons_self
    cases w with
    | nil => simp [words, hc, hrest]
    | cons d w =>
      have hd : isWordBlank d = false := hw d (by simp)
      have htail := ih (by simp) fun c hc => hw c (List.mem_cons_of_mem _ hc)
      rw [List.cons_append, words, htail]
      simp [hc, hd, consFirst]

/-- A first word and others, with one blank before each of them. -/
theorem words_spaced {w : List Char} {ws : List (List Char)}
    (h : ∀ v ∈ w :: ws, v ≠ [] ∧ ∀ c ∈ v, isWordBlank c = false) :
    words (w ++ ws.flatMap fun v => ' ' :: v) = w :: ws := by
  induction ws generalizing w with
  | nil =>
    obtain ⟨hne, hw⟩ := h w List.mem_cons_self
    have hend : ([] : List Char).head?.all isWordBlank = true := rfl
    simpa [words] using words_append hne hw hend
  | cons v ws ih =>
    obtain ⟨hne, hw⟩ := h w List.mem_cons_self
    have hrest := ih fun v hv => h v (List.mem_cons_of_mem w hv)
    rw [words_append hne hw rfl, List.flatMap_cons, List.cons_append]
    simp only [words]
    rw [hrest]
    rfl

theorem mem_consFirst {α : Type} {a : α} {l : List α} {ls : List (List α)} (h : l ∈ consFirst a ls) :
    l = [a] ∨ l ∈ ls ∨ ∃ first ∈ ls, l = a :: first := by
  cases ls with
  | nil => exact .inl (by simpa [consFirst] using h)
  | cons first rest =>
    rcases List.mem_cons.mp h with heq | hmem
    · exact .inr (.inr ⟨first, List.mem_cons_self, heq⟩)
    · exact .inr (.inl (List.mem_cons_of_mem first hmem))

/-- Every word is made of characters of the line that are not blank. -/
theorem mem_words {cs w : List Char} (hw : w ∈ words cs) {c : Char} (hc : c ∈ w) :
    c ∈ cs ∧ isWordBlank c = false := by
  induction cs generalizing w c with
  | nil => cases hw
  | cons a rest ih =>
    have htail : ∀ {w c}, w ∈ words rest → c ∈ w → c ∈ a :: rest ∧ isWordBlank c = false := by
      intro w c hw hc
      exact ⟨List.mem_cons_of_mem a (ih hw hc).1, (ih hw hc).2⟩
    unfold words at hw
    split at hw
    · exact htail hw hc
    · next ha =>
      have hhead : a ∈ a :: rest ∧ isWordBlank a = false := ⟨List.mem_cons_self, by simpa using ha⟩
      split at hw
      · rcases List.mem_cons.mp hw with rfl | hw
        · exact List.mem_singleton.mp hc ▸ hhead
        · exact htail hw hc
      · rcases mem_consFirst hw with rfl | hw | ⟨first, hfirst, rfl⟩
        · exact List.mem_singleton.mp hc ▸ hhead
        · exact htail hw hc
        · rcases List.mem_cons.mp hc with rfl | hc
          · exact hhead
          · exact htail hfirst hc

/-! ## Lines -/

section Lines

variable {α : Type} [DecidableEq α] {lf cr : α}

theorem dropReturn_of_not_mem {line : List α} (h : cr ∉ line) : dropReturn cr line = line :=
  if_neg fun hlast => h (List.mem_of_getLast? hlast)

theorem dropReturn_cons_cons (a b : α) (line : List α) :
    dropReturn cr (a :: b :: line) = a :: dropReturn cr (b :: line) := by
  simp only [dropReturn, List.getLast?_cons_cons, List.dropLast_cons_cons]
  split <;> rfl

/-- A line ends at the first `lf`. -/
theorem splitLines_append {line : List α} (hlf : lf ∉ line) (rest : List α) :
    splitLines lf cr (line ++ lf :: rest) = dropReturn cr line :: splitLines lf cr rest := by
  induction line with
  | nil => simp [splitLines, dropReturn]
  | cons a line ih =>
    have ha : ¬a = lf := fun heq => hlf (heq ▸ List.mem_cons_self)
    have htail := ih fun hmem => hlf (List.mem_cons_of_mem a hmem)
    rw [List.cons_append, splitLines, if_neg ha, htail]
    cases line with
    | nil =>
      by_cases hcr : a = cr
      · simp [hcr, dropReturn]
      · simp [hcr, dropReturn, consFirst]
    | cons b line =>
      have hb : ¬b = lf := fun heq => hlf (by simp [heq])
      rw [dropReturn_cons_cons]
      simp [hb, consFirst]

/-- What no `lf` ends is a line of its own. -/
theorem splitLines_of_not_mem {line : List α} (hlf : lf ∉ line) (hne : line ≠ []) :
    splitLines lf cr line = [line] := by
  induction line with
  | nil => exact absurd rfl hne
  | cons a line ih =>
    have ha : ¬a = lf := fun heq => hlf (heq ▸ List.mem_cons_self)
    have hhead : ¬line.head? = some lf := fun h =>
      hlf (List.mem_cons_of_mem a (List.mem_of_head? h))
    rw [splitLines, if_neg ha, if_neg fun h => hhead h.2]
    cases line with
    | nil => rfl
    | cons b line =>
      rw [ih (fun hmem => hlf (List.mem_cons_of_mem a hmem)) (List.cons_ne_nil b line)]
      rfl

end Lines

theorem lines_flatMap {ls : List (List Char)} (h : ∀ l ∈ ls, '\n' ∉ l ∧ '\r' ∉ l) :
    lines (ls.flatMap fun l => l ++ ['\n']) = ls := by
  induction ls with
  | nil => rfl
  | cons l ls ih =>
    obtain ⟨hlf, hcr⟩ := h l List.mem_cons_self
    have htail := ih fun l hl => h l (List.mem_cons_of_mem _ hl)
    rw [lines] at htail
    rw [List.flatMap_cons, List.append_assoc, lines, List.singleton_append, splitLines_append hlf,
      dropReturn_of_not_mem hcr, htail]

/-! ## Trimming -/

theorem trim_eq_self {set : Char → Bool} {cs : List Char} (hhead : ∀ c, cs.head? = some c → set c = false)
    (hlast : ∀ c, cs.getLast? = some c → set c = false) : trim set cs = cs := by
  have hdrop : ∀ l : List Char, (∀ c, l.head? = some c → set c = false) → l.dropWhile set = l := by
    intro l hl
    cases l with
    | nil => rfl
    | cons c l => simp [hl c rfl]
  rw [trim, hdrop cs hhead, hdrop cs.reverse (by simpa using hlast), List.reverse_reverse]

theorem trim_of_forall {set : Char → Bool} {cs : List Char} (h : ∀ c ∈ cs, set c = false) :
    trim set cs = cs :=
  trim_eq_self (fun c hc => h c (List.mem_of_head? hc)) fun c hc => h c (List.mem_of_getLast? hc)

theorem mem_of_mem_trim {set : Char → Bool} {cs : List Char} {c : Char} (h : c ∈ trim set cs) : c ∈ cs := by
  have hdrop : ∀ l : List Char, l.dropWhile set ⊆ l := fun l => (List.dropWhile_suffix set).subset
  exact hdrop cs (List.mem_reverse.mp (hdrop _ (List.mem_reverse.mp h)))

theorem head?_dropWhile {set : Char → Bool} {cs : List Char} {c : Char}
    (h : (cs.dropWhile set).head? = some c) : set c = false := by
  have hnot := List.head?_dropWhile_not set cs
  rw [h] at hnot
  simpa using hnot

/-! What is left after trimming begins and ends with characters outside the set. -/

theorem head?_trim {set : Char → Bool} {cs : List Char} {c : Char}
    (h : (trim set cs).head? = some c) : set c = false := by
  -- cutting the end off leaves a start of what it was cut from
  obtain ⟨tail, htail⟩ : trim set cs <+: cs.dropWhile set := by
    have hsuffix := List.dropWhile_suffix (l := (cs.dropWhile set).reverse) set
    simpa [trim] using List.reverse_prefix.mpr hsuffix
  have hfirst : (cs.dropWhile set).head? = some c := by
    rw [← htail, List.head?_append, h, Option.some_or]
  exact head?_dropWhile hfirst

theorem getLast?_trim {set : Char → Bool} {cs : List Char} {c : Char}
    (h : (trim set cs).getLast? = some c) : set c = false := by
  rw [trim, List.getLast?_reverse] at h
  exact head?_dropWhile h

theorem trim_trim (set : Char → Bool) (cs : List Char) : trim set (trim set cs) = trim set cs :=
  trim_eq_self (fun _ => head?_trim) fun _ => getLast?_trim

/-! ## Cutting -/

theorem toList_tagged (mark body : String) :
    (mark ++ "@" ++ body).toList = mark.toList ++ '@' :: body.toList := by
  have hat : "@".toList = ['@'] := rfl
  rw [String.toList_append, String.toList_append, hat, List.append_assoc, List.singleton_append]

theorem cut?_eq_none {sep : Char} {cs : List Char} (h : sep ∉ cs) : cut? sep cs = none := by
  induction cs with
  | nil => rfl
  | cons c cs ih =>
    have hc : ¬c = sep := fun heq => h (heq ▸ List.mem_cons_self)
    rw [cut?, if_neg hc, ih fun hmem => h (List.mem_cons_of_mem c hmem), Option.map_none]

theorem cut?_append {sep : Char} {before after : List Char} (h : sep ∉ before) :
    cut? sep (before ++ sep :: after) = some (before, after) := by
  induction before with
  | nil => simp [cut?]
  | cons c before ih =>
    have hc : ¬c = sep := fun heq => h (heq ▸ List.mem_cons_self)
    have htail := ih fun hmem => h (List.mem_cons_of_mem c hmem)
    simp [cut?, hc, htail]

theorem eq_append_of_cut? {sep : Char} {cs before after : List Char}
    (h : cut? sep cs = some (before, after)) : cs = before ++ sep :: after := by
  induction cs generalizing before with
  | nil => cases h
  | cons c cs ih =>
    unfold cut? at h
    split at h
    · next heq =>
      cases h
      simp [heq]
    · obtain ⟨⟨before', after'⟩, hcut, heq⟩ := Option.map_eq_some_iff.mp h
      cases heq
      rw [ih hcut, List.cons_append]

theorem not_mem_of_cut? {sep : Char} {cs before after : List Char}
    (h : cut? sep cs = some (before, after)) : sep ∉ before := by
  induction cs generalizing before with
  | nil => cases h
  | cons c cs ih =>
    unfold cut? at h
    split at h
    · cases h
      exact List.not_mem_nil
    · next hc =>
      obtain ⟨⟨before', after'⟩, hcut, heq⟩ := Option.map_eq_some_iff.mp h
      cases heq
      intro hmem
      rcases List.mem_cons.mp hmem with rfl | hmem
      · exact hc rfl
      · exact ih hcut hmem

theorem cut?_eq_none_iff {sep : Char} {cs : List Char} : cut? sep cs = none ↔ sep ∉ cs := by
  refine ⟨fun h hmem => ?_, cut?_eq_none⟩
  obtain ⟨before, after, rfl, hbefore⟩ := List.eq_append_cons_of_mem hmem
  rw [cut?_append hbefore] at h
  cases h

end FrameCode.Text
