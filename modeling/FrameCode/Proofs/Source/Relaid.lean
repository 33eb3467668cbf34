import FrameCode.Proofs.Source.Assembled
import FrameCode.Proofs.Source.Legal

/-! How a text is laid out does not matter. All that assembling takes from a text is the words of
its lines, lines without words left out (`Source.wordLines`), but for the line numbers of errors.
Two equations carry the rest: words split at a blank (`Text.words_split`), and the lines of words
of a text split at a line feed (`Source.wordLines_append`). -/

namespace FrameCode

namespace Text

/-! ## Words -/

theorem words_blank_append {blanks : List Char} (h : ∀ c ∈ blanks, isWordBlank c = true)
    (rest : List Char) : words (blanks ++ rest) = words rest := by
  induction blanks with
  | nil => rfl
  | cons c blanks ih =>
    rw [List.cons_append, words, if_pos (h c List.mem_cons_self)]
    exact ih fun d hd => h d (List.mem_cons_of_mem c hd)

theorem words_ne_nil {c : Char} (hc : isWordBlank c = false) (rest : List Char) :
    words (c :: rest) ≠ [] := by
  rw [words, hc, if_neg Bool.false_ne_true]
  split
  · exact List.cons_ne_nil _ _
  · cases words rest <;> exact List.cons_ne_nil _ _

theorem words_cons_cons {c : Char} (hc : isWordBlank c = false) (d : Char) (rest : List Char) :
    words (c :: d :: rest) =
      if isWordBlank d then [c] :: words (d :: rest) else consFirst c (words (d :: rest)) := by
  rw [words, hc]
  rfl

/-- Words split where one part ends with a blank or the other one begins with one. -/
theorem words_split {before rest : List Char}
    (h : before.getLast?.all isWordBlank = true ∨ rest.head?.all isWordBlank = true) :
    words (before ++ rest) = words before ++ words rest := by
  induction before with
  | nil => rfl
  | cons c before ih =>
    cases before with
    | nil =>
      cases hc : isWordBlank c with
      | true => simp [words, hc]
      | false =>
        have hhead : rest.head?.all isWordBlank = true := by simpa [hc] using h
        simp [words, hc, hhead]
    | cons d before =>
      have htail : words (d :: before ++ rest) = words (d :: before) ++ words rest :=
        ih (by simpa using h)
      rw [List.cons_append] at htail
      rw [List.cons_append, List.cons_append]
      cases hc : isWordBlank c with
      | true =>
        have hskip : ∀ tail, words (c :: tail) = words tail := fun tail => by rw [words, if_pos hc]
        rw [hskip, hskip, htail]
      | false =>
        rw [words_cons_cons hc, words_cons_cons hc, htail]
        cases hd : isWordBlank d with
        | true => rfl
        | false =>
          -- the first word, which `c` belongs to, is one of the words before
          obtain ⟨first, others, hfirst⟩ := List.exists_cons_of_ne_nil (words_ne_nil hd before)
          simp [hfirst, consFirst]

end Text

namespace Source

open Text (isWordBlank)

/-! ## Lines of words -/

/-- The words of the lines that have some, comments cut off. -/
def wordLines (text : List Char) : List (List (List Char)) :=
  ((Text.lines text).map wordsOf).filter (· ≠ [])

/-- The texts of the tokens of the lines that have some. -/
def tokenLines (text : String) : List (List String) :=
  ((Text.lines text.toList).map fun line => (Token.ofLine line).map Token.text).filter (· ≠ [])

theorem tokenLines_eq (text : String) :
    tokenLines text = (wordLines text.toList).map (List.map String.ofList) := by
  have htexts : (fun line => (Token.ofLine line).map Token.text) =
      List.map String.ofList ∘ wordsOf := by
    funext line
    simp [Token.ofLine, wordsOf, Token.text_ofWord]
  rw [tokenLines, wordLines, htexts, ← List.map_map, List.filter_map]
  congr 2
  funext ws
  simp

theorem tokenLines_eq_iff {t t' : String} :
    tokenLines t = tokenLines t' ↔ wordLines t.toList = wordLines t'.toList := by
  have hinj : Function.Injective (List.map (List.map String.ofList)) :=
    List.map_injective_iff.mpr (List.map_injective_iff.mpr fun a b h => String.ofList_injective h)
  rw [tokenLines_eq, tokenLines_eq, hinj.eq_iff]

/-! ## One line -/

/-- No word goes on from the first part to the second. -/
def Apart (a b : List Char) : Prop :=
  a.getLast?.all isWordBlank = true ∨ b.head?.all isWordBlank = true

theorem takeWhile_append {a : List Char} (h : '#' ∉ a) (b : List Char) :
    (a ++ b).takeWhile (· != '#') = a ++ b.takeWhile (· != '#') := by
  refine List.takeWhile_append_of_pos fun c hc => ?_
  simpa using ne_of_mem_of_not_mem hc h

theorem wordsOf_of_not_mem {a : List Char} (h : '#' ∉ a) : wordsOf a = Text.words a := by
  have hall : (a ++ []).takeWhile (· != '#') = a ++ [] := takeWhile_append h []
  rw [List.append_nil] at hall
  rw [wordsOf, hall]

theorem wordsOf_comment (a text : List Char) : wordsOf (a ++ '#' :: text) = wordsOf a := by
  by_cases h : '#' ∈ a
  · obtain ⟨shown, hidden, rfl, hshown⟩ := List.eq_append_cons_of_mem h
    simp [wordsOf, takeWhile_append hshown]
  · rw [wordsOf, takeWhile_append h, wordsOf_of_not_mem h]
    simp

/-- What follows the start of a comment belongs to it. -/
theorem wordsOf_of_mem {a : List Char} (h : '#' ∈ a) (b : List Char) :
    wordsOf (a ++ b) = wordsOf a := by
  obtain ⟨shown, hidden, rfl, -⟩ := List.eq_append_cons_of_mem h
  rw [List.append_assoc, List.cons_append, wordsOf_comment, wordsOf_comment]

theorem wordsOf_append {a b : List Char} (h : Apart a b) (ha : '#' ∉ a) :
    wordsOf (a ++ b) = wordsOf a ++ wordsOf b := by
  rw [wordsOf, takeWhile_append ha, wordsOf_of_not_mem ha]
  refine Text.words_split (h.imp_right fun hb => ?_)
  cases b with
  | nil => rfl
  | cons c b =>
    rw [List.takeWhile_cons]
    split
    · exact hb
    · rfl

theorem wordsOf_blank_append {blanks : List Char} (h : ∀ c ∈ blanks, isWordBlank c = true)
    (b : List Char) : wordsOf (blanks ++ b) = wordsOf b := by
  have hsign : '#' ∉ blanks := fun hmem => absurd (h '#' hmem) (by decide)
  rw [wordsOf, takeWhile_append hsign, Text.words_blank_append h]
  rfl

/-- It does not matter which blanks keep two parts of a line apart. -/
theorem wordsOf_blanks {a b blanks blanks' : List Char} (h : ∀ c ∈ blanks, isWordBlank c = true)
    (h' : ∀ c ∈ blanks', isWordBlank c = true) (hapart : Apart a (blanks ++ b))
    (hapart' : Apart a (blanks' ++ b)) :
    wordsOf (a ++ (blanks ++ b)) = wordsOf (a ++ (blanks' ++ b)) := by
  by_cases ha : '#' ∈ a
  · rw [wordsOf_of_mem ha, wordsOf_of_mem ha]
  · rw [wordsOf_append hapart ha, wordsOf_append hapart' ha, wordsOf_blank_append h,
      wordsOf_blank_append h']

/-- The return that goes with a line feed is a blank at the end of the line, if it is not in the
comment. -/
theorem wordsOf_dropReturn (line : List Char) :
    wordsOf (Text.dropReturn '\r' line) = wordsOf line := by
  unfold Text.dropReturn
  split
  · next hlast =>
    obtain ⟨init, rfl⟩ := List.getLast?_eq_some_iff.mp hlast
    rw [List.dropLast_concat]
    have hblank : ∀ c ∈ ['\r'], isWordBlank c = true := by simp [isWordBlank]
    have hend : Apart init ([] ++ []) := .inr rfl
    have hreturn : Apart init (['\r'] ++ []) := .inr (by decide)
    simpa using wordsOf_blanks (by simp) hblank hend hreturn
  · rfl

/-! ## Several lines -/

theorem wordLines_of_not_mem {line : List Char} (h : '\n' ∉ line) :
    wordLines line = [wordsOf line].filter (· ≠ []) := by
  cases line with
  | nil => rfl
  | cons c line =>
    rw [wordLines, Text.lines, Text.splitLines_of_not_mem h (List.cons_ne_nil c line)]
    rfl

theorem wordLines_line {line : List Char} (h : '\n' ∉ line) (rest : List Char) :
    wordLines (line ++ '\n' :: rest) = wordLines line ++ wordLines rest := by
  rw [wordLines_of_not_mem h, wordLines, Text.lines, Text.splitLines_append h, List.map_cons,
    wordsOf_dropReturn, ← List.singleton_append, List.filter_append]
  rfl

/-- Lines of words split at any line feed. -/
theorem wordLines_append (a b : List Char) :
    wordLines (a ++ '\n' :: b) = wordLines a ++ wordLines b := by
  by_cases h : '\n' ∈ a
  · obtain ⟨line, rest, hsplit, hline⟩ := List.eq_append_cons_of_mem h
    rw [hsplit, List.append_assoc, List.cons_append, wordLines_line hline, wordLines_line hline,
      wordLines_append rest b, List.append_assoc]
  · exact wordLines_line h b
termination_by a.length
decreasing_by
  rw [hsplit, List.length_append, List.length_cons]
  omega

/-! ## Other layouts -/

/-- A blank line, or one that is a comment. -/
def Wordless (line : List Char) : Prop := '\n' ∉ line ∧ wordsOf line = []

instance (line : List Char) : Decidable (Wordless line) :=
  inferInstanceAs (Decidable ('\n' ∉ line ∧ wordsOf line = []))

/-- The texts differ in their layout: a blank line or a comment line more, a comment behind a line,
other blanks in a line, and all that on any number of lines. -/
inductive Relaid : List Char → List Char → Prop
  | refl (t : List Char) : Relaid t t
  | symm {t t' : List Char} (h : Relaid t t') : Relaid t' t
  | trans {t t' t'' : List Char} (h : Relaid t t') (h' : Relaid t' t'') : Relaid t t''
  | join {a a' b b' : List Char} (first : Relaid a a') (second : Relaid b b') :
    Relaid (a ++ '\n' :: b) (a' ++ '\n' :: b')
  | before {line : List Char} (empty : Wordless line) (t : List Char) : Relaid t (line ++ '\n' :: t)
  | behind {line : List Char} (empty : Wordless line) (t : List Char) : Relaid t (t ++ '\n' :: line)
  | comment {line text : List Char} (single : '\n' ∉ line ∧ '\n' ∉ text) :
    Relaid line (line ++ '#' :: text)
  | blanks {a b blanks blanks' : List Char} (single : '\n' ∉ a ++ b)
    (blank : ∀ c ∈ blanks ++ blanks', isWordBlank c = true ∧ c ≠ '\n')
    (apart : Apart a (blanks ++ b)) (apart' : Apart a (blanks' ++ b)) :
    Relaid (a ++ (blanks ++ b)) (a ++ (blanks' ++ b))

theorem wordLines_of_wordless {line : List Char} (h : Wordless line) : wordLines line = [] := by
  rw [wordLines_of_not_mem h.1, h.2]
  rfl

theorem wordLines_congr {line line' : List Char} (h : '\n' ∉ line) (h' : '\n' ∉ line')
    (hwords : wordsOf line = wordsOf line') : wordLines line = wordLines line' := by
  rw [wordLines_of_not_mem h, wordLines_of_not_mem h', hwords]

theorem Relaid.wordLines_eq {t t' : List Char} (h : Relaid t t') : wordLines t = wordLines t' := by
  induction h with
  | refl t => rfl
  | symm _ ih => exact ih.symm
  | trans _ _ ih ih' => exact ih.trans ih'
  | join _ _ ih ih' => rw [wordLines_append, wordLines_append, ih, ih']
  | before empty t => rw [wordLines_append, wordLines_of_wordless empty, List.nil_append]
  | behind empty t => rw [wordLines_append, wordLines_of_wordless empty, List.append_nil]
  | comment single =>
    exact wordLines_congr single.1 (by simp [single]) (wordsOf_comment _ _).symm
  | @blanks a b blanks blanks' single blank apart apart' =>
    have hfeed : ∀ l : List Char, l ⊆ blanks ++ blanks' → '\n' ∉ a ++ (l ++ b) := by
      intro l hl hmem
      rcases List.mem_append.mp hmem with ha | hmem
      · exact single (List.mem_append_left b ha)
      · rcases List.mem_append.mp hmem with hl' | hb
        · exact (blank _ (hl hl')).2 rfl
        · exact single (List.mem_append_right a hb)
    refine wordLines_congr (hfeed _ (List.subset_append_left _ _))
      (hfeed _ (List.subset_append_right _ _)) (wordsOf_blanks ?_ ?_ apart apart')
    · exact fun c hc => (blank c (List.mem_append_left _ hc)).1
    · exact fun c hc => (blank c (List.mem_append_right _ hc)).1

/-! ### Line ends -/

/-- The text with a return before every line feed. -/
def withReturns : List Char → List Char
  | [] => []
  | c :: rest => if c = '\n' then '\r' :: '\n' :: withReturns rest else c :: withReturns rest

/-- The text without the returns that stand right before a line feed. -/
def withoutReturns : List Char → List Char
  | [] => []
  | c :: rest =>
    if c = '\r' ∧ rest.head? = some '\n' then withoutReturns rest else c :: withoutReturns rest

/-- A return at the end of a line is a blank like others. -/
theorem Relaid.return {line : List Char} (h : '\n' ∉ line) : Relaid line (line ++ ['\r']) := by
  have hend : Apart line ([] ++ []) := .inr rfl
  have hreturn : Apart line (['\r'] ++ []) := .inr (by decide)
  have hrelaid := Relaid.blanks (by simpa using h) (by simp [isWordBlank]) hend hreturn
  simpa using hrelaid

/-- The induction goes through the text, with what the current line has so far in front. -/
theorem relaid_withReturns (text : List Char) {line : List Char} (h : '\n' ∉ line) :
    Relaid (line ++ text) (line ++ withReturns text) := by
  induction text generalizing line with
  | nil => exact .refl _
  | cons c rest ih =>
    by_cases hc : c = '\n'
    · have hnext : Relaid rest (withReturns rest) := ih List.not_mem_nil
      have hboth := Relaid.join (.return h) hnext
      simpa [withReturns, hc] using hboth
    · have hline : '\n' ∉ line ++ [c] := by simp [h, Ne.symm hc]
      simpa [withReturns, hc] using ih hline

theorem relaid_withoutReturns (text : List Char) {line : List Char} (h : '\n' ∉ line) :
    Relaid (line ++ text) (line ++ withoutReturns text) := by
  induction text generalizing line with
  | nil => exact .refl _
  | cons c rest ih =>
    by_cases hc : c = '\r' ∧ rest.head? = some '\n'
    · obtain ⟨rest', hrest⟩ := List.head?_eq_some_iff.mp hc.2
      have hdropped : Relaid (line ++ ['\r'] ++ '\n' :: rest') (line ++ '\n' :: rest') :=
        .join (Relaid.return h).symm (.refl rest')
      have hrelaid : Relaid (line ++ c :: rest) (line ++ rest) := by
        simpa [hc.1, hrest] using hdropped
      rw [withoutReturns, if_pos hc]
      exact hrelaid.trans (ih h)
    · rw [withoutReturns, if_neg hc]
      by_cases hfeed : c = '\n'
      · have hnext : Relaid rest (withoutReturns rest) := ih List.not_mem_nil
        rw [hfeed]
        exact .join (.refl line) hnext
      · have hline : '\n' ∉ line ++ [c] := by simp [h, Ne.symm hfeed]
        simpa using ih hline

/-! ## Assembling -/

/-- The same nodes, or errors that differ in the line at most. -/
inductive Alike : Except SourceError (List Node) → Except SourceError (List Node) → Prop
  | nodes (ns : List Node) : Alike (.ok ns) (.ok ns)
  | error (line line' : Nat) (fault : SourceFault) :
    Alike (.error ⟨line, fault⟩) (.error ⟨line', fault⟩)

theorem Alike.eq_ok {r r' : Except SourceError (List Node)} {ns : List Node} (h : Alike r r')
    (hr : r = .ok ns) : r' = .ok ns := by
  cases h with
  | nodes ns' => exact hr
  | error line line' fault => cases hr

/-- Numbered lines with the same words, whatever their numbers. -/
theorem alike_nodes {entries entries' : List (Nat × Token × List Token)}
    (h : entries.map (fun e => e.2.1 :: e.2.2) = entries'.map (fun e => e.2.1 :: e.2.2))
    (order : Nat) : Alike (nodes order entries) (nodes order entries') := by
  induction entries generalizing entries' order with
  | nil =>
    have hnil : entries' = [] := List.map_eq_nil_iff.mp h.symm
    rw [hnil]
    exact .nodes []
  | cons e rest ih =>
    obtain ⟨⟨line', head, args⟩, rest', rfl, hwords, hrest⟩ := List.map_eq_cons_iff.mp h.symm
    obtain ⟨line, _, _⟩ := e
    cases hwords
    have htail := ih hrest.symm (order + 1)
    rw [nodes, nodes]
    cases Node.ofTokens order head args with
    | error fault => exact .error line line' fault
    | ok n =>
      generalize nodes (order + 1) rest = r, nodes (order + 1) rest' = r' at htail
      cases htail with
      | nodes ns => exact .nodes (n :: ns)
      | error line line' fault => exact .error line line' fault

theorem instructionLines_congr {t t' : String} (h : wordLines t.toList = wordLines t'.toList) :
    instructionLines t = instructionLines t' := by
  have hlines : ∀ text : String, ((Text.lines text.toList).map Token.ofLine).filter (· ≠ []) =
      (wordLines text.toList).map (List.map Token.ofWord) := by
    intro text
    have hwords : Token.ofLine = List.map Token.ofWord ∘ wordsOf := rfl
    rw [wordLines, hwords, ← List.map_map, List.filter_map]
    congr 2
    funext ws
    simp
  rw [instructionLines, instructionLines, hlines, hlines, h]

theorem alike_of_wordLines {t t' : String} (h : wordLines t.toList = wordLines t'.toList) :
    Alike (assemble t) (assemble t') := by
  refine alike_nodes ?_ 1
  rw [words_body, words_body, instructionLines_congr h]

theorem Relaid.alike {t t' : String} (h : Relaid t.toList t'.toList) :
    Alike (assemble t) (assemble t') :=
  alike_of_wordLines h.wordLines_eq

/-- **Layout does not matter.** Texts with the same lines of words, comments and lines without
words left out, are assembled to the same nodes, or fail with errors that differ in the number of
the line at most. So do texts of which one is the other one laid out anew: with blank lines and
comment lines put in or taken out, with other comments behind its lines and other blanks in them,
or with other line ends. -/
theorem assemble_ignores_layout (t t' : String) :
    (tokenLines t = tokenLines t' → Alike (assemble t) (assemble t')) ∧
    (Relaid t.toList t'.toList →
      tokenLines t = tokenLines t' ∧ Alike (assemble t) (assemble t')) ∧
    Alike (assemble t) (assemble (String.ofList (withReturns t.toList))) ∧
    Alike (assemble t) (assemble (String.ofList (withoutReturns t.toList))) := by
  refine ⟨fun h => ?_, fun h => ⟨?_, h.alike⟩, Relaid.alike ?_, Relaid.alike ?_⟩
  · exact alike_of_wordLines (tokenLines_eq_iff.mp h)
  · exact tokenLines_eq_iff.mpr h.wordLines_eq
  · rw [String.toList_ofList]
    exact relaid_withReturns t.toList List.not_mem_nil
  · rw [String.toList_ofList]
    exact relaid_withoutReturns t.toList List.not_mem_nil

/-- A faulty line that has got a comment line above it, blanks, a comment and another line end. -/
theorem assemble_ignores_layout_of_fault :
    let t := "write x"
    let t' := "# none\n\twrite  x#y\r\n"
    Relaid t.toList t'.toList ∧ tokenLines t = tokenLines t' ∧
      assemble t = .error ⟨1, .malformedOperand "x"⟩ ∧
      ∃ line, assemble t' = .error ⟨line, .malformedOperand "x"⟩ := by
  intro t t'
  have hempty : Wordless [] := by decide
  have hnone : Wordless "# none".toList := by decide
  have hindented : Relaid ([] ++ ([] ++ "write x".toList)) ([] ++ (['\t'] ++ "write x".toList)) :=
    .blanks (by decide) (by simp [isWordBlank]) (.inl rfl) (.inl rfl)
  have hspaced : Relaid ("\twrite".toList ++ ([' '] ++ ['x']))
      ("\twrite".toList ++ ([' ', ' '] ++ ['x'])) :=
    .blanks (by decide) (by simp [isWordBlank]) (.inr rfl) (.inr rfl)
  have hcommented : Relaid "\twrite  x".toList ("\twrite  x".toList ++ '#' :: ['y', '\r']) :=
    .comment (by decide)
  have hended : Relaid "\twrite  x#y\r".toList "\twrite  x#y\r\n".toList := .behind hempty _
  have hheaded : Relaid "\twrite  x#y\r\n".toList "# none\n\twrite  x#y\r\n".toList :=
    .before hnone _
  have hrelaid : Relaid t.toList t'.toList :=
    (hindented.trans hspaced).trans ((hcommented.trans hended).trans hheaded)
  have hfault : assemble t = .error ⟨1, .malformedOperand "x"⟩ := by decide +kernel
  obtain ⟨hsame, hlaid, -, -⟩ := assemble_ignores_layout t t'
  obtain ⟨hlines, -⟩ := hlaid hrelaid
  have halike := hsame hlines
  rw [hfault] at halike
  generalize assemble t' = r at halike
  cases halike with
  | error _ line => exact ⟨hrelaid, hlines, hfault, line, rfl⟩

end Source

end FrameCode
