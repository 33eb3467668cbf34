import FrameCode.Proofs.Node.Parts
import FrameCode.Proofs.Source.RoundTrip

/-! Which texts can be assembled. A line is legal or has a first fault, which is told from its
words alone; a text can be assembled if all its lines are legal, a header apart, and otherwise
the first line that is not gives the error (`Source.verdict_body`). -/

namespace FrameCode

namespace Source

/-! ## Legal lines -/

/-- The words of a line, its comment cut off. -/
def wordsOf (line : List Char) : List (List Char) := Text.words (line.takeWhile (· != '#'))

/-- What may stand before the first `@` of an operand: a frame or a type. -/
def marks : List String := ["GF", "LF", "TF", "int", "bool", "string", "nil"]

/-- The slots for the words after one that names an opcode. -/
def slotsAfter (head : List Char) : List Slot :=
  ((Opcode.ofMnemonic? (String.ofList head)).map Opcode.signature).getD []

/-- The words that give an operand for a slot, or where there is no slot. -/
inductive Fits (slot : Option Slot) (w : List Char) : Prop
  | named (name : slot = some .label ∨ slot = some .type)
  | tagged {mark body : List Char} (plain : w.head? ≠ some '.') (parts : w = mark ++ '@' :: body)
    (first : '@' ∉ mark) (known : String.ofList mark ∈ marks)
  | spare (surplus : slot = none) (plain : w.head? ≠ some '.') (untagged : '@' ∉ w)

/-- The words of a line that an instruction can be read from. -/
structure Legal (head : List Char) (args : List (List Char)) : Prop where
  plain : head.head? ≠ some '.'
  count : args.length ≤ 3
  operands : ∀ (k : Nat) w, args[k]? = some w → Fits (slotsAfter head)[k]? w

/-- What is wrong with a line, the first thing that is: a directive, then the number of
operands, then the operands from left to right. -/
inductive FirstFault (head : List Char) (args : List (List Char)) : SourceFault → Prop
  | directive (dot : head.head? = some '.') :
    FirstFault head args (.unexpectedDirective (String.ofList head))
  | count (plain : head.head? ≠ some '.') (many : 3 < args.length) :
    FirstFault head args (.tooManyOperands args.length)
  | operand {k : Nat} {w : List Char} (plain : head.head? ≠ some '.') (count : args.length ≤ 3)
    (here : args[k]? = some w) (misfit : ¬Fits (slotsAfter head)[k]? w)
    (before : ∀ j < k, ∀ v, args[j]? = some v → Fits (slotsAfter head)[j]? v) :
    FirstFault head args (.malformedOperand (String.ofList w))

theorem FirstFault.not_legal {head : List Char} {args : List (List Char)} {fault : SourceFault}
    (h : FirstFault head args fault) : ¬Legal head args := by
  intro hlegal
  cases h with
  | directive dot => exact hlegal.plain dot
  | count _ many => exact Nat.not_lt.mpr hlegal.count many
  | operand _ _ here misfit _ => exact misfit (hlegal.operands _ _ here)

/-! ## From words to an operand, and to a node -/

theorem mem_marks_iff {mark : String} : mark ∈ marks ↔
    (FrameKind.ofMark? mark).isSome = true ∨ (TypeTag.ofName? mark).isSome = true := by
  have hframes : marks = FrameKind.all.map FrameKind.mark ++ TypeTag.all.map TypeTag.name := rfl
  simp only [hframes, FrameKind.ofMark?, TypeTag.ofName?, List.find?_isSome, List.mem_append,
    List.mem_map, beq_iff_eq]

theorem isSome_operand?_tagged {slot : Option Slot}
    (hslot : ¬(slot = some .label ∨ slot = some .type)) (mark body : String) :
    ((Token.tagged mark body).operand? slot).isSome = true ↔ mark ∈ marks := by
  have hread : (Token.tagged mark body).operand? slot =
      if (FrameKind.ofMark? mark).isSome then some ("var", (Token.tagged mark body).text)
      else if (TypeTag.ofName? mark).isSome then some (mark, body) else none := by
    rcases slot with _ | _ | _ | _ | _ <;> simp_all [Token.operand?]
  rw [hread, mem_marks_iff]
  split
  · next hframe => simp [hframe]
  · next hframe => split <;> simp_all

/-- A word gives an operand if and only if it fits. Its shape decides: a directive, a mark and a
body, or neither. -/
theorem isSome_operand?_iff (slot : Option Slot) (w : List Char) :
    ((Token.ofWord w).operand? slot).isSome = true ↔ Fits slot w := by
  by_cases hnamed : slot = some .label ∨ slot = some .type
  · refine ⟨fun _ => .named hnamed, fun _ => ?_⟩
    rcases hnamed with rfl | rfl <;> simp [Token.operand?]
  unfold Token.ofWord
  by_cases hdot : w.head? = some '.'
  · have hnone : (Token.directive (String.ofList w)).operand? slot = none := by
      rcases slot with _ | _ | _ | _ | _ <;> simp_all [Token.operand?]
    rw [if_pos hdot, hnone]
    refine ⟨fun hsome => (by cases hsome), fun hfits => ?_⟩
    cases hfits with
    | named name => exact absurd name hnamed
    | tagged plain _ _ _ | spare _ plain _ => exact absurd hdot plain
  · rw [if_neg hdot]
    cases hcut : Text.cut? '@' w with
    | none =>
      have huntagged := Text.cut?_eq_none_iff.mp hcut
      have hword : ((Token.word (String.ofList w)).operand? slot).isSome = true ↔ slot = none := by
        rcases slot with _ | _ | _ | _ | _ <;> simp_all [Token.operand?]
      refine hword.trans ⟨fun hslot => .spare hslot hdot huntagged, fun hfits => ?_⟩
      cases hfits with
      | named name => exact absurd name hnamed
      | tagged _ parts _ _ => exact absurd (by simp [parts]) huntagged
      | spare surplus _ _ => exact surplus
    | some parts =>
      obtain ⟨mark, body⟩ := parts
      have hparts := Text.eq_append_of_cut? hcut
      refine (isSome_operand?_tagged hnamed _ _).trans ⟨fun hknown => ?_, fun hfits => ?_⟩
      · exact .tagged hdot hparts (Text.not_mem_of_cut? hcut) hknown
      · cases hfits with
        | named name => exact absurd name hnamed
        | tagged _ parts first known =>
          rw [parts, Text.cut?_append first] at hcut
          cases hcut
          exact known
        | spare _ _ untagged => exact absurd (by simp [hparts]) untagged

/-- The words after the first one give a node, or the first that does not fit gives the fault. -/
theorem withOperands_words (n : Node) (slots : List Slot) (ws : List (List Char)) :
    ((∃ n', n.withOperands slots (ws.map Token.ofWord) = .ok n') ∧
      ∀ (k : Nat) w, ws[k]? = some w → Fits slots[k]? w) ∨
    ∃ (k : Nat) (w : List Char), ws[k]? = some w ∧ ¬Fits slots[k]? w ∧
      (∀ j < k, ∀ v, ws[j]? = some v → Fits slots[j]? v) ∧
      n.withOperands slots (ws.map Token.ofWord) =
        .error (.malformedOperand (String.ofList w)) := by
  induction ws generalizing n slots with
  | nil => exact .inl ⟨⟨n, rfl⟩, by simp⟩
  | cons w ws ih =>
    have hfits := isSome_operand?_iff slots.head? w
    rw [List.map_cons, Node.withOperands]
    cases hoperand : (Token.ofWord w).operand? slots.head? with
    | none =>
      rw [hoperand, List.head?_eq_getElem?] at hfits
      refine .inr ⟨0, w, rfl, fun h => ?_, by simp, by rw [Token.text_ofWord]⟩
      cases hfits.mpr h
    | some operand =>
      rw [hoperand, List.head?_eq_getElem?] at hfits
      have hfirst : Fits slots[0]? w := hfits.mp rfl
      rcases ih (n.arg operand.1 operand.2) slots.tail with ⟨hok, hrest⟩ | ⟨k, v, hv, hmisfit, hbefore, herror⟩
      · refine .inl ⟨hok, fun k v hv => ?_⟩
        cases k with
        | zero =>
          cases hv
          exact hfirst
        | succ k =>
          rw [← List.getElem?_tail]
          exact hrest k v hv
      · rw [List.getElem?_tail] at hmisfit
        refine .inr ⟨k + 1, v, hv, hmisfit, fun j hj v' hv' => ?_, herror⟩
        cases j with
        | zero =>
          cases hv'
          exact hfirst
        | succ j =>
          rw [← List.getElem?_tail]
          exact hbefore j (Nat.lt_of_succ_lt_succ hj) v' hv'

theorem ofTokens_words (order : Nat) (head : List Char) (args : List (List Char)) :
    (Legal head args ∧
      ∃ n, Node.ofTokens order (Token.ofWord head) (args.map Token.ofWord) = .ok n) ∨
    ∃ fault, FirstFault head args fault ∧
      Node.ofTokens order (Token.ofWord head) (args.map Token.ofWord) = .error fault := by
  by_cases hdot : head.head? = some '.'
  · refine .inr ⟨_, .directive hdot, ?_⟩
    rw [Token.ofWord, if_pos hdot]
    rfl
  · have hhead : ∀ text, Token.ofWord head ≠ .directive text := by
      intro text
      rw [Token.ofWord, if_neg hdot]
      split <;> simp
    have hread : Node.ofTokens order (Token.ofWord head) (args.map Token.ofWord) =
        if 3 < args.length then .error (.tooManyOperands args.length)
        else Node.withOperands ⟨some (Text.Decimal.ofNat order), some (String.ofList head), []⟩
          (slotsAfter head) (args.map Token.ofWord) := by
      unfold Node.ofTokens
      split
      · next text h => exact absurd h (hhead text)
      · rw [List.length_map, Token.text_ofWord]
        rfl
    rw [hread]
    by_cases hcount : 3 < args.length
    · rw [if_pos hcount]
      exact .inr ⟨_, .count hdot hcount, rfl⟩
    · rw [if_neg hcount]
      have hcount := Nat.not_lt.mp hcount
      rcases withOperands_words _ (slotsAfter head) args with
        ⟨hok, hfits⟩ | ⟨k, w, hw, hmisfit, hbefore, herror⟩
      · exact .inl ⟨⟨hdot, hcount, hfits⟩, hok⟩
      · exact .inr ⟨_, .operand hdot hcount hw hmisfit hbefore, herror⟩

/-! ## Lines -/

/-- The line, counted from zero, has these words. -/
def HoldsWords (lines : List (List Char)) (k : Nat) (head : List Char) (args : List (List Char)) :
    Prop :=
  ∃ line, lines[k]? = some line ∧ wordsOf line = head :: args

/-- The line is the header: the first with words in it, with the header as its only word. -/
def HeaderAt (lines : List (List Char)) (k : Nat) : Prop :=
  (∀ j < k, ∀ line, lines[j]? = some line → wordsOf line = []) ∧
    ∃ w, HoldsWords lines k w [] ∧ Text.Recased Program.header.toList w

/-- The line is one that an instruction is read from. -/
def Instructs (lines : List (List Char)) (k : Nat) (head : List Char) (args : List (List Char)) :
    Prop :=
  HoldsWords lines k head args ∧ ¬HeaderAt lines k

/-- What becomes of lines that `read` makes nodes of: all of those that matter are legal, or the
first that is not decides, whatever follows it. The number in an error counts on from `first`. -/
inductive Verdict (matters : List (List Char) → Nat → List Char → List (List Char) → Prop)
    (read : List (List Char) → Except SourceError (List Node)) (first : Nat)
    (lines : List (List Char)) : Prop
  | passed {ns : List Node} (nodes : read lines = .ok ns)
    (legal : ∀ k head args, matters lines k head args → Legal head args)
  | failed {k : Nat} {head : List Char} {args : List (List Char)} {fault : SourceFault}
    (here : matters lines k head args) (illegal : FirstFault head args fault)
    (before : ∀ j < k, ∀ head args, matters lines j head args → Legal head args)
    (error : ∀ lines', lines'.take (k + 1) = lines.take (k + 1) →
      read lines' = .error ⟨first + k + 1, fault⟩)

theorem holdsWords_zero_iff {line : List Char} {lines : List (List Char)} {head : List Char}
    {args : List (List Char)} :
    HoldsWords (line :: lines) 0 head args ↔ wordsOf line = head :: args := by
  simp [HoldsWords]

section Verdicts

variable {matters matters' : List (List Char) → Nat → List Char → List (List Char) → Prop}
  {read read' : List (List Char) → Except SourceError (List Node)} {first : Nat}
  {line : List Char} {lines : List (List Char)}

theorem exists_cons_of_take {lines' : List (List Char)} {k : Nat}
    (h : lines'.take (k + 1) = (line :: lines).take (k + 1)) :
    ∃ rest, lines' = line :: rest ∧ rest.take k = lines.take k := by
  cases lines' with
  | nil => cases h
  | cons line' rest =>
    obtain ⟨rfl, hrest⟩ := List.cons.inj h
    exact ⟨rest, rfl, hrest⟩

/-- A line in front that is legal, or does not matter. -/
theorem Verdict.cons (h : Verdict matters' read' (first + 1) lines)
    (hok : ∀ ns, read' lines = .ok ns → ∃ ns', read (line :: lines) = .ok ns')
    (herror : ∀ ls e, read' ls = .error e → read (line :: ls) = .error e)
    (hzero : ∀ head args, matters (line :: lines) 0 head args → Legal head args)
    (hsucc : ∀ k head args, matters (line :: lines) (k + 1) head args ↔ matters' lines k head args) :
    Verdict matters read first (line :: lines) := by
  cases h with
  | passed nodes legal =>
    obtain ⟨ns', hns'⟩ := hok _ nodes
    refine .passed hns' fun k head args hmatters => ?_
    cases k with
    | zero => exact hzero head args hmatters
    | succ k => exact legal k head args ((hsucc k head args).mp hmatters)
  | @failed k head args fault here illegal before error =>
    refine .failed ((hsucc k head args).mpr here) illegal (fun j hj head' args' hmatters => ?_)
      fun lines' htake => ?_
    · cases j with
      | zero => exact hzero head' args' hmatters
      | succ j =>
        exact before j (Nat.lt_of_succ_lt_succ hj) head' args' ((hsucc j head' args').mp hmatters)
    · obtain ⟨rest, rfl, hrest⟩ := exists_cons_of_take htake
      have hline : first + 1 + k + 1 = first + (k + 1) + 1 := by omega
      exact hline ▸ herror rest _ (error rest hrest)

theorem Verdict.congr (h : Verdict matters' read' first lines)
    (hmatters : ∀ k head args, matters lines k head args ↔ matters' lines k head args)
    (hread : ∀ ls, ls.head? = lines.head? → read ls = read' ls) :
    Verdict matters read first lines := by
  cases h with
  | passed nodes legal =>
    refine .passed ((hread lines rfl).trans nodes) fun k head args hk => ?_
    exact legal k head args ((hmatters k head args).mp hk)
  | @failed k head args fault here illegal before error =>
    refine .failed ((hmatters k head args).mpr here) illegal (fun j hj head' args' hj' => ?_)
      fun lines' htake => ?_
    · exact before j hj head' args' ((hmatters j head' args').mp hj')
    · have hhead : lines'.head? = lines.head? := by
        simpa [List.head?_take] using congrArg List.head? htake
      exact (hread lines' hhead).trans (error lines' htake)

end Verdicts

theorem verdict_nodes (order first : Nat) (lines : List (List Char)) :
    Verdict HoldsWords (fun ls => nodes order (numbered first ls)) first lines := by
  induction lines generalizing order first with
  | nil => exact .passed rfl (by rintro k head args ⟨line, hline, -⟩; simp at hline)
  | cons line lines ih =>
    have hsucc : ∀ k head args,
        HoldsWords (line :: lines) (k + 1) head args ↔ HoldsWords lines k head args :=
      fun _ _ _ => Iff.rfl
    cases hwords : wordsOf line with
    | nil =>
      have htokens : Token.ofLine line = [] := congrArg (List.map Token.ofWord) hwords
      refine (ih order (first + 1)).cons (fun ns hns => ⟨ns, ?_⟩) (fun ls e he => ?_) ?_ hsucc
      · simp only [numbered_skip htokens, hns]
      · simp only [numbered_skip htokens, he]
      · intro head args hzero
        rw [holdsWords_zero_iff, hwords] at hzero
        cases hzero
    | cons head args =>
      have htokens : Token.ofLine line = Token.ofWord head :: args.map Token.ofWord :=
        congrArg (List.map Token.ofWord) hwords
      rcases ofTokens_words order head args with ⟨hlegal, n, hn⟩ | ⟨fault, hfault, hn⟩
      · refine (ih (order + 1) (first + 1)).cons (fun ns hns => ⟨n :: ns, ?_⟩) (fun ls e he => ?_)
          (fun head' args' hzero => ?_) hsucc
        · simp only [numbered_cons htokens, nodes, hn, hns]
          rfl
        · simp only [numbered_cons htokens, nodes, hn, he]
          rfl
        · rw [holdsWords_zero_iff, hwords] at hzero
          cases hzero
          exact hlegal
      · refine .failed (holdsWords_zero_iff.mpr hwords) hfault
          (fun j hj => absurd hj (Nat.not_lt_zero j)) fun lines' htake => ?_
        obtain ⟨rest, rfl, -⟩ := exists_cons_of_take htake
        simp only [numbered_cons htokens, nodes, hn]
        rfl

theorem head?_of_recased {w : List Char} (h : Text.Recased Program.header.toList w) :
    w.head? = some '.' := by
  have hletters : w.map Char.toLower = '.' :: "triad".toList := h
  cases w with
  | nil => cases hletters
  | cons c w =>
    have hc : c.toLower = '.' := (List.cons.inj hletters).1
    rcases Text.toNat_toLower c with hsame | ⟨-, -, hletter, -⟩
    · rw [List.head?_cons, ← hsame, hc]
    · rw [hc] at hletter
      exact absurd hletter (by decide)

theorem isHeader_words_iff {head : List Char} {args : List (List Char)} :
    Token.isHeader ((head :: args).map Token.ofWord) = true ↔
      args = [] ∧ Text.Recased Program.header.toList head := by
  cases args with
  | cons a args => simp [Token.isHeader]
  | nil =>
    rw [List.map_singleton]
    by_cases hdot : head.head? = some '.'
    · rw [Token.ofWord, if_pos hdot]
      simp [Token.isHeader, Text.sameLetters, Text.Recased]
    · have hnot : ¬Text.Recased Program.header.toList head := fun h => hdot (head?_of_recased h)
      rw [Token.ofWord, if_neg hdot]
      split <;> simp [Token.isHeader, hnot]

theorem headerAt_zero_iff {line head : List Char} {lines args : List (List Char)}
    (hwords : wordsOf line = head :: args) :
    HeaderAt (line :: lines) 0 ↔ args = [] ∧ Text.Recased Program.header.toList head := by
  simp only [HeaderAt, holdsWords_zero_iff, hwords, List.cons.injEq]
  constructor
  · rintro ⟨-, w, ⟨rfl, hargs⟩, hletters⟩
    exact ⟨hargs, hletters⟩
  · rintro ⟨hargs, hletters⟩
    exact ⟨fun j hj => absurd hj (Nat.not_lt_zero j), head, ⟨rfl, hargs⟩, hletters⟩

theorem headerAt_succ_iff {line : List Char} {lines : List (List Char)} {k : Nat} :
    HeaderAt (line :: lines) (k + 1) ↔ wordsOf line = [] ∧ HeaderAt lines k := by
  constructor
  · rintro ⟨hblank, hheader⟩
    exact ⟨hblank 0 (Nat.succ_pos k) line rfl,
      fun j hj => hblank (j + 1) (Nat.succ_lt_succ hj), hheader⟩
  · rintro ⟨hwords, hblank, hheader⟩
    refine ⟨fun j hj line' hline => ?_, hheader⟩
    cases j with
    | zero =>
      cases hline
      exact hwords
    | succ j => exact hblank j (Nat.lt_of_succ_lt_succ hj) line' hline

/-- The verdict on all lines of a text. Blank lines come first, then perhaps the header. -/
theorem verdict_body (first : Nat) (lines : List (List Char)) :
    Verdict Instructs (fun ls => nodes 1 (body (numbered first ls))) first lines := by
  induction lines generalizing first with
  | nil => exact .passed rfl (by rintro k head args ⟨⟨line, hline, -⟩, -⟩; simp at hline)
  | cons line lines ih =>
    cases hwords : wordsOf line with
    | nil =>
      have htokens : Token.ofLine line = [] := congrArg (List.map Token.ofWord) hwords
      refine (ih (first + 1)).cons (fun ns hns => ⟨ns, ?_⟩) (fun ls e he => ?_)
        (fun head args hzero => ?_) fun k head args => ?_
      · simp only [numbered_skip htokens, hns]
      · simp only [numbered_skip htokens, he]
      · have hhead := holdsWords_zero_iff.mp hzero.1
        rw [hwords] at hhead
        cases hhead
      · exact and_congr Iff.rfl (not_congr (by simp [headerAt_succ_iff, hwords]))
    | cons head args =>
      have htokens : Token.ofLine line = Token.ofWord head :: args.map Token.ofWord :=
        congrArg (List.map Token.ofWord) hwords
      have hlater : ∀ k, ¬HeaderAt (line :: lines) (k + 1) := by simp [headerAt_succ_iff, hwords]
      have hheader : Token.isHeader (Token.ofWord head :: args.map Token.ofWord) = true ↔
          HeaderAt (line :: lines) 0 :=
        isHeader_words_iff.trans (headerAt_zero_iff hwords).symm
      by_cases hfirst : HeaderAt (line :: lines) 0
      · have hbody : ∀ ls, body (numbered first (line :: ls)) = numbered (first + 1) ls := by
          intro ls
          rw [numbered_cons htokens, body, if_pos (hheader.mpr hfirst)]
        refine (verdict_nodes 1 (first + 1) lines).cons (fun ns hns => ⟨ns, ?_⟩) (fun ls e he => ?_)
          (fun head' args' hzero => absurd hfirst hzero.2) fun k head' args' => ?_
        · simp only [hbody, hns]
        · simp only [hbody, he]
        · exact and_iff_left (hlater k)
      · refine (verdict_nodes 1 first (line :: lines)).congr (fun k head' args' => ?_)
          fun ls hls => ?_
        · cases k with
          | zero => exact and_iff_left hfirst
          | succ k => exact and_iff_left (hlater k)
        · obtain ⟨rest, rfl⟩ := List.head?_eq_some_iff.mp hls
          rw [numbered_cons htokens, body, if_neg (mt hheader.mp hfirst)]

/-- A text can be assembled if and only if every line with an instruction is legal. If not, the
error has the number of the first line that is not, counted from one with the blank lines, and
the first fault of that line, whatever lines follow it. -/
theorem assemble_eq_ok_iff_legal (text : String) :
    ((∃ ns, assemble text = .ok ns) ↔
      ∀ k head args, Instructs (Text.lines text.toList) k head args → Legal head args) ∧
    ∀ e, assemble text = .error e →
      ∃ k head args fault, e = ⟨k + 1, fault⟩ ∧
        Instructs (Text.lines text.toList) k head args ∧
        ¬Legal head args ∧ FirstFault head args fault ∧
        (∀ j < k, ∀ head' args', Instructs (Text.lines text.toList) j head' args' →
          Legal head' args') ∧
        ∀ text', (Text.lines text'.toList).take (k + 1) = (Text.lines text.toList).take (k + 1) →
          assemble text' = .error e := by
  have hread : ∀ text', assemble text' = nodes 1 (body (numbered 0 (Text.lines text'.toList))) :=
    fun text' => by rw [assemble, content_eq]
  cases verdict_body 0 (Text.lines text.toList) with
  | passed hnodes legal =>
    rw [← hread] at hnodes
    refine ⟨⟨fun _ => legal, fun _ => ⟨_, hnodes⟩⟩, fun e he => ?_⟩
    rw [hnodes] at he
    cases he
  | @failed k head args fault here illegal before error =>
    have hsame : ∀ text', (Text.lines text'.toList).take (k + 1) =
        (Text.lines text.toList).take (k + 1) → assemble text' = .error ⟨k + 1, fault⟩ := by
      intro text' htake
      rw [hread, error _ htake, Nat.zero_add]
    have herror := hsame text rfl
    refine ⟨⟨?_, fun hlegal => absurd (hlegal k head args here) illegal.not_legal⟩, fun e he => ?_⟩
    · rintro ⟨ns, hns⟩
      rw [herror] at hns
      cases hns
    · rw [herror] at he
      cases he
      exact ⟨k, head, args, fault, rfl, here, illegal.not_legal, illegal, before, hsame⟩

/-- The header is written in capitals after a comment, a label may start like a directive, and
the line after the first fault has one too. -/
theorem assemble_eq_error_fifth_line :
    let text := "# c\n .TRIAD\n\nlabel .l@x\nwrite end GF@x\nnope .y"
    assemble text = .error ⟨5, .malformedOperand "end"⟩ ∧
      ∃ k head args fault, (⟨5, .malformedOperand "end"⟩ : SourceError) = ⟨k + 1, fault⟩ ∧
        Instructs (Text.lines text.toList) k head args ∧
        ¬Legal head args ∧ FirstFault head args fault ∧
        (∀ j < k, ∀ head' args', Instructs (Text.lines text.toList) j head' args' →
          Legal head' args') ∧
        ∀ text', (Text.lines text'.toList).take (k + 1) = (Text.lines text.toList).take (k + 1) →
          assemble text' = .error ⟨5, .malformedOperand "end"⟩ := by
  intro text
  have herror : assemble text = .error ⟨5, .malformedOperand "end"⟩ := by decide +kernel
  exact ⟨herror, (assemble_eq_ok_iff_legal text).2 _ herror⟩

end Source

end FrameCode
