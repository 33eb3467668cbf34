import FrameCode.Proofs.Host
import FrameCode.Proofs.Text.Layout
import FrameCode.Proofs.Text.Utf8
import Mathlib.Data.List.Count

/-! The lines of a byte stream. They are split off the bytes and then decoded, each by
itself: reading takes one line after the other off the bytes (`Input.read_eq_nextLine?`). As the
bytes that end a line stand for themselves, decoding the whole stream and splitting the text
gives the same lines (`Text.map_decode_splitLines`). -/

namespace FrameCode

namespace Text

/-! ## Splitting and decoding -/

theorem decode_dropReturn (line : List UInt8) :
    Utf8.decode (dropReturn 0x0D line) = dropReturn '\r' (Utf8.decode line) := by
  have hcr : (0x0D : UInt8).toNat < 0x80 := by decide
  have hends : (Utf8.decode line).getLast? = some '\r' ↔ line.getLast? = some 0x0D :=
    Utf8.getLast?_decode_iff hcr
  unfold dropReturn
  by_cases hlast : line.getLast? = some 0x0D
  · rw [if_pos hlast, if_pos (hends.mpr hlast)]
    obtain ⟨front, rfl⟩ := List.getLast?_eq_some_iff.mp hlast
    rw [List.dropLast_concat, Utf8.decode_append_low front hcr]
    exact List.dropLast_concat.symm
  · rw [if_neg hlast, if_neg fun h => hlast (hends.mp h)]

/-- Lines that are split off first and decoded then are the lines of the decoded text. -/
theorem map_decode_splitLines (bytes : List UInt8) :
    (splitLines 0x0A 0x0D bytes).map Utf8.decode = lines (Utf8.decode bytes) := by
  have hlf : (0x0A : UInt8).toNat < 0x80 := by decide
  induction hlen : bytes.length using Nat.strongRecOn generalizing bytes with
  | ind n ih =>
    by_cases hmem : (0x0A : UInt8) ∈ bytes
    · obtain ⟨line, rest, rfl, hline⟩ := List.eq_append_cons_of_mem hmem
      have hrest := ih rest.length (by simp [← hlen]; omega) rest rfl
      have hline' : '\n' ∉ Utf8.decode line := fun h => hline ((Utf8.mem_decode_iff hlf).mp h)
      rw [splitLines_append hline, List.map_cons, hrest, decode_dropReturn,
        Utf8.decode_append_low line hlf]
      exact (splitLines_append hline' _).symm
    · cases bytes with
      | nil => rfl
      | cons b rest =>
        have hmem' : '\n' ∉ Utf8.decode (b :: rest) := fun h => hmem ((Utf8.mem_decode_iff hlf).mp h)
        have hne := List.cons_ne_nil b rest
        rw [splitLines_of_not_mem hmem hne]
        exact (splitLines_of_not_mem hmem' (Utf8.decode_ne_nil hne)).symm

/-! ## Carriage returns -/

theorem flatten_consFirst {α : Type} (a : α) (ls : List (List α)) :
    (consFirst a ls).flatten = a :: ls.flatten := by
  cases ls <;> rfl

section Returns

variable {α : Type} [DecidableEq α] {lf cr : α}

/-- Every `lf` ends a line, and what comes after the last one is one more line if there is anything. -/
theorem length_splitLines (l : List α) : (splitLines lf cr l).length =
    l.count lf + if l.getLast?.all (· = lf) then 0 else 1 := by
  induction hlen : l.length using Nat.strongRecOn generalizing l with
  | ind n ih =>
    by_cases hmem : lf ∈ l
    · obtain ⟨line, rest, rfl, hline⟩ := List.eq_append_cons_of_mem hmem
      have hrest := ih rest.length (by simp [← hlen]; omega) rest rfl
      have hlast : (line ++ lf :: rest).getLast?.all (· = lf) = rest.getLast?.all (· = lf) := by
        cases h : rest.getLast? <;> simp [List.getLast?_append, List.getLast?_cons, h]
      rw [splitLines_append hline, List.length_cons, hrest, hlast, List.count_append,
        List.count_eq_zero_of_not_mem hline, List.count_cons_self]
      omega
    · cases l with
      | nil => rfl
      | cons a rest =>
        have hne := List.cons_ne_nil a rest
        have hlast : ¬(a :: rest).getLast hne = lf := fun h => hmem (h ▸ List.getLast_mem hne)
        rw [splitLines_of_not_mem hmem hne, List.count_eq_zero_of_not_mem hmem,
          List.getLast?_eq_some_getLast hne]
        simp [hlast]

theorem length_splitLines_le (l : List α) : (splitLines lf cr l).length ≤ l.length := by
  rw [length_splitLines]
  split
  · exact List.count_le_length
  · next hlast =>
    cases h : l.getLast? with
    | none => simp [h] at hlast
    | some a =>
      have hne : a ≠ lf := by simpa [h] using hlast
      exact List.count_lt_length_iff.mpr ⟨a, List.mem_of_getLast? h, hne⟩

/-- How often `cr` stands somewhere with no `lf` right after it. -/
def loneReturns (lf cr : α) (l : List α) : Nat :=
  (List.range l.length).countP fun k => l[k]? = some cr ∧ l[k + 1]? ≠ some lf

theorem loneReturns_cons (a : α) (l : List α) : loneReturns lf cr (a :: l) =
    loneReturns lf cr l + if a = cr ∧ l.head? ≠ some lf then 1 else 0 := by
  simp only [loneReturns, List.length_cons, List.range_succ_eq_map, List.countP_cons,
    List.countP_map, Function.comp_def, List.getElem?_cons_succ, List.getElem?_cons_zero,
    Option.some.injEq, List.head?_eq_getElem?, decide_eq_true_eq]

/-- Lines keep each `cr` that no `lf` follows, and no other. -/
theorem count_splitLines (hne : cr ≠ lf) (l : List α) :
    (splitLines lf cr l).flatten.count cr = loneReturns lf cr l := by
  induction l with
  | nil => rfl
  | cons a l ih =>
    rw [loneReturns_cons, ← ih, splitLines]
    by_cases hlf : a = lf
    · have hcr : ¬a = cr := fun h => hne (h.symm.trans hlf)
      simp [hlf, hne.symm]
    · rw [if_neg hlf]
      by_cases hcr : a = cr
      · by_cases hhead : l.head? = some lf
        · simp [hcr, hhead]
        · simp [hcr, hhead, flatten_consFirst]
      · simp [hcr, flatten_consFirst]

end Returns

end Text

/-! ## Reading -/

namespace Input

/-- The input after a number of reads. -/
def afterReads (s : Input) (k : Nat) : Input := Nat.iterate (fun s => s.read.2) k s

theorem Answers.afterReads {s : Input} (h : s.Answers) (k : Nat) :
    (s.afterReads k).Answers ∧ (s.afterReads k).lines = s.lines.drop k := by
  induction k with
  | zero => exact ⟨h, rfl⟩
  | succ k ih =>
    have hread : s.afterReads (k + 1) = (s.afterReads k).read.2 :=
      Function.iterate_succ_apply' _ k s
    rw [hread, ih.1.read]
    refine ⟨ih.1, ?_⟩
    show (s.afterReads k).lines.tail = s.lines.drop (k + 1)
    rw [ih.2, List.tail_drop]

theorem Answers.read_afterReads {s : Input} (h : s.Answers) (k : Nat) :
    (s.afterReads k).read.1 = .ok s.lines[k]? := by
  obtain ⟨hanswers, hlines⟩ := h.afterReads k
  rw [hanswers.read, hlines, List.head?_drop]

/-! ### One line off the bytes -/

theorem untilFeed_append {line : List UInt8} (h : 0x0A ∉ line) (rest : List UInt8) :
    untilFeed (line ++ 0x0A :: rest) = (line ++ [0x0A], rest) := by
  induction line with
  | nil => rfl
  | cons b line ih =>
    have hb : ¬b = 0x0A := fun heq => h (heq ▸ List.mem_cons_self)
    rw [List.cons_append, untilFeed, if_neg hb, ih fun hmem => h (List.mem_cons_of_mem b hmem)]
    rfl

theorem untilFeed_of_not_mem {bytes : List UInt8} (h : 0x0A ∉ bytes) :
    untilFeed bytes = (bytes, []) := by
  induction bytes with
  | nil => rfl
  | cons b rest ih =>
    have hb : ¬b = 0x0A := fun heq => h (heq ▸ List.mem_cons_self)
    rw [untilFeed, if_neg hb, ih fun hmem => h (List.mem_cons_of_mem b hmem)]

/-- The lines are the next one and those of the bytes behind it. -/
theorem linesOfBytes_eq_nextLine? (bytes : List UInt8) : linesOfBytes bytes =
    (nextLine? bytes).elim [] fun next => next.1 :: linesOfBytes next.2 := by
  by_cases hmem : 0x0A ∈ bytes
  · obtain ⟨line, rest, rfl, hline⟩ := List.eq_append_cons_of_mem hmem
    rw [linesOfBytes, Text.splitLines_append hline, nextLine?, untilFeed_append hline]
    simp [linesOfBytes]
  · rw [nextLine?, untilFeed_of_not_mem hmem]
    cases bytes with
    | nil => rfl
    | cons b rest =>
      have hends : ¬(b :: rest).getLast? = some 0x0A := fun h => hmem (List.mem_of_getLast? h)
      rw [linesOfBytes, Text.splitLines_of_not_mem hmem (List.cons_ne_nil b rest)]
      simp [hends, linesOfBytes, Text.splitLines]

/-- What is left of a byte stream once a number of lines has been taken off. -/
def leftAfter (bytes : List UInt8) (k : Nat) : List UInt8 :=
  Nat.iterate (fun bytes => (nextLine? bytes).elim [] Prod.snd) k bytes

theorem linesOfBytes_leftAfter (bytes : List UInt8) (k : Nat) :
    linesOfBytes (leftAfter bytes k) = (linesOfBytes bytes).drop k := by
  induction k with
  | zero => rfl
  | succ k ih =>
    rw [← List.tail_drop, ← ih, leftAfter, Function.iterate_succ_apply', ← leftAfter]
    generalize leftAfter bytes k = left
    rw [linesOfBytes_eq_nextLine? left]
    cases nextLine? left <;> rfl

/-- **Reading takes one line off the bytes.** The answer to each read of a byte stream is the next
line of what the reads before it have left. -/
theorem read_eq_nextLine? (bytes : List UInt8) (k : Nat) :
    ((ofBytes bytes).afterReads k).read.1 =
      .ok ((nextLine? (leftAfter bytes k)).map Prod.fst) := by
  have hanswers : (ofBytes bytes).Answers := fun _ => rfl
  have hlines : (linesOfBytes bytes)[k]? = (linesOfBytes (leftAfter bytes k)).head? := by
    rw [linesOfBytes_leftAfter, List.head?_drop]
  rw [hanswers.read_afterReads, ofBytes, hlines, linesOfBytes_eq_nextLine?]
  cases nextLine? (leftAfter bytes k) <;> rfl

/-! ### All lines -/

theorem linesOfBytes_eq (bytes : List UInt8) :
    linesOfBytes bytes = (Text.lines (Text.Utf8.decode bytes)).map String.ofList := by
  rw [← Text.map_decode_splitLines, List.map_map]
  rfl

/-- Every line feed ends a line, and the bytes behind the last one are a line if there are any. -/
theorem length_linesOfBytes (bytes : List UInt8) : (linesOfBytes bytes).length =
    bytes.count 0x0A + if bytes.getLast?.all (· = 0x0A) then 0 else 1 := by
  rw [linesOfBytes, List.length_map, Text.length_splitLines]

theorem length_linesOfBytes_le (bytes : List UInt8) : (linesOfBytes bytes).length ≤ bytes.length := by
  rw [linesOfBytes, List.length_map]
  exact Text.length_splitLines_le bytes

theorem count_linesOfBytes (bytes : List UInt8) :
    ((linesOfBytes bytes).flatMap String.toList).count '\r' = Text.loneReturns 0x0A 0x0D bytes := by
  have hcr : (0x0D : UInt8).toNat < 0x80 := by decide
  rw [← Text.count_splitLines (by decide), linesOfBytes, List.flatMap_map]
  induction Text.splitLines 0x0A 0x0D bytes with
  | nil => rfl
  | cons line rest ih =>
    rw [List.flatMap_cons, List.flatten_cons, List.count_append, List.count_append, ih,
      String.toList_ofList, ← Text.Utf8.count_decode hcr line]
    rfl

/-- **Splitting comes before decoding, or after it.** The lines that are read from a byte stream,
one by one, are those of the whole stream decoded. There are no more of them than bytes, and
whoever reads on is told that there is no line left. The lines keep each carriage return that no
line feed follows, and no other. Where the bytes encode a text, the lines are those of the text.
Decoding takes the bytes from the left: an encoding gives its character, and where none comes
next one replacement stands for the longest run that begins one, or for a single byte. -/
theorem read_ofBytes (bytes : List UInt8) :
    linesOfBytes bytes = (Text.lines (Text.Utf8.decode bytes)).map String.ofList ∧
    (∀ k, ((ofBytes bytes).afterReads k).read.1 =
      .ok ((Text.lines (Text.Utf8.decode bytes)).map String.ofList)[k]?) ∧
    (∀ k, ((ofBytes bytes).afterReads (bytes.length + k)).read.1 = .ok none) ∧
    ((linesOfBytes bytes).flatMap String.toList).count '\r' =
      (List.range bytes.length).countP (fun k => bytes[k]? = some 0x0D ∧ bytes[k + 1]? ≠ some 0x0A) ∧
    (∀ text : String, linesOfBytes text.toUTF8.data.toList =
      (Text.lines text.toList).map String.ofList) ∧
    (∀ c rest, bytes = String.utf8EncodeChar c ++ rest →
      Text.Utf8.decode bytes = c :: Text.Utf8.decode rest) ∧
    (bytes ≠ [] → (∀ c, ¬String.utf8EncodeChar c <+: bytes) →
      ∃ piece rest, bytes = piece ++ rest ∧ piece ≠ [] ∧
        (Text.Utf8.Begins piece ∨ piece.length = 1) ∧
        (∀ longer, longer <+: bytes → Text.Utf8.Begins longer → longer.length ≤ piece.length) ∧
        Text.Utf8.decode bytes = Text.Utf8.replacement :: Text.Utf8.decode rest) := by
  have hanswers : (ofBytes bytes).Answers := fun _ => rfl
  have hread : ∀ k, ((ofBytes bytes).afterReads k).read.1 = .ok (linesOfBytes bytes)[k]? :=
    hanswers.read_afterReads
  refine ⟨linesOfBytes_eq bytes, fun k => ?_, fun k => ?_, count_linesOfBytes bytes, fun text => ?_,
    fun c rest hbytes => ?_, Text.Utf8.decode_of_broken⟩
  · rw [hread, linesOfBytes_eq]
  · have hlen := length_linesOfBytes_le bytes
    rw [hread, List.getElem?_eq_none (by omega)]
  · rw [linesOfBytes_eq, String.toUTF8, ← String.utf8Encode_toList, Text.Utf8.decode_utf8Encode]
  · rw [hbytes, Text.Utf8.decode_utf8EncodeChar]

/-- Two bytes of three, cut off by a return and a line feed, then a lone return. No encoding comes
at the cut, since the character that is decoded there is encoded in other bytes. -/
theorem read_ofBytes_cut_short :
    linesOfBytes [0x61, 0xE2, 0x82, 0x0D, 0x0A, 0x0D] = ["a\uFFFD", "\r"] ∧
    Text.Utf8.decode [0x61, 0xE2, 0x82, 0x0D, 0x0A, 0x0D] =
      'a' :: Text.Utf8.decode [0xE2, 0x82, 0x0D, 0x0A, 0x0D] ∧
    ∃ piece rest, [0xE2, 0x82, 0x0D, 0x0A, 0x0D] = piece ++ rest ∧ piece ≠ [] ∧
      (Text.Utf8.Begins piece ∨ piece.length = 1) ∧
      (∀ longer, longer <+: [0xE2, 0x82, 0x0D, 0x0A, 0x0D] → Text.Utf8.Begins longer →
        longer.length ≤ piece.length) ∧
      Text.Utf8.decode [0xE2, 0x82, 0x0D, 0x0A, 0x0D] =
        Text.Utf8.replacement :: Text.Utf8.decode rest := by
  have hcut : ∀ c, ¬String.utf8EncodeChar c <+: [0xE2, 0x82, 0x0D, 0x0A, 0x0D] := by
    rintro c ⟨rest, hbytes⟩
    have hdecode := Text.Utf8.decode_utf8EncodeChar c rest
    rw [hbytes] at hdecode
    have hc : Text.Utf8.replacement = c := (List.cons.inj hdecode).1
    rw [← hc] at hbytes
    exact absurd (List.cons.inj hbytes).1 (by decide)
  obtain ⟨hlines, -, -, -, -, hencoded, -⟩ := read_ofBytes [0x61, 0xE2, 0x82, 0x0D, 0x0A, 0x0D]
  obtain ⟨-, -, -, -, -, -, hbroken⟩ := read_ofBytes [0xE2, 0x82, 0x0D, 0x0A, 0x0D]
  exact ⟨hlines.trans (by decide), hencoded 'a' _ (by decide), hbroken (List.cons_ne_nil _ _) hcut⟩

end Input

end FrameCode
