import FrameCode.Proofs.Text.Escape
import FrameCode.Proofs.Text.Numeral
import Mathlib.Data.List.DropRight

/-! A text in pieces. Escapes and characters that stand for themselves divide a text in one way
(`exists_divides`, `Divides.unique`), and decoding gives one character for each piece
(`Divides.decode_eq`). How long a decoded text is, and which texts decoding leaves alone, is read
off the pieces. Two texts can be decoded one by one where no escape of the first reaches into the
second (`decode_append`). -/

namespace FrameCode.Text.Escape

/-! ## Three digits -/

/-- Three digits come first, so that a backslash before them begins an escape. -/
def DigitsFirst (cs : List Char) : Prop := 3 ≤ (cs.takeWhile Char.isDigit).length

instance (cs : List Char) : Decidable (DigitsFirst cs) := inferInstanceAs (Decidable (3 ≤ _))

theorem digitsFirst_iff {cs : List Char} :
    DigitsFirst cs ↔ ∃ x y z rest, cs = x :: y :: z :: rest ∧
      x.isDigit = true ∧ y.isDigit = true ∧ z.isDigit = true := by
  constructor
  · intro h
    have hsplit := List.takeWhile_append_dropWhile (p := Char.isDigit) (l := cs)
    have hdigits := List.all_eq_true.mp (List.all_takeWhile (p := Char.isDigit) (l := cs))
    unfold DigitsFirst at h
    generalize cs.takeWhile Char.isDigit = front at h hsplit hdigits
    rcases front with _ | ⟨x, _ | ⟨y, _ | ⟨z, front⟩⟩⟩
    · simp at h
    · simp at h
    · simp at h
    · exact ⟨x, y, z, _, hsplit.symm, hdigits x (by simp), hdigits y (by simp), hdigits z (by simp)⟩
  · rintro ⟨x, y, z, rest, rfl, hx, hy, hz⟩
    simp [DigitsFirst, hx, hy, hz]

/-- A rest completes no three digits where three characters stand before it, or where it has no
digit in front. -/
theorem digitsFirst_of_append {cs rest : List Char} (h : DigitsFirst (cs ++ rest))
    (hend : 3 ≤ cs.length ∨ rest.takeWhile Char.isDigit = []) : DigitsFirst cs := by
  unfold DigitsFirst at h ⊢
  rw [List.takeWhile_append] at h
  split at h
  · next hall =>
    rcases hend with hlong | hnone
    · omega
    · rw [hnone, List.append_nil] at h
      omega
  · exact h

/-- Any three digits are the code of a character: every number below 1000 is a code point. -/
theorem exists_code {x y z : Char} (hx : x.isDigit = true) (hy : y.isDigit = true)
    (hz : z.isDigit = true) : ∃ c, c.toNat < 1000 ∧ ['\\', x, y, z] = code c := by
  obtain ⟨i, hi, rfl⟩ := Decimal.exists_digit_of_isDigit hx
  obtain ⟨j, hj, rfl⟩ := Decimal.exists_digit_of_isDigit hy
  obtain ⟨k, hk, rfl⟩ := Decimal.exists_digit_of_isDigit hz
  have hvalid : (100 * i + 10 * j + k).isValidChar := .inl (by omega)
  have hcode : (Char.ofNatAux (100 * i + 10 * j + k) hvalid).toNat = 100 * i + 10 * j + k := rfl
  refine ⟨Char.ofNatAux (100 * i + 10 * j + k) hvalid, by omega, ?_⟩
  have hhigh : (100 * i + 10 * j + k) / 100 = i := by omega
  have hmid : (100 * i + 10 * j + k) / 10 % 10 = j := by omega
  have hlow : (100 * i + 10 * j + k) % 10 = k := by omega
  rw [code, hcode, hhigh, hmid, hlow]

/-! ## Pieces -/

/-- What decoding reads as one character: a character that stands for itself, or the escape of a
character whose code point three digits can give. -/
inductive Piece
  | plain (c : Char)
  | escape (c : Char) (below : c.toNat < 1000)

namespace Piece

/-- The text of a piece. -/
def source : Piece → List Char
  | plain c => [c]
  | escape c _ => code c

/-- The character that a piece stands for. -/
def char : Piece → Char
  | plain c => c
  | escape c _ => c

def isEscape : Piece → Bool
  | plain _ => false
  | escape _ _ => true

theorem length_source (p : Piece) : p.source.length = if p.isEscape then 4 else 1 := by
  cases p <;> rfl

/-- An escape takes four characters and any other piece takes one. -/
theorem length_flatMap_source (pieces : List Piece) :
    (pieces.flatMap source).length = pieces.length + 3 * pieces.countP isEscape := by
  induction pieces with
  | nil => rfl
  | cons p pieces ih =>
    rw [List.flatMap_cons, List.length_append, ih, length_source, List.length_cons, List.countP_cons]
    cases p.isEscape <;> simp only [if_true, Bool.false_eq_true, if_false] <;> omega

theorem flatMap_source_of_plain {pieces : List Piece} (h : ∀ p ∈ pieces, p.isEscape = false) :
    pieces.flatMap source = pieces.map char := by
  induction pieces with
  | nil => rfl
  | cons p pieces ih =>
    rw [List.flatMap_cons, List.map_cons, ih fun q hq => h q (List.mem_cons_of_mem p hq)]
    cases p with
    | plain c => rfl
    | escape c below => exact absurd (h _ List.mem_cons_self) (by simp [isEscape])

/-- A piece can stand before a text: it is no backslash with three digits of that text directly
behind it, which would be an escape. -/
def Before (p : Piece) (rest : List Char) : Prop := p = plain '\\' → ¬DigitsFirst rest

theorem Before.ne_code {c d : Char} {cs ds : List Char} (h : (plain c).Before cs)
    (below : d.toNat < 1000) : c :: cs ≠ code d ++ ds := by
  intro heq
  obtain ⟨hhigh, hmid, hlow⟩ := digits_lt below
  obtain ⟨rfl, rfl⟩ := List.cons.inj heq
  exact h rfl (digitsFirst_iff.mpr ⟨_, _, _, ds, rfl, isDigit_digitChar hhigh,
    isDigit_digitChar hmid, isDigit_digitChar hlow⟩)

/-- The text tells where its first piece ends. -/
theorem Before.unique {p q : Piece} {cs ds : List Char} (hp : p.Before cs) (hq : q.Before ds)
    (h : p.source ++ cs = q.source ++ ds) : p = q ∧ cs = ds := by
  cases p with
  | plain c =>
    cases q with
    | plain d =>
      obtain ⟨rfl, rfl⟩ := List.cons.inj h
      exact ⟨rfl, rfl⟩
    | escape d below => exact absurd h (hp.ne_code below)
  | escape c below =>
    cases q with
    | plain d => exact absurd h.symm (hq.ne_code below)
    | escape d below' =>
      -- two codes of one length, which decode to their characters
      obtain ⟨-, rfl⟩ := List.append_inj h rfl
      have hchar := congrArg decode h
      rw [source, source, decode_code below, decode_code below'] at hchar
      obtain ⟨rfl, -⟩ := List.cons.inj hchar
      exact ⟨rfl, rfl⟩

end Piece

/-- The pieces make up the text, one behind the other. A backslash among them stands for itself only
where no three digits come directly after it. -/
structure Divides (pieces : List Piece) (cs : List Char) : Prop where
  whole : pieces.flatMap Piece.source = cs
  plain : ∀ before behind, pieces = before ++ .plain '\\' :: behind →
    ¬DigitsFirst (behind.flatMap Piece.source)

theorem divides_nil : Divides [] [] :=
  ⟨rfl, fun before _ heq => by cases before <;> cases heq⟩

theorem divides_cons_iff {p : Piece} {pieces : List Piece} {cs : List Char} :
    Divides (p :: pieces) cs ↔
      ∃ rest, cs = p.source ++ rest ∧ p.Before rest ∧ Divides pieces rest := by
  constructor
  · rintro ⟨rfl, hplain⟩
    refine ⟨pieces.flatMap Piece.source, List.flatMap_cons, ?_, rfl, ?_⟩
    · rintro rfl
      exact hplain [] pieces rfl
    · rintro before behind rfl
      exact hplain (p :: before) behind rfl
  · rintro ⟨_, rfl, hp, rfl, hplain⟩
    refine ⟨List.flatMap_cons, fun before behind heq => ?_⟩
    cases before with
    | nil =>
      obtain ⟨rfl, rfl⟩ := List.cons.inj heq
      exact hp rfl
    | cons _ before => exact hplain before behind (List.cons.inj heq).2

theorem Divides.eq_nil {pieces : List Piece} (h : Divides pieces []) : pieces = [] := by
  cases pieces with
  | nil => rfl
  | cons p pieces =>
    obtain ⟨rest, hnil, -⟩ := divides_cons_iff.mp h
    cases p <;> cases hnil

theorem Divides.unique {pieces others : List Piece} {cs : List Char} (h : Divides pieces cs)
    (hothers : Divides others cs) : others = pieces := by
  induction pieces generalizing others cs with
  | nil =>
    obtain rfl := h.whole
    exact hothers.eq_nil
  | cons p pieces ih =>
    cases others with
    | nil =>
      obtain rfl := hothers.whole
      exact h.eq_nil.symm
    | cons q others =>
      obtain ⟨rest, rfl, hp, hrest⟩ := divides_cons_iff.mp h
      obtain ⟨rest', heq, hq, hrest'⟩ := divides_cons_iff.mp hothers
      obtain ⟨rfl, rfl⟩ := hp.unique hq heq
      rw [ih hrest hrest']

theorem exists_piece (c : Char) (cs : List Char) :
    ∃ p : Piece, ∃ rest, c :: cs = p.source ++ rest ∧ p.Before rest := by
  by_cases h : c = '\\' ∧ DigitsFirst cs
  · obtain ⟨rfl, hdigits⟩ := h
    obtain ⟨x, y, z, rest, rfl, hx, hy, hz⟩ := digitsFirst_iff.mp hdigits
    obtain ⟨d, below, hcode⟩ := exists_code hx hy hz
    exact ⟨.escape d below, rest, congrArg (· ++ rest) hcode, Piece.noConfusion⟩
  · refine ⟨.plain c, cs, rfl, fun heq hdigits => h ⟨?_, hdigits⟩⟩
    cases heq
    rfl

theorem exists_divides (cs : List Char) : ∃ pieces, Divides pieces cs := by
  induction hlength : cs.length using Nat.strongRecOn generalizing cs with
  | ind n ih =>
    cases cs with
    | nil => exact ⟨[], divides_nil⟩
    | cons c cs =>
      obtain ⟨p, rest, heq, hp⟩ := exists_piece c cs
      have hshorter : rest.length < n := by
        have hwhole := congrArg List.length heq
        rw [List.length_append, p.length_source] at hwhole
        split at hwhole <;> omega
      obtain ⟨pieces, hpieces⟩ := ih rest.length hshorter rest rfl
      exact ⟨p :: pieces, divides_cons_iff.mpr ⟨rest, heq, hp, hpieces⟩⟩

/-! ## Decoding by pieces -/

theorem decode_backslash {rest : List Char} (h : ¬DigitsFirst rest) :
    decode ('\\' :: rest) = '\\' :: decode rest := by
  rw [decode.eq_def]
  split
  · next heq =>
    cases heq
    refine if_neg fun hdigits => h (digitsFirst_iff.mpr ?_)
    rw [Bool.and_eq_true, Bool.and_eq_true] at hdigits
    exact ⟨_, _, _, _, rfl, hdigits.1.1, hdigits.1.2, hdigits.2⟩
  · next heq => cases heq; rfl
  · next heq => cases heq

theorem Piece.Before.decode_source {p : Piece} {rest : List Char} (h : p.Before rest) :
    decode (p.source ++ rest) = p.char :: decode rest := by
  cases p with
  | plain c =>
    by_cases hc : c = '\\'
    · subst hc
      exact decode_backslash (h rfl)
    · exact decode_cons hc rest
  | escape c below => exact decode_code below rest

/-- Decoding gives each piece's character once, and reads none of them again. -/
theorem Divides.decode_eq {pieces : List Piece} {cs : List Char} (h : Divides pieces cs) :
    decode cs = pieces.map Piece.char := by
  induction pieces generalizing cs with
  | nil =>
    obtain rfl := h.whole
    rfl
  | cons p pieces ih =>
    obtain ⟨rest, rfl, hp, hrest⟩ := divides_cons_iff.mp h
    rw [hp.decode_source, ih hrest, List.map_cons]

theorem Divides.length_decode {pieces : List Piece} {cs : List Char} (h : Divides pieces cs) :
    (decode cs).length + 3 * pieces.countP Piece.isEscape = cs.length := by
  rw [h.decode_eq, List.length_map, ← h.whole, Piece.length_flatMap_source]

/-! ## Where texts meet -/

/-- No escape that begins in the first text ends in the second. -/
def Apart (cs ds : List Char) : Prop :=
  ∀ before behind, cs = before ++ '\\' :: behind → DigitsFirst (behind ++ ds) → DigitsFirst behind

/-- A backslash with three characters behind it has all of its escape before the end. -/
theorem apart_of_not_mem_rtake {cs : List Char} (h : '\\' ∉ cs.rtake 3) (ds : List Char) :
    Apart cs ds := by
  rintro before behind rfl hdigits
  refine digitsFirst_of_append hdigits (.inl (Nat.not_lt.mp fun hshort => h ?_))
  have hkept : (before ++ '\\' :: behind).length - 3 ≤ before.length := by
    rw [List.length_append, List.length_cons]
    omega
  rw [List.rtake, List.drop_append_of_le_length hkept]
  exact List.mem_append_right _ List.mem_cons_self

theorem apart_of_no_digit (cs : List Char) {ds : List Char} (h : ds.takeWhile Char.isDigit = []) :
    Apart cs ds :=
  fun _ _ _ hdigits => digitsFirst_of_append hdigits (.inr h)

theorem Divides.append {pieces others : List Piece} {cs ds : List Char} (h : Divides pieces cs)
    (hothers : Divides others ds) (hapart : Apart cs ds) : Divides (pieces ++ others) (cs ++ ds) := by
  induction pieces generalizing cs with
  | nil =>
    obtain rfl := h.whole
    exact hothers
  | cons p pieces ih =>
    obtain ⟨rest, rfl, hp, hrest⟩ := divides_cons_iff.mp h
    refine divides_cons_iff.mpr ⟨rest ++ ds, List.append_assoc _ _ _, ?_, ih hrest ?_⟩
    · rintro rfl hdigits
      exact hp rfl (hapart [] rest rfl hdigits)
    · rintro before behind rfl
      exact hapart (p.source ++ before) behind (List.append_assoc _ _ _).symm

theorem decode_append {cs ds : List Char} (h : Apart cs ds) :
    decode (cs ++ ds) = decode cs ++ decode ds := by
  obtain ⟨pieces, hpieces⟩ := exists_divides cs
  obtain ⟨others, hothers⟩ := exists_divides ds
  rw [(hpieces.append hothers h).decode_eq, List.map_append, hpieces.decode_eq, hothers.decode_eq]

/-! ## Texts that decoding leaves alone -/

theorem Divides.decode_eq_self_iff {pieces : List Piece} {cs : List Char} (h : Divides pieces cs) :
    decode cs = cs ↔ ∀ p ∈ pieces, p.isEscape = false := by
  constructor
  · intro heq
    have hlength := h.length_decode
    rw [heq] at hlength
    have hnone : pieces.countP Piece.isEscape = 0 := by omega
    intro p hp
    exact Bool.eq_false_iff.mpr (List.countP_eq_zero.mp hnone p hp)
  · intro hplain
    rw [h.decode_eq, ← Piece.flatMap_source_of_plain hplain, h.whole]

/-- Every backslash with three digits directly behind it is the backslash of a piece: an escape
cannot begin inside another. -/
theorem Divides.exists_escape_iff {pieces : List Piece} {cs : List Char} (h : Divides pieces cs) :
    (∃ p ∈ pieces, p.isEscape = true) ↔
      ∃ before x y z behind, cs = before ++ '\\' :: x :: y :: z :: behind ∧
        x.isDigit = true ∧ y.isDigit = true ∧ z.isDigit = true := by
  constructor
  · rintro ⟨p, hp, hescape⟩
    obtain ⟨front, back, rfl⟩ := List.append_of_mem hp
    cases p with
    | plain c => cases hescape
    | escape c below =>
      obtain ⟨hhigh, hmid, hlow⟩ := digits_lt below
      refine ⟨front.flatMap Piece.source, _, _, _, back.flatMap Piece.source, ?_,
        isDigit_digitChar hhigh, isDigit_digitChar hmid, isDigit_digitChar hlow⟩
      rw [← h.whole, List.flatMap_append, List.flatMap_cons]
      rfl
  · rintro ⟨before, x, y, z, behind, rfl, hx, hy, hz⟩
    obtain ⟨c, below, hcode⟩ := exists_code hx hy hz
    obtain ⟨front, hfront⟩ := exists_divides before
    obtain ⟨back, hback⟩ := exists_divides behind
    have hescape : Divides (.escape c below :: back) ('\\' :: x :: y :: z :: behind) :=
      divides_cons_iff.mpr ⟨behind, congrArg (· ++ behind) hcode, Piece.noConfusion, hback⟩
    -- there is no other division than the one that has this escape between those of both sides
    have hall := hfront.append hescape (apart_of_no_digit before rfl)
    rw [hall.unique h]
    exact ⟨.escape c below, by simp, rfl⟩

theorem decode_eq_self_iff (cs : List Char) :
    decode cs = cs ↔
      ¬∃ before x y z behind, cs = before ++ '\\' :: x :: y :: z :: behind ∧
        x.isDigit = true ∧ y.isDigit = true ∧ z.isDigit = true := by
  obtain ⟨pieces, hpieces⟩ := exists_divides cs
  rw [hpieces.decode_eq_self_iff, ← hpieces.exists_escape_iff]
  simp

/-- **Texts are decoded piece by piece.** Two texts can be decoded one by one where the first has no
backslash among its last three characters. A text is its own decoding just when no backslash in it
has three digits directly behind it. Every text has one division into pieces, and decoding gives the
character of each piece in order, three characters less for each escape. -/
theorem decodeText_by_pieces (s t : String) :
    ('\\' ∉ s.toList.rtake 3 → decodeText (s ++ t) = decodeText s ++ decodeText t) ∧
    (decodeText s = s ↔
      ¬∃ before x y z behind, s.toList = before ++ '\\' :: x :: y :: z :: behind ∧
        x.isDigit = true ∧ y.isDigit = true ∧ z.isDigit = true) ∧
    (∃! pieces, Divides pieces s.toList) ∧
    ∀ pieces, Divides pieces s.toList →
      (decodeText s).toList = pieces.map Piece.char ∧
      (decodeText s).length + 3 * pieces.countP Piece.isEscape = s.length := by
  have hdecoded : (decodeText s).toList = decode s.toList := String.toList_ofList
  obtain ⟨pieces, hpieces⟩ := exists_divides s.toList
  refine ⟨fun hend => ?_, ?_, ⟨pieces, hpieces, fun _ => hpieces.unique⟩, fun others hothers => ⟨?_, ?_⟩⟩
  · rw [decodeText, String.toList_append, decode_append (apart_of_not_mem_rtake hend t.toList),
      String.ofList_append, decodeText, decodeText]
  · rw [← decode_eq_self_iff, ← hdecoded, String.toList_inj]
  · rw [hdecoded, hothers.decode_eq]
  · rw [← String.length_toList, hdecoded, hothers.length_decode, String.length_toList]

/-- A backslash that begins no escape, then the escape of a backslash with three digits after it. -/
theorem decodeText_by_pieces_of_coded_backslash :
    '\\' ∉ "\\1\\092065".toList.rtake 3 ∧
    decodeText ("\\1\\092065" ++ "66\\066") = "\\1\\065" ++ "66B" ∧
    Divides [.plain '\\', .plain '1', .escape '\\' (by decide), .plain '0', .plain '6', .plain '5']
      "\\1\\092065".toList ∧
    "\\1\\065".length + 3 * 1 = "\\1\\092065".length ∧
    decodeText "\\1\\065" ≠ "\\1\\065" := by
  have hfirst : decodeText "\\1\\092065" = "\\1\\065" := by decide
  have hsecond : decodeText "66\\066" = "66B" := by decide
  have hend : '\\' ∉ "\\1\\092065".toList.rtake 3 := by decide
  have hdivides : Divides [.plain '\\', .plain '1', .escape '\\' (by decide), .plain '0', .plain '6',
      .plain '5'] "\\1\\092065".toList := by
    refine divides_cons_iff.mpr ⟨"1\\092065".toList, rfl, fun _ => by decide, ?_⟩
    simp [divides_cons_iff, Piece.Before, Piece.source, code, divides_nil]
  obtain ⟨happend, -, -, hpieces⟩ := decodeText_by_pieces "\\1\\092065" "66\\066"
  obtain ⟨-, hself, -⟩ := decodeText_by_pieces "\\1\\065" ""
  obtain ⟨-, hlength⟩ := hpieces _ hdivides
  rw [hfirst] at hlength
  refine ⟨hend, ?_, hdivides, hlength, ?_⟩
  · rw [happend hend, hfirst, hsecond]
  · exact fun heq => hself.mp heq ⟨"\\1".toList, '0', '6', '5', [], by decide⟩

end FrameCode.Text.Escape
