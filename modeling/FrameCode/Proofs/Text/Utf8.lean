import FrameCode.Text.Utf8

/-! Decoding, one character after the other. What comes first is a byte below 0x80, which
stands for itself, or bytes above that which give one character above (`finishes_decode`). So
a byte below 0x80 parts a text: what stands before it and what begins with it are decoded
apart (`decode_append`). What was encoded is decoded to itself (`decode_utf8Encode`), and what
begins no encoding, or only begins one, is replaced as a whole (`decode_of_broken`). -/

namespace FrameCode.Text.Utf8

/-! ## One byte after the other -/

/-- Goes on with the next byte if it is one of a set. Otherwise what has been read so far is
replaced. -/
def orReplace (set : UInt8 → Bool) (go : UInt8 → List UInt8 → List Char) :
    List UInt8 → List Char
  | [] => [replacement]
  | b :: rest => if set b then go b rest else replacement :: decode (b :: rest)

theorem decode_cons (a : UInt8) (rest : List UInt8) : decode (a :: rest) =
    if a < 0x80 then Char.ofNat a.toNat :: decode rest
    else if 0xC2 ≤ a && a ≤ 0xDF then
      orReplace isContinuation (fun b rest => char2 a b :: decode rest) rest
    else if 0xE0 ≤ a && a ≤ 0xEF then
      orReplace (second3 a) (fun b => orReplace isContinuation fun c rest =>
        char3 a b c :: decode rest) rest
    else if 0xF0 ≤ a && a ≤ 0xF4 then
      orReplace (second4 a) (fun b => orReplace isContinuation fun c =>
        orReplace isContinuation fun d rest => char4 a b c d :: decode rest) rest
    else replacement :: decode rest := by
  rw [decode.eq_def]
  rcases rest with _ | ⟨b, _ | ⟨c, _ | ⟨d, rest⟩⟩⟩ <;> rfl

section

variable {set : UInt8 → Bool} {go : UInt8 → List UInt8 → List Char}

theorem orReplace_of_mem {b : UInt8} (h : set b = true) (rest : List UInt8) :
    orReplace set go (b :: rest) = go b rest :=
  if_pos h

theorem orReplace_of_not_mem {bytes : List UInt8} (h : ∀ b, bytes.head? = some b → set b = false) :
    orReplace set go bytes = replacement :: decode bytes := by
  cases bytes with
  | nil => rfl
  | cons b rest =>
    have hb : ¬set b = true := by simp [h b rfl]
    exact if_neg hb

end

/-! ## Ranges of bytes, as numbers -/

section Ranges

variable {a b c d : UInt8}

theorem between_iff (lo hi : UInt8) :
    (lo ≤ a && a ≤ hi) = true ↔ lo.toNat ≤ a.toNat ∧ a.toNat ≤ hi.toNat := by
  simp [UInt8.le_iff_toNat_le]

theorem isContinuation_iff : isContinuation b = true ↔ 0x80 ≤ b.toNat ∧ b.toNat ≤ 0xBF :=
  between_iff 0x80 0xBF

theorem second3_iff : second3 a b = true ↔ 0x80 ≤ b.toNat ∧ b.toNat ≤ 0xBF ∧
    (a.toNat = 0xE0 → 0xA0 ≤ b.toNat) ∧ (a.toNat = 0xED → b.toNat ≤ 0x9F) := by
  have hlow : a = 0xE0 ↔ a.toNat = 0xE0 := UInt8.toNat_inj.symm
  have hhigh : a = 0xED ↔ a.toNat = 0xED := UInt8.toNat_inj.symm
  simp only [second3, isContinuation, hlow, hhigh]
  split
  · simp only [between_iff, UInt8.reduceToNat]
    omega
  · split <;> simp only [between_iff, UInt8.reduceToNat] <;> omega

theorem second4_iff : second4 a b = true ↔ 0x80 ≤ b.toNat ∧ b.toNat ≤ 0xBF ∧
    (a.toNat = 0xF0 → 0x90 ≤ b.toNat) ∧ (a.toNat = 0xF4 → b.toNat ≤ 0x8F) := by
  have hlow : a = 0xF0 ↔ a.toNat = 0xF0 := UInt8.toNat_inj.symm
  have hhigh : a = 0xF4 ↔ a.toNat = 0xF4 := UInt8.toNat_inj.symm
  simp only [second4, isContinuation, hlow, hhigh]
  split
  · simp only [between_iff, UInt8.reduceToNat]
    omega
  · split <;> simp only [between_iff, UInt8.reduceToNat] <;> omega

theorem toNat_ofNat {n : Nat} (h : n.isValidChar) : (Char.ofNat n).toNat = n := by
  rw [Char.ofNat, dif_pos h]
  rfl

theorem toNat_char2 (a b : UInt8) : (char2 a b).toNat = a.toNat % 32 * 64 + b.toNat % 64 := by
  apply toNat_ofNat
  unfold Nat.isValidChar payload
  omega

theorem toNat_char3 (ha : 0xE0 ≤ a.toNat ∧ a.toNat ≤ 0xEF) (hb : second3 a b = true) :
    (char3 a b c).toNat = a.toNat % 16 * 4096 + b.toNat % 64 * 64 + c.toNat % 64 := by
  have hb := second3_iff.mp hb
  apply toNat_ofNat
  unfold Nat.isValidChar payload
  omega

theorem toNat_char4 (ha : 0xF0 ≤ a.toNat ∧ a.toNat ≤ 0xF4) (hb : second4 a b = true) :
    (char4 a b c d).toNat =
      a.toNat % 8 * 262144 + b.toNat % 64 * 4096 + c.toNat % 64 * 64 + d.toNat % 64 := by
  have hb := second4_iff.mp hb
  apply toNat_ofNat
  unfold Nat.isValidChar payload
  omega

end Ranges

/-! ## The first character -/

/-- Some bytes, none of them below 0x80. -/
structure High (bytes : List UInt8) : Prop where
  ne_nil : bytes ≠ []
  all : ∀ b ∈ bytes, 0x80 ≤ b.toNat

theorem High.singleton {b : UInt8} (h : 0x80 ≤ b.toNat) : High [b] :=
  ⟨List.cons_ne_nil b [], by simpa using h⟩

theorem High.concat {bytes : List UInt8} {b : UInt8} (h : High bytes) (hb : 0x80 ≤ b.toNat) :
    High (bytes ++ [b]) := by
  refine ⟨by simp, fun a ha => ?_⟩
  rcases List.mem_append.mp ha with ha | ha
  · exact h.all a ha
  · rw [List.mem_singleton.mp ha]
    exact hb

/-- Bytes that are decoded together and the character that they give. -/
inductive Piece : List UInt8 → Char → Prop
  | low {a : UInt8} (byte : a.toNat < 0x80) : Piece [a] (Char.ofNat a.toNat)
  | high {bytes : List UInt8} {c : Char} (bytes_high : High bytes) (char_high : 0x80 ≤ c.toNat) :
    Piece bytes c

/-- No byte comes next that could go on with an encoding. -/
def Closed (bytes : List UInt8) : Prop := ∀ b, bytes.head? = some b → b.toNat < 0x80

/-- After the bytes `seen` the function finishes one character. Which one, and where the rest
begins, stays the same whatever is put behind the text, unless that could go on with it. -/
def Finishes (seen : List UInt8) (read : List UInt8 → List Char) : Prop :=
  ∀ bytes, ∃ piece c rest, seen ++ bytes = piece ++ rest ∧ Piece piece c ∧
    ∀ tail, Closed tail → read (bytes ++ tail) = c :: decode (rest ++ tail)

namespace Finishes

variable {seen : List UInt8} (hseen : High seen)
include hseen

theorem done {c : Char} (hc : 0x80 ≤ c.toNat) : Finishes seen fun rest => c :: decode rest :=
  fun bytes => ⟨seen, c, bytes, rfl, .high hseen hc, fun _ _ => rfl⟩

theorem orReplace {set : UInt8 → Bool} {go : UInt8 → List UInt8 → List Char}
    (hset : ∀ b, set b = true → 0x80 ≤ b.toNat)
    (hgo : ∀ b, set b = true → Finishes (seen ++ [b]) (go b)) :
    Finishes seen (orReplace set go) := by
  have hstop : ∀ bytes, (∀ b, bytes.head? = some b → set b = false) →
      ∃ piece c rest, seen ++ bytes = piece ++ rest ∧ Piece piece c ∧ ∀ tail, Closed tail →
        Utf8.orReplace set go (bytes ++ tail) = c :: decode (rest ++ tail) := by
    intro bytes hbytes
    refine ⟨seen, replacement, bytes, rfl, .high hseen (by decide), fun tail htail => ?_⟩
    refine orReplace_of_not_mem fun b hb => ?_
    cases bytes with
    | nil =>
      refine Bool.eq_false_iff.mpr fun hmem => ?_
      exact Nat.not_lt.mpr (hset b hmem) (htail b hb)
    | cons a rest => exact hbytes b hb
  intro bytes
  cases bytes with
  | nil => exact hstop [] nofun
  | cons b rest =>
    cases hb : set b with
    | false =>
      refine hstop (b :: rest) fun b' hb' => ?_
      cases hb'
      exact hb
    | true =>
      obtain ⟨piece, c, rest', hsplit, hpiece, hread⟩ := hgo b hb rest
      rw [List.append_assoc] at hsplit
      refine ⟨piece, c, rest', hsplit, hpiece, fun tail htail => ?_⟩
      rw [List.cons_append, orReplace_of_mem hb]
      exact hread tail htail

theorem continued {go : UInt8 → List UInt8 → List Char}
    (hgo : ∀ b, isContinuation b = true → Finishes (seen ++ [b]) (go b)) :
    Finishes seen (Utf8.orReplace isContinuation go) :=
  orReplace hseen (fun _ hb => (isContinuation_iff.mp hb).1) hgo

end Finishes

section Leads

variable {a : UInt8}

theorem finishes_two (ha : 0xC2 ≤ a.toNat ∧ a.toNat ≤ 0xDF) :
    Finishes [a] (orReplace isContinuation fun b rest => char2 a b :: decode rest) := by
  have hseen : High [a] := .singleton (by omega)
  refine .continued hseen fun b hb => .done (hseen.concat (isContinuation_iff.mp hb).1) ?_
  rw [toNat_char2]
  omega

theorem finishes_three (ha : 0xE0 ≤ a.toNat ∧ a.toNat ≤ 0xEF) :
    Finishes [a] (orReplace (second3 a) fun b => orReplace isContinuation fun c rest =>
      char3 a b c :: decode rest) := by
  have hseen : High [a] := .singleton (by omega)
  refine .orReplace hseen (fun b hb => (second3_iff.mp hb).1) fun b hb => ?_
  have hb' := second3_iff.mp hb
  have hseen := hseen.concat hb'.1
  refine .continued hseen fun c hc => .done (hseen.concat (isContinuation_iff.mp hc).1) ?_
  rw [toNat_char3 ha hb]
  omega

theorem finishes_four (ha : 0xF0 ≤ a.toNat ∧ a.toNat ≤ 0xF4) :
    Finishes [a] (orReplace (second4 a) fun b => orReplace isContinuation fun c =>
      orReplace isContinuation fun d rest => char4 a b c d :: decode rest) := by
  have hseen : High [a] := .singleton (by omega)
  refine .orReplace hseen (fun b hb => (second4_iff.mp hb).1) fun b hb => ?_
  have hb' := second4_iff.mp hb
  have hseen := hseen.concat hb'.1
  refine .continued hseen fun c hc => ?_
  have hseen := hseen.concat (isContinuation_iff.mp hc).1
  refine .continued hseen fun d hd => .done (hseen.concat (isContinuation_iff.mp hd).1) ?_
  rw [toNat_char4 ha hb]
  omega

end Leads

theorem finishes_decode (a : UInt8) : Finishes [a] fun rest => decode (a :: rest) := by
  simp only [decode_cons]
  split
  · next hlow =>
    exact fun bytes => ⟨[a], _, bytes, rfl, .low (UInt8.lt_iff_toNat_lt.mp hlow), fun _ _ => rfl⟩
  · next hhigh =>
    have hhigh : 0x80 ≤ a.toNat := Nat.not_lt.mp fun h => hhigh (UInt8.lt_iff_toNat_lt.mpr h)
    split
    · next ha => exact finishes_two ((between_iff 0xC2 0xDF).mp ha)
    · split
      · next ha => exact finishes_three ((between_iff 0xE0 0xEF).mp ha)
      · split
        · next ha => exact finishes_four ((between_iff 0xF0 0xF4).mp ha)
        · exact .done (.singleton hhigh) (by decide)

/-! ## All characters -/

/-- Bytes are pieces, one after the other, and so are bytes with something closed behind them. -/
@[elab_as_elim] theorem pieces_induction {motive : List UInt8 → Prop} (nil : motive [])
    (piece : ∀ piece c rest, Piece piece c → (∀ tail, Closed tail →
      decode (piece ++ rest ++ tail) = c :: decode (rest ++ tail)) → motive rest →
      motive (piece ++ rest)) (bytes : List UInt8) : motive bytes := by
  induction hlen : bytes.length using Nat.strongRecOn generalizing bytes with
  | ind n ih =>
    cases bytes with
    | nil => exact nil
    | cons a bytes =>
      obtain ⟨first, c, rest, hsplit, hpiece, hread⟩ := finishes_decode a bytes
      rw [List.singleton_append] at hsplit
      have hshorter : rest.length < n := by
        have hlength := congrArg List.length hsplit
        have hpos : 0 < first.length := by
          cases hpiece with
          | low byte => exact Nat.one_pos
          | high bytes_high _ => exact List.length_pos_iff.mpr bytes_high.ne_nil
        rw [List.length_append] at hlength
        omega
      rw [hsplit]
      refine piece first c rest hpiece (fun tail htail => ?_) (ih _ hshorter rest rfl)
      rw [← hsplit]
      exact hread tail htail

/-- What cannot go on with an encoding is decoded by itself. -/
theorem decode_append (bytes : List UInt8) {tail : List UInt8} (h : Closed tail) :
    decode (bytes ++ tail) = decode bytes ++ decode tail := by
  induction bytes using pieces_induction with
  | nil => rfl
  | piece piece c rest _ hread ih =>
    have halone := hread [] nofun
    rw [List.append_nil, List.append_nil] at halone
    rw [hread tail h, halone, ih, List.cons_append]

theorem decode_append_low (bytes : List UInt8) {a : UInt8} (ha : a.toNat < 0x80)
    (rest : List UInt8) :
    decode (bytes ++ a :: rest) = decode bytes ++ Char.ofNat a.toNat :: decode rest := by
  have hclosed : Closed (a :: rest) := by
    intro b hb
    cases hb
    exact ha
  rw [decode_append bytes hclosed, decode_cons, if_pos (UInt8.lt_iff_toNat_lt.mpr ha)]

theorem decode_ne_nil {bytes : List UInt8} (h : bytes ≠ []) : decode bytes ≠ [] := by
  obtain ⟨a, rest, rfl⟩ := List.exists_cons_of_ne_nil h
  obtain ⟨_, c, _, _, _, hread⟩ := finishes_decode a rest
  have hcons := hread [] nofun
  rw [List.append_nil] at hcons
  simp only [hcons]
  exact List.cons_ne_nil _ _

section Low

variable {x : UInt8} (hx : x.toNat < 0x80)
include hx

theorem ofNat_eq_iff {a : UInt8} (ha : a.toNat < 0x80) :
    Char.ofNat a.toNat = Char.ofNat x.toNat ↔ a = x := by
  constructor
  · intro h
    have hnat := congrArg Char.toNat h
    rw [toNat_ofNat (.inl (by omega)), toNat_ofNat (.inl (by omega))] at hnat
    exact UInt8.toNat_inj.mp hnat
  · rintro rfl
    rfl

theorem ne_of_high {c : Char} (hc : 0x80 ≤ c.toNat) : c ≠ Char.ofNat x.toNat := by
  rintro rfl
  rw [toNat_ofNat (.inl (by omega))] at hc
  omega

theorem not_mem_of_high {bytes : List UInt8} (h : High bytes) : x ∉ bytes := fun hmem =>
  Nat.not_lt.mpr (h.all x hmem) hx

/-- A character below 0x80 comes from its byte only. -/
theorem count_decode (bytes : List UInt8) :
    (decode bytes).count (Char.ofNat x.toNat) = bytes.count x := by
  induction bytes using pieces_induction with
  | nil => rfl
  | piece piece c rest hpiece hread ih =>
    have halone := hread [] nofun
    rw [List.append_nil, List.append_nil] at halone
    rw [halone, List.count_append]
    cases hpiece with
    | low byte =>
      rw [List.count_cons, List.count_singleton, ih, Nat.add_comm]
      simp only [beq_iff_eq, ofNat_eq_iff hx byte]
    | high bytes_high char_high =>
      rw [List.count_cons_of_ne (ne_of_high hx char_high), ih,
        List.count_eq_zero_of_not_mem (not_mem_of_high hx bytes_high), Nat.zero_add]

theorem mem_decode_iff {bytes : List UInt8} : Char.ofNat x.toNat ∈ decode bytes ↔ x ∈ bytes := by
  rw [← List.count_pos_iff, ← List.count_pos_iff, count_decode hx]

theorem getLast?_decode_iff {bytes : List UInt8} :
    (decode bytes).getLast? = some (Char.ofNat x.toNat) ↔ bytes.getLast? = some x := by
  induction bytes using pieces_induction with
  | nil => simp [decode]
  | piece piece c rest hpiece hread ih =>
    have halone := hread [] nofun
    rw [List.append_nil, List.append_nil] at halone
    rw [halone]
    cases rest with
    | nil =>
      rw [List.append_nil]
      cases hpiece with
      | low byte => simp [decode, ofNat_eq_iff hx byte]
      | high bytes_high char_high =>
        have hlast : piece.getLast? ≠ some x := fun h =>
          not_mem_of_high hx bytes_high (List.mem_of_getLast? h)
        simp [decode, ne_of_high hx char_high, hlast]
    | cons b rest =>
      obtain ⟨c', cs, hcs⟩ := List.exists_cons_of_ne_nil (decode_ne_nil (List.cons_ne_nil b rest))
      rw [hcs] at ih ⊢
      rw [List.getLast?_cons_cons, ih, List.getLast?_append, List.getLast?_cons, Option.some_or]

end Low

/-! ## Encoded texts -/

theorem toNat_byte {n : Nat} (h : n < 256) : (UInt8.ofNat n).toNat = n := by
  rw [UInt8.toNat_ofNat', Nat.mod_eq_of_lt h]

section Encodings

variable {n : Nat} (rest : List UInt8)

theorem decode_one (h : n ≤ 127) : decode (UInt8.ofNat n :: rest) = Char.ofNat n :: decode rest := by
  have ha := toNat_byte (n := n) (by omega)
  rw [decode_cons, if_pos (UInt8.lt_iff_toNat_lt.mpr (by rw [ha]; exact Nat.lt_succ_of_le h)), ha]

theorem decode_two (h : 127 < n ∧ n ≤ 2047) :
    decode (UInt8.ofNat (n / 64 % 32 + 192) :: UInt8.ofNat (n % 64 + 128) :: rest) =
      Char.ofNat n :: decode rest := by
  have ha := toNat_byte (n := n / 64 % 32 + 192) (by omega)
  have hb := toNat_byte (n := n % 64 + 128) (by omega)
  generalize UInt8.ofNat (n / 64 % 32 + 192) = a at ha ⊢
  generalize UInt8.ofNat (n % 64 + 128) = b at hb ⊢
  have hlow : ¬a < 0x80 := by
    simp only [UInt8.lt_iff_toNat_lt, UInt8.reduceToNat]
    omega
  have htwo : (0xC2 ≤ a && a ≤ 0xDF) = true := (between_iff 0xC2 0xDF).mpr (by simp; omega)
  have hchar : char2 a b = Char.ofNat n := by
    rw [← Char.toNat_inj, toNat_char2, toNat_ofNat (.inl (by omega))]
    omega
  rw [decode_cons, if_neg hlow, if_pos htwo,
    orReplace_of_mem (isContinuation_iff.mpr (by omega)), hchar]

theorem decode_three (h : 2047 < n ∧ n ≤ 65535) (hvalid : n.isValidChar) :
    decode (UInt8.ofNat (n / 4096 % 16 + 224) :: UInt8.ofNat (n / 64 % 64 + 128) ::
      UInt8.ofNat (n % 64 + 128) :: rest) = Char.ofNat n :: decode rest := by
  have ha := toNat_byte (n := n / 4096 % 16 + 224) (by omega)
  have hb := toNat_byte (n := n / 64 % 64 + 128) (by omega)
  have hc := toNat_byte (n := n % 64 + 128) (by omega)
  generalize UInt8.ofNat (n / 4096 % 16 + 224) = a at ha ⊢
  generalize UInt8.ofNat (n / 64 % 64 + 128) = b at hb ⊢
  generalize UInt8.ofNat (n % 64 + 128) = c at hc ⊢
  have hlow : ¬a < 0x80 := by
    simp only [UInt8.lt_iff_toNat_lt, UInt8.reduceToNat]
    omega
  have htwo : ¬(0xC2 ≤ a && a ≤ 0xDF) = true := by
    simp only [between_iff, UInt8.reduceToNat]
    omega
  have hthree : (0xE0 ≤ a && a ≤ 0xEF) = true := (between_iff 0xE0 0xEF).mpr (by simp; omega)
  -- surrogates are not among the characters
  have hsecond : second3 a b = true := by
    unfold Nat.isValidChar at hvalid
    exact second3_iff.mpr (by omega)
  have hchar : char3 a b c = Char.ofNat n := by
    rw [← Char.toNat_inj, toNat_char3 (by omega) hsecond, toNat_ofNat hvalid]
    omega
  rw [decode_cons, if_neg hlow, if_neg htwo, if_pos hthree, orReplace_of_mem hsecond,
    orReplace_of_mem (isContinuation_iff.mpr (by omega)), hchar]

theorem decode_four (h : 65535 < n) (hvalid : n.isValidChar) :
    decode (UInt8.ofNat (n / 262144 % 8 + 240) :: UInt8.ofNat (n / 4096 % 64 + 128) ::
      UInt8.ofNat (n / 64 % 64 + 128) :: UInt8.ofNat (n % 64 + 128) :: rest) =
      Char.ofNat n :: decode rest := by
  have hrange : n < 0x110000 := by
    unfold Nat.isValidChar at hvalid
    omega
  have ha := toNat_byte (n := n / 262144 % 8 + 240) (by omega)
  have hb := toNat_byte (n := n / 4096 % 64 + 128) (by omega)
  have hc := toNat_byte (n := n / 64 % 64 + 128) (by omega)
  have hd := toNat_byte (n := n % 64 + 128) (by omega)
  generalize UInt8.ofNat (n / 262144 % 8 + 240) = a at ha ⊢
  generalize UInt8.ofNat (n / 4096 % 64 + 128) = b at hb ⊢
  generalize UInt8.ofNat (n / 64 % 64 + 128) = c at hc ⊢
  generalize UInt8.ofNat (n % 64 + 128) = d at hd ⊢
  have hlow : ¬a < 0x80 := by
    simp only [UInt8.lt_iff_toNat_lt, UInt8.reduceToNat]
    omega
  have htwo : ¬(0xC2 ≤ a && a ≤ 0xDF) = true := by
    simp only [between_iff, UInt8.reduceToNat]
    omega
  have hthree : ¬(0xE0 ≤ a && a ≤ 0xEF) = true := by
    simp only [between_iff, UInt8.reduceToNat]
    omega
  have hfour : (0xF0 ≤ a && a ≤ 0xF4) = true := (between_iff 0xF0 0xF4).mpr (by simp; omega)
  have hsecond : second4 a b = true := second4_iff.mpr (by omega)
  have hchar : char4 a b c d = Char.ofNat n := by
    rw [← Char.toNat_inj, toNat_char4 (by omega) hsecond, toNat_ofNat hvalid]
    omega
  rw [decode_cons, if_neg hlow, if_neg htwo, if_neg hthree, if_pos hfour, orReplace_of_mem hsecond,
    orReplace_of_mem (isContinuation_iff.mpr (by omega)),
    orReplace_of_mem (isContinuation_iff.mpr (by omega)), hchar]

end Encodings

theorem decode_utf8EncodeChar (c : Char) (rest : List UInt8) :
    decode (String.utf8EncodeChar c ++ rest) = c :: decode rest := by
  have hvalid : c.toNat.isValidChar := c.valid
  have hchar : c = Char.ofNat c.toNat := (Char.ofNat_toNat c).symm
  rw [hchar]
  generalize c.toNat = n at hvalid
  rw [String.utf8EncodeChar, ← Char.toNat, toNat_ofNat hvalid]
  split
  · next hone => exact decode_one rest hone
  · next hone =>
    split
    · next htwo => exact decode_two rest ⟨Nat.not_le.mp hone, htwo⟩
    · next htwo =>
      split
      · next hthree => exact decode_three rest ⟨Nat.not_le.mp htwo, hthree⟩ hvalid
      · next hthree => exact decode_four rest (Nat.not_le.mp hthree) hvalid

/-- What was encoded is decoded to itself. -/
theorem decode_utf8Encode (cs : List Char) : decode cs.utf8Encode.data.toList = cs := by
  rw [List.utf8Encode, List.data_toByteArray, List.toList_toArray]
  induction cs with
  | nil => rfl
  | cons c cs ih => rw [List.flatMap_cons, decode_utf8EncodeChar, ih]

/-! ## What is replaced -/

/-- The bytes are those that the encoding of some character begins with. -/
def Begins (bytes : List UInt8) : Prop := ∃ c, bytes <+: String.utf8EncodeChar c

theorem ofNat_eq {n : Nat} {a : UInt8} (h : n = a.toNat) : UInt8.ofNat n = a := by
  rw [h, UInt8.ofNat_toNat]

section Encoded

variable {a b c d : UInt8}

theorem utf8EncodeChar_low (ha : a.toNat < 0x80) :
    String.utf8EncodeChar (Char.ofNat a.toNat) = [a] := by
  rw [String.utf8EncodeChar, ← Char.toNat, toNat_ofNat (.inl (by omega)), if_pos (by omega),
    UInt8.ofNat_toNat]

theorem utf8EncodeChar_char2 (ha : 0xC2 ≤ a.toNat ∧ a.toNat ≤ 0xDF)
    (hb : isContinuation b = true) : String.utf8EncodeChar (char2 a b) = [a, b] := by
  have hb := isContinuation_iff.mp hb
  rw [String.utf8EncodeChar, ← Char.toNat, toNat_char2, if_neg (by omega), if_pos (by omega),
    ofNat_eq (a := a) (by omega), ofNat_eq (a := b) (by omega)]

theorem utf8EncodeChar_char3 (ha : 0xE0 ≤ a.toNat ∧ a.toNat ≤ 0xEF) (hb : second3 a b = true)
    (hc : isContinuation c = true) : String.utf8EncodeChar (char3 a b c) = [a, b, c] := by
  have hb' := second3_iff.mp hb
  have hc := isContinuation_iff.mp hc
  rw [String.utf8EncodeChar, ← Char.toNat, toNat_char3 ha hb, if_neg (by omega), if_neg (by omega),
    if_pos (by omega), ofNat_eq (a := a) (by omega), ofNat_eq (a := b) (by omega),
    ofNat_eq (a := c) (by omega)]

theorem utf8EncodeChar_char4 (ha : 0xF0 ≤ a.toNat ∧ a.toNat ≤ 0xF4) (hb : second4 a b = true)
    (hc : isContinuation c = true) (hd : isContinuation d = true) :
    String.utf8EncodeChar (char4 a b c d) = [a, b, c, d] := by
  have hb' := second4_iff.mp hb
  have hc := isContinuation_iff.mp hc
  have hd := isContinuation_iff.mp hd
  rw [String.utf8EncodeChar, ← Char.toNat, toNat_char4 ha hb, if_neg (by omega), if_neg (by omega),
    if_neg (by omega), ofNat_eq (a := a) (by omega), ofNat_eq (a := b) (by omega),
    ofNat_eq (a := c) (by omega), ofNat_eq (a := d) (by omega)]

end Encoded

/-- How bytes begin: with the encoding of a character, or with some that are replaced, which are
as many as begin an encoding, or one. -/
inductive First : List UInt8 → Prop
  | encoded (c : Char) (rest : List UInt8) : First (String.utf8EncodeChar c ++ rest)
  | broken {piece rest : List UInt8} (some : piece ≠ [])
    (begins : Begins piece ∨ piece.length = 1)
    (longest : ∀ b, rest.head? = .some b → ¬Begins (piece ++ [b]))
    (replaced : decode (piece ++ rest) = replacement :: decode rest) : First (piece ++ rest)

/-- An encoding gives one character. So what is replaced, with more to decode behind it, begins
no encoding. -/
theorem not_begins {piece : List UInt8} {b : UInt8}
    (h : ∀ rest, decode (piece ++ b :: rest) = replacement :: decode (b :: rest)) :
    ¬Begins (piece ++ [b]) := by
  rintro ⟨c, rest, hencoded⟩
  have hone := decode_utf8EncodeChar c []
  rw [List.append_nil, ← hencoded, List.append_assoc, List.singleton_append, h] at hone
  exact decode_ne_nil (List.cons_ne_nil b rest) (List.cons.inj hone).2

theorem First.orReplace {seen : List UInt8} {set : UInt8 → Bool}
    {go : UInt8 → List UInt8 → List Char} (hseen : seen ≠ [])
    (hbegins : Begins seen ∨ seen.length = 1)
    (hdecode : ∀ bytes, decode (seen ++ bytes) = Utf8.orReplace set go bytes)
    (hgo : ∀ b, set b = true → ∀ bytes, First (seen ++ [b] ++ bytes)) (bytes : List UInt8) :
    First (seen ++ bytes) := by
  cases bytes with
  | nil => exact .broken hseen hbegins (fun b hb => (by cases hb)) (hdecode [])
  | cons b rest =>
    by_cases hb : set b = true
    · have hfirst := hgo b hb rest
      rwa [List.append_assoc] at hfirst
    · have hstop : ∀ rest, decode (seen ++ b :: rest) = replacement :: decode (b :: rest) :=
        fun rest => (hdecode (b :: rest)).trans (if_neg hb)
      refine .broken hseen hbegins (fun b' hb' => ?_) (hstop rest)
      cases hb'
      exact not_begins hstop

theorem first_two {a : UInt8} (ha : 0xC2 ≤ a.toNat ∧ a.toNat ≤ 0xDF)
    (hdecode : ∀ bytes, decode ([a] ++ bytes) =
      orReplace isContinuation (fun b rest => char2 a b :: decode rest) bytes)
    (bytes : List UInt8) : First ([a] ++ bytes) := by
  refine .orReplace (List.cons_ne_nil a []) (.inr rfl) hdecode (fun b hb bytes => ?_) bytes
  have hencoded := First.encoded (char2 a b) bytes
  rwa [utf8EncodeChar_char2 ha hb] at hencoded

theorem first_three {a : UInt8} (ha : 0xE0 ≤ a.toNat ∧ a.toNat ≤ 0xEF)
    (hdecode : ∀ bytes, decode ([a] ++ bytes) = orReplace (second3 a) (fun b =>
      orReplace isContinuation fun c rest => char3 a b c :: decode rest) bytes)
    (bytes : List UInt8) : First ([a] ++ bytes) := by
  refine .orReplace (List.cons_ne_nil a []) (.inr rfl) hdecode (fun b hb => ?_) bytes
  have hbegins : Begins [a, b] :=
    ⟨char3 a b 0x80, [0x80], (utf8EncodeChar_char3 ha hb (by decide)).symm⟩
  refine .orReplace (List.cons_ne_nil a [b]) (.inl hbegins)
    (fun bytes => (hdecode (b :: bytes)).trans (orReplace_of_mem hb bytes)) fun c hc bytes => ?_
  have hencoded := First.encoded (char3 a b c) bytes
  rwa [utf8EncodeChar_char3 ha hb hc] at hencoded

theorem first_four {a : UInt8} (ha : 0xF0 ≤ a.toNat ∧ a.toNat ≤ 0xF4)
    (hdecode : ∀ bytes, decode ([a] ++ bytes) = orReplace (second4 a) (fun b =>
      orReplace isContinuation fun c => orReplace isContinuation fun d rest =>
        char4 a b c d :: decode rest) bytes)
    (bytes : List UInt8) : First ([a] ++ bytes) := by
  refine .orReplace (List.cons_ne_nil a []) (.inr rfl) hdecode (fun b hb => ?_) bytes
  have hdecode := fun bytes => (hdecode (b :: bytes)).trans (orReplace_of_mem hb bytes)
  have hbegins : Begins [a, b] :=
    ⟨char4 a b 0x80 0x80, [0x80, 0x80], (utf8EncodeChar_char4 ha hb (by decide) (by decide)).symm⟩
  refine .orReplace (List.cons_ne_nil a [b]) (.inl hbegins) hdecode fun c hc => ?_
  have hbegins : Begins [a, b, c] :=
    ⟨char4 a b c 0x80, [0x80], (utf8EncodeChar_char4 ha hb hc (by decide)).symm⟩
  refine .orReplace (List.cons_ne_nil a [b, c]) (.inl hbegins)
    (fun bytes => (hdecode (c :: bytes)).trans (orReplace_of_mem hc bytes)) fun d hd bytes => ?_
  have hencoded := First.encoded (char4 a b c d) bytes
  rwa [utf8EncodeChar_char4 ha hb hc hd] at hencoded

theorem first_decode (a : UInt8) (bytes : List UInt8) : First ([a] ++ bytes) := by
  have hdecode := decode_cons a
  by_cases hlow : a < 0x80
  · have hencoded := First.encoded (Char.ofNat a.toNat) bytes
    rwa [utf8EncodeChar_low (UInt8.lt_iff_toNat_lt.mp hlow)] at hencoded
  simp only [if_neg hlow] at hdecode
  by_cases htwo : (0xC2 ≤ a && a ≤ 0xDF) = true
  · simp only [if_pos htwo] at hdecode
    exact first_two ((between_iff 0xC2 0xDF).mp htwo) hdecode bytes
  simp only [if_neg htwo] at hdecode
  by_cases hthree : (0xE0 ≤ a && a ≤ 0xEF) = true
  · simp only [if_pos hthree] at hdecode
    exact first_three ((between_iff 0xE0 0xEF).mp hthree) hdecode bytes
  simp only [if_neg hthree] at hdecode
  by_cases hfour : (0xF0 ≤ a && a ≤ 0xF4) = true
  · simp only [if_pos hfour] at hdecode
    exact first_four ((between_iff 0xF0 0xF4).mp hfour) hdecode bytes
  simp only [if_neg hfour] at hdecode
  exact .broken (List.cons_ne_nil a []) (.inr rfl) (fun b _ => not_begins fun rest => hdecode _)
    (hdecode bytes)

/-- Where no encoding comes next, one replacement stands for the longest run that begins one, or
for a byte that begins none. -/
theorem decode_of_broken {bytes : List UInt8} (hne : bytes ≠ [])
    (h : ∀ c, ¬String.utf8EncodeChar c <+: bytes) :
    ∃ piece rest, bytes = piece ++ rest ∧ piece ≠ [] ∧ (Begins piece ∨ piece.length = 1) ∧
      (∀ longer, longer <+: bytes → Begins longer → longer.length ≤ piece.length) ∧
      decode bytes = replacement :: decode rest := by
  obtain ⟨a, tail, rfl⟩ := List.exists_cons_of_ne_nil hne
  have hfirst : First (a :: tail) := first_decode a tail
  generalize a :: tail = bytes at hfirst h
  cases hfirst with
  | encoded c rest => exact absurd (List.prefix_append _ _) (h c)
  | @broken piece rest some begins longest replaced =>
    refine ⟨piece, rest, rfl, some, begins, fun longer hlonger hbegins => ?_, replaced⟩
    refine Nat.not_lt.mp fun hlength => ?_
    obtain ⟨more, rfl⟩ : piece <+: longer :=
      List.prefix_of_prefix_length_le (List.prefix_append piece rest) hlonger (by omega)
    obtain ⟨b, more, rfl⟩ : ∃ b more', more = b :: more' :=
      List.exists_cons_of_ne_nil fun hnil => absurd hlength (by simp [hnil])
    obtain ⟨c, hc⟩ := hbegins
    have hhead : rest.head? = Option.some b := by
      obtain ⟨after, rfl⟩ := (List.prefix_append_right_inj piece).mp hlonger
      rfl
    refine longest b hhead ⟨c, List.IsPrefix.trans ?_ hc⟩
    exact (List.prefix_append_right_inj piece).mpr (List.prefix_append [b] more)

end FrameCode.Text.Utf8
