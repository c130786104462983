import Kenux.Lib.Word
import Mathlib.Data.UInt

/-!
# Layout of text (`api/kapi_string.c`, `kapi_text_layout_utf8`)

A string is the list of its bytes. `none` is a byte read outside it.
-/

namespace Text

/-- `KAPI_TEXT_REPLACEMENT_CHAR` -/
def replacement : ℕ := 0xFFFD

/-- `text[off + k]`, with 32 bits for the index. -/
def byteAt (text : List UInt8) (off k : ℕ) : Option ℕ := (text[(off + k) % 2 ^ 32]?).map UInt8.toNat

/-- `kapi_utf8_next`: the code point and `byte_len`. -/
def kapiUtf8Next (text : List UInt8) (off : ℕ) : Option (ℕ × ℕ) :=
  (byteAt text off 0).bind fun ch =>
    if ch < 0x80 then some (ch, 1)
    else if ch &&& 0xE0 = 0xC0 ∧ (off + 1) % 2 ^ 32 < text.length then
      (byteAt text off 1).map fun c1 => (((ch &&& 0x1F) <<< 6) ||| (c1 &&& 0x3F), 2)
    else if ch &&& 0xF0 = 0xE0 ∧ (off + 2) % 2 ^ 32 < text.length then
      (byteAt text off 1).bind fun c1 => (byteAt text off 2).map fun c2 =>
        (((ch &&& 0x0F) <<< 12) ||| ((c1 &&& 0x3F) <<< 6) ||| (c2 &&& 0x3F), 3)
    else if ch &&& 0xF8 = 0xF0 ∧ (off + 3) % 2 ^ 32 < text.length then
      (byteAt text off 1).bind fun c1 => (byteAt text off 2).bind fun c2 => (byteAt text off 3).map fun c3 =>
        (((ch &&& 0x07) <<< 18) ||| ((c1 &&& 0x3F) <<< 12) ||| ((c2 &&& 0x3F) <<< 6) ||| (c3 &&& 0x3F), 4)
    else some (replacement, 1)

/-- `kapi_text_glyph_t` -/
structure Glyph where
  codepoint : ℕ
  byteOffset : ℕ
  byteLen : ℕ
  cellWidth : ℕ
  pixelWidth : ℕ

def cells (cp : ℕ) : ℕ := if cp ≥ 0x1100 then 2 else 1

def glyph (cp off blen : ℕ) : Glyph := ⟨cp, off, blen, cells cp, cells cp * 8⟩

/-- What is written of `kapi_text_layout_t`, with the glyphs that are stored. -/
structure Layout where
  glyphs : List Glyph
  count : ℕ
  totalCells : ℕ
  totalPx : ℕ

/-- One round; nothing is stored without an array. -/
def Layout.put (present : Bool) (capacity : ℕ) (layout : Layout) (g : Glyph) : Layout where
  glyphs := if present ∧ layout.count < capacity then layout.glyphs ++ [g] else layout.glyphs
  count := (layout.count + 1) % 2 ^ 32
  totalCells := (layout.totalCells + g.cellWidth) % 2 ^ 32
  totalPx := (layout.totalPx + g.pixelWidth) % 2 ^ 32

/-- The loop, for at most `fuel` rounds. -/
def layoutLoop (text : List UInt8) (present : Bool) (capacity : ℕ) : ℕ → ℕ → Layout → Option Layout
  | 0, off, layout => if off < text.length then none else some layout
  | fuel + 1, off, layout =>
    if off < text.length then
      (kapiUtf8Next text off).bind fun next =>
        layoutLoop text present capacity fuel ((off + next.2) % 2 ^ 32)
          (layout.put present capacity (glyph next.1 off next.2))
    else some layout

/-- `kapi_text_layout_utf8` -/
def kapiTextLayoutUtf8 (text : List UInt8) (present : Bool) (capacity : ℕ) : Option Layout :=
  layoutLoop text present capacity text.length 0 ⟨[], 0, 0, 0⟩

/-! ## How a string is to be read -/

/-- A character, or a byte that begins none. -/
inductive Item where
  | char (c : Char)
  | stray (b : UInt8)

def Item.bytes : Item → List UInt8
  | .char c => String.utf8EncodeChar c
  | .stray b => [b]

def Item.codepoint : Item → ℕ
  | .char c => c.val.toNat
  | .stray _ => replacement

def bytes (items : List Item) : List UInt8 := items.flatMap Item.bytes

/-- No stray byte begins a character, together with the bytes behind it. -/
def IsReading : List Item → Prop
  | [] => True
  | .char _ :: items => IsReading items
  | .stray b :: items => (∀ c, ¬String.utf8EncodeChar c <+: b :: bytes items) ∧ IsReading items

/-- The glyphs from an offset on. -/
def glyphsFrom : ℕ → List Item → List Glyph
  | _, [] => []
  | off, i :: items => glyph i.codepoint off i.bytes.length :: glyphsFrom (off + i.bytes.length) items

/-- What a layout of these glyphs is. -/
def layoutOf (present : Bool) (capacity : ℕ) (gs : List Glyph) : Layout where
  glyphs := if present then gs.take capacity else []
  count := gs.length
  totalCells := (gs.map Glyph.cellWidth).sum
  totalPx := (gs.map Glyph.pixelWidth).sum

/-- The glyphs are those of the reading, whatever room there is for them. -/
def LaysOut (text : List UInt8) : Prop :=
  ∃ items, bytes items = text ∧ IsReading items ∧ ∀ present capacity,
    kapiTextLayoutUtf8 text present capacity = some (layoutOf present capacity (glyphsFrom 0 items))

/-- The number of bytes that a lead byte announces. -/
def announced (b : UInt8) : ℕ :=
  if b.toNat / 32 = 6 then 2 else if b.toNat / 16 = 14 then 3 else if b.toNat / 8 = 30 then 4 else 1

/-- No stray byte of a string of `len` bytes is a lead byte whose bytes lie in the string, or go past the last index. -/
def Clean (len : ℕ) : List Item → Prop
  | [] => True
  | .char _ :: items => Clean len items
  | .stray b :: items =>
    (2 ≤ announced b → 1 + (bytes items).length < announced b ∧
      len - (1 + (bytes items).length) + announced b ≤ 2 ^ 32) ∧ Clean len items

variable {text : List UInt8} {items : List Item} {off len cp blen : ℕ} {b : UInt8}

/-! ## One glyph -/

theorem length_bytes_pos (i : Item) : 0 < i.bytes.length := by
  cases i with
  | char c => exact (String.length_utf8EncodeChar c).symm ▸ c.utf8Size_pos
  | stray b => exact Nat.one_pos

/-- Every string has a reading. -/
theorem exists_reading (text : List UInt8) : ∃ items, bytes items = text ∧ IsReading items := by
  induction hlen : text.length using Nat.strong_induction_on generalizing text with
  | h n ih =>
    cases text with
    | nil => exact ⟨[], rfl, trivial⟩
    | cons b rest =>
      by_cases hchar : ∃ c, String.utf8EncodeChar c <+: b :: rest
      · obtain ⟨c, after, hafter⟩ := hchar
        have hpos := length_bytes_pos (.char c)
        have hshort : after.length < n := by
          rw [← hlen, ← hafter, List.length_append]
          exact Nat.lt_add_of_pos_left hpos
        obtain ⟨items, hitems, hreading⟩ := ih after.length hshort after rfl
        exact ⟨.char c :: items, by rw [← hafter, ← hitems]; rfl, hreading⟩
      · obtain ⟨items, hitems, hreading⟩ := ih rest.length (by rw [← hlen]; exact Nat.lt_succ_self _) rest rfl
        refine ⟨.stray b :: items, by rw [← hitems]; rfl, ?_, hreading⟩
        rw [hitems]
        exact not_exists.mp hchar

theorem and_low (x : ℕ) : x &&& 0x3F = x % 64 := Nat.and_two_pow_sub_one_eq_mod x 6

theorem lead_two (b : UInt8) : b.toNat &&& 0xE0 = 0xC0 ↔ b.toNat / 32 = 6 := by
  have hb := b.toNat_lt
  rw [show 0xE0 = (2 ^ 3 - 1) * 2 ^ 5 from rfl, Word.nat_and_field]
  omega

theorem lead_three (b : UInt8) : b.toNat &&& 0xF0 = 0xE0 ↔ b.toNat / 16 = 14 := by
  have hb := b.toNat_lt
  rw [show 0xF0 = (2 ^ 4 - 1) * 2 ^ 4 from rfl, Word.nat_and_field]
  omega

theorem lead_four (b : UInt8) : b.toNat &&& 0xF8 = 0xF0 ↔ b.toNat / 8 = 30 := by
  have hb := b.toNat_lt
  rw [show 0xF8 = (2 ^ 5 - 1) * 2 ^ 3 from rfl, Word.nat_and_field]
  omega

/-- The code point that the bytes of a glyph stand for. -/
def decoded : List ℕ → ℕ
  | [a] => a
  | [a, b] => a % 32 * 64 + b % 64
  | [a, b, c] => a % 16 * 4096 + b % 64 * 64 + c % 64
  | [a, b, c, d] => a % 8 * 262144 + b % 64 * 4096 + c % 64 * 64 + d % 64
  | _ => replacement

theorem or_low {a b : ℕ} (i : ℕ) (hb : b < 2 ^ i) : a <<< i ||| b = a * 2 ^ i + b := by
  rw [← Nat.shiftLeft_add_eq_or_of_lt hb, Nat.shiftLeft_eq]

/-- The byte at an offset, for a string that is split there. -/
theorem byteAt_eq (pre rest : List UInt8) {k : ℕ} (hk : pre.length + k < 2 ^ 32) :
    byteAt (pre ++ rest) pre.length k = (rest[k]?).map UInt8.toNat := by
  unfold byteAt
  rw [Nat.mod_eq_of_lt hk, List.getElem?_append_right (Nat.le_add_right _ _), Nat.add_sub_cancel_left]

theorem inside_iff (pre rest : List UInt8) {k : ℕ} (hk : pre.length + k < 2 ^ 32) :
    (pre.length + k) % 2 ^ 32 < (pre ++ rest).length ↔ k < rest.length := by
  rw [Nat.mod_eq_of_lt hk, List.length_append]
  exact Nat.add_lt_add_iff_left

/-- What is read of a string that is split at the offset: a lead byte's own bytes, without a look at what they are. -/
theorem kapiUtf8Next_eq {pre rest : List UInt8} (hfits : pre.length + announced b ≤ 2 ^ 32) :
    kapiUtf8Next (pre ++ b :: rest) pre.length =
      if b.toNat < 0x80 then some (b.toNat, 1)
      else if 2 ≤ announced b ∧ announced b ≤ (b :: rest).length then
        some (decoded (((b :: rest).take (announced b)).map UInt8.toNat), announced b)
      else some (replacement, 1) := by
  have hbyte {k : ℕ} (hk : k < announced b) := byteAt_eq pre (b :: rest) (k := k) (by omega)
  have hinside {k : ℕ} (hk : k < announced b) := inside_iff pre (b :: rest) (k := k) (by omega)
  have hfirst : byteAt (pre ++ b :: rest) pre.length 0 = some b.toNat := by
    rw [hbyte (by unfold announced; split_ifs <;> decide)]
    rfl
  unfold kapiUtf8Next
  rw [hfirst, Option.bind_some]
  by_cases hascii : b.toNat < 0x80
  · rw [if_pos hascii, if_pos hascii]
  rw [if_neg hascii, if_neg hascii]
  by_cases h2 : b.toNat / 32 = 6
  · have hn : announced b = 2 := if_pos h2
    rw [if_neg (c := _ ∧ (_ + 2) % _ < _) fun hand => by have h3 := (lead_three b).mp hand.1; omega,
      if_neg (c := _ ∧ (_ + 3) % _ < _) fun hand => by have h4 := (lead_four b).mp hand.1; omega, hn]
    by_cases hin : 1 < (b :: rest).length
    · rw [if_pos ⟨(lead_two b).mpr h2, (hinside (by omega)).mpr hin⟩, if_pos ⟨Nat.le_refl 2, hin⟩, hbyte (by omega)]
      match rest, hin with
      | c1 :: rest, _ =>
        change some ((b.toNat &&& (2 ^ 5 - 1)) <<< 6 ||| (c1.toNat &&& 0x3F), 2) = some (_ % 32 * 2 ^ 6 + _ % 64, 2)
        rw [Nat.and_two_pow_sub_one_eq_mod, and_low, or_low 6 (b := c1.toNat % 64) (by omega)]
    · rw [if_neg fun hand => hin ((hinside (by omega)).mp hand.2), if_neg fun hand => hin hand.2]
  have hno2 : ¬(b.toNat &&& 0xE0 = 0xC0 ∧ (pre.length + 1) % 2 ^ 32 < (pre ++ b :: rest).length) :=
    fun hand => h2 ((lead_two b).mp hand.1)
  rw [if_neg hno2]
  by_cases h3 : b.toNat / 16 = 14
  · have hn : announced b = 3 := by rw [announced, if_neg h2, if_pos h3]
    rw [if_neg (c := _ ∧ (_ + 3) % _ < _) fun hand => by have h4 := (lead_four b).mp hand.1; omega, hn]
    by_cases hin : 2 < (b :: rest).length
    · rw [if_pos ⟨(lead_three b).mpr h3, (hinside (by omega)).mpr hin⟩, if_pos ⟨by decide, hin⟩, hbyte (by omega),
        hbyte (by omega)]
      match rest, hin with
      | c1 :: c2 :: rest, _ =>
        change some ((b.toNat &&& (2 ^ 4 - 1)) <<< 12 ||| (c1.toNat &&& 0x3F) <<< 6 ||| (c2.toNat &&& 0x3F), 3) =
          some (_ % 16 * 2 ^ 12 + _ % 64 * 2 ^ 6 + _ % 64, 3)
        rw [Nat.and_two_pow_sub_one_eq_mod, and_low, and_low, Nat.or_assoc,
          or_low 6 (b := c2.toNat % 64) (by omega), or_low 12 (b := _ * _ + _) (by omega), Nat.add_assoc]
    · rw [if_neg fun hand => hin ((hinside (by omega)).mp hand.2), if_neg fun hand => hin hand.2]
  rw [if_neg fun hand => h3 ((lead_three b).mp hand.1)]
  by_cases h4 : b.toNat / 8 = 30
  · have hn : announced b = 4 := by rw [announced, if_neg h2, if_neg h3, if_pos h4]
    rw [hn]
    by_cases hin : 3 < (b :: rest).length
    · rw [if_pos ⟨(lead_four b).mpr h4, (hinside (by omega)).mpr hin⟩, if_pos ⟨by decide, hin⟩, hbyte (by omega),
        hbyte (by omega), hbyte (by omega)]
      match rest, hin with
      | c1 :: c2 :: c3 :: rest, _ =>
        change some ((b.toNat &&& (2 ^ 3 - 1)) <<< 18 ||| (c1.toNat &&& 0x3F) <<< 12 ||| (c2.toNat &&& 0x3F) <<< 6 |||
          (c3.toNat &&& 0x3F), 4) = some (_ % 8 * 2 ^ 18 + _ % 64 * 2 ^ 12 + _ % 64 * 2 ^ 6 + _ % 64, 4)
        rw [Nat.and_two_pow_sub_one_eq_mod, and_low, and_low, and_low, Nat.or_assoc, Nat.or_assoc,
          or_low 6 (b := c3.toNat % 64) (by omega), or_low 12 (b := _ * _ + _) (by omega),
          or_low 18 (b := _ * _ + _) (by omega), Nat.add_assoc, Nat.add_assoc]
    · rw [if_neg fun hand => hin ((hinside (by omega)).mp hand.2), if_neg fun hand => hin hand.2]
  have hn : announced b = 1 := by rw [announced, if_neg h2, if_neg h3, if_neg h4]
  rw [if_neg fun hand => h4 ((lead_four b).mp hand.1), hn, if_neg fun hand => absurd hand.1 (by decide)]

/-- Past the last index a byte behind the string is read. -/
theorem kapiUtf8Next_wraps {pre rest : List UInt8} (hlen : (pre ++ b :: rest).length < 2 ^ 32)
    (hfits : 2 ^ 32 < pre.length + announced b) : kapiUtf8Next (pre ++ b :: rest) pre.length = none := by
  rw [List.length_append, List.length_cons] at hlen
  have hmany : 3 ≤ announced b := by omega
  have hbyte {k : ℕ} (hk : rest.length < k) (hsmall : pre.length + k < 2 ^ 32) :
      byteAt (pre ++ b :: rest) pre.length k = none := by
    rw [byteAt_eq _ _ hsmall, List.getElem?_eq_none hk, Option.map_none]
  have hnone {α : Type} (f : ℕ → ℕ → Option α) : ((byteAt (pre ++ b :: rest) pre.length 1).bind fun c1 =>
      (byteAt (pre ++ b :: rest) pre.length 2).bind fun c2 => f c1 c2) = none := by
    rcases Nat.eq_zero_or_pos rest.length with hrest | hrest
    · rw [hbyte (by omega) (by omega), Option.bind_none]
    · have hle : announced b ≤ 4 := by unfold announced; split_ifs <;> decide
      rw [hbyte (k := 2) (by omega) (by omega)]
      simp only [Option.bind_none, Option.bind_fun_none]
  have hfirst : byteAt (pre ++ b :: rest) pre.length 0 = some b.toNat := by
    rw [byteAt_eq _ _ (by omega)]
    rfl
  have hno2 : b.toNat / 32 ≠ 6 := fun h2 => by rw [announced, if_pos h2] at hmany; omega
  unfold kapiUtf8Next
  rw [hfirst, Option.bind_some, if_neg (c := _ ∧ (_ + 1) % _ < _) fun hand => hno2 ((lead_two b).mp hand.1)]
  by_cases h3 : b.toNat / 16 = 14
  · have hn : announced b = 3 := by rw [announced, if_neg hno2, if_pos h3]
    have hin : (pre.length + 2) % 2 ^ 32 < (pre ++ b :: rest).length := by
      rw [List.length_append, List.length_cons]
      omega
    rw [if_neg (by omega), if_pos ⟨(lead_three b).mpr h3, hin⟩]
    simp only [Option.map_eq_bind, hnone]
  · have h4 : b.toNat / 8 = 30 := by
      by_contra h4
      rw [announced, if_neg hno2, if_neg h3, if_neg h4] at hmany
      omega
    have hn : announced b = 4 := by rw [announced, if_neg hno2, if_neg h3, if_pos h4]
    have hin : (pre.length + 3) % 2 ^ 32 < (pre ++ b :: rest).length := by
      rw [List.length_append, List.length_cons]
      omega
    rw [if_neg (by omega), if_neg fun hand => h3 ((lead_three b).mp hand.1), if_pos ⟨(lead_four b).mpr h4, hin⟩, hnone]

/-- The bytes of a character: the first one announces them all, and together they stand for it. -/
theorem encode_eq (c : Char) : ∃ b tail, String.utf8EncodeChar c = b :: tail ∧ announced b = (b :: tail).length ∧
    decoded ((b :: tail).map UInt8.toNat) = c.val.toNat ∧ (b.toNat < 0x80 ↔ tail = []) := by
  have hvalid : c.val.toNat < 0x110000 := by
    rcases c.valid with h | h
    · exact h.trans (by decide)
    · exact h.2
  have hbyte {n : ℕ} (hn : n < 256) : (UInt8.ofNat n).toNat = n := UInt8.toNat_ofNat_of_lt hn
  unfold String.utf8EncodeChar
  dsimp only
  split_ifs with h1 h2 h3
  · refine ⟨_, _, rfl, ?_, hbyte (by omega), ?_⟩
    · unfold announced
      rw [hbyte (by omega), if_neg (by omega), if_neg (by omega), if_neg (by omega)]
      rfl
    · rw [hbyte (by omega)]
      exact ⟨fun _ => rfl, fun _ => by omega⟩
  · refine ⟨_, _, rfl, ?_, ?_, ?_⟩
    · unfold announced
      rw [hbyte (by omega), if_pos (by omega)]
      rfl
    · unfold decoded
      dsimp only [List.map]
      rw [hbyte (by omega), hbyte (by omega)]
      omega
    · rw [hbyte (by omega)]
      exact ⟨fun h => absurd h (by omega), nofun⟩
  · refine ⟨_, _, rfl, ?_, ?_, ?_⟩
    · unfold announced
      rw [hbyte (by omega), if_neg (by omega), if_pos (by omega)]
      rfl
    · unfold decoded
      dsimp only [List.map]
      rw [hbyte (by omega), hbyte (by omega), hbyte (by omega)]
      omega
    · rw [hbyte (by omega)]
      exact ⟨fun h => absurd h (by omega), nofun⟩
  · refine ⟨_, _, rfl, ?_, ?_, ?_⟩
    · unfold announced
      rw [hbyte (by omega), if_neg (by omega), if_neg (by omega), if_pos (by omega)]
      rfl
    · unfold decoded
      dsimp only [List.map]
      rw [hbyte (by omega), hbyte (by omega), hbyte (by omega), hbyte (by omega)]
      omega
    · rw [hbyte (by omega)]
      exact ⟨fun h => absurd h (by omega), nofun⟩

/-- A character in front gives its code point. -/
theorem kapiUtf8Next_char {pre rest : List UInt8} {c : Char}
    (hlen : (pre ++ (String.utf8EncodeChar c ++ rest)).length < 2 ^ 32) :
    kapiUtf8Next (pre ++ (String.utf8EncodeChar c ++ rest)) pre.length =
      some (c.val.toNat, (String.utf8EncodeChar c).length) := by
  obtain ⟨b, tail, heq, hannounced, hdecoded, hascii⟩ := encode_eq c
  rw [heq, List.cons_append] at hlen ⊢
  rw [List.length_append, List.length_cons, List.length_append] at hlen
  rw [kapiUtf8Next_eq (by rw [hannounced, List.length_cons]; omega), ← List.cons_append, hannounced, List.take_left,
    hdecoded]
  by_cases hone : b.toNat < 0x80
  · rw [hascii.mp hone] at hdecoded ⊢
    rw [if_pos hone]
    exact congrArg some (Prod.ext hdecoded rfl)
  · have htail : 0 < tail.length := List.length_pos_iff.mpr fun heq => hone (hascii.mpr heq)
    rw [if_neg hone, if_pos ⟨by rw [List.length_cons]; omega, by rw [List.length_append]; omega⟩]

/-- A byte that begins no character is not below `0x80`. -/
theorem not_ascii {rest : List UInt8} (hstray : ∀ c, ¬String.utf8EncodeChar c <+: b :: rest) : ¬b.toNat < 0x80 := by
  intro hlt
  have hvalid : b.toUInt32.isValidChar := .inl (by rw [UInt8.toNat_toUInt32]; omega)
  refine hstray ⟨b.toUInt32, hvalid⟩ ⟨rest, ?_⟩
  unfold String.utf8EncodeChar
  dsimp only
  rw [UInt8.toNat_toUInt32, if_pos (by omega), UInt8.ofNat_toNat]
  rfl

/-! ## The loop -/

/-- The glyphs of the rounds. -/
def rounds (text : List UInt8) : ℕ → ℕ → Option (List Glyph)
  | 0, off => if off < text.length then none else some []
  | fuel + 1, off =>
    if off < text.length then
      (kapiUtf8Next text off).bind fun next =>
        (rounds text fuel ((off + next.2) % 2 ^ 32)).map fun gs => glyph next.1 off next.2 :: gs
    else some []

variable {present : Bool} {capacity fuel : ℕ} {gs : List Glyph}

theorem layoutLoop_eq {layout : Layout} : layoutLoop text present capacity fuel off layout =
    (rounds text fuel off).map fun gs => gs.foldl (Layout.put present capacity) layout := by
  induction fuel generalizing off layout with
  | zero =>
    unfold layoutLoop rounds
    split_ifs
    · rfl
    · rfl
  | succ fuel ih =>
    unfold layoutLoop rounds
    split_ifs
    · cases kapiUtf8Next text off with
      | none => rfl
      | some next =>
        rw [Option.bind_some, Option.bind_some, ih, Option.map_map]
        rfl
    · rfl

theorem length_rounds (hgs : rounds text fuel off = some gs) : gs.length ≤ fuel := by
  induction fuel generalizing off gs with
  | zero =>
    unfold rounds at hgs
    split_ifs at hgs
    cases hgs
    exact Nat.le_refl 0
  | succ fuel ih =>
    unfold rounds at hgs
    split_ifs at hgs
    · obtain ⟨next, -, hnext⟩ := Option.bind_eq_some_iff.mp hgs
      obtain ⟨rest, hrest, rfl⟩ := Option.map_eq_some_iff.mp hnext
      exact Nat.succ_le_succ (ih hrest)
    · cases hgs
      exact Nat.zero_le _

/-- What the rounds leave, with sums of 32 bits. -/
theorem foldl_put (hlen : gs.length < 2 ^ 32) : gs.foldl (Layout.put present capacity) ⟨[], 0, 0, 0⟩ =
    ⟨(layoutOf present capacity gs).glyphs, gs.length, (gs.map Glyph.cellWidth).sum % 2 ^ 32,
      (gs.map Glyph.pixelWidth).sum % 2 ^ 32⟩ := by
  induction gs using List.reverseRecOn with
  | nil => cases present <;> rw [layoutOf] <;> simp
  | append_singleton gs g ih =>
    rw [List.length_append, List.length_singleton] at hlen
    rw [List.foldl_append, ih (by omega), List.foldl_cons, List.foldl_nil]
    unfold Layout.put layoutOf
    simp only [List.length_append, List.length_singleton, List.map_append, List.map_cons, List.map_nil,
      List.sum_append, List.sum_singleton, Nat.mod_add_mod, Nat.mod_eq_of_lt hlen]
    congr 1
    cases present with
    | false => rfl
    | true =>
      simp only [true_and, if_true]
      split_ifs with hroom
      · rw [List.take_of_length_le (Nat.le_of_lt hroom), List.take_of_length_le (by rw [List.length_append]; exact hroom)]
      · rw [List.take_append_of_le_length (Nat.not_lt.mp hroom)]

theorem bytes_cons {i : Item} : bytes (i :: items) = i.bytes ++ bytes items := List.flatMap_cons

theorem length_glyphsFrom (off : ℕ) : (glyphsFrom off items).length ≤ (bytes items).length := by
  induction items generalizing off with
  | nil => exact Nat.le_refl 0
  | cons i items ih =>
    have hpos := length_bytes_pos i
    have hrest := ih (off + i.bytes.length)
    rw [bytes_cons, glyphsFrom, List.length_cons, List.length_append]
    omega

theorem sum_pixelWidth : ((glyphsFrom off items).map Glyph.pixelWidth).sum =
    ((glyphsFrom off items).map Glyph.cellWidth).sum * 8 := by
  induction items generalizing off with
  | nil => rfl
  | cons i items ih =>
    rw [glyphsFrom, List.map_cons, List.map_cons, List.sum_cons, List.sum_cons, ih, Nat.add_mul]
    rfl

/-- The next round reads an item as it should, or goes wrong there. -/
theorem rounds_cons {pre : List UInt8} {i : Item} (hlen : (pre ++ bytes (i :: items)).length < 2 ^ 32)
    (hnext : kapiUtf8Next (pre ++ bytes (i :: items)) pre.length = some (i.codepoint, i.bytes.length)) :
    rounds (pre ++ bytes (i :: items)) (fuel + 1) pre.length = some (glyphsFrom pre.length (i :: items)) ↔
      rounds ((pre ++ i.bytes) ++ bytes items) fuel (pre ++ i.bytes).length =
        some (glyphsFrom (pre ++ i.bytes).length items) := by
  have hpos := length_bytes_pos i
  rw [bytes_cons, ← List.append_assoc] at hlen hnext ⊢
  rw [List.length_append, List.length_append] at hlen
  rw [rounds, if_pos (by rw [List.length_append, List.length_append]; omega), hnext, Option.bind_some,
    Nat.mod_eq_of_lt (by omega), glyphsFrom, List.length_append, Option.map_eq_some_iff]
  constructor
  · rintro ⟨gs, hgs, heq⟩
    rw [hgs, (List.cons.inj heq).2]
  · exact fun hgs => ⟨_, hgs, rfl⟩

theorem rounds_iff {pre : List UInt8} (hlen : (pre ++ bytes items).length < 2 ^ 32) (hreading : IsReading items)
    (hfuel : (bytes items).length ≤ fuel) :
    rounds (pre ++ bytes items) fuel pre.length = some (glyphsFrom pre.length items) ↔
      Clean (pre ++ bytes items).length items := by
  induction items generalizing pre fuel with
  | nil =>
    have hend : ¬pre.length < (pre ++ bytes []).length := by simp [bytes]
    refine iff_of_true ?_ trivial
    cases fuel <;> rw [rounds, if_neg hend] <;> rfl
  | cons i items ih =>
    have hpos := length_bytes_pos i
    have hsplit : pre ++ bytes (i :: items) = (pre ++ i.bytes) ++ bytes items := by
      rw [bytes_cons, List.append_assoc]
    have hrest := hfuel
    rw [bytes_cons, List.length_append] at hrest
    obtain ⟨fuel, rfl⟩ := Nat.exists_eq_add_of_le' (show 1 ≤ fuel by omega)
    cases i with
    | char c =>
      rw [rounds_cons hlen (by rw [bytes_cons] at hlen ⊢; exact kapiUtf8Next_char hlen),
        ih (hsplit ▸ hlen) hreading (by omega), ← hsplit]
      rfl
    | stray b =>
      have hbytes : bytes (.stray b :: items) = b :: bytes items := bytes_cons
      have hascii := not_ascii hreading.1
      have hback : (pre ++ bytes (.stray b :: items)).length - (1 + (bytes items).length) = pre.length := by
        rw [hbytes, List.length_append, List.length_cons]
        omega
      unfold Clean
      rw [hback]
      by_cases hkept : 2 ≤ announced b → 1 + (bytes items).length < announced b ∧ pre.length + announced b ≤ 2 ^ 32
      · have hnext : kapiUtf8Next (pre ++ bytes (.stray b :: items)) pre.length = some (replacement, 1) := by
          have hfits : pre.length + announced b ≤ 2 ^ 32 := by
            rcases Nat.lt_or_ge (announced b) 2 with hone | htwo
            · rw [List.length_append] at hlen
              omega
            · exact (hkept htwo).2
          rw [hbytes, kapiUtf8Next_eq hfits, if_neg hascii, if_neg]
          rintro ⟨htwo, hle⟩
          have hlt := (hkept htwo).1
          rw [List.length_cons] at hle
          omega
        rw [rounds_cons hlen hnext, ih (hsplit ▸ hlen) hreading.2 (by omega), ← hsplit]
        exact ⟨fun hclean => ⟨hkept, hclean⟩, And.right⟩
      · refine iff_of_false (fun hgs => ?_) fun hclean => hkept hclean.1
        obtain ⟨htwo, hbad⟩ := Classical.not_imp.mp hkept
        rw [rounds, if_pos (by rw [hbytes, List.length_append, List.length_cons]; omega)] at hgs
        obtain ⟨next, hnext, hgs⟩ := Option.bind_eq_some_iff.mp hgs
        obtain ⟨gs, -, heq⟩ := Option.map_eq_some_iff.mp hgs
        have hone : next.2 = 1 := congrArg Glyph.byteLen (List.cons.inj heq).1
        rw [hbytes] at hnext hlen
        rcases Nat.lt_or_ge (2 ^ 32) (pre.length + announced b) with hwraps | hfits
        · rw [kapiUtf8Next_wraps hlen hwraps] at hnext
          cases hnext
        · rw [kapiUtf8Next_eq hfits, if_neg hascii, if_pos ⟨htwo, by rw [List.length_cons]; omega⟩] at hnext
          cases hnext
          dsimp only at hone
          omega

/-- A string is laid out as it should be, whatever room there is, exactly where no stray byte is a lead byte with its
bytes in the string, and the widths do not pass 32 bits. -/
theorem laysOut_iff (hlen : text.length < 2 ^ 32) : LaysOut text ↔ ∃ items, bytes items = text ∧ IsReading items ∧
    Clean text.length items ∧ ((glyphsFrom 0 items).map Glyph.pixelWidth).sum < 2 ^ 32 := by
  have hrounds {items : List Item} (hitems : bytes items = text) (hreading : IsReading items) :
      rounds text text.length 0 = some (glyphsFrom 0 items) ↔ Clean text.length items := by
    subst hitems
    have hiff := rounds_iff (show ([] ++ bytes items).length < 2 ^ 32 from hlen) hreading (Nat.le_refl _)
    exact hiff
  unfold LaysOut kapiTextLayoutUtf8
  constructor
  · rintro ⟨items, hitems, hreading, hall⟩
    have hlayout := hall true text.length
    rw [layoutLoop_eq] at hlayout
    obtain ⟨gs, hgs, hfold⟩ := Option.map_eq_some_iff.mp hlayout
    have hcount := length_rounds hgs
    rw [foldl_put (by omega)] at hfold
    have hglyphs : gs.take text.length = (glyphsFrom 0 items).take text.length := congrArg Layout.glyphs hfold
    rw [List.take_of_length_le hcount, List.take_of_length_le (hitems ▸ length_glyphsFrom 0)] at hglyphs
    have hpixels : (gs.map Glyph.pixelWidth).sum % 2 ^ 32 = ((glyphsFrom 0 items).map Glyph.pixelWidth).sum :=
      congrArg Layout.totalPx hfold
    rw [hglyphs] at hgs hpixels
    exact ⟨items, hitems, hreading, (hrounds hitems hreading).mp hgs, hpixels ▸ Nat.mod_lt _ (by decide)⟩
  · rintro ⟨items, hitems, hreading, hclean, hpixels⟩
    refine ⟨items, hitems, hreading, fun present capacity => ?_⟩
    have hgs := (hrounds hitems hreading).mpr hclean
    have hcells : ((glyphsFrom 0 items).map Glyph.cellWidth).sum < 2 ^ 32 := by
      rw [sum_pixelWidth] at hpixels
      omega
    rw [layoutLoop_eq, hgs, Option.map_some, foldl_put (by have hcount := length_rounds hgs; omega),
      Nat.mod_eq_of_lt hcells, Nat.mod_eq_of_lt hpixels]
    rfl

theorem letter_laid_out : LaysOut [65] :=
  (laysOut_iff (by decide)).mpr ⟨[.char 'A'], rfl, trivial, trivial, by decide⟩

/-- A lead byte takes the letter behind it for its second byte. -/
theorem letter_swallowed :
    kapiTextLayoutUtf8 [0xC3, 0x41] true 2 = some ⟨[glyph 0xC1 0 2], 1, 1, 8⟩ ∧ ¬LaysOut [0xC3, 0x41] := by
  have hlayout : kapiTextLayoutUtf8 [0xC3, 0x41] true 2 = some ⟨[glyph 0xC1 0 2], 1, 1, 8⟩ := rfl
  refine ⟨hlayout, ?_⟩
  rintro ⟨items, hitems, -, hall⟩
  have heq := hall true 2
  rw [hlayout] at heq
  have hglyphs := congrArg Layout.glyphs (Option.some.inj heq)
  have hcount := congrArg Layout.count (Option.some.inj heq)
  match items with
  | [] => cases hitems
  | [.stray b] => cases hitems
  | [.char c] =>
    have hcode : 0xC1 = c.val.toNat := congrArg Glyph.codepoint (List.cons.inj hglyphs).1
    have hc : c = Char.ofNat 0xC1 := Char.ext (UInt32.toNat_inj.mp hcode.symm)
    rw [hc] at hitems
    revert hitems
    decide
  | _ :: _ :: _ => cases hcount

end Text
