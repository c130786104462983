import Mathlib.Data.UInt

/-!
# Formatted text (`api/kapi_string.c`, `kapi_vsnprintf`)

A string is the list of its characters without the zero behind them. What is written goes to the buffer from its start
on, so it is kept as a list. `none` is a character read behind the end of the format, or an argument that is not there.
-/

namespace Printf

/-- What `va_arg` gives. -/
inductive Arg where
  | str (s : List UInt8)
  | int (n : Int32)
  | uint (n : UInt32)

def percent : UInt8 := 37

/-- `(int)size - 1` -/
def limit (size : ℕ) : ℤ := Int.bmod ((size : ℤ) - 1) (2 ^ 32)

/-- Copies characters to `str[count++]` while there are any and `count < limit`. -/
def putLoop (lim : ℤ) : List UInt8 → List UInt8 → List UInt8
  | out, [] => out
  | out, c :: cs => if (out.length : ℤ) < lim then putLoop lim (out ++ [c]) cs else out

/-- The loop that fills the buffer with digits, the last one first; `k` places are left. -/
def digitLoop (base : ℤ) (digit : ℤ → UInt8) : ℕ → ℤ → List UInt8
  | 0, _ => []
  | k + 1, n =>
    digit (n.tmod base) :: if n.tdiv base > 0 then digitLoop base digit k (n.tdiv base) else []

/-- `'0' + d` -/
def decDigit (d : ℤ) : UInt8 := UInt8.ofInt (48 + d)

def hexDigit (upper : Bool) (d : ℤ) : UInt8 :=
  if d < 10 then UInt8.ofInt (48 + d) else if upper then UInt8.ofInt (65 + d - 10) else UInt8.ofInt (97 + d - 10)

/-- `%d` -/
def putInt (lim : ℤ) (out : List UInt8) (n : Int32) : List UInt8 :=
  if n.toInt < 0 ∧ (out.length : ℤ) < lim then
    putLoop lim (out ++ [45]) (digitLoop 10 decDigit 11 (-n).toInt).reverse
  else putLoop lim out (digitLoop 10 decDigit 11 n.toInt).reverse

/-- What is done for the character behind a percent sign. -/
def putDirective (lim : ℤ) (d : UInt8) (args : List Arg) (out : List UInt8) : Option (List Arg × List UInt8) :=
  if d = 115 then
    match args with
    | .str s :: args => some (args, putLoop lim out s)
    | _ => none
  else if d = 100 ∨ d = 105 then
    match args with
    | .int n :: args => some (args, putInt lim out n)
    | _ => none
  else if d = 120 ∨ d = 88 then
    match args with
    | .uint n :: args => some (args, putLoop lim out (digitLoop 16 (hexDigit (d = 88)) 15 n.toNat).reverse)
    | _ => none
  else if d = 99 then
    match args with
    | .int n :: args => some (args, if (out.length : ℤ) < lim then out ++ [UInt8.ofInt n.toInt] else out)
    | _ => none
  else if d = percent then some (args, if (out.length : ℤ) < lim then out ++ [percent] else out)
  else some (args, out)

/-- The loop of `kapi_vsnprintf`. -/
def vsnprintfLoop (lim : ℤ) : List UInt8 → List Arg → List UInt8 → Option (List UInt8)
  | [], _, out => some out
  | c :: rest, args, out =>
    if ¬(out.length : ℤ) < lim then some out
    else if c = percent then
      match rest with
      -- the terminator is passed over as well
      | [] => none
      | d :: rest => (putDirective lim d args out).bind fun r => vsnprintfLoop lim rest r.1 r.2
    else vsnprintfLoop lim rest args (out ++ [c])

/-- `kapi_vsnprintf`, for a size of at least 1: what is written from the start of the buffer on. -/
def kapiVsnprintf (size : ℕ) (format : List UInt8) (args : List Arg) : Option (List UInt8) :=
  (vsnprintfLoop (limit size) format args []).map fun out => out ++ [0]

/-! ## What is to be written -/

/-- A number in positional notation. -/
def numeral (base : ℕ) (digit : ℤ → UInt8) (n : ℕ) : List UInt8 :=
  if n < base ∨ base < 2 then [digit n] else numeral base digit (n / base) ++ [digit (n % base : ℕ)]
termination_by n
decreasing_by exact Nat.div_lt_self (by omega) (by omega)

def decimal (n : ℤ) : List UInt8 :=
  if n < 0 then 45 :: numeral 10 decDigit n.natAbs else numeral 10 decDigit n.natAbs

/-- What a character or a directive stands for: a text; the least number; or nothing, at the end of the format. -/
inductive Piece where
  | text (t : List UInt8)
  | least
  | lone

def Piece.reference : Piece → List UInt8
  | .text t => t
  | .least => decimal Int32.minValue.toInt
  | .lone => []

/-- What the character behind a percent sign asks for, with the arguments behind its own one. -/
def directive (d : UInt8) (args : List Arg) : Option (Piece × List Arg) :=
  if d = 115 then
    match args with
    | .str s :: args => some (.text s, args)
    | _ => none
  else if d = 100 ∨ d = 105 then
    match args with
    | .int n :: args => some (if n = Int32.minValue then .least else .text (decimal n.toInt), args)
    | _ => none
  else if d = 120 ∨ d = 88 then
    match args with
    | .uint n :: args => some (.text (numeral 16 (hexDigit (d = 88)) n.toNat), args)
    | _ => none
  else if d = 99 then
    match args with
    | .int n :: args => some (.text [UInt8.ofInt n.toInt], args)
    | _ => none
  else if d = percent then some (.text [percent], args)
  else some (.text [], args)

/-- A format with the arguments that it asks for. -/
def pieces : List UInt8 → List Arg → Option (List Piece)
  | [], _ => some []
  | c :: rest, args =>
    if c = percent then
      match rest with
      | [] => some [.lone]
      | d :: rest => (directive d args).bind fun r => (pieces rest r.2).map fun ps => r.1 :: ps
    else (pieces rest args).map fun ps => .text [c] :: ps

/-- The text that the pieces stand for. -/
def rendering (ps : List Piece) : List UInt8 := ps.flatMap Piece.reference

/-- As much of the text is written as there is room for, with a zero behind it. -/
def PrintsRight (size : ℕ) (format : List UInt8) (args : List Arg) (ps : List Piece) : Prop :=
  kapiVsnprintf size format args = some ((rendering ps).take (size - 1) ++ [0])

/-- While there is room, no percent sign ends the format, and of the least number no more than the sign is written. -/
def RoomFor : ℕ → List Piece → Prop
  | _, [] => True
  | room, .text t :: ps => RoomFor (room - t.length) ps
  | room, .least :: _ => room ≤ 1
  | room, .lone :: _ => room = 0

variable {lim : ℤ} {out cs format : List UInt8} {args args' : List Arg} {ps : List Piece} {p : Piece} {size k n : ℕ}

/-! ## Pieces -/

/-- How many more characters are written. -/
def room (lim : ℤ) (out : List UInt8) : ℕ := (lim - out.length).toNat

theorem room_pos : (out.length : ℤ) < lim ↔ 0 < room lim out := by
  unfold room
  omega

theorem room_append : room lim (out ++ cs) = room lim out - cs.length := by
  unfold room
  rw [List.length_append, Nat.cast_add]
  omega

theorem putLoop_eq : putLoop lim out cs = out ++ cs.take (room lim out) := by
  induction cs generalizing out with
  | nil => rw [List.take_nil, List.append_nil]; rfl
  | cons c cs ih =>
    unfold putLoop
    by_cases hroom : (out.length : ℤ) < lim
    · obtain ⟨r, hr⟩ := Nat.exists_eq_succ_of_ne_zero (Nat.ne_of_gt (room_pos.mp hroom))
      have hrest : room lim (out ++ [c]) = r := by
        rw [room_append, hr]
        rfl
      rw [if_pos hroom, ih, hrest, hr, List.take_succ_cons, List.append_assoc, List.singleton_append]
    · have hr : room lim out = 0 := Nat.eq_zero_of_not_pos fun hpos => hroom (room_pos.mpr hpos)
      rw [if_neg hroom, hr, List.take_zero, List.append_nil]

theorem numeral_of_lt {base : ℕ} {digit : ℤ → UInt8} (hn : n < base) : numeral base digit n = [digit n] := by
  rw [numeral, if_pos (.inl hn)]

theorem digitLoop_succ {base : ℕ} {digit : ℤ → UInt8} : digitLoop base digit (k + 1) n =
    digit (n % base : ℕ) :: if 0 < n / base then digitLoop base digit k (n / base : ℕ) else [] := by
  have hdiv : (n : ℤ).tdiv base = (n / base : ℕ) := (Int.ofNat_tdiv n base).symm
  have hmod : (n : ℤ).tmod base = (n % base : ℕ) := (Int.ofNat_tmod n base).symm
  rw [digitLoop, hdiv, hmod]
  simp only [gt_iff_lt, Int.natCast_pos]

/-- The digits of a number that has a place for each. -/
theorem digitLoop_eq {base : ℕ} {digit : ℤ → UInt8} (hbase : 2 ≤ base) (hn : n < base ^ (k + 1)) :
    (digitLoop base digit (k + 1) n).reverse = numeral base digit n := by
  induction k generalizing n with
  | zero =>
    rw [Nat.pow_one] at hn
    rw [digitLoop_succ, numeral_of_lt hn, Nat.mod_eq_of_lt hn, if_neg (by rw [Nat.div_eq_of_lt hn]; decide)]
    rfl
  | succ k ih =>
    rw [digitLoop_succ]
    by_cases hsmall : n < base
    · rw [numeral_of_lt hsmall, Nat.mod_eq_of_lt hsmall, if_neg (by rw [Nat.div_eq_of_lt hsmall]; decide)]
      rfl
    · have hpos : 0 < n / base := Nat.div_pos (Nat.not_lt.mp hsmall) (by omega)
      have hlt : n / base < base ^ (k + 1) := by
        rw [Nat.pow_succ] at hn
        exact Nat.div_lt_of_lt_mul (by rwa [Nat.mul_comm] at hn)
      rw [if_pos hpos, List.reverse_cons, ih hlt, numeral.eq_1 base digit n, if_neg (by omega)]

/-- What is written for a piece. -/
def Piece.printed : Piece → List UInt8
  | .text t => t
  | .least => [45, 40]
  | .lone => []

theorem putInt_eq (hroom : (out.length : ℤ) < lim) (n : Int32) : putInt lim out n = out ++
    ((if n = Int32.minValue then Piece.least else .text (decimal n.toInt)).printed).take (room lim out) := by
  obtain ⟨r, hr⟩ := Nat.exists_eq_succ_of_ne_zero (Nat.ne_of_gt (room_pos.mp hroom))
  have hrest : room lim (out ++ [45]) = r := by
    rw [room_append, hr]
    rfl
  unfold putInt
  by_cases hmin : n = Int32.minValue
  · have hneg : n.toInt < 0 := by
      rw [hmin]
      decide
    have hdigits : (digitLoop 10 decDigit 11 (-n).toInt).reverse = [40] := by
      rw [hmin]
      decide
    rw [if_pos ⟨hneg, hroom⟩, if_pos hmin, hdigits, putLoop_eq, hrest, hr]
    unfold Piece.printed
    rw [List.take_succ_cons, List.append_assoc, List.singleton_append]
  · have hlow := n.le_toInt
    have hhigh := n.toInt_lt
    have hplaces : n.toInt.natAbs < 10 ^ (10 + 1) := by
      rw [show (10 : ℕ) ^ (10 + 1) = 100000000000 from rfl]
      omega
    have hne : n.toInt ≠ -2 ^ 31 := fun heq => hmin (Int32.toInt_inj.mp heq)
    rw [if_neg hmin]
    unfold Piece.printed decimal
    dsimp only
    by_cases hneg : n.toInt < 0
    · have habs : (-n).toInt = (n.toInt.natAbs : ℤ) := by
        rw [Int32.toInt_neg, Int.bmod_eq_of_le (by omega) (by omega)]
        omega
      have hdigits : (digitLoop 10 decDigit 11 (n.toInt.natAbs : ℤ)).reverse = numeral 10 decDigit n.toInt.natAbs :=
        digitLoop_eq (by decide) hplaces
      rw [if_pos ⟨hneg, hroom⟩, if_pos hneg, habs, hdigits, putLoop_eq, hrest, hr, List.take_succ_cons,
        List.append_assoc, List.singleton_append]
    · have habs : n.toInt = (n.toInt.natAbs : ℤ) := by omega
      have hdigits : (digitLoop 10 decDigit 11 (n.toInt.natAbs : ℤ)).reverse = numeral 10 decDigit n.toInt.natAbs :=
        digitLoop_eq (by decide) hplaces
      rw [if_neg fun hand => hneg hand.1, if_neg hneg, putLoop_eq, habs, Int.natAbs_natCast, hdigits]

theorem numeral_hex (n : UInt32) {digit : ℤ → UInt8} :
    (digitLoop 16 digit 15 n.toNat).reverse = numeral 16 digit n.toNat := by
  refine digitLoop_eq (by decide) (n.toNat_lt.trans ?_)
  decide

/-- A directive writes its piece, as far as there is room. -/
theorem putDirective_eq {d : UInt8} (hroom : (out.length : ℤ) < lim) (hd : directive d args = some (p, args')) :
    putDirective lim d args out = some (args', out ++ p.printed.take (room lim out)) := by
  have hone (c : UInt8) : out ++ [c] = out ++ [c].take (room lim out) := by
    obtain ⟨r, hr⟩ := Nat.exists_eq_succ_of_ne_zero (Nat.ne_of_gt (room_pos.mp hroom))
    rw [hr, Nat.succ_eq_add_one, List.take_succ_cons, List.take_nil]
  unfold directive at hd
  unfold putDirective
  split_ifs at hd ⊢ with hs hi hx hc hp
  · cases args with
    | nil => cases hd
    | cons a args => cases a with
      | str s =>
        cases hd
        dsimp only
        rw [putLoop_eq]
        rfl
      | _ => cases hd
  · cases args with
    | nil => cases hd
    | cons a args => cases a with
      | int n =>
        cases hd
        dsimp only
        rw [putInt_eq hroom]
      | _ => cases hd
  · cases args with
    | nil => cases hd
    | cons a args => cases a with
      | uint n =>
        cases hd
        dsimp only
        rw [numeral_hex, putLoop_eq]
        rfl
      | _ => cases hd
  · cases args with
    | nil => cases hd
    | cons a args => cases a with
      | int n =>
        cases hd
        dsimp only
        rw [hone]
        rfl
      | _ => cases hd
  · cases hd
    rw [hone]
    rfl
  · cases hd
    rw [show Piece.printed (.text []) = [] from rfl, List.take_nil, List.append_nil]

/-! ## Runs -/

/-- What is written for pieces where there is room for so many characters. -/
def written : ℕ → List Piece → Option (List UInt8)
  | 0, _ => some []
  | _ + 1, [] => some []
  | _ + 1, .lone :: _ => none
  | r + 1, p :: ps => (written (r + 1 - p.printed.length) ps).map fun t => p.printed.take (r + 1) ++ t

theorem written_zero : written 0 ps = some [] := by
  unfold written
  rfl

theorem written_nil : written n [] = some [] := by
  cases n <;> rfl

theorem directive_ne_lone {d : UInt8} (hd : directive d args = some (p, args')) : p ≠ .lone := by
  intro hp
  rw [hp] at hd
  unfold directive at hd
  split_ifs at hd
  case pos | pos | pos | pos =>
    rcases args with _ | ⟨s | n | n, args⟩
    all_goals first
    | cases hd
    | have hleast := congrArg Prod.fst (Option.some.inj hd)
      dsimp only at hleast
      split_ifs at hleast
  case pos | neg => cases hd

theorem written_cons (hp : p ≠ .lone) (hr : 0 < n) : written n (p :: ps) =
    (written (n - p.printed.length) ps).map fun t => p.printed.take n ++ t := by
  obtain ⟨r, rfl⟩ := Nat.exists_eq_succ_of_ne_zero (Nat.ne_of_gt hr)
  cases p with
  | lone => exact (hp rfl).elim
  | _ => rfl

theorem written_full (hroom : ¬(out.length : ℤ) < lim) :
    some out = (written (room lim out) ps).map fun t => out ++ t := by
  rw [Nat.eq_zero_of_not_pos fun hpos => hroom (room_pos.mpr hpos), written_zero, Option.map_some, List.append_nil]

theorem written_next (hp : p ≠ .lone) (hroom : (out.length : ℤ) < lim)
    (hcs : cs = out ++ p.printed.take (room lim out)) : ((written (room lim cs) ps).map fun t => cs ++ t) =
      (written (room lim out) (p :: ps)).map fun t => out ++ t := by
  have hlength : room lim cs = room lim out - p.printed.length := by
    rw [hcs, room_append, List.length_take]
    omega
  rw [written_cons hp (room_pos.mp hroom), Option.map_map, hlength, hcs]
  simp only [Function.comp_def, List.append_assoc]

/-- One round writes one piece. -/
theorem vsnprintfLoop_eq (hps : pieces format args = some ps) :
    vsnprintfLoop lim format args out = (written (room lim out) ps).map fun t => out ++ t := by
  fun_induction vsnprintfLoop lim format args out generalizing ps with
  | case1 args out =>
    cases hps
    rw [written_nil, Option.map_some, List.append_nil]
  | case2 args out c rest hroom => exact written_full hroom
  | case3 args out hroom =>
    cases hps
    obtain ⟨r, hr⟩ := Nat.exists_eq_succ_of_ne_zero (Nat.ne_of_gt (room_pos.mp (not_not.mp hroom)))
    rw [hr]
    rfl
  | case4 args out hroom d rest ih =>
    unfold pieces at hps
    rw [if_pos rfl] at hps
    obtain ⟨⟨p, args'⟩, hd, hps⟩ := Option.bind_eq_some_iff.mp hps
    obtain ⟨ps', hps', rfl⟩ := Option.map_eq_some_iff.mp hps
    rw [putDirective_eq (not_not.mp hroom) hd, Option.bind_some, ih _ hps']
    exact written_next (directive_ne_lone hd) (not_not.mp hroom) rfl
  | case5 args out c rest hroom hc ih =>
    unfold pieces at hps
    rw [if_neg hc] at hps
    obtain ⟨ps', hps', rfl⟩ := Option.map_eq_some_iff.mp hps
    rw [ih hps']
    refine written_next (fun heq => nomatch heq) (not_not.mp hroom) ?_
    obtain ⟨r, hr⟩ := Nat.exists_eq_succ_of_ne_zero (Nat.ne_of_gt (room_pos.mp (not_not.mp hroom)))
    rw [hr]
    unfold Piece.printed
    rw [Nat.succ_eq_add_one, List.take_succ_cons, List.take_nil]

theorem kapiVsnprintf_eq (hps : pieces format args = some ps) :
    kapiVsnprintf size format args = (written (limit size).toNat ps).map fun t => t ++ [0] := by
  unfold kapiVsnprintf
  rw [vsnprintfLoop_eq hps, Option.map_map]
  unfold room
  simp only [Function.comp_def, List.length_nil, Int.ofNat_zero, Int.sub_zero, List.nil_append]

theorem length_written {w : List UInt8} (hw : written n ps = some w) : w.length ≤ n := by
  fun_induction written n ps generalizing w with
  | case1 => cases hw; exact Nat.le_refl 0
  | case2 => cases hw; exact Nat.zero_le _
  | case3 => cases hw
  | case4 r p ps hp ih =>
    obtain ⟨t, ht, rfl⟩ := Option.map_eq_some_iff.mp hw
    have hrest := ih ht
    rw [List.length_append, List.length_take]
    omega

theorem minimum_decimal : decimal Int32.minValue.toInt = [45, 50, 49, 52, 55, 52, 56, 51, 54, 52, 56] := by
  have habs : Int32.minValue.toInt.natAbs = 2147483648 := by decide
  unfold decimal
  rw [if_pos (by decide), habs]
  simp [numeral, decDigit]
  decide

theorem roomFor_zero : RoomFor 0 ps := by
  induction ps with
  | nil => trivial
  | cons p ps ih => cases p with
    | text t =>
      unfold RoomFor
      rwa [Nat.zero_sub]
    | least => exact Nat.zero_le 1
    | lone => rfl

theorem written_iff : written n ps = some ((rendering ps).take n) ↔ RoomFor n ps := by
  induction ps generalizing n with
  | nil =>
    rw [written_nil]
    exact ⟨fun _ => trivial, fun _ => by rw [rendering, List.flatMap_nil, List.take_nil]⟩
  | cons p ps ih =>
    rcases Nat.eq_zero_or_pos n with rfl | hn
    · rw [written_zero, List.take_zero]
      exact ⟨fun _ => roomFor_zero, fun _ => rfl⟩
    · have hsplit : rendering (p :: ps) = p.reference ++ rendering ps := List.flatMap_cons
      rw [hsplit]
      cases p with
      | text t =>
        rw [written_cons (p := .text t) nofun hn, List.take_append]
        change _ ↔ RoomFor (n - t.length) ps
        rw [← ih]
        change (written (n - t.length) ps).map (fun w => t.take n ++ w) = some (t.take n ++ _) ↔ _
        cases written (n - t.length) ps with
        | none => exact ⟨nofun, nofun⟩
        | some w =>
          rw [Option.map_some, Option.some_inj, Option.some_inj, List.append_cancel_left_eq]
          rfl
      | least =>
        rw [written_cons (p := .least) nofun hn]
        change _ ↔ n ≤ 1
        have href : Piece.least.reference = [45, 50, 49, 52, 55, 52, 56, 51, 54, 52, 56] := minimum_decimal
        rw [href]
        match n, hn with
        | 1, _ =>
          refine ⟨fun _ => Nat.le_refl 1, fun _ => ?_⟩
          change (written 0 ps).map _ = _
          rw [written_zero]
          rfl
        | n + 2, _ =>
          refine ⟨fun heq => ?_, fun h => absurd h (by omega)⟩
          obtain ⟨w, -, hw⟩ := Option.map_eq_some_iff.mp heq
          cases hw
      | lone =>
        obtain ⟨r, rfl⟩ := Nat.exists_eq_succ_of_ne_zero (Nat.ne_of_gt hn)
        exact ⟨nofun, nofun⟩

/-- The right text is written exactly where no percent sign ends the format, the least number is not printed and the
size is not too large for the limit, as far as there is room. -/
theorem printsRight_iff (hps : pieces format args = some ps) (hsize : 0 < size) : PrintsRight size format args ps ↔
    RoomFor (limit size).toNat ps ∧
      ((limit size).toNat = size - 1 ∨ (rendering ps).length ≤ (limit size).toNat) := by
  have hcancel : PrintsRight size format args ps ↔
      written (limit size).toNat ps = some ((rendering ps).take (size - 1)) := by
    unfold PrintsRight
    rw [kapiVsnprintf_eq hps]
    cases written (limit size).toNat ps with
    | none => exact ⟨nofun, nofun⟩
    | some w => rw [Option.map_some, Option.some_inj, Option.some_inj, List.append_cancel_right_eq]
  have hlimit : (limit size).toNat ≤ size - 1 := by
    have hle : limit size ≤ (size : ℤ) - 1 := by
      unfold limit
      rw [Int.bmod_def]
      omega
    omega
  rw [hcancel, ← written_iff]
  constructor
  · intro hw
    rcases Nat.lt_or_ge (limit size).toNat (rendering ps).length with hlong | hshort
    · have hlength := length_written hw
      rw [List.length_take] at hlength
      have heq : (limit size).toNat = size - 1 := by omega
      exact ⟨by rw [hw, heq], .inl heq⟩
    · rw [List.take_of_length_le (hshort.trans hlimit)] at hw
      exact ⟨by rw [hw, List.take_of_length_le hshort], .inr hshort⟩
  · rintro ⟨hw, heq | hshort⟩
    · rw [hw, heq]
    · rw [hw, List.take_of_length_le hshort, List.take_of_length_le (hshort.trans hlimit)]

/-- `"%d%%"` with 7 and room for two characters. -/
theorem percentage_printed :
    PrintsRight 3 [37, 100, 37, 37] [.int 7] [.text (decimal (7 : Int32).toInt), .text [percent]] := by
  have hlimit : (limit 3).toNat = 2 := by decide
  refine (printsRight_iff rfl (by decide)).mpr ⟨?_, .inl hlimit⟩
  rw [hlimit]
  unfold RoomFor RoomFor RoomFor
  trivial

/-- `"%d"` with the least number gives `"-("`. -/
theorem minimum_misprinted : pieces [37, 100] [.int Int32.minValue] = some [.least] ∧
    kapiVsnprintf 16 [37, 100] [.int Int32.minValue] = some [45, 40, 0] ∧
    ¬PrintsRight 16 [37, 100] [.int Int32.minValue] [.least] := by
  have hprinted : kapiVsnprintf 16 [37, 100] [.int Int32.minValue] = some [45, 40, 0] := by decide
  refine ⟨rfl, hprinted, fun hright => ?_⟩
  have href : rendering [.least] = [45, 50, 49, 52, 55, 52, 56, 51, 54, 52, 56] := by
    rw [rendering, List.flatMap_singleton]
    exact minimum_decimal
  unfold PrintsRight at hright
  rw [hprinted, href] at hright
  cases hright

end Printf
