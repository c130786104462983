import Mathlib.Data.UInt

/-!
# The network configuration (`net_config_load` of `arch/x86_64/net.c`)

A pointer into the text is what is left of it from there on, with the terminator. A function stops with `none` where it
would read past the terminator.
-/

namespace Net

/-- The bytes of a string without its terminator. -/
def chars (s : String) : List UInt8 := s.toList.map fun c => UInt8.ofNat c.toNat

def space : UInt8 := 32

def tab : UInt8 := 9

def newline : UInt8 := 10

def blank (c : UInt8) : Bool := c = space || c = tab

/-- What separates the settings. -/
def separator (c : UInt8) : Bool := c = space || c = tab || c = newline

/-- A character that is skipped with what is before it. -/
def token (c : UInt8) : Bool := c ≠ 0 && c ≠ space && c ≠ tab && c ≠ newline

def digit (c : UInt8) : Bool := 48 ≤ c && c ≤ 57

/-- `while (q(*p)) p++` -/
def skipWhile (q : UInt8 → Bool) : List UInt8 → Option (List UInt8)
  | [] => none
  | c :: p => if q c then skipWhile q p else some (c :: p)

/-- `strncmp(p, key, n) == 0`, for a key of `n` characters. -/
def startsWith : List UInt8 → List UInt8 → Option Bool
  | [], _ => some true
  | _ :: _, [] => none
  | k :: key, c :: p => if c = k then startsWith key p else some false

/-- The loop of `parse_ip_addr`; of a count to shift by only the lower five bits are taken. -/
def parseIpLoop : List UInt8 → UInt32 → UInt32 → UInt32 → Option UInt32
  | [], _, _, _ => none
  | c :: str, ip, octet, shift =>
    if c = 0 then some (ip ||| octet <<< shift)
    else if digit c then parseIpLoop str ip (octet * 10 + (c.toUInt32 - 48)) shift
    else if c = 46 then parseIpLoop str (ip ||| octet <<< shift) 0 (shift - 8)
    else some (ip ||| octet <<< shift)

def parseIpAddr (str : List UInt8) : Option UInt32 := parseIpLoop str 0 0 24

/-- The value of a hexadecimal digit. -/
def hexDigit (c : UInt8) : Option UInt32 :=
  if digit c then some (c.toUInt32 - 48)
  else if 97 ≤ c ∧ c ≤ 102 then some (c.toUInt32 - 97 + 10)
  else if 65 ≤ c ∧ c ≤ 70 then some (c.toUInt32 - 65 + 10)
  else none

/-- The inner loop of `parse_mac_addr`, with the number of digits that are still taken. -/
def parseMacByte : ℕ → List UInt8 → UInt32 → Option (UInt32 × List UInt8)
  | _, [], _ => none
  | 0, str, byte => some (byte, str)
  | n + 1, c :: str, byte =>
    if c = 0 then some (byte, c :: str)
    else
      match hexDigit c with
      | some d => parseMacByte n str (byte * 16 + d)
      | none => some (byte, c :: str)

/-- `if (*str == ':' || *str == '-') str++` -/
def skipMark : List UInt8 → Option (List UInt8)
  | [] => none
  | c :: str => if c = 58 ∨ c = 45 then some str else some (c :: str)

/-- The bytes that are left to do of `parse_mac_addr`. -/
def parseMacLoop : ℕ → List UInt8 → Option (List UInt8)
  | 0, _ => some []
  | n + 1, str => do
    let (byte, str) ← parseMacByte 2 str 0
    let str ← skipMark str
    let mac ← parseMacLoop n str
    pure (byte.toUInt8 :: mac)

def parseMacAddr (str : List UInt8) : Option (List UInt8) := parseMacLoop 6 str

structure NetConfig where
  localMac : List UInt8
  localIp : UInt32
  gatewayIp : UInt32
  netmask : UInt32
  netConfigured : Bool

/-- The keys of an address, in the order of the comparisons. -/
inductive Key where
  | ip | gateway | netmask

def Key.text : Key → List UInt8
  | ip => chars "IP="
  | gateway => chars "GATEWAY="
  | netmask => chars "NETMASK="

def macText : List UInt8 := chars "MAC="

def NetConfig.setAddr (s : NetConfig) (x : UInt32) : Key → NetConfig
  | .ip => { s with localIp := x }
  | .gateway => { s with gatewayIp := x }
  | .netmask => { s with netmask := x }

/-- A setting, if one starts here. -/
def loadSetting (s : NetConfig) (p : List UInt8) : Option (NetConfig × List UInt8) := do
  if ← startsWith (chars "IP=") p then
    let p := p.drop 3
    let ip ← parseIpAddr p
    pure ({ s with localIp := ip }, p)
  else if ← startsWith (chars "GATEWAY=") p then
    let p := p.drop 8
    let ip ← parseIpAddr p
    pure ({ s with gatewayIp := ip }, p)
  else if ← startsWith (chars "NETMASK=") p then
    let p := p.drop 8
    let ip ← parseIpAddr p
    pure ({ s with netmask := ip }, p)
  else if ← startsWith (chars "MAC=") p then
    let p := p.drop 4
    let mac ← parseMacAddr p
    pure ({ s with localMac := mac }, p)
  else pure (s, p)

/-- A round of the outer loop. -/
def configRound (s : NetConfig) (p : List UInt8) : Option (NetConfig × List UInt8) := do
  let p ← skipWhile blank p
  let (s, p) ← loadSetting s p
  let p ← skipWhile token p
  pure (s, p)

/-- The outer loop of `net_config_load`, some number of rounds. -/
def configLoop : ℕ → NetConfig → List UInt8 → Option NetConfig
  | _, _, [] => none
  | 0, _, _ => none
  | fuel + 1, s, c :: p =>
    if c = 0 then some { s with netConfigured := true }
    else (configRound s (c :: p)).bind fun r => configLoop fuel r.1 r.2

/-- `net_config_load` ends, without reading past the terminator. -/
def Loads (s : NetConfig) (p : List UInt8) (r : NetConfig) : Prop := ∃ fuel, configLoop fuel s p = some r

/-! ## What a configuration says -/

/-- The number that decimal digits go on to from another. -/
def decimalFrom (a : ℕ) (ds : List UInt8) : ℕ := ds.foldl (fun a d => a * 10 + (d.toNat - 48)) a

/-- An octet in decimal digits. -/
def Octet (ds : List UInt8) (a : ℕ) : Prop := ds ≠ [] ∧ (∀ d ∈ ds, digit d) ∧ decimalFrom 0 ds = a ∧ a ≤ 255

/-- An address in dotted notation. -/
def DottedQuad (v : List UInt8) (x : UInt32) : Prop :=
  ∃ da db dc dd a b c d, Octet da a ∧ Octet db b ∧ Octet dc c ∧ Octet dd d ∧
    v = da ++ 46 :: (db ++ 46 :: (dc ++ 46 :: dd)) ∧ x.toNat = a * 2 ^ 24 + b * 2 ^ 16 + c * 2 ^ 8 + d

/-- Pairs of hexadecimal digits with marks between them. -/
inductive HexPairs : List UInt8 → List UInt8 → Prop where
  | last {h l : UInt8} {x y : UInt32} (hx : hexDigit h = some x) (hy : hexDigit l = some y) :
      HexPairs [h, l] [(x * 16 + y).toUInt8]
  | cons {h l m : UInt8} {x y : UInt32} {v mac : List UInt8} (hx : hexDigit h = some x) (hy : hexDigit l = some y)
      (hm : m = 58 ∨ m = 45) (hv : HexPairs v mac) : HexPairs (h :: l :: m :: v) ((x * 16 + y).toUInt8 :: mac)

/-- A setting `KEY=value`, and what it changes. -/
inductive Setting : List UInt8 → (NetConfig → NetConfig) → Prop where
  | addr {key : Key} {v : List UInt8} {x : UInt32} (h : DottedQuad v x) :
      Setting (key.text ++ v) fun s => s.setAddr x key
  | mac {v mac : List UInt8} (h : HexPairs v mac) (hlen : mac.length = 6) :
      Setting (macText ++ v) fun s => { s with localMac := mac }

/-- Settings with separators before, between and after them; the later ones come later. -/
inductive Settings : List UInt8 → (NetConfig → NetConfig) → Prop where
  | nil {w : List UInt8} (hw : ∀ c ∈ w, separator c) : Settings w id
  | cons {w e rest : List UInt8} {f g : NetConfig → NetConfig} (hw : ∀ c ∈ w, separator c) (he : Setting e f)
      (hrest : ∀ c ∈ rest.head?, separator c) (hg : Settings rest g) : Settings (w ++ (e ++ rest)) (g ∘ f)

/-- Loading ends, and it sets the fields as the settings say if the text is made of settings. -/
def LoadOk (s : NetConfig) (text : List UInt8) : Prop :=
  ∃ r, Loads s (text ++ [0]) r ∧ ∀ f, Settings text f → r = { f s with netConfigured := true }

/-!
## `net_config_load`

Neither of the inner loops passes a newline, so the outer loop never ends once it has got to one. Without newlines every
round gets on by a character at least.
-/

variable {s r : NetConfig} {p q v key rest : List UInt8} {pred : UInt8 → Bool} {ip octet shift : UInt32}

/-! ## Scans -/

theorem skipWhile_text (hzero : pred 0 = false) (q : List UInt8) :
    skipWhile pred (q ++ [0]) = some (q.dropWhile pred ++ [0]) := by
  induction q with
  | nil => simp [skipWhile, hzero]
  | cons c q ih =>
    by_cases hc : pred c
    · simp [skipWhile, hc, ih]
    · simp [skipWhile, hc]

theorem startsWith_text (hkey : 0 ∉ key) (q : List UInt8) :
    startsWith key (q ++ [0]) = some (decide (key <+: q)) := by
  induction key generalizing q with
  | nil => simp [startsWith]
  | cons k key ih =>
    simp only [List.mem_cons, not_or] at hkey
    cases q with
    | nil => simp [startsWith, hkey.1]
    | cons c q =>
      by_cases hc : c = k
      · simp [startsWith, hc, ih hkey.2]
      · simp [startsWith, hc, Ne.symm hc]

theorem exists_parseIpLoop (q : List UInt8) (ip octet shift : UInt32) :
    ∃ x, parseIpLoop (q ++ [0]) ip octet shift = some x := by
  induction q generalizing ip octet shift with
  | nil => exact ⟨_, rfl⟩
  | cons c q ih =>
    simp only [List.cons_append, parseIpLoop]
    split_ifs
    · exact ⟨_, rfl⟩
    · exact ih ..
    · exact ih ..
    · exact ⟨_, rfl⟩

theorem exists_parseMacByte (n : ℕ) (q : List UInt8) (byte : UInt32) :
    ∃ x q', parseMacByte n (q ++ [0]) byte = some (x, q' ++ [0]) := by
  induction n generalizing q byte with
  | zero =>
    cases q with
    | nil => exact ⟨byte, [], rfl⟩
    | cons c q => exact ⟨byte, c :: q, rfl⟩
  | succ n ih =>
    cases q with
    | nil => exact ⟨byte, [], rfl⟩
    | cons c q =>
      simp only [List.cons_append, parseMacByte]
      by_cases hc : c = 0
      · exact ⟨byte, c :: q, by simp [hc]⟩
      · cases hd : hexDigit c with
        | none => exact ⟨byte, c :: q, by simp [hc]⟩
        | some d => simpa [hc] using ih q (byte * 16 + d)

theorem exists_skipMark (q : List UInt8) : ∃ q', skipMark (q ++ [0]) = some (q' ++ [0]) := by
  cases q with
  | nil => exact ⟨[], rfl⟩
  | cons c q =>
    by_cases hc : c = 58 ∨ c = 45
    · exact ⟨q, by simp [skipMark, hc]⟩
    · exact ⟨c :: q, by simp [skipMark, hc]⟩

theorem exists_parseMacLoop (n : ℕ) (q : List UInt8) : ∃ mac, parseMacLoop n (q ++ [0]) = some mac := by
  induction n generalizing q with
  | zero => exact ⟨[], rfl⟩
  | succ n ih =>
    obtain ⟨x, q₁, hbyte⟩ := exists_parseMacByte 2 q 0
    obtain ⟨q₂, hmark⟩ := exists_skipMark q₁
    obtain ⟨mac, hrest⟩ := ih q₂
    exact ⟨x.toUInt8 :: mac, by simp [parseMacLoop, hbyte, hmark, hrest]⟩

/-! ## Rounds -/

theorem drop_key (h : key <+: q) : ∃ q', q = key ++ q' ∧ (q ++ [0]).drop key.length = q' ++ [0] := by
  obtain ⟨q', rfl⟩ := h
  exact ⟨q', rfl, by simp⟩

/-- A setting leaves the text as it is or takes a key away. -/
theorem exists_loadSetting (s : NetConfig) (q : List UInt8) : ∃ s' key q', (∀ c ∈ key, ¬separator c) ∧ q = key ++ q' ∧
    loadSetting s (q ++ [0]) = some (s', q' ++ [0]) := by
  have hkeys : ∀ key ∈ [chars "IP=", chars "GATEWAY=", chars "NETMASK=", chars "MAC="],
      0 ∉ key ∧ ∀ c ∈ key, ¬separator c := by decide +kernel
  simp only [List.mem_cons, List.not_mem_nil, or_false, forall_eq_or_imp, forall_eq] at hkeys
  obtain ⟨⟨hip, hip'⟩, ⟨hgateway, hgateway'⟩, ⟨hnetmask, hnetmask'⟩, hmac, hmac'⟩ := hkeys
  unfold loadSetting
  rw [startsWith_text hip, startsWith_text hgateway, startsWith_text hnetmask, startsWith_text hmac]
  by_cases h₁ : chars "IP=" <+: q
  · obtain ⟨q', hq, hdrop⟩ := drop_key h₁
    obtain ⟨x, hx⟩ := exists_parseIpLoop q' 0 0 24
    change (q ++ [0]).drop 3 = _ at hdrop
    exact ⟨{ s with localIp := x }, _, q', hip', hq, by simp [h₁, hdrop, parseIpAddr, hx]⟩
  by_cases h₂ : chars "GATEWAY=" <+: q
  · obtain ⟨q', hq, hdrop⟩ := drop_key h₂
    obtain ⟨x, hx⟩ := exists_parseIpLoop q' 0 0 24
    change (q ++ [0]).drop 8 = _ at hdrop
    exact ⟨{ s with gatewayIp := x }, _, q', hgateway', hq, by simp [h₁, h₂, hdrop, parseIpAddr, hx]⟩
  by_cases h₃ : chars "NETMASK=" <+: q
  · obtain ⟨q', hq, hdrop⟩ := drop_key h₃
    obtain ⟨x, hx⟩ := exists_parseIpLoop q' 0 0 24
    change (q ++ [0]).drop 8 = _ at hdrop
    exact ⟨{ s with netmask := x }, _, q', hnetmask', hq, by simp [h₁, h₂, h₃, hdrop, parseIpAddr, hx]⟩
  by_cases h₄ : chars "MAC=" <+: q
  · obtain ⟨q', hq, hdrop⟩ := drop_key h₄
    obtain ⟨mac, hmac⟩ := exists_parseMacLoop 6 q'
    change (q ++ [0]).drop 4 = _ at hdrop
    exact ⟨{ s with localMac := mac }, _, q', hmac', hq, by simp [h₁, h₂, h₃, h₄, hdrop, parseMacAddr, hmac]⟩
  · exact ⟨s, [], q, by simp, rfl, by simp [h₁, h₂, h₃, h₄]⟩

/-- What a round takes away: blanks, a key and what is not a separator. -/
theorem exists_configRound (s : NetConfig) (q : List UInt8) : ∃ s' key q', (∀ c ∈ key, ¬separator c) ∧
    q.dropWhile blank = key ++ q' ∧
    configRound s (q ++ [0]) = some (s', q'.dropWhile token ++ [0]) := by
  obtain ⟨s', key, q', hkey, hq, hload⟩ := exists_loadSetting s (q.dropWhile blank)
  refine ⟨s', key, q', hkey, hq, ?_⟩
  unfold configRound
  rw [skipWhile_text (by decide)]
  simp only [Option.bind_eq_bind, Option.bind_some, hload]
  rw [skipWhile_text (by decide)]
  rfl

theorem configLoop_nil (fuel : ℕ) (s : NetConfig) :
    configLoop (fuel + 1) s [0] = some { s with netConfigured := true } := by
  simp [configLoop]

theorem configLoop_round {c : UInt8} (hc : c ≠ 0) (fuel : ℕ) (s : NetConfig) (q : List UInt8) :
    configLoop (fuel + 1) s (c :: q) = (configRound s (c :: q)).bind fun r => configLoop fuel r.1 r.2 := by
  simp [configLoop, hc]

theorem Loads.round {c : UInt8} {s' : NetConfig} {p' : List UInt8} (hc : c ≠ 0)
    (hround : configRound s (c :: q) = some (s', p')) (h : Loads s' p' r) : Loads s (c :: q) r := by
  obtain ⟨fuel, hfuel⟩ := h
  exact ⟨fuel + 1, by simp [configLoop_round hc, hround, hfuel]⟩

/-- A scan that does not take a character does not pass it. -/
theorem mem_dropWhile {c : UInt8} (hc : c ∈ q) (hpred : pred c = false) : c ∈ q.dropWhile pred := by
  induction q with
  | nil => simp at hc
  | cons d q ih =>
    rcases List.mem_cons.mp hc with rfl | hc
    · simp [hpred]
    · by_cases hd : pred d
      · simpa [hd] using ih hc
      · simp [hd, hc]

theorem of_dropWhile {P : UInt8 → Prop} (h : ∀ c ∈ q, P c) : ∀ c ∈ q.dropWhile pred, P c :=
  fun c hc => h c ((List.dropWhile_suffix pred).subset hc)

/-- With a newline ahead the loop goes on for ever. -/
theorem configLoop_newline (hzero : ∀ c ∈ q, c ≠ 0) (hq : newline ∈ q) (fuel : ℕ) (s : NetConfig) :
    configLoop fuel s (q ++ [0]) = none := by
  induction fuel generalizing q s with
  | zero =>
    cases q with
    | nil => simp at hq
    | cons c q => rfl
  | succ fuel ih =>
    obtain ⟨s', key, q', hkey, hsplit, hround⟩ := exists_configRound s q
    have hblank : newline ∈ q.dropWhile blank := mem_dropWhile hq (by decide)
    have hzero' : ∀ c ∈ q.dropWhile blank, c ≠ 0 := of_dropWhile hzero
    rw [hsplit] at hblank hzero'
    have hrest : newline ∈ q' := by
      rcases List.mem_append.mp hblank with hmem | hmem
      · exact absurd (by decide) (hkey _ hmem)
      · exact hmem
    have hleft : newline ∈ q'.dropWhile token := mem_dropWhile hrest (by decide)
    have hnone := ih (of_dropWhile fun c hc => hzero' c (List.mem_append_right key hc)) hleft s'
    cases q with
    | nil => simp at hq
    | cons c q =>
      rw [List.cons_append] at hround ⊢
      rw [configLoop_round (hzero c List.mem_cons_self), hround]
      exact hnone

/-- Without a newline every round takes something away. -/
theorem exists_loads (hzero : ∀ c ∈ q, c ≠ 0) (hq : newline ∉ q) (s : NetConfig) : ∃ r, Loads s (q ++ [0]) r := by
  induction hn : q.length using Nat.strong_induction_on generalizing q s with
  | _ n ih =>
    cases q with
    | nil => exact ⟨_, 1, configLoop_nil 0 s⟩
    | cons c q =>
      obtain ⟨s', key, q', hkey, hsplit, hround⟩ := exists_configRound s (c :: q)
      have hsub : ∀ d ∈ q', d ∈ c :: q := fun d hd =>
        (List.dropWhile_suffix blank).subset (hsplit ▸ List.mem_append_right key hd)
      have hlength := (List.dropWhile_suffix (l := c :: q) blank).length_le
      have hlength' := (List.dropWhile_suffix (l := q') token).length_le
      have hlt : (q'.dropWhile token).length < n := by
        rw [hsplit] at hlength
        simp only [List.length_append, List.length_cons] at hlength hn
        by_cases hblank : blank c
        · have hfirst := (List.dropWhile_suffix (l := q) blank).length_le
          rw [List.dropWhile_cons_of_pos hblank] at hsplit
          rw [hsplit, List.length_append] at hfirst
          omega
        · rw [List.dropWhile_cons_of_neg hblank] at hsplit
          cases key with
          | cons k key =>
            simp only [List.length_cons] at hlength
            omega
          | nil =>
            -- the first character is no separator
            have htoken : token c := by
              have hnew : c ≠ newline := fun h => hq (h ▸ List.mem_cons_self)
              simpa [token, blank, hnew, hzero c List.mem_cons_self] using hblank
            rw [List.nil_append] at hsplit
            rw [← hsplit, List.dropWhile_cons_of_pos htoken]
            have hrest := (List.dropWhile_suffix (l := q) token).length_le
            omega
      obtain ⟨r, hr⟩ := ih _ hlt (of_dropWhile fun d hd => hzero d (hsub d hd))
        (fun hmem => hq (hsub _ ((List.dropWhile_suffix _).subset hmem))) s' rfl
      rw [List.cons_append] at hround ⊢
      exact ⟨r, hr.round (hzero c List.mem_cons_self) hround⟩

/-! ## Values -/

/-- What ends a value: the terminator or a separator. -/
def Ends (p : List UInt8) : Prop := ∃ c p', p = c :: p' ∧ (c = 0 ∨ separator c)

theorem Ends.of_rest (h : ∀ c ∈ rest.head?, separator c) : Ends (rest ++ [0]) := by
  cases rest with
  | nil => exact ⟨0, [], rfl, .inl rfl⟩
  | cons c rest => exact ⟨c, rest ++ [0], rfl, .inr (h c rfl)⟩

theorem token_of_ne {c : UInt8} (h : c ≠ 0 ∧ c ≠ 32 ∧ c ≠ 9 ∧ c ≠ 10) : token c := by
  simp [token, space, tab, newline, h]

theorem token_digit {c : UInt8} (h : digit c) : token c := by
  apply token_of_ne
  refine ⟨?_, ?_, ?_, ?_⟩ <;> rintro rfl <;> simp [digit] at h

theorem token_hexDigit {c : UInt8} {x : UInt32} (h : hexDigit c = some x) : token c := by
  apply token_of_ne
  refine ⟨?_, ?_, ?_, ?_⟩ <;> rintro rfl <;> simp [hexDigit, digit] at h

theorem not_token_of_separator {c : UInt8} (h : separator c) : token c = false := by
  simp only [separator, Bool.or_eq_true, decide_eq_true_eq] at h
  rcases h with (rfl | rfl) | rfl <;> rfl

theorem parseIpLoop_digits {ds : List UInt8} (hds : ∀ d ∈ ds, digit d) (a : ℕ) (p : List UInt8) (ip shift : UInt32) :
    parseIpLoop (ds ++ p) ip (UInt32.ofNat a) shift = parseIpLoop p ip (UInt32.ofNat (decimalFrom a ds)) shift := by
  induction ds generalizing a with
  | nil => rfl
  | cons d ds ih =>
    simp only [List.mem_cons, forall_eq_or_imp] at hds
    have htoken := token_digit hds.1
    have hzero : d ≠ 0 := by rintro rfl; simp [token] at htoken
    have hle : (48 : UInt8).toNat ≤ d.toNat := by
      have hdigit := hds.1
      simp only [digit, Bool.and_eq_true, decide_eq_true_eq] at hdigit
      exact UInt8.le_iff_toNat_le.mp hdigit.1
    have hvalue : UInt32.ofNat a * 10 + (d.toUInt32 - 48) = UInt32.ofNat (a * 10 + (d.toNat - 48)) := by
      have hsub : d.toUInt32 - 48 = UInt32.ofNat (d.toNat - 48) := by
        have hlt := d.toNat_lt
        apply UInt32.toNat_inj.mp
        rw [UInt32.toNat_sub_of_le _ _ (UInt32.le_iff_toNat_le.mpr (by rwa [UInt8.toNat_toUInt32])),
          UInt8.toNat_toUInt32, UInt32.toNat_ofNat_of_lt' (by show _ < 2 ^ 32; omega)]
        rfl
      rw [hsub, UInt32.ofNat_add, UInt32.ofNat_mul]
      rfl
    simp only [List.cons_append, parseIpLoop, hzero, if_false, hds.1, if_true, hvalue]
    exact ih hds.2 _

theorem parseIpLoop_dot (p : List UInt8) (ip octet shift : UInt32) :
    parseIpLoop (46 :: p) ip octet shift = parseIpLoop p (ip ||| octet <<< shift) 0 (shift - 8) := by
  simp [parseIpLoop, digit]

theorem parseIpLoop_end (hp : Ends p) (ip octet shift : UInt32) :
    parseIpLoop p ip octet shift = some (ip ||| octet <<< shift) := by
  obtain ⟨c, p', rfl, rfl | hc⟩ := hp
  · simp [parseIpLoop]
  · have hdigit : digit c = false := by
      by_contra hdigit
      have htoken := token_digit (eq_true_of_ne_false hdigit)
      rw [not_token_of_separator hc] at htoken
      exact absurd htoken Bool.false_ne_true
    have hdot : c ≠ 46 := by rintro rfl; simp [separator, space, tab, newline] at hc
    simp [parseIpLoop, hdigit, hdot]

theorem octets_toNat {a b c d : ℕ} (ha : a ≤ 255) (hb : b ≤ 255) (hc : c ≤ 255) (hd : d ≤ 255) :
    ((0 : UInt32) ||| UInt32.ofNat a <<< 24 ||| UInt32.ofNat b <<< 16 ||| UInt32.ofNat c <<< 8 ||| UInt32.ofNat d <<< 0).toNat =
      a * 2 ^ 24 + b * 2 ^ 16 + c * 2 ^ 8 + d := by
  have hshift : ∀ {x : ℕ} (k : UInt32), x ≤ 255 → k.toNat ≤ 24 →
      (UInt32.ofNat x <<< k).toNat = x * 2 ^ k.toNat := by
    intro x k hx hk
    have hpow : 2 ^ k.toNat ≤ 2 ^ 24 := Nat.pow_le_pow_right (by omega) hk
    have hmul : x * 2 ^ k.toNat ≤ 255 * 2 ^ 24 := Nat.mul_le_mul hx hpow
    rw [UInt32.toNat_shiftLeft, UInt32.toNat_ofNat_of_lt' (by show _ < 2 ^ 32; omega), Nat.mod_eq_of_lt (a := k.toNat) (by omega),
      Nat.shiftLeft_eq, Nat.mod_eq_of_lt (by omega)]
  have hor : ∀ {x y k : ℕ}, y < 2 ^ k → x * 2 ^ k ||| y = x * 2 ^ k + y := by
    intro x y k hy
    rw [← Nat.shiftLeft_eq, Nat.shiftLeft_add_eq_or_of_lt hy]
  have h₁ : a * 2 ^ 24 ||| b * 2 ^ 16 = a * 2 ^ 24 + b * 2 ^ 16 := hor (by omega)
  have h₂ : a * 2 ^ 24 + b * 2 ^ 16 ||| c * 2 ^ 8 = a * 2 ^ 24 + b * 2 ^ 16 + c * 2 ^ 8 := by
    have heq : a * 2 ^ 24 + b * 2 ^ 16 = (a * 2 ^ 8 + b) * 2 ^ 16 := by omega
    rw [heq, hor (by omega)]
  have h₃ : a * 2 ^ 24 + b * 2 ^ 16 + c * 2 ^ 8 ||| d = a * 2 ^ 24 + b * 2 ^ 16 + c * 2 ^ 8 + d := by
    have heq : a * 2 ^ 24 + b * 2 ^ 16 + c * 2 ^ 8 = (a * 2 ^ 16 + b * 2 ^ 8 + c) * 2 ^ 8 := by omega
    rw [heq, hor (by omega)]
  simp only [UInt32.toNat_or, UInt32.toNat_zero, Nat.zero_or]
  rw [hshift 24 ha (by decide), hshift 16 hb (by decide), hshift 8 hc (by decide), hshift 0 hd (by decide)]
  show a * 2 ^ 24 ||| b * 2 ^ 16 ||| c * 2 ^ 8 ||| d * 2 ^ 0 = _
  rw [h₁, h₂, Nat.pow_zero, Nat.mul_one, h₃]

theorem DottedQuad.parse {x : UInt32} (h : DottedQuad v x) (hp : Ends p) : parseIpAddr (v ++ p) = some x := by
  obtain ⟨da, db, dc, dd, a, b, c, d, ⟨-, ha, rfl, hla⟩, ⟨-, hb, rfl, hlb⟩, ⟨-, hc, rfl, hlc⟩, ⟨-, hd, rfl, hld⟩, rfl,
    hx⟩ := h
  have hzero : (0 : UInt32) = UInt32.ofNat 0 := rfl
  have hvalue := octets_toNat hla hlb hlc hld
  rw [← hx, UInt32.toNat_inj] at hvalue
  unfold parseIpAddr
  simp only [List.append_assoc, List.cons_append]
  rw [hzero, parseIpLoop_digits ha, parseIpLoop_dot, hzero, parseIpLoop_digits hb, parseIpLoop_dot, hzero,
    parseIpLoop_digits hc, parseIpLoop_dot, hzero, parseIpLoop_digits hd, parseIpLoop_end hp]
  exact congrArg some hvalue

theorem DottedQuad.token {x : UInt32} (h : DottedQuad v x) : ∀ c ∈ v, token c := by
  obtain ⟨da, db, dc, dd, a, b, c, d, ⟨-, ha, -⟩, ⟨-, hb, -⟩, ⟨-, hc, -⟩, ⟨-, hd, -⟩, rfl, -⟩ := h
  have hdot : Net.token 46 := by decide
  simp only [List.forall_mem_append, List.forall_mem_cons, hdot, true_and]
  exact ⟨fun c hmem => token_digit (ha c hmem), fun c hmem => token_digit (hb c hmem),
    fun c hmem => token_digit (hc c hmem), fun c hmem => token_digit (hd c hmem)⟩

theorem parseMacByte_pair {h l : UInt8} {x y : UInt32} (hx : hexDigit h = some x) (hy : hexDigit l = some y)
    {c : UInt8} : parseMacByte 2 (h :: l :: c :: p) 0 = some (x * 16 + y, c :: p) := by
  have hh : h ≠ 0 := by rintro rfl; simp [hexDigit, digit] at hx
  have hl : l ≠ 0 := by rintro rfl; simp [hexDigit, digit] at hy
  simp [parseMacByte, hh, hl, hx, hy]

theorem HexPairs.parse {mac : List UInt8} (h : HexPairs v mac) (c : UInt8) (p : List UInt8) :
    parseMacLoop mac.length (v ++ c :: p) = some mac := by
  induction h with
  | last hx hy =>
    by_cases hc : c = 58 ∨ c = 45
    · simp [parseMacLoop, parseMacByte_pair hx hy, skipMark, hc]
    · simp [parseMacLoop, parseMacByte_pair hx hy, skipMark, hc]
  | cons hx hy hm hv ih =>
    simp [parseMacLoop, parseMacByte_pair hx hy, skipMark, hm, ih]

theorem HexPairs.token {mac : List UInt8} (h : HexPairs v mac) : ∀ c ∈ v, token c := by
  induction h with
  | last hx hy =>
    simp only [List.forall_mem_cons]
    exact ⟨token_hexDigit hx, token_hexDigit hy, by simp⟩
  | cons hx hy hm hv ih =>
    simp only [List.forall_mem_cons]
    refine ⟨token_hexDigit hx, token_hexDigit hy, ?_, ih⟩
    rcases hm with rfl | rfl <;> decide

/-! ## Settings -/

/-- A setting is loaded up to its value. -/
theorem Setting.load {e : List UInt8} {f : NetConfig → NetConfig} (h : Setting e f) (hp : Ends p) (s : NetConfig) :
    ∃ v, (∀ c ∈ v, token c) ∧ loadSetting s (e ++ p) = some (f s, v ++ p) := by
  cases h with
  | @addr key v x hv =>
    refine ⟨v, hv.token, ?_⟩
    have hparse := hv.parse hp
    cases key with
    | ip => simp [loadSetting, Key.text, chars, startsWith, hparse, NetConfig.setAddr]
    | gateway => simp [loadSetting, Key.text, chars, startsWith, hparse, NetConfig.setAddr]
    | netmask => simp [loadSetting, Key.text, chars, startsWith, hparse, NetConfig.setAddr]
  | @mac v mac hv hlen =>
    refine ⟨v, hv.token, ?_⟩
    obtain ⟨c, p, rfl, -⟩ := hp
    have hparse := hv.parse c p
    rw [hlen] at hparse
    simp [loadSetting, macText, chars, startsWith, parseMacAddr, hparse]

theorem Setting.head {e : List UInt8} {f : NetConfig → NetConfig} (h : Setting e f) :
    ∃ c e', e = c :: e' ∧ c ≠ 0 ∧ blank c = false := by
  cases h with
  | @addr key v x hv => cases key <;> exact ⟨_, _, rfl, by decide, rfl⟩
  | @mac v mac hv hlen => exact ⟨_, _, rfl, by decide, rfl⟩

theorem skipWhile_append {w : List UInt8} (hw : ∀ c ∈ w, pred c) {c : UInt8} (hc : pred c = false) :
    skipWhile pred (w ++ c :: p) = some (c :: p) := by
  induction w with
  | nil => simp [skipWhile, hc]
  | cons d w ih =>
    simp only [List.forall_mem_cons] at hw
    simpa [skipWhile, hw.1] using ih hw.2

theorem blank_of_separator {w : List UInt8} (hw : ∀ c ∈ w, separator c) (hnew : newline ∉ w) : ∀ c ∈ w, blank c := by
  intro c hc
  have hne : c ≠ newline := by rintro rfl; exact hnew hc
  simpa [separator, blank, hne] using hw c hc

theorem Settings.loads {f : NetConfig → NetConfig} (h : Settings p f) (hnew : newline ∉ p) (s : NetConfig) :
    Loads s (p ++ [0]) { f s with netConfigured := true } := by
  induction h generalizing s with
  | @nil w hw =>
    cases w with
    | nil => exact ⟨1, configLoop_nil 0 s⟩
    | cons c w =>
      have hblank := blank_of_separator hw hnew
      have hc : c ≠ 0 := by rintro rfl; simp [separator, space, tab, newline] at hw
      have hskip := skipWhile_append (p := []) hblank (c := 0) (by decide)
      have hload : loadSetting s [0] = some (s, [0]) := rfl
      have hround : configRound s (c :: (w ++ [0])) = some (s, [0]) := by
        unfold configRound
        rw [List.cons_append] at hskip
        simp only [Option.bind_eq_bind, hskip, Option.bind_some, hload]
        rfl
      exact Loads.round hc hround ⟨1, configLoop_nil 0 s⟩
  | @cons w e rest f g hw he hrest hg ih =>
    simp only [List.mem_append, not_or] at hnew
    obtain ⟨v, hv, hload⟩ := he.load (Ends.of_rest hrest) s
    obtain ⟨c, e', rfl, hc, hc'⟩ := he.head
    have hskip := skipWhile_append (p := e' ++ (rest ++ [0])) (blank_of_separator hw hnew.1) hc'
    obtain ⟨d, p', hends, hd⟩ := Ends.of_rest hrest
    have htoken : token d = false := by
      rcases hd with rfl | hd
      · rfl
      · exact not_token_of_separator hd
    have hskip' : skipWhile token (v ++ (rest ++ [0])) = some (rest ++ [0]) := by
      rw [hends]
      exact skipWhile_append hv htoken
    have hround : configRound s (w ++ (c :: e' ++ (rest ++ [0]))) = some (f s, rest ++ [0]) := by
      unfold configRound
      rw [List.cons_append] at hload ⊢
      simp only [Option.bind_eq_bind, hskip, Option.bind_some, hload, hskip']
      rfl
    have hfirst : ∃ d q, w ++ (c :: e' ++ (rest ++ [0])) = d :: q ∧ d ≠ 0 := by
      cases w with
      | nil => exact ⟨c, _, rfl, hc⟩
      | cons d w =>
        refine ⟨d, _, rfl, ?_⟩
        rintro rfl
        simp [separator, space, tab, newline] at hw
    obtain ⟨d, q, hq, hd⟩ := hfirst
    have hloads := ih hnew.2.2 (f s)
    rw [List.append_assoc, List.append_assoc, hq]
    rw [hq] at hround
    exact hloads.round hd hround

/-! ## The whole text -/

theorem configLoop_more {n m : ℕ} (h : configLoop n s p = some r) (hle : n ≤ m) : configLoop m s p = some r := by
  induction n generalizing m s p with
  | zero => cases p <;> simp [configLoop] at h
  | succ n ih =>
    obtain ⟨m, rfl⟩ := Nat.exists_eq_succ_of_ne_zero (show m ≠ 0 by omega)
    cases p with
    | nil => simp [configLoop] at h
    | cons c p =>
      by_cases hc : c = 0
      · simpa [configLoop, hc] using h
      · rw [configLoop_round hc] at h ⊢
        obtain ⟨t, ht, hrest⟩ := Option.bind_eq_some_iff.mp h
        rw [ht, Option.bind_some]
        exact ih hrest (Nat.le_of_succ_le_succ hle)

theorem Loads.unique {r' : NetConfig} (h : Loads s p r) (h' : Loads s p r') : r = r' := by
  obtain ⟨n, hn⟩ := h
  obtain ⟨m, hm⟩ := h'
  have hmore := configLoop_more hn (Nat.le_max_left n m)
  rw [configLoop_more hm (Nat.le_max_right n m)] at hmore
  exact (Option.some.inj hmore).symm

/-- A text is loaded, and as its settings say, if and only if it has no newline. -/
theorem config_ok_iff (s : NetConfig) (text : List UInt8) (hzero : 0 ∉ text) : LoadOk s text ↔ newline ∉ text := by
  have hne : ∀ c ∈ text, c ≠ 0 := fun c hc h => hzero (h ▸ hc)
  constructor
  · rintro ⟨r, ⟨fuel, hfuel⟩, -⟩ hnew
    rw [configLoop_newline hne hnew] at hfuel
    exact nomatch hfuel
  · intro hnew
    obtain ⟨r, hr⟩ := exists_loads hne hnew s
    exact ⟨r, hr, fun f hf => hr.unique (hf.loads hnew s)⟩

/-- The configuration at first. -/
def unconfigured : NetConfig := ⟨[0, 0, 0, 0, 0, 0], 0, 0, 0, false⟩

theorem config_ok_iff_line : LoadOk unconfigured (chars "IP=10.0.0.2 NETMASK=255.255.255.0") ↔
    newline ∉ chars "IP=10.0.0.2 NETMASK=255.255.255.0" :=
  config_ok_iff unconfigured _ (by decide)

/-- Two lines are never loaded. -/
theorem second_line_hangs : ¬LoadOk unconfigured (chars "IP=10.0.0.2\nNETMASK=255.255.255.0") := by
  rintro ⟨r, ⟨fuel, hfuel⟩, -⟩
  rw [configLoop_newline (by decide +kernel) (by decide +kernel)] at hfuel
  exact nomatch hfuel

end Net
