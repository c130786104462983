import Kenux.Lib.Count
import Kenux.Lib.Memory
import Kenux.Lib.Run

/-!
# The DNS cache (`arch/x86_64/dns.c`)

A hostname is the list of its bytes without the zero at the end.
-/

namespace Dns

def dnsMaxNameLen : ℕ := 253

def dnsCacheMax : ℕ := 256

def dnsCacheTtlMin : UInt32 := 60

def dnsCacheTtlMax : UInt32 := 86400

abbrev Hostname := List UInt8

/-- `dns_cache_entry_t`; nothing reads its link. -/
structure CacheEntry where
  hostname : Hostname
  ipAddr : UInt32
  ttl : UInt32
  expireTime : UInt64
  valid : Bool

/-- `dns_cache_t` -/
structure Cache where
  entries : ℕ → CacheEntry
  count : UInt32

def Cache.set (c : Cache) (i : ℕ) (e : CacheEntry) : Cache := { c with entries := Function.update c.entries i e }

/-- `valid = 0`, and one less is counted. -/
def Cache.invalidate (c : Cache) (i : ℕ) : Cache :=
  { c.set i { c.entries i with valid := false } with count := c.count - 1 }

def Cache.find (c : Cache) (p : CacheEntry → Bool) : Option ℕ := (List.range dnsCacheMax).find? fun i => p (c.entries i)

def holdsName (hostname : Hostname) (e : CacheEntry) : Bool := e.valid && e.hostname == hostname

/-- `dns_get_time` at a value of the tick counter. -/
def dnsGetTime (jiffies : UInt64) : UInt64 := jiffies / 1000

def effectiveTtl (ttl : UInt32) : UInt32 :=
  let ttl := if ttl < dnsCacheTtlMin then dnsCacheTtlMin else ttl
  if ttl > dnsCacheTtlMax then dnsCacheTtlMax else ttl

def expiry (ttl : UInt32) (jiffies : UInt64) : UInt64 := dnsGetTime jiffies + (effectiveTtl ttl).toUInt64

/-- `dns_cache_init`; what the other fields hold stays. -/
def dnsCacheInit (entries : ℕ → CacheEntry) : Cache := ⟨fun i => { entries i with valid := false }, 0⟩

def dnsCacheLookup (c : Cache) (hostname : Hostname) (jiffies : UInt64) : Option UInt32 × Cache :=
  match c.find (holdsName hostname) with
  | none => (none, c)
  | some i =>
    if dnsGetTime jiffies ≥ (c.entries i).expireTime then (none, c.invalidate i)
    else (some (c.entries i).ipAddr, c)

/-- One round of the search for the entry that expires first. -/
def older (c : Cache) (oldest : UInt64 × ℕ) (i : ℕ) : UInt64 × ℕ :=
  if (c.entries i).valid ∧ (c.entries i).expireTime < oldest.1 then ((c.entries i).expireTime, i) else oldest

def oldestIdx (c : Cache) (n : ℕ) : UInt64 × ℕ := (List.range n).foldl (older c) (0xffffffffffffffff, 0)

/-- The entry that is written for a name that is not there; the field holds `DNS_MAX_NAME_LEN` bytes of it. -/
def newEntry (hostname : Hostname) (ip ttl : UInt32) (jiffies : UInt64) : CacheEntry :=
  ⟨hostname.take dnsMaxNameLen, ip, effectiveTtl ttl, expiry ttl jiffies, true⟩

def dnsCacheAdd (c : Cache) (hostname : Hostname) (ip ttl : UInt32) (jiffies : UInt64) : Cache :=
  match c.find (holdsName hostname) with
  | some i =>
    c.set i { c.entries i with ipAddr := ip, ttl := effectiveTtl ttl, expireTime := expiry ttl jiffies }
  | none =>
    match c.find fun e => !e.valid with
    | some i => { c.set i (newEntry hostname ip ttl jiffies) with count := c.count + 1 }
    | none => c.set (oldestIdx c dnsCacheMax).2 (newEntry hostname ip ttl jiffies)

def dnsCacheFlush (c : Cache) : Cache := ⟨fun i => { c.entries i with valid := false }, 0⟩

def cleanupRound (jiffies : UInt64) (c : Cache) (i : ℕ) : Cache :=
  if (c.entries i).valid ∧ dnsGetTime jiffies ≥ (c.entries i).expireTime then c.invalidate i else c

def dnsCacheCleanup (c : Cache) (jiffies : UInt64) : Cache :=
  (List.range dnsCacheMax).foldl (cleanupRound jiffies) c

/-! ## Runs -/

inductive CacheCall where
  | add (hostname : Hostname) (ip ttl : UInt32)
  | lookup (hostname : Hostname)
  | cleanup
  | flush

/-- The cache, and for each name the address of its latest add and the time when that expires. -/
structure Traced where
  cache : Cache
  latest : Hostname → Option (UInt32 × ℕ)

/-- A call at a time; the answers to a lookup are what `CacheOk` is about. -/
def step (t : Traced) (input : UInt64 × CacheCall) : Option Traced :=
  match input.2 with
  | .add hostname ip ttl =>
    let expires := (dnsGetTime input.1).toNat + (effectiveTtl ttl).toNat
    some ⟨dnsCacheAdd t.cache hostname ip ttl input.1, Function.update t.latest hostname (some (ip, expires))⟩
  | .lookup hostname => some { t with cache := (dnsCacheLookup t.cache hostname input.1).2 }
  | .cleanup => some { t with cache := dnsCacheCleanup t.cache input.1 }
  | .flush => some { t with cache := dnsCacheFlush t.cache }

def startOf (entries : ℕ → CacheEntry) : Traced := ⟨dnsCacheInit entries, fun _ => none⟩

/-- What the cache promises. -/
structure CacheOk (t : Traced) : Prop where
  unique : ∀ i < dnsCacheMax, ∀ j < dnsCacheMax, (t.cache.entries i).valid → (t.cache.entries j).valid →
    (t.cache.entries i).hostname = (t.cache.entries j).hostname → i = j
  counted : t.cache.count.toNat = Count.count dnsCacheMax fun i => (t.cache.entries i).valid
  answers : ∀ hostname jiffies ip, (dnsCacheLookup t.cache hostname jiffies).1 = some ip →
    ∃ expires, t.latest hostname = some (ip, expires) ∧ (dnsGetTime jiffies).toNat < expires
  evicts : (∀ i < dnsCacheMax, (t.cache.entries i).valid) → ∀ hostname ip ttl jiffies,
    (∀ i < dnsCacheMax, (t.cache.entries i).hostname ≠ hostname) →
      ∃ i < dnsCacheMax, (∀ j < dnsCacheMax, (t.cache.entries i).expireTime ≤ (t.cache.entries j).expireTime) ∧
        ∀ j ≠ i, (dnsCacheAdd t.cache hostname ip ttl jiffies).entries j = t.cache.entries j

/-- No name that is added is longer than the field that keeps it. -/
def ShortName : UInt64 × CacheCall → Prop
  | (_, .add hostname _ _) => hostname.length ≤ dnsMaxNameLen
  | _ => True

/-!
## DNS names (`arch/x86_64/dns.c`)

Decoding follows pointers for as long as there are any, so it has fuel, one unit for each round; `none` is a call that
does not return within it. Sizes are below 2^16, and positions do not get past them.
-/

open Memory Reads

def dot : UInt8 := 46

/-- The rounds of `dns_encode_name` from `label` on; `out` is what they have written so far. -/
def encodeFrom (bufSize : UInt16) (label out : List UInt8) : Option (List UInt8) :=
  if label = [] then some out
  else
    let len := (label.takeWhile (· ≠ dot)).length % 2 ^ 8
    if len = 0 then some out
    else if out.length + 1 + len > bufSize.toNat then none
    else
      let out := out ++ UInt8.ofNat len :: label.take len
      let rest := label.dropWhile (· ≠ dot)
      if rest = [] then some out
      else encodeFrom bufSize rest.tail out
termination_by label.length
decreasing_by
  have hle := (List.dropWhile_suffix (· ≠ dot) (l := label)).length_le
  have hpos := List.length_pos_iff.mpr ‹¬label.dropWhile (· ≠ dot) = []›
  rw [List.length_tail]
  omega

/-- `dns_encode_name`; `none` stands for -1. -/
def dnsEncodeName (hostname : Hostname) (bufSize : UInt16) : Option (List UInt8) := do
  let out ← encodeFrom bufSize hostname []
  if out.length + 1 > bufSize.toNat then none
  else pure (out ++ [0])

/-- The variables of `dns_decode_name`. -/
structure Decoding where
  pos : ℕ
  namePos : ℕ
  jumped : Bool
  savedOffset : ℕ
  name : Mem

inductive Round where
  | again (d : Decoding)
  | last (d : Decoding)
  | error

/-- What a call leaves: the position behind the name and the buffer with the name, or -1. -/
inductive Decoded where
  | name (ret : ℕ) (name : Mem)
  | error

def Decoding.terminate (d : Decoding) (nameSize : ℕ) : Decoding :=
  if d.namePos > 0 ∧ d.namePos < nameSize then { d with name := Function.update d.name (d.namePos - 1) 0 }
  else { d with name := Function.update d.name 0 0 }

def Decoding.jump (d : Decoding) (target : ℕ) : Decoding :=
  { d with pos := target, jumped := true, savedOffset := if d.jumped then d.savedOffset else d.pos + 2 }

def Decoding.copy (d : Decoding) (label : List UInt8) : Decoding :=
  { d with
    pos := d.pos + 1 + label.length
    namePos := d.namePos + label.length + 1
    name := write d.name d.namePos (label ++ [dot]) }

def Decoding.finish (d : Decoding) : Decoded := .name (if d.jumped then d.savedOffset else d.pos + 1) d.name

def isPointer (len : UInt8) : Prop := len &&& 0xc0 = 0xc0

instance (len : UInt8) : Decidable (isPointer len) := inferInstanceAs (Decidable (len &&& 0xc0 = 0xc0))

def pointerTarget (len low : UInt8) : ℕ := ((len &&& 0x3f).toUInt16 <<< 8 ||| low.toUInt16).toNat

variable (buf : Mem) (bufSize nameSize : ℕ)

def decodeRound (d : Decoding) : Reading Round := do
  let len ← byte buf d.pos
  if len = 0 then pure (.last (d.terminate nameSize))
  else if isPointer len then
    if d.pos + 1 ≥ bufSize then pure .error
    else do
      let low ← byte buf (d.pos + 1)
      pure (.again (d.jump (pointerTarget len low)))
  else if d.pos + 1 + len.toNat > bufSize then pure .error
  else if d.namePos + len.toNat + 1 ≥ nameSize then pure .error
  else do
    let label ← bytes buf (d.pos + 1) len.toNat
    pure (.again (d.copy label))

def decodeLoop : ℕ → Decoding → Reading (Option Decoded)
  | 0, _ => pure none
  | fuel + 1, d =>
    if d.pos < bufSize then do
      match ← decodeRound buf bufSize nameSize d with
      | .again d => decodeLoop fuel d
      | .last d => pure (some d.finish)
      | .error => pure (some .error)
    else pure (some d.finish)

/-- `dns_decode_name`; `name` is what the buffer for the name holds before. -/
def dnsDecodeName (fuel offset : ℕ) (name : Mem) : Reading (Option Decoded) :=
  decodeLoop buf bufSize nameSize fuel ⟨offset, 0, false, 0, name⟩

/-! ## What the encoding promises -/

/-- A hostname without one dot at its end. -/
def stripDot (hostname : Hostname) : Hostname :=
  if hostname.getLast? = some dot then hostname.dropLast else hostname

/-- The labels of a hostname; the name of the root has none. -/
def labelsOf (hostname : Hostname) : List (List UInt8) :=
  if stripDot hostname = [] then [] else (stripDot hostname).splitOn dot

/-- The labels on the wire. -/
def wire (labels : List (List UInt8)) : List UInt8 :=
  (labels.flatMap fun label => UInt8.ofNat label.length :: label) ++ [0]

def GoodLabels (labels : List (List UInt8)) : Prop :=
  (∀ label ∈ labels, 1 ≤ label.length ∧ label.length ≤ 63) ∧ (wire labels).length ≤ 255

/-- A buffer holds a string. -/
def HoldsString (name : Mem) (s : List UInt8) : Prop := (∀ i (hi : i < s.length), name i = s[i]) ∧ name s.length = 0

def memOf (l : List UInt8) : Mem := fun i => l.getD i 0

/-- What is encoded are good labels, and decoding gives the name back, with whatever its buffer held before; a
hostname with other labels is not encoded, nor one that does not fit. -/
def EncodeOk (hostname : Hostname) (bufSize : UInt16) (nameSize : ℕ) : Prop :=
  (∀ out, dnsEncodeName hostname bufSize = some out →
    (∃ labels, GoodLabels labels ∧ out = wire labels) ∧
      ∀ name₀, ∃ fuel name, (dnsDecodeName (memOf out) out.length nameSize fuel 0 name₀).value =
        some (.name out.length name) ∧ HoldsString name (stripDot hostname)) ∧
    (¬GoodLabels (labelsOf hostname) ∨ bufSize.toNat < (wire (labelsOf hostname)).length →
      dnsEncodeName hostname bufSize = none)

/-- What the rounds take for the encoding: the labels up to the first one that has a multiple of 256 as its length,
with their lengths modulo 256. -/
def countedLength (hostname : Hostname) : ℕ :=
  (((hostname.splitOn dot).map fun label => label.length % 2 ^ 8).takeWhile (· ≠ 0)).foldr (fun len n => 1 + len + n) 1

end Dns

/-!
## Responses (`dns_parse_response` of `arch/x86_64/dns.c`)
-/

namespace Dns

open Memory Reads

def dnsHeaderSize : ℕ := 12

def dnsTypeA : ℕ := 1

def dnsTypeCname : ℕ := 5

/-- -1, or an address with its time to live. -/
inductive Outcome where
  | fail
  | answer (ip ttl : ℕ)

/-- Where names were decoded, and what came out; `none` is a call of `dns_decode_name` that did not return. -/
structure Parsed where
  calls : List ℕ
  outcome : Option Outcome

variable (fuel : ℕ) (buf : Mem) (len : ℕ) (name : Mem)

def fail : Reading Parsed := pure ⟨[], some .fail⟩

def nameSize : ℕ := dnsMaxNameLen + 1

/-- A name is decoded, and `k` goes on behind it. -/
def decodeAt (pos : ℕ) (onError : Reading Parsed) (k : ℕ → Reading Parsed) : Reading Parsed := do
  match ← dnsDecodeName buf len nameSize fuel pos name with
  | none => pure ⟨[pos], none⟩
  | some .error => do
    let r ← onError
    pure { r with calls := pos :: r.calls }
  | some (.name ret _) => do
    let r ← k (ret % 2 ^ 16)
    pure { r with calls := pos :: r.calls }

/-- The loop over the questions. -/
def questions (k : ℕ → Reading Parsed) : ℕ → ℕ → Reading Parsed
  | 0, pos => k pos
  | i + 1, pos =>
    if pos < len then
      decodeAt fuel buf len name pos fail fun pos => if pos + 4 > len then fail else questions k i (pos + 4)
    else k pos

/-- The loop over the answers. -/
def answers : ℕ → ℕ → Reading Parsed
  | 0, _ => fail
  | i + 1, pos =>
    if pos < len then
      decodeAt fuel buf len name pos fail fun pos =>
        if pos + 10 > len then fail
        else do
          let rrType ← number buf pos 2
          let _rrClass ← number buf (pos + 2) 2
          let rrTtl ← number buf (pos + 4) 4
          let rdlen ← number buf (pos + 8) 2
          if rrType = dnsTypeA ∧ rdlen = 4 ∧ pos + 10 + 4 ≤ len then do
            let ip ← number buf (pos + 10) 4
            pure ⟨[], some (.answer ip rrTtl)⟩
          else if rrType = dnsTypeCname ∧ 0 < rdlen ∧ pos + 10 + rdlen ≤ len then
            decodeAt fuel buf len name (pos + 10) (answers i ((pos + 10 + rdlen) % 2 ^ 16)) fun _ =>
              answers i ((pos + 10 + rdlen) % 2 ^ 16)
          else answers i ((pos + 10 + rdlen) % 2 ^ 16)
    else fail

/-- `dns_parse_response`; `name` is what the buffers for names hold before. -/
def dnsParseResponse (fuel : ℕ) (buf : Mem) (len : UInt16) (name : Mem) : Reading Parsed :=
  if len.toNat < dnsHeaderSize then fail
  else do
    let flags ← number buf 2 2
    if flags % 16 ≠ 0 then fail
    else do
      let qdcount ← number buf 4 2
      let ancount ← number buf 6 2
      questions fuel buf len.toNat name (answers fuel buf len.toNat name ancount) qdcount dnsHeaderSize

/-! ## What parsing promises -/

/-- A call returns, and leaves a string with its zero unless it is -1, with whatever its buffer held before. -/
def CallOk (buf : Mem) (len offset : ℕ) : Prop :=
  ∀ name, ∃ fuel r, (dnsDecodeName buf len nameSize fuel offset name).value = some r ∧
    ∀ ret name', r = .name ret name' → ∃ i < nameSize, name' i = 0

/-- Parsing ends and reads inside the response, and every name that is decoded becomes a string. -/
def ParseOk (buf : Mem) (len : UInt16) : Prop :=
  ∀ name, (∃ fuel, (dnsParseResponse fuel buf len name).value.outcome.isSome) ∧
    ∀ fuel, Within len.toNat (dnsParseResponse fuel buf len name) ∧
      ∀ offset ∈ (dnsParseResponse fuel buf len name).value.calls, CallOk buf len.toNat offset

/-! ## Walks -/

/-- A pointer leads from one position to another. -/
def Points (buf : Mem) (len p q : ℕ) : Prop :=
  p + 1 < len ∧ isPointer (buf p) ∧ q = pointerTarget (buf p) (buf (p + 1))

/-- The walk along a name goes from a position, with so much of the name written and a zero byte in it or not, along
pointers and over labels for which there is room. -/
inductive Walk (buf : Mem) (len : ℕ) : ℕ × ℕ × Prop → ℕ × ℕ × Prop → Prop where
  | pointer {p q n : ℕ} {z : Prop} (h : Points buf len p q) : Walk buf len (p, n, z) (q, n, z)
  | label {p n : ℕ} {z : Prop} (h₀ : buf p ≠ 0) (h : ¬isPointer (buf p)) (hend : p + 1 + (buf p).toNat ≤ len)
      (hroom : n + (buf p).toNat + 1 < nameSize) :
      Walk buf len (p, n, z) (p + 1 + (buf p).toNat, n + (buf p).toNat + 1,
        z ∨ ∃ i < (buf p).toNat, buf (p + 1 + i) = 0)

/-- The walk from a position never gets behind the end, unless a zero byte was in a label, and never comes to pointers
that lead back to where they are. -/
def WalkOk (buf : Mem) (len offset : ℕ) : Prop :=
  ∀ p n z, Relation.ReflTransGen (Walk buf len) (offset, 0, False) (p, n, z) →
    (p < len ∨ z) ∧ ¬Relation.TransGen (Points buf len) p p

end Dns
