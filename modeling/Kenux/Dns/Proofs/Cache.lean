import Kenux.Dns.Model

/-!
# Runs of the DNS cache

A call makes one entry invalid or writes one entry, so the invariant has a lemma for each of these.
-/

namespace Dns

open Count
open Function (update_self update_of_ne)

variable {c : Cache} {latest : Hostname → Option (UInt32 × ℕ)} {i n : ℕ} {p : CacheEntry → Bool}

section Searches

theorem find_some (h : c.find p = some i) : i < dnsCacheMax ∧ p (c.entries i) = true := by
  unfold Cache.find at h
  exact ⟨List.mem_range.mp (List.mem_of_find?_eq_some h), List.find?_some (p := fun i => p (c.entries i)) h⟩

theorem find_none (h : c.find p = none) {j : ℕ} (hj : j < dnsCacheMax) : p (c.entries j) = false := by
  unfold Cache.find at h
  exact Bool.eq_false_iff.mpr (List.find?_eq_none.mp h j (List.mem_range.mpr hj))

theorem holdsName_iff {hostname : Hostname} {e : CacheEntry} :
    holdsName hostname e = true ↔ e.valid = true ∧ e.hostname = hostname := by
  unfold holdsName
  rw [Bool.and_eq_true, beq_iff_eq]

theorem older_spec (c : Cache) (n : ℕ) :
    (∀ j < n, (c.entries j).valid → (oldestIdx c n).1 ≤ (c.entries j).expireTime) ∧
      (oldestIdx c n = (0xffffffffffffffff, 0) ∨
        ∃ i < n, (c.entries i).valid ∧ oldestIdx c n = ((c.entries i).expireTime, i)) := by
  induction n with
  | zero => exact ⟨fun j hj => absurd hj (Nat.not_lt_zero j), Or.inl rfl⟩
  | succ n ih =>
    obtain ⟨hle, hfrom⟩ := ih
    have hstep : oldestIdx c (n + 1) = older c (oldestIdx c n) n := by
      unfold oldestIdx
      rw [List.range_succ, List.foldl_append]
      rfl
    rw [hstep]
    unfold older
    split_ifs with hyes
    · refine ⟨fun j hj hvalid => ?_, Or.inr ⟨n, Nat.lt_succ_self n, hyes.1, rfl⟩⟩
      rcases Nat.lt_succ_iff_lt_or_eq.mp hj with hlt | rfl
      · exact UInt64.le_trans (UInt64.le_of_lt hyes.2) (hle j hlt hvalid)
      · exact UInt64.le_refl _
    · refine ⟨fun j hj hvalid => ?_, hfrom.imp_right fun ⟨i, hi, hrest⟩ => ⟨i, Nat.lt_succ_of_lt hi, hrest⟩⟩
      rcases Nat.lt_succ_iff_lt_or_eq.mp hj with hlt | rfl
      · exact hle j hlt hvalid
      · exact UInt64.not_lt.mp fun hlt => hyes ⟨hvalid, hlt⟩

theorem effectiveTtl_le (ttl : UInt32) : (effectiveTtl ttl).toNat ≤ 86400 := by
  unfold effectiveTtl dnsCacheTtlMin dnsCacheTtlMax
  dsimp only
  split_ifs with h₁ h₂ h₂
  · decide
  · decide
  · decide
  · exact UInt32.le_iff_toNat_le.mp (UInt32.not_lt.mp h₂)

theorem dnsGetTime_le (jiffies : UInt64) : (dnsGetTime jiffies).toNat ≤ 2 ^ 64 / 1000 := by
  have hlt := jiffies.toNat_lt
  unfold dnsGetTime
  rw [UInt64.toNat_div]
  exact Nat.div_le_div_right hlt.le

/-- No expiry overflows. -/
theorem expiry_toNat (ttl : UInt32) (jiffies : UInt64) :
    (expiry ttl jiffies).toNat = (dnsGetTime jiffies).toNat + (effectiveTtl ttl).toNat := by
  have htime := dnsGetTime_le jiffies
  have httl := effectiveTtl_le ttl
  unfold expiry
  rw [UInt64.toNat_add, UInt32.toNat_toUInt64, Nat.mod_eq_of_lt (by omega)]

theorem expiry_lt (ttl : UInt32) (jiffies : UInt64) : expiry ttl jiffies < 0xffffffffffffffff := by
  have htime := dnsGetTime_le jiffies
  have httl := effectiveTtl_le ttl
  rw [UInt64.lt_iff_toNat_lt, expiry_toNat]
  have hmax : (0xffffffffffffffff : UInt64).toNat = 2 ^ 64 - 1 := rfl
  omega

end Searches

section Invariant

/-- Every valid entry is what the latest add of its name has written, and no other has that name. -/
structure Inv (c : Cache) (latest : Hostname → Option (UInt32 × ℕ)) : Prop where
  unique : ∀ i < dnsCacheMax, ∀ j < dnsCacheMax, (c.entries i).valid → (c.entries j).valid →
    (c.entries i).hostname = (c.entries j).hostname → i = j
  counted : c.count.toNat = count dnsCacheMax fun i => (c.entries i).valid
  added : ∀ i < dnsCacheMax, (c.entries i).valid →
    latest (c.entries i).hostname = some ((c.entries i).ipAddr, (c.entries i).expireTime.toNat)
  expires : ∀ i < dnsCacheMax, (c.entries i).valid → (c.entries i).expireTime < 0xffffffffffffffff

theorem count_pos (hi : i < dnsCacheMax) (hvalid : (c.entries i).valid) :
    0 < count dnsCacheMax fun i => (c.entries i).valid := by
  unfold count
  exact Finset.card_pos.mpr ⟨i, Finset.mem_filter.mpr ⟨Finset.mem_range.mpr hi, hvalid⟩⟩

theorem count_le (p : ℕ → Prop) [DecidablePred p] (n : ℕ) : count n p ≤ n := by
  unfold count
  exact (Finset.card_filter_le _ _).trans (Finset.card_range n).le

/-- The entries that are invalid already may say anything else. -/
theorem Inv.nothing (entries : ℕ → CacheEntry) (latest : Hostname → Option (UInt32 × ℕ)) :
    Inv ⟨fun i => { entries i with valid := false }, 0⟩ latest := by
  refine ⟨fun i _ j _ hno => ?_, ?_, fun i _ hno => ?_, fun i _ hno => ?_⟩
  · cases hno
  · exact (count_zero fun j _ hno => Bool.false_ne_true hno).symm
  · cases hno
  · cases hno

theorem Inv.invalidate (h : Inv c latest) (hi : i < dnsCacheMax) (hvalid : (c.entries i).valid) :
    Inv (c.invalidate i) latest := by
  have hself : ((c.invalidate i).entries i).valid = false := by
    unfold Cache.invalidate Cache.set
    dsimp only
    rw [update_self]
  have hother : ∀ j, ((c.invalidate i).entries j).valid → j ≠ i ∧ (c.invalidate i).entries j = c.entries j := by
    intro j hj
    have hji : j ≠ i := by
      rintro rfl
      rw [hself] at hj
      exact Bool.false_ne_true hj
    exact ⟨hji, update_of_ne hji _ _⟩
  have hvalids : ∀ j, j ≠ i → ((c.entries j).valid ↔ ((c.invalidate i).entries j).valid) := by
    intro j hji
    unfold Cache.invalidate Cache.set
    dsimp only
    rw [update_of_ne hji]
  refine ⟨fun j hj k hk hvj hvk hname => ?_, ?_, fun j hj hvj => ?_, fun j hj hvj => ?_⟩
  · obtain ⟨-, hej⟩ := hother j hvj
    obtain ⟨-, hek⟩ := hother k hvk
    rw [hej] at hvj hname
    rw [hek] at hvk hname
    exact h.unique j hj k hk hvj hvk hname
  · have hless : (count dnsCacheMax fun j => (c.entries j).valid) =
        (count dnsCacheMax fun j => ((c.invalidate i).entries j).valid) + 1 :=
      count_add hi (fun hyes => Bool.false_ne_true (hself.symm.trans hyes)) hvalid hvalids
    have hpos : 1 ≤ c.count := by
      rw [UInt32.le_iff_toNat_le, h.counted]
      exact count_pos hi hvalid
    have hcount : (c.invalidate i).count.toNat = c.count.toNat - 1 := UInt32.toNat_sub_of_le _ _ hpos
    rw [hcount, h.counted, hless]
    rfl
  · obtain ⟨-, heq⟩ := hother j hvj
    rw [heq] at hvj ⊢
    exact h.added j hj hvj
  · obtain ⟨-, heq⟩ := hother j hvj
    rw [heq] at hvj ⊢
    exact h.expires j hj hvj

/-- An entry is written for a name that no other valid entry has. -/
theorem Inv.write (h : Inv c latest) {e : CacheEntry} {count' : UInt32}
    (hname : ∀ j < dnsCacheMax, j ≠ i → (c.entries j).valid → (c.entries j).hostname ≠ e.hostname)
    (hexpires : e.expireTime < 0xffffffffffffffff)
    (hcount : count'.toNat = count dnsCacheMax fun j => (Function.update c.entries i e j).valid) :
    Inv ⟨Function.update c.entries i e, count'⟩
      (Function.update latest e.hostname (some (e.ipAddr, e.expireTime.toNat))) := by
  have hcases : ∀ j, j = i ∧ Function.update c.entries i e j = e ∨
      j ≠ i ∧ Function.update c.entries i e j = c.entries j := by
    intro j
    by_cases hji : j = i
    · rw [hji]
      exact Or.inl ⟨rfl, update_self _ _ _⟩
    · exact Or.inr ⟨hji, update_of_ne hji _ _⟩
  refine ⟨fun j hj k hk => ?_, hcount, fun j hj => ?_, fun j hj => ?_⟩
  · dsimp only
    rcases hcases j with ⟨rfl, hej⟩ | ⟨hji, hej⟩
    · rcases hcases k with ⟨rfl, hek⟩ | ⟨hki, hek⟩
      · intro _ _ _
        rfl
      · rw [hej, hek]
        intro _ hvk heq
        exact absurd heq.symm (hname k hk hki hvk)
    · rcases hcases k with ⟨rfl, hek⟩ | ⟨hki, hek⟩
      · rw [hej, hek]
        intro hvj _ heq
        exact absurd heq (hname j hj hji hvj)
      · rw [hej, hek]
        exact h.unique j hj k hk
  · dsimp only
    rcases hcases j with ⟨-, hej⟩ | ⟨hji, hej⟩
    · rw [hej]
      intro _
      exact update_self _ _ _
    · rw [hej]
      intro hvj
      rw [update_of_ne (hname j hj hji hvj)]
      exact h.added j hj hvj
  · dsimp only
    rcases hcases j with ⟨-, hej⟩ | ⟨-, hej⟩
    · rw [hej]
      intro _
      exact hexpires
    · rw [hej]
      exact h.expires j hj

theorem Inv.lookup (h : Inv c latest) (hostname : Hostname) (jiffies : UInt64) :
    Inv (dnsCacheLookup c hostname jiffies).2 latest := by
  unfold dnsCacheLookup
  cases hfind : c.find (holdsName hostname) with
  | none => exact h
  | some i =>
    obtain ⟨hi, hholds⟩ := find_some hfind
    dsimp only
    split_ifs
    · exact h.invalidate hi (holdsName_iff.mp hholds).1
    · exact h

theorem Inv.add (h : Inv c latest) {hostname : Hostname} (hshort : hostname.length ≤ dnsMaxNameLen)
    (ip ttl : UInt32) (jiffies : UInt64) :
    Inv (dnsCacheAdd c hostname ip ttl jiffies)
      (Function.update latest hostname (some (ip, (expiry ttl jiffies).toNat))) := by
  have hexpires := expiry_lt ttl jiffies
  unfold dnsCacheAdd
  cases hfind : c.find (holdsName hostname) with
  | some i =>
    obtain ⟨hi, hholds⟩ := find_some hfind
    obtain ⟨hvalid, rfl⟩ := holdsName_iff.mp hholds
    refine h.write (e := { c.entries i with ipAddr := ip, ttl := effectiveTtl ttl, expireTime := expiry ttl jiffies })
      (fun j hj hji hvj hname => hji (h.unique j hj i hi hvj hvalid hname)) hexpires ?_
    rw [h.counted]
    refine count_congr fun j _ => ?_
    by_cases hji : j = i
    · rw [hji, update_self]
    · rw [update_of_ne hji]
  | none =>
    have hnew : (newEntry hostname ip ttl jiffies).hostname = hostname := List.take_of_length_le hshort
    have hname : ∀ j < dnsCacheMax, (c.entries j).valid →
        (c.entries j).hostname ≠ (newEntry hostname ip ttl jiffies).hostname := by
      intro j hj hvj heq
      have hno := find_none hfind hj
      rw [holdsName_iff.mpr ⟨hvj, heq.trans hnew⟩] at hno
      exact Bool.false_ne_true hno.symm
    have hwrite : ∀ i count', UInt32.toNat count' =
        (count dnsCacheMax fun j => (Function.update c.entries i (newEntry hostname ip ttl jiffies) j).valid) →
          Inv ⟨Function.update c.entries i (newEntry hostname ip ttl jiffies), count'⟩
            (Function.update latest hostname (some (ip, (expiry ttl jiffies).toNat))) := by
      intro i count' hcount
      have hw := h.write (fun j hj _ hvj => hname j hj hvj) hexpires hcount
      rw [hnew] at hw
      exact hw
    dsimp only
    cases hfree : c.find fun e => !e.valid with
    | some i =>
      obtain ⟨hi, hinvalid⟩ := find_some hfree
      have hvi : ¬(c.entries i).valid := fun hyes => by
        rw [hyes] at hinvalid
        exact Bool.false_ne_true hinvalid
      refine hwrite i _ ?_
      have hmore : (count dnsCacheMax fun j =>
          (Function.update c.entries i (newEntry hostname ip ttl jiffies) j).valid) =
            (count dnsCacheMax fun j => (c.entries j).valid) + 1 := by
        refine count_add hi hvi ?_ fun j hji => ?_
        · rw [update_self]
          rfl
        · rw [update_of_ne hji]
      have hle : (count dnsCacheMax fun j => (c.entries j).valid) ≤ 256 := count_le _ _
      rw [hmore, UInt32.toNat_add, h.counted]
      exact Nat.mod_eq_of_lt (Nat.lt_of_le_of_lt (Nat.succ_le_succ hle) (by decide))
    | none =>
      have hall : ∀ j < dnsCacheMax, (c.entries j).valid := by
        intro j hj
        exact Bool.not_eq_false' .. ▸ find_none hfree hj
      refine hwrite _ _ ?_
      rw [h.counted]
      refine count_congr fun j hj => ?_
      by_cases hji : j = (oldestIdx c dnsCacheMax).2
      · rw [hji, update_self, ← hji]
        exact iff_of_true (hall j hj) rfl
      · rw [update_of_ne hji]

theorem Inv.cleanup (h : Inv c latest) (jiffies : UInt64) : Inv (dnsCacheCleanup c jiffies) latest := by
  have hrounds : ∀ l : List ℕ, (∀ i ∈ l, i < dnsCacheMax) → ∀ c, Inv c latest →
      Inv (l.foldl (cleanupRound jiffies) c) latest := by
    intro l
    induction l with
    | nil => exact fun _ c hc => hc
    | cons i l ih =>
      intro hl c hc
      refine ih (fun j hj => hl j (List.mem_cons_of_mem i hj)) _ ?_
      unfold cleanupRound
      split_ifs with hyes
      · exact hc.invalidate (hl i List.mem_cons_self) hyes.1
      · exact hc
  exact hrounds _ (fun i hi => List.mem_range.mp hi) c h

theorem Inv.step {t t' : Traced} (h : Inv t.cache t.latest) {input : UInt64 × CacheCall} (hshort : ShortName input)
    (hst : step t input = some t') : Inv t'.cache t'.latest := by
  obtain ⟨jiffies, call⟩ := input
  cases call with
  | add hostname ip ttl =>
    obtain rfl := Option.some.inj hst
    have hadd := h.add hshort ip ttl jiffies
    rw [expiry_toNat] at hadd
    exact hadd
  | lookup hostname =>
    obtain rfl := Option.some.inj hst
    exact h.lookup hostname jiffies
  | cleanup =>
    obtain rfl := Option.some.inj hst
    dsimp only
    exact h.cleanup jiffies
  | flush =>
    obtain rfl := Option.some.inj hst
    exact Inv.nothing t.cache.entries t.latest

theorem Inv.answers (h : Inv c latest) {hostname : Hostname} {jiffies : UInt64} {ip : UInt32}
    (hip : (dnsCacheLookup c hostname jiffies).1 = some ip) :
    ∃ expires, latest hostname = some (ip, expires) ∧ (dnsGetTime jiffies).toNat < expires := by
  unfold dnsCacheLookup at hip
  cases hfind : c.find (holdsName hostname) with
  | none =>
    rw [hfind] at hip
    cases hip
  | some i =>
    rw [hfind] at hip
    dsimp only at hip
    split_ifs at hip with hlate
    obtain ⟨hi, hholds⟩ := find_some hfind
    obtain ⟨hvalid, rfl⟩ := holdsName_iff.mp hholds
    obtain rfl := Option.some.inj hip
    exact ⟨_, h.added i hi hvalid, UInt64.lt_iff_toNat_lt.mp (UInt64.not_le.mp hlate)⟩

theorem Inv.evicts (h : Inv c latest) (hall : ∀ i < dnsCacheMax, (c.entries i).valid) {hostname : Hostname}
    (hmissing : ∀ i < dnsCacheMax, (c.entries i).hostname ≠ hostname) (ip ttl : UInt32) (jiffies : UInt64) :
    ∃ i < dnsCacheMax, (∀ j < dnsCacheMax, (c.entries i).expireTime ≤ (c.entries j).expireTime) ∧
      ∀ j ≠ i, (dnsCacheAdd c hostname ip ttl jiffies).entries j = c.entries j := by
  obtain ⟨hle, hnone | ⟨i, hi, -, holdest⟩⟩ := older_spec c dnsCacheMax
  · have hfirst := hle 0 (by decide) (hall 0 (by decide))
    rw [hnone] at hfirst
    exact absurd (h.expires 0 (by decide) (hall 0 (by decide))) (UInt64.not_lt.mpr hfirst)
  · have hmiss : c.find (holdsName hostname) = none := by
      refine List.find?_eq_none.mpr fun j hj hholds => ?_
      exact hmissing j (List.mem_range.mp hj) (holdsName_iff.mp hholds).2
    have hfull : (c.find fun e => !e.valid) = none := by
      refine List.find?_eq_none.mpr fun j hj hinvalid => ?_
      have hvj : (c.entries j).valid = false := Bool.not_eq_true' .. ▸ hinvalid
      exact Bool.false_ne_true (hvj.symm.trans (hall j (List.mem_range.mp hj)))
    rw [holdest] at hle
    refine ⟨i, hi, fun j hj => hle j hj (hall j hj), fun j hji => ?_⟩
    unfold dnsCacheAdd
    rw [hmiss, hfull, holdest]
    exact update_of_ne hji _ _

theorem Inv.cacheOk {t : Traced} (h : Inv t.cache t.latest) : CacheOk t :=
  ⟨h.unique, h.counted, fun _ _ _ hip => h.answers hip,
    fun hall _ ip ttl jiffies hmissing => h.evicts hall hmissing ip ttl jiffies⟩

end Invariant

section Results

/-- As long as no name is added that is longer than the field for it, the cache keeps its promises. -/
theorem dns_cache_ok (entries : ℕ → CacheEntry) {t : Traced}
    (h : Run.Reach step (fun _ input => ShortName input) (startOf entries) t) : CacheOk t := by
  have hinv : Inv t.cache t.latest := h.invariant (I := fun t => Inv t.cache t.latest) (Inv.nothing entries _)
    fun _ _ _ hs hshort hst => hs.step hshort hst
  exact hinv.cacheOk

def noEntries : ℕ → CacheEntry := fun _ => ⟨[], 0, 0, 0, false⟩

/-- A name of one letter is added and looked up. -/
theorem dns_cache_ok_one : ∃ t, Run.run step (startOf noEntries) [(0, .add [97] 1 60), (0, .lookup [97])] = some t ∧
    CacheOk t := by
  have hreach : Run.Reach step (fun _ input => ShortName input) (startOf noEntries) _ :=
    (Run.Reach.start.step (0, .add [97] 1 60) (Nat.le_add_right 1 252) rfl).step (0, .lookup [97]) trivial rfl
  exact ⟨_, rfl, dns_cache_ok noEntries hreach⟩

/-- Of a name of 254 bytes 253 are kept, and a lookup of these finds the address. -/
theorem long_name_answers : ¬∀ t, Run.Reach step (fun _ _ => True) (startOf noEntries) t → CacheOk t := by
  intro hall
  obtain ⟨t, hrun⟩ : ∃ t, Run.run step (startOf noEntries) [(0, .add (List.replicate 254 97) 1 60)] = some t :=
    ⟨_, rfl⟩
  have hfound : (Run.run step (startOf noEntries) [(0, .add (List.replicate 254 97) 1 60)]).map
      (fun t => ((dnsCacheLookup t.cache (List.replicate 253 97) 0).1, t.latest (List.replicate 253 97))) =
        some (some 1, none) := by
    decide +kernel
  rw [hrun] at hfound
  obtain ⟨hip, hlatest⟩ := Prod.mk.inj (Option.some.inj hfound)
  obtain ⟨expires, hsome, -⟩ := (hall t (.of_run .start hrun)).answers _ 0 1 hip
  rw [hlatest] at hsome
  cases hsome

end Results

end Dns
