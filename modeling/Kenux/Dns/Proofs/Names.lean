import Kenux.Dns.Model
import Kenux.Lib.Pieces

/-!
# Encoding and decoding names

The rounds of the encoder follow the labels of the hostname, and a round of the decoder takes one label off the wire.
-/

namespace Dns

open Memory Reads

variable {buf : Mem} {bufSize nameSize fuel : ℕ} {d : Decoding} {hostname : Hostname} {labels : List (List UInt8)}

section Rounds

theorem isPointer_iff (len : UInt8) : isPointer len ↔ 192 ≤ len.toNat := by
  have hall : ∀ n < 256, (UInt8.ofNat n &&& 0xc0 = 0xc0 ↔ 192 ≤ n) := by decide +kernel
  have hlen := hall len.toNat len.toNat_lt
  rw [UInt8.ofNat_toNat] at hlen
  exact hlen

theorem loop_past (h : bufSize ≤ d.pos) :
    (decodeLoop buf bufSize nameSize (fuel + 1) d).value = some d.finish := by
  unfold decodeLoop
  rw [if_neg (Nat.not_lt.mpr h)]
  rfl

theorem loop_round (h : d.pos < bufSize) :
    (decodeLoop buf bufSize nameSize (fuel + 1) d).value =
      match (decodeRound buf bufSize nameSize d).value with
      | .again d => (decodeLoop buf bufSize nameSize fuel d).value
      | .last d => some d.finish
      | .error => some .error := by
  conv_lhs => unfold decodeLoop
  rw [if_pos h, value_bind]
  cases (decodeRound buf bufSize nameSize d).value with
  | again d => rfl
  | last d => rfl
  | error => rfl

theorem round_zero (h : buf d.pos = 0) :
    (decodeRound buf bufSize nameSize d).value = .last (d.terminate nameSize) := by
  unfold decodeRound
  rw [value_bind, value_byte, if_pos h]
  rfl

theorem round_pointer (hpointer : isPointer (buf d.pos)) :
    (decodeRound buf bufSize nameSize d).value =
      if d.pos + 1 ≥ bufSize then .error else .again (d.jump (pointerTarget (buf d.pos) (buf (d.pos + 1)))) := by
  have hzero : buf d.pos ≠ 0 := by
    intro hzero
    rw [hzero] at hpointer
    exact absurd hpointer (by decide)
  unfold decodeRound
  rw [value_bind, value_byte, if_neg hzero, if_pos hpointer]
  split_ifs
  · rfl
  · rfl

theorem round_label (hzero : buf d.pos ≠ 0) (hlabel : ¬isPointer (buf d.pos)) :
    (decodeRound buf bufSize nameSize d).value =
      if d.pos + 1 + (buf d.pos).toNat > bufSize ∨ d.namePos + (buf d.pos).toNat + 1 ≥ nameSize then .error
      else .again (d.copy ((List.range (buf d.pos).toNat).map fun i => buf (d.pos + 1 + i))) := by
  unfold decodeRound
  rw [value_bind, value_byte, if_neg hzero, if_neg hlabel]
  by_cases hcut : d.pos + 1 + (buf d.pos).toNat > bufSize
  · rw [if_pos hcut, if_pos (Or.inl hcut)]
    rfl
  · rw [if_neg hcut]
    by_cases hlong : d.namePos + (buf d.pos).toNat + 1 ≥ nameSize
    · rw [if_pos hlong, if_pos (Or.inr hlong)]
      rfl
    · rw [if_neg hlong, if_neg (not_or.mpr ⟨hcut, hlong⟩)]
      rfl

theorem round_within (h : d.pos < bufSize) : Within bufSize (decodeRound buf bufSize nameSize d) := by
  unfold decodeRound
  simp only [within_bind, within_byte, within_ite, within_pure, within_bytes, implies_true, true_and, and_true]
  simp only [value_byte]
  refine ⟨h, fun _ => ⟨fun _ hcut => Nat.not_le.mp hcut, fun _ hcut _ => ?_⟩⟩
  exact Or.inr (Nat.not_lt.mp hcut)

theorem loop_within (d : Decoding) : Within bufSize (decodeLoop buf bufSize nameSize fuel d) := by
  induction fuel generalizing d with
  | zero => exact within_pure _
  | succ fuel ih =>
    unfold decodeLoop
    by_cases h : d.pos < bufSize
    · rw [if_pos h]
      refine within_bind.mpr ⟨round_within h, ?_⟩
      cases (decodeRound buf bufSize nameSize d).value with
      | again d => exact ih d
      | last d => exact within_pure _
      | error => exact within_pure _
    · rw [if_neg h]
      exact within_pure _

end Rounds

section Encoding

/-- What is encoded of labels. -/
def body : List (List UInt8) → List UInt8
  | [] => []
  | label :: labels =>
    if label.length % 2 ^ 8 = 0 then []
    else UInt8.ofNat (label.length % 2 ^ 8) :: label.take (label.length % 2 ^ 8) ++ body labels

theorem body_length (labels : List (List UInt8)) :
    (body labels).length + 1 =
      ((labels.map fun label => label.length % 2 ^ 8).takeWhile (· ≠ 0)).foldr (fun len n => 1 + len + n) 1 := by
  induction labels with
  | nil => rfl
  | cons label labels ih =>
    unfold body
    by_cases hzero : label.length % 2 ^ 8 = 0
    · rw [if_pos hzero, List.map_cons, hzero]
      rfl
    · have hle : label.length % 2 ^ 8 ≤ label.length := Nat.mod_le _ _
      rw [if_neg hzero, List.map_cons, List.takeWhile_cons, if_pos (decide_eq_true hzero), List.foldr_cons, ← ih,
        List.length_append, List.length_cons, List.length_take, Nat.min_eq_left hle]
      omega

theorem take_label (l : List UInt8) (n : ℕ) :
    (l.takeWhile (· ≠ dot)).take ((l.takeWhile (· ≠ dot)).length % n) =
      l.take ((l.takeWhile (· ≠ dot)).length % n) := by
  obtain ⟨rest, hrest⟩ := List.takeWhile_prefix (· ≠ dot) (l := l)
  obtain ⟨first, hfirst⟩ : ∃ first, first = l.takeWhile (· ≠ dot) := ⟨_, rfl⟩
  rw [← hfirst] at hrest ⊢
  rw [← hrest]
  exact (List.take_append_of_le_length (Nat.mod_le _ _)).symm

theorem body_stop {l : List UInt8} (hzero : (l.takeWhile (· ≠ dot)).length % 2 ^ 8 = 0) :
    body (l.splitOn dot) = [] := by
  rw [Pieces.splitOn_eq]
  split_ifs
  · exact if_pos hzero
  · exact if_pos hzero

theorem body_go {l : List UInt8} (hzero : (l.takeWhile (· ≠ dot)).length % 2 ^ 8 ≠ 0) :
    body (l.splitOn dot) = UInt8.ofNat ((l.takeWhile (· ≠ dot)).length % 2 ^ 8) ::
      l.take ((l.takeWhile (· ≠ dot)).length % 2 ^ 8) ++
        if l.dropWhile (· ≠ dot) = [] then [] else body ((l.dropWhile (· ≠ dot)).tail.splitOn dot) := by
  rw [Pieces.splitOn_eq, ← take_label]
  split_ifs
  · exact if_neg hzero
  · exact if_neg hzero

/-- The rounds write the labels, unless these do not fit. -/
theorem encodeFrom_eq (bufSize : UInt16) (label out : List UInt8) (hout : out.length ≤ bufSize.toNat) :
    encodeFrom bufSize label out =
      if bufSize.toNat < out.length + (body (label.splitOn dot)).length then none
      else some (out ++ body (label.splitOn dot)) := by
  induction label, out using encodeFrom.induct bufSize with
  | case1 out =>
    rw [encodeFrom, if_pos rfl, List.splitOn_nil]
    exact (if_neg (Nat.not_lt.mpr hout)).trans (congrArg some (List.append_nil out)) |>.symm
  | case2 label out hne len hzero =>
    rw [encodeFrom, if_neg hne, body_stop hzero, List.append_nil]
    dsimp only
    rw [if_pos hzero]
    exact (if_neg (Nat.not_lt.mpr hout)).symm
  | case3 label out hne len hzero hlong =>
    have hlen : len ≤ label.length := (Nat.mod_le _ _).trans (List.takeWhile_prefix _).length_le
    rw [encodeFrom, if_neg hne, body_go hzero]
    dsimp only
    rw [if_neg hzero, if_pos hlong]
    refine (if_pos ?_).symm
    rw [List.length_append, List.length_cons, List.length_take, Nat.min_eq_left hlen]
    omega
  | case4 label out hne len hzero hfits rest hend =>
    have hlen : len ≤ label.length := (Nat.mod_le _ _).trans (List.takeWhile_prefix _).length_le
    rw [encodeFrom, if_neg hne, body_go hzero, if_pos hend, List.append_nil]
    dsimp only
    rw [if_neg hzero, if_neg hfits, if_pos hend]
    refine (if_neg ?_).symm
    rw [List.length_cons, List.length_take, Nat.min_eq_left hlen]
    omega
  | case5 label out hne len hzero hfits out' rest hmore ih =>
    have hlen : len ≤ label.length := (Nat.mod_le _ _).trans (List.takeWhile_prefix _).length_le
    have hout' : (out ++ UInt8.ofNat len :: label.take len).length ≤ bufSize.toNat := by
      rw [List.length_append, List.length_cons, List.length_take, Nat.min_eq_left hlen]
      omega
    rw [encodeFrom, if_neg hne, body_go hzero, if_neg hmore]
    dsimp only
    rw [if_neg hzero, if_neg hfits, if_neg hmore, ih hout', List.length_append, List.append_assoc,
      List.length_append, Nat.add_assoc]

theorem dnsEncodeName_eq (hostname : Hostname) (bufSize : UInt16) :
    dnsEncodeName hostname bufSize =
      if bufSize.toNat < countedLength hostname then none else some (body (hostname.splitOn dot) ++ [0]) := by
  have hlength := body_length (hostname.splitOn dot)
  unfold dnsEncodeName countedLength
  rw [encodeFrom_eq bufSize hostname [] (Nat.zero_le _), ← hlength, List.length_nil, Nat.zero_add, List.nil_append]
  by_cases hlt : bufSize.toNat < (body (hostname.splitOn dot)).length
  · rw [if_pos hlt, if_pos (Nat.lt_succ_of_lt hlt)]
    rfl
  · rw [if_neg hlt]
    rfl

/-- Good labels are encoded as they are, whatever stands behind them without a label. -/
theorem body_append (hgood : ∀ label ∈ labels, 1 ≤ label.length ∧ label.length ≤ 63) (rest : List (List UInt8)) :
    body (labels ++ rest) = (labels.flatMap fun label => UInt8.ofNat label.length :: label) ++ body rest := by
  induction labels with
  | nil => rfl
  | cons label labels ih =>
    obtain ⟨hpos, hle⟩ := hgood label List.mem_cons_self
    have hmod : label.length % 2 ^ 8 = label.length := Nat.mod_eq_of_lt (by omega)
    rw [List.cons_append]
    conv_lhs => unfold body
    rw [hmod, if_neg (by omega), List.take_length, ih fun l hl => hgood l (List.mem_cons_of_mem label hl),
      List.flatMap_cons, List.append_assoc]

theorem stripDot_cases (hostname : Hostname) :
    hostname = stripDot hostname ∨ hostname = stripDot hostname ++ [dot] := by
  unfold stripDot
  split_ifs with hlast
  · exact Or.inr (List.dropLast_append_getLast? dot hlast).symm
  · exact Or.inl rfl

theorem body_of_good (hgood : GoodLabels (labelsOf hostname)) :
    body (hostname.splitOn dot) ++ [0] = wire (labelsOf hostname) := by
  unfold wire
  refine congrArg (· ++ [0]) ?_
  obtain ⟨hgood, -⟩ := hgood
  unfold labelsOf at hgood ⊢
  split_ifs at hgood ⊢ with hroot
  · have hcases := stripDot_cases hostname
    rw [hroot, List.nil_append] at hcases
    rcases hcases with rfl | rfl
    · rfl
    · rfl
  · have hsplit : hostname.splitOn dot = (stripDot hostname).splitOn dot ++ [] ∨
        hostname.splitOn dot = (stripDot hostname).splitOn dot ++ [[]] := by
      rcases stripDot_cases hostname with hsame | hdot
      · rw [List.append_nil, ← hsame]
        exact Or.inl rfl
      · refine Or.inr ?_
        conv_lhs => rw [hdot, List.splitOn_append_cons_self, List.splitOn_nil]
    rcases hsplit with hsplit | hsplit
    · rw [hsplit, body_append hgood]
      exact List.append_nil _
    · rw [hsplit, body_append hgood]
      exact List.append_nil _

end Encoding

section Decoding

/-- The labels as the decoder writes them. -/
def dotted (labels : List (List UInt8)) : List UInt8 := labels.flatMap (· ++ [dot])

def Holds (m : Mem) (a : ℕ) (l : List UInt8) : Prop := ∀ i (hi : i < l.length), m (a + i) = l[i]

theorem Holds.append {m : Mem} {a : ℕ} {l r : List UInt8} :
    Holds m a (l ++ r) ↔ Holds m a l ∧ Holds m (a + l.length) r := by
  constructor
  · intro h
    refine ⟨fun i hi => ?_, fun i hi => ?_⟩
    · rw [h i (by rw [List.length_append]; omega), List.getElem_append_left hi]
    · rw [Nat.add_assoc, h (l.length + i) (by rw [List.length_append]; omega),
        List.getElem_append_right (Nat.le_add_right _ _)]
      simp only [Nat.add_sub_cancel_left]
  · rintro ⟨hl, hr⟩ i hi
    by_cases hlt : i < l.length
    · rw [List.getElem_append_left hlt, hl i hlt]
    · obtain ⟨k, rfl⟩ := Nat.exists_eq_add_of_le (Nat.not_lt.mp hlt)
      rw [List.getElem_append_right (Nat.le_add_right _ _), ← Nat.add_assoc,
        hr k (by rw [List.length_append] at hi; omega)]
      simp only [Nat.add_sub_cancel_left]

theorem holds_write (m : Mem) (a : ℕ) (l : List UInt8) : Holds (write m a l) a l := fun _ hi => write_get hi

theorem Holds.map_range {m : Mem} {a : ℕ} {l : List UInt8} (h : Holds m a l) :
    (List.range l.length).map (fun i => m (a + i)) = l := by
  refine List.ext_getElem (by rw [List.length_map, List.length_range]) fun i hi hi' => ?_
  rw [List.getElem_map, List.getElem_range, h i hi']

/-- A round takes a label off the wire, if the name has room for it. -/
theorem loop_label {label rest : List UInt8} (hlabel : 1 ≤ label.length ∧ label.length ≤ 63)
    (hbuf : Holds buf d.pos (UInt8.ofNat label.length :: label ++ rest))
    (hsize : d.pos + 1 + label.length ≤ bufSize) :
    (decodeLoop buf bufSize nameSize (fuel + 1) d).value =
      if d.namePos + label.length + 1 ≥ nameSize then some .error
      else (decodeLoop buf bufSize nameSize fuel (d.copy label)).value := by
  have hlen : (UInt8.ofNat label.length).toNat = label.length := by
    rw [UInt8.toNat_ofNat']
    exact Nat.mod_eq_of_lt (by omega)
  have hfirst : buf d.pos = UInt8.ofNat label.length := hbuf 0 (Nat.succ_pos _)
  have hread : Holds buf (d.pos + 1) label := by
    rw [← List.singleton_append, List.append_assoc, Holds.append, Holds.append] at hbuf
    exact hbuf.2.1
  have hzero : buf d.pos ≠ 0 := by
    intro hzero
    rw [hfirst] at hzero
    have hnat := congrArg UInt8.toNat hzero
    rw [hlen, UInt8.toNat_zero] at hnat
    omega
  have hpointer : ¬isPointer (buf d.pos) := by
    rw [isPointer_iff, hfirst, hlen]
    omega
  rw [loop_round (by omega), round_label hzero hpointer, hfirst, hlen, hread.map_range]
  by_cases hlong : d.namePos + label.length + 1 ≥ nameSize
  · rw [if_pos (Or.inr hlong), if_pos hlong]
  · rw [if_neg (not_or.mpr ⟨by omega, hlong⟩), if_neg hlong]

theorem wire_cons (label : List UInt8) (labels : List (List UInt8)) :
    wire (label :: labels) = UInt8.ofNat label.length :: label ++ wire labels := by
  unfold wire
  rw [List.flatMap_cons, List.append_assoc]

theorem dotted_cons (label : List UInt8) (labels : List (List UInt8)) :
    dotted (label :: labels) = label ++ [dot] ++ dotted labels := List.flatMap_cons

theorem Holds.extend {m : Mem} {written l : List UInt8} (h : Holds m 0 written) :
    Holds (write m written.length l) 0 (written ++ l) := by
  refine Holds.append.mpr ⟨fun i hi => ?_, ?_⟩
  · rw [write_other (Or.inl (by omega))]
    exact h i hi
  · rw [Nat.zero_add]
    exact holds_write m _ l

/-- The rounds over a wire that is well formed, when the name fits. -/
theorem decode_labels {pre : ℕ} (hgood : ∀ label ∈ labels, 1 ≤ label.length ∧ label.length ≤ 63)
    {written : List UInt8} {name : Mem} (hname : Holds name 0 written) (hbuf : Holds buf pre (wire labels))
    (hsize : bufSize = pre + (wire labels).length)
    (hroom : labels = [] ∨ written.length + (dotted labels).length < nameSize) :
    ∃ name', Holds name' 0 (written ++ dotted labels) ∧
      (decodeLoop buf bufSize nameSize (labels.length + 1) ⟨pre, written.length, false, 0, name⟩).value =
        some (Decoding.finish (Decoding.terminate
          ⟨bufSize - 1, (written ++ dotted labels).length, false, 0, name'⟩ nameSize)) := by
  induction labels generalizing pre written name with
  | nil =>
    have hzero : buf pre = 0 := hbuf 0 Nat.one_pos
    have hpre : bufSize = pre + 1 := hsize
    refine ⟨name, (List.append_nil written).symm ▸ hname, ?_⟩
    rw [loop_round (by dsimp only; omega), round_zero hzero, hpre, Nat.add_sub_cancel]
    unfold dotted
    rw [List.flatMap_nil, List.append_nil]
  | cons label labels ih =>
    have hlabel := hgood label List.mem_cons_self
    have hlength : (dotted (label :: labels)).length = label.length + 1 + (dotted labels).length := by
      rw [dotted_cons, List.length_append, List.length_append, List.length_singleton]
    have hfits : written.length + (label.length + 1 + (dotted labels).length) < nameSize := by
      rw [← hlength]
      exact hroom.resolve_left (List.cons_ne_nil label labels)
    rw [wire_cons] at hbuf
    rw [wire_cons, List.length_append, List.length_cons] at hsize
    have hrest : Holds buf (pre + 1 + label.length) (wire labels) := by
      have hbuf := (Holds.append.mp hbuf).2
      rwa [List.length_cons, Nat.add_comm label.length 1, ← Nat.add_assoc] at hbuf
    obtain ⟨name', hname', hloop⟩ := ih (fun l hl => hgood l (List.mem_cons_of_mem label hl))
      (hname.extend (l := label ++ [dot])) hrest (by omega) (Or.inr (by
        rw [List.length_append, List.length_append, List.length_singleton]
        omega))
    have hcopy : Decoding.copy ⟨pre, written.length, false, 0, name⟩ label = ⟨pre + 1 + label.length,
        (written ++ (label ++ [dot])).length, false, 0, write name written.length (label ++ [dot])⟩ := by
      rw [List.length_append, List.length_append]
      rfl
    refine ⟨name', by rwa [dotted_cons, ← List.append_assoc], ?_⟩
    rw [List.length_cons, loop_label hlabel hbuf (by dsimp only; omega), if_neg (by dsimp only; omega), dotted_cons,
      ← List.append_assoc, hcopy]
    exact hloop

/-- A name that does not fit is refused, however long the rounds go on. -/
theorem decode_refused {pre : ℕ} (hgood : ∀ label ∈ labels, 1 ≤ label.length ∧ label.length ≤ 63)
    (hpos : d.pos = pre) (hbuf : Holds buf pre (wire labels)) (hsize : bufSize = pre + (wire labels).length)
    (hne : labels ≠ []) (hroom : nameSize ≤ d.namePos + (dotted labels).length) {ret : ℕ} {name' : Mem} :
    (decodeLoop buf bufSize nameSize fuel d).value ≠ some (.name ret name') := by
  induction labels generalizing pre d fuel with
  | nil => exact absurd rfl hne
  | cons label labels ih =>
    have hlabel := hgood label List.mem_cons_self
    have hlength : (dotted (label :: labels)).length = label.length + 1 + (dotted labels).length := by
      rw [dotted_cons, List.length_append, List.length_append, List.length_singleton]
    cases fuel with
    | zero =>
      intro hnone
      cases hnone
    | succ fuel =>
      rw [wire_cons] at hbuf
      rw [wire_cons, List.length_append, List.length_cons] at hsize
      have hrest : Holds buf (pre + 1 + label.length) (wire labels) := by
        have hbuf := (Holds.append.mp hbuf).2
        rwa [List.length_cons, Nat.add_comm label.length 1, ← Nat.add_assoc] at hbuf
      rw [loop_label hlabel (hpos ▸ hbuf) (by omega)]
      split_ifs with hlong
      · intro herror
        cases herror
      · refine ih (fun l hl => hgood l (List.mem_cons_of_mem label hl)) (by unfold Decoding.copy; rw [hpos]) hrest
          (by omega) ?_ ?_
        · rintro rfl
          exact hlong (by rw [hlength] at hroom; exact hroom)
        · unfold Decoding.copy
          dsimp only
          omega

theorem dotted_eq (hne : labels ≠ []) : dotted labels = [dot].intercalate labels ++ [dot] := by
  induction labels with
  | nil => exact absurd rfl hne
  | cons label labels ih =>
    rw [dotted_cons]
    cases labels with
    | nil =>
      rw [List.intercalate_singleton]
      exact List.append_nil _
    | cons label' labels =>
      rw [ih (List.cons_ne_nil _ _), List.intercalate_cons_cons, ← List.append_assoc]

theorem holds_memOf (l : List UInt8) : Holds (memOf l) 0 l := by
  intro i hi
  unfold memOf
  rw [Nat.zero_add, List.getD_eq_getElem?_getD, List.getElem?_eq_getElem hi, Option.getD_some]

theorem decode_wire (hgood : ∀ label ∈ labels, 1 ≤ label.length ∧ label.length ≤ 63)
    (hroom : labels = [] ∨ ([dot].intercalate labels).length + 1 < nameSize) (name₀ : Mem) :
    ∃ fuel name, (dnsDecodeName (memOf (wire labels)) (wire labels).length nameSize fuel 0 name₀).value =
      some (.name (wire labels).length name) ∧ HoldsString name ([dot].intercalate labels) := by
  have hpos : 0 < (wire labels).length := by
    unfold wire
    rw [List.length_append, List.length_singleton]
    exact Nat.succ_pos _
  have hdotted : labels = [] ∨ (dotted labels).length < nameSize := by
    refine hroom.imp_right fun hlt => ?_
    by_cases hne : labels = []
    · rw [hne]
      exact Nat.zero_lt_of_lt hlt
    · rwa [dotted_eq hne, List.length_append, List.length_singleton]
  have hempty : Holds name₀ 0 [] := fun i hi => absurd hi (Nat.not_lt_zero i)
  obtain ⟨name, hname, hloop⟩ := decode_labels hgood hempty (holds_memOf _) (Nat.zero_add _).symm (by
      rw [List.length_nil, Nat.zero_add]
      exact hdotted)
  rw [List.nil_append] at hname hloop
  by_cases hne : labels = []
  · subst hne
    refine ⟨1, Function.update name 0 0, hloop.trans ?_, fun i hi => absurd hi (Nat.not_lt_zero i),
      Function.update_self _ _ _⟩
    unfold Decoding.terminate
    rw [if_neg fun hand => Nat.lt_irrefl 0 hand.1]
    rfl
  · have hlt := hdotted.resolve_left hne
    rw [dotted_eq hne] at hname hloop hlt
    rw [List.length_append, List.length_singleton] at hloop hlt
    refine ⟨labels.length + 1, Function.update name ([dot].intercalate labels).length 0, ?_, fun i hi => ?_,
      Function.update_self _ _ _⟩
    · unfold dnsDecodeName
      refine hloop.trans ?_
      unfold Decoding.terminate
      rw [if_pos ⟨Nat.succ_pos _, hlt⟩]
      unfold Decoding.finish
      dsimp only
      rw [if_neg Bool.false_ne_true, Nat.sub_add_cancel hpos]
      rfl
    · rw [Function.update_of_ne (Nat.ne_of_lt hi)]
      have hi' := (Holds.append.mp hname).1 i hi
      rwa [Nat.zero_add] at hi'

theorem intercalate_labelsOf (hostname : Hostname) : [dot].intercalate (labelsOf hostname) = stripDot hostname := by
  unfold labelsOf
  split_ifs with hroot
  · rw [hroot]
    rfl
  · exact List.intercalate_splitOn dot

theorem labelsOf_eq_nil : labelsOf hostname = [] ↔ stripDot hostname = [] := by
  unfold labelsOf
  split_ifs with hroot
  · exact iff_of_true rfl hroot
  · exact iff_of_false (List.splitOn_ne_nil dot _) hroot

end Decoding

section Results

/-- Encoding keeps its promise exactly if a good hostname that fits leaves room for its zero in the buffer that it is
decoded to, and a hostname with other labels does not fit as the rounds count it. -/
theorem dns_encode_name_iff (hostname : Hostname) (bufSize : UInt16) (nameSize : ℕ) :
    EncodeOk hostname bufSize nameSize ↔
      (GoodLabels (labelsOf hostname) → (wire (labelsOf hostname)).length ≤ bufSize.toNat →
        stripDot hostname = [] ∨ (stripDot hostname).length + 1 < nameSize) ∧
        (¬GoodLabels (labelsOf hostname) → bufSize.toNat < countedLength hostname) := by
  have hencode := dnsEncodeName_eq hostname bufSize
  unfold EncodeOk
  by_cases hgood : GoodLabels (labelsOf hostname)
  · have hcounted : countedLength hostname = (wire (labelsOf hostname)).length := by
      rw [← body_of_good hgood, List.length_append]
      exact (body_length _).symm
    rw [body_of_good hgood, hcounted] at hencode
    have hdecode := @decode_wire nameSize _ hgood.1
    rw [intercalate_labelsOf, labelsOf_eq_nil] at hdecode
    rw [hencode]
    constructor
    · rintro ⟨hall, -⟩
      refine ⟨fun _ hfits => ?_, fun hbad => absurd hgood hbad⟩
      obtain ⟨-, hback⟩ := hall _ (if_neg (Nat.not_lt.mpr hfits))
      obtain ⟨fuel, name, hname, -⟩ := hback fun _ => 0
      by_contra hno
      obtain ⟨hroot, hlong⟩ := not_or.mp hno
      have hne : labelsOf hostname ≠ [] := fun hnil => hroot (labelsOf_eq_nil.mp hnil)
      have hdotted : nameSize ≤ (dotted (labelsOf hostname)).length := by
        rw [dotted_eq hne, intercalate_labelsOf, List.length_append, List.length_singleton]
        exact Nat.not_lt.mp hlong
      refine decode_refused hgood.1 rfl (holds_memOf _) (Nat.zero_add _).symm hne ?_ hname
      rw [Nat.zero_add]
      exact hdotted
    · rintro ⟨hroom, -⟩
      refine ⟨fun out hout => ?_, ?_⟩
      · split_ifs at hout with hlong
        obtain rfl := Option.some.inj hout
        exact ⟨⟨_, hgood, rfl⟩, hdecode (hroom hgood (Nat.not_lt.mp hlong))⟩
      · rintro (hbad | hlong)
        · exact absurd hgood hbad
        · exact if_pos hlong
  · constructor
    · rintro ⟨-, hreject⟩
      refine ⟨fun hyes => absurd hyes hgood, fun _ => ?_⟩
      have hnone := hreject (Or.inl hgood)
      rw [hencode] at hnone
      by_contra hfits
      rw [if_neg hfits] at hnone
      cases hnone
    · rintro ⟨-, hlong⟩
      rw [if_pos (hlong hgood)] at hencode
      refine ⟨fun out hout => ?_, fun _ => hencode⟩
      rw [hencode] at hout
      cases hout

/-- The label between two dots is empty, and the name is encoded as if it ended before them. -/
theorem empty_label_encoded : ¬∀ (hostname : Hostname) (bufSize : UInt16), EncodeOk hostname bufSize 254 := by
  intro hall
  obtain ⟨-, hreject⟩ := hall [97, dot, dot, 98] 64
  have hnone := hreject (Or.inl fun hgood => by
    have hpos := (hgood.1 [] (by decide)).1
    exact absurd hpos (by decide))
  rw [dnsEncodeName_eq] at hnone
  exact absurd hnone (by decide)

end Results

end Dns
