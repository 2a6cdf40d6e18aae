import Rosebud.DmaStages

/-! # The header copy of `axis_dma`

The first bytes of a packet, up to the next multiple of the header size, are written a
second time: the write of each memory word that holds some of them goes to the header
address too.  `hdr_en_r` is latched with the packet and falls after the write of the last
such word, so that it says in every stage whether bytes of the packet before the end of the
region are still to come (`HdrMatches`).
-/
namespace Rosebud.DmaWrite
open Clocked Lanes AxiStream ByteStore

variable {P : Config}

/-! ## Addresses of the copy -/

section Address
variable {A W h k m : Nat}

theorem mod_add_lt {a i : Nat} (hmh : m ≤ h) (ha : 2 ^ m ∣ a) (hi : i < 2 ^ m) :
    a % 2 ^ h + i < 2 ^ h := by
  obtain ⟨d, rfl⟩ := Nat.exists_eq_add_of_le hmh
  obtain ⟨q, rfl⟩ := ha
  rw [Nat.pow_add, Nat.mul_mod_mul_left]
  have hlt : q % 2 ^ d + 1 ≤ 2 ^ d := Nat.mod_lt _ (Nat.two_pow_pos d)
  have hmul := Nat.mul_le_mul_left (2 ^ m) hlt
  rw [Nat.mul_add, Nat.mul_one] at hmul
  omega

/-- Inside a memory word the copy of an address moves along with it. -/
theorem copied_add (msb : BitVec k) {a : BitVec A} (hmh : m ≤ h) (hA : h ≤ A)
    (ha : 2 ^ m ∣ a.toNat) {i : Nat} (hi : i < 2 ^ m) :
    msb ++ a.extractLsb' 0 h + BitVec.ofNat _ i =
      msb ++ (a + BitVec.ofNat A i).extractLsb' 0 h := by
  have hlow := mod_add_lt hmh ha hi
  have hdvd : 2 ^ h ∣ 2 ^ A := Nat.pow_dvd_pow 2 hA
  have hmsb : (msb.toNat + 1) * 2 ^ h ≤ 2 ^ (k + h) := by
    rw [Nat.pow_add]
    exact Nat.mul_le_mul_right _ msb.isLt
  apply BitVec.eq_of_toNat_eq
  have hsum : (a.toNat + i) % 2 ^ h = a.toNat % 2 ^ h + i := by
    rw [Nat.add_mod, Nat.mod_eq_of_lt (Nat.lt_of_le_of_lt (Nat.le_add_left i _) hlow),
      Nat.mod_eq_of_lt hlow]
  have hright : (msb ++ (a + BitVec.ofNat A i).extractLsb' 0 h).toNat =
      msb.toNat * 2 ^ h + (a.toNat % 2 ^ h + i) := by
    rw [Lanes.toNat_append, BitVec.extractLsb'_toNat, Nat.shiftRight_zero, BitVec.toNat_add,
      BitVec.toNat_ofNat, Nat.add_mod_mod, Nat.mod_mod_of_dvd _ hdvd, hsum]
  have hleft : (msb ++ a.extractLsb' 0 h).toNat = msb.toNat * 2 ^ h + a.toNat % 2 ^ h := by
    rw [Lanes.toNat_append, BitVec.extractLsb'_toNat, Nat.shiftRight_zero]
  rw [hright, BitVec.toNat_add, hleft, BitVec.toNat_ofNat, Nat.add_mod_mod,
    Nat.mod_eq_of_lt (by omega), Nat.add_assoc]

/-- A write to the copy of a word's address stores the bytes at the copies of theirs. -/
theorem keptAt_copied {n : Nat} (msb : BitVec k) {a : BitVec A} (data : BitVec n)
    (strb : BitVec W) (hW : W = 2 ^ m) (hmh : m ≤ h) (hA : h ≤ A) (ha : 2 ^ m ∣ a.toNat) :
    keptAt (msb ++ a.extractLsb' 0 h) data strb =
      (keptAt a data strb).map fun x => (msb ++ x.1.extractLsb' 0 h, x.2) := by
  rw [keptAt, keptAt, List.map_map]
  refine List.map_congr_left fun i hi => ?_
  have hlt : i < 2 ^ m := by
    rw [← hW]
    exact List.mem_range.mp (List.mem_filter.mp hi).1
  change (_, _) = (_, _)
  rw [copied_add msb hmh hA ha hlt]

/-- The bits of a word's address inside the region are all ones if the region ends with the
word. -/
theorem extract_eq_allOnes {a : BitVec A} (hmh : m ≤ h) (ha : 2 ^ m ∣ a.toNat) :
    a.extractLsb' m (h - m) = BitVec.allOnes (h - m) ↔ 2 ^ h ∣ a.toNat + 2 ^ m := by
  obtain ⟨d, rfl⟩ := Nat.exists_eq_add_of_le hmh
  obtain ⟨q, hq⟩ := ha
  have hpos := Nat.two_pow_pos m
  have hd := Nat.two_pow_pos d
  rw [Nat.add_sub_cancel_left, hq, Nat.pow_add, ← Nat.mul_succ,
    Nat.mul_dvd_mul_iff_left hpos, ← BitVec.toNat_inj, BitVec.extractLsb'_toNat,
    Nat.shiftRight_eq_div_pow, hq, Nat.mul_div_cancel_left _ hpos, BitVec.toNat_allOnes,
    Nat.dvd_iff_mod_eq_zero]
  have hdiv := Nat.div_add_mod q (2 ^ d)
  constructor
  · intro hlast
    have hsucc : q.succ = 2 ^ d * (q / 2 ^ d + 1) := by
      rw [Nat.mul_add, Nat.mul_one]
      omega
    rw [hsucc, Nat.mul_mod_right]
  · intro hzero
    have hmod := Nat.add_mod q 1 (2 ^ d)
    rw [Nat.succ_eq_add_one] at hzero
    by_contra hne
    have hsmall : q % 2 ^ d + 1 < 2 ^ d := by omega
    have hone : 1 % 2 ^ d = 1 := Nat.mod_eq_of_lt (by omega)
    rw [hone, Nat.mod_eq_of_lt hsmall] at hmod
    omega

/-- The first multiple of `2 ^ h` above `n`. -/
def regionEnd (h n : Nat) : Nat := (n / 2 ^ h + 1) * 2 ^ h

theorem lt_regionEnd (h n : Nat) : n < regionEnd h n := by
  have hdiv := Nat.div_add_mod' n (2 ^ h)
  rw [regionEnd, Nat.add_mul, Nat.one_mul]
  omega

theorem dvd_regionEnd (h n : Nat) : 2 ^ h ∣ regionEnd h n := Nat.dvd_mul_left _ _

theorem regionEnd_le {n e : Nat} (hlt : n < e) (hdvd : 2 ^ h ∣ e) : regionEnd h n ≤ e := by
  obtain ⟨q, rfl⟩ := hdvd
  rw [Nat.mul_comm] at hlt ⊢
  exact Nat.mul_le_mul_right _ ((Nat.div_lt_iff_lt_mul (Nat.two_pow_pos h)).mpr hlt)

/-- A memory word that begins inside the region ends inside it. -/
theorem word_le_regionEnd {n a : Nat} (hmh : m ≤ h) (ha : 2 ^ m ∣ a) (hlt : a < regionEnd h n) :
    a + 2 ^ m ≤ regionEnd h n := by
  obtain ⟨e, he⟩ := Nat.dvd_trans (Nat.pow_dvd_pow 2 hmh) (dvd_regionEnd h n)
  obtain ⟨q, rfl⟩ := ha
  rw [he] at hlt ⊢
  exact Nat.mul_le_mul_left _ (Nat.lt_of_mul_lt_mul_left hlt)

end Address

/-! ## What is to be copied -/

/-- Where the header region of a packet ends. -/
def hdrEnd (p : Pkt P) : Nat := regionEnd P.hdrAddrBits p.side.wrBaseAddr.toNat

/-- The copy of a byte of a packet. -/
def copyOf (p : Pkt P) (x : BitVec P.addrWidth × BitVec 8) :
    BitVec (P.hdrMsbWidth + P.hdrAddrBits) × BitVec 8 :=
  (p.side.hdrWrAddrMsb ++ x.1.extractLsb' 0 P.hdrAddrBits, x.2)

/-- The copies of those of `bytes` that lie in the header region, if `done` bytes of the
packet come before them. -/
def copies (p : Pkt P) (done : Nat) (bytes : List (BitVec 8)) :
    List (BitVec (P.hdrMsbWidth + P.hdrAddrBits) × BitVec 8) :=
  if p.side.hdrEn then
    (place (p.side.wrBaseAddr + BitVec.ofNat _ done)
      (bytes.take (hdrEnd p - (p.side.wrBaseAddr.toNat + done)))).map (copyOf p)
  else []

/-- The copies of the bytes of a packet. -/
def headerCopy (p : Pkt P) : List (BitVec (P.hdrMsbWidth + P.hdrAddrBits) × BitVec 8) :=
  copies p 0 p.bytes

/-- The byte after the first `done` ones is copied. -/
def Copied (p : Pkt P) (done : Nat) : Prop :=
  p.side.hdrEn = true ∧ p.side.wrBaseAddr.toNat + done < hdrEnd p
deriving Decidable

@[simp] theorem copies_nil (p : Pkt P) (done : Nat) : copies p done [] = [] := by
  simp [copies, place]

/-- The bytes of one memory word are copied together. -/
theorem copies_append (p : Pkt P) {done : Nat} {chunk : List (BitVec 8)}
    (rest : List (BitVec 8))
    (hfit : Copied p done → p.side.wrBaseAddr.toNat + done + chunk.length ≤ hdrEnd p) :
    copies p done (chunk ++ rest) =
      (if Copied p done then
        (place (p.side.wrBaseAddr + BitVec.ofNat _ done) chunk).map (copyOf p) else []) ++
        copies p (done + chunk.length) rest := by
  unfold copies
  by_cases hen : p.side.hdrEn = true
  · rw [if_pos hen, if_pos hen]
    by_cases hc : Copied p done
    · have hle := hfit hc
      rw [if_pos hc, List.take_append, List.take_of_length_le (by omega), place_append,
        List.map_append, BitVec.ofNat_add, BitVec.add_assoc, ← Nat.add_assoc,
        Nat.sub_sub _ _ chunk.length]
    · have hge : hdrEnd p ≤ p.side.wrBaseAddr.toNat + done :=
        Nat.le_of_not_lt fun hlt => hc ⟨hen, hlt⟩
      rw [if_neg hc, Nat.sub_eq_zero_of_le hge, Nat.sub_eq_zero_of_le (by omega)]
      simp [place]
  · rw [if_neg hen, if_neg hen, if_neg fun hc => hen hc.1]
    rfl

/-! ## The enable in each stage -/

/-- The place in the packet: where its bytes go, and that a memory word ends with the
write here. -/
structure Placed (x : Pos P) : Prop where
  start : x.start = x.pkt.side.wrBaseAddr + BitVec.ofNat _ x.written
  aligned : 2 ^ P.maskBits ∣ x.pkt.side.wrBaseAddr.toNat + (x.written + x.share)

/-- The header registers while the bytes of `p` after the first `done` ones are to be
written. -/
structure Copying (r : Regs P) (p : Pkt P) (done : Nat) : Prop where
  hdrMsbR : r.hdrMsbR = p.side.hdrWrAddrMsb
  hdrEnR : r.hdrEnR = decide (Copied p done)

def HdrMatches (r : Regs P) : Stage P → Prop
  | .idle => True
  | .hold x => Placed x ∧ Copying r x.pkt x.written
  | .gap x => Placed x ∧ Copying r x.pkt x.written
  | .extra x => Placed x ∧ Copying r x.pkt (x.written + x.share)

/-- What a write with `mem_hdr_wr_en` stores in the header memory. -/
def headerStore (r : Regs P) : List (BitVec (P.hdrMsbWidth + P.hdrAddrBits) × BitVec 8) :=
  if memHdrWrEn r then keptAt (memHdrWrAddr r) (memWrData r) (memWrStrb r) else []

theorem placed_begin (p : Pkt P) : Placed (Pos.begin p) := by
  refine ⟨(BitVec.add_zero _).symm, ?_⟩
  have hmod := Nat.mod_lt p.side.wrBaseAddr.toNat P.strbWidth_pos
  have hdiv := Nat.div_add_mod p.side.wrBaseAddr.toNat P.strbWidth
  refine ⟨p.side.wrBaseAddr.toNat / P.strbWidth + 1, ?_⟩
  change p.side.wrBaseAddr.toNat + (0 + (0 + room p)) = P.strbWidth * _
  rw [Nat.mul_add, Nat.mul_one]
  unfold room
  omega

section Stages
variable {r : Regs P} {i : Inputs P} {x : Pos P}

theorem room_pos (p : Pkt P) : 0 < room p := by
  have := Nat.mod_lt p.side.wrBaseAddr.toNat P.strbWidth_pos
  unfold room
  omega

theorem hold_share_le (h : Matches r (.hold x)) : x.share ≤ 2 ^ P.maskBits := by
  have hroom : room x.pkt ≤ 2 ^ P.maskBits := room_le x.pkt
  obtain ⟨-, hf | hb, -⟩ := h
  · simpa [Pos.share, hf.carry] using hroom
  · rw [Pos.share, hb.carry, length_lanes]
    change 2 ^ P.maskBits - _ + _ ≤ _
    omega

theorem Placed.advance (hp : Placed x) {w : Word P} {ws : List (Word P)}
    (hx : x.left = w :: ws) : Placed (x.advance w ws hx) := by
  refine ⟨?_, ?_⟩
  · change x.start + BitVec.ofNat _ x.share =
      x.pkt.side.wrBaseAddr + BitVec.ofNat _ (x.written + x.share)
    rw [hp.start, BitVec.add_assoc, BitVec.ofNat_add]
  · have hshare : (x.advance w ws hx).share = 2 ^ P.maskBits := by
      have hroom := room_le x.pkt
      simp only [Pos.share, Pos.advance, length_lanes]
      exact Nat.sub_add_cancel hroom
    rw [hshare]
    rw [← Nat.add_assoc]
    exact Nat.dvd_add hp.aligned (Nat.dvd_refl _)

/-- The address of a write, up to multiples of a power of two. -/
theorem toNat_add_ofNat_mod {A k : Nat} (hk : k ≤ A) (a : BitVec A) (n : Nat) :
    (a + BitVec.ofNat A n).toNat % 2 ^ k = (a.toNat + n) % 2 ^ k := by
  rw [BitVec.toNat_add, BitVec.toNat_ofNat, Nat.add_mod_mod,
    Nat.mod_mod_of_dvd _ (Nat.pow_dvd_pow 2 hk)]

theorem hold_wrAddr_mod (h : Matches r (.hold x)) (hp : Placed x) {k : Nat}
    (hk : k ≤ P.addrWidth) :
    ((wrAddr r).toNat + 2 ^ P.maskBits) % 2 ^ k =
      (x.pkt.side.wrBaseAddr.toNat + (x.written + x.share)) % 2 ^ k := by
  have haddr := congrArg (fun a => a.toNat % 2 ^ k) (hold_wrAddr h)
  simp only [hp.start, BitVec.add_assoc, ← BitVec.ofNat_add, toNat_add_ofNat_mod hk] at haddr
  exact haddr

theorem hold_aligned (h : Matches r (.hold x)) (hp : Placed x) :
    2 ^ P.maskBits ∣ (wrAddr r).toNat := by
  have hmod := hold_wrAddr_mod h hp P.maskBits_le
  rw [Nat.add_mod_right, Nat.mod_eq_zero_of_dvd hp.aligned] at hmod
  exact Nat.dvd_of_mod_eq_zero hmod

theorem extra_wrAddr_mod (h : Matches r (.extra x)) (hp : Placed x) {k : Nat}
    (hk : k ≤ P.addrWidth) :
    (wrAddr r).toNat % 2 ^ k =
      (x.pkt.side.wrBaseAddr.toNat + (x.written + x.share)) % 2 ^ k := by
  obtain ⟨-, ho⟩ := h
  rw [wrAddr, ho.wrFirstPkt, if_neg Bool.false_ne_true, ho.nextWrAddr, hp.start,
    BitVec.add_assoc, ← BitVec.ofNat_add, toNat_add_ofNat_mod hk]

theorem extra_aligned (h : Matches r (.extra x)) (hp : Placed x) :
    2 ^ P.maskBits ∣ (wrAddr r).toNat := by
  have hmod := extra_wrAddr_mod h hp P.maskBits_le
  rw [Nat.mod_eq_zero_of_dvd hp.aligned] at hmod
  exact Nat.dvd_of_mod_eq_zero hmod

/-- The bytes of the write here lie in the region if the first of them does. -/
theorem hold_fits (h : Matches r (.hold x)) (hp : Placed x) (hm : P.maskBits ≤ P.hdrAddrBits)
    (hc : Copied x.pkt x.written) :
    x.pkt.side.wrBaseAddr.toNat + (x.written + x.share) ≤ hdrEnd x.pkt := by
  have hle := hold_share_le h
  obtain ⟨q, hq⟩ := hp.aligned
  have hpos : 0 < x.share := Nat.lt_of_lt_of_le (room_pos x.pkt) (Nat.le_add_left _ _)
  obtain ⟨n, rfl⟩ : ∃ n, q = n + 1 := by
    cases q with
    | zero => omega
    | succ n => exact ⟨n, rfl⟩
  rw [Nat.mul_add, Nat.mul_one] at hq
  have hword := word_le_regionEnd (h := P.hdrAddrBits) (n := x.pkt.side.wrBaseAddr.toNat) hm
    (Nat.dvd_mul_right (2 ^ P.maskBits) n) (Nat.lt_of_le_of_lt (by omega) hc.2)
  rw [← hq] at hword
  exact hword

/-- The enable falls with the write that reaches the end of the region. -/
theorem hold_nextHdrEn (h : Matches r (.hold x)) (hh : HdrMatches r (.hold x))
    (hm : P.maskBits ≤ P.hdrAddrBits) (hA : P.hdrAddrBits ≤ P.addrWidth)
    (hlatch : latchInfo r i = false) (hw : writes r i = true) :
    Copying (next r i) x.pkt (x.written + x.share) := by
  obtain ⟨hp, hcop⟩ := hh
  refine ⟨by simp [next, hlatch, hcop.hdrMsbR], ?_⟩
  have hlast := extract_eq_allOnes hm (hold_aligned h hp)
  have hdvd : 2 ^ P.hdrAddrBits ∣ (wrAddr r).toNat + 2 ^ P.maskBits ↔
      2 ^ P.hdrAddrBits ∣ x.pkt.side.wrBaseAddr.toNat + (x.written + x.share) := by
    rw [Nat.dvd_iff_mod_eq_zero, Nat.dvd_iff_mod_eq_zero, hold_wrAddr_mod h hp hA]
  have hpos : 0 < x.share := Nat.lt_of_lt_of_le (room_pos x.pkt) (Nat.le_add_left _ _)
  change nextHdrEn r i = _
  simp only [nextHdrEn, hlatch, Bool.false_eq_true, if_false, hw, Bool.true_and,
    decide_eq_true_eq, hlast, hdvd, hcop.hdrEnR]
  by_cases hc : Copied x.pkt x.written
  · have hfit := hold_fits h hp hm hc
    by_cases hend : 2 ^ P.hdrAddrBits ∣ x.pkt.side.wrBaseAddr.toNat + (x.written + x.share)
    · have hge : hdrEnd x.pkt ≤ _ := regionEnd_le (by omega) hend
      rw [if_pos hend, eq_comm, decide_eq_false_iff_not]
      exact fun hno => absurd hno.2 (Nat.not_lt.mpr hge)
    · rw [if_neg hend, decide_eq_decide]
      refine ⟨fun _ => ⟨hc.1, Nat.lt_of_le_of_ne hfit fun heq => hend ?_⟩, fun _ => hc⟩
      rw [heq]
      exact dvd_regionEnd _ _
  · have hno : ¬ Copied x.pkt (x.written + x.share) := by
      rintro ⟨hen, hlt⟩
      exact hc ⟨hen, by omega⟩
    rw [decide_eq_false hc, decide_eq_false hno, ite_self]

/-- A word of a packet that is not its first leaves the header registers alone, unless
something is written. -/
theorem Copying.keep {p : Pkt P} {done : Nat} (h : Copying r p done)
    (hlatch : latchInfo r i = false) (hw : writes r i = false) : Copying (next r i) p done := by
  refine ⟨by simp [next, hlatch, h.hdrMsbR], ?_⟩
  change nextHdrEn r i = _
  simp [nextHdrEn, hlatch, hw, h.hdrEnR]

theorem copying_begin {p : Pkt P} (hlatch : latchInfo r i = true) (hside : i.sAxis.side = p.side) :
    Copying (next r i) p 0 := by
  refine ⟨by simp [next, hlatch, hside], ?_⟩
  change nextHdrEn r i = _
  have hlt : p.side.wrBaseAddr.toNat < hdrEnd p := lt_regionEnd _ _
  simp [nextHdrEn, hlatch, hside, Copied, hlt]

theorem headerStore_eq {p : Pkt P} {done : Nat} (h : Copying r p done)
    (hm : P.maskBits ≤ P.hdrAddrBits) (hA : P.hdrAddrBits ≤ P.addrWidth)
    (hen : r.wrDataEn = true) (ha : 2 ^ P.maskBits ∣ (wrAddr r).toNat) :
    headerStore r = if Copied p done then
      (keptAt (wrAddr r) (memWrData r) (memWrStrb r)).map (copyOf p) else [] := by
  have hkept := keptAt_copied p.side.hdrWrAddrMsb (memWrData r) (memWrStrb r) rfl hm hA ha
  rw [headerStore, memHdrWrEn, h.hdrEnR, hen, Bool.and_true, memHdrWrAddr, h.hdrMsbR, hkept]
  by_cases hc : Copied p done
  · rw [if_pos hc, decide_eq_true hc, if_pos rfl]
    rfl
  · rw [if_neg hc, decide_eq_false hc, if_neg Bool.false_ne_true]

end Stages

/-! ## The copies that are due -/

/-- The copies of the packet under way that have not been made. -/
def Stage.copies : Stage P → List (BitVec (P.hdrMsbWidth + P.hdrAddrBits) × BitVec 8)
  | .idle => []
  | .hold x => DmaWrite.copies x.pkt x.written (x.carry ++ x.words.bytes)
  | .gap x => DmaWrite.copies x.pkt x.written (x.carry ++ x.words.bytes)
  | .extra x => DmaWrite.copies x.pkt (x.written + x.share)
      (lanes x.pkt.final (room x.pkt) (x.pkt.count - room x.pkt))

def Progress.copies (a : Progress P) : List (BitVec (P.hdrMsbWidth + P.hdrAddrBits) × BitVec 8) :=
  a.stage.copies ++ a.todo.flatMap headerCopy

/-- The copies that are due. -/
def copyDues (P : Config) : Dues P (BitVec (P.hdrMsbWidth + P.hdrAddrBits) × BitVec 8) where
  packet := headerCopy
  stage := Stage.copies
  idle := rfl
  begins := fun _ => rfl
  gap := fun _ => rfl

section Due
variable {r : Regs P} {x : Pos P} (hm : P.maskBits ≤ P.hdrAddrBits)
  (hA : P.hdrAddrBits ≤ P.addrWidth)
include hm hA

section Hold
variable (h : Matches r (.hold x)) (hh : HdrMatches r (.hold x))
include h hh

/-- The header write of the word here, and what is due after it. -/
theorem hold_headerStore {chunk : List (BitVec 8)} (later : List (BitVec 8))
    (hchunk : chunk = x.carry ++ lanes x.words.head 0 (min x.words.headCount (room x.pkt))) :
    copies x.pkt x.written (chunk ++ later) =
      headerStore r ++ copies x.pkt (x.written + chunk.length) later := by
  obtain ⟨hp, hcop⟩ := hh
  have hkept := hold_keptAt h
  rw [← hchunk] at hkept
  rw [headerStore_eq hcop hm hA h.2.2.wrDataEn (hold_aligned h hp), hkept, hp.start]
  refine copies_append _ _ fun hc => ?_
  have hfit := hold_fits h hp hm hc
  have hlen : chunk.length ≤ x.share := by
    rw [hchunk, List.length_append, length_lanes, Pos.share]
    omega
  omega

/-- A word that more words of its packet follow. -/
theorem hold_copies_cons {w : Word P} {ws : List (Word P)} (hx : x.left = w :: ws) :
    (Stage.hold x).copies = headerStore r ++ (Stage.hold (x.advance w ws hx)).copies := by
  have hhead := Pos.head_cons hx
  have hcount := Pos.headCount_cons hx
  have hwords : x.words.bytes = lanes w 0 P.strbWidth ++ (x.advance w ws hx).words.bytes :=
    Packet.bytes_cons (p := x.words) hx
  have hstore := hold_headerStore hm hA h hh
    (lanes w (room x.pkt) (P.strbWidth - room x.pkt) ++ (x.advance w ws hx).words.bytes) rfl
  rw [hhead, hcount, Nat.min_eq_right (room_le x.pkt), List.length_append, length_lanes] at hstore
  rw [Stage.copies, hwords, lanes_split w (room_le x.pkt), List.append_assoc,
    ← List.append_assoc x.carry, hstore]
  rfl

/-- A last word that fits. -/
theorem hold_copies_fits (hx : x.left = []) (hfit : x.pkt.count ≤ room x.pkt) :
    (Stage.hold x).copies = headerStore r := by
  have hhead := Pos.head_last hx
  have hcount := Pos.headCount_last hx
  have hwords : x.words.bytes = lanes x.pkt.final 0 x.pkt.count :=
    Packet.bytes_nil (p := x.words) hx
  have hstore := hold_headerStore hm hA h hh [] rfl
  rw [hhead, hcount, Nat.min_eq_left hfit, List.append_nil, copies_nil, List.append_nil] at hstore
  rw [Stage.copies, hwords, hstore]

/-- A last word that does not fit. -/
theorem hold_copies_over (hx : x.left = []) (hover : room x.pkt < x.pkt.count) :
    (Stage.hold x).copies = headerStore r ++ (Stage.extra x).copies := by
  have hhead := Pos.head_last hx
  have hcount := Pos.headCount_last hx
  have hwords : x.words.bytes = lanes x.pkt.final 0 x.pkt.count :=
    Packet.bytes_nil (p := x.words) hx
  have hstore := hold_headerStore hm hA h hh
    (lanes x.pkt.final (room x.pkt) (x.pkt.count - room x.pkt)) rfl
  rw [hhead, hcount, Nat.min_eq_right (Nat.le_of_lt hover), List.length_append,
    length_lanes] at hstore
  rw [Stage.copies, hwords, lanes_split _ (Nat.le_of_lt hover), ← List.append_assoc, hstore]
  rfl

end Hold

/-- The end of a last word that did not fit. -/
theorem extra_copies (h : Matches r (.extra x)) (hh : HdrMatches r (.extra x)) :
    (Stage.extra x).copies = headerStore r := by
  obtain ⟨hp, hcop⟩ := hh
  have hkept := congrArg Store.bytes (extra_store h)
  change keptAt _ _ _ = place _ _ at hkept
  rw [headerStore_eq hcop hm hA h.2.wrDataEn (extra_aligned h hp), hkept, hp.start,
    BitVec.add_assoc, ← BitVec.ofNat_add, Stage.copies]
  have happ := @copies_append _ x.pkt (x.written + x.share)
    (lanes x.pkt.final (room x.pkt) (x.pkt.count - room x.pkt)) [] ?_
  · rwa [List.append_nil, copies_nil, List.append_nil] at happ
  · intro hc
    have hword := word_le_regionEnd hm hp.aligned hc.2
    have hcount : x.pkt.count ≤ 2 ^ P.maskBits := x.pkt.count_le
    rw [length_lanes]
    change _ ≤ regionEnd _ _
    omega

theorem makes_copies {st : Stage P} (h : Matches r st) (hh : HdrMatches r st) :
    (copyDues P).Makes (headerStore r) st := by
  cases st with
  | idle => trivial
  | gap x => trivial
  | extra x => exact extra_copies hm hA h hh
  | hold x =>
    refine ⟨?_, ?_, ?_⟩
    · intro w ws hx
      exact hold_copies_cons hm hA h hh hx
    · intro hx hover
      exact hold_copies_over hm hA h hh hx hover
    · intro hx hfits
      exact hold_copies_fits hm hA h hh hx hfits

end Due

/-! ## Runs -/

/-- A bench with a log of what the header writes store. -/
structure HdrBench (P : Config) where
  bench : Bench P
  hdrStores : List (BitVec (P.hdrMsbWidth + P.hdrAddrBits) × BitVec 8)

namespace HdrBench

def step (b : HdrBench P) (c : Cycle P) : HdrBench P where
  bench := b.bench.step c
  hdrStores := b.hdrStores ++
    if writes b.bench.regs (b.bench.inputs c) then headerStore b.bench.regs else []

structure Start (b : HdrBench P) (ps : List (Pkt P)) : Prop where
  bench : b.bench.Start ps
  hdrStores : b.hdrStores = []

end HdrBench

section Simulation
variable {b : Bench P} {c : Cycle P} {todo : List (Pkt P)} {a : Progress P}

theorem begin_hdrMatches (hpend : b.pending = todo.flatMap Packet.beats) (hmid : b.mid = false)
    (hacc : b.accepts c = true) (hlatch : latchInfo b.regs (b.inputs c) = true) :
    HdrMatches (next b.regs (b.inputs c)) (Progress.beginNext todo).stage := by
  obtain ⟨-, -, beat, later, hp, -, -, -, hside⟩ := accepts_spec hacc
  cases todo with
  | nil => trivial
  | cons p ps =>
    rw [hpend, List.flatMap_cons, p.beats_eq_cons, List.cons_append] at hp
    refine ⟨placed_begin p, copying_begin hlatch ?_⟩
    rw [hside hmid, ← (List.cons.inj hp).1]
    rfl

/-- The last write of a packet is made. -/
theorem last_hdrMatches {st : Stage P} (h : Follows b ⟨st, todo⟩) (hbeats : st.beats = [])
    (hmid : st.mid = false) (hlast : wrLastPkt b.regs = true) (hready : c.memWrReady = true) :
    HdrMatches (next b.regs (b.inputs c))
      (if b.accepts c then Progress.beginNext todo else ⟨.idle, todo⟩).stage := by
  cases hacc : b.accepts c with
  | false => trivial
  | true =>
    have hpend : b.pending = todo.flatMap Packet.beats := by
      rw [h.pending, Progress.pending, hbeats, List.nil_append]
    have hready' : (b.inputs c).memWrReady = true := hready
    have hacc' : accepts b.regs (b.inputs c) = true := hacc
    exact begin_hdrMatches hpend (h.mid.trans hmid) hacc
      (by simp [latchInfo, hlast, hready', hacc'])

theorem hdrMatches_step (hm : P.maskBits ≤ P.hdrAddrBits)
    (hA : P.hdrAddrBits ≤ P.addrWidth) (h : Follows b a) (hh : HdrMatches b.regs a.stage)
    (c : Cycle P) :
    HdrMatches (next b.regs (b.inputs c)) (a.next c.memWrReady (b.accepts c)).stage := by
  obtain ⟨st, todo⟩ := a
  cases st with
  | idle =>
    have hq : Quiet b.regs := h.regs
    cases hacc : b.accepts c with
    | false => trivial
    | true =>
      have hacc' : accepts b.regs (b.inputs c) = true := hacc
      exact begin_hdrMatches h.pending h.mid hacc (by simp [latchInfo, hq.wrStateR, hacc'])
  | gap x =>
    obtain ⟨-, hlast⟩ := gap_wires h.regs
    obtain ⟨hl, -, hwait⟩ := h.regs
    obtain ⟨hp, hcop⟩ := hh
    have hlatch : latchInfo b.regs (b.inputs c) = false := by simp [latchInfo_of_proc hl, hlast]
    have hkeep := hcop.keep hlatch (by simp [writes, hwait.wrDataEn])
    cases b.accepts c with
    | true => exact ⟨hp, hkeep⟩
    | false => exact ⟨hp, hkeep⟩
  | extra x =>
    obtain ⟨-, hlast⟩ := extra_wires h.regs
    obtain ⟨hp, hcop⟩ := hh
    cases hready : c.memWrReady with
    | true => exact last_hdrMatches h rfl rfl hlast hready
    | false =>
      have hready' : (b.inputs c).memWrReady = false := hready
      have hlatch : latchInfo b.regs (b.inputs c) = false := by
        simp [latchInfo_of_proc h.regs.1, hready']
      exact ⟨hp, hcop.keep hlatch (by simp [writes, hready'])⟩
  | hold x =>
    have hlast := hold_wrLastPkt h.regs
    have hl := h.regs.1
    cases hready : c.memWrReady with
    | false =>
      have hready' : (b.inputs c).memWrReady = false := hready
      have hlatch : latchInfo b.regs (b.inputs c) = false := by
        simp [latchInfo_of_proc hl, hready']
      exact ⟨hh.1, hh.2.keep hlatch (by simp [writes, hready'])⟩
    | true =>
      have hready' : (b.inputs c).memWrReady = true := hready
      have hw : writes b.regs (b.inputs c) = true := by
        simp [writes, h.regs.2.2.wrDataEn, hready']
      -- unless the packet ends here, the enable is the one for the bytes behind this write
      have hfall : wrLastPkt b.regs = false →
          Copying (next b.regs (b.inputs c)) x.pkt (x.written + x.share) := fun hno =>
        hold_nextHdrEn h.regs hh hm hA (by simp [latchInfo_of_proc hl, hno]) hw
      cases hx : x.left with
      | cons w ws =>
        rw [Progress.next_hold_cons _ hx]
        have hcop := hfall (by simp [hlast, hx])
        cases b.accepts c with
        | true => exact ⟨hh.1.advance hx, hcop⟩
        | false => exact ⟨hh.1.advance hx, hcop⟩
      | nil =>
        rw [Progress.next_hold_nil _ hx]
        by_cases hover : room x.pkt < x.pkt.count
        · rw [if_pos hover]
          exact ⟨hh.1, hfall (by simp [hlast, hover])⟩
        · rw [if_neg hover]
          have hbeats : (Stage.hold x).beats = [] := by
            simp [Stage.beats, Packet.beats_nil (p := x.words) hx]
          have hmid : (Stage.hold x).mid = false := by simp [Stage.mid, hx]
          exact last_hdrMatches h hbeats hmid (by simp [hlast, hx, Nat.le_of_not_lt hover]) hready

/-- A cycle makes the copies of the word it writes. -/
theorem copies_step (hm : P.maskBits ≤ P.hdrAddrBits)
    (hA : P.hdrAddrBits ≤ P.addrWidth) (h : Follows b a) (hh : HdrMatches b.regs a.stage)
    (c : Cycle P) :
    a.copies = (if writes b.regs (b.inputs c) then headerStore b.regs else []) ++
      (a.next c.memWrReady (b.accepts c)).copies :=
  (copyDues P).total_step h (makes_copies hm hA h.regs hh) c

/-! ### What is left to do -/

/-- The writes still to be made of the words in the registers. -/
def held (r : Regs P) : Nat := if r.wrDataEn then if extraCycle r then 2 else 1 else 0

theorem held_le (r : Regs P) : held r ≤ 2 := by
  unfold held
  split
  · split <;> omega
  · omega

/-- A bound on the cycles that are left to do. -/
def Bench.left (b : Bench P) : Nat := 3 * b.pending.length + held b.regs

/-- A word is on offer, and nothing stands in its way. -/
def Feeds (_ : HdrBench P) (c : Cycle P) : Prop :=
  c.offer = true ∧ c.memWrReady = true ∧ c.recvDescReady = true
deriving Decidable

/-- With no word taken, a write leaves one less to be made. -/
theorem held_next {r : Regs P} {i : Inputs P} (hacc : accepts r i = false) :
    held (next r i) = held r - (writes r i).toNat := by
  have hlatch : latchInfo r i = false := by simp [latchInfo, hacc]
  cases hen : r.wrDataEn with
  | false => simp [held, next, hacc, hen, writes]
  | true =>
    cases hready : i.memWrReady with
    | false =>
      have hw : writes r i = false := by simp [writes, hready]
      have hextra : extraCycle (next r i) = extraCycle r := by
        simp [extraCycle, next, nextWrStrbLeft, hw, hacc, hlatch]
      have hen' : (next r i).wrDataEn = true := by simp [next, hen, hready]
      simp [held, hen', hen, hextra, hw]
    | true =>
      have hw : writes r i = true := by simp [writes, hen, hready]
      cases hextra : extraCycle r with
      | false => simp [held, next, hacc, hen, hready, hextra, hw]
      | true =>
        have hlast' : (next r i).wrLast = false := by simp [next, hextra, hw]
        have hextra' : extraCycle (next r i) = false := by simp [extraCycle, hlast']
        have hen' : (next r i).wrDataEn = true := by simp [next, hen, hready, hextra]
        simp [held, hen', hen, hextra, hextra', hw]

/-- Between writes no extra cycle is due. -/
theorem extraCycle_of_rest (h : Follows b a) (hen : b.regs.wrDataEn = false) :
    extraCycle b.regs = false := by
  obtain ⟨st, todo⟩ := a
  cases st with
  | idle => exact h.regs.extraCycle
  | gap x => exact (gap_wires h.regs).1
  | extra x => exact (extra_wires h.regs).1
  | hold x => exact absurd (h.regs.2.2.wrDataEn.symm.trans hen) Bool.true_eq_false.mp

theorem left_step (h : Follows b a) (c : Cycle P) (d : HdrBench P) :
    (b.step c).left ≤ b.left - if Feeds d c then 1 else 0 := by
  cases hacc : b.accepts c with
  | true =>
    obtain ⟨-, -, beat, later, hp, -⟩ := accepts_spec hacc
    have hheld := held_le (next b.regs (b.inputs c))
    have hlen : (b.step c).pending.length + 1 = b.pending.length := by
      simp [Bench.step, hacc, hp]
    change 3 * _ + held (next _ _) ≤ 3 * _ + _ - _
    split <;> omega
  | false =>
    have hpend : (b.step c).pending = b.pending := by simp [Bench.step, hacc]
    have hheld := held_next hacc
    change 3 * _ + held (next _ _) ≤ 3 * _ + _ - _
    rw [hpend, hheld]
    by_cases hfeeds : Feeds d c
    · rw [if_pos hfeeds]
      obtain ⟨hoffer, hready, hdesc⟩ := hfeeds
      cases hen : b.regs.wrDataEn with
      | true =>
        have hw : writes b.regs (b.inputs c) = true := by
          simp [writes, hen, Bench.inputs, hready]
        rw [hw, Bool.toNat_true]
        have hpos : 1 ≤ held b.regs := by
          simp only [held, hen, if_true]
          split <;> omega
        omega
      | false =>
        -- nothing in the registers: the word on offer would have been taken
        have hextra := extraCycle_of_rest h hen
        have hnil : b.pending = [] := by
          cases hp : b.pending with
          | nil => rfl
          | cons beat later =>
            simp [Bench.accepts, accepts, sAxisTready, descBlock, Bench.inputs, hp, hoffer,
              hready, hdesc, hextra] at hacc
        simp [hnil, held, hen]
    · rw [if_neg hfeeds]
      omega

theorem idle_of_left (h : Follows b a) (hleft : b.left = 0) : a.stage = .idle ∧ a.todo = [] := by
  obtain ⟨hlen, hheld⟩ := Nat.add_eq_zero_iff.mp hleft
  have hen : b.regs.wrDataEn = false := by
    cases hen : b.regs.wrDataEn with
    | false => rfl
    | true =>
      simp only [held, hen, if_true] at hheld
      split at hheld <;> omega
  have hpend : a.pending = [] := by
    rw [← h.pending]
    exact List.length_eq_zero_iff.mp (by omega)
  obtain ⟨hbeats, htodo⟩ := List.append_eq_nil_iff.mp hpend
  obtain ⟨st, todo⟩ := a
  refine ⟨?_, ?_⟩
  · cases st with
    | idle => rfl
    | gap x => exact absurd hbeats x.words.beats_ne_nil
    | extra x => exact absurd (h.regs.2.wrDataEn.symm.trans hen) Bool.true_eq_false.mp
    | hold x => exact absurd (h.regs.2.2.wrDataEn.symm.trans hen) Bool.true_eq_false.mp
  · cases todo with
    | nil => rfl
    | cons p ps =>
      exact absurd (List.append_eq_nil_iff.mp htodo).1 p.beats_ne_nil

end Simulation

/-! ### The header copy -/

section Runs
variable {b : HdrBench P} {ps : List (Pkt P)}

/-- What the header memory has been given, and what is due to it. -/
def HdrOwes (ps : List (Pkt P)) (b : HdrBench P) : Prop :=
  ∃ a, Follows b.bench a ∧ HdrMatches b.bench.regs a.stage ∧ a.unfinished <:+ ps ∧
    b.hdrStores ++ a.copies = ps.flatMap headerCopy

theorem HdrBench.Start.owes (h : b.Start ps) : HdrOwes ps b := by
  refine ⟨_, h.bench.follows, trivial, List.suffix_refl ps, ?_⟩
  rw [h.hdrStores]
  rfl

theorem HdrOwes.step (hm : P.maskBits ≤ P.hdrAddrBits) (hA : P.hdrAddrBits ≤ P.addrWidth)
    (h : HdrOwes ps b) (c : Cycle P) : HdrOwes ps (b.step c) := by
  obtain ⟨a, hf, hh, hsuff, hcopies⟩ := h
  refine ⟨_, follows_step hf c, hdrMatches_step hm hA hf hh c,
    (a.unfinished_suffix _ _).trans hsuff, ?_⟩
  rw [← hcopies, copies_step hm hA hf hh c, ← List.append_assoc]
  rfl

/-- Of the packet a word is held of, at least that word has been taken. -/
theorem length_beats_tail_lt (x : Pos P) : x.words.beats.tail.length < x.pkt.beats.length := by
  have htotal := x.total
  have hleft : x.left.length ≤ x.pkt.body.length := by
    by_contra hlt
    have hmul := Nat.mul_le_mul_right P.strbWidth (Nat.lt_of_not_le hlt)
    have hpos := P.strbWidth_pos
    simp only [Packet.length_bytes] at htotal
    rw [Nat.succ_mul] at hmul
    omega
  rw [List.length_tail, x.words.length_beats, x.pkt.length_beats]
  change x.left.length + 1 - 1 < _
  omega

/-- A header write belongs to a packet with `hdr_en`. -/
theorem HdrOwes.hdrEn (h : HdrOwes ps b) (hen : memHdrWrEn b.bench.regs = true) :
    ∃ done p todo, ps = done ++ p :: todo ∧ p.side.hdrEn = true ∧
      todo.flatMap Packet.beats <:+ b.bench.pending ∧
      b.bench.pending.length < ((p :: todo).flatMap Packet.beats).length := by
  obtain ⟨⟨st, todo⟩, hf, hh, ⟨done, hdone⟩, -⟩ := h
  obtain ⟨hcopied, hdata⟩ := Bool.and_eq_true_iff.mp hen
  rw [hf.pending]
  cases st with
  | idle => exact absurd (hdata.symm.trans hf.regs.wrDataEn) Bool.true_eq_false.mp
  | gap x => exact absurd (hdata.symm.trans hf.regs.2.2.wrDataEn) Bool.true_eq_false.mp
  | hold x =>
    rw [hh.2.hdrEnR, decide_eq_true_eq] at hcopied
    refine ⟨done, x.pkt, todo, hdone.symm, hcopied.1, List.suffix_append _ _, ?_⟩
    rw [Progress.pending, List.flatMap_cons, List.length_append, List.length_append]
    exact Nat.add_lt_add_right (length_beats_tail_lt x) _
  | extra x =>
    rw [hh.2.hdrEnR, decide_eq_true_eq] at hcopied
    refine ⟨done, x.pkt, todo, hdone.symm, hcopied.1, List.suffix_append _ _, ?_⟩
    rw [Progress.pending, List.flatMap_cons, List.length_append, List.length_append,
      x.pkt.length_beats]
    exact Nat.add_lt_add_right (Nat.succ_pos _) _

/-- **The header copy is exact.**  Whatever the packets, their base addresses and lengths,
the offers and the two receivers, what the header writes have stored is at every point of
the run the beginning of the packets' copies, in order and nothing else; between packets it
is the copies of the packets taken; a header write is on offer only for a packet with
`hdr_en`; and in as many cycles with a word on offer and ready receivers as `Bench.left` says,
all the copies are made. -/
theorem header_copy_exact (hm : P.maskBits ≤ P.hdrAddrBits) (hA : P.hdrAddrBits ≤ P.addrWidth)
    (hstart : b.Start ps) (cycles : List (Cycle P)) :
    let e := run HdrBench.step b cycles
    e.hdrStores <+: ps.flatMap headerCopy ∧
      (e.bench.regs.wrStateR = .idle → ∃ done todo, ps = done ++ todo ∧
        e.bench.pending = todo.flatMap Packet.beats ∧
        e.hdrStores = done.flatMap headerCopy) ∧
      (memHdrWrEn e.bench.regs = true → ∃ done p todo, ps = done ++ p :: todo ∧
        p.side.hdrEn = true ∧ todo.flatMap Packet.beats <:+ e.bench.pending ∧
        e.bench.pending.length < ((p :: todo).flatMap Packet.beats).length) ∧
      ∀ more, e.bench.left ≤ tally HdrBench.step Feeds e more →
        (run HdrBench.step b (cycles ++ more)).hdrStores = ps.flatMap headerCopy := by
  intro e
  have howes : HdrOwes ps e := run_preserves (fun _ c h => h.step hm hA c) hstart.owes cycles
  refine ⟨?_, ?_, howes.hdrEn, ?_⟩
  · obtain ⟨a, -, -, -, hcopies⟩ := howes
    exact ⟨_, hcopies⟩
  · intro hs
    obtain ⟨a, hf, -, ⟨done, hdone⟩, hcopies⟩ := howes
    have hidle := idle_follows hf hs
    have hpend := hf.pending
    rw [Progress.pending, hidle] at hpend
    rw [Progress.unfinished, hidle] at hdone
    refine ⟨done, a.todo, hdone.symm, hpend, ?_⟩
    rw [← hdone, List.flatMap_append, Progress.copies, hidle] at hcopies
    exact List.append_cancel_right hcopies
  · intro more hfed
    rw [run_append]
    have hinv : ∀ s c, HdrOwes ps s → True → HdrOwes ps (HdrBench.step s c) :=
      fun _ c h _ => h.step hm hA c
    have hend : HdrOwes ps (run HdrBench.step e more) :=
      run_invariant hinv howes (meets_true _ _ more)
    have hrank := run_exhausts (D := Feeds) (m := fun s => s.bench.left) hinv
      (fun s c h _ => by
        obtain ⟨a, hf, -⟩ := h
        exact left_step hf c s) howes (meets_true _ _ more)
    obtain ⟨a, hf, -, -, hcopies⟩ := hend
    obtain ⟨hidle, htodo⟩ := idle_of_left hf (by omega)
    rw [Progress.copies, hidle, htodo] at hcopies
    exact (List.append_nil _).symm.trans hcopies

/-- Three bytes from address 2 on with a copy of the first two, and a packet without one. -/
def headerPackets : List (Pkt sampleConfig) :=
  [{ samplePacket with side := ⟨0, 0, 2, 1, true⟩ }, samplePacket]

theorem header_copy_exact_two :
    let cycles := List.replicate 20 (offering true)
    (run HdrBench.step ⟨sampleBench headerPackets, []⟩ cycles).hdrStores = [(6, 1), (7, 2)] ∧
      (run HdrBench.step ⟨sampleBench headerPackets, []⟩ cycles).hdrStores =
        headerPackets.flatMap headerCopy :=
  ⟨by decide +kernel,
    (header_copy_exact (by decide) (by decide) ⟨sampleBench_start headerPackets, rfl⟩ []).2.2.2
      (List.replicate 20 (offering true)) (by decide +kernel)⟩

end Runs

end Rosebud.DmaWrite
