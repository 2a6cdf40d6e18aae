import Rosebud.Clocked
import Rosebud.MemoryWords

/-! # `axis_dma`, from the memory to the stream

The read half of `axis_dma`: for a send descriptor the circuit asks the memory for the
words its bytes lie in, passes the answers through two registers and sends the word
between the two at the offset of the descriptor's address.  How many words to ask for,
and how many are still to be sent when the last one has come (`data_left`), is worked
out from the offset, the length and what both leave of a word.

`Reader` adds to the registers the requests the memory has not answered.  It is not
said when the memory answers, or with what: an answer may come in the cycle of its
request or any time later, but answers come in the order of the requests.
-/
namespace Rosebud.DmaRead
open Clocked Lanes AxiStream ByteStore MemoryWords

/-- The parameters of the read half. -/
structure Config where
  maskBits : Nat
  addrWidth : Nat
  lenWidth : Nat
  destWidthOut : Nat
  userWidthOut : Nat
  maskBits_le_addrWidth : maskBits ≤ addrWidth
  maskBits_le_lenWidth : maskBits ≤ lenWidth

/-- `STRB_WIDTH`. -/
abbrev Config.strbWidth (P : Config) : Nat := 2 ^ P.maskBits

variable {P : Config}

abbrev Word (P : Config) : Type := BitVec (8 * P.strbWidth)

/-- The side channels of a sent packet. -/
structure Side (P : Config) where
  tdest : BitVec P.destWidthOut
  tuser : BitVec P.userWidthOut
deriving DecidableEq

/-- A send descriptor. -/
structure Desc (P : Config) where
  addr : BitVec P.addrWidth
  len : BitVec P.lenWidth
  tdest : BitVec P.destWidthOut
  tuser : BitVec P.userWidthOut
deriving DecidableEq

def Desc.side (d : Desc P) : Side P := ⟨d.tdest, d.tuser⟩

/-- `rd_state_r`. -/
inductive RdState where
  | idle | init | proc | err
deriving DecidableEq, Inhabited

structure Regs (P : Config) where
  rdStateR : RdState
  toDrop : Bool
  sendBaseAddr : BitVec P.addrWidth
  sendLen : BitVec P.lenWidth
  sendTdest : BitVec P.destWidthOut
  sendTuser : BitVec P.userWidthOut
  remainderBytes : BitVec (P.maskBits + 1)
  alignedRdAddr : BitVec P.addrWidth
  rdOffset : BitVec P.maskBits
  rdReqWordCount : BitVec (P.lenWidth - P.maskBits)
  rdRecvWordCount : BitVec (P.lenWidth - P.maskBits)
  rdFinalTkeep : BitVec P.strbWidth
  rdLenIsInt : Bool
  dataLeft : BitVec 2
  readReg1 : Word P
  readReg2 : Word P
  readReg1V : Bool
  readReg2V : Bool
deriving DecidableEq, Inhabited

structure Inputs (P : Config) where
  sendDescValid : Bool
  sendDesc : Desc P
  memRdReady : Bool
  memRdData : Word P
  memRdDataV : Bool
  mAxisTready : Bool

/-! ## The circuit -/

section Wires
variable (r : Regs P) (i : Inputs P)

def sendDescReady : Bool := decide (r.rdStateR = .idle)

/-- A descriptor is taken. -/
def takesDesc : Bool := sendDescReady r && i.sendDescValid

def mAxisTvalid : Bool := r.readReg2V

def mAxisTlast : Bool := decide (r.dataLeft = 1)

def mAxisTkeep : BitVec P.strbWidth :=
  if mAxisTlast r then r.rdFinalTkeep else BitVec.allOnes _

def mAxisTdata : Word P := window r.readReg1 r.readReg2 r.rdOffset.toNat

/-- The word on the stream. -/
def mAxis : Beat P.strbWidth (Side P) :=
  ⟨mAxisTdata r, mAxisTkeep r, mAxisTlast r, ⟨r.sendTdest, r.sendTuser⟩⟩

/-- A word is on the stream and is not taken. -/
def blocked : Bool := mAxisTvalid r && !i.mAxisTready

def sends : Bool := mAxisTvalid r && i.mAxisTready

def memRdDataReady : Bool := !blocked r i

def memRdEn : Bool := decide (r.rdReqWordCount ≠ 0)

def memRdLast : Bool := decide (r.rdReqWordCount = 1)

/-- A request is taken by the memory. -/
def asks : Bool := memRdEn r && i.memRdReady

/-- An answer is taken from the memory. -/
def receives : Bool := i.memRdDataV && memRdDataReady r i

def pktSent : Bool :=
  (r.toDrop && decide (r.rdStateR = .init)) ||
    (mAxisTvalid r && i.mAxisTready && mAxisTlast r)

def nextRdState : RdState :=
  match r.rdStateR with
  | .idle => if i.sendDescValid then .init else .idle
  | .init => if r.toDrop then .idle else .proc
  | .proc => if pktSent r i then .idle else .proc
  | .err => .err

def extraWords : BitVec 2 :=
  if r.remainderBytes = 0 ∨ r.toDrop = true then 0
  else (r.remainderBytes.extractLsb' P.maskBits 1).setWidth 2 + 1

/-- The zeros of the last strobe; a full one has none, for want of a top bit. -/
def tkeepZeros : BitVec P.maskBits :=
  BitVec.ofNat _ P.strbWidth - r.sendLen.extractLsb' 0 P.maskBits

/-- The words to ask for, worked out in `RD_INIT`. -/
def initWordCount : BitVec (P.lenWidth - P.maskBits) :=
  r.sendLen.extractLsb' P.maskBits (P.lenWidth - P.maskBits) + (extraWords r).setWidth _

/-- What is left in the two registers when the last word comes. -/
def lastDataLeft : BitVec 2 :=
  if r.rdOffset = 0 then 2
  else if r.rdLenIsInt then 1
  else if r.remainderBytes.getLsbD P.maskBits then 1
  else 2

def nextDataLeft : BitVec 2 :=
  if r.rdStateR ≠ .proc then 0
  else if r.rdRecvWordCount = 1 ∧ receives r i = true then lastDataLeft r
  else if r.dataLeft ≠ 0 ∧ blocked r i = false then r.dataLeft - 1
  else r.dataLeft

/-- The two data registers after the clock edge: data, valid, data, valid. -/
def nextPipe : Word P × Bool × Word P × Bool :=
  if receives r i then (i.memRdData, true, r.readReg1, r.readReg1V)
  else if r.dataLeft ≠ 0 ∧ blocked r i = false then
    (r.readReg1, false, r.readReg1, decide (r.dataLeft = 2))
  else if sends r i then (r.readReg1, r.readReg1V, r.readReg2, false)
  else (r.readReg1, r.readReg1V, r.readReg2, r.readReg2V)

/-- The registers after the clock edge, outside reset. -/
def next : Regs P where
  rdStateR := nextRdState r i
  toDrop := if takesDesc r i then decide (i.sendDesc.len = 0) else r.toDrop
  sendBaseAddr := if takesDesc r i then i.sendDesc.addr else r.sendBaseAddr
  sendLen := if takesDesc r i then i.sendDesc.len else r.sendLen
  sendTdest := if takesDesc r i then i.sendDesc.tdest else r.sendTdest
  sendTuser := if takesDesc r i then i.sendDesc.tuser else r.sendTuser
  remainderBytes :=
    if takesDesc r i then
      (i.sendDesc.addr.extractLsb' 0 P.maskBits).setWidth _ +
        (i.sendDesc.len.extractLsb' 0 P.maskBits).setWidth _
    else r.remainderBytes
  alignedRdAddr :=
    match r.rdStateR with
    | .idle => r.alignedRdAddr
    | .init => align P.maskBits r.sendBaseAddr
    | _ => if asks r i then r.alignedRdAddr + BitVec.ofNat _ P.strbWidth else r.alignedRdAddr
  rdOffset :=
    match r.rdStateR with
    | .idle => 0
    | .init => r.sendBaseAddr.extractLsb' 0 P.maskBits
    | _ => r.rdOffset
  rdReqWordCount :=
    match r.rdStateR with
    | .idle => 0
    | .init => initWordCount r
    | _ => if asks r i then r.rdReqWordCount - 1 else r.rdReqWordCount
  rdRecvWordCount :=
    match r.rdStateR with
    | .idle => 0
    | .init => initWordCount r
    | _ => if receives r i then r.rdRecvWordCount - 1 else r.rdRecvWordCount
  rdFinalTkeep :=
    match r.rdStateR with
    | .idle => BitVec.allOnes _
    | .init =>
      ((0#(P.strbWidth - 1) ++ BitVec.allOnes P.strbWidth) >>> (tkeepZeros r).toNat).setWidth _
    | _ => r.rdFinalTkeep
  rdLenIsInt :=
    match r.rdStateR with
    | .idle => true
    | .init => decide (r.sendLen.extractLsb' 0 P.maskBits = 0)
    | _ => r.rdLenIsInt
  dataLeft := nextDataLeft r i
  readReg1 := (nextPipe r i).1
  readReg2 := (nextPipe r i).2.2.1
  readReg1V := (nextPipe r i).2.1
  readReg2V := (nextPipe r i).2.2.2

end Wires

/-! ## The circuit and the memory's unanswered requests -/

/-- The surroundings in one cycle.  With `respond` high the memory answers its first
unanswered request, if there is one, by `memRdData`. -/
structure Env (P : Config) where
  sendDescValid : Bool
  sendDesc : Desc P
  memRdReady : Bool
  respond : Bool
  memRdData : Word P
  mAxisTready : Bool

structure Reader (P : Config) where
  regs : Regs P
  outstanding : List (BitVec P.addrWidth)
deriving DecidableEq, Inhabited

namespace Reader
variable (s : Reader P) (e : Env P)

/-- The requests that can be answered in this cycle. -/
def waiting (memRdReady : Bool) : List (BitVec P.addrWidth) :=
  s.outstanding ++ if memRdEn s.regs && memRdReady then [s.regs.alignedRdAddr] else []

def inputs : Inputs P where
  sendDescValid := e.sendDescValid
  sendDesc := e.sendDesc
  memRdReady := e.memRdReady
  memRdData := e.memRdData
  memRdDataV := e.respond && !(s.waiting e.memRdReady).isEmpty
  mAxisTready := e.mAxisTready

def step : Reader P where
  regs := next s.regs (s.inputs e)
  outstanding := rest (s.waiting e.memRdReady) (receives s.regs (s.inputs e))

end Reader

/-- Out of reset with nothing asked for. -/
structure Fresh (s : Reader P) : Prop where
  rdStateR : s.regs.rdStateR = .idle
  toDrop : s.regs.toDrop = false
  rdOffset : s.regs.rdOffset = 0
  rdReqWordCount : s.regs.rdReqWordCount = 0
  rdRecvWordCount : s.regs.rdRecvWordCount = 0
  rdFinalTkeep : s.regs.rdFinalTkeep = BitVec.allOnes _
  rdLenIsInt : s.regs.rdLenIsInt = true
  dataLeft : s.regs.dataLeft = 0
  readReg1V : s.regs.readReg1V = false
  readReg2V : s.regs.readReg2V = false
  outstanding : s.outstanding = []

/-- The reader after a reset, with zeros in the registers that a reset leaves alone. -/
def Reader.reset : Reader P :=
  ⟨{ (default : Regs P) with rdFinalTkeep := BitVec.allOnes _, rdLenIsInt := true }, []⟩

theorem Reader.reset_fresh : Fresh (Reader.reset : Reader P) :=
  ⟨rfl, rfl, rfl, rfl, rfl, rfl, rfl, rfl, rfl, rfl, rfl⟩

/-! ## The words of a descriptor -/

/-- Full words and a rest, rounded up to words. -/
theorem ceil_div {W r : Nat} (q : Nat) (hr : r < W) :
    (W * q + r + W - 1) / W = q + if r = 0 then 0 else 1 := by
  rw [Nat.add_assoc, Nat.add_sub_assoc (by omega), Nat.mul_add_div (by omega)]
  congr 1
  split
  · exact Nat.div_eq_of_lt (by omega)
  · exact Nat.div_eq_of_lt_le (by omega) (by omega)

namespace Desc
variable (d : Desc P)

/-- Where in its first word a descriptor's bytes start. -/
def offset : Nat := d.addr.toNat % P.strbWidth

/-- How many bytes are left over after full words. -/
def residue : Nat := d.len.toNat % P.strbWidth

/-- The words asked for. -/
def words : Nat :=
  d.len.toNat / P.strbWidth +
    if d.offset + d.residue = 0 then 0 else (d.offset + d.residue) / P.strbWidth + 1

/-- The words sent. -/
def total : Nat := (d.len.toNat + P.strbWidth - 1) / P.strbWidth

/-- The words sent after the last one has come. -/
def left : Nat :=
  if d.offset = 0 then 2
  else if d.residue = 0 then 1
  else if P.strbWidth ≤ d.offset + d.residue then 1
  else 2

/-- The bytes in the last word sent. -/
def lastCount : Nat := if d.residue = 0 then P.strbWidth else d.residue

/-- The word counters can hold the words of the descriptor, and one more. -/
def Fits : Prop :=
  (d.offset + d.len.toNat + P.strbWidth - 1) / P.strbWidth + 1 < 2 ^ (P.lenWidth - P.maskBits)

instance : Decidable d.Fits := inferInstanceAs (Decidable (_ < _))

theorem offset_lt : d.offset < P.strbWidth := Nat.mod_lt _ (Nat.two_pow_pos _)

theorem residue_lt : d.residue < P.strbWidth := Nat.mod_lt _ (Nat.two_pow_pos _)

/-- The length in full words and the rest. -/
theorem len_eq : d.len.toNat = P.strbWidth * (d.len.toNat / P.strbWidth) + d.residue :=
  (Nat.div_add_mod _ _).symm

/-- At most two words more than the full ones. -/
theorem words_eq_add : d.words = d.len.toNat / P.strbWidth +
    if d.offset + d.residue = 0 then 0
    else if P.strbWidth ≤ d.offset + d.residue then 2 else 1 := by
  have ho := d.offset_lt
  have hr := d.residue_lt
  unfold words
  congr 1
  split
  · rfl
  · split
    · rw [Nat.div_eq_of_lt_le (k := 1) (by omega) (by omega)]
    · rw [Nat.div_eq_of_lt (by omega)]

theorem total_eq_add : d.total = d.len.toNat / P.strbWidth + if d.residue = 0 then 0 else 1 := by
  have hlen := d.len_eq
  unfold total
  conv_lhs => rw [hlen]
  exact ceil_div _ d.residue_lt

/-- The words that come and the words that go, up to those still inside at the end. -/
theorem words_add_left : d.words + d.left = d.total + 2 := by
  have hr := d.residue_lt
  have ho := d.offset_lt
  rw [words_eq_add, total_eq_add, left]
  by_cases hz : d.offset = 0
  · have hlt : ¬ P.strbWidth ≤ d.residue := by omega
    simp [hz, hlt]
  · by_cases hres : d.residue = 0
    · have hlt : ¬ P.strbWidth ≤ d.offset := by omega
      simp [hz, hres, hlt]
    · by_cases hge : P.strbWidth ≤ d.offset + d.residue <;> simp [hz, hres, hge]

theorem left_eq : d.left = 1 ∨ d.left = 2 := by
  unfold left
  split
  · exact .inr rfl
  · split
    · exact .inl rfl
    · split
      · exact .inl rfl
      · exact .inr rfl

theorem len_toNat_pos (h : d.len ≠ 0) : 0 < d.len.toNat := by
  rcases Nat.eq_zero_or_pos d.len.toNat with hz | hp
  · exact absurd (BitVec.eq_of_toNat_eq (by rw [hz]; rfl)) h
  · exact hp

theorem total_pos (h : d.len ≠ 0) : 0 < d.total := by
  have hpos := d.len_toNat_pos h
  have hlen := d.len_eq
  rw [total_eq_add]
  rcases Nat.eq_zero_or_pos (d.len.toNat / P.strbWidth) with hz | hp
  · rw [hz, Nat.mul_zero, Nat.zero_add] at hlen
    rw [if_neg (by omega)]
    omega
  · omega

theorem words_pos (h : d.len ≠ 0) : 0 < d.words := by
  have hsum := d.words_add_left
  have htot := d.total_pos h
  rcases d.left_eq with hl | hl <;> omega

/-- The bytes of the last word. -/
theorem len_eq_lastCount (h : d.len ≠ 0) :
    d.len.toNat = (d.total - 1) * P.strbWidth + d.lastCount := by
  have hlen := d.len_eq
  have htot := d.total_pos h
  have hadd := d.total_eq_add
  unfold lastCount
  split at hadd
  · rename_i hz
    rw [if_pos hz]
    rw [hz, Nat.add_zero] at hlen
    rw [Nat.add_zero] at hadd
    rw [hlen, ← Nat.succ_mul, Nat.mul_comm]
    congr 1
    omega
  · rename_i hz
    rw [if_neg hz, hadd, Nat.add_sub_cancel, Nat.mul_comm]
    exact hlen

theorem lastCount_le : d.lastCount ≤ P.strbWidth := by
  have hr := d.residue_lt
  unfold lastCount
  split <;> omega

/-- If two words are left, the last one sent is the last one that came. -/
theorem offset_add_lastCount_le (h : d.left = 2) : d.offset + d.lastCount ≤ P.strbWidth := by
  have hr := d.residue_lt
  unfold left at h
  unfold lastCount
  split at h
  · rename_i hz
    split <;> omega
  · split at h
    · exact absurd h (by decide)
    · split at h
      · exact absurd h (by decide)
      · rename_i hne hlt
        rw [if_neg hne]
        omega

theorem words_lt (hf : d.Fits) : d.words < 2 ^ (P.lenWidth - P.maskBits) := by
  have hpos : 0 < P.strbWidth := Nat.two_pow_pos _
  have hlen := d.len_eq
  refine Nat.lt_of_le_of_lt ?_ hf
  rw [words_eq_add]
  generalize P.strbWidth = W at *
  generalize d.len.toNat / W = q at *
  have hdiv : (d.offset + d.len.toNat + W - 1) / W = q + (d.offset + d.residue + W - 1) / W := by
    rw [hlen, show d.offset + (W * q + d.residue) + W - 1 =
      W * q + (d.offset + d.residue + W - 1) by omega, Nat.mul_add_div hpos]
  rw [hdiv, Nat.add_assoc]
  apply Nat.add_le_add_left
  split
  · exact Nat.zero_le _
  · have hone : 1 ≤ (d.offset + d.residue + W - 1) / W :=
      (Nat.le_div_iff_mul_le hpos).mpr (by omega)
    split <;> omega

end Desc

/-! ## One descriptor at a time

For the circuit that hands it descriptors, the read half is busy from the cycle it takes
one until it raises `pkt_sent`.  This holds for any descriptor, also for one whose words
the counters cannot count. -/

section Handshake
variable {s : Reader P} {e : Env P}

/-- Requests, answers and words left fit together, and outside `RD_PROC` there are
none. -/
structure Calm (s : Reader P) : Prop where
  noErr : s.regs.rdStateR ≠ .err
  counts : s.regs.rdReqWordCount.toNat + s.outstanding.length = s.regs.rdRecvWordCount.toNat
  left : s.regs.dataLeft ≠ 0 → s.regs.rdRecvWordCount.toNat = 0
  parked : s.regs.rdStateR ≠ .proc →
    s.regs.rdRecvWordCount.toNat = 0 ∧ s.regs.dataLeft = 0 ∧ s.regs.readReg2V = false
  drop : s.regs.rdStateR = .init → s.regs.toDrop = decide (s.regs.sendLen = 0)

theorem Fresh.calm (h : Fresh s) : Calm s where
  noErr := by simp [h.rdStateR]
  counts := by simp [h.rdReqWordCount, h.outstanding, h.rdRecvWordCount]
  left := fun hne => absurd h.dataLeft hne
  parked := fun _ => ⟨by simp [h.rdRecvWordCount], h.dataLeft, h.readReg2V⟩
  drop := fun hi => absurd (hi.symm.trans h.rdStateR) (by simp)

theorem toNat_sub_one {n : Nat} {c : BitVec n} {k : Nat} (h : c.toNat = k) (hk : 0 < k) :
    (c - 1).toNat = k - 1 := by
  have hone : (1 : BitVec n).toNat = 1 :=
    (BitVec.toNat_ofNat 1 n).trans (Nat.mod_eq_of_lt (by omega))
  rw [BitVec.toNat_sub_of_le (by rw [BitVec.le_def, hone]; omega), hone, h]

theorem toNat_pos_of_memRdEn {r : Regs P} (h : memRdEn r = true) :
    0 < r.rdReqWordCount.toNat := by
  have hne : r.rdReqWordCount ≠ 0 := of_decide_eq_true h
  rcases Nat.eq_zero_or_pos r.rdReqWordCount.toNat with hz | hp
  · exact absurd (BitVec.eq_of_toNat_eq (hz.trans BitVec.toNat_zero.symm)) hne
  · exact hp

variable (h : Calm s)
include h

/-- What can be answered is part of what is to come. -/
theorem Calm.length_waiting (ready : Bool) :
    (s.waiting ready).length ≤ s.regs.rdRecvWordCount.toNat := by
  have hcounts := h.counts
  rw [Reader.waiting, List.length_append]
  cases ha : memRdEn s.regs && ready with
  | false =>
    simp only [Bool.false_eq_true, if_false, List.length_nil]
    omega
  | true =>
    have hpos := toNat_pos_of_memRdEn (Bool.and_eq_true_iff.mp ha).1
    simp only [if_true, List.length_singleton]
    omega

/-- When nothing is to come, nothing comes. -/
theorem Calm.receives_eq_false (hz : s.regs.rdRecvWordCount.toNat = 0) :
    receives s.regs (s.inputs e) = false := by
  have hlen := h.length_waiting e.memRdReady
  rw [hz, Nat.le_zero] at hlen
  simp [receives, Reader.inputs, List.length_eq_zero_iff.mp hlen]

theorem Calm.pktSent_of_parked (hs : s.regs.rdStateR ≠ .proc) :
    pktSent s.regs (s.inputs e) = (s.regs.toDrop && decide (s.regs.rdStateR = .init)) := by
  simp [pktSent, mAxisTvalid, (h.parked hs).2.2]

/-- The counters and the requests after a cycle of `RD_PROC`. -/
theorem Calm.counts_step (hs : s.regs.rdStateR = .proc) :
    (s.step e).regs.rdReqWordCount.toNat + (s.step e).outstanding.length =
      (s.step e).regs.rdRecvWordCount.toNat := by
  have hcounts := h.counts
  have hreq : (s.step e).regs.rdReqWordCount.toNat + (s.waiting e.memRdReady).length =
      s.regs.rdRecvWordCount.toNat := by
    simp only [Reader.step, next, hs, Reader.waiting, List.length_append]
    have hasks : asks s.regs (s.inputs e) = (memRdEn s.regs && e.memRdReady) := rfl
    rw [hasks]
    cases ha : memRdEn s.regs && e.memRdReady with
    | false =>
      simp only [Bool.false_eq_true, if_false, List.length_nil]
      omega
    | true =>
      have hpos := toNat_pos_of_memRdEn (Bool.and_eq_true_iff.mp ha).1
      simp only [if_true, List.length_singleton, toNat_sub_one rfl hpos]
      omega
  cases hr : receives s.regs (s.inputs e) with
  | false =>
    have hrecv : (s.step e).regs.rdRecvWordCount = s.regs.rdRecvWordCount := by
      simp [Reader.step, next, hs, hr]
    have hout : (s.step e).outstanding = s.waiting e.memRdReady := by
      simp [Reader.step, hr]
    rw [hrecv, hout]
    exact hreq
  | true =>
    have hne : s.waiting e.memRdReady ≠ [] := by
      intro hnil
      simp [receives, Reader.inputs, hnil] at hr
    have hpos := List.length_pos_of_ne_nil hne
    have hrecv : (s.step e).regs.rdRecvWordCount.toNat = s.regs.rdRecvWordCount.toNat - 1 := by
      simp only [Reader.step, next, hs, hr, if_true]
      exact toNat_sub_one rfl (by omega)
    have hout : (s.step e).outstanding.length = (s.waiting e.memRdReady).length - 1 := by
      simp [Reader.step, hr]
    omega

/-- A cycle of `RD_PROC`. -/
theorem Calm.step_proc (hs : s.regs.rdStateR = .proc) : Calm (s.step e) := by
  have hstate : (s.step e).regs.rdStateR =
      if pktSent s.regs (s.inputs e) then .idle else .proc := by
    simp [Reader.step, next, nextRdState, hs]
  have hcounts := h.counts_step (e := e) hs
  -- nothing more comes once the last word is in
  have hzero : s.regs.rdRecvWordCount.toNat = 0 →
      (s.step e).regs.rdRecvWordCount.toNat = 0 := by
    intro hz
    have hr := h.receives_eq_false (e := e) hz
    simp [Reader.step, next, hs, hr, hz]
  have hlast : (s.step e).regs.dataLeft ≠ 0 → (s.step e).regs.rdRecvWordCount.toNat = 0 := by
    intro hne
    by_cases hin : s.regs.rdRecvWordCount = 1 ∧ receives s.regs (s.inputs e) = true
    · simp only [Reader.step, next, hs, hin.2, if_true]
      rw [hin.1]
      simp
    · apply hzero
      apply h.left
      intro hz
      apply hne
      simp only [Reader.step, next, nextDataLeft, hs]
      rw [if_neg (by simp), if_neg hin, if_neg (fun hh => hh.1 hz), hz]
  refine ⟨by rw [hstate]; split <;> simp, hcounts, hlast, ?_, ?_⟩
  · intro hne
    have hsent : pktSent s.regs (s.inputs e) = true := by
      by_contra hnot
      exact hne (by rw [hstate, if_neg hnot])
    obtain ⟨⟨hv, hready⟩, htl⟩ : (s.regs.readReg2V = true ∧ e.mAxisTready = true) ∧
        s.regs.dataLeft = 1 := by
      simpa [pktSent, hs, mAxisTvalid, mAxisTlast, Reader.inputs] using hsent
    have hz : s.regs.rdRecvWordCount.toNat = 0 := h.left (by rw [htl]; decide)
    have hr := h.receives_eq_false (e := e) hz
    have hb : blocked s.regs (s.inputs e) = false := by simp [blocked, Reader.inputs, hready]
    refine ⟨hzero hz, ?_, ?_⟩
    · simp [Reader.step, next, nextDataLeft, hs, hr, htl, hb]
    · simp [Reader.step, next, nextPipe, hr, htl, hb]
  · intro hi
    rw [hstate] at hi
    split at hi <;> simp at hi

/-- A cycle outside `RD_PROC`. -/
theorem Calm.step_parked (hs : s.regs.rdStateR ≠ .proc) : Calm (s.step e) := by
  obtain ⟨hz, hd, hv⟩ := h.parked hs
  have hr := h.receives_eq_false (e := e) hz
  have hwait : s.waiting e.memRdReady = [] := by
    have hlen := h.length_waiting e.memRdReady
    rw [hz, Nat.le_zero] at hlen
    exact List.length_eq_zero_iff.mp hlen
  have hout : (s.step e).outstanding = [] := by simp [Reader.step, hwait, hr]
  have hleft : (s.step e).regs.dataLeft = 0 := by simp [Reader.step, next, nextDataLeft, hs]
  have hvalid : (s.step e).regs.readReg2V = false := by
    simp [Reader.step, next, nextPipe, hr, hd, sends, mAxisTvalid, hv]
  cases hstate : s.regs.rdStateR with
  | proc => exact absurd hstate hs
  | err => exact absurd hstate h.noErr
  | idle =>
    have hreq : (s.step e).regs.rdReqWordCount = 0 := by simp [Reader.step, next, hstate]
    have hrecv : (s.step e).regs.rdRecvWordCount = 0 := by simp [Reader.step, next, hstate]
    refine ⟨?_, by simp [hreq, hrecv, hout], fun hne => absurd hleft hne,
      fun _ => ⟨by simp [hrecv], hleft, hvalid⟩, ?_⟩
    · simp only [Reader.step, next, nextRdState, hstate]
      split <;> simp
    · intro hi
      have htakes : takesDesc s.regs (s.inputs e) = true := by
        simp only [Reader.step, next, nextRdState, hstate] at hi
        split at hi
        · rename_i hvd
          simp [takesDesc, sendDescReady, hstate, hvd]
        · simp at hi
      simp [Reader.step, next, htakes]
  | init =>
    have hdrop := h.drop hstate
    refine ⟨?_, ?_, fun hne => absurd hleft hne, ?_, ?_⟩
    · simp only [Reader.step, next, nextRdState, hstate]
      split <;> simp
    · rw [hout]
      simp [Reader.step, next, hstate]
    · intro hne
      have htd : s.regs.toDrop = true := by
        by_contra hnot
        exact hne (by simp [Reader.step, next, nextRdState, hstate, hnot])
      have hlen : s.regs.sendLen = 0 := of_decide_eq_true (hdrop.symm.trans htd)
      refine ⟨?_, hleft, hvalid⟩
      simp only [Reader.step, next, hstate, initWordCount, extraWords]
      rw [if_pos (.inr htd), hlen]
      simp
    · intro hi
      simp only [Reader.step, next, nextRdState, hstate] at hi
      split at hi <;> simp at hi

theorem Calm.step (e : Env P) : Calm (s.step e) := by
  by_cases hs : s.regs.rdStateR = .proc
  · exact h.step_proc hs
  · exact h.step_parked hs

/-- **From a descriptor to `pkt_sent`.**  The read half gets ready with `pkt_sent` and
stays ready until it takes a descriptor. -/
theorem Calm.sendDescReady_step (e : Env P) : sendDescReady (s.step e).regs =
      if sendDescReady s.regs then !e.sendDescValid else pktSent s.regs (s.inputs e) := by
  have hnext : sendDescReady (s.step e).regs =
      decide (nextRdState s.regs (s.inputs e) = .idle) := rfl
  rw [hnext]
  cases hstate : s.regs.rdStateR with
  | idle =>
    have hin : (s.inputs e).sendDescValid = e.sendDescValid := rfl
    cases hv : e.sendDescValid <;> simp [sendDescReady, nextRdState, hstate, hin, hv]
  | init =>
    rw [h.pktSent_of_parked (by simp [hstate])]
    cases hd : s.regs.toDrop <;> simp [sendDescReady, nextRdState, hstate, hd]
  | proc =>
    cases hp : pktSent s.regs (s.inputs e) <;> simp [sendDescReady, nextRdState, hstate, hp]
  | err => exact absurd hstate h.noErr

/-- No `pkt_sent` without a descriptor under way. -/
theorem Calm.not_pktSent (hready : sendDescReady s.regs = true) :
    pktSent s.regs (s.inputs e) = false := by
  have hs : s.regs.rdStateR = .idle := of_decide_eq_true hready
  rw [h.pktSent_of_parked (by simp [hs])]
  simp [hs]

end Handshake

end Rosebud.DmaRead
