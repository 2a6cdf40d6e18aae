import Mathlib.Data.BitVec
import Rosebud.Clocked
import Rosebud.Lanes
import Rosebud.PipeRegister

/-! # The broadcast region of the data memory

The last `BC_REGION_SIZE` bytes of an RPU's data memory are shared with all other RPUs: a
store of the core into them is also sent as a message, and every other RPU writes the
message into its own memory.

* `rpu_controller` watches the stores of the core, makes the messages, and holds the core
  while a message cannot be sent (`Sender`);
* `rpu_intercon` drops the RPU's own messages when they come back, the wrapper registers
  the others, and `mem_sys` turns them back into a write of one line of one of its two
  memory banks (`Receiver`).

A message carries the word address inside the region only, and no byte offset.
`Access.lineWrite_bcMsgOut` says that nothing is lost by that: the line that is written at the
receiver, its strobes and its data are those of the store.

The test for the region is `addr > bc_start_addr`.  A store to the first word of the
region is therefore not sent (`first_word_not_broadcast`); all others are as they should
be (`broadcast_of_not_first`).
-/
namespace Rosebud.BroadcastRegion
open Clocked Lanes

/-- Sizes: a line of a memory bank has `2 ^ lineBits` bytes and the region `2 ^ (msgAw + 2)`,
which divides the size of the data memory.  `bcStartAddr` is the parameter
`BC_START_ADDR`, of which only the bits inside the data memory matter. -/
structure Config where
  dmemSize : Nat
  lineBits : Nat
  dmemAw : Nat
  msgAw : Nat
  coreIdWidth : Nat
  bcStartAddr : Nat
  two_le_lineBits : 2 ≤ lineBits
  lineBits_le : lineBits ≤ msgAw + 2
  lineBits_lt : lineBits < dmemAw
  dmemAw_le : dmemAw ≤ 23
  dmemSize_pos : 0 < dmemSize
  dmemSize_le : dmemSize ≤ 2 ^ dmemAw
  dvd_dmemSize : 2 ^ (msgAw + 2) ∣ dmemSize
  bcStartAddr_mod : bcStartAddr % 2 ^ dmemAw = dmemSize - 2 ^ (msgAw + 2)

namespace Config
variable (P : Config)

/-- Bytes in a line. -/
abbrev strbWidth : Nat := 2 ^ P.lineBits

abbrev lineAw : Nat := P.dmemAw - (P.lineBits + 1)

/-- The first byte of the region, in the data memory. -/
def regionStart : Nat := P.dmemSize - 2 ^ (P.msgAw + 2)

theorem regionSize_le : 2 ^ (P.msgAw + 2) ≤ P.dmemSize :=
  Nat.le_of_dvd P.dmemSize_pos P.dvd_dmemSize

theorem msgAw_le : P.msgAw + 2 ≤ P.dmemAw :=
  (Nat.pow_le_pow_iff_right (by decide)).1 (P.regionSize_le.trans P.dmemSize_le)

theorem regionStart_add : P.regionStart + 2 ^ (P.msgAw + 2) = P.dmemSize :=
  Nat.sub_add_cancel P.regionSize_le

theorem regionStart_lt : P.regionStart < 2 ^ P.dmemAw := by
  have hpos := Nat.two_pow_pos (P.msgAw + 2)
  have hle := P.dmemSize_le
  have hsub := P.regionStart_add
  omega

theorem dvd_regionStart : 2 ^ (P.msgAw + 2) ∣ P.regionStart :=
  Nat.dvd_sub P.dvd_dmemSize (Nat.dvd_refl _)

end Config

/-- An access of the core to the data memory: address, strobes and data are as the core's
bus has them. -/
structure Access where
  wen : Bool
  addr : BitVec 25
  strb : BitVec 4
  data : BitVec 32
deriving DecidableEq

/-- A message: `{word address in the region, strobes, data}`. -/
structure Msg (P : Config) where
  addr : BitVec P.msgAw
  strb : BitVec 4
  data : BitVec 32
deriving DecidableEq, Inhabited

/-- A write of some bytes of one line of a memory bank. -/
structure LineWrite (P : Config) where
  bank : Bool
  line : BitVec P.lineAw
  wen : BitVec P.strbWidth
  data : BitVec (8 * P.strbWidth)
deriving DecidableEq

variable {P : Config}

namespace Msg
variable (m : Msg P)

/-- The address of a message in the receiver's memory: `bc_msg_in_addr_rr`. -/
def dmemAddr : BitVec P.dmemAw :=
  (m.addr ++ (0 : BitVec 2)).setWidth P.dmemAw + BitVec.ofNat P.dmemAw P.bcStartAddr

def wordInLine : Nat := (m.addr.extractLsb' 0 (P.lineBits - 2)).toNat

/-- `bc_msg_in_strb_rr`. -/
def strbW : BitVec P.strbWidth := m.strb.setWidth P.strbWidth <<< (4 * m.wordInLine)

/-- `bc_msg_in_data_rr`. -/
def dataW : BitVec (8 * P.strbWidth) :=
  m.data.setWidth (8 * P.strbWidth) <<< (32 * m.wordInLine)

/-- What a message does to the memory of a receiver. -/
def lineWrite : LineWrite P where
  bank := m.dmemAddr.getLsbD P.lineBits
  line := m.dmemAddr.extractLsb' (P.lineBits + 1) P.lineAw
  wen := m.strbW
  data := m.dataW

end Msg

namespace Access
variable (P) (a : Access)

/-- The address inside the data memory. -/
def dmemAddr : BitVec P.dmemAw := a.addr.setWidth P.dmemAw

/-- The word of its line the access is to. -/
def wordInLine : Nat := (a.addr.extractLsb' 2 (P.lineBits - 2)).toNat

/-- What a store does to the memory of its own RPU: `core_dmem_strb_w`,
`core_dmem_wr_data_w` and the core's memory port. -/
def lineWrite : LineWrite P where
  bank := a.addr.getLsbD P.lineBits
  line := a.addr.extractLsb' (P.lineBits + 1) P.lineAw
  wen := a.strb.setWidth P.strbWidth <<< (4 * a.wordInLine P)
  data := a.data.setWidth (8 * P.strbWidth) <<< (32 * a.wordInLine P)

def bcMsgOut : Msg P where
  addr := a.addr.extractLsb' 2 P.msgAw
  strb := a.strb
  data := a.data

/-- The address is that of a byte of the data memory. -/
def InDmem : Prop := (a.dmemAddr P).toNat < P.dmemSize
deriving Decidable

/-- The address lies in the broadcast region. -/
def InRegion : Prop := P.regionStart ≤ (a.dmemAddr P).toNat ∧ (a.dmemAddr P).toNat < P.dmemSize
deriving Decidable

/-- What an access should send. -/
def broadcast : Option (Msg P) :=
  if a.wen = true ∧ a.InRegion P then some (a.bcMsgOut P) else none

/-- A store to the first byte of the region, or to the word that begins there. -/
def IsFirst : Prop := a.wen = true ∧ (a.dmemAddr P).toNat = P.regionStart
deriving Decidable

end Access

/-! ## The sender: `rpu_controller` and the wrapper's output register -/

/-- The register behind `bc_msg_out`, the accesses the core is still to make, those
committed, and the messages sent. -/
structure Sender (P : Config) where
  bcMsgOutReg : PipeRegister (Msg P)
  pending : List Access
  committed : List Access
  enqueued : List (Msg P)

/-- One cycle: whether the core makes its next access, what its bus carries otherwise, and
whether the message at the register's output is taken. -/
structure SendCycle where
  offer : Bool
  idle : Access
  bcMsgOutReady : Bool

namespace Sender
variable (s : Sender P) (c : SendCycle)

def dmemEn : Bool := (bus s.pending c.offer c.idle).1

def access : Access := (bus s.pending c.offer c.idle).2

def bcDmemStartAddr : BitVec P.dmemAw := BitVec.ofNat P.dmemAw P.regionStart

def bcMsgOutValid : Bool :=
  s.dmemEn c && (s.access c).wen && decide (bcDmemStartAddr < (s.access c).dmemAddr P)

def regInputs : PipeRegister.Inputs (Msg P) where
  rst := false
  dinValid := s.bcMsgOutValid c
  din := (s.access c).bcMsgOut P
  doutReady := c.bcMsgOutReady

def bcMsgOutReady : Bool := s.bcMsgOutReg.dinReady 2 (s.regInputs c)

def coreMemBcBlock : Bool := s.bcMsgOutValid c && !s.bcMsgOutReady c

def coreMemReady : Bool := !s.coreMemBcBlock c

def step : Sender P where
  bcMsgOutReg := s.bcMsgOutReg.next 2 (s.regInputs c)
  pending := rest s.pending (s.dmemEn c && s.coreMemReady c)
  committed := s.committed ++ if s.dmemEn c && s.coreMemReady c then [s.access c] else []
  enqueued :=
    s.enqueued ++
      if s.bcMsgOutValid c && s.bcMsgOutReady c then [(s.access c).bcMsgOut P] else []

/-- Nothing has been done; the register may hold messages of an earlier time. -/
structure Start (s : Sender P) (accesses : List Access) : Prop where
  pending : s.pending = accesses
  committed : s.committed = []
  enqueued : s.enqueued = []

end Sender

/-! ## The receiver: `rpu_intercon`, the wrapper's input register and `mem_sys` -/

/-- The data memory: bank, line and byte of the line. -/
abbrev Dmem (P : Config) := Bool → BitVec P.lineAw → Nat → BitVec 8

/-- One of the ports of the memory banks. -/
def Dmem.write (mem : Dmem P) (w : LineWrite P) : Dmem P := fun bank line i =>
  if bank = w.bank ∧ line = w.line ∧ w.wen.getLsbD i = true then lane w.data i
  else mem bank line i

def Dmem.writeIf (mem : Dmem P) : Option (LineWrite P) → Dmem P
  | none => mem
  | some w => mem.write w

/-- The registers a message passes, and the data memory. -/
structure Receiver (P : Config) where
  coreId : BitVec P.coreIdWidth
  bcMsgIn : Msg P
  bcMsgInValid : Bool
  bcMsgInReg : PipeRegister (Msg P)
  bcMsgInR : Msg P
  bcMsgInValidR : Bool
  bcMsgInAddrRr : BitVec P.dmemAw
  bcMsgInStrbRr : BitVec P.strbWidth
  bcMsgInDataRr : BitVec (8 * P.strbWidth)
  bcMsgInValidRr : Bool
  dmem : Dmem P

/-- One cycle: what comes from the network with the sender's id, the store of the
receiver's own core, and the write at the head of the DMA's queue. -/
structure RecvCycle (P : Config) where
  coreMsgIn : Msg P
  coreMsgInUser : BitVec P.coreIdWidth
  coreMsgInValid : Bool
  coreStore : Option Access
  dmaWrite : Option (LineWrite P)

namespace Receiver
variable (r : Receiver P) (c : RecvCycle P)

def regInputs : PipeRegister.Inputs (Msg P) where
  rst := false
  dinValid := r.bcMsgInValid
  din := r.bcMsgIn
  doutReady := true

/-- The write of the message that has arrived at the memory. -/
def bcWrite : Option (LineWrite P) :=
  if r.bcMsgInValidRr then
    some {
      bank := r.bcMsgInAddrRr.getLsbD P.lineBits
      line := r.bcMsgInAddrRr.extractLsb' (P.lineBits + 1) P.lineAw
      wen := r.bcMsgInStrbRr
      data := r.bcMsgInDataRr }
  else none

/-- The DMA writes to the banks the broadcast message leaves free. -/
def dmaGranted : Option (LineWrite P) :=
  c.dmaWrite.filter fun w => !(r.bcWrite.any fun m => m.bank == w.bank)

def step : Receiver P where
  coreId := r.coreId
  bcMsgIn := c.coreMsgIn
  bcMsgInValid := c.coreMsgInValid && decide (c.coreMsgInUser ≠ r.coreId)
  bcMsgInReg := r.bcMsgInReg.next 2 r.regInputs
  bcMsgInR := r.bcMsgInReg.dout 2 r.regInputs
  bcMsgInValidR := r.bcMsgInReg.doutValid 2 r.regInputs
  bcMsgInAddrRr := r.bcMsgInR.dmemAddr
  bcMsgInStrbRr := r.bcMsgInR.strbW
  bcMsgInDataRr := r.bcMsgInR.dataW
  bcMsgInValidRr := r.bcMsgInValidR
  dmem := ((r.dmem.writeIf r.bcWrite).writeIf (r.dmaGranted c)).writeIf
    (c.coreStore.map (Access.lineWrite P))

/-- Out of reset, when the wrapper's register accepts in every cycle. -/
def Running (r : Receiver P) : Prop := r.bcMsgInReg.nFull = true

end Receiver

/-! ## A message writes what the store wrote -/

section Address
variable (a : Access)

theorem Access.dmemAddr_toNat : (a.dmemAddr P).toNat = a.addr.toNat % 2 ^ P.dmemAw := by
  simp [dmemAddr]

/-- The word address in the message is the offset in the region. -/
theorem Access.four_mul_bcMsgOut_addr (h : a.InRegion P) :
    4 * (a.bcMsgOut P).addr.toNat + a.addr.toNat % 4 + P.regionStart = (a.dmemAddr P).toNat := by
  obtain ⟨hlow, hhigh⟩ := h
  have hword : (a.bcMsgOut P).addr.toNat = a.addr.toNat / 4 % 2 ^ P.msgAw := by
    simp [bcMsgOut, Nat.shiftRight_eq_div_pow]
  have hpow : 4 * 2 ^ P.msgAw = 2 ^ (P.msgAw + 2) := by rw [Nat.pow_add]; omega
  have hmod : 4 * (a.addr.toNat / 4 % 2 ^ P.msgAw) + a.addr.toNat % 4 =
      a.addr.toNat % 2 ^ (P.msgAw + 2) := by
    rw [← hpow, Nat.mod_mul, Nat.add_comm]
  have hdmem : (a.dmemAddr P).toNat % 2 ^ (P.msgAw + 2) = a.addr.toNat % 2 ^ (P.msgAw + 2) := by
    rw [a.dmemAddr_toNat, Nat.mod_mod_of_dvd _ (Nat.pow_dvd_pow 2 P.msgAw_le)]
  have hoff : (a.dmemAddr P).toNat % 2 ^ (P.msgAw + 2) = (a.dmemAddr P).toNat - P.regionStart := by
    have hadd := P.regionStart_add
    obtain ⟨k, hk⟩ := P.dvd_regionStart
    obtain ⟨off, hoff⟩ := Nat.exists_eq_add_of_le hlow
    rw [hoff, hk, Nat.mul_add_mod, Nat.mod_eq_of_lt (by omega)]
    omega
  rw [hword, hmod, ← hdmem, hoff, Nat.sub_add_cancel hlow]

/-- The receiver's address is that of the word the store went to. -/
theorem Access.bcMsgOut_dmemAddr (h : a.InRegion P) :
    (a.bcMsgOut P).dmemAddr.toNat + a.addr.toNat % 4 = (a.dmemAddr P).toNat := by
  have hoff := a.four_mul_bcMsgOut_addr h
  have hstart : (BitVec.ofNat P.dmemAw P.bcStartAddr).toNat = P.regionStart := by
    rw [BitVec.toNat_ofNat, P.bcStartAddr_mod, Config.regionStart]
  have happend : ((a.bcMsgOut P).addr ++ (0 : BitVec 2)).toNat =
      4 * (a.bcMsgOut P).addr.toNat := by
    rw [Lanes.toNat_append, BitVec.ofNat_eq_ofNat, BitVec.toNat_zero, Nat.add_zero]
    exact Nat.mul_comm _ 4
  rw [Msg.dmemAddr, BitVec.toNat_add, BitVec.toNat_setWidth, happend, hstart,
    Nat.mod_eq_of_lt (a := 4 * _) (by omega), Nat.mod_eq_of_lt (by omega)]
  omega

/-- From the third bit on, the two addresses agree. -/
theorem Access.getLsbD_bcMsgOut_dmemAddr (h : a.InRegion P) {j : Nat} (hj : 2 ≤ j)
    (hlt : j < P.dmemAw) : (a.bcMsgOut P).dmemAddr.getLsbD j = a.addr.getLsbD j := by
  have haddr := a.bcMsgOut_dmemAddr h
  have hdmem := a.dmemAddr_toNat (P := P)
  have hfour : (a.dmemAddr P).toNat % 4 = a.addr.toNat % 4 := by
    have hdvd : 2 ^ 2 ∣ 2 ^ P.dmemAw := Nat.pow_dvd_pow 2 (by omega)
    rw [hdmem, Nat.mod_mod_of_dvd _ (show 4 ∣ _ from hdvd)]
  have hdiv : (a.bcMsgOut P).dmemAddr.toNat / 2 ^ 2 = (a.dmemAddr P).toNat / 2 ^ 2 := by omega
  obtain ⟨k, rfl⟩ := Nat.exists_eq_add_of_le hj
  have hbit := congrArg (Nat.testBit · k) hdiv
  simp only [Nat.testBit_div_two_pow] at hbit
  have hset : (a.dmemAddr P).getLsbD (k + 2) = a.addr.getLsbD (k + 2) := by
    simp [dmemAddr, show k + 2 < P.dmemAw by omega]
  rw [Nat.add_comm 2 k, ← hset]
  exact hbit

theorem Access.bcMsgOut_wordInLine : (a.bcMsgOut P).wordInLine = a.wordInLine P := by
  have hle := P.lineBits_le
  have hdvd : 2 ^ (P.lineBits - 2) ∣ 2 ^ P.msgAw := Nat.pow_dvd_pow 2 (by omega)
  simp [Msg.wordInLine, wordInLine, bcMsgOut, Nat.mod_mod_of_dvd _ hdvd]

/-- **A message writes what the store wrote**: the same bytes of the same line of the same
bank, with the same data. -/
theorem Access.lineWrite_bcMsgOut (h : a.InRegion P) :
    (a.bcMsgOut P).lineWrite = a.lineWrite P := by
  have hline := P.two_le_lineBits
  have hlt := P.lineBits_lt
  have hbank := a.getLsbD_bcMsgOut_dmemAddr h hline hlt
  have hlines : (a.bcMsgOut P).dmemAddr.extractLsb' (P.lineBits + 1) P.lineAw =
      a.addr.extractLsb' (P.lineBits + 1) P.lineAw := by
    refine BitVec.eq_of_getLsbD_eq fun i hi => ?_
    have hin : i < P.dmemAw - (P.lineBits + 1) := hi
    have hbit := a.getLsbD_bcMsgOut_dmemAddr h (j := P.lineBits + 1 + i) (by omega) (by omega)
    simp [hi, hbit]
  have hword := a.bcMsgOut_wordInLine (P := P)
  simp only [Msg.lineWrite, lineWrite, Msg.strbW, Msg.dataW, hbank, hlines, hword]
  rfl

end Address

/-! ## The sender's run -/

section Send
variable {s : Sender P} {c : SendCycle}

/-- The controller's test is the right one away from the first byte of the region. -/
theorem bcDmemStartAddr_lt_iff {a : Access} (hmem : a.InDmem P) (hfirst : ¬ a.IsFirst P)
    (hwen : a.wen = true) :
    Sender.bcDmemStartAddr < a.dmemAddr P ↔ a.InRegion P := by
  have hstart : (Sender.bcDmemStartAddr (P := P)).toNat = P.regionStart := by
    rw [Sender.bcDmemStartAddr, BitVec.toNat_ofNat, Nat.mod_eq_of_lt P.regionStart_lt]
  have hne : (a.dmemAddr P).toNat ≠ P.regionStart := fun heq => hfirst ⟨hwen, heq⟩
  rw [BitVec.lt_def, hstart, Access.InRegion]
  unfold Access.InDmem at hmem
  omega

/-- A message is on offer if the access should send one. -/
theorem bcMsgOutValid_eq (hmem : (s.access c).InDmem P) (hfirst : ¬ (s.access c).IsFirst P) :
    s.bcMsgOutValid c = (s.dmemEn c && ((s.access c).broadcast P).isSome) := by
  unfold Sender.bcMsgOutValid Access.broadcast
  cases hwen : (s.access c).wen with
  | false => simp
  | true =>
    have htest := bcDmemStartAddr_lt_iff hmem hfirst hwen
    by_cases hin : (s.access c).InRegion P
    · simp [hin, htest.2 hin]
    · simp [hin, mt htest.1 hin]

/-- What an access sends is made of its own address, strobes and data. -/
theorem Access.bcMsgOut_of_broadcast {a : Access} {m : Msg P} (h : a.broadcast P = some m) :
    a.InRegion P ∧ a.bcMsgOut P = m := by
  unfold broadcast at h
  split at h
  · rename_i hin
    exact ⟨hin.2, Option.some.inj h⟩
  · cases h

/-- What has been sent is what the committed accesses should send, and what has been
committed is what the core no longer has to do. -/
structure Sender.Inv (s : Sender P) (accesses : List Access) : Prop where
  split : s.committed ++ s.pending = accesses
  enqueued : s.enqueued = s.committed.filterMap (Access.broadcast P)

theorem Sender.Inv.step {accesses : List Access} (h : s.Inv accesses)
    (hmem : ∀ a ∈ accesses, a.InDmem P) (hfirst : ∀ a ∈ accesses, ¬ a.IsFirst P) :
    (s.step c).Inv accesses := by
  rcases bus_cases s.pending c.offer c.idle with hidle | ⟨a, rest, hpending, -, hbus⟩
  · have hen : s.dmemEn c = false := by rw [Sender.dmemEn, hidle]
    have hvalid : s.bcMsgOutValid c = false := by simp [Sender.bcMsgOutValid, hen]
    exact ⟨by simpa [Sender.step, hen] using h.split,
      by simpa [Sender.step, hen, hvalid] using h.enqueued⟩
  · have hen : s.dmemEn c = true := by rw [Sender.dmemEn, hbus]
    have hacc : s.access c = a := by rw [Sender.access, hbus]
    have ha : a ∈ accesses := by rw [← h.split, hpending]; simp
    have hvalid := bcMsgOutValid_eq (s := s) (c := c) (hacc ▸ hmem a ha) (hacc ▸ hfirst a ha)
    rw [hen, hacc, Bool.true_and] at hvalid
    cases hb : a.broadcast P with
    | none =>
      -- no message, so nothing holds the access
      rw [hb] at hvalid
      have hready : s.coreMemReady c = true := by
        simp [Sender.coreMemReady, Sender.coreMemBcBlock, hvalid]
      exact ⟨by simpa [Sender.step, hen, hready, hacc, hpending] using h.split,
        by simp [Sender.step, hen, hready, hacc, hvalid, hb, h.enqueued]⟩
    | some m =>
      rw [hb] at hvalid
      obtain ⟨-, hm⟩ := Access.bcMsgOut_of_broadcast hb
      have hready : s.coreMemReady c = s.bcMsgOutReady c := by
        simp [Sender.coreMemReady, Sender.coreMemBcBlock, hvalid]
      cases hr : s.bcMsgOutReady c with
      | true =>
        exact ⟨by simpa [Sender.step, hen, hready, hr, hacc, hpending] using h.split,
          by simp [Sender.step, hen, hready, hr, hacc, hvalid, hm, hb, h.enqueued]⟩
      | false =>
        exact ⟨by simpa [Sender.step, hen, hready, hr] using h.split,
          by simpa [Sender.step, hen, hready, hr] using h.enqueued⟩

end Send

/-! ## The receiver's run -/

section Receive
variable {r : Receiver P} {c : RecvCycle P}

/-- The wrapper's register hands on in every cycle what it got in the cycle before. -/
theorem Receiver.Running.step (h : r.Running) :
    (r.step c).Running ∧ (r.step c).bcMsgInReg.nEmpty = r.bcMsgInValid ∧
      (r.bcMsgInValid = true → (r.step c).bcMsgInReg.doutReg = r.bcMsgIn) := by
  have hfull : r.bcMsgInReg.nFull = true := h
  cases he : r.bcMsgInReg.nEmpty <;> cases hv : r.bcMsgInValid <;>
    simp [Running, Receiver.step, PipeRegister.next, PipeRegister.nextSkid,
      PipeRegister.skidFlags, regInputs, hfull, he, hv]

/-- **A message is written four cycles after it came in**, unless it is the receiver's own:
then nothing is written for it. -/
theorem Receiver.bcWrite_run (h : r.Running) (c₀ c₁ c₂ c₃ : RecvCycle P)
    (hvalid : c₀.coreMsgInValid = true) :
    (run Receiver.step r [c₀, c₁, c₂, c₃]).bcWrite =
      if c₀.coreMsgInUser = r.coreId then none else some c₀.coreMsgIn.lineWrite := by
  obtain ⟨hrun, -, -⟩ := h.step (c := c₀)
  obtain ⟨-, hempty, hdout⟩ := hrun.step (c := c₁)
  have hmine : (r.step c₀).bcMsgInValid = decide (c₀.coreMsgInUser ≠ r.coreId) := by
    simp [step, hvalid]
  have hvalidRr : (run step r [c₀, c₁, c₂, c₃]).bcMsgInValidRr =
      decide (c₀.coreMsgInUser ≠ r.coreId) := by
    show ((r.step c₀).step c₁).bcMsgInReg.nEmpty = _
    rw [hempty, hmine]
  by_cases hown : c₀.coreMsgInUser = r.coreId
  · rw [bcWrite, hvalidRr]
    simp [hown]
  · have hmsg : ((r.step c₀).step c₁).bcMsgInReg.doutReg = c₀.coreMsgIn :=
      hdout (by simp [hmine, hown])
    rw [bcWrite, hvalidRr, if_neg hown]
    simp only [hown, ne_eq, not_false_eq_true, decide_true, if_true, Option.some.injEq]
    rw [← hmsg]
    rfl

/-- After the cycle in which a message is written, the receiver's memory has every byte of
it that its own core does not write in that cycle. -/
theorem Receiver.dmem_of_bcWrite {w : LineWrite P} (hw : r.bcWrite = some w) {i : Nat}
    (hi : w.wen.getLsbD i = true)
    (hcore : ∀ a, c.coreStore = some a → (a.lineWrite P).bank = w.bank →
      (a.lineWrite P).line = w.line → (a.lineWrite P).wen.getLsbD i = false) :
    (r.step c).dmem w.bank w.line i = lane w.data i := by
  have hbc : (r.dmem.writeIf r.bcWrite) w.bank w.line i = lane w.data i := by
    simp [hw, Dmem.writeIf, Dmem.write, hi]
  -- the DMA's write is held back if it is to the same bank
  have hdma : ((r.dmem.writeIf r.bcWrite).writeIf (r.dmaGranted c)) w.bank w.line i =
      lane w.data i := by
    cases hd : r.dmaGranted c with
    | none => simpa [Dmem.writeIf] using hbc
    | some d =>
      have hbank : d.bank ≠ w.bank := by
        have hfree := (Option.filter_eq_some_iff.1 hd).2
        simp only [hw, Option.any_some, Bool.not_eq_true', beq_eq_false_iff_ne] at hfree
        exact hfree.symm
      simp [Dmem.writeIf, Dmem.write, hbank.symm, ← hbc]
  cases hs : c.coreStore with
  | none => simpa [step, hs, Dmem.writeIf] using hdma
  | some a =>
    have hother : ¬ (w.bank = (a.lineWrite P).bank ∧ w.line = (a.lineWrite P).line ∧
        (a.lineWrite P).wen.getLsbD i = true) := by
      rintro ⟨hbank, hline, hwen⟩
      simp [hcore a hs hbank.symm hline.symm] at hwen
    simp only [step, hs, Option.map_some, Dmem.writeIf, Dmem.write, if_neg hother]
    exact hdma

end Receive

/-! ## The broadcast law -/

/-- **The broadcast law.**  If the core never stores to the first byte of the region, then in
every state of every run the messages sent are those of the committed stores into the
region, one for each and in order; and whoever receives the message of such a store writes
the bytes the store wrote, unless it is the sender itself, which writes nothing. -/
theorem broadcast_of_not_first {accesses : List Access} {s : Sender P} (hs : s.Start accesses)
    (hmem : ∀ a ∈ accesses, a.InDmem P) (hfirst : ∀ a ∈ accesses, ¬ a.IsFirst P)
    (cycles : List SendCycle) :
    let s' := run Sender.step s cycles
    s'.committed ++ s'.pending = accesses ∧
      s'.enqueued = s'.committed.filterMap (Access.broadcast P) ∧
      ∀ (a : Access) (m : Msg P), a.broadcast P = some m →
        ∀ (r : Receiver P), r.Running → ∀ c₀ c₁ c₂ c₃ : RecvCycle P,
          c₀.coreMsgInValid = true → c₀.coreMsgIn = m →
          let r' := run Receiver.step r [c₀, c₁, c₂, c₃]
          let w := a.lineWrite P
          r'.bcWrite = (if c₀.coreMsgInUser = r.coreId then none else some w) ∧
          (c₀.coreMsgInUser ≠ r.coreId → ∀ (c₄ : RecvCycle P) (i : Nat),
            w.wen.getLsbD i = true →
            (∀ a', c₄.coreStore = some a' → (a'.lineWrite P).bank = w.bank →
              (a'.lineWrite P).line = w.line → (a'.lineWrite P).wen.getLsbD i = false) →
            (r'.step c₄).dmem w.bank w.line i = lane w.data i) := by
  intro s'
  have hstart : s.Inv accesses :=
    ⟨by simp [hs.committed, hs.pending], by simp [hs.enqueued, hs.committed]⟩
  have hinv : s'.Inv accesses :=
    run_preserves (P := fun s => Sender.Inv s accesses)
      (fun _ _ h => h.step hmem hfirst) hstart cycles
  refine ⟨hinv.split, hinv.enqueued, fun a m ham r hr c₀ c₁ c₂ c₃ hvalid hmsg => ?_⟩
  intro r' w
  obtain ⟨hin, hm⟩ := Access.bcMsgOut_of_broadcast ham
  have hwrite : r'.bcWrite = if c₀.coreMsgInUser = r.coreId then none else some w := by
    rw [Receiver.bcWrite_run hr c₀ c₁ c₂ c₃ hvalid, hmsg, ← hm, a.lineWrite_bcMsgOut hin]
  refine ⟨hwrite, fun hother c₄ i hi hcore => ?_⟩
  rw [if_neg hother] at hwrite
  exact Receiver.dmem_of_bcWrite hwrite hi hcore

/-- The memories of the boards. -/
def board : Config where
  dmemSize := 32768
  lineBits := 4
  dmemAw := 15
  msgAw := 11
  coreIdWidth := 4
  bcStartAddr := 0x01000000 + 1048576 - 8192
  two_le_lineBits := by decide
  lineBits_le := by decide
  lineBits_lt := by decide
  dmemAw_le := by decide
  dmemSize_pos := by decide
  dmemSize_le := by decide
  dvd_dmemSize := by decide
  bcStartAddr_mod := by decide

/-- A store of a word. -/
def storeWord (addr : BitVec 25) (data : BitVec 32) : Access := ⟨true, addr, 0xF, data⟩

def sampleSender (accesses : List Access) : Sender board where
  bcMsgOutReg := ⟨true, false, false, true, ⟨0, 0, 0⟩, ⟨0, 0, 0⟩⟩
  pending := accesses
  committed := []
  enqueued := []

/-- A cycle in which the core makes its next access and a message is taken. -/
def offering : SendCycle := ⟨true, ⟨false, 0, 0, 0⟩, true⟩

/-- A store outside the region and one to its second word. -/
theorem broadcast_of_not_first_second :
    (run Sender.step (sampleSender [storeWord 0x805FFC 1, storeWord 0x806004 2])
      [offering, offering]).enqueued = [⟨1, 0xF, 2⟩] :=
  (broadcast_of_not_first (s := sampleSender [storeWord 0x805FFC 1, storeWord 0x806004 2])
    ⟨rfl, rfl, rfl⟩ (by decide +kernel) (by decide +kernel) [offering, offering]).2.1.trans
    (by decide +kernel)

/-- **A store to the first word of the region is committed and not sent.** -/
theorem first_word_not_broadcast :
    (storeWord 0x806000 7).InRegion board ∧
      (run Sender.step (sampleSender [storeWord 0x806000 7]) [offering]).committed =
        [storeWord 0x806000 7] ∧
      (run Sender.step (sampleSender [storeWord 0x806000 7]) [offering]).enqueued = [] := by
  decide +kernel

end Rosebud.BroadcastRegion
