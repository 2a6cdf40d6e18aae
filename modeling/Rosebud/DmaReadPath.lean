import Rosebud.DmaRead
import Rosebud.DmaWritePath
import Rosebud.MemReads

/-! # The reads of the DMA engine, from `axis_dma` to the memories and back

A read request of `axis_dma` passes the skid buffer `dma_rd_reg` of the RPU's wrapper and
the queue of its memory, and its answer passes the registers behind the memory, a queue of
answers and the skid buffer `dma_rd_resp_reg`.  Nothing stops the memory from pushing an
answer: `rpu_intercon` only holds back new requests in the cycles in which `axis_dma` takes
no answer.

Two things make this safe.  `axis_dma` takes a descriptor when all answers for the one
before have come, so that all requests under way are for one memory.  And if it asks while
no answer is there to be taken, the answers have run dry: `dma_rd_resp_reg` is empty, so
the queue before it has one answer at most, and the other places on the way bound the rest
(`Steady.bound`).  There are never more than 8 requests under way for the data memory,
whose queue has 8 entries, and 11 for the packet memory, whose queue has 16.
-/
namespace Rosebud.DmaReadPath
open Clocked MemSys

variable {M : MemConfig}

/-- The read half of the DMA engine. -/
abbrev dma (M : MemConfig) : DmaRead.Config where
  maskBits := M.lineBits
  addrWidth := 26
  lenWidth := M.lenWidth
  destWidthOut := M.portWidth
  userWidthOut := M.tagWidth
  maskBits_le_addrWidth := M.lineBits_le_addrWidth
  maskBits_le_lenWidth := M.lineBits_le_lenWidth

/-- The read half, the skid buffers and the memories, with the requests `axis_dma` has got
rid of, the reads made at the memories with what was in the lines, and the answers
`axis_dma` has taken. -/
structure Bench (M : MemConfig) where
  regs : DmaRead.Regs (dma M)
  rdReg : PipeRegister (BitVec 26 × Bool)
  mem : MemSys M
  respReg : PipeRegister (Word M)
  accepted : List (BitVec 26)
  performed : List (Target × Word M)
  answers : List (Word M)

/-- The surroundings: send descriptors and the outgoing stream on one side, the writes of
the DMA, the core, the broadcast messages and the accelerators on the other. -/
structure Cycle (M : MemConfig) where
  sendDescValid : Bool
  sendDesc : DmaRead.Desc (dma M)
  mAxisTready : Bool
  mem : MemSys.Inputs M

namespace Bench
variable (b : Bench M) (c : Cycle M)

/-- `dma_rd_resp_ready`: low while a word waits on the outgoing stream. -/
def rdRespReady : Bool := !(DmaRead.mAxisTvalid b.regs && !c.mAxisTready)

/-- `dma_cmd_rd_en` needs `dma_rd_resp_ready`. -/
def rdRegInputs : PipeRegister.Inputs (BitVec 26 × Bool) where
  rst := false
  dinValid := DmaRead.memRdEn b.regs && b.rdRespReady c
  din := (b.regs.alignedRdAddr, DmaRead.memRdLast b.regs)
  doutReady := b.mem.dmaCmdRdReady

def respRegInputs : PipeRegister.Inputs (Word M) where
  rst := false
  dinValid := b.mem.dmaRdRespValid
  din := b.mem.dmaRdRespData
  doutReady := b.rdRespReady c

def dmaInputs : DmaRead.Inputs (dma M) where
  sendDescValid := c.sendDescValid
  sendDesc := c.sendDesc
  memRdReady := b.rdReg.dinReady 2 (b.rdRegInputs c) && b.rdRespReady c
  memRdData := b.respReg.dout 2 (b.respRegInputs c)
  memRdDataV := b.respReg.doutValid 2 (b.respRegInputs c)
  mAxisTready := c.mAxisTready

def memInputs : MemSys.Inputs M :=
  { c.mem with
    rst := false
    dmaCmdRdEn := b.rdReg.doutValid 2 (b.rdRegInputs c)
    dmaCmdRdAddr := (b.rdReg.dout 2 (b.rdRegInputs c)).1
    dmaRdRespReady := b.respReg.dinReady 2 (b.respRegInputs c) }

/-- The request that leaves `axis_dma`. -/
def asking : List (BitVec 26) :=
  if DmaRead.asks b.regs (b.dmaInputs c) then [b.regs.alignedRdAddr] else []

/-- The answer that `axis_dma` takes. -/
def answering : List (Word M) :=
  if DmaRead.receives b.regs (b.dmaInputs c) then [(b.dmaInputs c).memRdData] else []

def step : Bench M where
  regs := DmaRead.next b.regs (b.dmaInputs c)
  rdReg := b.rdReg.next 2 (b.rdRegInputs c)
  mem := b.mem.next (b.memInputs c)
  respReg := b.respReg.next 2 (b.respRegInputs c)
  accepted := b.accepted ++ b.asking c
  performed := b.performed ++ both b.mem.reading
  answers := b.answers ++ b.answering c

/-- Out of reset; data registers and memories hold anything. -/
structure Start : Prop where
  regs : DmaRead.Fresh ⟨b.regs, []⟩
  rdReg : b.rdReg.Fresh
  mem : b.mem.Fresh
  respReg : b.respReg.Fresh
  accepted : b.accepted = []
  performed : b.performed = []
  answers : b.answers = []

/-- The requests accepted whose reads have not been made, oldest first. -/
def queued : List (Target) :=
  both b.mem.requests ++ (b.rdReg.contents 2).map fun x => targetOf M x.1

/-- The lines read that `axis_dma` has not got, oldest first. -/
def held : List (Word M) :=
  b.respReg.contents 2 ++ both b.mem.responses ++ both b.mem.words

end Bench

/-! ## Descriptors in one memory -/

/-- The bytes of a descriptor lie in the data memory (`false`) or in the packet memory. -/
def Lies (M : MemConfig) (addr len : Nat) : Bool → Prop
  | false => addr + len ≤ 2 ^ M.dmemAw
  | true => 2 ^ 24 ≤ addr ∧ addr + len ≤ 2 ^ 24 + 2 ^ M.pmemAw

instance (addr len : Nat) : ∀ pm, Decidable (Lies M addr len pm)
  | false => inferInstanceAs (Decidable (_ ≤ _))
  | true => inferInstanceAs (Decidable (_ ∧ _))

/-- A descriptor that is taken lies in one memory. -/
def Bench.OneMemory (b : Bench M) (c : Cycle M) : Prop :=
  DmaRead.takesDesc b.regs (b.dmaInputs c) = true →
    Lies M c.sendDesc.addr.toNat c.sendDesc.len.toNat false ∨
      Lies M c.sendDesc.addr.toNat c.sendDesc.len.toNat true
deriving Decidable

/-- The addresses that are decoded for a memory. -/
def Window : Bool → Nat → Prop
  | false, a => a < 2 ^ 24
  | true, a => 2 ^ 24 ≤ a ∧ a < 2 ^ 25

theorem isPmem_of_window {pm : Bool} {addr : BitVec 26} (h : Window pm addr.toNat) :
    isPmem addr = pm ∧ isDmem addr = !pm := by
  unfold isPmem isDmem BitVec.getLsbD
  rw [Nat.testBit_eq_decide_div_mod_eq, Nat.testBit_eq_decide_div_mod_eq]
  cases pm with
  | false =>
    change addr.toNat < 2 ^ 24 at h
    have h24 : addr.toNat / 2 ^ 24 = 0 := by omega
    have h25 : addr.toNat / 2 ^ 25 = 0 := by omega
    rw [h24, h25]
    exact ⟨rfl, rfl⟩
  | true =>
    obtain ⟨hge, hlt⟩ : 2 ^ 24 ≤ addr.toNat ∧ addr.toNat < 2 ^ 25 := h
    have h24 : addr.toNat / 2 ^ 24 = 1 := by omega
    have h25 : addr.toNat / 2 ^ 25 = 0 := by omega
    rw [h24, h25]
    exact ⟨rfl, rfl⟩

theorem strbWidth_le (M : MemConfig) : 2 ^ M.lineBits ≤ 2 ^ 22 := by
  have hlt := M.lineBits_lt
  have hle := M.dmemAw_le
  exact Nat.pow_le_pow_right (by decide) (by omega)

theorem Window.lt {pm : Bool} {a : Nat} (h : Window pm a) : a < 2 ^ 25 := by
  cases pm with
  | false => exact Nat.lt_trans h (by decide)
  | true => exact h.2

/-- Addresses of memories do not wrap around. -/
theorem toNat_add_word {addr : BitVec 26} (h : addr.toNat < 2 ^ 25) :
    (addr + BitVec.ofNat 26 (2 ^ M.lineBits)).toNat = addr.toNat + 2 ^ M.lineBits := by
  have hW := strbWidth_le M
  rw [BitVec.toNat_add, BitVec.toNat_ofNat,
    Nat.mod_eq_of_lt (a := 2 ^ M.lineBits) (by omega), Nat.mod_eq_of_lt (by omega)]

/-- A descriptor asks for two words more than its length has full words at most. -/
theorem initWordCount_le (r : DmaRead.Regs (dma M)) :
    (DmaRead.initWordCount r).toNat ≤ r.sendLen.toNat / 2 ^ M.lineBits + 2 := by
  have hextra : (DmaRead.extraWords r).toNat ≤ 2 := by
    have hbit : ∀ x : BitVec 1, (x.setWidth 2 + 1).toNat ≤ 2 := by decide
    unfold DmaRead.extraWords
    split
    · decide
    · exact hbit _
  rw [DmaRead.initWordCount, BitVec.toNat_add, BitVec.extractLsb'_toNat,
    Nat.shiftRight_eq_div_pow, BitVec.toNat_setWidth]
  refine Nat.le_trans (Nat.mod_le _ _) (Nat.add_le_add (Nat.mod_le _ _) ?_)
  exact Nat.le_trans (Nat.mod_le _ _) hextra

/-- All words a descriptor asks for are in its memory's window, also the one past its end. -/
theorem window_of_lies (hpmem : M.pmemAw < 24) {r : DmaRead.Regs (dma M)} {pm : Bool}
    (h : Lies M r.sendBaseAddr.toNat r.sendLen.toNat pm) {j : Nat}
    (hj : j < (DmaRead.initWordCount r).toNat) :
    Window pm ((MemoryWords.align M.lineBits r.sendBaseAddr).toNat + j * 2 ^ M.lineBits) := by
  have hcount := initWordCount_le r
  have hW := strbWidth_le M
  have halign : (MemoryWords.align M.lineBits r.sendBaseAddr).toNat =
      r.sendBaseAddr.toNat / 2 ^ M.lineBits * 2 ^ M.lineBits := by
    have hle := Nat.div_mul_le_self r.sendBaseAddr.toNat (2 ^ M.lineBits)
    rw [MemoryWords.align, BitVec.toNat_shiftLeft, BitVec.toNat_ushiftRight,
      Nat.shiftRight_eq_div_pow, Nat.shiftLeft_eq,
      Nat.mod_eq_of_lt (Nat.lt_of_le_of_lt hle r.sendBaseAddr.isLt)]
  have hdown := Nat.div_mul_le_self r.sendBaseAddr.toNat (2 ^ M.lineBits)
  have hoffset : j * 2 ^ M.lineBits ≤ r.sendLen.toNat + 2 ^ M.lineBits := by
    have hlen := Nat.div_mul_le_self r.sendLen.toNat (2 ^ M.lineBits)
    calc j * 2 ^ M.lineBits
        ≤ (r.sendLen.toNat / 2 ^ M.lineBits + 1) * 2 ^ M.lineBits :=
          Nat.mul_le_mul_right _ (by omega)
      _ ≤ r.sendLen.toNat + 2 ^ M.lineBits := by
          rw [Nat.add_mul, Nat.one_mul]
          omega
  cases pm with
  | false =>
    have hlies : r.sendBaseAddr.toNat + r.sendLen.toNat ≤ 2 ^ M.dmemAw := h
    have hsize : 2 ^ M.dmemAw ≤ 2 ^ 23 := Nat.pow_le_pow_right (by decide) M.dmemAw_le
    change _ < 2 ^ 24
    omega
  | true =>
    obtain ⟨hge, hlies⟩ :
        2 ^ 24 ≤ r.sendBaseAddr.toNat ∧
          r.sendBaseAddr.toNat + r.sendLen.toNat ≤ 2 ^ 24 + 2 ^ M.pmemAw := h
    have hsize : 2 ^ M.pmemAw ≤ 2 ^ 23 := Nat.pow_le_pow_right (by decide) (by omega)
    -- the window starts at the start of a line
    have hstart : 2 ^ 24 ≤ r.sendBaseAddr.toNat / 2 ^ M.lineBits * 2 ^ M.lineBits := by
      have hlt := M.lineBits_lt
      have hle := M.dmemAw_le
      have hpow : 2 ^ 24 = 2 ^ (24 - M.lineBits) * 2 ^ M.lineBits := by
        rw [← Nat.pow_add, Nat.sub_add_cancel (by omega)]
      rw [hpow]
      apply Nat.mul_le_mul_right
      rw [Nat.le_div_iff_mul_le (Nat.two_pow_pos _), ← hpow]
      exact hge
    exact ⟨by omega, by omega⟩

/-- The read half asks for words in the window of one memory. -/
structure Aim (pm : Bool) (r : DmaRead.Regs (dma M)) : Prop where
  init : r.rdStateR = .init → Lies M r.sendBaseAddr.toNat r.sendLen.toNat pm
  proc : r.rdStateR = .proc → ∀ j < r.rdReqWordCount.toNat,
    Window pm (r.alignedRdAddr.toNat + j * 2 ^ M.lineBits)

theorem Aim.next (hpmem : M.pmemAw < 24) {pm : Bool} {r : DmaRead.Regs (dma M)}
    {i : DmaRead.Inputs (dma M)} (h : Aim pm r)
    (hlies : DmaRead.takesDesc r i = true →
      Lies M i.sendDesc.addr.toNat i.sendDesc.len.toNat pm) :
    Aim pm (DmaRead.next r i) := by
  cases hs : r.rdStateR with
  | idle =>
    constructor
    · intro hinit
      have hvalid : i.sendDescValid = true := by
        change DmaRead.nextRdState r i = _ at hinit
        rw [DmaRead.nextRdState, hs] at hinit
        by_contra hno
        simp [hno] at hinit
      have htakes : DmaRead.takesDesc r i = true := by
        simp [DmaRead.takesDesc, DmaRead.sendDescReady, hs, hvalid]
      simpa only [DmaRead.next, htakes, if_true] using hlies htakes
    · intro _ j hj
      simp [DmaRead.next, hs] at hj
  | init =>
    constructor
    · intro hinit
      change DmaRead.nextRdState r i = _ at hinit
      rw [DmaRead.nextRdState, hs] at hinit
      cases hd : r.toDrop <;> simp [hd] at hinit
    · intro _ j hj
      simp only [DmaRead.next, hs] at hj ⊢
      exact window_of_lies hpmem (h.init hs) hj
  | proc =>
    constructor
    · intro hinit
      change DmaRead.nextRdState r i = _ at hinit
      rw [DmaRead.nextRdState, hs] at hinit
      cases hp : DmaRead.pktSent r i <;> simp [hp] at hinit
    · intro _ j hj
      simp only [DmaRead.next, hs] at hj ⊢
      cases ha : DmaRead.asks r i with
      | false =>
        simp only [ha, Bool.false_eq_true, if_false] at hj ⊢
        exact h.proc hs j hj
      | true =>
        -- the address moves on by one word
        simp only [ha, if_true] at hj ⊢
        have hpos := DmaRead.toNat_pos_of_memRdEn (Bool.and_eq_true_iff.mp ha).1
        rw [DmaRead.toNat_sub_one rfl hpos] at hj
        have hfirst := (h.proc hs 0 hpos).lt
        rw [Nat.zero_mul, Nat.add_zero] at hfirst
        have hnext := h.proc hs (j + 1) (by omega)
        rw [Nat.add_mul, Nat.one_mul, Nat.add_comm (j * _), ← Nat.add_assoc] at hnext
        rw [toNat_add_word hfirst]
        exact hnext
  | err =>
    constructor
    · intro hinit
      simp [DmaRead.next, DmaRead.nextRdState, hs] at hinit
    · intro hproc
      simp [DmaRead.next, DmaRead.nextRdState, hs] at hproc

/-! ## The requests under way -/

section Invariant
variable {b : Bench M} {pm : Bool}

/-- The read half with the requests that are not answered. -/
def Bench.reader (b : Bench M) : DmaRead.Reader (dma M) :=
  ⟨b.regs, b.accepted.drop b.answers.length⟩

/-- A cycle as the read half sees it. -/
def Bench.env (b : Bench M) (c : Cycle M) : DmaRead.Env (dma M) where
  sendDescValid := c.sendDescValid
  sendDesc := c.sendDesc
  memRdReady := (b.dmaInputs c).memRdReady
  respond := (b.dmaInputs c).memRdDataV
  memRdData := (b.dmaInputs c).memRdData
  mAxisTready := c.mAxisTready

/-- The most requests that are under way for a memory. -/
def limit : Bool → Nat
  | false => 8
  | true => 11

/-- What holds while all requests under way are for one memory. -/
structure Steady (pm : Bool) (b : Bench M) : Prop where
  calm : DmaRead.Calm b.reader
  aim : Aim pm b.regs
  aimed : ∀ x ∈ b.rdReg.contents 2, Window pm x.1.toNat
  reads : b.mem.Reads
  others : b.mem.requests (!pm) = [] ∧ b.mem.words (!pm) = [] ∧ b.mem.responses (!pm) = []
  requested : b.accepted.map (targetOf M) = b.performed.map Prod.fst ++
    (b.mem.requests pm ++ (b.rdReg.contents 2).map fun x => targetOf M x.1)
  answered : b.performed.map Prod.snd =
    b.answers ++ (b.respReg.contents 2 ++ b.mem.responses pm ++ b.mem.words pm)
  bound : b.accepted.length ≤ b.answers.length + limit pm
  /-- When the skid buffer has run dry, the queue before it nearly has. -/
  dry : b.respReg.nEmpty = false → (b.mem.responses pm).length ≤ 1
  /-- Out of reset nothing is under way until the queues are ready. -/
  settled : b.accepted.length = b.answers.length ∨
    (b.mem.Open ∧ (b.respReg.nEmpty = false → b.respReg.nFull = true))

theorem skid_valid {α : Type} (s : PipeRegister α) : s.Valid 2 :=
  fun htype => absurd htype (by decide)

/-- The request that leaves the skid buffer. -/
def Bench.passing (b : Bench M) (c : Cycle M) : List (BitVec 26 × Bool) :=
  if b.rdReg.doutValid 2 (b.rdRegInputs c) && b.mem.dmaCmdRdReady then
    [b.rdReg.dout 2 (b.rdRegInputs c)]
  else []

theorem limit_le (pm : Bool) : limit pm ≤ respDepth pm := by
  cases pm <;> decide

/-- A request of `axis_dma` is taken by the skid buffer, and the other way round. -/
theorem Bench.asking_eq (b : Bench M) (c : Cycle M) : b.asking c =
    (if (b.rdRegInputs c).dinValid && b.rdReg.dinReady 2 (b.rdRegInputs c) then
      [(b.rdRegInputs c).din] else []).map Prod.fst := by
  have hasks : DmaRead.asks b.regs (b.dmaInputs c) =
      ((b.rdRegInputs c).dinValid && b.rdReg.dinReady 2 (b.rdRegInputs c)) := by
    change (_ && (b.rdReg.nFull && b.rdRespReady c)) = ((_ && b.rdRespReady c) && b.rdReg.nFull)
    rw [Bool.and_comm b.rdReg.nFull, Bool.and_assoc]
  rw [Bench.asking, hasks, apply_ite (List.map Prod.fst)]
  rfl

section Edge
variable (h : Steady pm b) (c : Cycle M)
include h

/-- The requests under way are somewhere. -/
theorem Steady.length_eq : b.accepted.length = b.answers.length +
    ((b.respReg.contents 2).length + (b.mem.responses pm).length + (b.mem.words pm).length +
      (b.mem.requests pm).length + (b.rdReg.contents 2).length) := by
  have hrequested := congrArg List.length h.requested
  have hanswered := congrArg List.length h.answered
  simp only [List.length_map, List.length_append] at hrequested hanswered
  omega

theorem Steady.open_of_lt (hlt : b.answers.length < b.accepted.length) :
    b.mem.Open ∧ (b.respReg.nEmpty = false → b.respReg.nFull = true) := by
  rcases h.settled with heq | hopen
  · omega
  · exact hopen

/-- An answer in the skid buffer is for a request under way. -/
theorem Steady.lt_of_nEmpty (hv : b.respReg.nEmpty = true) :
    b.answers.length < b.accepted.length := by
  obtain ⟨rest, hc⟩ := PipeRegister.contents_of_nEmpty (by decide : 1 < 2) hv
  have hlen := h.length_eq
  rw [hc, List.length_cons] at hlen
  omega

/-- **The circuit is the read half with its unanswered requests.** -/
theorem Steady.reader_step : (b.step c).reader = b.reader.step (b.env c) := by
  have hle : b.answers.length ≤ b.accepted.length := by
    have := h.length_eq
    omega
  have hwaiting : b.reader.waiting (b.env c).memRdReady =
      b.accepted.drop b.answers.length ++ b.asking c := rfl
  have hin : b.reader.inputs (b.env c) = b.dmaInputs c := by
    have hv : ((b.env c).respond && !(b.reader.waiting (b.env c).memRdReady).isEmpty) =
        (b.dmaInputs c).memRdDataV := by
      change (b.respReg.nEmpty && _) = b.respReg.nEmpty
      cases hn : b.respReg.nEmpty with
      | false => rfl
      | true =>
        have hne : b.accepted.drop b.answers.length ≠ [] := by
          rw [Ne, List.drop_eq_nil_iff]
          have := h.lt_of_nEmpty hn
          omega
        simp [hwaiting, hne]
    rw [DmaRead.Reader.inputs, hv]
    rfl
  have hout : (b.accepted ++ b.asking c).drop (b.answers ++ b.answering c).length =
      rest (b.accepted.drop b.answers.length ++ b.asking c)
        (DmaRead.receives b.regs (b.dmaInputs c)) := by
    rw [List.length_append, Bench.answering, ← List.drop_append_of_le_length hle]
    cases DmaRead.receives b.regs (b.dmaInputs c) with
    | false => rfl
    | true => exact (List.tail_drop ..).symm
  rw [DmaRead.Reader.step, hin, hwaiting]
  exact congrArg (DmaRead.Reader.mk _) hout

/-! ### One cycle -/

/-- The two queues do not wait for each other, but one of them is empty and ready. -/
theorem Steady.entering_eq :
    b.mem.entering (b.memInputs c) pm = (b.passing c).map (fun x => targetOf M x.1) ∧
      b.mem.entering (b.memInputs c) (!pm) = [] := by
  have hvalid : b.rdReg.doutValid 2 (b.rdRegInputs c) = b.rdReg.nEmpty := rfl
  have hdout : b.rdReg.dout 2 (b.rdRegInputs c) = b.rdReg.doutReg := rfl
  unfold Bench.passing
  cases hn : b.rdReg.nEmpty with
  | false =>
    have hen : (b.memInputs c).dmaCmdRdEn = false := hn
    cases pm <;> simp [entering, BasicFifo.enque, dmemRdInputs, pmemRdInputs, dmaDmemRdEn,
      dmaPmemRdEn, hen, hvalid, hn]
  | true =>
    have hen : (b.memInputs c).dmaCmdRdEn = true := hn
    obtain ⟨rest, hcontents⟩ := PipeRegister.contents_of_nEmpty (by decide : 1 < 2) hn
    have hwindow : Window pm b.rdReg.doutReg.1.toNat :=
      h.aimed _ (by rw [hcontents]; exact List.mem_cons_self)
    obtain ⟨hp, hd⟩ := isPmem_of_window hwindow
    have hlen := h.length_eq
    rw [hcontents, List.length_cons] at hlen
    have hother : b.mem.reqReady (!pm) = true := by
      refine (h.open_of_lt (by omega)).1.req _ ?_
      rw [h.others.1, List.length_nil]
      decide
    have haddr : (b.memInputs c).dmaCmdRdAddr = b.rdReg.doutReg.1 := rfl
    cases pm with
    | false =>
      have hready : b.mem.dmaPmemRdFifo.dinReady = true := hother
      cases hr : b.mem.dmaDmemRdFifo.dinReady <;>
        simp [entering, BasicFifo.enque, dmemRdInputs, pmemRdInputs, dmaDmemRdEn, dmaPmemRdEn,
          dmaCmdRdReady, targetOf_eq, hen, hvalid, hdout, hn, haddr, hp, hd, hready, hr]
    | true =>
      have hready : b.mem.dmaDmemRdFifo.dinReady = true := hother
      cases hr : b.mem.dmaPmemRdFifo.dinReady <;>
        simp [entering, BasicFifo.enque, dmemRdInputs, pmemRdInputs, dmaDmemRdEn, dmaPmemRdEn,
          dmaCmdRdReady, targetOf_eq, hen, hvalid, hdout, hn, haddr, hp, hd, hready, hr]

/-- **There is room for every answer.** -/
theorem Steady.room (harr : b.mem.arriving pm ≠ []) :
    b.mem.respReady pm = true := by
  have hlen := h.length_eq
  have hbound := h.bound
  have hlimit := limit_le pm
  have hwords := length_arriving_le (s := b.mem) pm
  have hpos := List.length_pos_iff.mpr harr
  exact (h.open_of_lt (by omega)).1.resp pm (by omega)

theorem Steady.arriving_other : b.mem.arriving (!pm) = [] := by
  have hle := length_arriving_le (s := b.mem) (!pm)
  rw [h.others.2.1] at hle
  exact List.length_eq_zero_iff.mp (Nat.le_zero.mp hle)

/-- The other memory does nothing. -/
theorem Steady.others_step : b.mem.reading (!pm) = [] ∧ b.mem.leaving (b.memInputs c) (!pm) = [] ∧
      (b.step c).mem.requests (!pm) = [] ∧ (b.step c).mem.words (!pm) = [] ∧
      (b.step c).mem.responses (!pm) = [] := by
  have hrst : (b.memInputs c).rst = false := rfl
  obtain ⟨hrequests, hwords, hresponses⟩ := h.others
  have harr := h.arriving_other
  have hr := requests_conservation h.reads hrst (!pm)
  rw [hrequests, (h.entering_eq c).2, List.append_nil] at hr
  obtain ⟨hreading, hrequests'⟩ := List.append_eq_nil_iff.mp hr.symm
  have hread := List.map_eq_nil_iff.mp hreading
  have hw := words_conservation h.reads hrst (!pm)
  rw [hwords, hread, List.map_nil, List.append_nil] at hw
  have ha := responses_conservation h.reads hrst (!pm) (fun hne => absurd harr hne)
  rw [hresponses, harr, List.append_nil] at ha
  obtain ⟨hleaving, hresponses'⟩ := List.append_eq_nil_iff.mp ha.symm
  exact ⟨hread, hleaving, hrequests', (List.append_eq_nil_iff.mp hw.symm).2, hresponses'⟩

theorem Steady.requested_step :
    (b.step c).accepted.map (targetOf M) = (b.step c).performed.map Prod.fst ++
      ((b.step c).mem.requests pm ++
        ((b.step c).rdReg.contents 2).map fun x => targetOf M x.1) := by
  have hread : both b.mem.reading = b.mem.reading pm := both_eq (h.others_step c).1
  have hmem := requests_conservation h.reads (i := b.memInputs c) rfl pm
  rw [(h.entering_eq c).1] at hmem
  have hreg := congrArg (List.map fun x : BitVec 26 × Bool => targetOf M x.1)
    (b.rdReg.conservation (i := b.rdRegInputs c) (skid_valid _) rfl)
  rw [List.map_append, List.map_append] at hreg
  have hall := append_handover hmem hreg
  have hasking : (b.asking c).map (targetOf M) =
      (if (b.rdRegInputs c).dinValid && b.rdReg.dinReady 2 (b.rdRegInputs c) then
        [(b.rdRegInputs c).din] else []).map fun x => targetOf M x.1 := by
    rw [b.asking_eq c, List.map_map]
    rfl
  change (b.accepted ++ b.asking c).map _ = (b.performed ++ both b.mem.reading).map _ ++ _
  rw [List.map_append, List.map_append, h.requested, hread, hasking, List.append_assoc, hall,
    List.append_assoc]
  rfl

theorem Steady.answered_step : (b.step c).performed.map Prod.snd = (b.step c).answers ++
      ((b.step c).respReg.contents 2 ++ (b.step c).mem.responses pm ++
        (b.step c).mem.words pm) := by
  obtain ⟨hread, hleaving, -⟩ := h.others_step c
  have hleave : (if b.mem.dmaRdRespValid && (b.memInputs c).dmaRdRespReady then
      [b.mem.dmaRdRespData] else []) = b.mem.leaving (b.memInputs c) pm := by
    rw [leaving_eq]
    exact both_eq (f := b.mem.leaving (b.memInputs c)) hleaving
  have hreg := b.respReg.conservation (i := b.respRegInputs c) (skid_valid _) rfl
  change _ ++ (if b.mem.dmaRdRespValid && (b.memInputs c).dmaRdRespReady then
    [b.mem.dmaRdRespData] else []) = b.answering c ++ _ at hreg
  rw [hleave] at hreg
  have hresp := responses_conservation h.reads (i := b.memInputs c) rfl pm h.room
  have hwords := words_conservation h.reads (i := b.memInputs c) rfl pm
  have hall := append_handover (append_handover hreg hresp) hwords
  change (b.performed ++ both b.mem.reading).map _ = (b.answers ++ b.answering c) ++ _
  rw [List.map_append, h.answered, both_eq hread, List.append_assoc b.answers, hall,
    ← List.append_assoc b.answers]
  rfl

/-- `axis_dma` asks in `RD_PROC` only. -/
theorem Steady.proc_of_memRdEn (hen : DmaRead.memRdEn b.regs = true) :
    b.regs.rdStateR = .proc := by
  by_contra hne
  have hpos := DmaRead.toNat_pos_of_memRdEn hen
  have hcounts := h.calm.counts
  have hrecv := (h.calm.parked hne).1
  change b.regs.rdReqWordCount.toNat + _ = _ at hcounts
  omega

theorem Steady.aimed_step : ∀ x ∈ (b.step c).rdReg.contents 2, Window pm x.1.toNat := by
  intro x hx
  have hreg := b.rdReg.conservation (i := b.rdRegInputs c) (skid_valid _) rfl
  have hmem : x ∈ b.rdReg.contents 2 ++
      (if (b.rdRegInputs c).dinValid && b.rdReg.dinReady 2 (b.rdRegInputs c) then
        [(b.rdRegInputs c).din] else []) := by
    rw [hreg]
    exact List.mem_append_right _ hx
  rcases List.mem_append.mp hmem with hold | hnew
  · exact h.aimed x hold
  · split at hnew
    · rename_i htaken
      rw [List.mem_singleton.mp hnew]
      have hen := (Bool.and_eq_true_iff.mp (Bool.and_eq_true_iff.mp htaken).1).1
      have hpos := DmaRead.toNat_pos_of_memRdEn hen
      have hwindow := h.aim.proc (h.proc_of_memRdEn hen) 0 hpos
      rw [Nat.zero_mul, Nat.add_zero] at hwindow
      exact hwindow
    · exact absurd hnew List.not_mem_nil

/-- What is under way without the answers in `dma_rd_resp_reg`, when that has run dry and
`dma_rd_reg` has room. -/
theorem Steady.under_way (hfull : b.rdReg.nFull = true) (hempty : b.respReg.nEmpty = false) :
    b.accepted.length < b.answers.length + limit pm := by
  have hlen := h.length_eq
  have hreg := PipeRegister.length_contents_of_nFull (by decide : 1 < 2) hfull
  have hdry := h.dry hempty
  rw [PipeRegister.contents_of_not_nEmpty (by decide) hempty, List.length_nil] at hlen
  cases pm with
  | false =>
    have hrequests := h.reads.length_requests_dmem
    have hwords := length_words_dmem (s := b.mem)
    change _ < _ + 8
    omega
  | true =>
    have hrequests := h.reads.length_requests_pmem
    have hwords := length_words_pmem (s := b.mem)
    change _ < _ + 11
    omega

theorem Steady.bound_step : (b.step c).accepted.length ≤ (b.step c).answers.length + limit pm := by
  have hbound := h.bound
  change (b.accepted ++ b.asking c).length ≤ (b.answers ++ b.answering c).length + _
  rw [List.length_append, List.length_append, Bench.asking, Bench.answering]
  cases ha : DmaRead.asks b.regs (b.dmaInputs c) with
  | false =>
    simp only [Bool.false_eq_true, if_false, List.length_nil]
    omega
  | true =>
    -- with a request, an answer is taken if one is there
    obtain ⟨hfull, hready⟩ :=
      Bool.and_eq_true_iff.mp (Bool.and_eq_true_iff.mp ha).2
    cases hn : b.respReg.nEmpty with
    | true =>
      have hreceives : DmaRead.receives b.regs (b.dmaInputs c) = true :=
        Bool.and_eq_true_iff.mpr ⟨hn, hready⟩
      simp only [hreceives, if_true, List.length_singleton]
      omega
    | false =>
      have hlt := h.under_way hfull hn
      simp only [if_true, List.length_singleton]
      omega

theorem Steady.dry_step (hempty : (b.step c).respReg.nEmpty = false) :
    ((b.step c).mem.responses pm).length ≤ 1 := by
  have hnil : b.mem.responses pm = [] := by
    rcases h.settled with heq | ⟨-, hflags⟩
    · have hlen := h.length_eq
      exact List.length_eq_zero_iff.mp (by omega)
    · cases hfull : b.respReg.nFull with
      | true =>
        have hidle := (PipeRegister.doutReg_of_empty_next (i := b.respRegInputs c)
          (by decide : 1 < 2) rfl hfull hempty).1
        exact h.reads.responses_eq_nil hidle pm
      | false =>
        have hkeep := PipeRegister.nEmpty_next_of_full (i := b.respRegInputs c)
          (by decide : 1 < 2) rfl hfull
        have hfalse := hflags (hkeep.symm.trans hempty)
        exact absurd (hfull.symm.trans hfalse) (by decide)
  have hresp := congrArg List.length
    (responses_conservation h.reads (i := b.memInputs c) rfl pm h.room)
  rw [hnil, List.nil_append, List.length_append] at hresp
  have harr := length_arriving (s := b.mem) pm
  change ((b.mem.next (b.memInputs c)).responses pm).length ≤ 1
  omega

end Edge

theorem Steady.step (hpmem : M.pmemAw < 24) (h : Steady pm b) {c : Cycle M}
    (hlies : DmaRead.takesDesc b.regs (b.dmaInputs c) = true →
      Lies M c.sendDesc.addr.toNat c.sendDesc.len.toNat pm) : Steady pm (b.step c) where
  calm := by
    rw [h.reader_step c]
    exact h.calm.step (b.env c)
  aim := h.aim.next hpmem hlies
  aimed := h.aimed_step c
  reads := h.reads.next rfl
  others := (h.others_step c).2.2
  requested := h.requested_step c
  answered := h.answered_step c
  bound := h.bound_step c
  dry := h.dry_step c
  settled := .inr ⟨h.reads.open_next rfl,
    PipeRegister.nFull_next_of_empty (by decide : 1 < 2) (i := b.respRegInputs c) rfl⟩

/-- Between two descriptors nothing is under way. -/
theorem Steady.idle (h : Steady pm b) (hidle : b.regs.rdStateR = .idle) :
    b.accepted.length = b.answers.length := by
  have hlen := h.length_eq
  have hcounts := h.calm.counts
  have hrecv := (h.calm.parked (by simp [Bench.reader, hidle])).1
  have hdrop : b.reader.outstanding.length = b.accepted.length - b.answers.length :=
    List.length_drop ..
  omega

/-- Between two descriptors the next one may be in either memory. -/
theorem Steady.switch (h : Steady pm b) (hidle : b.regs.rdStateR = .idle) (pm' : Bool) :
    Steady pm' b := by
  have heq := h.idle hidle
  have hlen := h.length_eq
  have hnil : ∀ q, b.mem.requests q = [] ∧ b.mem.words q = [] ∧ b.mem.responses q = [] := by
    intro q
    rcases Bool.eq_or_eq_not q pm with rfl | rfl
    · exact ⟨List.length_eq_zero_iff.mp (by omega), List.length_eq_zero_iff.mp (by omega),
        List.length_eq_zero_iff.mp (by omega)⟩
    · exact h.others
  have hreg : b.rdReg.contents 2 = [] := List.length_eq_zero_iff.mp (by omega)
  have hrequested := h.requested
  have hanswered := h.answered
  rw [(hnil pm).1] at hrequested
  rw [(hnil pm).2.1, (hnil pm).2.2] at hanswered
  exact
    { calm := h.calm
      aim := ⟨by simp [hidle], by simp [hidle]⟩
      aimed := by simp [hreg]
      reads := h.reads
      others := hnil _
      requested := by rw [(hnil pm').1]; exact hrequested
      answered := by rw [(hnil pm').2.1, (hnil pm').2.2]; exact hanswered
      bound := by omega
      dry := by simp [(hnil pm').2.2]
      settled := h.settled }

/-- **Whatever the descriptors, the requests under way are for one memory and are few.** -/
theorem Steady.exists_step (hpmem : M.pmemAw < 24) (h : ∃ pm, Steady pm b) {c : Cycle M}
    (hc : b.OneMemory c) : ∃ pm, Steady pm (b.step c) := by
  obtain ⟨pm, h⟩ := h
  cases htakes : DmaRead.takesDesc b.regs (b.dmaInputs c) with
  | false => exact ⟨pm, h.step hpmem (by simp [htakes])⟩
  | true =>
    have hidle : b.regs.rdStateR = .idle :=
      of_decide_eq_true (Bool.and_eq_true_iff.mp htakes).1
    obtain ⟨pm', hlies⟩ : ∃ pm', Lies M c.sendDesc.addr.toNat c.sendDesc.len.toNat pm' := by
      rcases hc htakes with hdmem | hpmem
      · exact ⟨false, hdmem⟩
      · exact ⟨true, hpmem⟩
    exact ⟨pm', (h.switch hidle pm').step hpmem fun _ => hlies⟩

theorem Bench.Start.steady (h : b.Start) (pm : Bool) : Steady pm b := by
  have hgnt := h.mem.dmaPmemRdGnt
  have hnil : ∀ q, b.mem.requests q = [] ∧ b.mem.words q = [] ∧ b.mem.responses q = [] := by
    rintro (_ | _)
    · exact ⟨by simp [requests, h.mem.dmaDmemRdFifo.contents_eq],
        by simp [words, arriving, h.mem.dmaDmemRdGntR],
        h.mem.dmaDmemRdRespFifo.contents_eq⟩
    · refine ⟨by simp [requests, h.mem.dmaPmemRdFifo.contents_eq, hgnt.1], ?_,
        h.mem.dmaPmemRdRespFifo.contents_eq⟩
      simp [words, arriving, thirdStage, secondStage, dmaPmemRdGntFin, hgnt]
  have hreader : b.reader = ⟨b.regs, []⟩ := by simp [Bench.reader, h.accepted]
  have hidle : b.regs.rdStateR = .idle := h.regs.rdStateR
  have hrd : b.rdReg.contents 2 = [] := h.rdReg.contents_eq
  have hresp : b.respReg.contents 2 = [] := h.respReg.contents_eq
  exact
    { calm := by rw [hreader]; exact h.regs.calm
      aim := ⟨by simp [hidle], by simp [hidle]⟩
      aimed := by simp [hrd]
      reads := h.mem.reads
      others := hnil _
      requested := by simp [h.accepted, h.performed, hrd, hnil]
      answered := by simp [h.answers, h.performed, hresp, hnil]
      bound := by simp [h.accepted]
      dry := by simp [hnil]
      settled := .inl (by rw [h.accepted, h.answers]; rfl) }

end Invariant

/-! ## Reads are made when the ports are free -/

section Progress
variable {b : Bench M} {pm : Bool} {c : Cycle M}

/-- No broadcast message, access of the core or write of the DMA has the bank of the next
read of a memory. -/
def Bench.PortFree (b : Bench M) (c : Cycle M) : Prop :=
  ∀ bank,
    (onBank M bank b.mem.dmaDmemRdFifo.dout = true →
      b.mem.bcOwns bank = false ∧ b.mem.dmemWrHead bank = false) ∧
    (onBank M bank b.mem.dmaPmemRdFifo.dout = true →
      coreOwns c.mem bank = false ∧ b.mem.pmemWrHead bank = false)
deriving Decidable

/-- How far the next read to be made has come: it is at the port of the packet memory, in a
queue, or still in the skid buffer. -/
def Bench.stage (b : Bench M) : Nat :=
  if b.mem.dmaPmemRdGntR then 0 else if both b.mem.requests ≠ [] then 1 else 2

/-- The steps the first `n` reads still have to make. -/
def Bench.rank (n : Nat) (b : Bench M) : Nat :=
  if n ≤ b.performed.length then 0 else 3 * (n - b.performed.length) - 2 + b.stage

theorem Bench.stage_le (b : Bench M) : b.stage ≤ 2 := by
  unfold stage
  split
  · decide
  · split <;> decide

theorem Bench.rank_le (n : Nat) (b : Bench M) : b.rank n ≤ 3 * (n - b.performed.length) := by
  have hstage := b.stage_le
  unfold rank
  split <;> omega

theorem or_of_bank {gnt : Bool → Bool} {bank : Bool} (h : gnt bank = true) :
    (gnt false || gnt true) = true := by
  cases bank with
  | false => rw [h, Bool.true_or]
  | true => rw [h, Bool.or_true]

/-- The head of the queue of a memory with a free port leaves it. -/
theorem Bench.PortFree.dmem_deque (h : b.PortFree c)
    (hv : b.mem.dmaDmemRdFifo.doutValid = true) :
    b.mem.dmaDmemRdFifo.deque (b.mem.dmemRdInputs (b.memInputs c)) = true := by
  have hbank := onBank_self (M := M) b.mem.dmaDmemRdFifo.dout
  obtain ⟨hbc, hwr⟩ := (h _).1 hbank
  have hgnt : b.mem.dmaDmemRdGnt (b.mem.dmaDmemRdFifo.dout.getLsbD M.lineBits) = true := by
    rw [dmaDmemRdGnt_eq, hbank, hv, hbc, hwr]
    rfl
  rw [dmaDmemRdFifo_deque]
  exact or_of_bank hgnt

theorem Bench.PortFree.pmem_deque (h : b.PortFree c)
    (hv : b.mem.dmaPmemRdFifo.doutValid = true) :
    b.mem.dmaPmemRdFifo.deque (b.mem.pmemRdInputs (b.memInputs c)) = true := by
  have hbank := onBank_self (M := M) b.mem.dmaPmemRdFifo.dout
  obtain ⟨hcore, hwr⟩ := (h _).2 hbank
  have hcore' : coreOwns (b.memInputs c) (b.mem.dmaPmemRdFifo.dout.getLsbD M.lineBits) = false :=
    hcore
  have hgnt : b.mem.dmaPmemRdGnt (b.memInputs c)
      (b.mem.dmaPmemRdFifo.dout.getLsbD M.lineBits) = true := by
    rw [dmaPmemRdGnt_eq, hbank, hv, hcore', hwr]
    rfl
  rw [dmaPmemRdFifo_deque]
  exact or_of_bank hgnt

/-- With a free port, a queued read is made or gets to the port. -/
theorem Bench.PortFree.advances (h : b.PortFree c) (hreads : b.mem.Reads)
    (hport : b.mem.dmaPmemRdGntR = false) (hq : b.mem.requests pm ≠ []) :
    b.mem.reading pm ≠ [] ∨ (b.step c).mem.dmaPmemRdGntR = true := by
  cases pm with
  | false =>
    have hne : b.mem.dmaDmemRdFifo.contents ≠ [] := fun hnil => hq (by simp [requests, hnil])
    have hv : b.mem.dmaDmemRdFifo.doutValid = true := by
      rw [hreads.dmemRd.doutValid_eq]
      simpa using hne
    left
    rw [reading_dmem _ (b.memInputs c), h.dmem_deque hv, if_pos rfl]
    exact List.cons_ne_nil _ _
  | true =>
    have hne : b.mem.dmaPmemRdFifo.contents ≠ [] :=
      fun hnil => hq (by simp [requests, hnil, hport])
    have hv : b.mem.dmaPmemRdFifo.doutValid = true := by
      rw [hreads.pmemRd.doutValid_eq]
      simpa using hne
    right
    change (!false && (b.mem.dmaPmemRdGnt _ false || b.mem.dmaPmemRdGnt _ true)) = true
    rw [← dmaPmemRdFifo_deque, h.pmem_deque hv]
    rfl

/-- A request in the skid buffer gets to an empty queue. -/
theorem Steady.entering_ne_nil (h : Steady pm b) (c : Cycle M)
    (hq : b.mem.requests pm = []) (hlt : b.performed.length < b.accepted.length) :
    b.mem.entering (b.memInputs c) pm ≠ [] := by
  have hrequested := congrArg List.length h.requested
  simp only [List.length_map, List.length_append, hq, List.length_nil] at hrequested
  have hanswered := congrArg List.length h.answered
  simp only [List.length_map, List.length_append] at hanswered
  have hopen := (h.open_of_lt (by omega)).1
  have hnil : ∀ p, b.mem.requests p = [] := by
    intro p
    rcases Bool.eq_or_eq_not p pm with rfl | rfl
    · exact hq
    · exact h.others.1
  have hready : b.mem.dmaCmdRdReady = true := by
    have hp := hopen.req true (by simp [hnil])
    have hd := hopen.req false (by simp [hnil])
    exact Bool.and_eq_true_iff.mpr ⟨hp, hd⟩
  have hne : b.rdReg.nEmpty = true := by
    apply PipeRegister.nEmpty_of_contents (by decide : 1 < 2)
    intro hnil
    rw [hnil, List.length_nil] at hrequested
    omega
  have hvalid : b.rdReg.doutValid 2 (b.rdRegInputs c) = true := hne
  rw [(h.entering_eq c).1, Bench.passing, hvalid, hready]
  exact List.cons_ne_nil _ _

/-- While no read is made, the next one comes nearer. -/
theorem Steady.stage_step (h : Steady pm b) (c : Cycle M) (hread : b.mem.reading pm = [])
    (hlt : b.performed.length < b.accepted.length) :
    (b.step c).stage + (if b.PortFree c then 1 else 0) ≤ b.stage := by
  obtain ⟨hother, -, hother', -⟩ := h.others_step c
  have hport : b.mem.dmaPmemRdGntR = false := by
    by_contra hgnt
    have hne : b.mem.reading true ≠ [] := by simp [reading, hgnt]
    cases pm with
    | false => exact hne hother
    | true => exact hne hread
  have hrequests : (b.step c).mem.requests pm =
      b.mem.requests pm ++ b.mem.entering (b.memInputs c) pm := by
    rw [requests_conservation h.reads rfl pm, hread]
    rfl
  have hboth : both b.mem.requests = b.mem.requests pm := both_eq h.others.1
  have hboth' : both (b.step c).mem.requests = (b.step c).mem.requests pm := both_eq hother'
  have hafter : (b.step c).mem.requests pm ≠ [] → (b.step c).stage ≤ 1 := by
    intro hne
    unfold Bench.stage
    rw [hboth', if_pos hne]
    split <;> decide
  by_cases hq : b.mem.requests pm = []
  · -- from the skid buffer to the queue
    have hstage : b.stage = 2 := by simp [Bench.stage, hport, hboth, hq]
    have hle := hafter (by
      rw [hrequests]
      exact List.append_ne_nil_of_right_ne_nil _ (h.entering_ne_nil c hq hlt))
    split <;> omega
  · -- from the queue to the port
    have hstage : b.stage = 1 := by simp [Bench.stage, hport, hboth, hq]
    have hle := hafter (by rw [hrequests]; exact List.append_ne_nil_of_left_ne_nil hq _)
    split
    · rename_i hfree
      rcases hfree.advances h.reads hport hq with hmade | hgnt
      · exact absurd hread hmade
      · have hzero : (b.step c).stage = 0 := by simp [Bench.stage, hgnt]
        omega
    · omega

/-- **A cycle never sets the first `n` reads back, and one with free ports brings them
forward.** -/
theorem Steady.rank_step (h : Steady pm b) (c : Cycle M) {n : Nat}
    (hn : n ≤ b.accepted.length) :
    (b.step c).rank n ≤ b.rank n - if b.PortFree c then 1 else 0 := by
  have hperformed : (b.step c).performed.length =
      b.performed.length + (b.mem.reading pm).length := by
    change (b.performed ++ both b.mem.reading).length = _
    rw [both_eq (h.others_step c).1, List.length_append]
  have hle := (b.step c).rank_le n
  by_cases hdone : n ≤ b.performed.length
  · have hdone' : (b.step c).rank n = 0 := if_pos (by omega)
    rw [hdone']
    exact Nat.zero_le _
  · have hrank : b.rank n = 3 * (n - b.performed.length) - 2 + b.stage := if_neg hdone
    by_cases hread : b.mem.reading pm = []
    · have hstage := h.stage_step c hread (by omega)
      rw [hread, List.length_nil, Nat.add_zero] at hperformed
      have hrank' : (b.step c).rank n =
          3 * (n - b.performed.length) - 2 + (b.step c).stage := by
        rw [Bench.rank, hperformed, if_neg hdone]
      omega
    · have hpos := List.length_pos_iff.mpr hread
      split <;> omega

end Progress

/-! ## Whole runs -/

section Runs
variable {b : Bench M}

/-- No answer is pushed to a full queue; the requests accepted are those performed and those
queued, in their order; and the lines read are those that came back and those held. -/
structure ReadsExact (b : Bench M) : Prop where
  dmemRoom : b.mem.dmaDmemRdGntR = true → b.mem.dmaDmemRdRespFifo.dinReady = true
  pmemRoom : b.mem.dmaPmemRdGntFin = true → b.mem.dmaPmemRdRespFifo.dinReady = true
  requested : b.accepted.map (targetOf M) = b.performed.map Prod.fst ++ b.queued
  answered : b.performed.map Prod.snd = b.answers ++ b.held

theorem Steady.readsExact {pm : Bool} (h : Steady pm b) : ReadsExact b := by
  have hroom : ∀ p, b.mem.arriving p ≠ [] → b.mem.respReady p = true := by
    intro p harr
    rcases Bool.eq_or_eq_not p pm with rfl | rfl
    · exact h.room harr
    · exact absurd h.arriving_other harr
  constructor
  · intro hpush
    exact hroom false (by simp [arriving, hpush])
  · intro hpush
    exact hroom true (by simp [arriving, hpush])
  · rw [h.requested, Bench.queued, both_eq h.others.1]
  · rw [h.answered, Bench.held, both_eq h.others.2.1, both_eq h.others.2.2]

/-- **Reads are answered once, in order and without loss.**  Whatever the descriptors, as
long as each lies in one memory, the stalls of the stream and the other users of the
memories: no queue of answers is pushed when it is full, every accepted request is
performed once and in order, and the answers are what was in the lines.  A request is
performed after as many cycles with free ports as it and those before it have steps to
make. -/
theorem reads_exact (hpmem : M.pmemAw < 24) (hs : b.Start) {cycles : List (Cycle M)}
    (hc : Meets Bench.step Bench.OneMemory b cycles) :
    ReadsExact (run Bench.step b cycles) ∧
      ∀ more, Meets Bench.step Bench.OneMemory (run Bench.step b cycles) more →
        3 * (run Bench.step b cycles).queued.length ≤
          tally Bench.step Bench.PortFree (run Bench.step b cycles) more →
        (run Bench.step b cycles).accepted.map (targetOf M) <+:
          (run Bench.step b (cycles ++ more)).performed.map Prod.fst := by
  have hsteady : ∃ pm, Steady pm (run Bench.step b cycles) :=
    run_invariant (P := fun s => ∃ pm, Steady pm s)
      (fun _ _ h hc => Steady.exists_step hpmem h hc) ⟨false, hs.steady false⟩ hc
  simp only [run_append]
  generalize run Bench.step b cycles = e at hsteady
  obtain ⟨pm, he⟩ := hsteady
  refine ⟨he.readsExact, ?_⟩
  intro more hmore hfree
  have hstart : (∃ pm, Steady pm e) ∧ e.accepted <+: e.accepted :=
    ⟨⟨pm, he⟩, List.prefix_rfl⟩
  have hinv : ∀ s c, ((∃ pm, Steady pm s) ∧ e.accepted <+: s.accepted) → s.OneMemory c →
      (∃ pm, Steady pm (s.step c)) ∧ e.accepted <+: (s.step c).accepted :=
    fun s c h hc => ⟨Steady.exists_step hpmem h.1 hc, h.2.trans (List.prefix_append _ _)⟩
  obtain ⟨⟨_, hend⟩, hlonger⟩ := run_invariant hinv hstart hmore
  have hrank := run_exhausts (D := Bench.PortFree) (m := Bench.rank e.accepted.length) hinv
    (by
      rintro s c ⟨⟨_, h⟩, hle⟩ -
      exact h.rank_step c hle.length_le) hstart hmore
  have hqueued := congrArg List.length he.readsExact.requested
  rw [List.length_map, List.length_append, List.length_map] at hqueued
  have hle := e.rank_le e.accepted.length
  -- all that was accepted before has been performed now
  have hdone : e.accepted.length ≤ (run Bench.step e more).performed.length := by
    by_contra hnot
    have hpos : 0 < (run Bench.step e more).rank e.accepted.length := by
      rw [Bench.rank, if_neg hnot]
      omega
    omega
  have hall := hend.readsExact.requested
  refine List.prefix_of_prefix_length_le (hlonger.map (targetOf M)) ?_ (by simpa using hdone)
  rw [hall]
  exact List.prefix_append _ _

end Runs

/-! ## A packet of three words -/

open DmaWritePath (board)

/-- A packet memory in which every line holds its number. -/
def numbered : MemSys board :=
  { (default : MemSys board) with
    pmem := fun bank sel line =>
      BitVec.ofNat _ (0xa0000000 + ((sel.toNat * 2 ^ 12 + line.toNat) * 2 + bank.toNat)) }

def afterReset : Bench board where
  regs := DmaRead.Reader.reset.regs
  rdReg := default
  mem := numbered
  respReg := default
  accepted := []
  performed := []
  answers := []

theorem afterReset_start : afterReset.Start where
  regs := ⟨rfl, rfl, rfl, rfl, rfl, rfl, rfl, rfl, rfl, rfl, rfl⟩
  rdReg := ⟨rfl, rfl, rfl, rfl⟩
  mem := { MemSys.Fresh.default with }
  respReg := ⟨rfl, rfl, rfl, rfl⟩
  accepted := rfl
  performed := rfl
  answers := rfl

/-- A cycle in which 40 bytes of the packet memory are to be sent. -/
def sending : Cycle board := ⟨true, ⟨0x1020104, 40, 0, 0⟩, true, DmaWritePath.offering.mem⟩

/-- A cycle without a descriptor. -/
def waiting : Cycle board := { sending with sendDescValid := false }

/-- After five cycles three lines have been asked for and none has been read; nine cycles
with free ports later all have, and what is in them has come back. -/
theorem reads_exact_packet :
    let e := run Bench.step afterReset (List.replicate 5 sending)
    let later := run Bench.step afterReset (List.replicate 5 sending ++ List.replicate 9 waiting)
    e.accepted = [0x1020100, 0x1020110, 0x1020120] ∧ e.queued.length = 3 ∧
      later.performed = [(.pmem 0x2010, 0xa0002010), (.pmem 0x2011, 0xa0002011),
        (.pmem 0x2012, 0xa0002012)] ∧
      later.answers = [0xa0002010, 0xa0002011, 0xa0002012] ∧ ReadsExact e ∧
      e.accepted.map (targetOf board) <+: later.performed.map Prod.fst := by
  have hone : Meets Bench.step Bench.OneMemory afterReset (List.replicate 5 sending) := by
    decide +kernel
  have hexact := reads_exact (M := board) (by decide) afterReset_start hone
  refine ⟨by decide +kernel, by decide +kernel, by decide +kernel, by decide +kernel, hexact.1, ?_⟩
  exact hexact.2 (List.replicate 9 waiting) (by decide +kernel) (by decide +kernel)

end Rosebud.DmaReadPath
