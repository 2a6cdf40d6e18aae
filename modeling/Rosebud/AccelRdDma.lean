import Rosebud.BasicFifo
import Rosebud.Clocked
import Rosebud.MemoryWords
import Rosebud.Selectors

/-! # `single_accel_rd_dma`

The engine that reads a packet out of the packet memory for an accelerator.  A descriptor
names an address and a length; every word of the output takes the memory line its first byte
lies in and the line after it, which are in different banks and are read together.  A request
passes four registers on its way through the memory before its word is pushed to a queue
that cannot push back: a counter of the words under way stops the requests in time.

`Banks` is the memory as `mem_sys` has it, two banks of blocks; a read is registered by the
memory and once more behind it.  `accel_stop` gives up what is under way.

`underway` and `inHand` say what the registers stand for: the words on their way to the
output, and those of the descriptor in hand that have not been asked for.
-/
namespace Rosebud.AccelRdDma
open Clocked Lanes ByteStore

structure Config where
  maskBits : Nat
  memAddrWidth : Nat
  memSelBits : Nat
  lenWidth : Nat
  fifoLines : Nat
  maskBits_le : maskBits ≤ lenWidth
  one_lt_fifoLines : 1 < fifoLines

namespace Config
variable (P : Config)

/-- A line of the memory: its block, its place in a bank of the block, and the bank. -/
def lineAddrWidth : Nat := P.memSelBits + (P.memAddrWidth + 1)

def addrWidth : Nat := P.lineAddrWidth + P.maskBits

def lineCntWidth : Nat := P.lenWidth - P.maskBits

/-- `ADDR_WIDTH` of the output queue. -/
def fifoAddrWidth : Nat := clog2 P.fifoLines

theorem fifoAddrWidth_pos : 0 < P.fifoAddrWidth := clog2_pos P.one_lt_fifoLines

theorem maskBits_le_addrWidth : P.maskBits ≤ P.addrWidth := Nat.le_add_left _ _

end Config

variable {P : Config}

abbrev Line (P : Config) : Type := BitVec (8 * 2 ^ P.maskBits)

abbrev LineAddr (P : Config) : Type := BitVec P.lineAddrWidth

/-- The two banks, by block and line. -/
structure Banks (P : Config) where
  b1 : BitVec P.memSelBits → BitVec P.memAddrWidth → Line P
  b2 : BitVec P.memSelBits → BitVec P.memAddrWidth → Line P

structure Request (P : Config) where
  addr : BitVec P.addrWidth
  len : BitVec P.lenWidth

/-- A descriptor: at least one byte, and no more than the line counter can hold. -/
structure Desc (P : Config) extends Request P where
  len_pos : 0 < len.toNat
  len_le : len.toNat ≤ 2 ^ P.lenWidth - 2 ^ P.maskBits

/-- A word of the output. -/
structure Word (P : Config) where
  tfirst : Bool
  tlast : Bool
  tempty : BitVec P.maskBits
  tdata : Line P
deriving DecidableEq, Inhabited

/-- The registers that accompany a request through one stage of the memory: `mem_rd_*` with
their suffix, and the block selects, whose suffix is one `r` longer. -/
structure MemRd (P : Config) where
  offset : BitVec P.maskBits
  empty : BitVec P.maskBits
  last : Bool
  first : Bool
  bank : Bool
  valid : Bool
  b1Sel : BitVec P.memSelBits
  b2Sel : BitVec P.memSelBits
deriving Inhabited

structure Regs (P : Config) where
  accelStopR : Bool
  -- `act_mem`, the descriptor in hand
  actRdFirst : Bool
  actRdAddr : LineAddr P
  actRdCount : BitVec P.lineCntWidth
  actRdFinalEmpty : BitVec P.maskBits
  actRdOffset : BitVec P.maskBits
  actMemV : Bool
  -- the request to the memory
  memRd : MemRd P
  memB1RdEnN : BitVec P.memSelBits → Bool
  memB2RdEnN : BitVec P.memSelBits → Bool
  memB1RdAddrN : BitVec P.memAddrWidth
  memB2RdAddrN : BitVec P.memAddrWidth
  -- the outputs of the blocks, and the registers of `mem_sys` behind them
  accRdDataB1N : BitVec P.memSelBits → Line P
  accRdDataB2N : BitVec P.memSelBits → Line P
  accRdDataB1 : BitVec P.memSelBits → Line P
  accRdDataB2 : BitVec P.memSelBits → Line P
  memRdR : MemRd P
  memRdRr : MemRd P
  memRdValidRrr : Bool
  memRdRrr : Word P
  counter : BitVec (P.fifoAddrWidth + 1)
  accelFifo : BasicFifo P.fifoAddrWidth (Word P)
deriving Inhabited

structure Inputs (P : Config) where
  desc : Request P
  descValid : Bool
  accelStop : Bool
  mAxisTready : Bool

/-! ## The circuit -/

/-- The first line of a request. -/
def reqRdAddr (d : Request P) : LineAddr P := d.addr.extractLsb' P.maskBits P.lineAddrWidth

def reqRdOffset (d : Request P) : BitVec P.maskBits := d.addr.extractLsb' 0 P.maskBits

def remainderBytes (d : Request P) : BitVec P.maskBits := d.len.extractLsb' 0 P.maskBits

def reqRdCount (d : Request P) : BitVec P.lineCntWidth :=
  if remainderBytes d = 0 then d.len.extractLsb' P.maskBits P.lineCntWidth
  else d.len.extractLsb' P.maskBits P.lineCntWidth + 1

def reqRdFinalEmpty (d : Request P) : BitVec P.maskBits :=
  if remainderBytes d = 0 then 0 else BitVec.ofNat _ (2 ^ P.maskBits) - remainderBytes d

def memSel (a : LineAddr P) : BitVec P.memSelBits :=
  a.extractLsb' (P.memAddrWidth + 1) P.memSelBits

def memAddr (a : LineAddr P) : BitVec P.memAddrWidth := a.extractLsb' 1 P.memAddrWidth

section Wires
variable (r : Regs P) (i : Inputs P)

def actRdAddrN : LineAddr P := r.actRdAddr + 1

def actRdCountN : BitVec P.lineCntWidth := r.actRdCount - 1

def accelFifoReady : Bool := decide (r.counter.toNat < P.fifoLines)

def actRdLast : Bool := decide (r.actRdCount = 1)

def descReady : Bool := !r.actMemV || (actRdLast r && accelFifoReady r)

/-- A descriptor is taken. -/
def accepts : Bool := i.descValid && descReady r

/-- A line is asked for. -/
def issues : Bool := r.actMemV && accelFifoReady r

def actRdEmpty : BitVec P.maskBits := if actRdLast r then r.actRdFinalEmpty else 0

/-- The line of the odd and of the even one that is in bank 1. -/
def b1Line : LineAddr P := if r.actRdAddr.getLsbD 0 then actRdAddrN r else r.actRdAddr

def b2Line : LineAddr P := if r.actRdAddr.getLsbD 0 then r.actRdAddr else actRdAddrN r

def mAxisTvalid : Bool := r.accelFifo.doutValid

/-- A word of the output is taken. -/
def outputs : Bool := mAxisTvalid r && i.mAxisTready

def fifoInputs : BasicFifo.Inputs (Word P) where
  rst := false
  clear := r.accelStopR
  dinValid := r.memRdValidRrr
  din := r.memRdRrr
  doutReady := i.mAxisTready

/-- The word a request ends as, with the lines it has read. -/
def MemRd.word (m : MemRd P) (b1 b2 : Line P) : Word P where
  tfirst := m.first
  tlast := m.last
  tempty := m.empty
  tdata := if m.bank then window b1 b2 m.offset.toNat else window b2 b1 m.offset.toNat

/-- The registers after the clock edge, outside reset. -/
def next (mem : Banks P) : Regs P where
  accelStopR := if i.descValid then false else r.accelStopR || i.accelStop
  actRdFirst := if accepts r i then true else if issues r then false else r.actRdFirst
  actRdAddr :=
    if accepts r i then reqRdAddr i.desc
    else if issues r then actRdAddrN r
    else r.actRdAddr
  actRdCount :=
    if accepts r i then reqRdCount i.desc
    else if issues r then actRdCountN r
    else r.actRdCount
  actRdFinalEmpty := if accepts r i then reqRdFinalEmpty i.desc else r.actRdFinalEmpty
  actRdOffset := if accepts r i then reqRdOffset i.desc else r.actRdOffset
  actMemV :=
    if accepts r i then !r.accelStopR
    else if actRdLast r && accelFifoReady r then false
    else r.actMemV && !r.accelStopR
  memRd :=
    { offset := r.actRdOffset
      empty := actRdEmpty r
      last := actRdLast r
      first := r.actRdFirst
      bank := r.actRdAddr.getLsbD 0
      valid := issues r
      b1Sel := memSel (b1Line r)
      b2Sel := memSel (b2Line r) }
  memB1RdEnN := fun j => r.actMemV && decide (memSel (b1Line r) = j)
  memB2RdEnN := fun j => r.actMemV && decide (memSel (b2Line r) = j)
  memB1RdAddrN := memAddr (b1Line r)
  memB2RdAddrN := memAddr (b2Line r)
  accRdDataB1N := fun j =>
    if r.memB1RdEnN j then mem.b1 j r.memB1RdAddrN else r.accRdDataB1N j
  accRdDataB2N := fun j =>
    if r.memB2RdEnN j then mem.b2 j r.memB2RdAddrN else r.accRdDataB2N j
  accRdDataB1 := r.accRdDataB1N
  accRdDataB2 := r.accRdDataB2N
  memRdR := r.memRd
  memRdRr := r.memRdR
  memRdValidRrr := r.memRdRr.valid
  memRdRrr := r.memRdRr.word (r.accRdDataB1 r.memRdRr.b1Sel) (r.accRdDataB2 r.memRdRr.b2Sel)
  counter :=
    if r.accelStopR then 0
    else if outputs r i then (if issues r then r.counter else r.counter - 1)
    else if issues r then r.counter + 1
    else r.counter
  accelFifo := r.accelFifo.next (fifoInputs r i)

end Wires

/-! ## Lines and words -/

/-- The memory, by line. -/
def Banks.line (mem : Banks P) (a : LineAddr P) : Line P :=
  if a.getLsbD 0 then mem.b2 (memSel a) (memAddr a) else mem.b1 (memSel a) (memAddr a)

/-- The memory, by address. -/
def Banks.word (mem : Banks P) (a : BitVec P.addrWidth) : Line P :=
  mem.line (a.extractLsb' P.maskBits P.lineAddrWidth)

/-- The output data that begins in a line. -/
def Banks.across (mem : Banks P) (a : LineAddr P) (offset : BitVec P.maskBits) : Line P :=
  window (mem.line (a + 1)) (mem.line a) offset.toNat

/-- The words of `n` lines from `a` on. -/
def lineWords (mem : Banks P) (finalEmpty offset : BitVec P.maskBits) :
    Bool → LineAddr P → Nat → List (Word P)
  | _, _, 0 => []
  | first, a, n + 1 =>
    ⟨first, n == 0, if n == 0 then finalEmpty else 0, mem.across a offset⟩ ::
      lineWords mem finalEmpty offset false (a + 1) n

/-- The words of a descriptor. -/
def words (mem : Banks P) (d : Desc P) : List (Word P) :=
  lineWords mem (reqRdFinalEmpty d.toRequest) (reqRdOffset d.toRequest) true
    (reqRdAddr d.toRequest) (reqRdCount d.toRequest).toNat

@[simp] theorem length_lineWords (mem : Banks P) (finalEmpty offset : BitVec P.maskBits)
    (first : Bool) (a : LineAddr P) (n : Nat) :
    (lineWords mem finalEmpty offset first a n).length = n := by
  induction n generalizing first a with
  | zero => rfl
  | succ n ih => rw [lineWords, List.length_cons, ih]

/-! ## What is under way -/

section Underway
variable (mem : Banks P) (r : Regs P)

/-- The words of the requests in the memory, oldest first. -/
def inMemory : List (Word P) :=
  (if r.memRdRr.valid then
    [r.memRdRr.word (r.accRdDataB1 r.memRdRr.b1Sel) (r.accRdDataB2 r.memRdRr.b2Sel)] else []) ++
  ((if r.memRdR.valid then
    [r.memRdR.word (r.accRdDataB1N r.memRdR.b1Sel) (r.accRdDataB2N r.memRdR.b2Sel)] else []) ++
  (if r.memRd.valid then
    [r.memRd.word (mem.b1 r.memRd.b1Sel r.memB1RdAddrN) (mem.b2 r.memRd.b2Sel r.memB2RdAddrN)]
    else []))

/-- The words between the requests and the output queue, and those in it. -/
def flight : List (Word P) :=
  (if r.memRdValidRrr then [r.memRdRrr] else []) ++ inMemory mem r

def underway : List (Word P) := r.accelFifo.contents ++ flight mem r

/-- The word of the next line. -/
def nextWord : Word P where
  tfirst := r.actRdFirst
  tlast := actRdLast r
  tempty := actRdEmpty r
  tdata := mem.across r.actRdAddr r.actRdOffset

/-- The words of the descriptor in hand. -/
def inHand : List (Word P) :=
  if r.actMemV then
    lineWords mem r.actRdFinalEmpty r.actRdOffset r.actRdFirst r.actRdAddr r.actRdCount.toNat
  else []

/-- A request in the first stage enables the blocks it selects. -/
structure Enabled (r : Regs P) : Prop where
  b1 : r.memRd.valid = true → r.memB1RdEnN r.memRd.b1Sel = true
  b2 : r.memRd.valid = true → r.memB2RdEnN r.memRd.b2Sel = true

end Underway

section Pipeline
variable {mem : Banks P} {r : Regs P} {i : Inputs P}

theorem enabled_next : Enabled (next r i mem) := by
  constructor
  · intro hv
    have hact : r.actMemV = true := (Bool.and_eq_true_iff.mp hv).1
    simp [next, hact]
  · intro hv
    have hact : r.actMemV = true := (Bool.and_eq_true_iff.mp hv).1
    simp [next, hact]

theorem getLsbD_zero_add_one {w : Nat} (hw : 0 < w) (a : BitVec w) :
    (a + 1).getLsbD 0 = !a.getLsbD 0 := by
  rw [BitVec.getLsbD_add hw]
  simp [hw]

/-- The two banks together hold a line and the one after it. -/
theorem banks_across (m : MemRd P) (hbank : m.bank = r.actRdAddr.getLsbD 0)
    (hoffset : m.offset = r.actRdOffset) :
    (m.word (mem.b1 (memSel (b1Line r)) (memAddr (b1Line r)))
      (mem.b2 (memSel (b2Line r)) (memAddr (b2Line r)))).tdata =
      mem.across r.actRdAddr r.actRdOffset := by
  have hodd : (r.actRdAddr + 1).getLsbD 0 = !r.actRdAddr.getLsbD 0 :=
    getLsbD_zero_add_one (Nat.succ_pos _) _
  simp only [MemRd.word, hbank, hoffset, Banks.across, Banks.line, hodd, b1Line, b2Line, actRdAddrN]
  cases r.actRdAddr.getLsbD 0 with
  | true => rfl
  | false => rfl

/-- The request that is issued ends as the next word. -/
theorem word_issued :
    (next r i mem).memRd.word
      (mem.b1 (next r i mem).memRd.b1Sel (next r i mem).memB1RdAddrN)
      (mem.b2 (next r i mem).memRd.b2Sel (next r i mem).memB2RdAddrN) = nextWord mem r := by
  have hdata := @banks_across _ mem r (next r i mem).memRd rfl rfl
  exact congrArg (Word.mk r.actRdFirst (actRdLast r) (actRdEmpty r)) hdata

/-- A cycle moves the requests on and adds the one that is issued. -/
theorem flight_next (h : Enabled r) :
    flight mem (next r i mem) = inMemory mem r ++ if issues r then [nextWord mem r] else [] := by
  have hread : r.memRd.valid = true →
      (next r i mem).accRdDataB1N r.memRd.b1Sel = mem.b1 r.memRd.b1Sel r.memB1RdAddrN ∧
      (next r i mem).accRdDataB2N r.memRd.b2Sel = mem.b2 r.memRd.b2Sel r.memB2RdAddrN :=
    fun hv => ⟨if_pos (h.b1 hv), if_pos (h.b2 hv)⟩
  unfold flight inMemory
  rw [word_issued]
  change (if r.memRdRr.valid then _ else _) ++ ((if r.memRdR.valid then _ else _) ++
    ((if r.memRd.valid then _ else _) ++ (if issues r then _ else _))) = _
  cases hv : r.memRd.valid with
  | false => simp [next]
  | true =>
    obtain ⟨hb1, hb2⟩ := hread hv
    change _ ++ (_ ++ ([r.memRd.word ((next r i mem).accRdDataB1N r.memRd.b1Sel)
      ((next r i mem).accRdDataB2N r.memRd.b2Sel)] ++ _)) = _
    rw [hb1, hb2, List.append_assoc, List.append_assoc]
    rfl

end Pipeline

end Rosebud.AccelRdDma
