import Rosebud.BasicFifo
import Rosebud.Clocked
import Rosebud.DescParser
import Rosebud.OutDescPort
import Rosebud.PipeRegister

/-! # Descriptors for the DRAM, from the core to their queues

A descriptor for the DRAM crosses from the RPU to `rpu_intercon` in two beats, through the
output register of the wrapper.  The merger of `rpu_controller` remembers that it has sent
the first one, the parser of `rpu_intercon` that it has got it.

The two are reset differently.  `core_reset` clears the DRAM queues at once; one cycle
later, from the wrapper, it resets the core and the merger and empties the register; and
it leaves the parser as it is.  If the parser could be left with a first beat whose second
one is gone, it would take the next descriptor, of whatever type, for the DRAM address.

It cannot, because of that cycle: when the reset reaches the register the queues have just
been cleared and are not ready, so no first beat is taken; and the second beat always
comes in the cycle after the first.  So for every timing of the resets, each descriptor
for the DRAM is pushed once and whole (`dram_descriptors`).  The only thing that does
happen is that the second beat comes in the cycle after its queue was cleared, and is
offered to a queue that is not ready (`reset_with_first_beat`).
-/
namespace Rosebud.DramDescriptors
open Clocked OutDescPort DescParser

/-- The DRAM's port number, and the depth of the DRAM queues. -/
structure Config extends DescParser.Config where
  dramAw : Nat
  dramAw_pos : 0 < dramAw

/-- What the wrapper's register holds: `{out_desc_2nd, out_desc}`. -/
structure RegBeat where
  outDesc : BitVec 64
  outDesc2nd : Bool
deriving DecidableEq

/-- The type field of a header. -/
def hdrType (h : BitVec 64) : BitVec 4 := h.extractLsb' 60 4

/-- The beats a descriptor is sent in. -/
def beatsOf (d : Desc) : List RegBeat :=
  if d.isDram then [⟨d.hdr, false⟩, ⟨d.dramAddr, true⟩] else [⟨d.hdr, false⟩]

variable {P : Config}

variable (P) in
/-- The entry of `dram_send_fifo` for a descriptor. -/
def wrEntry (d : Desc) : Option (BitVec 128) :=
  if d.type = 4 then some (d.dramAddr ++ withDramPort P.toConfig d.hdr) else none

/-- The entry of `send_dram_ctrl_fifo` for a descriptor. -/
def rdEntry (d : Desc) : Option (BitVec 128) :=
  if d.type = 5 then some (d.dramAddr ++ d.hdr) else none

/-! ## The circuit -/

/-- The reset of the core in `rpu_intercon` and in the wrapper, the registers on the way,
and what has happened since the core was last in reset: the descriptors sent, each with
the header its first beat had, and the entries the two queues have taken. -/
structure Bench (P : Config) where
  coreResetR : Bool
  coreResetPr : Bool
  port : Port
  firstHdr : BitVec 64
  outDescReg : PipeRegister RegBeat
  parser : Regs
  dramSendFifo : BasicFifo P.dramAw (BitVec 128)
  sendDramCtrlFifo : BasicFifo P.dramAw (BitVec 128)
  issued : List Desc
  pushedWr : List (BitVec 128)
  pushedRd : List (BitVec 128)

/-- One cycle: the new value of `core_reset`, the core's next store, whether the queues of
the other types have room, and whether the DRAM queues are read. -/
structure Cycle where
  coreReset : Bool
  store : Option Store
  coreDataWrReady : Bool
  coreCtrlWrReady : Bool
  wrTaken : Bool
  rdTaken : Bool

namespace Bench
variable (b : Bench P) (c : Cycle)

/-- The beat the merger offers. -/
def merged : RegBeat :=
  ⟨if b.port.outDescState then b.port.core.desc.dramAddr else b.port.core.desc.hdr,
    b.port.outDescState⟩

/-- The beat at the parser, with the register's `dout_valid`. -/
def beat : Beat :=
  ⟨b.outDescReg.doutReg.outDesc, b.outDescReg.doutReg.outDesc2nd, b.outDescReg.nEmpty⟩

@[simp] theorem beat_outDesc : b.beat.outDesc = b.outDescReg.doutReg.outDesc := rfl

@[simp] theorem beat_outDesc2nd : b.beat.outDesc2nd = b.outDescReg.doutReg.outDesc2nd := rfl

@[simp] theorem beat_outDescValid : b.beat.outDescValid = b.outDescReg.nEmpty := rfl

def ready : Ready :=
  ⟨c.coreDataWrReady, c.coreCtrlWrReady, b.dramSendFifo.dinReady, b.sendDramCtrlFifo.dinReady⟩

def regInputs : PipeRegister.Inputs RegBeat where
  rst := b.coreResetPr
  dinValid := b.port.core.outDescVR
  din := b.merged
  doutReady := outDescReady b.beat (b.ready c)

/-- The register takes a beat. -/
def regReady : Bool := b.outDescReg.nFull

def wrInputs : BasicFifo.Inputs (BitVec 128) where
  rst := false
  clear := b.coreResetR
  dinValid := b.beat.outDescValid && b.parser.coreDramWrR
  din := dramDesc b.parser b.beat
  doutReady := c.wrTaken

def rdInputs : BasicFifo.Inputs (BitVec 128) where
  rst := false
  clear := b.coreResetR
  dinValid := b.beat.outDescValid && b.parser.coreDramRdR
  din := dramDesc b.parser b.beat
  doutReady := c.rdTaken

/-- The descriptor whose last beat the register takes. -/
def issues : List Desc :=
  if b.port.core.outDescVR && b.regReady && !b.port.firstBeat then
    [⟨if b.port.outDescState then b.firstHdr else b.port.core.desc.hdr,
      b.port.core.desc.dramAddr⟩]
  else []

/-- A log of what has happened since the core was last in reset. -/
def since {α : Type} (log new : List α) : List α := if b.coreResetPr then [] else log ++ new

def step : Bench P where
  coreResetR := c.coreReset
  coreResetPr := b.coreResetR
  port := b.port.next b.coreResetPr c.store b.regReady
  firstHdr := if b.port.outDescState then b.firstHdr else b.port.core.desc.hdr
  outDescReg := b.outDescReg.next 2 (b.regInputs c)
  parser := DescParser.next P.toConfig b.parser b.beat (b.ready c)
  dramSendFifo := b.dramSendFifo.next (b.wrInputs c)
  sendDramCtrlFifo := b.sendDramCtrlFifo.next (b.rdInputs c)
  issued := b.since b.issued b.issues
  pushedWr :=
    b.since b.pushedWr
      (if b.dramSendFifo.enque (b.wrInputs c) then [dramDesc b.parser b.beat] else [])
  pushedRd :=
    b.since b.pushedRd
      (if b.sendDramCtrlFifo.enque (b.rdInputs c) then [dramDesc b.parser b.beat] else [])

/-- Out of the reset of the whole chip; `core_reset` may be high or low. -/
structure Start (b : Bench P) : Prop where
  outDescVR : b.port.core.outDescVR = false
  outDescState : b.port.outDescState = false
  outDescReg : b.outDescReg.Fresh
  parser : Fresh b.parser
  dramSendFifo : b.dramSendFifo.Fresh
  sendDramCtrlFifo : b.sendDramCtrlFifo.Fresh
  issued : b.issued = []
  pushedWr : b.pushedWr = []
  pushedRd : b.pushedRd = []

/-- The first beat of the descriptor at the core's port, when the merger has sent it. -/
def started : List RegBeat := if b.port.outDescState then [⟨b.firstHdr, false⟩] else []

/-- The beat the register takes. -/
def accepted : List RegBeat :=
  if b.port.core.outDescVR && b.regReady then [b.merged] else []

/-- The beat the parser takes. -/
def sent : List RegBeat :=
  if b.outDescReg.nEmpty && outDescReady b.beat (b.ready c) then [b.outDescReg.doutReg] else []

end Bench

/-! ## The stream of beats -/

/-- A header of a descriptor for the DRAM. -/
def DramHdr (h : BitVec 64) : Prop := hdrType h = 4 ∨ hdrType h = 5

theorem isDram_iff (d : Desc) : d.isDram = true ↔ DramHdr d.hdr := by
  simp [Desc.isDram, DramHdr, Desc.type, hdrType]

/-- What may follow the beats of whole descriptors: nothing, or the first beat of one for
the DRAM. -/
def Unfinished (tail : List RegBeat) : Prop :=
  tail = [] ∨ ∃ h, DramHdr h ∧ tail = [⟨h, false⟩]

section Stream
variable {ds : List Desc} {tail rest : List RegBeat} {x y : RegBeat} {h : BitVec 64}

/-- A stream begins with a first beat. -/
theorem stream_first (htail : Unfinished tail) (heq : x :: rest = ds.flatMap beatsOf ++ tail) :
    x.outDesc2nd = false ∧ (DramHdr x.outDesc ∨ ∃ d ds', ds = d :: ds' ∧ d.hdr = x.outDesc ∧
      d.isDram = false ∧ rest = ds'.flatMap beatsOf ++ tail) := by
  cases ds with
  | nil =>
    obtain rfl | ⟨h, hdram, rfl⟩ := htail
    · simp at heq
    · obtain ⟨rfl, -⟩ : x = ⟨h, false⟩ ∧ rest = [] := by simpa using heq
      exact ⟨rfl, .inl hdram⟩
  | cons d ds =>
    cases hdram : d.isDram with
    | true =>
      obtain ⟨rfl, -⟩ : x = ⟨d.hdr, false⟩ ∧ _ := by simpa [beatsOf, hdram] using heq
      exact ⟨rfl, .inl ((isDram_iff d).1 hdram)⟩
    | false =>
      obtain ⟨rfl, hrest⟩ : x = ⟨d.hdr, false⟩ ∧ rest = ds.flatMap beatsOf ++ tail := by
        simpa [beatsOf, hdram] using heq
      exact ⟨rfl, .inr ⟨d, ds, rfl, rfl, hdram, hrest⟩⟩

/-- After the first beat of a descriptor for the DRAM comes its address. -/
theorem stream_second (hdram : DramHdr h) (htail : Unfinished tail)
    (heq : ⟨h, false⟩ :: y :: rest = ds.flatMap beatsOf ++ tail) :
    ∃ d ds', ds = d :: ds' ∧ d.hdr = h ∧ y = ⟨d.dramAddr, true⟩ ∧
      rest = ds'.flatMap beatsOf ++ tail := by
  cases ds with
  | nil => obtain rfl | ⟨h', -, rfl⟩ := htail <;> simp at heq
  | cons d ds =>
    have hhdr : d.hdr = h := by
      by_cases hd : d.isDram = true <;> simp [beatsOf, hd] at heq <;> simp [heq.1]
    have hd : d.isDram = true := (isDram_iff d).2 (hhdr ▸ hdram)
    obtain ⟨-, hy, hrest⟩ : _ ∧ y = ⟨d.dramAddr, true⟩ ∧ rest = ds.flatMap beatsOf ++ tail := by
      simpa [beatsOf, hd] using heq
    exact ⟨d, ds, rfl, hhdr, hy, hrest⟩

/-- A first beat alone is that of a descriptor whose second beat has not been sent. -/
theorem stream_alone (hdram : DramHdr h) (heq : [⟨h, false⟩] = ds.flatMap beatsOf ++ tail) :
    tail ≠ [] := by
  rintro rfl
  cases ds with
  | nil => simp at heq
  | cons d ds =>
    by_cases hd : d.isDram = true
    · simp [beatsOf, hd] at heq
    · have hhdr : h = d.hdr := by
        have := congrArg List.head? heq
        simpa [beatsOf, hd] using this
      exact hd ((isDram_iff d).2 (hhdr ▸ hdram))

end Stream

/-! ## The merger -/

/-- Once the merger has sent a first beat, the core's descriptor stays until the second is
taken; the first beat was that of a descriptor for the DRAM. -/
structure PortInv (b : Bench P) : Prop where
  outDescVR : b.port.outDescState = true → b.port.core.outDescVR = true
  firstHdr : b.port.outDescState = true → DramHdr b.firstHdr

section Merger
variable {b : Bench P} {c : Cycle}

theorem outDescVR_step (hrst : b.coreResetPr = false) (hv : b.port.core.outDescVR = true)
    (hready : b.port.coreDescReady b.regReady = false) :
    (b.step c).port.core.outDescVR = true := by
  simp [Bench.step, Port.next, CoreRegs.next, CoreRegs.nextV, hrst, hv, hready]

theorem outDescState_step (hrst : b.coreResetPr = false) :
    (b.step c).port.outDescState =
      if b.port.core.outDescVR && b.regReady then b.port.firstBeat else b.port.outDescState := by
  simp [Bench.step, Port.next, hrst]

theorem firstHdr_step : (b.step c).firstHdr =
    if b.port.outDescState then b.firstHdr else b.port.core.desc.hdr := rfl

theorem PortInv.step (h : PortInv b) (hrst : b.coreResetPr = false) : PortInv (b.step c) := by
  have hstate := outDescState_step (c := c) hrst
  by_cases hfirst : (b.port.core.outDescVR && b.regReady) = true
  · -- a beat is taken: the merger is in the middle only if it was a first one
    rw [if_pos hfirst] at hstate
    have hv := (Bool.and_eq_true_iff.1 hfirst).1
    refine ⟨fun hs => ?_, fun hs => ?_⟩
    · exact outDescVR_step hrst hv (by simp [Port.coreDescReady, ← hstate, hs])
    · obtain ⟨hnot, hdram⟩ : b.port.outDescState = false ∧ b.port.core.desc.isDram = true := by
        simpa [Port.firstBeat, hs] using hstate.symm
      rw [firstHdr_step, hnot]
      exact (isDram_iff _).1 hdram
  · rw [if_neg hfirst] at hstate
    refine ⟨fun hs => ?_, fun hs => ?_⟩
    · have hv := h.outDescVR (hstate ▸ hs)
      have hready : b.regReady = false := by simpa [hv] using hfirst
      exact outDescVR_step hrst hv (by simp [Port.coreDescReady, hready])
    · rw [firstHdr_step, if_pos (hstate ▸ hs)]
      exact h.firstHdr (hstate ▸ hs)

/-- **The merger sends each descriptor in its beats.** -/
theorem merger_beats (h : PortInv b) (hrst : b.coreResetPr = false) :
    b.started ++ b.accepted = b.issues.flatMap beatsOf ++ (b.step c).started := by
  have hstate := outDescState_step (c := c) hrst
  by_cases hbeat : (b.port.core.outDescVR && b.regReady) = true
  · cases hs : b.port.outDescState with
    | true =>
      -- the second beat
      have hfirst : b.port.firstBeat = false := by simp [Port.firstBeat, hs]
      have hdram := (isDram_iff ⟨b.firstHdr, b.port.core.desc.dramAddr⟩).2 (h.firstHdr hs)
      simp [Bench.started, Bench.accepted, Bench.merged, Bench.issues, hbeat, hs, hfirst, hstate,
        beatsOf, hdram]
    | false =>
      cases hdram : b.port.core.desc.isDram with
      | true =>
        have hfirst : b.port.firstBeat = true := by simp [Port.firstBeat, hs, hdram]
        simp [Bench.started, Bench.accepted, Bench.merged, Bench.issues, hbeat, hs, hfirst,
          hstate, firstHdr_step]
      | false =>
        have hfirst : b.port.firstBeat = false := by simp [Port.firstBeat, hdram]
        simp [Bench.started, Bench.accepted, Bench.merged, Bench.issues, hbeat, hs, hfirst,
          hstate, beatsOf, hdram]
  · cases hs : b.port.outDescState with
    | true => simp [Bench.started, Bench.accepted, Bench.issues, hbeat, hs, hstate, firstHdr_step]
    | false => simp [Bench.started, Bench.accepted, Bench.issues, hbeat, hs, hstate]

end Merger

/-! ## The parser -/

/-- What the parser has kept: nothing, or the first beat of a descriptor for the DRAM.  Its
second beat is then at the parser's input, and its queue has room unless the core is in
reset. -/
inductive Kept (b : Bench P) : List RegBeat → Prop where
  | none (hwr : b.parser.coreDramWrR = false) (hrd : b.parser.coreDramRdR = false) : Kept b []
  | wr (h : BitVec 64) (htype : hdrType h = 4) (hwr : b.parser.coreDramWrR = true)
      (hrd : b.parser.coreDramRdR = false)
      (hreg : b.parser.outDescR = withDramPort P.toConfig h) (hv : b.outDescReg.nEmpty = true)
      (hready : b.coreResetPr = false → b.dramSendFifo.dinReady = true) : Kept b [⟨h, false⟩]
  | rd (h : BitVec 64) (htype : hdrType h = 5) (hwr : b.parser.coreDramWrR = false)
      (hrd : b.parser.coreDramRdR = true) (hreg : b.parser.outDescR = h)
      (hv : b.outDescReg.nEmpty = true)
      (hready : b.coreResetPr = false → b.sendDramCtrlFifo.dinReady = true) : Kept b [⟨h, false⟩]

/-- What a run keeps: the descriptors issued since the last reset are those that have gone
through the parser, whose entries have been pushed, and those whose beats are still in the
register or kept by the parser; and the queues are not ready when the core is in reset. -/
structure Inv (b : Bench P) : Prop extends PortInv b where
  dramSendFifo : b.dramSendFifo.Valid
  sendDramCtrlFifo : b.sendDramCtrlFifo.Valid
  notReady : b.coreResetPr = true →
    b.dramSendFifo.dinReady = false ∧ b.sendDramCtrlFifo.dinReady = false
  stream : ∃ done flight kept, b.issued = done ++ flight ∧
    b.pushedWr = done.filterMap (wrEntry P) ∧ b.pushedRd = done.filterMap rdEntry ∧
    Kept b kept ∧ kept ++ b.outDescReg.contents 2 = flight.flatMap beatsOf ++ b.started

section Parser
variable {b : Bench P} {c : Cycle}

theorem PortInv.unfinished (h : PortInv b) : Unfinished b.started := by
  cases hs : b.port.outDescState with
  | false => exact .inl (by simp [Bench.started, hs])
  | true => exact .inr ⟨_, h.firstHdr hs, by simp [Bench.started, hs]⟩

theorem register_conservation (hrst : b.coreResetPr = false) :
    b.outDescReg.contents 2 ++ b.accepted = b.sent c ++ (b.step c).outDescReg.contents 2 := by
  have hvalid : b.outDescReg.Valid 2 := fun htype => absurd htype (by decide)
  have hcons := PipeRegister.conservation (i := b.regInputs c) hvalid hrst
  simpa [PipeRegister.dinReady, PipeRegister.doutValid, PipeRegister.dout, Bench.accepted,
    Bench.sent, Bench.step, Bench.regInputs, Bench.regReady] using hcons

/-- The parser takes nothing. -/
theorem parser_idle (h : taken b.beat (b.ready c) = false) : (b.step c).parser = b.parser := by
  simp [Bench.step, DescParser.next, h]

/-- The parser takes a second beat as soon as it comes, and is then done with the
descriptor. -/
theorem parser_second (hv : b.outDescReg.nEmpty = true)
    (h2nd : b.outDescReg.doutReg.outDesc2nd = true) :
    b.sent c = [b.outDescReg.doutReg] ∧ (b.step c).parser.coreDramWrR = false ∧
      (b.step c).parser.coreDramRdR = false := by
  have hready : outDescReady b.beat (b.ready c) = true := by
    simp [outDescReady, h2nd]
  have htaken : taken b.beat (b.ready c) = true := by
    simp [taken, hready, hv]
  refine ⟨by simp [Bench.sent, hv, hready], ?_, ?_⟩
  · simp [Bench.step, DescParser.next, htaken, coreDramWr, h2nd]
  · simp [Bench.step, DescParser.next, htaken, coreDramRd, h2nd]

/-- The registers after a first beat has been taken. -/
theorem parser_first (htaken : taken b.beat (b.ready c) = true)
    (h2nd : b.outDescReg.doutReg.outDesc2nd = false) :
    (b.step c).parser =
      ⟨if hdrType b.outDescReg.doutReg.outDesc = 4
        then withDramPort P.toConfig b.outDescReg.doutReg.outDesc
        else b.outDescReg.doutReg.outDesc,
        decide (hdrType b.outDescReg.doutReg.outDesc = 4),
        decide (hdrType b.outDescReg.doutReg.outDesc = 5)⟩ := by
  have hwr : coreDramWr b.beat = decide (hdrType b.outDescReg.doutReg.outDesc = 4) := by
    rw [coreDramWr, Bench.beat_outDesc2nd, h2nd, Bool.not_false, Bool.and_true]
    rfl
  have hrd : coreDramRd b.beat = decide (hdrType b.outDescReg.doutReg.outDesc = 5) := by
    rw [coreDramRd, Bench.beat_outDesc2nd, h2nd, Bool.not_false, Bool.and_true]
    rfl
  simp only [Bench.step, DescParser.next, htaken, if_true, hwr, hrd, decide_eq_true_eq,
    Bench.beat_outDesc]

/-- A first beat is taken only if its queue has room. -/
theorem room_of_first (hready : outDescReady b.beat (b.ready c) = true)
    (h2nd : b.outDescReg.doutReg.outDesc2nd = false) :
    (hdrType b.outDescReg.doutReg.outDesc = 4 → b.dramSendFifo.dinReady = true) ∧
      (hdrType b.outDescReg.doutReg.outDesc = 5 → b.sendDramCtrlFifo.dinReady = true) := by
  have htype : outDescType b.beat = hdrType b.outDescReg.doutReg.outDesc := rfl
  refine ⟨fun h => ?_, fun h => ?_⟩
  all_goals
    rw [h] at htype
    simpa [outDescReady, coreDataWr, coreCtrlWr, coreDramWr, coreDramRd, htype, h2nd,
      Bench.ready] using hready

/-- The queues take nothing in a cycle in which the parser has kept nothing. -/
theorem enque_of_none (hwr : b.parser.coreDramWrR = false) (hrd : b.parser.coreDramRdR = false) :
    b.dramSendFifo.enque (b.wrInputs c) = false ∧
      b.sendDramCtrlFifo.enque (b.rdInputs c) = false := by
  simp [BasicFifo.enque, Bench.wrInputs, Bench.rdInputs, hwr, hrd]

/-- A queue that takes nothing and is not cleared keeps its room. -/
theorem room_step (hinv : Inv b) (hclear : b.coreResetR = false)
    (henque : b.dramSendFifo.enque (b.wrInputs c) = false ∧
      b.sendDramCtrlFifo.enque (b.rdInputs c) = false) :
    (b.dramSendFifo.dinReady = true → (b.step c).dramSendFifo.dinReady = true) ∧
      (b.sendDramCtrlFifo.dinReady = true → (b.step c).sendDramCtrlFifo.dinReady = true) := by
  refine ⟨fun hready => ?_, fun hready => ?_⟩
  · exact BasicFifo.dinReady_next hinv.dramSendFifo (i := b.wrInputs c)
      (by simp [Bench.wrInputs, hclear]) hready henque.1
  · exact BasicFifo.dinReady_next hinv.sendDramCtrlFifo (i := b.rdInputs c)
      (by simp [Bench.rdInputs, hclear]) hready henque.2

/-- The beat after a first beat is the second one. -/
theorem second_of_kept {h : BitVec 64} {flight : List Desc} (hinv : PortInv b)
    (hdram : DramHdr h) (hv : b.outDescReg.nEmpty = true)
    (heq : ⟨h, false⟩ :: b.outDescReg.contents 2 = flight.flatMap beatsOf ++ b.started) :
    b.outDescReg.doutReg.outDesc2nd = true := by
  obtain ⟨rest, hcontents⟩ := PipeRegister.contents_of_nEmpty Nat.one_lt_two hv
  rw [hcontents] at heq
  obtain ⟨d, -, -, -, hy, -⟩ := stream_second hdram hinv.unfinished heq
  rw [hy]

/-- **The second beat follows the first at once**: when the parser takes a first beat, the
register takes or already has the second. -/
theorem nEmpty_of_first {ds : List Desc} (hinv : PortInv b) (hrst : b.coreResetPr = false)
    (hv : b.outDescReg.nEmpty = true) (hsent : b.sent c = [b.outDescReg.doutReg])
    (h2nd : b.outDescReg.doutReg.outDesc2nd = false)
    (hdram : DramHdr b.outDescReg.doutReg.outDesc)
    (heq : b.outDescReg.doutReg :: (b.step c).outDescReg.contents 2 =
      ds.flatMap beatsOf ++ (b.step c).started) : (b.step c).outDescReg.nEmpty = true := by
  refine PipeRegister.nEmpty_of_contents Nat.one_lt_two fun hnil => ?_
  have hbeat : b.outDescReg.doutReg = ⟨b.outDescReg.doutReg.outDesc, false⟩ := by rw [← h2nd]
  -- else the register had the first beat alone and was offered nothing
  obtain ⟨rest, hcontents⟩ := PipeRegister.contents_of_nEmpty (α := RegBeat) Nat.one_lt_two hv
  have hcons := register_conservation (c := c) hrst
  rw [hsent, hnil, hcontents] at hcons
  obtain ⟨hrest, haccepted⟩ : rest = [] ∧ b.accepted = [] := by simpa using hcons
  rw [hrest] at hcontents
  have hready : b.regReady = true := PipeRegister.nFull_of_singleton Nat.one_lt_two hcontents
  have hidle : b.port.core.outDescVR = false := by
    by_contra hne
    simp [Bench.accepted, hready, Bool.not_eq_false _ ▸ hne] at haccepted
  -- but the merger is in the middle of a descriptor
  rw [hnil, hbeat] at heq
  have hstate : (b.step c).port.outDescState = true := by
    by_contra hne
    exact stream_alone hdram heq (by simp [Bench.started, hne])
  rw [outDescState_step hrst, hidle, Bool.false_and] at hstate
  simp [hinv.outDescVR (by simpa using hstate)] at hidle

/-- What a cycle of the parser does with the descriptors `ds` whose beats were in flight:
the first few are done with, and their entries pushed. -/
def Moves (b : Bench P) (c : Cycle) (ds : List Desc) : Prop :=
  ∃ done flight kept, ds = done ++ flight ∧
    (if b.dramSendFifo.enque (b.wrInputs c) then [dramDesc b.parser b.beat] else []) =
      done.filterMap (wrEntry P) ∧
    (if b.sendDramCtrlFifo.enque (b.rdInputs c) then [dramDesc b.parser b.beat] else []) =
      done.filterMap rdEntry ∧
    Kept (b.step c) kept ∧
    kept ++ (b.step c).outDescReg.contents 2 = flight.flatMap beatsOf ++ (b.step c).started

/-- The parser has kept a first beat: it takes the second and is done. -/
theorem moves_second {h : BitVec 64} {flight ds : List Desc} (hinv : PortInv b)
    (hdram : DramHdr h) (hv : b.outDescReg.nEmpty = true)
    (htail : Unfinished (b.step c).started)
    (hbefore : ⟨h, false⟩ :: b.outDescReg.contents 2 = flight.flatMap beatsOf ++ b.started)
    (hwr : ∀ d, d.hdr = h → b.outDescReg.doutReg.outDesc = d.dramAddr →
      (if b.dramSendFifo.enque (b.wrInputs c) then [dramDesc b.parser b.beat] else []) =
        (wrEntry P d).toList)
    (hrd : ∀ d, d.hdr = h → b.outDescReg.doutReg.outDesc = d.dramAddr →
      (if b.sendDramCtrlFifo.enque (b.rdInputs c) then [dramDesc b.parser b.beat] else []) =
        (rdEntry d).toList)
    (heq : ⟨h, false⟩ :: (b.sent c ++ (b.step c).outDescReg.contents 2) =
      ds.flatMap beatsOf ++ (b.step c).started) : Moves b c ds := by
  obtain ⟨hsent, hwr', hrd'⟩ :=
    parser_second (c := c) hv (second_of_kept hinv hdram hv hbefore)
  rw [hsent] at heq
  obtain ⟨d, ds', rfl, hhdr, hy, hrest⟩ := stream_second hdram htail heq
  have hdata : b.outDescReg.doutReg.outDesc = d.dramAddr := by rw [hy]
  refine ⟨[d], ds', [], rfl, ?_, ?_, .none hwr' hrd', hrest⟩
  · rw [hwr d hhdr hdata]
    cases hentry : wrEntry P d <;> simp [hentry]
  · rw [hrd d hhdr hdata]
    cases hentry : rdEntry d <;> simp [hentry]

/-- The parser has kept nothing: it may take a first beat. -/
theorem moves_first {ds : List Desc} (hinv : Inv b) (hrst : b.coreResetPr = false)
    (hwr : b.parser.coreDramWrR = false) (hrd : b.parser.coreDramRdR = false)
    (htail : Unfinished (b.step c).started)
    (heq : b.sent c ++ (b.step c).outDescReg.contents 2 =
      ds.flatMap beatsOf ++ (b.step c).started) : Moves b c ds := by
  have henque := enque_of_none (c := c) hwr hrd
  by_cases htaken : taken b.beat (b.ready c) = true
  · have hboth : b.outDescReg.nEmpty = true ∧ outDescReady b.beat (b.ready c) = true := by
      simpa [taken] using htaken
    have hsent : b.sent c = [b.outDescReg.doutReg] := by simp [Bench.sent, hboth]
    rw [hsent] at heq
    obtain ⟨h2nd, hdram | ⟨d, ds', rfl, hhdr, hnot, hrest⟩⟩ := stream_first htail heq
    · have hroom := fun hclear => room_step (c := c) hinv hclear henque
      have hfirst := room_of_first hboth.2 h2nd
      have hparser := parser_first htaken h2nd
      have hv := nEmpty_of_first hinv.toPortInv hrst hboth.1 hsent h2nd hdram heq
      have hbeat : b.outDescReg.doutReg = ⟨b.outDescReg.doutReg.outDesc, false⟩ := by
        rw [← h2nd]
      rw [hbeat] at heq
      have hkept : Kept (b.step c) [⟨b.outDescReg.doutReg.outDesc, false⟩] := by
        obtain h4 | h5 := hdram
        · exact .wr _ h4 (by simp [hparser, h4]) (by simp [hparser, h4]) (by simp [hparser, h4]) hv
            fun hclear => (hroom hclear).1 (hfirst.1 h4)
        · exact .rd _ h5 (by simp [hparser, h5]) (by simp [hparser, h5]) (by simp [hparser, h5]) hv
            fun hclear => (hroom hclear).2 (hfirst.2 h5)
      exact ⟨[], ds, _, rfl, by simp [henque.1], by simp [henque.2], hkept, heq⟩
    · have hparser := parser_first htaken h2nd
      have htype : hdrType b.outDescReg.doutReg.outDesc ≠ 4 ∧
          hdrType b.outDescReg.doutReg.outDesc ≠ 5 := by
        rw [← hhdr]
        simpa [Desc.isDram, Desc.type, hdrType] using hnot
      have hentry : wrEntry P d = none ∧ rdEntry d = none := by
        simpa [wrEntry, rdEntry, Desc.isDram] using hnot
      exact ⟨[d], ds', [], rfl, by simp [henque.1, hentry], by simp [henque.2, hentry],
        .none (by rw [hparser]; exact decide_eq_false htype.1)
          (by rw [hparser]; exact decide_eq_false htype.2), hrest⟩
  · have hidle := parser_idle (c := c) (by simpa using htaken)
    have hsent : b.sent c = [] := by simpa [Bench.sent, taken] using htaken
    rw [hsent] at heq
    exact ⟨[], ds, [], rfl, by simp [henque.1], by simp [henque.2],
      .none (by rw [hidle, hwr]) (by rw [hidle, hrd]), heq⟩

/-- A cycle of the parser, whatever it has kept. -/
theorem Kept.moves {kept : List RegBeat} {flight ds : List Desc} (hkept : Kept b kept)
    (hinv : Inv b) (hrst : b.coreResetPr = false) (htail : Unfinished (b.step c).started)
    (hbefore : kept ++ b.outDescReg.contents 2 = flight.flatMap beatsOf ++ b.started)
    (heq : kept ++ (b.sent c ++ (b.step c).outDescReg.contents 2) =
      ds.flatMap beatsOf ++ (b.step c).started) : Moves b c ds := by
  cases hkept with
  | none hwr hrd => exact moves_first hinv hrst hwr hrd htail heq
  | wr h htype hwr hrd hreg hv hready =>
    refine moves_second hinv.toPortInv (.inl htype) hv htail hbefore (fun d hd hdata => ?_)
      (fun d hd _ => ?_) heq
    all_goals have hd4 : d.type = 4 := by rw [Desc.type, hd]; exact htype
    · simp [BasicFifo.enque, Bench.wrInputs, hv, hwr, hready hrst, wrEntry, hd4, hd, dramDesc,
        hreg, hdata]
    · simp [BasicFifo.enque, Bench.rdInputs, hrd, rdEntry, hd4]
  | rd h htype hwr hrd hreg hv hready =>
    refine moves_second hinv.toPortInv (.inr htype) hv htail hbefore (fun d hd _ => ?_)
      (fun d hd hdata => ?_) heq
    all_goals have hd5 : d.type = 5 := by rw [Desc.type, hd]; exact htype
    · simp [BasicFifo.enque, Bench.wrInputs, hwr, wrEntry, hd5]
    · simp [BasicFifo.enque, Bench.rdInputs, hv, hrd, hready hrst, rdEntry, hd5, hd, dramDesc,
        hreg, hdata]

/-- While the core is in reset, no first beat is taken: the parser ends with nothing kept. -/
theorem Kept.reset {kept : List RegBeat} {flight : List Desc} (hkept : Kept b kept)
    (hinv : Inv b) (hrst : b.coreResetPr = true)
    (hbefore : kept ++ b.outDescReg.contents 2 = flight.flatMap beatsOf ++ b.started) :
    Kept (b.step c) [] := by
  have hsecond : b.outDescReg.nEmpty = true → b.outDescReg.doutReg.outDesc2nd = true →
      Kept (b.step c) [] := fun hv h2nd =>
    have hparser := parser_second (c := c) hv h2nd
    .none hparser.2.1 hparser.2.2
  cases hkept with
  | none hwr hrd =>
    cases htaken : taken b.beat (b.ready c) with
    | false =>
      rw [← parser_idle htaken] at hwr hrd
      exact .none hwr hrd
    | true =>
      have hboth : b.outDescReg.nEmpty = true ∧ outDescReady b.beat (b.ready c) = true := by
        simpa [taken] using htaken
      cases h2nd : b.outDescReg.doutReg.outDesc2nd with
      | true => exact hsecond hboth.1 h2nd
      | false =>
        have hfirst := room_of_first hboth.2 h2nd
        have hparser := parser_first htaken h2nd
        obtain ⟨hwr', hrd'⟩ := hinv.notReady hrst
        refine .none ?_ ?_
        · rw [hparser]
          exact decide_eq_false fun h4 => by simp [hfirst.1 h4] at hwr'
        · rw [hparser]
          exact decide_eq_false fun h5 => by simp [hfirst.2 h5] at hrd'
  | wr h htype hwr hrd hreg hv hready =>
    exact hsecond hv (second_of_kept hinv.toPortInv (.inl htype) hv hbefore)
  | rd h htype hwr hrd hreg hv hready =>
    exact hsecond hv (second_of_kept hinv.toPortInv (.inr htype) hv hbefore)

end Parser

/-! ## Runs -/

section Run
variable {b : Bench P} {c : Cycle}

/-- The queues are cleared in the cycle before the core is reset. -/
theorem Inv.notReady_step (hclear : (b.step c).coreResetPr = true) :
    (b.step c).dramSendFifo.dinReady = false ∧ (b.step c).sendDramCtrlFifo.dinReady = false := by
  have hreset : b.coreResetR = true := hclear
  simp [Bench.step, BasicFifo.next, BasicFifo.dinReady, Bench.wrInputs, Bench.rdInputs, hreset]

/-- A cycle outside the core's reset. -/
theorem Inv.step_running (h : Inv b) (hrst : b.coreResetPr = false) : Inv (b.step c) := by
  have hport := h.toPortInv.step (c := c) hrst
  obtain ⟨done, flight, kept, hissued, hwr, hrd, hkept, hstream⟩ := h.stream
  have hmerger := merger_beats (c := c) h.toPortInv hrst
  have hreg := register_conservation (c := c) hrst
  have heq : kept ++ (b.sent c ++ (b.step c).outDescReg.contents 2) =
      (flight ++ b.issues).flatMap beatsOf ++ (b.step c).started := by
    rw [← hreg, ← List.append_assoc, hstream, List.append_assoc, hmerger, List.flatMap_append,
      List.append_assoc]
  obtain ⟨done', flight', kept', hds, hwr', hrd', hkept', hstream'⟩ :=
    hkept.moves h hrst hport.unfinished hstream heq
  refine ⟨hport, h.dramSendFifo.next P.dramAw_pos (b.wrInputs c),
    h.sendDramCtrlFifo.next P.dramAw_pos (b.rdInputs c), notReady_step, done ++ done', flight',
    kept', ?_, ?_, ?_, hkept', hstream'⟩
  · show b.since _ _ = _
    simp [Bench.since, hrst, hissued, hds]
  · show b.since _ _ = _
    simp [Bench.since, hrst, hwr, hwr']
  · show b.since _ _ = _
    simp [Bench.since, hrst, hrd, hrd']

/-- A cycle in the core's reset: everything starts again, but for the parser, which has
nothing to forget. -/
theorem Inv.step_reset (h : Inv b) (hrst : b.coreResetPr = true) : Inv (b.step c) := by
  obtain ⟨done, flight, kept, -, -, -, hkept, hstream⟩ := h.stream
  have hstate : (b.step c).port.outDescState = false := by simp [Bench.step, Port.next, hrst]
  have hcontents : (b.step c).outDescReg.contents 2 = [] :=
    PipeRegister.contents_of_reset (i := b.regInputs c) hrst
  refine ⟨⟨by simp [hstate], by simp [hstate]⟩,
    h.dramSendFifo.next P.dramAw_pos (b.wrInputs c),
    h.sendDramCtrlFifo.next P.dramAw_pos (b.rdInputs c), notReady_step, [], [], [], ?_, ?_, ?_,
    hkept.reset h hrst hstream, ?_⟩
  · simp [Bench.step, Bench.since, hrst]
  · simp [Bench.step, Bench.since, hrst]
  · simp [Bench.step, Bench.since, hrst]
  · rw [hcontents]
    simp [Bench.started, hstate]

theorem Inv.step (h : Inv b) : Inv (b.step c) := by
  cases hrst : b.coreResetPr with
  | true => exact h.step_reset hrst
  | false => exact h.step_running hrst

theorem Bench.Start.inv (h : b.Start) : Inv b where
  outDescVR := by simp [h.outDescState]
  firstHdr := by simp [h.outDescState]
  dramSendFifo := h.dramSendFifo.valid
  sendDramCtrlFifo := h.sendDramCtrlFifo.valid
  notReady _ := ⟨h.dramSendFifo.2.2.1, h.sendDramCtrlFifo.2.2.1⟩
  stream := ⟨[], [], [], by simp [h.issued], by simp [h.pushedWr], by simp [h.pushedRd],
    .none h.parser.1 h.parser.2, by simp [h.outDescReg.contents_eq, Bench.started, h.outDescState]⟩

/-- The register has the beats of what is in flight that the parser has not taken. -/
theorem contents_of_stream {kept : List RegBeat} {flight : List Desc} (hkept : Kept b kept)
    (hstream : kept ++ b.outDescReg.contents 2 = flight.flatMap beatsOf ++ b.started) :
    b.outDescReg.contents 2 = (flight.flatMap beatsOf ++ b.started).drop
      (if b.parser.coreDramWrR || b.parser.coreDramRdR then 1 else 0) := by
  rw [← hstream]
  cases hkept with
  | none hwr hrd => simp [hwr, hrd]
  | wr h htype hwr hrd hreg hv hready => simp [hwr]
  | rd h htype hwr hrd hreg hv hready => simp [hrd]

end Run

/-- **Descriptors for the DRAM survive core resets.**  In every state of every run, whatever
the core stores and whenever it is reset: of the descriptors issued since the last reset,
the first ones have their entries in the two queues, each once and in order, and the register
has the beats of the others and of the one the merger is at, but for a first beat that the
parser has taken; a first beat that the parser has kept is followed by its own second beat; a
queue is offered an entry while it is not ready only when the core is in reset; and then
neither queue takes one. -/
theorem dram_descriptors {b : Bench P} (hb : b.Start) (cycles : List Cycle) :
    let b' := run Bench.step b cycles
    (∃ done flight, b'.issued = done ++ flight ∧ b'.pushedWr = done.filterMap (wrEntry P) ∧
      b'.pushedRd = done.filterMap rdEntry ∧
      b'.outDescReg.contents 2 = (flight.flatMap beatsOf ++ b'.started).drop
        (if b'.parser.coreDramWrR || b'.parser.coreDramRdR then 1 else 0)) ∧
    (b'.parser.coreDramWrR = true ∨ b'.parser.coreDramRdR = true →
      b'.outDescReg.nEmpty = true ∧ b'.outDescReg.doutReg.outDesc2nd = true) ∧
    ∀ c, ((b'.wrInputs c).dinValid = true → b'.dramSendFifo.dinReady = false →
        b'.coreResetPr = true) ∧
      ((b'.rdInputs c).dinValid = true → b'.sendDramCtrlFifo.dinReady = false →
        b'.coreResetPr = true) ∧
      (b'.coreResetPr = true → b'.dramSendFifo.enque (b'.wrInputs c) = false ∧
        b'.sendDramCtrlFifo.enque (b'.rdInputs c) = false) := by
  intro b'
  have hinv : Inv b' := run_preserves (fun _ _ h => h.step) hb.inv cycles
  obtain ⟨done, flight, kept, hissued, hwr, hrd, hkept, hstream⟩ := hinv.stream
  refine ⟨⟨done, flight, hissued, hwr, hrd, contents_of_stream hkept hstream⟩, ?_, ?_⟩
  · intro hflag
    cases hkept with
    | none hwr hrd => simp [hwr, hrd] at hflag
    | wr h htype hwr hrd hreg hv hready =>
      exact ⟨hv, second_of_kept hinv.toPortInv (.inl htype) hv hstream⟩
    | rd h htype hwr hrd hreg hv hready =>
      exact ⟨hv, second_of_kept hinv.toPortInv (.inr htype) hv hstream⟩
  · intro c
    rw [← and_assoc]
    refine ⟨?_, fun hrst => ?_⟩
    · cases hkept with
      | none hwr hrd => simp [Bench.wrInputs, Bench.rdInputs, hwr, hrd]
      | wr h htype hwr hrd hreg hv hready =>
        refine ⟨fun _ hnot => ?_, by simp [Bench.rdInputs, hrd]⟩
        by_contra hne
        simp [hready (by simpa using hne)] at hnot
      | rd h htype hwr hrd hreg hv hready =>
        refine ⟨by simp [Bench.wrInputs, hwr], fun _ hnot => ?_⟩
        by_contra hne
        simp [hready (by simpa using hne)] at hnot
    · obtain ⟨hwr, hrd⟩ := hinv.notReady hrst
      simp [BasicFifo.enque, hwr, hrd]

/-- Queues of two entries, DRAM port 3. -/
def sampleConfig : Config := ⟨⟨2, by decide, 3⟩, 1, by decide⟩

/-- Out of reset. -/
def sample : Bench sampleConfig where
  coreResetR := false
  coreResetPr := false
  port := ⟨⟨0, 0, 0, false⟩, false, none⟩
  firstHdr := 0
  outDescReg := ⟨false, false, false, false, ⟨0, false⟩, ⟨0, false⟩⟩
  parser := ⟨0, false, false⟩
  dramSendFifo := default
  sendDramCtrlFifo := default
  issued := []
  pushedWr := []
  pushedRd := []

theorem sample_start : sample.Start where
  outDescVR := rfl
  outDescState := rfl
  outDescReg := ⟨rfl, rfl, rfl, rfl⟩
  parser := ⟨rfl, rfl⟩
  dramSendFifo := ⟨rfl, rfl, rfl, rfl, rfl⟩
  sendDramCtrlFifo := ⟨rfl, rfl, rfl, rfl, rfl⟩
  issued := rfl
  pushedWr := rfl
  pushedRd := rfl

/-- A cycle with the given reset and store, everything else ready. -/
def cycle (coreReset : Bool) (store : Option Store) : Cycle :=
  ⟨coreReset, store, true, true, false, false⟩

/-- The store of type 4: a DRAM write. -/
def dramWrite : Option Store := some ⟨0b001010, 0xF, 4⟩

/-- A DRAM write with no reset near it: its entry is pushed. -/
theorem dram_descriptors_write :
    let b' := run Bench.step sample
      [cycle false none, cycle false dramWrite, cycle false none, cycle false none,
        cycle false none]
    b'.pushedWr.length = 1 ∧ ∃ done flight, b'.issued = done ++ flight ∧
      b'.pushedWr = done.filterMap (wrEntry sampleConfig) ∧
      b'.pushedRd = done.filterMap rdEntry ∧
      b'.outDescReg.contents 2 = (flight.flatMap beatsOf ++ b'.started).drop
        (if b'.parser.coreDramWrR || b'.parser.coreDramRdR then 1 else 0) :=
  ⟨by decide +kernel, (dram_descriptors sample_start _).1⟩

/-- **A reset in the cycle of the first beat**: in the next cycle the second beat is offered
to a queue that has just been cleared and is not ready. -/
theorem reset_with_first_beat :
    let b' := run Bench.step sample
      [cycle false none, cycle false dramWrite, cycle true none, cycle true none]
    sample.Start ∧ (b'.wrInputs (cycle true none)).dinValid = true ∧
      b'.dramSendFifo.dinReady = false := by
  refine ⟨sample_start, ?_⟩
  decide +kernel

end Rosebud.DramDescriptors
