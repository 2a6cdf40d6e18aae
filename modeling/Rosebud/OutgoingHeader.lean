import Rosebud.DmaFetch
import Rosebud.HeaderAdder
import Rosebud.SendConservation

/-! # Headers of outgoing packets in `rpu_intercon`

A DRAM address, or the destination of a loopback, is put in front of the packet it
belongs to.  It is kept in `m_header_r` from the moment its descriptor is popped, and
`header_adder` uses it up with the first word that reaches it.  Two things break the
association.  A descriptor of length 0 sends no word, so that its header stays for the
packet after it (`stale_header`); and in the case the arbiters overlook (`Stray`)
`axis_dma` takes the descriptor of a loopback that is not popped, so that its packet leaves
without a header.

If descriptors with a header are taken with a length and not in that case (`Matched`), the
packets that leave are those of the descriptors, in their order and each behind its own
header (`headers_of_matched`).  The words of a packet are those `axis_dma` sends from the
taking of a descriptor to `pkt_sent`, whatever the memory answered.
-/
namespace Rosebud.OutgoingHeader
open Clocked Lanes AxiStream SendSide DescParser HeaderAdder

variable {P : SendSide.Config}

/-! ## Descriptors and the header register -/

/-- A descriptor on its way through `axis_dma`, and the header of its packet. -/
structure Job where
  desc : BitVec 64
  header : Option (BitVec 64)
deriving DecidableEq

/-- The sideband of a word. -/
abbrev PacketTag (P : SendSide.Config) := HeaderAdder.Tag P.dma.destWidthOut P.dma.userWidthOut

/-- What a receiver reads off a word. -/
abbrev PacketView (P : SendSide.Config) := View P.dma.strbWidth (PacketTag P)

namespace Job
variable (j : Job)

variable (P) in
/-- The descriptor as `axis_dma` is given it. -/
def dmaDesc : DmaRead.Desc P.dma where
  addr := (0 : BitVec 1) ++ j.desc.extractLsb' 32 25
  len := j.desc.extractLsb' 0 16
  tdest := portOf P.toConfig j.desc
  tuser := j.desc.extractLsb' 16 P.tagWidth

variable (P) in
/-- Port and tag of the packet. -/
def side : PacketTag P := ((j.dmaDesc P).tdest, (j.dmaDesc P).tuser)

/-- A length other than 0. -/
def sends : Bool := decide (j.desc.extractLsb' 0 16 ≠ 0)

end Job

section Wires
variable (r : SendSide.Regs P)

/-- **The descriptor offered to `axis_dma`, with the header that belongs to it**: the DRAM
address of a DRAM descriptor, the destination of a loopback. -/
def job : Job where
  desc := sendDesc r
  header :=
    if dramOutSelect r then some ((dramWrDesc r).extractLsb' 64 64)
    else if dataSelect r && r.recvdCtrlFifo.dout.loopback then
      some (r.recvdCtrlFifo.dout.header.setWidth 64)
    else none

def latchesDram : Bool := dramWrValid r && dramWrReady r

def latchesLoopback : Bool :=
  ctrlInValid r && r.recvdCtrlFifo.dout.loopback && ctrlInReady r

/-- `m_header_r` after the clock edge. -/
def nextHeaderR (mHeaderR : BitVec 64) : BitVec 64 :=
  if latchesDram r then (dramWrDesc r).extractLsb' 64 64
  else if latchesLoopback r then r.recvdCtrlFifo.dout.header.setWidth 64
  else mHeaderR

/-- `m_header_v` after the clock edge, outside reset. -/
def nextHeaderV (mHeaderV mHeaderReady : Bool) : Bool :=
  if latchesDram r || latchesLoopback r then true
  else if mHeaderReady then false
  else mHeaderV

/-- A descriptor with a header is taken with a length, and not in the case the arbiters
overlook. -/
def Matched : Prop :=
  takesDesc r = true → (job r).header ≠ none → (job r).sends = true ∧ Stray r = false
deriving Decidable

variable {r}

/-- Nothing is latched unless `axis_dma` takes a descriptor. -/
theorem latches_of_not_takes (h : takesDesc r = false) :
    latchesDram r = false ∧ latchesLoopback r = false := by
  unfold takesDesc sendDescValid at h
  unfold latchesDram latchesLoopback ctrlInReady dramWrReady sendPktReady
  cases hr : sendDescReady r <;> cases hd : dramWrValid r <;> cases hp : sendPktValid r <;>
    cases hk : pktSentReady r <;> simp_all [dramOutSelect]

/-- **The header of the descriptor taken is latched.** -/
theorem latches_of_takes (hm : Matched r) (h : takesDesc r = true) (mHeaderR : BitVec 64)
    (v ready : Bool) (hv : v = false) :
    nextHeaderV r v ready = (job r).header.isSome ∧
      ∀ x, (job r).header = some x → nextHeaderR r mHeaderR = x := by
  subst hv
  cases hsel : dramOutSelect r with
  | true =>
    -- a DRAM descriptor is taken exactly when it is popped
    have hvalid : dramWrValid r = true := by
      by_contra hno
      simp [dramOutSelect, hno] at hsel
    have hready : sendDescReady r = true := (Bool.and_eq_true_iff.mp h).2
    have hl : latchesDram r = true := by simp [latchesDram, dramWrReady, hvalid, hsel, hready]
    simp [nextHeaderV, nextHeaderR, job, hl, hsel]
  | false =>
    have hl : latchesDram r = false := by simp [latchesDram, dramWrReady, hsel]
    cases hlb : dataSelect r && r.recvdCtrlFifo.dout.loopback with
    | false =>
      have hno : latchesLoopback r = false := by
        have : latchesLoopback r =
            ((dataSelect r && r.recvdCtrlFifo.dout.loopback) && ctrlInReady r) := rfl
        rw [this, hlb, Bool.false_and]
      simp [nextHeaderV, job, hl, hno, hsel, hlb]
    | true =>
      have hheader : (job r).header ≠ none := by simp [job, hsel, hlb]
      obtain ⟨-, hstray⟩ := hm h hheader
      obtain ⟨hdata, hloop⟩ := Bool.and_eq_true_iff.mp hlb
      have hpkt : sendPktReady r = true := by
        have htakes := takesDesc_eq hstray
        rw [h] at htakes
        simpa [dramWrReady, hsel] using htakes.symm
      have hll : latchesLoopback r = true := by
        have : latchesLoopback r =
            ((dataSelect r && r.recvdCtrlFifo.dout.loopback) && (sendPktReady r && dataSelect r)) :=
          rfl
        rw [this, hlb, hpkt, hdata]
        rfl
      simp [nextHeaderV, nextHeaderR, job, hl, hll, hsel, hlb]

end Wires

/-! ## The bench -/

/-- The send side with the header register and `header_adder` behind `axis_dma`, and what
has been seen: the descriptors taken and the one being sent, the words of its packet so
far, the packets `axis_dma` has sent, the words that have left of the next packet, and the
packets that have left. -/
structure Bench (P : SendSide.Config) where
  regs : SendSide.Regs P
  mHeaderR : BitVec 64
  mHeaderV : Bool
  adder : HeaderAdder.Regs 8 P.dma.destWidthOut P.dma.userWidthOut
  jobs : List Job
  sending : Option Job
  body : List (PacketView P)
  frames : List (Job × List (PacketView P))
  emitted : List (PacketView P)
  packets : List (List (PacketView P))

namespace Bench
variable (b : Bench P) (c : SendSide.Cycle P)

/-- The word `axis_dma` offers. -/
def dmaWord : Beat P.dma.strbWidth (PacketTag P) :=
  let x := DmaRead.mAxis b.regs.dma.regs
  ⟨x.tdata, x.tkeep, x.tlast, (x.side.tdest, x.side.tuser)⟩

/-- `mAxisTready` of a cycle is the ready of the stream behind the adder. -/
def adderInputs : HeaderAdder.Inputs P.dma.strbWidth 8 P.dma.destWidthOut P.dma.userWidthOut where
  sAxis := b.dmaWord
  sAxisTvalid := DmaRead.mAxisTvalid b.regs.dma.regs
  header := b.mHeaderR
  headerValid := b.mHeaderV
  mAxisTready := c.mAxisTready

/-- The cycle as the send side sees it. -/
def sendCycle : SendSide.Cycle P :=
  { c with mAxisTready := sAxisTready b.adder (b.adderInputs c) }

/-- A word goes from `axis_dma` to the adder. -/
def feeds : Bool := (b.adderInputs c).sAxisTvalid && sAxisTready b.adder (b.adderInputs c)

/-- A word leaves the adder. -/
def leaves : Bool := HeaderAdder.mAxisTvalid b.adder (b.adderInputs c) && c.mAxisTready

def leaving : PacketView P := (HeaderAdder.mAxis false b.adder (b.adderInputs c)).view

def step : Bench P where
  regs := SendSide.next b.regs (b.sendCycle c)
  mHeaderR := nextHeaderR b.regs b.mHeaderR
  mHeaderV := nextHeaderV b.regs b.mHeaderV (headerReady b.adder (b.adderInputs c))
  adder := HeaderAdder.next false b.adder (b.adderInputs c)
  jobs := b.jobs ++ if takesDesc b.regs then [job b.regs] else []
  sending :=
    if takesDesc b.regs then some (job b.regs)
    else if SendSide.pktSent b.regs (b.sendCycle c) then none
    else b.sending
  body :=
    if b.feeds c then if b.dmaWord.tlast then [] else b.body ++ [b.dmaWord.view]
    else b.body
  frames :=
    if b.feeds c && b.dmaWord.tlast then
      b.frames ++ b.sending.toList.map fun j => (j, b.body ++ [b.dmaWord.view])
    else b.frames
  emitted :=
    if b.leaves c then if (b.leaving c).tlast then [] else b.emitted ++ [b.leaving c]
    else b.emitted
  packets :=
    if b.leaves c && (b.leaving c).tlast then b.packets ++ [b.emitted ++ [b.leaving c]]
    else b.packets

/-- Out of reset, with nothing seen. -/
structure Start (b : Bench P) : Prop where
  regs : Fresh b.regs
  mHeaderV : b.mHeaderV = false
  adder : b.adder.state = .hdr
  jobs : b.jobs = []
  sending : b.sending = none
  body : b.body = []
  frames : b.frames = []
  emitted : b.emitted = []
  packets : b.packets = []

end Bench

/-- **What should leave for the words of a packet**: the same bytes, behind the header of
its descriptor if it has one, with the descriptor's port and tag. -/
def expected (x : Job × List (PacketView P)) : List (PacketView P) :=
  pack P.dma.strbWidth (x.1.side P)
    (headerBytes (H := 8) x.1.header ++ x.2.flatMap View.bytes)

/-! ## What is kept -/

/-- A full word in the middle of a packet. -/
def Full (side : PacketTag P) (v : PacketView P) : Prop :=
  v.bytes.length = P.dma.strbWidth ∧ v = ⟨v.bytes, BitVec.allOnes _, false, side⟩

namespace Bench

/-- The packet of which only the last word is still to leave. -/
def ending (b : Bench P) : List (List (PacketView P)) :=
  if b.adder.state = .lst then [b.emitted ++ [lastView P.dma.strbWidth b.adder]] else []

/-- Between packets. -/
structure Outside (b : Bench P) : Prop where
  state : b.adder.state = .hdr ∨ b.adder.state = .lst
  mHeaderV : b.mHeaderV = (b.sending.bind Job.header).isSome
  mHeaderR : ∀ x, b.sending.bind Job.header = some x → b.mHeaderR = x

/-- Inside the packet of a descriptor: the header is used up, and what has left with what
the adder kept is the header and the words so far. -/
structure Inside (b : Bench P) (j : Job) : Prop where
  sending : b.sending = some j
  proc : b.regs.dma.regs.rdStateR = .proc
  mHeaderV : b.mHeaderV = false
  state : b.adder.state = .mid ∨ b.adder.state = .fwd
  carries : Carries false b.adder (j.side P)
  body : ∀ v ∈ b.body, Full (j.side P) v
  emitted : ∀ v ∈ b.emitted, Full (j.side P) v
  bytes : b.emitted.flatMap View.bytes ++ headerBytes (latched b.adder) =
    headerBytes (H := 8) j.header ++ b.body.flatMap View.bytes

/-- **Headers and packets belong together.** -/
structure Associated (b : Bench P) : Prop where
  calm : DmaRead.Calm b.regs.dma
  busy : b.sending.isSome = !sendDescReady b.regs
  jobs : b.jobs.filter Job.sends = b.frames.map Prod.fst ++ b.sending.toList.filter Job.sends
  latched : ∀ j, b.sending = some j → DmaRead.Latched b.regs.dma.regs (j.dmaDesc P)
  headed : ∀ j, b.sending = some j → j.header ≠ none → j.sends = true
  final : b.regs.dma.regs.rdStateR = .proc → ∀ j, b.sending = some j → j.sends = true ∧
    b.regs.dma.regs.rdFinalTkeep = lowMask _ (j.dmaDesc P).lastCount
  outside : b.body = [] → b.Outside
  inside : b.body ≠ [] → ∃ j, b.Inside j
  empty : b.adder.state = .hdr → b.emitted = []
  framed : ∀ x ∈ b.frames, x.2 = pack P.dma.strbWidth (x.1.side P) (x.2.flatMap View.bytes)
  left : b.packets ++ b.ending = b.frames.map expected

theorem Start.associated {b : Bench P} (h : b.Start) : b.Associated := by
  have hready : sendDescReady b.regs = true := by
    simp [sendDescReady, DmaRead.sendDescReady, h.regs.dma.rdStateR]
  constructor
  · exact h.regs.dma.calm
  · simp [h.sending, hready]
  · simp [h.jobs, h.frames, h.sending]
  · simp [h.sending]
  · simp [h.sending]
  · simp [h.sending]
  · exact fun _ => ⟨.inl h.adder, by simp [h.sending, h.mHeaderV], by simp [h.sending]⟩
  · exact fun hne => absurd h.body hne
  · exact fun _ => h.emitted
  · simp [h.frames]
  · simp [h.packets, h.frames, ending, h.adder]

/-! ## One cycle -/

section Step
variable {b : Bench P} {c : SendSide.Cycle P} {j : Job}

/-- `pkt_sent` comes with a dropped descriptor or with the last word of a packet. -/
theorem pktSent_eq : SendSide.pktSent b.regs (b.sendCycle c) =
    ((b.regs.dma.regs.toDrop && decide (b.regs.dma.regs.rdStateR = .init)) ||
      (b.feeds c && b.dmaWord.tlast)) := rfl

theorem takesDesc_dma : DmaRead.takesDesc b.regs.dma.regs
    (b.regs.dma.inputs (dmaEnv b.regs (b.sendCycle c))) = takesDesc b.regs := Bool.and_comm ..

theorem takesDesc_of_busy (hr : sendDescReady b.regs = false) : takesDesc b.regs = false := by
  rw [takesDesc, hr, Bool.and_false]

/-- The descriptor being sent was taken now, or was being sent. -/
theorem sending_step (hj : (b.step c).sending = some j) :
    takesDesc b.regs = true ∧ job b.regs = j ∨ takesDesc b.regs = false ∧ b.sending = some j := by
  change (if _ then _ else _ : Option Job) = _ at hj
  split at hj
  · rename_i ht
    exact .inl ⟨ht, Option.some.inj hj⟩
  · rename_i ht
    split at hj
    · exact absurd hj (by simp)
    · exact .inr ⟨by simpa using ht, hj⟩

/-- Without its last word a packet goes on. -/
theorem proc_step (hproc : b.regs.dma.regs.rdStateR = .proc)
    (hp : SendSide.pktSent b.regs (b.sendCycle c) = false) :
    (b.step c).regs.dma.regs.rdStateR = .proc := by
  change DmaRead.nextRdState b.regs.dma.regs _ = _
  simp only [DmaRead.nextRdState, hproc]
  exact if_neg (by rw [Bool.not_eq_true]; exact hp)

variable (h : b.Associated)
include h

/-- Words come in `RD_PROC` only. -/
theorem Associated.not_feeds (hne : b.regs.dma.regs.rdStateR ≠ .proc) : b.feeds c = false := by
  have hvalid : (b.adderInputs c).sAxisTvalid = false := (h.calm.parked hne).2.2
  rw [feeds, hvalid, Bool.false_and]

theorem Associated.proc_of_feeds (hfed : b.feeds c = true) :
    b.regs.dma.regs.rdStateR = .proc := by
  by_contra hne
  rw [h.not_feeds hne] at hfed
  exact Bool.false_ne_true hfed

theorem Associated.ready_of_takes (ht : takesDesc b.regs = true) :
    b.sending = none ∧ b.regs.dma.regs.rdStateR = .idle := by
  have hr : sendDescReady b.regs = true := (Bool.and_eq_true_iff.mp ht).2
  have hbusy := h.busy
  rw [hr] at hbusy
  exact ⟨by simpa using hbusy, of_decide_eq_true hr⟩

/-- A descriptor is under way. -/
theorem Associated.exists_sending (hne : b.regs.dma.regs.rdStateR ≠ .idle) :
    sendDescReady b.regs = false ∧ ∃ j, b.sending = some j := by
  have hr : sendDescReady b.regs = false := by
    simp [sendDescReady, DmaRead.sendDescReady, hne]
  have hbusy := h.busy
  rw [hr] at hbusy
  exact ⟨hr, Option.isSome_iff_exists.mp hbusy⟩

theorem Associated.ne_idle (hj : b.sending = some j) : b.regs.dma.regs.rdStateR ≠ .idle := by
  intro hidle
  have hbusy := h.busy
  rw [hj] at hbusy
  simp [sendDescReady, DmaRead.sendDescReady, hidle] at hbusy

theorem Associated.takes_of_sending (hj : b.sending = some j) :
    takesDesc b.regs = false := takesDesc_of_busy (h.exists_sending (h.ne_idle hj)).1

theorem Associated.busy_step :
    (b.step c).sending.isSome = !sendDescReady (b.step c).regs := by
  have hready : sendDescReady (b.step c).regs =
      if sendDescReady b.regs then !sendDescValid b.regs
      else SendSide.pktSent b.regs (b.sendCycle c) :=
    h.calm.sendDescReady_step (dmaEnv b.regs (b.sendCycle c))
  have hsending : (b.step c).sending = if takesDesc b.regs then some (job b.regs)
      else if SendSide.pktSent b.regs (b.sendCycle c) then none else b.sending := rfl
  have hbusy := h.busy
  rw [hready, hsending]
  cases hr : sendDescReady b.regs with
  | true =>
    have hnot : SendSide.pktSent b.regs (b.sendCycle c) = false := h.calm.not_pktSent hr
    rw [hr] at hbusy
    have hnone : b.sending = none := by simpa using hbusy
    rw [takesDesc, hr, hnot, hnone]
    cases sendDescValid b.regs <;> rfl
  | false =>
    rw [takesDesc_of_busy hr]
    rw [hr] at hbusy
    cases hp : SendSide.pktSent b.regs (b.sendCycle c) with
    | false => simpa using hbusy
    | true => rfl

theorem Associated.latched_step (hj : (b.step c).sending = some j) :
    DmaRead.Latched (b.step c).regs.dma.regs (j.dmaDesc P) := by
  rcases sending_step hj with ⟨ht, rfl⟩ | ⟨-, hj⟩
  · exact DmaRead.latched_take (takesDesc_dma.trans ht)
  · exact DmaRead.latched_keep (h.latched j hj) (h.ne_idle hj)

theorem Associated.headed_step (hm : Matched b.regs)
    (hj : (b.step c).sending = some j) (hne : j.header ≠ none) : j.sends = true := by
  rcases sending_step hj with ⟨ht, rfl⟩ | ⟨-, hj⟩
  · exact (hm ht hne).1
  · exact h.headed j hj hne

theorem Associated.toDrop_eq (hj : b.sending = some j) : b.regs.dma.regs.toDrop = !j.sends := by
  rw [(h.latched j hj).toDrop]
  change decide (j.desc.extractLsb' 0 16 = 0) = !decide (j.desc.extractLsb' 0 16 ≠ 0)
  rw [← decide_not, decide_eq_decide]
  exact Decidable.not_not.symm

theorem Associated.final_step (hproc : (b.step c).regs.dma.regs.rdStateR = .proc)
    (hj : (b.step c).sending = some j) : j.sends = true ∧
      (b.step c).regs.dma.regs.rdFinalTkeep = lowMask _ (j.dmaDesc P).lastCount := by
  have hstate : (b.step c).regs.dma.regs.rdStateR = DmaRead.nextRdState b.regs.dma.regs
      (b.regs.dma.inputs (dmaEnv b.regs (b.sendCycle c))) := rfl
  rw [hstate] at hproc
  have hne : b.regs.dma.regs.rdStateR ≠ .idle := by
    intro hidle
    simp only [DmaRead.nextRdState, hidle] at hproc
    split at hproc <;> exact absurd hproc (by simp)
  obtain ⟨hr, -⟩ := h.exists_sending hne
  have hkept : b.sending = some j := by
    rcases sending_step hj with ⟨ht, -⟩ | ⟨-, hj⟩
    · exact absurd ((takesDesc_of_busy hr).symm.trans ht) Bool.false_ne_true
    · exact hj
  cases hst : b.regs.dma.regs.rdStateR with
  | idle => exact absurd hst hne
  | init =>
    have hdrop : b.regs.dma.regs.toDrop = false := by
      by_contra hd
      simp [DmaRead.nextRdState, hst, hd] at hproc
    rw [h.toDrop_eq hkept] at hdrop
    refine ⟨by simpa using hdrop, ?_⟩
    change (DmaRead.next b.regs.dma.regs _).rdFinalTkeep = _
    simp only [DmaRead.next, hst]
    exact DmaRead.finalTkeep_eq (h.latched j hkept)
  | proc =>
    obtain ⟨hsends, htkeep⟩ := h.final hst j hkept
    refine ⟨hsends, ?_⟩
    rw [← htkeep]
    change (DmaRead.next b.regs.dma.regs _).rdFinalTkeep = _
    simp only [DmaRead.next, hst]
  | err => exact absurd hst h.calm.noErr

/-- Every descriptor with a length is in a packet sent, or being sent. -/
theorem Associated.jobs_step : (b.step c).jobs.filter Job.sends =
    (b.step c).frames.map Prod.fst ++ (b.step c).sending.toList.filter Job.sends := by
  have hold := h.jobs
  cases ht : takesDesc b.regs with
  | true =>
    obtain ⟨hnone, hidle⟩ := h.ready_of_takes ht
    have hno : b.feeds c = false := h.not_feeds (by simp [hidle])
    rw [hnone] at hold
    simp [step, ht, hno, hold]
  | false =>
    cases hp : SendSide.pktSent b.regs (b.sendCycle c) with
    | false =>
      have hno : (b.feeds c && b.dmaWord.tlast) = false := (Bool.or_eq_false_iff.mp hp).2
      have hframes : (b.step c).frames = b.frames := if_neg (by rw [hno]; simp)
      rw [hframes]
      simp [step, ht, hp, hold]
    | true =>
      have hcases := hp
      rw [pktSent_eq] at hcases
      rcases Bool.or_eq_true_iff.mp hcases with hdrop | hlast
      · -- a dropped descriptor has no packet
        obtain ⟨hd, hinit⟩ := Bool.and_eq_true_iff.mp hdrop
        have hinit := of_decide_eq_true hinit
        obtain ⟨-, j, hj⟩ := h.exists_sending (by simp [hinit])
        have hsends : j.sends = false := by simpa [hd] using h.toDrop_eq hj
        have hno : b.feeds c = false := h.not_feeds (by simp [hinit])
        rw [hj] at hold
        simp [step, ht, hp, hno, hold, hsends]
      · have hproc := h.proc_of_feeds (Bool.and_eq_true_iff.mp hlast).1
        obtain ⟨-, j, hj⟩ := h.exists_sending (by simp [hproc])
        have hsends := (h.final hproc j hj).1
        rw [hj] at hold
        have hframes : (b.step c).frames = b.frames ++
            b.sending.toList.map fun j => (j, b.body ++ [b.dmaWord.view]) := if_pos hlast
        rw [hframes]
        simp [step, ht, hp, hold, hj, hsends]

/-! ### Cycles without a word -/

section Idle
variable (hno : b.feeds c = false)
include hno

omit h in
/-- Outside `LST` no word leaves either. -/
theorem leaves_eq_false (hs : b.adder.state ≠ .lst) : b.leaves c = false := by
  have hready : sAxisTready b.adder (b.adderInputs c) = c.mAxisTready := by
    simp [sAxisTready, hs, adderInputs]
  rw [feeds, hready] at hno
  simpa [leaves, mAxisTvalid, hs] using hno

omit h in
theorem adder_idle (hs : b.adder.state ≠ .lst) :
    (b.step c).adder.state = b.adder.state ∧
      HeaderAdder.latched (b.step c).adder = HeaderAdder.latched b.adder ∧
      ∀ side, Carries false b.adder side → Carries false (b.step c).adder side :=
  next_idle false hs (fun _ => rfl) hno

omit h in
theorem adder_lst (hs : b.adder.state = .lst) :
    (b.step c).adder = b.adder ∧ c.mAxisTready = false ∨
      (b.step c).adder.state = .hdr ∧ c.mAxisTready = true := by
  cases hready : c.mAxisTready with
  | true =>
    refine .inr ⟨?_, rfl⟩
    change nextState false b.adder (b.adderInputs c) = _
    simp [nextState, hs, adderInputs, hready]
  | false =>
    refine .inl ⟨?_, rfl⟩
    have hfeed : ((b.adderInputs c).sAxisTvalid && sAxisTready b.adder (b.adderInputs c)) = false :=
      hno
    have hstate : nextState false b.adder (b.adderInputs c) = b.adder.state := by
      simp [nextState, hs, adderInputs, hready]
    have hne : ¬ b.adder.state = .hdr := by simp [hs]
    change HeaderAdder.next false b.adder (b.adderInputs c) = b.adder
    simp [HeaderAdder.next, hfeed, hstate, hne]

theorem Associated.left_idle :
    (b.step c).packets ++ (b.step c).ending = (b.step c).frames.map expected ∧
      ((b.step c).adder.state = .hdr → (b.step c).emitted = []) := by
  have hframes : (b.step c).frames = b.frames := by simp [step, hno]
  have hleft := h.left
  rw [hframes]
  by_cases hs : b.adder.state = .lst
  · have hview : b.leaving c = lastView P.dma.strbWidth b.adder := view_lst false hs
    have hlast : (b.leaving c).tlast = true := by rw [hview]; rfl
    have hleaves : b.leaves c = c.mAxisTready := by simp [leaves, mAxisTvalid, hs]
    rw [ending, if_pos hs] at hleft
    rcases adder_lst hno hs with ⟨hsame, hready⟩ | ⟨hhdr, hready⟩
    · rw [hready] at hleaves
      have hpackets : (b.step c).packets = b.packets := by simp [step, hleaves]
      have hemitted : (b.step c).emitted = b.emitted := by simp [step, hleaves]
      refine ⟨?_, fun hh => absurd ((congrArg HeaderAdder.Regs.state hsame).symm.trans hh) ?_⟩
      · rw [ending, hsame, if_pos hs, hpackets, hemitted]
        exact hleft
      · simp [hs]
    · rw [hready] at hleaves
      have hpackets : (b.step c).packets = b.packets ++ [b.emitted ++ [b.leaving c]] := by
        simp [step, hleaves, hlast]
      refine ⟨?_, fun _ => by simp [step, hleaves, hlast]⟩
      rw [ending, hhdr, if_neg (by simp), hpackets, hview, List.append_nil]
      exact hleft
  · obtain ⟨hstate, -, -⟩ := adder_idle hno hs
    have hleaves := leaves_eq_false hno hs
    have hpackets : (b.step c).packets = b.packets := by simp [step, hleaves]
    have hemitted : (b.step c).emitted = b.emitted := by simp [step, hleaves]
    rw [ending, if_neg hs] at hleft
    refine ⟨?_, fun hh => by rw [hemitted]; exact h.empty (hstate.symm.trans hh)⟩
    rw [ending, hstate, if_neg hs, hpackets]
    exact hleft

omit h in
theorem headerReady_idle : headerReady b.adder (b.adderInputs c) = false := by
  by_contra hready
  simp only [headerReady, Bool.not_eq_false, Bool.and_eq_true, decide_eq_true_eq] at hready
  obtain ⟨⟨hs, hv⟩, hr⟩ := hready
  simp [feeds, sAxisTready, hs, hv, hr] at hno

theorem Associated.outside_idle (hm : Matched b.regs) (hbody : b.body = []) :
    (b.step c).Outside := by
  obtain ⟨hstate, hv, hr⟩ := h.outside hbody
  constructor
  · by_cases hs : b.adder.state = .lst
    · rcases adder_lst hno hs with ⟨hsame, -⟩ | ⟨hhdr, -⟩
      · rw [hsame]
        exact .inr hs
      · exact .inl hhdr
    · rw [(adder_idle hno hs).1]
      exact hstate
  all_goals cases ht : takesDesc b.regs
  case mHeaderV.true | mHeaderR.true =>
    obtain ⟨hnone, -⟩ := h.ready_of_takes ht
    have hlow : b.mHeaderV = false := by rw [hv, hnone]; rfl
    have hlatched := latches_of_takes hm ht b.mHeaderR b.mHeaderV
      (headerReady b.adder (b.adderInputs c)) hlow
    first
      | simpa [step, ht] using hlatched.1
      | simpa [step, ht] using hlatched.2
  all_goals
    obtain ⟨hd, hl⟩ := latches_of_not_takes ht
    have hkept : (b.step c).sending.bind Job.header = b.sending.bind Job.header := by
      cases hp : SendSide.pktSent b.regs (b.sendCycle c) with
      | false => simp [step, ht, hp]
      | true =>
        -- only a dropped descriptor ends without a word, and it has no header
        rw [pktSent_eq, hno, Bool.false_and, Bool.or_false] at hp
        obtain ⟨hdrop, hinit⟩ := Bool.and_eq_true_iff.mp hp
        obtain ⟨-, j, hj⟩ := h.exists_sending (by simp [of_decide_eq_true hinit])
        have hsends : j.sends = false := by simpa [hdrop] using h.toDrop_eq hj
        have hheader : j.header = none := by
          by_contra hne
          rw [h.headed j hj hne] at hsends
          exact absurd hsends (by simp)
        have hp' : SendSide.pktSent b.regs (b.sendCycle c) = true := by
          rw [pktSent_eq, hdrop, hinit]
          rfl
        simp [step, ht, hp', hj, hheader]
  case mHeaderV.false =>
    rw [hkept, ← hv]
    simp [step, nextHeaderV, hd, hl, headerReady_idle hno]
  case mHeaderR.false =>
    intro x hx
    rw [hkept] at hx
    rw [← hr x hx]
    simp [step, nextHeaderR, hd, hl]

theorem Associated.inside_idle (hj : b.Inside j) : (b.step c).Inside j := by
  have hs : b.adder.state ≠ .lst := by
    rcases hj.state with hs | hs <;> simp [hs]
  obtain ⟨hstate, hlatched, hcarries⟩ := adder_idle hno hs
  have hleaves := leaves_eq_false hno hs
  have ht := h.takes_of_sending hj.sending
  obtain ⟨hd, hl⟩ := latches_of_not_takes ht
  have hp : SendSide.pktSent b.regs (b.sendCycle c) = false := by
    rw [pktSent_eq, hno, hj.proc]
    simp
  have hbody : (b.step c).body = b.body := by simp [step, hno]
  have hemitted : (b.step c).emitted = b.emitted := by simp [step, hleaves]
  constructor
  · simp [step, ht, hp, hj.sending]
  · exact proc_step hj.proc hp
  · simp [step, nextHeaderV, hd, hl, hj.mHeaderV]
  · rw [hstate]
    exact hj.state
  · exact hcarries _ hj.carries
  · rw [hbody]
    exact hj.body
  · rw [hemitted]
    exact hj.emitted
  · rw [hemitted, hlatched, hbody]
    exact hj.bytes

theorem Associated.step_idle (hm : Matched b.regs) : (b.step c).Associated := by
  have hbody : (b.step c).body = b.body := by simp [step, hno]
  obtain ⟨hleft, hempty⟩ := h.left_idle hno
  refine ⟨h.calm.step _, h.busy_step, h.jobs_step, fun j => h.latched_step,
    fun j => h.headed_step hm, fun hproc j => h.final_step hproc, ?_, ?_, hempty, ?_, hleft⟩
  · rw [hbody]
    exact h.outside_idle hno hm
  · rw [hbody]
    intro hne
    obtain ⟨j, hj⟩ := h.inside hne
    exact ⟨j, h.inside_idle hno hj⟩
  · have hframes : (b.step c).frames = b.frames := by simp [step, hno]
    rw [hframes]
    exact h.framed

end Idle

/-! ### Cycles with a word -/

section Word
variable (hW : 8 ≤ P.dma.strbWidth) (hfed : b.feeds c = true)
include hfed

/-- What is known when a word goes to the adder. -/
structure Fed (b : Bench P) (c : SendSide.Cycle P) (j : Job) : Prop where
  sending : b.sending = some j
  state : b.adder.state ≠ .lst
  valid : (b.adderInputs c).sAxisTvalid = true
  ready : (b.adderInputs c).mAxisTready = true
  side : (b.adderInputs c).sAxis.side = j.side P
  carries : Carries false b.adder (b.adderInputs c).sAxis.side
  body : ∀ v ∈ b.body, Full (j.side P) v
  emitted : ∀ v ∈ b.emitted, Full (j.side P) v
  bytes : b.emitted.flatMap View.bytes ++ headerBytes (front false b.adder (b.adderInputs c)) =
    headerBytes (H := 8) j.header ++ b.body.flatMap View.bytes
  used : b.mHeaderV = false ∨ headerReady b.adder (b.adderInputs c) = true

theorem Associated.fed : ∃ j, Fed b c j := by
  have hproc := h.proc_of_feeds hfed
  obtain ⟨-, j, hj⟩ := h.exists_sending (by simp [hproc])
  obtain ⟨hvalid, hready⟩ := Bool.and_eq_true_iff.mp hfed
  have hs : b.adder.state ≠ .lst := by
    intro hs
    simp [sAxisTready, hs] at hready
  have hready' : (b.adderInputs c).mAxisTready = true := by
    simpa [sAxisTready, hs] using hready
  have hside : (b.adderInputs c).sAxis.side = j.side P :=
    Prod.ext (h.latched j hj).sendTdest (h.latched j hj).sendTuser
  by_cases hbody : b.body = []
  · -- the first word: its header is the one of the descriptor
    obtain ⟨hstate, hv, hr⟩ := h.outside hbody
    have hhdr : b.adder.state = .hdr := hstate.resolve_right hs
    have hheader : front false b.adder (b.adderInputs c) = j.header := by
      rw [hj] at hv hr
      have hadds : addsHeader false (b.adderInputs c) = b.mHeaderV := Bool.or_false _
      rw [front, if_pos hhdr, hadds, hv]
      cases hx : j.header with
      | none => simp [hx]
      | some x =>
        have hreg : (b.adderInputs c).header = x := hr x hx
        simp [hx, hreg]
    have hempty := h.empty hhdr
    refine ⟨j, hj, hs, hvalid, hready', hside, ⟨?_, ?_, ?_⟩, ?_, ?_, ?_, .inr ?_⟩
    · exact fun hne => absurd hhdr hne
    · exact fun hm => absurd (hhdr.symm.trans hm) (by simp)
    · exact fun _ => rfl
    · simp [hbody]
    · simp [hempty]
    · simp [hbody, hempty, hheader]
    · simp [headerReady, hhdr, hvalid, hready']
  · obtain ⟨j', hin⟩ := h.inside hbody
    obtain rfl : j' = j := Option.some.inj (hin.sending.symm.trans hj)
    have hnot : b.adder.state ≠ .hdr := by
      rcases hin.state with hs | hs <;> simp [hs]
    refine ⟨j', hj, hs, hvalid, hready', hside, ?_, hin.body, hin.emitted, ?_, .inl hin.mHeaderV⟩
    · rw [hside]
      exact hin.carries
    · rw [front, if_neg hnot]
      exact hin.bytes

omit h hfed in
theorem Fed.leaves (hj : Fed b c j) : b.leaves c = true := by
  have hready : c.mAxisTready = true := hj.ready
  have hvalid := hj.valid
  simp [Bench.leaves, mAxisTvalid, hj.state, hvalid, hready]

omit hfed in
theorem Associated.mHeaderV_fed (hj : Fed b c j) : (b.step c).mHeaderV = false := by
  obtain ⟨hd, hl⟩ := latches_of_not_takes (h.takes_of_sending hj.sending)
  rcases hj.used with hv | hready
  · simp [step, nextHeaderV, hd, hl, hv]
  · simp [step, nextHeaderV, hd, hl, hready]

omit h hfed in
theorem dmaWord_mid (hlast : b.dmaWord.tlast = false) :
    b.dmaWord.tkeep = lowMask P.dma.strbWidth P.dma.strbWidth := by
  have hl : DmaRead.mAxisTlast b.regs.dma.regs = false := hlast
  change DmaRead.mAxisTkeep b.regs.dma.regs = _
  rw [DmaRead.mAxisTkeep, hl, lowMask_self]
  rfl

include hW in
/-- A word in the middle of a packet. -/
theorem Associated.inside_word (hj : Fed b c j) (hlast : b.dmaWord.tlast = false) :
    (b.step c).Inside j ∧ (b.step c).packets = b.packets := by
  have hproc := h.proc_of_feeds hfed
  have hkeep := dmaWord_mid hlast
  have ht := h.takes_of_sending hj.sending
  have hp : SendSide.pktSent b.regs (b.sendCycle c) = false := by
    rw [pktSent_eq, hlast, hproc]
    simp
  have hview := view_taken false hW hj.state hj.carries (Nat.le_refl _) hkeep
  obtain ⟨hstate, hcarries, hbytes⟩ :=
    next_midBeat false hW hj.state hj.carries hj.valid hj.ready hkeep hlast fun _ => rfl
  have hword : b.dmaWord.view =
      ⟨lanes b.dmaWord.tdata 0 P.dma.strbWidth, BitVec.allOnes _, false, j.side P⟩ := by
    rw [Beat.view, hkeep, lowMask_self, kept_allOnes, hlast]
    exact congrArg _ hj.side
  have hleaving : Full (j.side P) (b.leaving c) := by
    have hlen : P.dma.strbWidth ≤ (headerBytes (front false b.adder (b.adderInputs c)) ++
        lanes b.dmaWord.tdata 0 P.dma.strbWidth).length := by simp
    have hmin : min P.dma.strbWidth ((headerBytes (front false b.adder
        (b.adderInputs c))).length + P.dma.strbWidth) = P.dma.strbWidth := by omega
    have hl : (b.adderInputs c).sAxis.tlast = false := hlast
    rw [leaving, hview, hmin, lowMask_self, hj.side, hl, Bool.and_false]
    refine ⟨?_, rfl⟩
    simp only [List.length_take]
    exact Nat.min_eq_left hlen
  have hltlast : (b.leaving c).tlast = false := by rw [hleaving.2]
  have hbody : (b.step c).body = b.body ++ [b.dmaWord.view] := by simp [step, hfed, hlast]
  have hemitted : (b.step c).emitted = b.emitted ++ [b.leaving c] := by
    simp [step, hj.leaves, hltlast]
  refine ⟨⟨?_, ?_, h.mHeaderV_fed hj, hstate, ?_, ?_, ?_, ?_⟩, ?_⟩
  · simp [step, ht, hp, hj.sending]
  · exact proc_step hproc hp
  · rw [← hj.side]
    exact hcarries
  · intro v hv
    rw [hbody] at hv
    rcases List.mem_append.mp hv with hold | hnew
    · exact hj.body v hold
    · rw [List.mem_singleton.mp hnew, hword]
      exact ⟨length_lanes _ _ _, rfl⟩
  · intro v hv
    rw [hemitted] at hv
    rcases List.mem_append.mp hv with hold | hnew
    · exact hj.emitted v hold
    · rw [List.mem_singleton.mp hnew]
      exact hleaving
  · have htake : (b.leaving c).bytes = (headerBytes (front false b.adder (b.adderInputs c)) ++
        lanes b.dmaWord.tdata 0 P.dma.strbWidth).take P.dma.strbWidth := by
      rw [leaving, hview]
      rfl
    have hlatched : headerBytes (HeaderAdder.latched (b.step c).adder) = _ := hbytes
    rw [hemitted, hbody, hlatched, List.flatMap_append, List.flatMap_append,
      List.flatMap_singleton, List.flatMap_singleton, htake, hword, List.append_assoc]
    rw [show (b.adderInputs c).sAxis.tdata = b.dmaWord.tdata from rfl, List.take_append_drop,
      ← List.append_assoc, hj.bytes, List.append_assoc]
  · simp [step, hj.leaves, hltlast]

include hW in
/-- The last word of a packet: with what has left before it, and with the word the adder
may have kept, it is the packet of the descriptor behind its header. -/
theorem Associated.left_last (hj : Fed b c j) (hlast : b.dmaWord.tlast = true) :
    (b.body ++ [b.dmaWord.view] =
      pack P.dma.strbWidth (j.side P) ((b.body ++ [b.dmaWord.view]).flatMap View.bytes)) ∧
      ((b.step c).adder.state = .hdr ∨ (b.step c).adder.state = .lst) ∧
      ((b.step c).adder.state = .hdr → (b.step c).emitted = []) ∧
      (b.step c).packets ++ (b.step c).ending =
        b.packets ++ [expected (j, b.body ++ [b.dmaWord.view])] := by
  have hproc := h.proc_of_feeds hfed
  have hpos : 0 < P.dma.strbWidth := by omega
  set k := (j.dmaDesc P).lastCount with hk
  have hkW : k ≤ P.dma.strbWidth := (j.dmaDesc P).lastCount_le
  have hkpos : 0 < k := by
    rw [hk, DmaRead.Desc.lastCount]
    split <;> omega
  have hkeep : b.dmaWord.tkeep = lowMask P.dma.strbWidth k := by
    have hl : DmaRead.mAxisTlast b.regs.dma.regs = true := hlast
    change DmaRead.mAxisTkeep b.regs.dma.regs = _
    rw [DmaRead.mAxisTkeep, if_pos hl]
    exact (h.final hproc j hj.sending).2
  have hword : b.dmaWord.view =
      ⟨lanes b.dmaWord.tdata 0 k, lowMask _ k, true, j.side P⟩ := by
    rw [Beat.view, hkeep, kept_lowMask _ hkW, hlast]
    exact congrArg _ hj.side
  have hne : lanes b.dmaWord.tdata 0 k ≠ [] := by
    rwa [← List.length_pos_iff, length_lanes]
  have hexpected : expected (j, b.body ++ [b.dmaWord.view]) = b.emitted ++
      pack P.dma.strbWidth (j.side P) (headerBytes (front false b.adder (b.adderInputs c)) ++
        lanes b.dmaWord.tdata 0 k) := by
    rw [expected, List.flatMap_append, List.flatMap_singleton, ← List.append_assoc, ← hj.bytes,
      hword, List.append_assoc, pack_flatMap_append hpos (by simp [hne]) hj.emitted]
  have hframe : b.body ++ [b.dmaWord.view] =
      pack P.dma.strbWidth (j.side P) ((b.body ++ [b.dmaWord.view]).flatMap View.bytes) := by
    rw [List.flatMap_append, List.flatMap_singleton, hword,
      pack_flatMap_append hpos hne hj.body, pack_of_le (by rw [length_lanes]; exact hkW),
      length_lanes]
  have hend := next_endBeat false hW hpos hj.state hj.carries hj.valid hj.ready hkW hkeep hlast
  rw [hj.side] at hend
  have hleaves := hj.leaves
  refine ⟨hframe, ?_⟩
  rcases hend with ⟨hhdr, htlast, hpack⟩ | ⟨hlst, htlast, hpack⟩
  · have hstate : (b.step c).adder.state = .hdr := hhdr
    have hl : (b.leaving c).tlast = true := htlast
    refine ⟨.inl hstate, fun _ => by simp [step, hleaves, hl], ?_⟩
    have hpackets : (b.step c).packets = b.packets ++ [b.emitted ++ [b.leaving c]] := by
      simp [step, hleaves, hl]
    rw [ending, hstate, if_neg (by simp), List.append_nil, hpackets, hexpected]
    exact congrArg (fun l => b.packets ++ [b.emitted ++ l]) hpack.symm
  · have hstate : (b.step c).adder.state = .lst := hlst
    have hl : (b.leaving c).tlast = false := htlast
    refine ⟨.inr hstate, fun hh => absurd (hstate.symm.trans hh) (by simp), ?_⟩
    have hpackets : (b.step c).packets = b.packets := by simp [step, hleaves, hl]
    have hemitted : (b.step c).emitted = b.emitted ++ [b.leaving c] := by
      simp [step, hleaves, hl]
    rw [ending, hstate, if_pos rfl, hpackets, hemitted, hexpected, List.append_assoc]
    exact congrArg (fun l => b.packets ++ [b.emitted ++ l]) hpack.symm

include hW in
theorem Associated.step_word (hm : Matched b.regs) : (b.step c).Associated := by
  obtain ⟨j, hj⟩ := h.fed hfed
  have hending : b.ending = [] := if_neg hj.state
  have hleft := h.left
  rw [hending, List.append_nil] at hleft
  cases hlast : b.dmaWord.tlast with
  | false =>
    obtain ⟨hin, hpackets⟩ := h.inside_word hW hfed hj hlast
    have hframes : (b.step c).frames = b.frames := by simp [step, hlast]
    have hmid : (b.step c).adder.state ≠ .lst ∧ (b.step c).adder.state ≠ .hdr := by
      rcases hin.state with hs | hs <;> simp [hs]
    refine ⟨h.calm.step _, h.busy_step, h.jobs_step, fun j => h.latched_step,
      fun j => h.headed_step hm, fun hproc j => h.final_step hproc, ?_, ?_, ?_, ?_, ?_⟩
    · intro hnil
      simp [step, hfed, hlast] at hnil
    · exact fun _ => ⟨j, hin⟩
    · exact fun hh => absurd hh hmid.2
    · rw [hframes]
      exact h.framed
    · rw [ending, if_neg hmid.1, List.append_nil, hpackets, hframes]
      exact hleft
  | true =>
    obtain ⟨hframe, hstate, hempty, hout⟩ := h.left_last hW hfed hj hlast
    have ht := h.takes_of_sending hj.sending
    have hp : SendSide.pktSent b.regs (b.sendCycle c) = true := by
      rw [pktSent_eq, hfed, hlast]
      simp
    have hnone : (b.step c).sending = none := by simp [step, ht, hp]
    have hbody : (b.step c).body = [] := by simp [step, hfed, hlast]
    have hframes : (b.step c).frames = b.frames ++ [(j, b.body ++ [b.dmaWord.view])] := by
      simp [step, hfed, hlast, hj.sending]
    refine ⟨h.calm.step _, h.busy_step, h.jobs_step, fun j => h.latched_step,
      fun j => h.headed_step hm, fun hproc j => h.final_step hproc, ?_, ?_, hempty, ?_, ?_⟩
    · intro _
      refine ⟨hstate, ?_, ?_⟩
      · rw [h.mHeaderV_fed hj, hnone]
        rfl
      · simp [hnone]
    · exact fun hne => absurd hbody hne
    · intro x hx
      rw [hframes] at hx
      rcases List.mem_append.mp hx with hold | hnew
      · exact h.framed x hold
      · rw [List.mem_singleton.mp hnew]
        exact hframe
    · rw [hout, hframes, List.map_append, hleft]
      rfl

end Word

/-- **One cycle keeps headers and packets together.** -/
theorem Associated.step (hW : 8 ≤ P.dma.strbWidth) (hm : Matched b.regs) :
    (b.step c).Associated := by
  cases hfed : b.feeds c with
  | false => exact h.step_idle hfed hm
  | true => exact h.step_word hW hfed hm

end Step

/-- **Every packet leaves behind its own header.**  In every run in which descriptors with
a header are taken with a length and not in the case the arbiters overlook, the packets
`axis_dma` sends are those of the descriptors with a length, in the order in which they
were taken; and the packets that leave the adder are these, each with the header of its
descriptor in front if it has one and with nothing in front if not. -/
theorem headers_of_matched (hW : 8 ≤ P.dma.strbWidth) {b : Bench P} (hstart : b.Start)
    {cycles : List (SendSide.Cycle P)}
    (hc : Meets Bench.step (fun b _ => Matched b.regs) b cycles) :
    let b' := run Bench.step b cycles
    b'.jobs.filter Job.sends = b'.frames.map Prod.fst ++ b'.sending.toList.filter Job.sends ∧
      (∀ x ∈ b'.frames, x.2 = pack P.dma.strbWidth (x.1.side P) (x.2.flatMap View.bytes)) ∧
      b'.packets <+: b'.frames.map expected ∧ b'.frames.length ≤ b'.packets.length + 1 := by
  have h : (run Bench.step b cycles).Associated :=
    run_invariant (fun b c hb hm => hb.step hW hm) hstart.associated hc
  refine ⟨h.jobs, h.framed, ⟨_, h.left⟩, ?_⟩
  have hlen := congrArg List.length h.left
  rw [List.length_append, List.length_map] at hlen
  rw [← hlen, ending]
  split <;> simp

/-! ## Runs of a small instance -/

/-- Words of 16 bytes. -/
def wideConfig : SendSide.Config := { sampleConfig with maskBits := 4, maskBits_le := by decide }

def wideBench : Bench wideConfig where
  regs := .reset
  mHeaderR := 0
  mHeaderV := false
  adder := ⟨.hdr, 0, 0, 0, 0⟩
  jobs := []
  sending := none
  body := []
  frames := []
  emitted := []
  packets := []

theorem wideBench_start : wideBench.Start where
  regs := SendSide.Regs.reset_fresh
  mHeaderV := rfl
  adder := rfl
  jobs := rfl
  sending := rfl
  body := rfl
  frames := rfl
  emitted := rfl
  packets := rfl

/-- A cycle of the core; memory, stream and `ctrl_m_axis` are ready. -/
def wideCycle (beat : DescParser.Beat) : SendSide.Cycle wideConfig :=
  ⟨false, beat, false, 0, false, 0, false, true, true, 0, true, true, true⟩

/-- A DRAM write of `len` bytes to address `0x1000`, and then a packet of 20 bytes. -/
def dramThenPacket (len : Nat) : List (SendSide.Cycle wideConfig) :=
  ([noBeat, ⟨BitVec.ofNat 64 (4 * 2 ^ 60 + len), false, true⟩, ⟨0x1000, true, true⟩,
    packetBeat 2 20] ++ List.replicate 20 noBeat).map wideCycle

/-- With 20 bytes in both, the DRAM write leaves with 28 bytes and the packet with 20. -/
theorem headers_of_matched_twenty :
    let b' := run Bench.step wideBench (dramThenPacket 20)
    (b'.jobs.map Job.header = [some 0x1000, none] ∧
      b'.packets.map (fun p => (p.flatMap View.bytes).length) = [28, 20]) ∧
      b'.jobs.filter Job.sends = b'.frames.map Prod.fst ++ b'.sending.toList.filter Job.sends ∧
      (∀ x ∈ b'.frames, x.2 =
        pack wideConfig.dma.strbWidth (x.1.side wideConfig) (x.2.flatMap View.bytes)) ∧
      b'.packets <+: b'.frames.map expected ∧ b'.frames.length ≤ b'.packets.length + 1 :=
  ⟨by decide +kernel, headers_of_matched (by decide) wideBench_start (by decide +kernel)⟩

/-- **A stale header.**  After a DRAM write of length 0 the packet of 20 bytes leaves with
the DRAM address in front of it; the arbiters are never in the case they overlook. -/
theorem stale_header :
    let b' := run Bench.step wideBench (dramThenPacket 0)
    wideBench.Start ∧ Meets Bench.step (fun b _ => Stray b.regs = false) wideBench
        (dramThenPacket 0) ∧
      b'.frames.map (fun x => x.1.header) = [none] ∧
      b'.frames.map (fun x => (x.2.flatMap View.bytes).length) = [20] ∧
      b'.packets.map (fun p => (p.flatMap View.bytes).length) = [28] ∧
      b'.packets.map (fun p => (p.flatMap View.bytes).take 8) =
        [[0x00, 0x10, 0, 0, 0, 0, 0, 0]] := by
  refine ⟨wideBench_start, ?_, ?_, ?_, ?_, ?_⟩ <;> decide +kernel

end Bench
end Rosebud.OutgoingHeader
