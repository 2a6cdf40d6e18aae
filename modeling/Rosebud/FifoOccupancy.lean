import Rosebud.BasicFifo
import Rosebud.StatusChannel

/-! # The queue occupancy the firmware reads

The firmware reads the item counts of four queues of `rpu_intercon` at `RD_FIFO_OCC`,
before it sends something that could stall it.  `rpu_controller` takes the counts from the
status words with address 6.  `rpu_intercon` does collect them in the wire
`fifo_occupancy`, but what it sends with address 6 is `ints_status`.

What the firmware reads in quiet times is therefore the tag of the last packet received,
whatever is in the queues: `items_of_quiet`.  It is right only by coincidence
(`occupancy_of_matching`), and a single descriptor that waits is never seen
(`waiting_descriptor_unseen`).
-/
namespace Rosebud.FifoOccupancy
open Clocked StatusChannel

/-- The address widths of the queues; each item count fits into eight bits. -/
structure Depths where
  sendAw : Nat
  dramAw : Nat
  msgAw : Nat
  msgWidth : Nat
  sendAw_lt : sendAw < 8
  dramAw_lt : dramAw < 8
  msgAw_lt : msgAw < 8

/-- The four item counts, as they are packed into a word. -/
structure Items where
  coreMsg : BitVec 8
  dramReq : BitVec 8
  dramSend : BitVec 8
  sendData : BitVec 8
deriving DecidableEq

def Items.ofWord (data : BitVec 32) : Items where
  coreMsg := data.extractLsb' 24 8
  dramReq := data.extractLsb' 16 8
  dramSend := data.extractLsb' 8 8
  sendData := data.extractLsb' 0 8

/-- The registers the core reads at `RD_FIFO_OCC`. -/
def rdFifoOcc (r : Controller) : Items where
  coreMsg := r.coreMsgItems
  dramReq := r.dramReqItems
  dramSend := r.dramSendItems
  sendData := r.sendDataItems

/-- The queues of `rpu_intercon` whose items are counted. -/
structure Fifos (P : Depths) where
  sendDataFifo : BasicFifo P.sendAw (BitVec 64)
  dramSendFifo : BasicFifo P.dramAw (BitVec 128)
  sendDramCtrlFifo : BasicFifo P.dramAw (BitVec 128)
  coreMsgOutFifo : BasicFifo P.msgAw (BitVec P.msgWidth)

/-- What enters and leaves the queues in a cycle. -/
structure Traffic (P : Depths) where
  sendDataFifo : BasicFifo.Inputs (BitVec 64)
  dramSendFifo : BasicFifo.Inputs (BitVec 128)
  sendDramCtrlFifo : BasicFifo.Inputs (BitVec 128)
  coreMsgOutFifo : BasicFifo.Inputs (BitVec P.msgWidth)

namespace Fifos
variable {P : Depths} (q : Fifos P) (t : Traffic P)

def next : Fifos P where
  sendDataFifo := q.sendDataFifo.next t.sendDataFifo
  dramSendFifo := q.dramSendFifo.next t.dramSendFifo
  sendDramCtrlFifo := q.sendDramCtrlFifo.next t.sendDramCtrlFifo
  coreMsgOutFifo := q.coreMsgOutFifo.next t.coreMsgOutFifo

/-- The wire `fifo_occupancy`.  Nothing reads it. -/
def fifoOccupancy : Items where
  coreMsg := q.coreMsgOutFifo.itemCountR.setWidth 8
  dramReq := q.sendDramCtrlFifo.itemCountR.setWidth 8
  dramSend := q.dramSendFifo.itemCountR.setWidth 8
  sendData := q.sendDataFifo.itemCountR.setWidth 8

end Fifos

/-- The status channel next to the queues. -/
structure Bench (P : Depths) where
  channel : Channel
  fifos : Fifos P

structure Cycle (P : Depths) where
  channel : StatusChannel.Cycle
  traffic : Traffic P

section Bench
variable {P : Depths} (I : Info) (b : Bench P) (c : Cycle P)

def step : Bench P where
  channel := b.channel.step I c.channel
  fifos := b.fifos.next c.traffic

/-- A cycle that leaves the item counts alone, with no interrupt and no debug word to be
sent. -/
@[mk_iff]
structure Quiet (b : Bench P) (c : Cycle P) : Prop where
  intValid : b.channel.intercon.intValid = false
  hostDebugLV : b.channel.intercon.hostDebugLV = false
  hostDebugHV : b.channel.intercon.hostDebugHV = false
  items : (step I b c).fifos.fifoOccupancy = b.fifos.fifoOccupancy

instance : Decidable (Quiet I b c) :=
  decidable_of_iff' _ (quiet_iff I b c)

/-- The queues hold what the status word happens to say: all but the descriptors of
packets are empty, and of those there are as many as the last packet's tag says. -/
def Matching : Prop :=
  b.fifos.fifoOccupancy = ⟨0, 0, 0, b.channel.intercon.recvDramTagR.setWidth 8⟩
deriving Decidable

end Bench

/-! ## After a reset -/

/-- How many words of the initial sequence are still to be sent. -/
def initLeft : StatusState → Nat
  | .info => 3
  | .timerL => 2
  | .timerH => 1
  | .default => 0

section Settled
variable {P : Depths} {I : Info} {b : Bench P} {c : Cycle P}

theorem coreResetR_step (h : b.channel.intercon.coreResetR = false) (hc : c.channel.NoReset) :
    (step I b c).channel.intercon.coreResetR = false := by
  show c.channel.events.coreReset.getD _ = false
  cases he : c.channel.events.coreReset with
  | none => exact h
  | some v => simpa [StatusChannel.Cycle.NoReset, he] using hc

theorem initLeft_step (h : b.channel.intercon.coreResetR = false) :
    initLeft (step I b c).channel.intercon.interconStatusState =
      initLeft b.channel.intercon.interconStatusState - 1 := by
  show initLeft (b.channel.intercon.nextStatus I).1 = _
  simp only [Intercon.nextStatus, h, Bool.false_eq_true, if_false]
  cases b.channel.intercon.interconStatusState with
  | default =>
    split_ifs <;> rfl
  | info | timerL | timerH => rfl

/-- The core stays out of reset, and the initial words are sent one in each cycle. -/
theorem initLeft_run {cycles : List (Cycle P)} (h : b.channel.intercon.coreResetR = false)
    (hc : Meets (step I) (fun _ c => c.channel.NoReset) b cycles) :
    (run (step I) b cycles).channel.intercon.coreResetR = false ∧
      initLeft (run (step I) b cycles).channel.intercon.interconStatusState =
        initLeft b.channel.intercon.interconStatusState - cycles.length := by
  induction cycles generalizing b with
  | nil => exact ⟨h, rfl⟩
  | cons c cycles ih =>
    obtain ⟨hreset, hleft⟩ := ih (coreResetR_step h hc.1) hc.2
    refine ⟨hreset, ?_⟩
    rw [run_cons, hleft, initLeft_step h, List.length_cons]
    omega

end Settled

/-! ## What is sent in quiet times -/

/-- With no interrupt, the interrupt word holds the tag alone. -/
theorem intsStatus_of_not_intValid {g : Intercon} (h : g.intValid = false) :
    g.intsStatus = g.recvDramTagR.setWidth 32 := by
  simp only [Intercon.intValid, Bool.or_eq_false_iff] at h
  obtain ⟨⟨⟨⟨⟨hpoke, hevict⟩, hdupl⟩, hslot⟩, hdesc⟩, htag⟩ := h
  simp only [Intercon.intsStatus, hpoke, hevict, hdupl, hslot, hdesc, htag]
  generalize g.recvDramTagR = tag
  revert tag
  decide

theorem ofWord_setWidth (tag : BitVec 5) :
    Items.ofWord (tag.setWidth 32) = ⟨0, 0, 0, tag.setWidth 8⟩ := by
  revert tag
  decide

section Quiet
variable {P : Depths} {I : Info} {b : Bench P} {c : Cycle P}

/-- A quiet cycle after the initial sequence sends `ints_status` with address 6. -/
theorem Quiet.status (hq : Quiet I b c) (hreset : b.channel.intercon.coreResetR = false)
    (hstate : b.channel.intercon.interconStatusState = .default) :
    (step I b c).channel.intercon.interconStatusAddr = 6 ∧
      (step I b c).channel.intercon.interconStatusData = b.channel.intercon.intsStatus := by
  simp [step, Channel.step, Intercon.next, Intercon.nextStatus, hreset, hstate, hq.intValid,
    hq.hostDebugLV, hq.hostDebugHV]

/-- The controller takes a word with address 6 for the item counts. -/
theorem rdFifoOcc_of_addr (haddr : b.channel.interconStatusAddrR = 6) :
    rdFifoOcc (step I b c).channel.controller = .ofWord b.channel.interconStatusDataR := by
  simp [step, Channel.step, Controller.next, rdFifoOcc, Items.ofWord, haddr]

/-- The item counts do not move in quiet cycles. -/
theorem fifoOccupancy_run {cycles : List (Cycle P)} (hc : Meets (step I) (Quiet I) b cycles) :
    (run (step I) b cycles).fifos.fifoOccupancy = b.fifos.fifoOccupancy := by
  induction cycles generalizing b with
  | nil => rfl
  | cons c cycles ih => exact (ih hc.2).trans hc.1.items

end Quiet

/-- **What the core reads in quiet times** is the tag that `rpu_intercon` held three cycles
earlier, and zeros. -/
theorem items_of_quiet {P : Depths} {I : Info} {b : Bench P} {before : List (Cycle P)}
    {c₀ c₁ c₂ : Cycle P} (hreset : b.channel.intercon.coreResetR = false)
    (hc : Meets (step I) (fun b c => c.channel.NoReset ∧ Quiet I b c) b (before ++ [c₀, c₁, c₂]))
    (hlen : 3 ≤ before.length) :
    rdFifoOcc (run (step I) b (before ++ [c₀, c₁, c₂])).channel.controller =
      ⟨0, 0, 0, (run (step I) b before).channel.intercon.recvDramTagR.setWidth 8⟩ := by
  obtain ⟨hbefore, ⟨-, hq⟩, -⟩ := meets_append.1 hc
  obtain ⟨hreset', hleft⟩ := initLeft_run hreset (hbefore.imp fun _ _ h => h.1)
  rw [run_append]
  generalize run (step I) b before = b' at *
  have hdefault : b'.channel.intercon.interconStatusState = .default := by
    have hmax : initLeft b.channel.intercon.interconStatusState ≤ 3 := by
      cases b.channel.intercon.interconStatusState <;> simp [initLeft]
    have hzero : initLeft b'.channel.intercon.interconStatusState = 0 := by omega
    revert hzero
    cases b'.channel.intercon.interconStatusState <;> simp [initLeft]
  -- the word of the first cycle is decoded in the third
  obtain ⟨haddr, hdata⟩ := hq.status hreset' hdefault
  have hread := rdFifoOcc_of_addr (I := I) (c := c₂) (b := step I (step I b' c₀) c₁) haddr
  refine hread.trans ?_
  have hword : (step I (step I b' c₀) c₁).channel.interconStatusDataR =
      b'.channel.intercon.recvDramTagR.setWidth 32 :=
    hdata.trans (intsStatus_of_not_intValid hq.intValid)
  rw [hword, ofWord_setWidth]

/-- **The occupancy is right when the tag matches.**  Once the core is out of reset, in a
quiet time in which the queues always hold what the status word says, the core reads the
true item counts from the sixth cycle on. -/
theorem occupancy_of_matching {P : Depths} (I : Info) {b : Bench P}
    (hreset : b.channel.intercon.coreResetR = false) (cycles quiet : List (Cycle P))
    (hc : Meets (step I) (fun _ c => c.channel.NoReset) b cycles)
    (hq : Meets (step I) (fun b c => (c.channel.NoReset ∧ Quiet I b c) ∧ Matching b)
      (run (step I) b cycles) quiet)
    (hlen : 6 ≤ quiet.length) :
    let b' := run (step I) (run (step I) b cycles) quiet
    rdFifoOcc b'.channel.controller = b'.fifos.fifoOccupancy := by
  intro b'
  obtain ⟨hreset', -⟩ := initLeft_run hreset hc
  obtain ⟨before, c₀, c₁, c₂, rfl⟩ : ∃ before c₀ c₁ c₂, quiet = before ++ [c₀, c₁, c₂] := by
    obtain ⟨c₀, c₁, c₂, hlast⟩ := List.length_eq_three.1
      (show (quiet.drop (quiet.length - 3)).length = 3 by rw [List.length_drop]; omega)
    exact ⟨quiet.take (quiet.length - 3), c₀, c₁, c₂, by rw [← hlast, List.take_append_drop]⟩
  have hquiet := hq.imp fun _ _ h => h.1
  have hread := items_of_quiet hreset' hquiet (by simpa using hlen)
  obtain ⟨-, hlast⟩ := meets_append.1 hq
  have hmatch := hlast.1.2
  have hcount := fifoOccupancy_run ((meets_append.1 hquiet).2.imp fun _ _ h => h.2)
  rw [← run_append] at hcount
  exact hread.trans (hmatch.symm.trans hcount.symm)

/-! ## A descriptor nobody sees -/

/-- Queues of eight entries. -/
def sampleDepths : Depths := ⟨3, 3, 3, 46, by decide, by decide, by decide⟩

/-- A cycle in which a queue may be offered an entry and gives none away. -/
def inputs {w : Nat} (dinValid : Bool) : BasicFifo.Inputs (BitVec w) where
  rst := false
  clear := false
  dinValid := dinValid
  din := 0
  doutReady := false

/-- Nothing happens, but that a descriptor may be pushed; the last packet had this tag. -/
def pushing (sendData : Bool) (tag : BitVec 5) : Cycle sampleDepths where
  channel := .ofEvents { Events.none with recvDramTag := tag }
  traffic := ⟨inputs sendData, inputs false, inputs false, inputs false⟩

/-- Out of reset, with every queue empty. -/
def started : Bench sampleDepths where
  channel := run (Channel.step sampleInfo) (inReset sampleInfo) release
  fifos :=
    let empty {aw w : Nat} : BasicFifo aw (BitVec w) := ⟨fun _ => 0, 0, 0, true, false, 0⟩
    ⟨empty, empty, empty, empty⟩

/-- A packet descriptor waits. -/
def waiting : Bench sampleDepths := step sampleInfo started (pushing true 0)

/-- One descriptor waits and the last packet had tag 1. -/
theorem occupancy_of_matching_tag :
    let b' := run (step sampleInfo) (run (step sampleInfo) waiting [pushing false 1])
      (List.replicate 6 (pushing false 1))
    rdFifoOcc b'.channel.controller = b'.fifos.fifoOccupancy :=
  occupancy_of_matching sampleInfo (by decide +kernel) [pushing false 1]
    (List.replicate 6 (pushing false 1)) (by decide +kernel) (by decide +kernel) (by decide)

theorem itemCountR_next {aw w : Nat} (q : BasicFifo aw (BitVec w)) :
    (q.next (inputs false)).itemCountR = q.itemCountR := by
  simp [BasicFifo.next, BasicFifo.enque, BasicFifo.deque, inputs]

/-- Nothing is to be sent, and the last tag was 0. -/
structure Idle (b : Bench sampleDepths) : Prop where
  items : b.fifos.fifoOccupancy = waiting.fifos.fifoOccupancy
  eventR : b.channel.intercon.eventR = fun _ => false
  recvDramTagVR : b.channel.intercon.recvDramTagVR = false
  recvDramTagR : b.channel.intercon.recvDramTagR = 0
  hostDebugLV : b.channel.intercon.hostDebugLV = false
  hostDebugHV : b.channel.intercon.hostDebugHV = false

variable {b : Bench sampleDepths}

theorem fifoOccupancy_pushing (b : Bench sampleDepths) :
    (step sampleInfo b (pushing false 0)).fifos.fifoOccupancy = b.fifos.fifoOccupancy := by
  simp [step, Fifos.next, Fifos.fifoOccupancy, pushing, itemCountR_next]

theorem Idle.intValid (h : Idle b) : b.channel.intercon.intValid = false := by
  simp [Intercon.intValid, h.eventR, h.recvDramTagVR]

theorem Idle.step (h : Idle b) : Idle (FifoOccupancy.step sampleInfo b (pushing false 0)) where
  items := (fifoOccupancy_pushing b).trans h.items
  eventR := rfl
  recvDramTagVR := rfl
  recvDramTagR := rfl
  hostDebugLV := by
    show (false || (b.channel.intercon.hostDebugLV && _)) = false
    simp [h.hostDebugLV]
  hostDebugHV := by
    show (false || (b.channel.intercon.hostDebugHV && _)) = false
    simp [h.hostDebugHV]

theorem Idle.quiet (h : Idle b) :
    (pushing false 0).channel.NoReset ∧ Quiet sampleInfo b (pushing false 0) :=
  ⟨by decide, h.intValid, h.hostDebugLV, h.hostDebugHV, fifoOccupancy_pushing b⟩

/-- While nothing happens, every cycle is quiet. -/
theorem Idle.run (h : Idle b) (k : Nat) : Meets (FifoOccupancy.step sampleInfo)
        (fun b c => c.channel.NoReset ∧ Quiet sampleInfo b c) b
        (List.replicate k (pushing false 0)) ∧
      Idle (Clocked.run (FifoOccupancy.step sampleInfo) b
        (List.replicate k (pushing false 0))) := by
  induction k generalizing b with
  | zero => exact ⟨trivial, h⟩
  | succ k ih =>
    obtain ⟨hmeets, hidle⟩ := ih h.step
    exact ⟨⟨h.quiet, hmeets⟩, hidle⟩

theorem idle_waiting : Idle waiting where
  items := rfl
  eventR := rfl
  recvDramTagVR := rfl
  recvDramTagR := rfl
  hostDebugLV := by decide +kernel
  hostDebugHV := by decide +kernel

/-- **A descriptor that waits is never seen.**  With one descriptor in `send_data_fifo` and
nothing else going on, the core does not read the true item counts, however long it
waits. -/
theorem waiting_descriptor_unseen :
    waiting.channel.intercon.coreResetR = false ∧
      ∀ n, 6 ≤ n →
        let quiet := List.replicate n (pushing false 0)
        let b' := run (step sampleInfo) waiting quiet
        Meets (step sampleInfo) (fun b c => c.channel.NoReset ∧ Quiet sampleInfo b c)
          waiting quiet ∧
        rdFifoOcc b'.channel.controller ≠ b'.fifos.fifoOccupancy := by
  have hreset : waiting.channel.intercon.coreResetR = false := by decide +kernel
  refine ⟨hreset, fun n hn => ?_⟩
  have hidle := idle_waiting.run
  refine ⟨(hidle n).1, ?_⟩
  obtain ⟨k, rfl⟩ : ∃ k, n = k + 3 := ⟨n - 3, by omega⟩
  have hquiet := (hidle (k + 3)).1
  rw [(hidle (k + 3)).2.items]
  rw [List.replicate_add] at hquiet ⊢
  have hread := items_of_quiet hreset hquiet (by simp; omega)
  rw [(hidle k).2.recvDramTagR] at hread
  intro heq
  exact absurd (hread.symm.trans heq) (by decide +kernel)

end Rosebud.FifoOccupancy
