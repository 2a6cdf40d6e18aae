import Rosebud.LbController

/-! # Requests of cores for a slot of another core

A core that has a packet for another one asks `lb_controller` for a slot there.  The
request waits in the FIFO of the other core.  Three conditions, written down separately,
have to come true in one cycle: the read of the FIFO, the pop of the core's `slot_keeper`
and the acceptance by the arbiter behind the FIFOs, which takes the request with the slot.
From there it goes, with the messages about packets that left (`pkt_done_fifo`), through an
alternating arbiter and a latch to the core that asked.

`requests_answered` says for every run from reset that the three coincide, that every
request read and every entry of `pkt_done_fifo` becomes one message, in order, with the
right fields, and that neither kind of message is passed over twice in a row.  The vendored
arbiter is the circuit of `AxisArbMux`.
-/
namespace Rosebud.InterCore
open Clocked LbController

variable {P : LbConfig}

/-! ## Messages -/

/-- A message on `ctrl_m_axis`: `tdest` and `tdata`. -/
abbrev Message (P : LbConfig) := BitVec P.coreIdWidth × BitVec 36

/-- A request with the slot popped for it. -/
abbrev Matched (P : LbConfig) := Req P × BitVec P.slotWidth

/-- What a core is told about its request. -/
structure Reply (P : LbConfig) where
  dest : BitVec P.coreIdWidth
  srcSlot : BitVec 8
  core : BitVec P.coreIdWidth
  slot : BitVec P.slotWidth
deriving DecidableEq

/-- The core a request is for. -/
def Req.core (q : Req P) : BitVec P.coreIdWidth := q.desc.extractLsb' 24 P.coreIdWidth

/-- What should be answered to a request. -/
def answer (q : Matched P) : Reply P := ⟨q.1.src, q.1.desc.extractLsb' 16 8, Req.core q.1, q.2⟩

namespace Message
variable (m : Message P)

def type : BitVec 4 := m.2.extractLsb' 32 4

/-- The fields of a type 1 message. -/
def reply : Reply P where
  dest := m.1
  srcSlot := m.2.extractLsb' 16 8
  core := m.2.extractLsb' P.tagWidth P.coreIdWidth
  slot := m.2.extractLsb' 0 P.slotWidth

end Message

/-- The type 1 messages about core `d`. -/
def repliesFor (d : Fin P.coreCount) (l : List (Message P)) : List (Reply P) :=
  ((l.filter fun m => decide (Message.type m = 1)).map Message.reply).filter fun x =>
    decide (x.core.toNat = d)

/-- The type 0 messages. -/
def donesOf (l : List (Message P)) : List (Req P) :=
  (l.filter fun m => decide (Message.type m = 0)).map fun m => ⟨m.1, m.2.setWidth 32⟩

/-- The words of the arbiter that are for core `d`. -/
def forCore (d : Fin P.coreCount) (l : List (Matched P × Bool)) : List (Matched P) :=
  (l.map Prod.fst).filter fun q => decide ((Req.core q.1).toNat = d)

section Lists
variable (d : Fin P.coreCount)

@[simp] theorem repliesFor_append (l l' : List (Message P)) :
    repliesFor d (l ++ l') = repliesFor d l ++ repliesFor d l' := by
  simp [repliesFor]

@[simp] theorem donesOf_append (l l' : List (Message P)) :
    donesOf (l ++ l') = donesOf l ++ donesOf l' := by
  simp [donesOf]

@[simp] theorem forCore_append (l l' : List (Matched P × Bool)) :
    forCore d (l ++ l') = forCore d l ++ forCore d l' := by
  simp [forCore]

@[simp] theorem forCore_nil : forCore d ([] : List (Matched P × Bool)) = [] := rfl

end Lists

/-! ## What is written down -/

/-- A transfer into the latch: of which kind it is, and whether the other kind waited. -/
structure Turn where
  toCore : Bool
  passesOver : Bool
deriving DecidableEq

structure Bench (P : LbConfig) where
  regs : Regs P
  reads : Fin P.coreCount → List (Matched P)
  doneTaken : List (Req P)
  sent : List (Message P)
  turns : List Turn

section Cycle
variable (r : Regs P) (c : Cycle P)

/-- The request read from the FIFO of core `d`, with the slot its keeper offers. -/
def readsNow (d : Fin P.coreCount) : List (Matched P) :=
  if (r.pktToCoreFifo d).deque (pktToCoreInputs r c d) then
    [((r.pktToCoreFifo d).dout, nextSlot r d)]
  else []

/-- The message that goes into the latch. -/
def emits : List (Message P) :=
  if ctrlOutValid r && ctrlOutReady r c then [(ctrlOutDest r, ctrlOutDesc r)] else []

/-- The message in the latch. -/
def latch : List (Message P) := if r.ctrlOutValidR then [(r.ctrlOutDestR, r.ctrlOutDescR)] else []

def turnsNow : List Turn :=
  if ctrlOutValid r && ctrlOutReady r c then
    [⟨ctrlOutSelect r, selectedPktToCoreValid r && pktDoneValid r⟩]
  else []

/-- The requests read and not yet in the latch. -/
def waiting (d : Fin P.coreCount) : List (Matched P) :=
  forCore d (r.pktToCoreArbiter.contents) ++
    (r.pktToCoreArbiter.portContents d).map Prod.fst

end Cycle

namespace Bench
variable (b : Bench P) (c : Cycle P)

def step : Bench P where
  regs := next b.regs c
  reads d := b.reads d ++ readsNow b.regs c d
  doneTaken := b.doneTaken ++
    if b.regs.pktDoneFifo.enque (pktDoneInputs b.regs c) then [message c] else []
  sent := b.sent ++ if c.ctrlMAxisTready then latch b.regs else []
  turns := b.turns ++ turnsNow b.regs c

/-- Out of reset, with nothing written down. -/
structure Start (b : Bench P) : Prop where
  regs : Fresh b.regs
  reads : ∀ d, b.reads d = []
  doneTaken : b.doneTaken = []
  sent : b.sent = []
  turns : b.turns = []

end Bench

/-! ## Read, pop and acceptance -/

section Coincide
variable {r : Regs P} {c : Cycle P} {d : Fin P.coreCount}

/-- A request is read only in a cycle in which the keeper pops a valid slot. -/
theorem keeper_deque_of_read (h : (r.pktToCoreFifo d).deque (pktToCoreInputs r c d) = true) :
    (r.slotKeeper d).deque (keeperInputs r c d) = true := by
  have hparts : pktToCoreValid r d = true ∧
      (arbToCoreReady r d && slotValids r d && c.enabledCores d) = true :=
    Bool.and_eq_true_iff.mp h
  simp only [Bool.and_eq_true] at hparts
  obtain ⟨hvalid, ⟨hready, hslot⟩, henabled⟩ := hparts
  have hpop : nextSlotPop r c d = true := by simp [nextSlotPop, slotBusys, hvalid, hready, henabled]
  exact Bool.and_eq_true_iff.mpr ⟨hslot, hpop⟩

/-- A pop that is not the policy's own is for a request that is read. -/
theorem read_of_keeper_deque (h : (r.slotKeeper d).deque (keeperInputs r c d) = true)
    (hpolicy : (c.descPop && decide (c.selectedCore.toNat = d)) = false) :
    (r.pktToCoreFifo d).deque (pktToCoreInputs r c d) = true := by
  obtain ⟨hslot, hpop⟩ := Bool.and_eq_true_iff.mp h
  have hbusy : (slotBusys r d && c.enabledCores d) = true := by
    have hor : ((c.descPop && decide (c.selectedCore.toNat = d)) ||
        (slotBusys r d && c.enabledCores d)) = true := hpop
    rwa [hpolicy, Bool.false_or] at hor
  simp only [slotBusys, Bool.and_eq_true] at hbusy
  obtain ⟨⟨hvalid, hready⟩, henabled⟩ := hbusy
  have hslot' : slotValids r d = true := hslot
  have hread : (arbToCoreReady r d && slotValids r d && c.enabledCores d) = true := by
    simp [hready, hslot', henabled]
  exact Bool.and_eq_true_iff.mpr ⟨hvalid, hread⟩

/-- The arbiter takes a request exactly when it is read. -/
theorem accepts_eq_readsNow :
    (r.pktToCoreArbiter.accepts (arbiterInputs r c) d).map Prod.fst = readsNow r c d := by
  have hsame : ((arbiterInputs r c).sAxisTvalid d && r.pktToCoreArbiter.sAxisTready d) =
      (r.pktToCoreFifo d).deque (pktToCoreInputs r c d) := by
    change ((pktToCoreValid r d && slotValids r d && c.enabledCores d) && arbToCoreReady r d) =
      (pktToCoreValid r d && (arbToCoreReady r d && slotValids r d && c.enabledCores d))
    cases pktToCoreValid r d <;> cases slotValids r d <;> cases c.enabledCores d <;>
      cases arbToCoreReady r d <;> rfl
  unfold AxisArbMux.accepts readsNow
  rw [hsame]
  split <;> rfl

end Coincide

/-! ## The fields of a message -/

/-- The fields of a message have the bits they need; otherwise the concatenations of the
source are not legal. -/
structure Fits (P : LbConfig) : Prop where
  core : P.coreIdWidth ≤ 8
  idTag : P.coreIdWidth + P.tagWidth ≤ 16

theorem slotWidth_le_tagWidth (P : LbConfig) : P.slotWidth ≤ P.tagWidth := by
  unfold LbConfig.tagWidth
  split <;> omega

section Fields
variable {r : Regs P} {c : Cycle P}

theorem type_ctrlOut : Message.type (ctrlOutDest r, ctrlOutDesc r) =
    if ctrlOutSelect r then 1 else 0 := by
  unfold Message.type ctrlOutDesc
  split <;> exact BitVec.extractLsb'_append_eq_left

/-- A type 1 message says what should be answered. -/
theorem reply_ctrlOut (hfit : Fits P) (hsel : ctrlOutSelect r = true) :
    Message.reply (ctrlOutDest r, ctrlOutDesc r) = answer r.pktToCoreArbiter.mAxis.1 := by
  have hcore := hfit.idTag
  have hslot := slotWidth_le_tagWidth P
  simp only [Message.reply, answer, ctrlOutDest, ctrlOutDesc, hsel, if_true, Reply.mk.injEq]
  refine ⟨rfl, ?_, ?_, ?_⟩
  · rw [BitVec.extractLsb'_append_eq_of_add_le (by omega), pktToCoreWithPort,
      BitVec.extractLsb'_append_eq_of_le (by omega),
      BitVec.extractLsb'_append_eq_of_add_le (by omega)]
    exact BitVec.extractLsb'_eq_self
  · rw [BitVec.extractLsb'_append_eq_of_add_le (by omega), pktToCoreWithPort,
      BitVec.extractLsb'_append_eq_of_add_le (by omega),
      BitVec.extractLsb'_setWidth_of_le (by omega), destIdSlot]
    exact BitVec.extractLsb'_append_eq_left
  · rw [BitVec.extractLsb'_append_eq_of_add_le (by omega), pktToCoreWithPort,
      BitVec.extractLsb'_append_eq_of_add_le (by omega),
      BitVec.extractLsb'_setWidth_of_le (by omega), destIdSlot,
      BitVec.extractLsb'_append_eq_of_add_le (by omega),
      BitVec.extractLsb'_setWidth_of_le (by omega)]
    exact BitVec.extractLsb'_eq_self

/-- A type 0 message has the descriptor unchanged. -/
theorem done_ctrlOut (hsel : ctrlOutSelect r = false) :
    (⟨ctrlOutDest r, (ctrlOutDesc r).setWidth 32⟩ : Req P) = r.pktDoneFifo.dout := by
  simp only [ctrlOutDest, ctrlOutDesc, hsel, Bool.false_eq_true, if_false]
  rw [BitVec.setWidth_append, dif_pos (Nat.le_refl 32), BitVec.setWidth_eq]

/-- A request pushed into the FIFO of a core is for that core. -/
theorem core_message (hfit : Fits P) {d : Fin P.coreCount} (h : (destCore c).toNat = d) :
    (Req.core (message c)).toNat = d := by
  have hle := hfit.core
  rw [← h, Req.core, message, BitVec.extractLsb'_setWidth_of_le (by omega)]
  rfl

/-- What is selected waits. -/
theorem ctrlOutSelect_spec (h : ctrlOutValid r = true) :
    (ctrlOutSelect r = true → selectedPktToCoreValid r = true) ∧
      (ctrlOutSelect r = false → pktDoneValid r = true) := by
  unfold ctrlOutValid at h
  unfold ctrlOutSelect
  cases hs : selectedPktToCoreValid r <;> cases hd : pktDoneValid r <;> simp_all

end Fields

/-! ## One cycle -/

section Emit
variable {r : Regs P} {c : Cycle P}

/-- **The latch is a queue of one message.** -/
theorem latch_conservation : latch r ++ emits r c =
    (if c.ctrlMAxisTready then latch r else []) ++ latch (next r c) := by
  cases hv : r.ctrlOutValidR <;> cases hm : c.ctrlMAxisTready <;> cases ho : ctrlOutValid r <;>
    simp [latch, emits, next, ctrlOutReady, hv, hm, ho]

/-- A type 1 message goes into the latch exactly when the arbiter hands a request on. -/
theorem repliesFor_emits (hfit : Fits P) (d : Fin P.coreCount) : repliesFor d (emits r c) =
    (forCore d (r.pktToCoreArbiter.sends (arbiterInputs r c))).map answer := by
  have hsends : r.pktToCoreArbiter.sends (arbiterInputs r c) =
      if selectedPktToCoreValid r && (ctrlOutSelect r && ctrlOutReady r c) then
        [r.pktToCoreArbiter.mAxis] else [] := rfl
  rw [hsends, emits]
  cases hv : ctrlOutValid r && ctrlOutReady r c with
  | false =>
    have hno : (selectedPktToCoreValid r && (ctrlOutSelect r && ctrlOutReady r c)) = false := by
      rw [ctrlOutValid] at hv
      cases hs : selectedPktToCoreValid r <;> cases hr : ctrlOutReady r c <;> simp_all
    rw [hno]
    rfl
  | true =>
    obtain ⟨hvalid, hready⟩ := Bool.and_eq_true_iff.mp hv
    cases hsel : ctrlOutSelect r with
    | false => simp [repliesFor, type_ctrlOut, hsel]
    | true =>
      have hwaits := (ctrlOutSelect_spec hvalid).1 hsel
      have hreply := reply_ctrlOut hfit hsel
      by_cases hd : (Req.core r.pktToCoreArbiter.mAxis.1.1).toNat = d
      · simp [repliesFor, forCore, type_ctrlOut, hsel, hwaits, hready, hreply, answer, hd]
      · simp [repliesFor, forCore, type_ctrlOut, hsel, hwaits, hready, hreply, answer, hd]

/-- A type 0 message goes into the latch exactly when `pkt_done_fifo` is read. -/
theorem donesOf_emits : donesOf (emits r c) =
    if r.pktDoneFifo.deque (pktDoneInputs r c) then [r.pktDoneFifo.dout] else [] := by
  have hdeque : r.pktDoneFifo.deque (pktDoneInputs r c) =
      (pktDoneValid r && (!ctrlOutSelect r && ctrlOutReady r c)) := rfl
  rw [hdeque, emits]
  cases hv : ctrlOutValid r && ctrlOutReady r c with
  | false =>
    have hno : (pktDoneValid r && (!ctrlOutSelect r && ctrlOutReady r c)) = false := by
      rw [ctrlOutValid] at hv
      cases hd : pktDoneValid r <;> cases hr : ctrlOutReady r c <;> simp_all
    rw [hno]
    rfl
  | true =>
    obtain ⟨hvalid, hready⟩ := Bool.and_eq_true_iff.mp hv
    cases hsel : ctrlOutSelect r with
    | true => simp [donesOf, type_ctrlOut, hsel]
    | false =>
      have hwaits := (ctrlOutSelect_spec hvalid).2 hsel
      have hdone := done_ctrlOut hsel
      simp [donesOf, type_ctrlOut, hsel, hwaits, hready, hdone]

end Emit

/-! ## The invariant -/

/-- The queues are in order, and a request in the FIFO or at the port of a core is for that
core. -/
structure Sound (r : Regs P) : Prop where
  doneFifo : r.pktDoneFifo.Valid
  fifo : ∀ d, (r.pktToCoreFifo d).Valid
  fifoCore : ∀ d, ∀ q ∈ (r.pktToCoreFifo d).contents, (Req.core q).toNat = d
  arbiter : r.pktToCoreArbiter.Valid
  serving : r.pktToCoreArbiter.Serving
  portCore : ∀ d, ∀ x ∈ r.pktToCoreArbiter.portContents d, (Req.core x.1.1).toNat = d

section Sound
variable {r : Regs P} {c : Cycle P}

theorem Sound.read_core (h : Sound r) {d : Fin P.coreCount} {q : Matched P}
    (hq : q ∈ readsNow r c d) : (Req.core q.1).toNat = d := by
  unfold readsNow at hq
  split at hq
  · rename_i hdeque
    rw [List.mem_singleton.mp hq]
    exact h.fifoCore d _ ((h.fifo d).dout_mem (Bool.and_eq_true_iff.mp hdeque).1)
  · exact absurd hq List.not_mem_nil

theorem Sound.next (hfit : Fits P) (h : Sound r) (c : Cycle P) : Sound (next r c) where
  doneFifo := h.doneFifo.next (by decide) (pktDoneInputs r c)
  fifo d := (h.fifo d).next P.fifoWidth_pos (pktToCoreInputs r c d)
  fifoCore d := by
    refine BasicFifo.forall_contents_next (i := pktToCoreInputs r c d)
      (Q := fun q : Req P => (Req.core q).toNat = d) (h.fifo d) rfl (h.fifoCore d) ?_
    intro henque
    have hin := (Bool.and_eq_true_iff.mp henque).1
    exact core_message hfit (of_decide_eq_true (Bool.and_eq_true_iff.mp hin).2)
  arbiter := h.arbiter.next (arbiterInputs r c)
  serving := h.serving.next fun _ => rfl
  portCore d x hx := by
    have hmem : x ∈ r.pktToCoreArbiter.portContents d ++
        r.pktToCoreArbiter.accepts (arbiterInputs r c) d := by
      rw [AxisArbMux.port_conservation]
      exact List.mem_append_right _ hx
    rcases List.mem_append.mp hmem with hold | hnew
    · exact h.portCore d x hold
    · refine h.read_core (c := c) (q := x.1) ?_
      rw [← accepts_eq_readsNow]
      exact List.mem_map_of_mem hnew

/-- Behind the ports the words of a core are those its own port hands on. -/
theorem Sound.forCore_passes (h : Sound r) (d : Fin P.coreCount) :
    forCore d r.pktToCoreArbiter.passes = (r.pktToCoreArbiter.passesOf d).map Prod.fst := by
  rcases h.arbiter.passes_eq with ⟨hnone, hall⟩ | ⟨j, hpass, hown, hvalid, hother⟩
  · rw [hnone, hall d]
    rfl
  · have hmem : r.pktToCoreArbiter.sAxisReg j ∈ r.pktToCoreArbiter.portContents j := by
      simp [AxisArbMux.portContents, hvalid]
    have hcore := h.portCore j _ hmem
    rw [hpass]
    by_cases hd : j = d
    · subst hd
      rw [hown]
      simp [forCore, hcore]
    · rw [hother d (Ne.symm hd)]
      have hne : (j : Nat) ≠ d := fun heq => hd (Fin.ext heq)
      simp [forCore, hcore, hne]

/-- **A request that is read waits for its turn.** -/
theorem Sound.waiting_conservation (h : Sound r) (d : Fin P.coreCount) :
    waiting r d ++ readsNow r c d =
      forCore d (r.pktToCoreArbiter.sends (arbiterInputs r c)) ++
        waiting (LbController.next r c) d := by
  have hport := congrArg (List.map Prod.fst)
    (AxisArbMux.port_conservation (s := r.pktToCoreArbiter) (i := arbiterInputs r c) d)
  rw [List.map_append, List.map_append, accepts_eq_readsNow] at hport
  have hout := congrArg (forCore d) (h.arbiter.conservation (i := arbiterInputs r c))
  rw [forCore_append, forCore_append, h.forCore_passes] at hout
  exact append_handover hout hport

end Sound

/-! ## Turns -/

/-- When both kinds wait, the other kind than last time has its turn. -/
def Alternating (turns : List Turn) : Prop :=
  turns.IsChain fun x y => y.passesOver = true → y.toCore ≠ x.toCore

/-- `last_selected` remembers the last turn. -/
structure Remembered (b : Bench P) : Prop where
  last : ∀ t, b.turns.getLast? = some t → b.regs.lastSelected = t.toCore
  alternating : Alternating b.turns

theorem Remembered.step {b : Bench P} (h : Remembered b) (c : Cycle P) :
    Remembered (b.step c) := by
  cases hv : ctrlOutValid b.regs && ctrlOutReady b.regs c with
  | false =>
    have hturns : (b.step c).turns = b.turns := by simp [Bench.step, turnsNow, hv]
    have hlast : (b.step c).regs.lastSelected = b.regs.lastSelected := by
      simp [Bench.step, next, hv]
    refine ⟨?_, ?_⟩
    · rw [hturns, hlast]
      exact h.last
    · rw [hturns]
      exact h.alternating
  | true =>
    have hturns : (b.step c).turns = b.turns ++
        [⟨ctrlOutSelect b.regs, selectedPktToCoreValid b.regs && pktDoneValid b.regs⟩] := by
      simp [Bench.step, turnsNow, hv]
    have hlast : (b.step c).regs.lastSelected = ctrlOutSelect b.regs := by
      simp [Bench.step, next, hv]
    refine ⟨?_, ?_⟩
    · intro t ht
      rw [hturns, List.getLast?_append, List.getLast?_singleton] at ht
      rw [hlast, ← Option.some.inj ht]
    · rw [hturns]
      refine List.isChain_append.mpr ⟨h.alternating, List.isChain_singleton _, ?_⟩
      intro x hx y hy hboth
      rw [List.head?_cons, Option.mem_some_iff] at hy
      subst hy
      have hsel : ctrlOutSelect b.regs = !b.regs.lastSelected := if_pos hboth
      rw [hsel, h.last x hx]
      exact Bool.not_ne_self _

/-! ## Whole runs -/

structure Inv (b : Bench P) : Prop where
  sound : Sound b.regs
  replies : ∀ d, repliesFor d (b.sent ++ latch b.regs) ++ (waiting b.regs d).map answer =
    (b.reads d).map answer
  readCore : ∀ d, ∀ q ∈ b.reads d, (Req.core q.1).toNat = d
  dones : donesOf (b.sent ++ latch b.regs) ++ b.regs.pktDoneFifo.contents = b.doneTaken
  turns : Remembered b

theorem Bench.Start.inv {b : Bench P} (h : b.Start) : Inv b := by
  have hlatch : latch b.regs = [] := by simp [latch, h.regs.ctrlOutValidR]
  have harb := h.regs.pktToCoreArbiter.contents_eq
  refine ⟨⟨h.regs.pktDoneFifo.valid, fun d => (h.regs.pktToCoreFifo d).valid, fun d => ?_,
    h.regs.pktToCoreArbiter.valid, h.regs.pktToCoreArbiter.serving, fun d => ?_⟩, fun d => ?_,
    fun d => ?_, ?_, ?_, ?_⟩
  · simp [(h.regs.pktToCoreFifo d).contents_eq]
  · simp [harb.1]
  · simp [h.sent, hlatch, h.reads, waiting, harb.1, harb.2, repliesFor]
  · simp [h.reads]
  · simp [h.sent, hlatch, h.doneTaken, h.regs.pktDoneFifo.contents_eq, donesOf]
  · simp [h.turns]
  · simp [h.turns, Alternating]

/-- What was sent or is in the latch grows by what goes into the latch. -/
theorem sent_step (b : Bench P) (c : Cycle P) :
    (b.step c).sent ++ latch (b.step c).regs = (b.sent ++ latch b.regs) ++ emits b.regs c := by
  change (b.sent ++ if c.ctrlMAxisTready then latch b.regs else []) ++ latch (next b.regs c) = _
  rw [List.append_assoc, List.append_assoc, latch_conservation]

theorem Inv.step (hfit : Fits P) {b : Bench P} (h : Inv b) (c : Cycle P) : Inv (b.step c) where
  sound := h.sound.next hfit c
  replies d := by
    have hcons := congrArg (List.map answer) (h.sound.waiting_conservation (c := c) d)
    rw [List.map_append, List.map_append, ← repliesFor_emits hfit] at hcons
    change _ ++ (waiting (next b.regs c) d).map answer =
      (b.reads d ++ readsNow b.regs c d).map answer
    rw [sent_step, repliesFor_append, List.append_assoc, ← hcons, List.map_append, ← h.replies d,
      List.append_assoc]
  readCore d q hq := by
    rcases List.mem_append.mp hq with hold | hnew
    · exact h.readCore d q hold
    · exact h.sound.read_core hnew
  dones := by
    have hcons := BasicFifo.conservation (i := pktDoneInputs b.regs c) h.sound.doneFifo rfl
    rw [← donesOf_emits] at hcons
    change _ ++ (b.regs.pktDoneFifo.next (pktDoneInputs b.regs c)).contents = b.doneTaken ++ _
    rw [sent_step, donesOf_append, List.append_assoc, ← hcons, ← h.dones, List.append_assoc]
    rfl
  turns := h.turns.step c

/-! ## Progress -/

/-- What is left to do: a message in the latch counts one, an entry of `pkt_done_fifo` two. -/
def left (r : Regs P) : Nat :=
  r.pktToCoreArbiter.work + 2 * r.pktDoneFifo.contents.length + (latch r).length

/-- No request is read, and nothing comes into `pkt_done_fifo`. -/
def Quiet (b : Bench P) (c : Cycle P) : Prop :=
  (∀ d, readsNow b.regs c d = []) ∧ b.regs.pktDoneFifo.enque (pktDoneInputs b.regs c) = false
deriving Decidable

section Progress
variable {b : Bench P} {c : Cycle P}

/-- A message goes into the latch for each word the arbiter or `pkt_done_fifo` hands on. -/
theorem length_emits (r : Regs P) (c : Cycle P) : (emits r c).length =
    (r.pktToCoreArbiter.sends (arbiterInputs r c)).length +
      (if r.pktDoneFifo.deque (pktDoneInputs r c) then [r.pktDoneFifo.dout] else []).length := by
  change _ = (if selectedPktToCoreValid r && (ctrlOutSelect r && ctrlOutReady r c) then
    [r.pktToCoreArbiter.mAxis] else []).length +
      (if pktDoneValid r && (!ctrlOutSelect r && ctrlOutReady r c) then
        [r.pktDoneFifo.dout] else []).length
  have hspec := ctrlOutSelect_spec (r := r)
  unfold emits
  unfold ctrlOutValid at hspec ⊢
  cases hs : selectedPktToCoreValid r <;> cases hd : pktDoneValid r <;>
    cases hr : ctrlOutReady r c <;> cases ho : ctrlOutSelect r <;> simp_all

theorem Quiet.accepts_eq (hq : Quiet b c) (d : Fin P.coreCount) :
    b.regs.pktToCoreArbiter.accepts (arbiterInputs b.regs c) d = [] :=
  List.map_eq_nil_iff.mp (accepts_eq_readsNow.trans (hq.1 d))

theorem length_done_step (h : Inv b) (hq : Quiet b c) :
    (b.step c).regs.pktDoneFifo.contents.length +
      (if b.regs.pktDoneFifo.deque (pktDoneInputs b.regs c) then
        [b.regs.pktDoneFifo.dout] else []).length = b.regs.pktDoneFifo.contents.length := by
  have hcons := congrArg List.length
    (BasicFifo.conservation (i := pktDoneInputs b.regs c) h.sound.doneFifo rfl)
  rw [hq.2, if_neg Bool.false_ne_true, List.append_nil, List.length_append] at hcons
  rw [hcons, Nat.add_comm]
  rfl

theorem length_latch_step : (latch (b.step c).regs).length +
    (if c.ctrlMAxisTready then latch b.regs else []).length =
      (latch b.regs).length + (emits b.regs c).length := by
  have hcons := congrArg List.length (latch_conservation (r := b.regs) (c := c))
  rw [List.length_append, List.length_append] at hcons
  rw [hcons, Nat.add_comm]
  rfl

/-- A message that is taken by the latch or by the receiver is one less to do. -/
theorem left_step (h : Inv b) (hq : Quiet b c) : left (b.step c).regs +
    (emits b.regs c).length + (if c.ctrlMAxisTready then latch b.regs else []).length ≤
      left b.regs := by
  have hwork := h.sound.arbiter.work_next hq.accepts_eq
  have hdone := length_done_step h hq
  have hlatch := length_latch_step (b := b) (c := c)
  have hemits := length_emits b.regs c
  unfold left
  change (b.regs.pktToCoreArbiter.next (arbiterInputs b.regs c)).work + _ + _ + _ + _ ≤ _
  omega

/-- **A ready receiver brings every message closer.** -/
theorem left_step_lt (h : Inv b) (hq : Quiet b c) (hready : c.ctrlMAxisTready = true)
    (hleft : left b.regs ≠ 0) : left (b.step c).regs < left b.regs := by
  have hle := left_step h hq
  rw [hready, if_pos rfl] at hle
  by_cases hlatch : latch b.regs = []
  · cases hv : ctrlOutValid b.regs with
    | true =>
      have hout : ctrlOutReady b.regs c = true := by simp [ctrlOutReady, hready]
      have hone : (emits b.regs c).length = 1 := by simp [emits, hv, hout]
      omega
    | false =>
      -- nothing waits behind the ports, so that a word at a port moves
      simp only [ctrlOutValid, Bool.or_eq_false_iff] at hv
      have hcontents : b.regs.pktToCoreArbiter.contents = [] := by
        have hvalid : b.regs.pktToCoreArbiter.mAxisTvalidReg = false := hv.1
        have htemp : b.regs.pktToCoreArbiter.tempMAxisTvalidReg = false := by
          by_contra ht
          have := h.sound.arbiter.order (Bool.not_eq_false _ ▸ ht)
          rw [hvalid] at this
          exact Bool.false_ne_true this
        simp [AxisArbMux.contents, hvalid, htemp]
      have hdone : b.regs.pktDoneFifo.contents = [] := by
        have hvalid := h.sound.doneFifo.doutValid_eq.symm.trans hv.2
        simpa using hvalid
      have hwork : b.regs.pktToCoreArbiter.work ≠ 0 := by
        simpa [left, hdone, hlatch] using hleft
      have hlt := h.sound.arbiter.work_next_lt hq.accepts_eq h.sound.serving hcontents hwork
      have hlength := length_done_step h hq
      have hlatch' := length_latch_step (b := b) (c := c)
      have hemits : emits b.regs c = [] := by simp [emits, ctrlOutValid, hv]
      rw [hemits, hlatch, List.length_nil] at hlatch'
      unfold left
      change (b.regs.pktToCoreArbiter.next (arbiterInputs b.regs c)).work + _ + _ < _
      omega
  · have hpos := List.length_pos_iff.mpr hlatch
    omega

end Progress

/-- **Requests are answered.**  In every run from reset, whatever the cores, the policy and
the receiver of the messages do:

* a request for core `d` is read only in a cycle in which the keeper of `d` pops a valid
  slot, and a pop that is not the policy's own comes with such a read;
* the type 1 messages about core `d` that were sent or are in the latch, followed by what
  waits in the arbiter, are the requests read for `d` with the slots popped, in their order:
  each message names the core that asked, its slot, `d` and the slot of `d`;
* the type 0 messages, followed by what is in `pkt_done_fifo`, are the entries of the
  FIFO with their sources and descriptors, in their order;
* when both kinds of message wait, the kind that had the last turn does not have the next;
* with no more requests read and no more entries coming, once the receiver has been ready for
  `left` cycles every request read has its type 1 message sent and every entry its type 0
  message. -/
theorem requests_answered (hfit : Fits P) {b₀ : Bench P} (hstart : b₀.Start)
    (cycles : List (Cycle P)) :
    let b := run Bench.step b₀ cycles
    (∀ c d, ((b.regs.pktToCoreFifo d).deque (pktToCoreInputs b.regs c d) = true →
        (b.regs.slotKeeper d).deque (keeperInputs b.regs c d) = true) ∧
      ((b.regs.slotKeeper d).deque (keeperInputs b.regs c d) = true →
        (c.descPop && decide (c.selectedCore.toNat = d)) = false →
        (b.regs.pktToCoreFifo d).deque (pktToCoreInputs b.regs c d) = true)) ∧
    (∀ d, repliesFor d (b.sent ++ latch b.regs) ++ (waiting b.regs d).map answer =
        (b.reads d).map answer ∧ ∀ q ∈ b.reads d, (Req.core q.1).toNat = d) ∧
    donesOf (b.sent ++ latch b.regs) ++ b.regs.pktDoneFifo.contents = b.doneTaken ∧
    Alternating b.turns ∧
    ∀ more, Meets Bench.step Quiet b more → left b.regs ≤ more.countP (·.ctrlMAxisTready) →
      let e := run Bench.step b more
      (∀ d, repliesFor d e.sent = (b.reads d).map answer) ∧ donesOf e.sent = b.doneTaken := by
  intro b
  have h : Inv b := run_preserves (fun _ c hs => hs.step hfit c) hstart.inv cycles
  refine ⟨fun c d => ⟨keeper_deque_of_read, read_of_keeper_deque⟩,
    fun d => ⟨h.replies d, h.readCore d⟩, h.dones, h.turns.alternating, ?_⟩
  intro more hmore hready e
  obtain ⟨he, hreads, htaken⟩ : Inv e ∧ (∀ d, e.reads d = b.reads d) ∧ e.doneTaken = b.doneTaken :=
    run_invariant (fun s c hs hq => ⟨hs.1.step hfit c,
      fun d => by simp [Bench.step, hq.1 d, hs.2.1 d], by simp [Bench.step, hq.2, hs.2.2]⟩)
      (P := fun e => Inv e ∧ (∀ d, e.reads d = b.reads d) ∧ e.doneTaken = b.doneTaken)
      ⟨h, fun _ => rfl, rfl⟩ hmore
  have hrank := run_exhausts (D := fun _ c => c.ctrlMAxisTready = true)
    (m := fun s : Bench P => left s.regs) (fun s c (hs : Inv s) _ => hs.step hfit c)
    (fun s c hs hq => by
      have hle := left_step hs hq
      split
      · rename_i hr
        by_cases hz : left s.regs = 0
        · omega
        · have := left_step_lt hs hq hr hz
          omega
      · omega) h hmore
  rw [tally_of_input] at hrank
  have hzero : left e.regs = 0 := Nat.le_zero.mp (hrank.trans (Nat.sub_eq_zero_of_le hready).le)
  have hlatch : latch e.regs = [] := List.length_eq_zero_iff.mp (by unfold left at hzero; omega)
  have hdone : e.regs.pktDoneFifo.contents = [] :=
    List.length_eq_zero_iff.mp (by unfold left at hzero; omega)
  obtain ⟨hports, hcontents⟩ := AxisArbMux.contents_of_work
    (s := e.regs.pktToCoreArbiter) (by unfold left at hzero; omega)
  refine ⟨fun d => ?_, ?_⟩
  · simpa [hlatch, waiting, hports, hcontents, hreads] using he.replies d
  · simpa [hlatch, hdone, htaken] using he.dones

/-! ## Two cores -/

def sampleStart : Bench sampleConfig := ⟨.reset, fun _ => [], [], [], []⟩

theorem sampleStart_start : sampleStart.Start where
  regs := Regs.reset_fresh
  reads := fun _ => rfl
  doneTaken := rfl
  sent := rfl
  turns := rfl

/-- Core 0 gets its two slots and says that a packet has left it, and core 1 asks for a slot of
core 0 for its own slot 7. -/
def oneRequest : List (Cycle sampleConfig) :=
  [idle,
    { idle with
      ctrlSAxisTdata := (3 : BitVec 4) ++ (0 : BitVec 8) ++ (2 : BitVec 8) ++ (0 : BitVec 16)
      ctrlSAxisTvalid := true
      ctrlSAxisTuser := 0 },
    requesting 7,
    { idle with ctrlSAxisTdata := 0x1DEADBEEF, ctrlSAxisTvalid := true, ctrlSAxisTuser := 0 },
    idle]

/-- The receiver is not ready in every other cycle. -/
def delivering : List (Cycle sampleConfig) :=
  (List.replicate 10 [idle, { idle with ctrlMAxisTready := false }]).flatten

/-- Core 0 gets its message of type 0 back, with the descriptor, and core 1 the message of
type 1 about its slot 7: slot 1 of core 0. -/
theorem requests_answered_one :
    let b := run Bench.step sampleStart oneRequest
    let e := run Bench.step b delivering
    e.sent = [(0, 0x0DEADBEEF), (1, 0x101070001)] ∧ b.sent = [] ∧
      b.reads core0 = [(⟨1, 0x070000⟩, 1)] ∧ b.doneTaken = [⟨0, 0xDEADBEEF⟩] ∧
      repliesFor core0 e.sent = [⟨1, 7, 0, 1⟩] ∧ donesOf e.sent = [⟨0, 0xDEADBEEF⟩] :=
  have h := (requests_answered ⟨by decide, by decide⟩ sampleStart_start oneRequest).2.2.2.2
    delivering (by decide +kernel) (by decide +kernel)
  ⟨by decide +kernel, by decide +kernel, by decide +kernel, by decide +kernel,
    (h.1 core0).trans (by decide +kernel), h.2.trans (by decide +kernel)⟩

end Rosebud.InterCore
