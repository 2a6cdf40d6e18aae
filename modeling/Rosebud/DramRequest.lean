import Rosebud.Clocked
import Rosebud.BasicFifo
import Rosebud.PipeRegister

/-! # DRAM read requests leaving an RPU

The part of `rpu_intercon.v` that sends the core's DRAM read descriptors out as
frames of four 32-bit words: `send_dram_ctrl_fifo`, the serializer
`send_dram_rd_state` and the output register `dram_m_reg_inst`, of any `REG_TYPE`.

The serializer advances only while the queue has an entry, and its word is valid
whenever it is not idle.  `core_reset` clears the queue and not the serializer, so
everything hangs on the cycle a reset falls into: `ClearSafe` is the condition, and
`clear_mid_frame` shows what happens without it.
-/
namespace Rosebud.DramRequest
open Clocked

/-- A word of a request and its `tlast`. -/
abbrev Word := BitVec 32 × Bool

structure Regs (aw : Nat) where
  sendDramCtrlFifo : BasicFifo aw (BitVec 128)
  sendDramRdState : BitVec 3
  dramMReg : PipeRegister Word
deriving Inhabited

/-- One cycle of the surroundings. -/
structure Cycle where
  coreReset : Bool
  dinValid : Bool
  din : BitVec 128
  dramMAxisTready : Bool

variable {aw : Nat} (type : Nat)

/-! ## The circuit -/

section Wires
variable (r : Regs aw) (c : Cycle)

def coreDramRdValidF : Bool := r.sendDramCtrlFifo.doutValid

def coreDramRdDescF : BitVec 128 := r.sendDramCtrlFifo.dout

def dramMAxisTdataN : BitVec 32 :=
  match r.sendDramRdState with
  | 1 => (coreDramRdDescF r).extractLsb' 0 32
  | 2 => (coreDramRdDescF r).extractLsb' 32 32
  | 3 => (coreDramRdDescF r).extractLsb' 64 32
  | 4 => (coreDramRdDescF r).extractLsb' 96 32
  | _ => (coreDramRdDescF r).extractLsb' 0 32

def dramMAxisTvalidN : Bool := decide (r.sendDramRdState ≠ 0)

def dramMAxisTlastN : Bool := decide (r.sendDramRdState = 4)

def regInputs : PipeRegister.Inputs Word where
  rst := false
  dinValid := dramMAxisTvalidN r
  din := (dramMAxisTdataN r, dramMAxisTlastN r)
  doutReady := c.dramMAxisTready

def dramMAxisTreadyN : Bool := r.dramMReg.dinReady type (regInputs r c)

def dramMAxisTvalid : Bool := r.dramMReg.doutValid type (regInputs r c)

def dramMAxis : Word := r.dramMReg.dout type (regInputs r c)

def coreDramRdReadyF : Bool := decide (r.sendDramRdState = 4) && dramMAxisTreadyN type r c

def fifoInputs : BasicFifo.Inputs (BitVec 128) where
  rst := false
  clear := c.coreReset
  dinValid := c.dinValid
  din := c.din
  doutReady := coreDramRdReadyF type r c

/-- `send_dram_rd_state` after the clock edge. -/
def nextState : BitVec 3 :=
  if coreDramRdValidF r then
    match r.sendDramRdState with
    | 0 => 1
    | 1 => if dramMAxisTreadyN type r c then 2 else 1
    | 2 => if dramMAxisTreadyN type r c then 3 else 2
    | 3 => if dramMAxisTreadyN type r c then 4 else 3
    | 4 => if dramMAxisTreadyN type r c then 0 else 4
    | _ => 0
  else r.sendDramRdState

/-- The registers after the clock edge, outside reset. -/
def next : Regs aw where
  sendDramCtrlFifo := r.sendDramCtrlFifo.next (fifoInputs type r c)
  sendDramRdState := nextState type r c
  dramMReg := r.dramMReg.next type (regInputs r c)

end Wires

/-! ## Runs, and what they write down -/

/-- The circuit with three logs: the words transferred on `dram_m_axis`, the
descriptors at the head of the queue when a frame started, and the descriptors that
entered the queue. -/
structure Bench (aw : Nat) where
  regs : Regs aw
  out : List Word
  started : List (BitVec 128)
  pushed : List (BitVec 128)

namespace Bench
variable (b : Bench aw) (c : Cycle)

def step : Bench aw where
  regs := next type b.regs c
  out :=
    if dramMAxisTvalid type b.regs c && c.dramMAxisTready then
      b.out ++ [dramMAxis type b.regs c]
    else b.out
  started :=
    if coreDramRdValidF b.regs && decide (b.regs.sendDramRdState = 0) then
      b.started ++ [coreDramRdDescF b.regs]
    else b.started
  pushed :=
    if b.regs.sendDramCtrlFifo.enque (fifoInputs type b.regs c) && !c.coreReset then
      b.pushed ++ [c.din]
    else b.pushed

/-- Out of reset. -/
structure Start (b : Bench aw) : Prop where
  fifo : b.regs.sendDramCtrlFifo.Fresh
  state : b.regs.sendDramRdState = 0
  reg : b.regs.dramMReg.Fresh
  out : b.out = []
  started : b.started = []
  pushed : b.pushed = []

/-- A reset finds the queue empty, or falls into the cycle a frame ends in. -/
def ClearSafe : Prop :=
  c.coreReset = true →
    coreDramRdValidF b.regs = false ∨ coreDramRdReadyF type b.regs c = true
deriving Decidable

end Bench

/-- The frame of a descriptor: its four words, low first, `tlast` on the fourth. -/
def frame (d : BitVec 128) : List Word :=
  [(d.extractLsb' 0 32, false), (d.extractLsb' 32 32, false), (d.extractLsb' 64 32, false),
    (d.extractLsb' 96 32, true)]

/-! ## The invariant -/

/-- Between frames: everything sent so far is whole frames. -/
def Idle (b : Bench aw) : Prop :=
  b.regs.sendDramRdState = 0 ∧
  b.out ++ b.regs.dramMReg.contents type = b.started.flatMap frame ∧
  (b.started ++ b.regs.sendDramCtrlFifo.contents).Sublist b.pushed

/-- Inside a frame, with `k` words of it sent: its descriptor is still the head of
the queue. -/
def Sending (b : Bench aw) (k : Nat) (d : BitVec 128) (ds : List (BitVec 128)) : Prop :=
  b.regs.sendDramRdState = BitVec.ofNat 3 (k + 1) ∧
  b.regs.sendDramCtrlFifo.contents = d :: ds ∧
  ∃ earlier, b.started = earlier ++ [d] ∧
    b.out ++ b.regs.dramMReg.contents type = earlier.flatMap frame ++ (frame d).take k ∧
    (b.started ++ ds).Sublist b.pushed

structure Inv (b : Bench aw) : Prop where
  fifo : b.regs.sendDramCtrlFifo.Valid
  reg : b.regs.dramMReg.Valid type
  phase : Idle type b ∨ ∃ k d ds, k < 4 ∧ Sending type b k d ds

theorem Bench.Start.inv {b : Bench aw} (h : b.Start) : Inv type b where
  fifo := h.fifo.valid
  reg := h.reg.valid
  phase := .inl ⟨h.state, by simp [h.out, h.started, h.reg.contents_eq], by
    simp [h.started, h.fifo.contents_eq]⟩

section Steps
variable {type} {b : Bench aw} {c : Cycle}

/-- What has left the serializer: a cycle adds the word the output register
accepts. -/
theorem sent_step (hreg : b.regs.dramMReg.Valid type) :
    (b.step type c).out ++ (b.step type c).regs.dramMReg.contents type =
      b.out ++ b.regs.dramMReg.contents type ++
        (if dramMAxisTvalidN b.regs && dramMAxisTreadyN type b.regs c then
          [(dramMAxisTdataN b.regs, dramMAxisTlastN b.regs)] else []) := by
  have hcons := PipeRegister.conservation (i := regInputs b.regs c) hreg rfl
  change _ ++ (if dramMAxisTvalidN b.regs && dramMAxisTreadyN type b.regs c then
    [(dramMAxisTdataN b.regs, dramMAxisTlastN b.regs)] else []) =
      (if dramMAxisTvalid type b.regs c && c.dramMAxisTready then [dramMAxis type b.regs c]
        else []) ++ (b.step type c).regs.dramMReg.contents type at hcons
  rw [List.append_assoc, hcons, ← List.append_assoc]
  congr 1
  simp only [Bench.step]
  split <;> simp

/-- The queue after a cycle without reset. -/
theorem contents_step (hfifo : b.regs.sendDramCtrlFifo.Valid) (hc : c.coreReset = false) :
    (b.step type c).regs.sendDramCtrlFifo.contents =
      b.regs.sendDramCtrlFifo.contents.drop
        (b.regs.sendDramCtrlFifo.deque (fifoInputs type b.regs c)).toNat ++
        (if b.regs.sendDramCtrlFifo.enque (fifoInputs type b.regs c) then [c.din] else []) :=
  BasicFifo.contents_next hfifo (by simp [fifoInputs, hc])

theorem valid_step (haw : 0 < aw) (h : Inv type b) :
    (b.step type c).regs.sendDramCtrlFifo.Valid ∧ (b.step type c).regs.dramMReg.Valid type :=
  ⟨h.fifo.next haw _, h.reg.next _⟩

/-- What is queued after a cycle that took nothing, next to what has entered. -/
theorem queued_sublist (hfifo : b.regs.sendDramCtrlFifo.Valid) {ds keep : List (BitVec 128)}
    (hdrop : b.regs.sendDramCtrlFifo.contents.drop
      (b.regs.sendDramCtrlFifo.deque (fifoInputs type b.regs c)).toNat = ds)
    (hsub : (keep ++ ds).Sublist b.pushed) :
    (keep ++ (b.step type c).regs.sendDramCtrlFifo.contents).Sublist (b.step type c).pushed := by
  cases hc : c.coreReset with
  | false =>
    rw [contents_step hfifo hc, hdrop, ← List.append_assoc]
    simp only [Bench.step, hc, Bool.not_false, Bool.and_true]
    split
    · exact hsub.append (List.Sublist.refl _)
    · simpa using hsub
  | true =>
    have hnil : (b.step type c).regs.sendDramCtrlFifo.contents = [] :=
      (BasicFifo.fresh_next_of_reset _ (by simp [fifoInputs, hc])).contents_eq
    have hp : (b.step type c).pushed = b.pushed := by
      simp [Bench.step, hc]
    rw [hnil, hp, List.append_nil]
    exact (List.sublist_append_left keep ds).trans hsub

/-- Nothing is taken from the queue except in the cycle a frame ends in. -/
theorem drop_of_not_ready (hr : coreDramRdReadyF type b.regs c = false) :
    b.regs.sendDramCtrlFifo.contents.drop
      (b.regs.sendDramCtrlFifo.deque (fifoInputs type b.regs c)).toNat =
        b.regs.sendDramCtrlFifo.contents := by
  have hd : b.regs.sendDramCtrlFifo.deque (fifoInputs type b.regs c) = false := by
    simp [BasicFifo.deque, fifoInputs, hr]
  rw [hd, Bool.toNat_false, List.drop_zero]

/-- The head of the queue stays where it is until its frame ends, and nothing is
cleared before. -/
theorem contents_step_of_cons (hfifo : b.regs.sendDramCtrlFifo.Valid) {d : BitVec 128}
    {ds : List (BitVec 128)} (hq : b.regs.sendDramCtrlFifo.contents = d :: ds)
    (hsafe : b.ClearSafe type c) (hr : coreDramRdReadyF type b.regs c = false) :
    ∃ new, (b.step type c).regs.sendDramCtrlFifo.contents = d :: (ds ++ new) ∧
      (b.step type c).pushed = b.pushed ++ new := by
  have hc : c.coreReset = false := by
    by_contra hc
    rcases hsafe (Bool.not_eq_false _ ▸ hc) with hv | hready
    · simp [coreDramRdValidF, hfifo.doutValid_eq, hq] at hv
    · simp [hr] at hready
  rw [contents_step hfifo hc, drop_of_not_ready hr, hq]
  refine ⟨_, rfl, ?_⟩
  simp only [Bench.step, hc, Bool.not_false, Bool.and_true]
  split <;> simp

/-- The word on offer inside a frame. -/
theorem word_eq (hfifo : b.regs.sendDramCtrlFifo.contents = d :: ds) {k : Nat} (hk : k < 4)
    (hs : b.regs.sendDramRdState = BitVec.ofNat 3 (k + 1)) :
    (frame d).take k ++ [(dramMAxisTdataN b.regs, dramMAxisTlastN b.regs)] =
      (frame d).take (k + 1) := by
  have hd : coreDramRdDescF b.regs = d := BasicFifo.dout_eq hfifo
  rcases (by omega : k = 0 ∨ k = 1 ∨ k = 2 ∨ k = 3) with rfl | rfl | rfl | rfl <;>
    simp [frame, dramMAxisTdataN, dramMAxisTlastN, hs, hd]

/-- Between frames, a cycle starts one if the queue has an entry. -/
theorem idle_step (h : Inv type b) (hidle : Idle type b) (hsafe : b.ClearSafe type c) :
    Idle type (b.step type c) ∨ ∃ k d ds, k < 4 ∧ Sending type (b.step type c) k d ds := by
  obtain ⟨hs, hsent, hsub⟩ := hidle
  have hr : coreDramRdReadyF type b.regs c = false := by
    simp [coreDramRdReadyF, hs]
  have hsame := sent_step (c := c) h.reg
  simp only [dramMAxisTvalidN, hs, ne_eq, not_true_eq_false, decide_false, Bool.false_and,
    Bool.false_eq_true, if_false, List.append_nil] at hsame
  cases hq : b.regs.sendDramCtrlFifo.contents with
  | nil =>
    have hv : coreDramRdValidF b.regs = false := by
      simp [coreDramRdValidF, h.fifo.doutValid_eq, hq]
    have hstarted : (b.step type c).started = b.started := by
      simp [Bench.step, hv]
    refine .inl ⟨?_, ?_, ?_⟩
    · change nextState type b.regs c = 0
      simp [nextState, hv, hs]
    · rw [hsame, hstarted, hsent]
    · rw [hstarted]
      exact queued_sublist h.fifo (drop_of_not_ready hr) hsub
  | cons d ds =>
    have hv : coreDramRdValidF b.regs = true := by
      simp [coreDramRdValidF, h.fifo.doutValid_eq, hq]
    have hstarted : (b.step type c).started = b.started ++ [d] := by
      simp [Bench.step, hv, hs, coreDramRdDescF, BasicFifo.dout_eq hq]
    obtain ⟨new, hq', hp'⟩ := contents_step_of_cons h.fifo hq hsafe hr
    refine .inr ⟨0, d, ds ++ new, by omega, ?_, hq', b.started, hstarted, ?_, ?_⟩
    · change nextState type b.regs c = 1
      simp [nextState, hv, hs]
    · rw [hsame, hsent, List.take_zero, List.append_nil]
    · rw [hstarted, hp', List.append_assoc, List.singleton_append, ← List.cons_append,
        ← List.append_assoc]
      rw [hq] at hsub
      exact hsub.append (List.Sublist.refl new)

/-- Inside a frame, a cycle sends the next word or stalls; the fourth word ends
the frame and takes its descriptor off the queue. -/
theorem sending_step (h : Inv type b) {k : Nat} (hk : k < 4) {d : BitVec 128}
    {ds : List (BitVec 128)} (hsending : Sending type b k d ds) (hsafe : b.ClearSafe type c) :
    Idle type (b.step type c) ∨ ∃ k d ds, k < 4 ∧ Sending type (b.step type c) k d ds := by
  obtain ⟨hs, hq, earlier, hst, hsent, hsub⟩ := hsending
  have hv : coreDramRdValidF b.regs = true := by
    simp [coreDramRdValidF, h.fifo.doutValid_eq, hq]
  have hs0 : b.regs.sendDramRdState ≠ 0 := by
    rw [hs]
    rcases (by omega : k = 0 ∨ k = 1 ∨ k = 2 ∨ k = 3) with rfl | rfl | rfl | rfl <;> decide
  have hstarted : (b.step type c).started = b.started := by
    simp only [Bench.step, hs0, decide_false, Bool.and_false, Bool.false_eq_true, if_false]
  have hword := word_eq hq hk hs
  have hsame := sent_step (c := c) h.reg
  simp only [dramMAxisTvalidN, hs0, ne_eq, not_false_eq_true, decide_true, Bool.true_and] at hsame
  cases hrdy : dramMAxisTreadyN type b.regs c with
  | false =>
    have hr : coreDramRdReadyF type b.regs c = false := by
      simp [coreDramRdReadyF, hrdy]
    obtain ⟨new, hq', hp'⟩ := contents_step_of_cons h.fifo hq hsafe hr
    refine .inr ⟨k, d, ds ++ new, hk, ?_, hq', earlier, hstarted.trans hst, ?_, ?_⟩
    · change nextState type b.regs c = _
      rcases (by omega : k = 0 ∨ k = 1 ∨ k = 2 ∨ k = 3) with rfl | rfl | rfl | rfl <;>
        simp [nextState, hv, hs, hrdy]
    · simp [hsame, hrdy, hsent]
    · rw [hstarted, hp', ← List.append_assoc]
      exact hsub.append (List.Sublist.refl new)
  | true =>
    simp only [hrdy, if_true, hsent, List.append_assoc, hword] at hsame
    by_cases hk3 : k = 3
    · subst hk3
      have hr : coreDramRdReadyF type b.regs c = true := by
        simp [coreDramRdReadyF, hrdy, hs]
      have hdeq : b.regs.sendDramCtrlFifo.deque (fifoInputs type b.regs c) = true := by
        simp [BasicFifo.deque, fifoInputs, hr, h.fifo.doutValid_eq, hq]
      refine .inl ⟨?_, ?_, ?_⟩
      · change nextState type b.regs c = 0
        simp [nextState, hv, hs, hrdy]
      · rw [hsame, hstarted, hst, List.flatMap_append, List.flatMap_singleton]
        rfl
      · rw [hstarted]
        exact queued_sublist h.fifo (by rw [hdeq, hq]; rfl) hsub
    · have hr : coreDramRdReadyF type b.regs c = false := by
        rcases (by omega : k = 0 ∨ k = 1 ∨ k = 2) with rfl | rfl | rfl <;>
          simp [coreDramRdReadyF, hs]
      obtain ⟨new, hq', hp'⟩ := contents_step_of_cons h.fifo hq hsafe hr
      refine .inr ⟨k + 1, d, ds ++ new, by omega, ?_, hq', earlier, hstarted.trans hst, hsame, ?_⟩
      · change nextState type b.regs c = _
        rcases (by omega : k = 0 ∨ k = 1 ∨ k = 2) with rfl | rfl | rfl <;>
          simp [nextState, hv, hs, hrdy]
      · rw [hstarted, hp', ← List.append_assoc]
        exact hsub.append (List.Sublist.refl new)

theorem inv_step (haw : 0 < aw) (h : Inv type b) (hsafe : b.ClearSafe type c) :
    Inv type (b.step type c) where
  fifo := (valid_step haw h).1
  reg := (valid_step haw h).2
  phase := by
    rcases h.phase with hidle | ⟨k, d, ds, hk, hsending⟩
    · exact idle_step h hidle hsafe
    · exact sending_step h hk hsending hsafe

end Steps

/-! ## Whole runs -/

section Runs
variable {type} {b : Bench aw}

theorem Inv.started_sublist (h : Inv type b) : b.started.Sublist b.pushed := by
  rcases h.phase with ⟨-, -, hsub⟩ | ⟨k, d, ds, -, -, -, earlier, -, -, hsub⟩
  · exact (List.sublist_append_left _ _).trans hsub
  · exact (List.sublist_append_left _ _).trans hsub

theorem Inv.out_isPrefix (h : Inv type b) : b.out <+: b.started.flatMap frame := by
  rcases h.phase with ⟨-, hsent, -⟩ | ⟨k, d, ds, -, -, -, earlier, hst, hsent, -⟩
  · exact ⟨_, hsent⟩
  · rw [hst, List.flatMap_append, List.flatMap_singleton]
    refine ⟨b.regs.dramMReg.contents type ++ (frame d).drop k, ?_⟩
    rw [← List.append_assoc, hsent, List.append_assoc, List.take_append_drop]

/-- With an empty queue the serializer is idle, and what is not yet transferred is
in the output register. -/
theorem Inv.quiet_of_empty (h : Inv type b)
    (hq : b.regs.sendDramCtrlFifo.contents = []) : Idle type b := by
  rcases h.phase with hidle | ⟨k, d, ds, -, -, hcons, -⟩
  · exact hidle
  · simp [hq] at hcons

/-- **Requests leave as whole frames as long as no reset cuts one.**  In every run in
which `core_reset` is asserted only while the queue is empty or in the cycle a frame
ends in, the words transferred are the first ones of the frames of the descriptors
that headed the queue when a frame started; those are, in order and each at most
once, descriptors that entered the queue; and when the queue is empty and the
started frames have been transferred, nothing is offered. -/
theorem frames_of_clearSafe (haw : 0 < aw) {b₀ : Bench aw} (hstart : b₀.Start)
    (cycles : List Cycle)
    (hm : Meets (Bench.step type) (Bench.ClearSafe type) b₀ cycles) :
    let b := run (Bench.step type) b₀ cycles
    b.out <+: b.started.flatMap frame ∧ b.started.Sublist b.pushed ∧
      (b.regs.sendDramCtrlFifo.contents = [] → b.out = b.started.flatMap frame →
        ∀ c, dramMAxisTvalid type b.regs c = false) := by
  intro b
  have h : Inv type b :=
    run_invariant (fun _ _ h hsafe => inv_step haw h hsafe) (hstart.inv type) hm
  refine ⟨h.out_isPrefix, h.started_sublist, ?_⟩
  intro hq hout c
  obtain ⟨hs, hsent, -⟩ := h.quiet_of_empty hq
  rw [hout] at hsent
  refine PipeRegister.doutValid_of_empty (List.append_right_eq_self.mp hsent) ?_
  simp [regInputs, dramMAxisTvalidN, hs]

end Runs

/-! ## A reset inside a frame -/

def sampleDesc : BitVec 128 := 0x44444444333333332222222211111111

/-- A queue of two entries with a skid buffer behind the serializer. -/
def sampleBench : Bench 1 where
  regs := default
  out := []
  started := []
  pushed := []

/-- A cycle with the receiver ready. -/
def quiet : Cycle := ⟨false, false, 0, true⟩

/-- A cycle in which `sampleDesc` arrives. -/
def arriving : Cycle := ⟨false, true, sampleDesc, true⟩

/-- A cycle with `core_reset`. -/
def clearing : Cycle := ⟨true, false, 0, true⟩

theorem frames_of_clearSafe_clearedAfterFrame :
    let b := run (Bench.step 2) sampleBench
      ([quiet, arriving] ++ List.replicate 6 quiet ++ [clearing])
    b.out = [(0x11111111, false), (0x22222222, false), (0x33333333, false), (0x44444444, true)] ∧
      b.started = [sampleDesc] ∧ b.out <+: b.started.flatMap frame :=
  ⟨by decide +kernel, by decide +kernel,
    (frames_of_clearSafe (by decide)
      ⟨⟨rfl, rfl, rfl, rfl, rfl⟩, rfl, ⟨rfl, rfl, rfl, rfl⟩, rfl, rfl, rfl⟩
      ([quiet, arriving] ++ List.replicate 6 quiet ++ [clearing]) (by decide +kernel)).1⟩

/-- **A reset in the middle of a frame never lets it end**: the queue is empty, so the
serializer stays at its third word, offers it in every cycle, and the receiver sees
a frame of more than four words without `tlast`. -/
theorem clear_mid_frame :
    let b := run (Bench.step 2) sampleBench
      ([quiet, arriving, quiet, quiet, clearing] ++ List.replicate 6 quiet)
    b.pushed = [sampleDesc] ∧ b.started = [sampleDesc] ∧
      b.out = [(0x11111111, false), (0x22222222, false)] ++ List.replicate 5 (0x33333333, false) ∧
      ¬ b.out <+: b.started.flatMap frame := by
  decide +kernel

end Rosebud.DramRequest
