import Mathlib.Data.BitVec
import Mathlib.Data.Fintype.Basic
import Rosebud.Clocked

/-! # The status channel into an RPU

`rpu_intercon` tells the RPU about interrupts, debug words, the timer and its own
constants over one channel: a word of 32 bits and an address of 3 bits in every cycle,
with no handshake.  The channel crosses one register of the partial reconfiguration
wrapper and is decoded by `rpu_controller`.

```
 events ──▶ event registers ──▶ intercon_status ──▶ wrapper register ──▶ rpu_controller
```

A status word with address 3 carries the five interrupt sources of one cycle, and the
controller loads **all** five flags from it.  A flag is therefore kept only as long as no
other source sends a word: `evict_clears_poke`.  Without such a word, and without an
acknowledgement in the very cycle an event arrives, the flags behave as interrupts should:
`interrupts_of_undisturbed`.
-/
namespace Rosebud.StatusChannel
open Clocked

/-- The interrupts with a flag in `rpu_controller`.

| flag       | event register   | flag register   |
|------------|------------------|-----------------|
| `evict`    | `core_evict_r`   | `evict_int`     |
| `poke`     | `core_poke_r`    | `poke_int`      |
| `invDesc`  | `inv_desc_int_r` | `inv_desc_int`  |
| `invSlot`  | `inv_slot_int_r` | `inv_slot_int`  |
| `duplSlot` | `in_desc_dupl_r` | `dupl_slot_int` |
-/
inductive Flag where
  | evict
  | poke
  | invDesc
  | invSlot
  | duplSlot
deriving DecidableEq

namespace Flag

instance : Fintype Flag where
  elems := {evict, poke, invDesc, invSlot, duplSlot}
  complete f := by cases f <;> simp

/-- Where the controller finds the flag in a status word. -/
def statusBit : Flag → Nat
  | evict => 16
  | poke => 17
  | invDesc => 18
  | invSlot => 19
  | duplSlot => 20

/-- The bit of the store to the acknowledge register that acknowledges the flag. -/
def ackBit : Flag → Nat
  | poke => 4
  | evict => 5
  | duplSlot => 10
  | invSlot => 11
  | invDesc => 12

end Flag

/-- The constants `rpu_intercon` sends after a reset. -/
structure Info where
  coreId : BitVec 8
  maxSlotCount : BitVec 8
  bcRegionSize : BitVec 16

/-! ## `rpu_intercon`: the status generator -/

inductive StatusState where
  | info
  | timerL
  | timerH
  | default
deriving DecidableEq

/-- The registers of `rpu_intercon` around its status generator. -/
structure Intercon where
  coreResetR : Bool
  eventR : Flag → Bool
  recvDramTagVR : Bool
  recvDramTagR : BitVec 5
  hostDebugL : BitVec 32
  hostDebugH : BitVec 32
  hostDebugLV : Bool
  hostDebugHV : Bool
  timer : BitVec 64
  timerHR : BitVec 32
  interconStatusState : StatusState
  interconStatusAddr : BitVec 3
  interconStatusData : BitVec 32

/-- What the rest of `rpu_intercon` loads in a cycle: an event register is high for one
cycle after each event, and the tag of the last received packet is loaded in every cycle. -/
structure Events where
  event : Flag → Bool
  recvDramTagV : Bool
  recvDramTag : BitVec 5
  hostDebugL : Option (BitVec 32)
  hostDebugH : Option (BitVec 32)
  coreReset : Option Bool

/-- A cycle in which nothing happens. -/
def Events.none : Events where
  event := fun _ => false
  recvDramTagV := false
  recvDramTag := 0
  hostDebugL := .none
  hostDebugH := .none
  coreReset := .none

/-- The events of a control word from the load balancer: `{cmd, data}`. -/
def Events.ofCtrl (tdata : BitVec 36) : Events :=
  let cmd := tdata.extractLsb' 32 4
  let data := tdata.extractLsb' 0 32
  { Events.none with
    event := fun
      | .poke => cmd == 0xC && data.getLsbD 0
      | .evict => cmd == 0xD && data.getLsbD 0
      | _ => false
    hostDebugL := if cmd == 8 then some data else .none
    hostDebugH := if cmd == 9 then some data else .none
    coreReset := if cmd == 0xF then some (data.getLsbD 0) else .none }

namespace Intercon
variable (I : Info) (g : Intercon) (e : Events)

def intValid : Bool :=
  g.eventR .poke || g.eventR .evict || g.eventR .duplSlot || g.eventR .invSlot ||
    g.eventR .invDesc || g.recvDramTagVR

def intsStatus : BitVec 32 :=
  BitVec.ofNat 10 0 ++ BitVec.ofBool g.recvDramTagVR ++ BitVec.ofBool (g.eventR .duplSlot) ++
    BitVec.ofBool (g.eventR .invSlot) ++ BitVec.ofBool (g.eventR .invDesc) ++
    BitVec.ofBool (g.eventR .poke) ++ BitVec.ofBool (g.eventR .evict) ++ BitVec.ofNat 11 0 ++
    g.recvDramTagR

/-- The state, address and data of the next status word. -/
def nextStatus : StatusState × BitVec 3 × BitVec 32 :=
  if g.coreResetR then (.info, 0, I.coreId ++ I.maxSlotCount ++ I.bcRegionSize)
  else
    match g.interconStatusState with
    | .info => (.timerL, 1, g.timer.extractLsb' 0 32)
    | .timerL => (.timerH, 2, g.timerHR)
    | .timerH => (.default, 3, g.intsStatus)
    | .default =>
      if g.intValid then (.default, 3, g.intsStatus)
      else if g.hostDebugLV then (.default, 4, g.hostDebugL)
      else if g.hostDebugHV then (.default, 5, g.hostDebugH)
      else (.default, 6, g.intsStatus)

def next : Intercon where
  coreResetR := e.coreReset.getD g.coreResetR
  eventR := e.event
  recvDramTagVR := e.recvDramTagV
  recvDramTagR := e.recvDramTag
  hostDebugL := e.hostDebugL.getD g.hostDebugL
  hostDebugH := e.hostDebugH.getD g.hostDebugH
  hostDebugLV := e.hostDebugL.isSome || (g.hostDebugLV && g.intValid)
  hostDebugHV := e.hostDebugH.isSome || (g.hostDebugHV && (g.intValid || g.hostDebugLV))
  timer := g.timer + 1
  timerHR := g.timer.extractLsb' 32 32
  interconStatusState := (g.nextStatus I).1
  interconStatusAddr := (g.nextStatus I).2.1
  interconStatusData := (g.nextStatus I).2.2

/-- A status word has each event at the bit where the controller looks for its flag. -/
theorem getLsbD_intsStatus (f : Flag) : g.intsStatus.getLsbD f.statusBit = g.eventR f := by
  cases f <;> simp only [intsStatus, Flag.statusBit, BitVec.getLsbD_append] <;> simp

/-- An event is sent as an interrupt word. -/
theorem intValid_of_eventR {f : Flag} (h : g.eventR f = true) : g.intValid = true := by
  cases f <;> simp [intValid, h]

end Intercon

/-! ## `rpu_controller`: the status decoder -/

structure Controller where
  int : Flag → Bool
  recvDramTagV : Bool
  recvDramTag : BitVec 5
  debugIn : BitVec 64
  coreMsgItems : BitVec 8
  dramReqItems : BitVec 8
  dramSendItems : BitVec 8
  sendDataItems : BitVec 8
  timer : BitVec 64
  info : Info

namespace Controller
variable (r : Controller)

/-- The registers after a status word, with the acknowledgements of the core. -/
def next (coreReset : Bool) (addr : BitVec 3) (data : BitVec 32) (ack : Flag → Bool) :
    Controller where
  int := fun f =>
    if coreReset || ack f then false
    else if addr == 3 then data.getLsbD f.statusBit
    else r.int f
  recvDramTagV := !coreReset && addr == 3 && data.getLsbD 21
  recvDramTag := if addr == 3 then data.extractLsb' 0 5 else r.recvDramTag
  debugIn :=
    if addr == 4 then r.debugIn.extractLsb' 32 32 ++ data
    else if addr == 5 then data ++ r.debugIn.extractLsb' 0 32
    else r.debugIn
  coreMsgItems := if addr == 6 then data.extractLsb' 24 8 else r.coreMsgItems
  dramReqItems := if addr == 6 then data.extractLsb' 16 8 else r.dramReqItems
  dramSendItems := if addr == 6 then data.extractLsb' 8 8 else r.dramSendItems
  sendDataItems := if addr == 6 then data.extractLsb' 0 8 else r.sendDataItems
  timer :=
    if addr == 1 then r.timer.extractLsb' 32 32 ++ data
    else if addr == 2 then data ++ r.timer.extractLsb' 0 32
    else r.timer + 1
  info :=
    if addr == 0 then
      ⟨data.extractLsb' 24 8, data.extractLsb' 16 8, data.extractLsb' 0 16⟩
    else r.info

end Controller

/-! ## The channel -/

/-- The generator, the registers of the wrapper and the decoder. -/
structure Channel where
  intercon : Intercon
  coreResetR : Bool
  interconStatusAddrR : BitVec 3
  interconStatusDataR : BitVec 32
  controller : Controller

/-- One cycle: what happens in `rpu_intercon`, and the store of the core to its
acknowledge register, if there is one. -/
structure Cycle where
  events : Events
  interruptAck : Bool
  memWrData : BitVec 32

namespace Cycle
variable (c : Cycle)

def ack (f : Flag) : Bool := c.interruptAck && c.memWrData.getLsbD f.ackBit

/-- The host does not put the core into reset. -/
def NoReset : Prop := c.events.coreReset ≠ some true

instance : Decidable c.NoReset := inferInstanceAs (Decidable (_ ≠ _))

def ofEvents (e : Events) : Cycle := ⟨e, false, 0⟩

def idle : Cycle := ofEvents .none

end Cycle

namespace Channel
variable (I : Info) (b : Channel) (c : Cycle)

def step : Channel where
  intercon := b.intercon.next I c.events
  coreResetR := b.intercon.coreResetR
  interconStatusAddrR := b.intercon.interconStatusAddr
  interconStatusDataR := b.intercon.interconStatusData
  controller :=
    b.controller.next b.coreResetR b.interconStatusAddrR b.interconStatusDataR c.ack

/-- The core is out of reset, and the words sent after a reset have been sent. -/
@[mk_iff]
structure Running (b : Channel) : Prop where
  intercon : b.intercon.coreResetR = false
  coreResetR : b.coreResetR = false
  interconStatusState : b.intercon.interconStatusState = .default

instance : Decidable b.Running :=
  decidable_of_iff' _ (running_iff b)

variable {I b c}

theorem Running.step (h : b.Running) (hc : c.NoReset) : (b.step I c).Running where
  intercon := by
    cases he : c.events.coreReset with
    | none => simp [Channel.step, Intercon.next, he, h.intercon]
    | some v =>
      have hv : v = false := by simpa [Cycle.NoReset, he] using hc
      simp [Channel.step, Intercon.next, he, hv]
  coreResetR := h.intercon
  interconStatusState := by
    show (b.intercon.nextStatus I).1 = .default
    simp only [Intercon.nextStatus, h.intercon, h.interconStatusState, Bool.false_eq_true,
      if_false]
    split_ifs <;> rfl

end Channel

/-! ## The interrupts the inputs ask for -/

/-- The sources of the interrupt word a cycle results in, if it results in one. -/
def Events.word (e : Events) : Option (Flag → Bool) :=
  if (∃ f, e.event f = true) ∨ e.recvDramTagV = true then some e.event else .none

/-- Interrupts as they should be, from the events and the acknowledgements alone: those that
were raised and not acknowledged since, and the words of the last three cycles, which are in
the event registers, in the status register and in the register of the wrapper. -/
structure Interrupts where
  pending : Flag → Bool
  registered : Option (Flag → Bool)
  sent : Option (Flag → Bool)
  arriving : Option (Flag → Bool)

namespace Interrupts
variable (x : Interrupts) (c : Cycle)

/-- The word that arrives sets a flag. -/
def sets (f : Flag) : Bool := x.arriving.any (· f)

/-- An acknowledgement clears its interrupt, an arriving event raises it, and nothing else
changes it. -/
def next : Interrupts where
  pending := fun f => !c.ack f && (x.pending f || x.sets f)
  registered := c.events.word
  sent := x.registered
  arriving := x.sent

/-- What the interrupts need of a cycle in which the word of an earlier cycle arrives: no
interrupt with an event in that cycle is acknowledged now, and every interrupt raised before
it and not acknowledged until now had an event in that cycle too. -/
def Undisturbed : Prop :=
  x.arriving.isSome = true → ∀ f : Flag,
    (x.sets f = true → c.ack f = false) ∧
    (x.pending f = true → c.ack f = true ∨ x.sets f = true)
deriving Decidable

/-- A status word as the sources it reports. -/
def ofWord (addr : BitVec 3) (data : BitVec 32) : Option (Flag → Bool) :=
  if addr = 3 then some fun f => data.getLsbD f.statusBit else none

/-- The interrupts a run begins with. -/
def ofChannel (b : Channel) : Interrupts where
  pending := b.controller.int
  registered := if b.intercon.intValid then some b.intercon.eventR else none
  sent := ofWord b.intercon.interconStatusAddr b.intercon.interconStatusData
  arriving := ofWord b.interconStatusAddrR b.interconStatusDataR

/-- A raised interrupt that is not acknowledged stays. -/
theorem pending_run {f : Flag} {x : Interrupts} (hf : x.pending f = true) {cycles : List Cycle}
    (hack : ∀ c ∈ cycles, c.ack f = false) : (run next x cycles).pending f = true := by
  have hstep : ∀ (y : Interrupts) (c : Cycle), y.pending f = true → c.ack f = false →
      (y.next c).pending f = true := fun y c hy hc => by simp [next, hy, hc]
  exact run_invariant hstep hf (meets_of_mem hack x)

/-- An undisturbed cycle raises what the arriving word sets. -/
theorem pending_of_sets {f : Flag} (hc : x.Undisturbed c) (hf : x.sets f = true) :
    (x.next c).pending f = true := by
  have hsome : x.arriving.isSome = true := by
    cases ha : x.arriving with
    | none => simp [sets, ha] at hf
    | some w => rfl
  simp [next, hf, (hc hsome f).1 hf]

end Interrupts

/-! ## The flags -/

section Flags
variable {I : Info} {b : Channel} {c : Cycle}

theorem Intercon.intValid_iff (g : Intercon) :
    g.intValid = true ↔ (∃ f, g.eventR f = true) ∨ g.recvDramTagVR = true := by
  constructor
  · intro h
    simp only [intValid, Bool.or_eq_true] at h
    grind
  · rintro (⟨f, hf⟩ | hd)
    · exact g.intValid_of_eventR hf
    · simp [intValid, hd]

/-- In a running channel the status register is loaded with the interrupt word of the event
registers, if there is one, and otherwise with a word for another address. -/
theorem ofWord_nextStatus (hb : b.Running) :
    Interrupts.ofWord (b.intercon.nextStatus I).2.1 (b.intercon.nextStatus I).2.2 =
      if b.intercon.intValid then some b.intercon.eventR else none := by
  simp only [Intercon.nextStatus, hb.intercon, hb.interconStatusState, Bool.false_eq_true,
    if_false]
  cases hv : b.intercon.intValid with
  | true =>
    exact congrArg some (funext b.intercon.getLsbD_intsStatus)
  | false =>
    simp only [Bool.false_eq_true, if_false]
    split_ifs <;> rfl

/-- The flag of an interrupt is loaded from the arriving word, and kept without one. -/
theorem int_step (hb : b.Running) (f : Flag) :
    (b.step I c).controller.int f = (!c.ack f &&
      ((Interrupts.ofWord b.interconStatusAddrR b.interconStatusDataR).map (· f)).getD
        (b.controller.int f)) := by
  simp only [Channel.step, Controller.next, hb.coreResetR, Interrupts.ofWord, beq_iff_eq]
  by_cases h : b.interconStatusAddrR = 3 <;> cases c.ack f <;>
    simp only [h, if_true, if_false] <;> rfl

/-- An undisturbed cycle does to the flags what it should. -/
theorem ofChannel_step (hb : b.Running)
    (hc : (Interrupts.ofChannel b).Undisturbed c) :
    Interrupts.ofChannel (b.step I c) = (Interrupts.ofChannel b).next c := by
  have hpending : (b.step I c).controller.int = ((Interrupts.ofChannel b).next c).pending := by
    funext f
    rw [int_step hb f]
    simp only [Interrupts.Undisturbed, Interrupts.next, Interrupts.sets,
      Interrupts.ofChannel] at hc ⊢
    cases hw : Interrupts.ofWord b.interconStatusAddrR b.interconStatusDataR with
    | none => simp
    | some w =>
      -- a flag that is up and not in the word is acknowledged
      obtain ⟨-, hkept⟩ := hc (by simp [hw]) f
      cases hi : b.controller.int f <;> cases ha : c.ack f <;> simp_all
  have hregistered : (if (b.step I c).intercon.intValid then some c.events.event else none) =
      c.events.word := by
    rw [if_congr (Intercon.intValid_iff _) rfl rfl]
    rfl
  have hsent := ofWord_nextStatus (I := I) hb
  exact congr (congr (congr (congrArg Interrupts.mk hpending) hregistered) hsent) rfl

theorem ofChannel_run (hb : b.Running) {cycles : List Cycle}
    (hc : Meets Interrupts.next (fun x c => c.NoReset ∧ x.Undisturbed c)
      (Interrupts.ofChannel b) cycles) :
    (run (Channel.step I) b cycles).Running ∧
      Interrupts.ofChannel (run (Channel.step I) b cycles) =
        run Interrupts.next (Interrupts.ofChannel b) cycles := by
  induction cycles generalizing b with
  | nil => exact ⟨hb, rfl⟩
  | cons c cycles ih =>
    obtain ⟨⟨hno, hund⟩, hrest⟩ := hc
    have hstep := ofChannel_step (I := I) hb hund
    rw [← hstep] at hrest
    rw [run_cons, run_cons, ← hstep]
    exact ih (hb.step hno) hrest

end Flags

/-- **Interrupts stay pending until they are acknowledged.**  In every state of a run whose
events and acknowledgements leave each other undisturbed, the flags are the interrupts that
were raised and not acknowledged since; a flag that is up is still up after any number of
cycles that do not acknowledge it, and an event at the inputs of `rpu_intercon` raises its
flag in four cycles. -/
theorem interrupts_of_undisturbed (I : Info) {b : Channel} (hb : b.Running)
    (cycles : List Cycle)
    (hc : Meets Interrupts.next (fun x c => c.NoReset ∧ x.Undisturbed c)
      (Interrupts.ofChannel b) cycles) :
    let b' := run (Channel.step I) b cycles
    let x := run Interrupts.next (Interrupts.ofChannel b) cycles
    b'.controller.int = x.pending ∧
    (∀ (f : Flag) (more : List Cycle), b'.controller.int f = true →
      Meets Interrupts.next (fun x c => c.NoReset ∧ x.Undisturbed c) x more →
      (∀ c ∈ more, c.ack f = false) →
      (run (Channel.step I) b' more).controller.int f = true) ∧
    (∀ (f : Flag) (c₀ c₁ c₂ c₃ : Cycle), c₀.events.event f = true →
      Meets Interrupts.next (fun x c => c.NoReset ∧ x.Undisturbed c) x [c₀, c₁, c₂, c₃] →
      (run (Channel.step I) b' [c₀, c₁, c₂, c₃]).controller.int f = true) := by
  intro b' x
  have hrun : b'.Running ∧ Interrupts.ofChannel b' = x := ofChannel_run hb hc
  obtain ⟨hb', hx⟩ := hrun
  have hmore : ∀ more, Meets Interrupts.next (fun x c => c.NoReset ∧ x.Undisturbed c) x more →
      (run (Channel.step I) b' more).controller.int = (run Interrupts.next x more).pending := by
    intro more hmeets
    rw [← hx] at hmeets ⊢
    exact congrArg Interrupts.pending (ofChannel_run hb' hmeets).2
  have hint : b'.controller.int = x.pending := hmore [] trivial
  refine ⟨hint, fun f more hf hmeets hack => ?_, fun f c₀ c₁ c₂ c₃ hf hmeets => ?_⟩
  · rw [hmore more hmeets]
    exact Interrupts.pending_run (hint ▸ hf) hack
  · rw [hmore _ hmeets]
    have hword : c₀.events.word = some c₀.events.event := if_pos (.inl ⟨f, hf⟩)
    have hsets : (run Interrupts.next x [c₀, c₁, c₂]).sets f = true := by
      change c₀.events.word.any (· f) = true
      rw [hword]
      exact hf
    exact Interrupts.pending_of_sets _ c₃ hmeets.2.2.2.1.2 hsets

/-- The channel in reset, the core's flags low. -/
def inReset (I : Info) : Channel where
  intercon :=
    { coreResetR := true, eventR := fun _ => false, recvDramTagVR := false, recvDramTagR := 0
      hostDebugL := 0, hostDebugH := 0, hostDebugLV := false, hostDebugHV := false
      timer := 0, timerHR := 0
      interconStatusState := .info, interconStatusAddr := 0
      interconStatusData := I.coreId ++ I.maxSlotCount ++ I.bcRegionSize }
  coreResetR := true
  interconStatusAddrR := 0
  interconStatusDataR := I.coreId ++ I.maxSlotCount ++ I.bcRegionSize
  controller :=
    { int := fun _ => false, recvDramTagV := false, recvDramTag := 0, debugIn := 0
      coreMsgItems := 0, dramReqItems := 0, dramSendItems := 0, sendDataItems := 0
      timer := 0, info := I }

/-- The constants of one core. -/
def sampleInfo : Info := ⟨3, 16, 0x4000⟩

/-- The host takes the core out of reset and waits for the first words to be sent. -/
def release : List Cycle :=
  .ofEvents (.ofCtrl 0xF00000000) :: List.replicate 6 .idle

/-- The core has been poked, and its flag is up. -/
def poked : Channel :=
  run (Channel.step sampleInfo) (inReset sampleInfo)
    (release ++ .ofEvents (.ofCtrl 0xC00000001) :: List.replicate 3 .idle)

/-- The core is evicted before it has acknowledged the poke. -/
def evicting : List Cycle := .ofEvents (.ofCtrl 0xD00000001) :: List.replicate 3 .idle

/-- The core acknowledges the poke, and is evicted in the same cycle. -/
def acknowledging : Cycle := ⟨.ofCtrl 0xD00000001, true, 0x10⟩

/-- A poke is up and waits for two cycles; it is acknowledged in the cycle of an eviction, and
when the word of the eviction arrives only its flag is up. -/
theorem interrupts_of_undisturbed_poke :
    (run (Channel.step sampleInfo) (run (Channel.step sampleInfo) poked [])
        [.idle, .idle]).controller.int .poke = true ∧
      (run (Channel.step sampleInfo) (run (Channel.step sampleInfo) poked [.idle, .idle])
        [acknowledging, .idle, .idle, .idle]).controller.int .evict = true ∧
      (run (Channel.step sampleInfo) poked
        [acknowledging, .idle, .idle, .idle]).controller.int = fun f => f == .evict :=
  have hrunning : poked.Running := by decide +kernel
  ⟨(interrupts_of_undisturbed sampleInfo hrunning [] trivial).2.1
      .poke [.idle, .idle] (by decide +kernel) (by decide +kernel) (by decide +kernel),
    (interrupts_of_undisturbed sampleInfo hrunning [.idle, .idle] (by decide +kernel)).2.2
      .evict acknowledging .idle .idle .idle (by decide +kernel) (by decide +kernel),
    (interrupts_of_undisturbed sampleInfo hrunning [acknowledging, .idle, .idle, .idle]
      (by decide +kernel)).1.trans (funext fun f => by cases f <;> decide +kernel)⟩

/-- **A pending poke is lost when the core is evicted**: no cycle acknowledges it. -/
theorem evict_clears_poke :
    poked.Running ∧ poked.controller.int .poke = true ∧
      (∀ c ∈ evicting, c.NoReset ∧ c.ack .poke = false) ∧
      (run (Channel.step sampleInfo) poked evicting).controller.int .poke = false := by
  decide +kernel

end Rosebud.StatusChannel
