import Rosebud.Clocked
import Rosebud.StatusChannel

/-! # The timers of the RPUs

Every `rpu_intercon` counts cycles from its reset on, and tells the RPU the value in two halves
over the status channel, whenever the core leaves its reset.  The halves are of one moment
(`timer_h_r` is a cycle behind), the count of the RPU stands still while they are loaded, and both
count on afterwards: the timer of the RPU is four cycles behind (`Loading`).

The status channel of `StatusChannel` is put under the reset here: `rst` restarts the status words
at once, and `rst_r`, which `sync_reset` makes of it, clears the timer and holds the core in reset.
-/
namespace Rosebud.TimerSync
open Clocked StatusChannel

/-! ## The reset -/

/-- The status generator of `rpu_intercon` under reset. -/
def nextIntercon (I : Info) (rst rstR : Bool) (g : Intercon) (e : Events) : Intercon :=
  let g' := g.next I e
  let status := Intercon.nextStatus I { g with coreResetR := rst || g.coreResetR }
  { g' with
    coreResetR := rstR || g'.coreResetR
    eventR := fun
      | .poke => !rstR && g'.eventR .poke
      | .evict => !rstR && g'.eventR .evict
      | f => g'.eventR f
    recvDramTagVR := !rstR && g'.recvDramTagVR
    hostDebugLV := !rstR && g'.hostDebugLV
    hostDebugHV := !rstR && g'.hostDebugHV
    timer := if rstR then 0 else g'.timer
    interconStatusState := status.1
    interconStatusAddr := status.2.1
    interconStatusData := status.2.2 }

/-- An RPU with its status channel: the register of `sync_reset`, `rst_r` of the wrapper, and the
channel. -/
structure Rpu where
  syncReg : BitVec 2
  rstR : Bool
  channel : Channel

structure Cycle where
  rst : Bool
  status : StatusChannel.Cycle

namespace Rpu
variable (I : Info) (r : Rpu) (c : Cycle)

/-- `rst_r` of `rpu_intercon`: the register of `sync_reset` is set as soon as `rst` is high. -/
def interconRstR : Bool := c.rst || r.syncReg.getLsbD 1

def step : Rpu where
  syncReg := if c.rst then 0b11 else r.syncReg <<< 1
  rstR := c.rst
  channel :=
    { intercon :=
        nextIntercon I c.rst (r.interconRstR c) r.channel.intercon c.status.events
      coreResetR := r.channel.intercon.coreResetR
      interconStatusAddrR := r.channel.intercon.interconStatusAddr
      interconStatusDataR := r.channel.intercon.interconStatusData
      controller := r.channel.controller.next (r.rstR || r.channel.coreResetR)
        r.channel.interconStatusAddrR r.channel.interconStatusDataR c.status.ack }

/-- `core_reset` -/
def coreReset : Bool := r.channel.intercon.coreResetR

/-- The timer of `rpu_intercon`. -/
def interconTimer : BitVec 64 := r.channel.intercon.timer

/-- The timer of `rpu_controller`. -/
def timer : BitVec 64 := r.channel.controller.timer

/-- The core leaves its reset only after `rst_r` did. -/
structure Ordered (r : Rpu) : Prop where
  syncReg : r.syncReg.getLsbD 0 = true → r.syncReg.getLsbD 1 = true
  coreReset : r.coreReset = false → r.syncReg = 0

variable {I r c}

theorem eq_zero_of_bits : ∀ x : BitVec 2, x.getLsbD 0 = false → x.getLsbD 1 = false → x = 0 := by
  decide

theorem ordered_of_rst (hc : c.rst = true) : (r.step I c).Ordered := by
  constructor
  · intro _
    simp [step, hc]
  · intro h
    simp [coreReset, step, nextIntercon, interconRstR, hc] at h

theorem Ordered.step (h : r.Ordered) (c : Cycle) : (r.step I c).Ordered := by
  cases hc : c.rst with
  | true => exact ordered_of_rst hc
  | false =>
    have hsync : (r.step I c).syncReg = r.syncReg <<< 1 := by simp [Rpu.step, hc]
    constructor
    · intro hlow
      rw [hsync] at hlow
      simp at hlow
    · intro hcore
      -- `rst_r` was low in the cycle, and so it stays
      have hhigh : r.syncReg.getLsbD 1 = false := by
        have hor : (r.interconRstR c || _) = false := hcore
        exact (Bool.or_eq_false_iff.mp (Bool.or_eq_false_iff.mp hor).1).2
      have hlow : r.syncReg.getLsbD 0 = false := by
        cases h0 : r.syncReg.getLsbD 0 with
        | false => rfl
        | true => exact absurd (h.syncReg h0) (by rw [hhigh]; exact Bool.false_ne_true)
      rw [hsync, eq_zero_of_bits r.syncReg hlow hhigh]
      rfl

/-! ## Loading the timer -/

/-- The core is out of reset, and so is everything else. -/
structure Runs (r : Rpu) (c : Cycle) : Prop where
  rst : c.rst = false
  coreReset : r.coreReset = false
  syncReg : r.syncReg = 0

/-- What a cycle does then. -/
theorem Runs.step (h : r.Runs c) :
    (r.step I c).interconTimer = r.interconTimer + 1 ∧
      (r.step I c).channel.intercon.interconStatusState = (r.channel.intercon.nextStatus I).1 ∧
      (r.step I c).channel.intercon.interconStatusAddr = (r.channel.intercon.nextStatus I).2.1 ∧
      (r.step I c).channel.intercon.interconStatusData = (r.channel.intercon.nextStatus I).2.2 := by
  have hrst : r.interconRstR c = false := by
    rw [interconRstR, h.rst, h.syncReg]
    rfl
  refine ⟨?_, ?_, ?_, ?_⟩
  · simp [interconTimer, Rpu.step, nextIntercon, hrst, Intercon.next]
  all_goals simp only [Rpu.step, nextIntercon, h.rst, Bool.false_or]

/-- The address of a status word other than the halves of the timer. -/
def Other (addr : BitVec 3) : Prop := addr ≠ 1 ∧ addr ≠ 2

/-- Where the words with the timer of the moment `t` are, so many cycles after the core left its
reset. -/
def Loading : Nat → Rpu → Prop
  | 0, r => r.channel.intercon.interconStatusState = .info
  | 1, r => ∃ t, r.interconTimer = t + 1 ∧
      r.channel.intercon.interconStatusState = .timerL ∧
      r.channel.intercon.timerHR = t.extractLsb' 32 32 ∧
      r.channel.intercon.interconStatusAddr = 1 ∧
      r.channel.intercon.interconStatusData = t.extractLsb' 0 32
  | 2, r => ∃ t, r.interconTimer = t + 2 ∧
      r.channel.intercon.interconStatusState = .timerH ∧
      r.channel.intercon.interconStatusAddr = 2 ∧
      r.channel.intercon.interconStatusData = t.extractLsb' 32 32 ∧
      r.channel.interconStatusAddrR = 1 ∧
      r.channel.interconStatusDataR = t.extractLsb' 0 32
  | 3, r => ∃ t, r.interconTimer = t + 3 ∧
      r.channel.intercon.interconStatusState = .default ∧
      Other r.channel.intercon.interconStatusAddr ∧
      r.channel.interconStatusAddrR = 2 ∧
      r.channel.interconStatusDataR = t.extractLsb' 32 32 ∧
      r.timer.extractLsb' 0 32 = t.extractLsb' 0 32
  | _ + 4, r => r.interconTimer = r.timer + 4 ∧
      r.channel.intercon.interconStatusState = .default ∧
      Other r.channel.intercon.interconStatusAddr ∧
      Other r.channel.interconStatusAddrR

section Status
variable {g : Intercon} (hcore : g.coreResetR = false)
include hcore

theorem nextStatus_info (hstate : g.interconStatusState = .info) :
    g.nextStatus I = (.timerL, 1, g.timer.extractLsb' 0 32) := by
  rw [Intercon.nextStatus, hcore, if_neg Bool.false_ne_true, hstate]

theorem nextStatus_timerL (hstate : g.interconStatusState = .timerL) :
    g.nextStatus I = (.timerH, 2, g.timerHR) := by
  rw [Intercon.nextStatus, hcore, if_neg Bool.false_ne_true, hstate]

/-- Then neither half is sent again. -/
theorem nextStatus_other
    (hstate : g.interconStatusState = .timerH ∨ g.interconStatusState = .default) :
    (g.nextStatus I).1 = .default ∧ Other (g.nextStatus I).2.1 := by
  rw [Intercon.nextStatus, hcore, if_neg Bool.false_ne_true]
  rcases hstate with hstate | hstate
  · rw [hstate]
    refine ⟨rfl, ?_, ?_⟩ <;> dsimp only <;> decide
  · rw [hstate]
    split_ifs <;> refine ⟨rfl, ?_, ?_⟩ <;> dsimp only <;> decide

end Status

theorem timer_step_of_other (h : Other r.channel.interconStatusAddrR) :
    (r.step I c).timer = r.timer + 1 := by
  obtain ⟨h1, h2⟩ := h
  have h1' : r.channel.interconStatusAddrR ≠ 1#3 := h1
  have h2' : r.channel.interconStatusAddrR ≠ 2#3 := h2
  simp [timer, Rpu.step, Controller.next, h1', h2']

theorem low_append (x y : BitVec 32) : (x ++ y).extractLsb' 0 32 = y := by
  ext i hi
  rw [BitVec.getElem_extractLsb', BitVec.getLsbD_append, if_pos (by omega), Nat.zero_add,
    BitVec.getLsbD_eq_getElem]

theorem append_halves (t : BitVec 64) : t.extractLsb' 32 32 ++ t.extractLsb' 0 32 = t := by
  ext i hi
  rw [BitVec.getElem_append]
  split
  · simp [BitVec.getLsbD_eq_getElem, hi]
  · have hadd : 32 + (i - 32) = i := by omega
    simp [hadd, BitVec.getLsbD_eq_getElem, hi]

/-- **One cycle of the loading.** -/
theorem Loading.step {k : Nat} (hl : Loading k r) (h : r.Runs c) :
    Loading (k + 1) (r.step I c) := by
  obtain ⟨htimer, hstate', haddr', hdata'⟩ := h.step (I := I)
  have hcore : r.channel.intercon.coreResetR = false := h.coreReset
  match k, hl with
  | 0, hstate =>
    rw [nextStatus_info hcore hstate] at hstate' haddr' hdata'
    exact ⟨r.interconTimer, htimer, hstate', rfl, haddr', hdata'⟩
  | 1, ⟨t, ht, hstate, hhigh, haddr, hdata⟩ =>
    rw [nextStatus_timerL hcore hstate] at hstate' haddr' hdata'
    refine ⟨t, ?_, hstate', haddr', hdata'.trans hhigh, haddr, hdata⟩
    rw [htimer, ht, BitVec.add_assoc]
    rfl
  | 2, ⟨t, ht, hstate, haddr, hdata, haddrR, hdataR⟩ =>
    obtain ⟨hdefault, hother⟩ := nextStatus_other (I := I) hcore (.inl hstate)
    refine ⟨t, ?_, hstate'.trans hdefault, haddr' ▸ hother, haddr, hdata, ?_⟩
    · rw [htimer, ht, BitVec.add_assoc]
      rfl
    · -- the low half is loaded
      have hload : (r.step I c).timer =
          r.timer.extractLsb' 32 32 ++ r.channel.interconStatusDataR := by
        simp [timer, Rpu.step, Controller.next, haddrR]
      rw [hload, hdataR]
      exact low_append _ _
  | 3, ⟨t, ht, hstate, hother₀, haddrR, hdataR, hlow⟩ =>
    obtain ⟨hdefault, hother⟩ := nextStatus_other (I := I) hcore (.inr hstate)
    refine ⟨?_, hstate'.trans hdefault, haddr' ▸ hother, hother₀⟩
    -- the high half is loaded, of the same moment
    have hload : (r.step I c).timer =
        r.channel.interconStatusDataR ++ r.timer.extractLsb' 0 32 := by
      simp [timer, Rpu.step, Controller.next, haddrR]
    rw [htimer, ht, hload, hdataR, hlow, append_halves, BitVec.add_assoc]
    rfl
  | k + 4, ⟨ht, hstate, hother₀, hotherR⟩ =>
    obtain ⟨hdefault, hother⟩ := nextStatus_other (I := I) hcore (.inr hstate)
    refine ⟨?_, hstate'.trans hdefault, haddr' ▸ hother, hother₀⟩
    rw [htimer, ht, timer_step_of_other hotherR, BitVec.add_assoc, BitVec.add_assoc,
      BitVec.add_comm 4]

theorem Loading.run {k : Nat} (hl : Loading k r) (ho : r.Ordered) {cycles : List Cycle}
    (hrst : ∀ c ∈ cycles, c.rst = false)
    (hcore : Meets (Rpu.step I) (fun r _ => r.coreReset = false) r cycles) :
    Loading (k + cycles.length) (Clocked.run (Rpu.step I) r cycles) := by
  induction cycles generalizing r k with
  | nil => exact hl
  | cons c cycles ih =>
    have hruns : r.Runs c :=
      ⟨hrst c List.mem_cons_self, hcore.1, ho.coreReset hcore.1⟩
    have hrest := ih (hl.step hruns) (ho.step c) (fun d hd => hrst d (List.mem_cons_of_mem c hd))
      hcore.2
    rwa [List.length_cons, Nat.add_comm cycles.length, ← Nat.add_assoc]

/-- While the core is in reset the generator starts again. -/
theorem loading_of_coreReset (h : r.coreReset = true) (c : Cycle) : Loading 0 (r.step I c) := by
  have hcore : r.channel.intercon.coreResetR = true := h
  simp [Loading, Rpu.step, nextIntercon, Intercon.nextStatus, hcore]

/-! ## Two RPUs -/

/-- The timers of two interconnects run together. -/
structure Together (r r' : Rpu) : Prop where
  syncReg : r.syncReg = r'.syncReg
  interconTimer : r.interconTimer = r'.interconTimer

variable {I' : Info} {r' : Rpu} {c' : Cycle}

theorem interconTimer_step : (r.step I c).interconTimer =
    if r.interconRstR c then 0 else r.interconTimer + 1 := rfl

theorem together_of_rst (hc : c.rst = true) (hc' : c'.rst = true) :
    Together (r.step I c) (r'.step I' c') where
  syncReg := by simp [Rpu.step, hc, hc']
  interconTimer := by simp [interconTimer_step, interconRstR, hc, hc']

theorem Together.step (h : Together r r') (hc : c.rst = c'.rst) :
    Together (r.step I c) (r'.step I' c') where
  syncReg := by simp [Rpu.step, hc, h.syncReg]
  interconTimer := by
    rw [interconTimer_step, interconTimer_step, interconRstR, interconRstR, hc, h.syncReg,
      h.interconTimer]

theorem Together.run {cs cs' : List Cycle} (h : Together r r')
    (hrst : cs.map (·.rst) = cs'.map (·.rst)) :
    Together (Clocked.run (Rpu.step I) r cs) (Clocked.run (Rpu.step I') r' cs') := by
  induction cs generalizing r r' cs' with
  | nil =>
    obtain rfl : cs' = [] := by simpa using hrst.symm
    exact h
  | cons c cs ih =>
    cases cs' with
    | nil => simp at hrst
    | cons c' cs' =>
      obtain ⟨hc, hrest⟩ := List.cons_eq_cons.mp hrst
      rw [run_cons, run_cons]
      exact ih (h.step hc) hrest

end Rpu

open Rpu

/-- A run that begins with a reset, of any registers.  In the cycle `last` the core is in reset
for the last time, and after it the words with the timer have been delivered. -/
structure Session (I : Info) where
  start : Rpu
  reset : Cycle
  before : List Cycle
  last : Cycle
  after : List Cycle
  reset_rst : reset.rst = true
  last_coreReset : (run (step I) (start.step I reset) before).coreReset = true
  after_rst : ∀ c ∈ after, c.rst = false
  after_coreReset : Meets (step I) (fun r _ => r.coreReset = false)
    (run (step I) (start.step I reset) (before ++ [last])) after
  delivered : 4 ≤ after.length

namespace Session
variable {I : Info} (x : Session I)

/-- The cycles after the first. -/
def cycles : List Cycle := x.before ++ [x.last] ++ x.after

/-- The registers in the end. -/
def final : Rpu := run (step I) (x.start.step I x.reset) x.cycles

theorem timer_final : x.final.timer = x.final.interconTimer - 4 := by
  have hordered : (run (step I) (x.start.step I x.reset) (x.before ++ [x.last])).Ordered :=
    run_preserves (fun _ c h => h.step c) (ordered_of_rst x.reset_rst) _
  have hinfo : Loading 0 (run (step I) (x.start.step I x.reset) (x.before ++ [x.last])) := by
    rw [run_append]
    exact loading_of_coreReset x.last_coreReset x.last
  have hloading := hinfo.run hordered x.after_rst x.after_coreReset
  rw [← run_append, Nat.zero_add] at hloading
  obtain ⟨k, hk⟩ := Nat.exists_eq_add_of_le' x.delivered
  rw [hk] at hloading
  have htimer : x.final.interconTimer = x.final.timer + 4 := hloading.1
  rw [htimer, BitVec.add_sub_cancel]

end Session

/-- **The timers of the RPUs are synchronised.**  After a reset of any length at any time, and any
number of times the core was in reset since, the timer of the RPU is that of its interconnect four
cycles before, from the fourth cycle after the core left its reset to the next time it is put into
it.  So two RPUs with the same `rst` have the same timer. -/
theorem timers_synchronised :
    (∀ (I : Info) (x : Session I), x.final.timer = x.final.interconTimer - 4) ∧
    ∀ (I I' : Info) (x : Session I) (y : Session I'),
      x.cycles.map (·.rst) = y.cycles.map (·.rst) → x.final.timer = y.final.timer := by
  refine ⟨fun I x => x.timer_final, ?_⟩
  intro I I' x y hrst
  have htogether : Together x.final y.final :=
    (together_of_rst x.reset_rst y.reset_rst).run hrst
  rw [x.timer_final, y.timer_final, htogether.interconTimer]

/-- A cycle in which nothing happens. -/
def idle : Cycle := ⟨false, .idle⟩

/-- Registers with nothing in them. -/
def sampleRegs : Rpu :=
  ⟨0, false,
    ⟨⟨false, fun _ => false, false, 0, 0, 0, false, false, 77, 0, .default, 0, 0⟩, false, 0, 0,
      ⟨fun _ => false, false, 0, 0, 0, 0, 0, 0, 5, ⟨0, 0, 0⟩⟩⟩⟩

/-- The host lets the core go in the third cycle after the reset. -/
def sampleSession : Session ⟨3, 16, 8192⟩ where
  start := sampleRegs
  reset := ⟨true, .idle⟩
  before := [idle, idle]
  last := ⟨false, .ofEvents { Events.none with coreReset := some false }⟩
  after := List.replicate 5 idle
  reset_rst := rfl
  last_coreReset := by decide +kernel
  after_rst := by decide
  after_coreReset := by decide +kernel
  delivered := by decide

theorem timers_synchronised_sampleSession :
    sampleSession.final.interconTimer = 6 ∧
      sampleSession.final.timer = sampleSession.final.interconTimer - 4 :=
  ⟨by decide +kernel, timers_synchronised.1 _ sampleSession⟩

end Rosebud.TimerSync
