import Rosebud.DmaStages

/-! # The descriptors of received packets

With the last write of a packet `axis_dma` puts a descriptor of it into its output
register.  If that register is occupied and not being read, the circuit only notes that
a descriptor is late (`desc_late_write`), and builds it from the live registers once
the output register is read.

By then the live registers can belong to the next packet; and unless the packet ended
in an extra cycle or with a word without bytes, the strobes of its last word are still in the
first register, and its length counts them twice.  `recv_descs_of_descSafe` says that nothing
else goes wrong: in runs without these two cases the descriptors are those of the packets.
-/
namespace Rosebud.DmaWrite
open Clocked Lanes AxiStream ByteStore

variable {P : Config}

/-- The descriptor of a packet: address and side channels of its first word, and its
number of kept bytes. -/
def descOf (p : Pkt P) : Desc P :=
  ⟨p.side.wrBaseAddr, BitVec.ofNat _ p.bytes.length, p.side.tdest, p.side.tuser⟩

/-- The length is exact if it can be written. -/
theorem toNat_len_descOf {p : Pkt P} (h : p.bytes.length < 2 ^ P.lenWidth) :
    (descOf p).len.toNat = p.bytes.length := by
  rw [descOf, BitVec.toNat_ofNat, Nat.mod_eq_of_lt h]

/-! ## The end of a packet -/

namespace Progress

/-- After the end of a packet the circuit is idle, unless a word is taken. -/
theorem stage_of_finishing {a : Progress P} {ready : Bool} {p : Pkt P}
    (h : a.finishing ready = some p) : (a.next ready false).stage = .idle := by
  obtain ⟨st, todo⟩ := a
  cases st with
  | idle => simp [finishing] at h
  | gap x => simp [finishing] at h
  | extra x =>
    have hready := (Option.ite_none_right_eq_some.mp h).1
    simp [next, hready]
  | hold x =>
    obtain ⟨rfl, hleft, hfit⟩ : ready = true ∧ x.left = [] ∧ x.pkt.count ≤ room x.pkt := by
      simpa using (Option.ite_none_right_eq_some.mp h).1
    rw [next_hold_nil _ hleft, if_neg (Nat.not_lt.mpr hfit)]
    rfl

end Progress

section Finish
variable {r : Regs P} {a : Progress P}

/-- `mem_wr_last` goes with the end of a packet. -/
theorem wrLastPkt_eq_finishing (h : Matches r a.stage) (ready : Bool) :
    (wrLastPkt r && ready) = (a.finishing ready).isSome := by
  obtain ⟨st, todo⟩ := a
  cases st with
  | idle => simp [Progress.finishing, quiet_wires h]
  | gap x => simp [Progress.finishing, (gap_wires h).2]
  | extra x =>
    rw [(extra_wires h).2]
    cases ready <;> rfl
  | hold x =>
    rw [hold_wrLastPkt h, Bool.and_comm]
    simp only [Progress.finishing]
    split <;> simp_all

/-- At the end of a packet the live registers are its own. -/
theorem liveDesc_finishing (h : Matches r a.stage) {ready : Bool} {p : Pkt P}
    (hp : a.finishing ready = some p) : liveDesc r = descOf p := by
  obtain ⟨st, todo⟩ := a
  cases st with
  | idle => simp [Progress.finishing] at hp
  | gap x => simp [Progress.finishing] at hp
  | extra x =>
    have hx : x.pkt = p := by
      simpa [Progress.finishing] using (Option.ite_none_right_eq_some.mp hp).2
    have hlen := extra_len h
    obtain ⟨hl, -⟩ := h
    rw [liveDesc, hlen, hl.wrStartAddr, hl.wrTdest, hl.wrTuser, hx]
    rfl
  | hold x =>
    obtain ⟨hcond, hx⟩ := Option.ite_none_right_eq_some.mp hp
    obtain ⟨-, hleft, hfit⟩ : ready = true ∧ x.left = [] ∧ x.pkt.count ≤ room x.pkt := by
      simpa using hcond
    have hlen := hold_len h
    have hcount := Pos.headCount_last hleft
    have htotal := x.total
    rw [Packet.bytes_nil (p := { x.pkt with body := x.left }) hleft, length_lanes] at htotal
    rw [hcount, Nat.min_eq_left hfit, ← Nat.add_assoc, htotal] at hlen
    obtain ⟨hl, -⟩ := h
    rw [liveDesc, hlen, hl.wrStartAddr, hl.wrTdest, hl.wrTuser, Option.some.inj hx]
    rfl

/-- With empty strobes the live length is the one counted so far. -/
theorem liveDesc_of_empty (h1 : r.wrStrb1 = 0) (h2 : r.wrStrb2 = 0)
    (hfirst : r.wrFirstPkt = false) :
    liveDesc r = ⟨r.wrStartAddr, r.wrPktLen, r.wrTdest, r.wrTuser⟩ := by
  have hzero : memWrStrb r = 0 := by simp [memWrStrb, strbWindow, h1, h2]
  have hcount := oneCount_eq (P := P) (wrAddr r) (memWrData r) (memWrStrb r)
  rw [hzero] at hcount
  simp [keptAt] at hcount
  simp [liveDesc, nextWrPktLen, hfirst, hzero, hcount]

end Finish

/-! ## What is reported -/

/-- The cycles that keep the descriptors right.  A packet that ends while the output
register is blocked does so without strobes in the first register, which is in its extra
cycle or with a word without bytes; and neither in that cycle nor later, while its descriptor
waits, is the first word of another packet taken. -/
def DescSafe (b : Bench P) (c : Cycle P) : Prop :=
  ((wrLastPkt b.regs && c.memWrReady && descBlock b.regs (b.inputs c)) = true →
    b.regs.wrStrb1 = 0 ∧ latchInfo b.regs (b.inputs c) = false) ∧
  ((b.regs.descLateWrite && !c.recvDescReady) = true →
    latchInfo b.regs (b.inputs c) = false)
deriving Decidable

/-- What a late descriptor relies on. -/
structure Late (r : Regs P) (a : Progress P) : Prop where
  recvDescVR : r.recvDescVR = true
  stage : a.stage = .idle
  wrStrb1 : r.wrStrb1 = 0

/-- The descriptors that have not been taken: the one in the output register, a late
one, and those of the packets that have not ended. -/
def owedDescs (r : Regs P) (a : Progress P) : List (Desc P) :=
  (if r.recvDescVR then [r.recvDescR] else []) ++
    ((if r.descLateWrite then [liveDesc r] else []) ++ a.unfinished.map descOf)

/-- The bench is among the packets `ps` and still has to report `owed`. -/
def OwesDescs (ps : List (Pkt P)) (b : Bench P) (owed : List (Desc P)) : Prop :=
  ∃ a, Follows b a ∧ a.todo <:+ ps ∧ (b.regs.descLateWrite = true → Late b.regs a) ∧
    owed = owedDescs b.regs a

/-- A cycle that reports the first of the descriptors `owed`, or none. -/
def Reports (ps : List (Pkt P)) (b : Bench P) (c : Cycle P) (owed : List (Desc P)) : Prop :=
  ∃ sent owed', (b.step c).descs = b.descs ++ sent ∧ owed = sent ++ owed' ∧
    OwesDescs ps (b.step c) owed'

section Report
variable {ps : List (Pkt P)} {b : Bench P} {c : Cycle P} {a : Progress P}

/-- The output register after a cycle. -/
theorem recvDesc_step : (b.step c).regs.recvDescR =
      (if latchDesc b.regs (b.inputs c) then liveDesc b.regs else b.regs.recvDescR) ∧
    (b.step c).regs.recvDescVR =
      (latchDesc b.regs (b.inputs c) || b.regs.recvDescVR && !c.recvDescReady) := by
  have hready : (b.inputs c).recvDescReady = c.recvDescReady := rfl
  cases hl : latchDesc b.regs (b.inputs c) <;> cases hv : b.regs.recvDescVR <;>
    cases hr : c.recvDescReady <;> simp [Bench.step, next, hready, hl, hv, hr]

variable (hf : Follows b a) (hs : a.todo <:+ ps)
include hf hs

/-- What has to be shown of a cycle, given the descriptor registers after it. -/
theorem owesDescs_step_of (hlate : (b.step c).regs.descLateWrite = true →
      Late (b.step c).regs (a.next c.memWrReady (b.accepts c)))
    (howed : owedDescs b.regs a =
      (if b.regs.recvDescVR && c.recvDescReady then [b.regs.recvDescR] else []) ++
        owedDescs (b.step c).regs (a.next c.memWrReady (b.accepts c))) :
    Reports ps b c (owedDescs b.regs a) :=
  ⟨_, _, rfl, howed, _, follows_step hf c, (a.todo_next _ _).trans hs, hlate, rfl⟩

/-- A packet ends and the output register can take its descriptor. -/
theorem ended_free (hlate : b.regs.descLateWrite = false) {p : Pkt P}
    (hp : a.finishing c.memWrReady = some p) (hfree : descBlock b.regs (b.inputs c) = false) :
    Reports ps b c (owedDescs b.regs a) := by
  have hlast : (wrLastPkt b.regs && (b.inputs c).memWrReady) = true :=
    (wrLastPkt_eq_finishing hf.regs c.memWrReady).trans (by rw [hp]; rfl)
  have hlatch : latchDesc b.regs (b.inputs c) = true := by simp [latchDesc, hlast, hfree]
  have hlate' : (b.step c).regs.descLateWrite = false := by
    simp [Bench.step, next, hfree, hlate]
  refine owesDescs_step_of hf hs (fun h => absurd (hlate'.symm.trans h) Bool.false_ne_true) ?_
  rw [owedDescs, owedDescs, hlate, hlate', recvDesc_step.1, recvDesc_step.2, hlatch,
    liveDesc_finishing hf.regs hp, a.unfinished_next c.memWrReady (b.accepts c), hp]
  -- the register was empty or has just been read
  have hread : b.regs.recvDescVR = true → c.recvDescReady = true := by
    simpa [descBlock, Bench.inputs] using hfree
  cases hreg : b.regs.recvDescVR with
  | false => simp
  | true => simp [hread hreg]

/-- The output register is read while a descriptor is late. -/
theorem late_read (hlate : b.regs.descLateWrite = true) (h : Late b.regs a)
    (hread : c.recvDescReady = true) : Reports ps b c (owedDescs b.regs a) := by
  have hnone : a.finishing c.memWrReady = none := by simp [Progress.finishing, h.stage]
  have hlatch : latchDesc b.regs (b.inputs c) = true := by
    simp [latchDesc, hlate, Bench.inputs, hread]
  have hfree : descBlock b.regs (b.inputs c) = false := by simp [descBlock, Bench.inputs, hread]
  have hlate' : (b.step c).regs.descLateWrite = false := by
    simp only [Bench.step, next, hfree, Bool.and_false, Bool.false_eq_true, if_false]
    exact if_pos hread
  refine owesDescs_step_of hf hs (fun h => absurd (hlate'.symm.trans h) Bool.false_ne_true) ?_
  rw [owedDescs, owedDescs, hlate, hlate', recvDesc_step.1, recvDesc_step.2, hlatch, h.recvDescVR,
    hread, a.unfinished_next c.memWrReady (b.accepts c), hnone]
  simp

/-- A descriptor is late after a cycle that takes no word, in which the output register stays
full and the live registers stay as they are. -/
theorem late_after (hv : b.regs.recvDescVR = true) (hnot : c.recvDescReady = false)
    (hlatch : latchDesc b.regs (b.inputs c) = false)
    (hlate : (b.step c).regs.descLateWrite = true)
    (hstage : (a.next c.memWrReady (b.accepts c)).stage = .idle)
    (hstrb : (b.step c).regs.wrStrb1 = 0)
    (hlive : liveDesc (b.step c).regs = liveDesc b.regs)
    (howed : (if b.regs.descLateWrite then [liveDesc b.regs] else []) ++
        (a.finishing c.memWrReady).toList.map descOf = [liveDesc b.regs]) :
    Reports ps b c (owedDescs b.regs a) := by
  have hv' : (b.step c).regs.recvDescVR = true := by rw [recvDesc_step.2, hv, hnot]; simp
  refine owesDescs_step_of hf hs (fun _ => ⟨hv', hstage, hstrb⟩) ?_
  rw [owedDescs, owedDescs, hlate, hv, hv', recvDesc_step.1, hlatch, hlive, hnot,
    a.unfinished_next c.memWrReady (b.accepts c), List.map_append,
    ← List.append_assoc (if b.regs.descLateWrite then _ else _), howed]
  simp

/-- A packet ends with nothing in the first strobe register and the output register is
blocked. -/
theorem ended_blocked (hlate : b.regs.descLateWrite = false) {p : Pkt P}
    (hp : a.finishing c.memWrReady = some p) (hblock : descBlock b.regs (b.inputs c) = true)
    (hstrb : b.regs.wrStrb1 = 0) (hlatch : latchInfo b.regs (b.inputs c) = false) :
    Reports ps b c (owedDescs b.regs a) := by
  have hlast : (wrLastPkt b.regs && (b.inputs c).memWrReady) = true :=
    (wrLastPkt_eq_finishing hf.regs c.memWrReady).trans (by rw [hp]; rfl)
  have hready : (b.inputs c).memWrReady = true := (Bool.and_eq_true_iff.mp hlast).2
  have hen : b.regs.wrDataEn = true :=
    (Bool.and_eq_true_iff.mp (Bool.and_eq_true_iff.mp hlast).1).1
  have hacc : b.accepts c = false := by
    rw [latchInfo, hlast, Bool.or_true, Bool.true_and] at hlatch
    exact hlatch
  have hw : writes b.regs (b.inputs c) = true := by rw [writes, hen, hready, Bool.true_and]
  obtain ⟨hv, hnot⟩ : b.regs.recvDescVR = true ∧ c.recvDescReady = false := by
    simpa [descBlock, Bench.inputs] using hblock
  have hstrb1 : (b.step c).regs.wrStrb1 = 0 := by
    have hacc' : DmaWrite.accepts b.regs (b.inputs c) = false := hacc
    simp [Bench.step, next, hacc', hstrb]
  refine late_after hf hs hv hnot (by simp [latchDesc, hblock, hlate])
    (by simp [Bench.step, next, hlast, hblock]) ?_ hstrb1 ?_ ?_
  · rw [hacc]
    exact Progress.stage_of_finishing hp
  · rw [liveDesc_of_empty hstrb1 (by simp [Bench.step, next, hlast])
      (by simp [Bench.step, next, hlatch, hready])]
    simp [Bench.step, next, hlatch, hw, liveDesc]
  · rw [hlate, hp, liveDesc_finishing hf.regs hp]
    rfl

/-- A descriptor stays late. -/
theorem late_waits (hlate : b.regs.descLateWrite = true) (h : Late b.regs a)
    (hnot : c.recvDescReady = false) (hlatch : latchInfo b.regs (b.inputs c) = false) :
    Reports ps b c (owedDescs b.regs a) := by
  have hquiet : Quiet b.regs := by
    have hm := hf.regs
    rw [h.stage] at hm
    exact hm
  have hacc : DmaWrite.accepts b.regs (b.inputs c) = false := by
    simpa [latchInfo, hquiet.wrStateR] using hlatch
  have hw : writes b.regs (b.inputs c) = false := by simp [writes, hquiet.wrDataEn]
  have hlast : wrLastPkt b.regs = false := quiet_wires hquiet
  have hstrb1 : (b.step c).regs.wrStrb1 = 0 := by
    simp [Bench.step, next, hquiet.extraCycle, hacc, h.wrStrb1]
  refine late_after hf hs h.recvDescVR hnot (by simp [latchDesc, hlast, Bench.inputs, hnot])
    (by simp [Bench.step, next, hlast, Bench.inputs, hnot, hlate]) ?_ hstrb1 ?_ ?_
  · have hacc' : b.accepts c = false := hacc
    rw [Progress.next, h.stage, hacc']
    exact h.stage
  · rw [liveDesc_of_empty hstrb1 (by simp [Bench.step, next, hlast, hw, hquiet.wrStrb2])
        (by simp [Bench.step, next, hlatch, hquiet.wrFirstPkt]),
      liveDesc_of_empty h.wrStrb1 hquiet.wrStrb2 hquiet.wrFirstPkt]
    simp [Bench.step, next, hlatch, hw]
  · simp [hlate, Progress.finishing, h.stage]

/-- No packet ends and no descriptor is late. -/
theorem not_ended (hlate : b.regs.descLateWrite = false)
    (hnone : a.finishing c.memWrReady = none) : Reports ps b c (owedDescs b.regs a) := by
  have hlast : (wrLastPkt b.regs && (b.inputs c).memWrReady) = false :=
    (wrLastPkt_eq_finishing hf.regs c.memWrReady).trans (by rw [hnone]; rfl)
  have hlatch : latchDesc b.regs (b.inputs c) = false := by
    simp only [latchDesc, hlast, hlate, Bool.false_and, Bool.or_false]
  have hlate' : (b.step c).regs.descLateWrite = false := by
    simp only [Bench.step, next, hlast, hlate, Bool.false_and, Bool.false_eq_true, if_false,
      ite_self]
  refine owesDescs_step_of hf hs (fun h => absurd (hlate'.symm.trans h) Bool.false_ne_true) ?_
  rw [owedDescs, owedDescs, hlate, hlate', recvDesc_step.1, recvDesc_step.2, hlatch,
    a.unfinished_next c.memWrReady (b.accepts c), hnone]
  cases b.regs.recvDescVR <;> cases c.recvDescReady <;> simp

omit hf hs

/-- A safe cycle reports the first of the descriptors due, or none. -/
theorem owesDescs_step {owed : List (Desc P)} (h : OwesDescs ps b owed) (hc : DescSafe b c) :
    Reports ps b c owed := by
  obtain ⟨a, hf, hs, hlate, rfl⟩ := h
  cases hl : b.regs.descLateWrite with
  | true =>
    cases hready : c.recvDescReady with
    | true => exact late_read hf hs hl (hlate hl) hready
    | false => exact late_waits hf hs hl (hlate hl) hready (hc.2 (by rw [hl, hready]; rfl))
  | false =>
    cases hp : a.finishing c.memWrReady with
    | none => exact not_ended hf hs hl hp
    | some p =>
      cases hblock : descBlock b.regs (b.inputs c) with
      | false => exact ended_free hf hs hl hp hblock
      | true =>
        have hlast := wrLastPkt_eq_finishing hf.regs c.memWrReady
        rw [hp] at hlast
        obtain ⟨hstrb, hlatch⟩ := hc.1 (by rw [hlast, hblock]; rfl)
        exact ended_blocked hf hs hl hp hblock hstrb hlatch

theorem Bench.Start.owesDescs (h : b.Start ps) : OwesDescs ps b (ps.map descOf) := by
  refine ⟨⟨.idle, ps⟩, h.follows, List.suffix_refl ps, ?_, ?_⟩
  · intro hlate
    exact absurd (h.descLateWrite.symm.trans hlate) Bool.false_ne_true
  · rw [owedDescs, h.recvDescVR, h.descLateWrite]
    rfl

/-- **The descriptors are those of the packets** in every run of safe cycles: those
taken are the first ones of the packets' descriptors, in order and one for each; and
between packets, with none left in the output register, they are the descriptors of the
packets taken so far. -/
theorem recv_descs_of_descSafe {ps : List (Pkt P)} {b₀ : Bench P} (hstart : b₀.Start ps)
    {cycles : List (Cycle P)} (hsafe : Meets Bench.step DescSafe b₀ cycles) :
    let b := run Bench.step b₀ cycles
    b.descs <+: ps.map descOf ∧
      (b.regs.wrStateR = .idle → b.regs.recvDescVR = false → ∃ done todo, ps = done ++ todo ∧
        b.pending = todo.flatMap Packet.beats ∧ b.descs = done.map descOf) ∧
      ∀ p ∈ ps, p.bytes.length < 2 ^ P.lenWidth →
        (descOf p).len.toNat = p.bytes.length := by
  intro b
  have hdel : ∃ owed, OwesDescs ps b owed ∧ b.descs ++ owed = b₀.descs ++ ps.map descOf :=
    run_delivers (fun _ _ _ h hc => owesDescs_step h hc) hstart.owesDescs hsafe
  obtain ⟨owed, ⟨a, hf, ⟨done, hdone⟩, hlate, rfl⟩, heq⟩ := hdel
  rw [hstart.descs, List.nil_append] at heq
  refine ⟨⟨_, heq⟩, ?_, fun p _ => toNat_len_descOf⟩
  intro hidle hv
  have hstage := idle_follows hf hidle
  -- a late descriptor would keep the output register full
  have hnot : b.regs.descLateWrite = false := by
    cases hl : b.regs.descLateWrite with
    | false => rfl
    | true => exact absurd ((hlate hl).recvDescVR.symm.trans hv) (by simp)
  have hpend := hf.pending
  rw [Progress.pending, hstage] at hpend
  refine ⟨done, a.todo, hdone.symm, hpend, ?_⟩
  have howed : owedDescs b.regs a = a.todo.map descOf := by
    rw [owedDescs, hv, hnot, Progress.unfinished, hstage]
    rfl
  rw [howed, ← hdone, List.map_append] at heq
  exact List.append_cancel_right heq

/-- One byte at address 0. -/
def oneByte : Pkt sampleConfig := ⟨[], 7, 1, sampleConfig.strbWidth_pos, ⟨0, 0, 0, 0, false⟩⟩

/-- Two bytes at address 3, so that the second needs an extra cycle. -/
def acrossWords : Pkt sampleConfig := ⟨[], 0x0908, 2, by decide, ⟨0, 1, 3, 0, false⟩⟩

/-- A descriptor that is late and right: its packet ended in an extra cycle. -/
theorem recv_descs_of_descSafe_acrossWords :
    let cycles := [offering false, offering false, offering false, offering false,
      offering false, offering true, offering true]
    (run Bench.step (sampleBench [oneByte, acrossWords]) (cycles.take 4)).regs.descLateWrite =
      true ∧
    (run Bench.step (sampleBench [oneByte, acrossWords]) cycles).descs =
      [⟨0, 1, 0, 0⟩, ⟨3, 2, 0, 1⟩] ∧
    (run Bench.step (sampleBench [oneByte, acrossWords]) cycles).descs <+:
      [oneByte, acrossWords].map descOf :=
  ⟨by decide +kernel, by decide +kernel,
    (recv_descs_of_descSafe (sampleBench_start [oneByte, acrossWords])
      (by decide +kernel)).1⟩

/-- A packet of one byte at address 2 ends, without an extra cycle, while the
descriptor of the one before it is not being read: its own says two bytes. -/
theorem late_descriptor_counts_twice :
    let second : Pkt sampleConfig := ⟨[], 5, 1, by decide, ⟨0, 0, 2, 0, false⟩⟩
    let b := run Bench.step (sampleBench [oneByte, second])
      [offering false, offering false, offering false, offering true, offering true]
    (sampleBench [oneByte, second]).Start [oneByte, second] ∧
      b.pending = [] ∧ b.regs.recvDescVR = false ∧
      b.descs = [⟨0, 1, 0, 0⟩, ⟨2, 2, 0, 0⟩] ∧
      [oneByte, second].map descOf = [⟨0, 1, 0, 0⟩, ⟨2, 1, 0, 0⟩] ∧
      ¬ b.descs <+: [oneByte, second].map descOf :=
  ⟨sampleBench_start _, by decide +kernel⟩

end Report

end Rosebud.DmaWrite
