import Rosebud.Clocked
import Rosebud.PigasusSlots

/-! # `pigasus.c`: each slot is returned once

The firmware of the string matching engine with the checks of the flow done in software.  A
TCP packet that is ahead of its flow is put into the reorder set; every turn of the main loop
looks at one slot of that set, and gives its packet to the matcher, drops it, or leaves it.

`returns_slots` is the result over the whole loop: for all packets, flow table entries, timers
and results of the matcher, no packet is sent twice, and one that is not sent is with the
matcher or in `reorder_slots_1hot`.
-/
namespace Rosebud.Pigasus
open Clocked PigasusSlots

def REORDER_LIMIT : BitVec 32 := 16

/-! ## Functions -/

/-- What `slot_rx_packet` reads besides the context: the header of the packet, the entry of the
flow table that was looked up, and the timers. -/
structure RxWires where
  header : Header
  entry : Flow
  timer16HL : BitVec 16
  timer16LH : BitVec 16
deriving Inhabited

/-- `process_tcp:` -/
def processTcp (w : RxWires) (f : Firmware) (s : Fin 32) (slot : Context)
    (actions : List Action) : Firmware × List Action :=
  let slot := { slot.withPayload 54 with isTcp := true }
  (f.put s slot, actions ++ [slot.command w.header.ports])

/-- A flow begins in this entry. -/
def newFlow (slot : Context) : List Action :=
  [.accPigStateH 0x01FFFFFF, .flowWrite slot.flowId (.tag slot.flow.tag)]

/-- The checks for a packet of a flow that is in the table. -/
def knownFlow (w : RxWires) (f : Firmware) (s : Fin 32) (slot : Context)
    (actions : List Action) : Firmware × List Action :=
  if slot.flow.tag ≠ w.entry.tag then
    -- a tag collision goes to the host
    let slot := { slot with desc := { slot.desc with port := 2 } }
    (f.put s slot, actions ++ [.pktSend slot.desc])
  else
    let slot := { slot with flow := { slot.flow with expSeq := w.entry.expSeq } }
    let curSeqNum := w.header.seq
    if curSeqNum = slot.flow.expSeq then
      processTcp w f s slot (actions ++ [.accPigState w.entry.state])
    else if slot.flow.expSeq + 30000 < curSeqNum ∨ curSeqNum < slot.flow.expSeq then
      drop f s slot actions
    else if f.reorderSlotCount ≤ REORDER_LIMIT then
      let slot := { slot.withPayload 54 with isTcp := true, reorderTs := w.timer16LH }
      ((f.put s slot).hold slot, actions)
    else drop f s slot actions

def slotRxPacket (w : RxWires) (f : Firmware) (s : Fin 32) : Firmware × List Action :=
  let slot := f.context s
  let slot := { slot with
    flowId := w.header.hashH >>> 1
    flow := { slot.flow with tag := w.header.hashL } }
  let look := [Action.hashLookup slot.flowId]
  if w.header.ethType = 0x0008 then
    if w.header.versionIhl &&& 0xF0 ≠ 0x40 then drop f s slot look
    else if w.header.protocol = 0x06 then
      let slot := { slot with flow := slot.flow.setState32H w.entry.state32H }
      if slot.flow.state8H = 0 then
        processTcp w f s slot (look ++ newFlow slot)
      else
        let slot := { slot with flow := { slot.flow with ts := w.entry.ts } }
        if timedOut w.timer16HL slot.flow.ts 4 then
          processTcp w f s slot (look ++ newFlow slot)
        else knownFlow w f s slot look
    else
      -- everything else is taken for UDP
      let slot := { slot.withPayload 42 with isTcp := false }
      (f.put s slot, look ++ [.accPigState 0, slot.command w.header.ports])
  else drop f s slot look

/-- `mem_align` -/
def memAlign (x : BitVec 32) : BitVec 32 := (x + 3) &&& 0xFFFFFFFC

/-- A match: its rule id is written behind the packet. -/
def addRule (slot : Context) (ruleId : BitVec 32) : Context × List Action :=
  let eop := memAlign (slot.desc.data + slot.desc.len.setWidth 32)
  ({ slot with
      eop := eop
      desc := { slot.desc with
        len := (eop - slot.desc.data + 4).setWidth 16
        port := 2 }
      matchCnt := slot.matchCnt + 1 },
    [.release, .store eop ruleId])

/-- The end of the packet. -/
def endPacket (w : MatchWires) (slot : Context) : Context × List Action :=
  let slot :=
    if 0x80 < slot.flow.state8H then { slot with desc := { slot.desc with port := 2 } } else slot
  (slot, (if slot.isTcp then flowUpdate w slot else []) ++ [.release, .pktSend slot.desc])

def slotMatch (w : MatchWires) (f : Firmware) (s : Fin 32) (ruleIds : List (BitVec 32)) :
    Firmware × List Action :=
  let (slot, actions) := matchLoop addRule (endPacket w) (f.context s) ruleIds
  (f.put s slot, actions)

/-- What `process_reorder` reads. -/
structure ReorderWires where
  header : Header
  entry : Flow
  timer16LH : BitVec 16
deriving Inhabited

def processReorder (w : ReorderWires) (f : Firmware) (s : Fin 32) : Firmware × List Action :=
  let slot := f.context s
  let slot := { slot with flow := { slot.flow with expSeq := w.entry.expSeq } }
  let look := [Action.hashLookup slot.flowId]
  if w.header.seq = slot.flow.expSeq then
    ((f.put s slot).unhold slot,
      look ++ [.accPigState w.entry.state, slot.command w.header.ports])
  else if timedOut w.timer16LH slot.reorderTs 3000 then
    let slot := { slot with desc := { slot.desc with len := 0 } }
    ((f.put s slot).unhold slot, look ++ [.pktSend slot.desc])
  else (f.put s slot, look)

/-! ## What the functions do -/

section Outcomes
variable {f : Firmware} {s : Fin 32}

theorem processTcp_settles (w : RxWires) {slot : Context} {actions : List Action}
    (hs : (f.context s).Same slot) (ha : effects actions = []) :
    Settles f s (processTcp w f s slot actions) := by
  have hs' : (f.context s).Same { slot.withPayload 54 with isTcp := true } :=
    ⟨hs.index, hs.setMask, hs.rstMask, hs.tag⟩
  exact start_settles hs' ha w.header.ports

theorem knownFlow_settles (w : RxWires) {slot : Context} {actions : List Action}
    (hs : (f.context s).Same slot) (ha : effects actions = []) :
    Settles f s (knownFlow w f s slot actions) := by
  have hsame : ∀ flow, (f.context s).Same { slot with flow := flow } := fun _ =>
    ⟨hs.index, hs.setMask, hs.rstMask, hs.tag⟩
  unfold knownFlow
  dsimp only
  split_ifs with htag hseq hfar hroom
  · exact send_settles ⟨hs.index, hs.setMask, hs.rstMask, hs.tag⟩ ha
  · refine processTcp_settles w (hsame _) ?_
    rw [effects_append, ha]
    rfl
  · exact drop_settles (hsame _) ha
  · exact hold_settles ⟨hs.index, hs.setMask, hs.rstMask, hs.tag⟩ ha
  · exact drop_settles (hsame _) ha

/-- **Every packet that is received is sent, given to the matcher or put aside at once.** -/
theorem slotRxPacket_settles (w : RxWires) (f : Firmware) (s : Fin 32) :
    Settles f s (slotRxPacket w f s) := by
  have hsame : ∀ (id : BitVec 16) (flow : Flow),
      (f.context s).Same { f.context s with flowId := id, flow := flow } := fun _ _ =>
    ⟨rfl, rfl, rfl, rfl⟩
  unfold slotRxPacket
  dsimp only
  split_ifs with htype hversion hproto hclean htime
  · exact drop_settles (hsame _ _) rfl
  · exact processTcp_settles w (hsame _ _) rfl
  · exact processTcp_settles w (hsame _ _) rfl
  · exact knownFlow_settles w (hsame _ _) rfl
  · exact .starts (workedOn_put f ⟨rfl, rfl, rfl, rfl⟩) ⟨rfl, rfl⟩ rfl
  · exact drop_settles (hsame _ _) rfl

theorem endPacket_same (w : MatchWires) (slot : Context) : slot.Same (endPacket w slot).1 := by
  unfold endPacket
  split_ifs
  all_goals exact ⟨rfl, rfl, rfl, rfl⟩

theorem slotMatch_drains (w : MatchWires) (f : Firmware) (s : Fin 32)
    (ruleIds : List (BitVec 32)) : Drains f s ruleIds (slotMatch w f s ruleIds) :=
  drains_matchLoop (fun _ _ => ⟨⟨rfl, rfl, rfl, rfl⟩, rfl⟩) (endPacket_same w)
    (fun _ => effects_end w _ _ _) f ruleIds

/-- A slot of the reorder set whose packet is next in its flow or has waited too long is taken
out of the set and settled; any other stays as it is. -/
theorem processReorder_cases (w : ReorderWires) (f : Firmware) (s : Fin 32) :
    (w.header.seq = w.entry.expSeq ∧
      effects (processReorder w f s).2 = [.start (f.context s).index] ∧
      Settles (f.unhold (f.context s)) s (processReorder w f s)) ∨
    (w.header.seq ≠ w.entry.expSeq ∧ timedOut w.timer16LH (f.context s).reorderTs 3000 = true ∧
      (∃ d, effects (processReorder w f s).2 = [.send d] ∧ d.tag = (f.context s).desc.tag) ∧
      Settles (f.unhold (f.context s)) s (processReorder w f s)) ∨
    (w.header.seq ≠ w.entry.expSeq ∧ timedOut w.timer16LH (f.context s).reorderTs 3000 = false ∧
      WorkedOn f s (processReorder w f s).1 ∧ Keeps f (processReorder w f s).1 ∧
      effects (processReorder w f s).2 = []) := by
  unfold processReorder
  dsimp only
  split_ifs with hseq htime
  · refine .inl ⟨hseq, rfl, .starts ?_ ⟨rfl, rfl⟩ rfl⟩
    refine WorkedOn.of_context (workedOn_put f ?_) rfl rfl
    exact ⟨rfl, rfl, rfl, rfl⟩
  · refine .inr (.inl ⟨hseq, htime, ⟨_, rfl, rfl⟩,
      .sends _ (WorkedOn.of_context (workedOn_put f ?_) rfl rfl) ⟨rfl, rfl⟩ rfl rfl⟩)
    exact ⟨rfl, rfl, rfl, rfl⟩
  · exact .inr (.inr ⟨hseq, Bool.eq_false_iff.mpr htime,
      workedOn_put f ⟨rfl, rfl, rfl, rfl⟩, ⟨rfl, rfl⟩, rfl⟩)

end Outcomes

/-! ## The main loop -/

/-- The bench and the variables of `main` that say which slot is looked at next. -/
structure Loop where
  bench : Bench
  reorderMask : BitVec 32
  reorderLeftMask : BitVec 32
  reorderSlot : Nat

/-- What one turn of the loop reads. -/
structure Turn where
  rx : Option RecvDesc
  rxWires : RxWires
  ruleIds : List (BitVec 32)
  matchWires : MatchWires
  reorderWires : ReorderWires

/-- `slot->match_cnt = 0; slot_rx_packet(slot);` -/
def handlePacket (w : RxWires) (f : Firmware) (s : Fin 32) : Firmware × List Action :=
  slotRxPacket w (f.put s { f.context s with matchCnt := 0 }) s

/-- The bench after the packet of the turn was handled. -/
def Loop.received (l : Loop) (t : Turn) : Bench := l.bench.rxPhase (handlePacket t.rxWires) t.rx

/-- The bench after the results of the matcher were read. -/
def Loop.matched (l : Loop) (t : Turn) : Bench :=
  (l.received t).matchPhase (slotMatch t.matchWires) t.ruleIds

/-- `if (reorder_slots_1hot & reorder_mask)` -/
def lookAt (w : ReorderWires) (l : Loop) : Bench :=
  if l.bench.fw.reorderSlots1hot &&& l.reorderMask ≠ 0 then
    l.bench.call (processReorder w l.bench.fw (Fin.ofNat 32 l.reorderSlot))
  else l.bench

/-- `if (reorder_slots_1hot)` -/
def reorderPhase (slotCount : Nat) (w : ReorderWires) (l : Loop) : Loop :=
  if l.bench.fw.reorderSlots1hot ≠ 0 then
    if l.reorderSlot + 1 = slotCount then
      { bench := lookAt w l
        reorderMask := 1
        reorderLeftMask := initLeftMask slotCount
        reorderSlot := 0 }
    else
      { bench := lookAt w l
        reorderMask := l.reorderMask <<< 1
        reorderLeftMask := l.reorderLeftMask <<< 1
        reorderSlot := l.reorderSlot + 1 }
  else l

/-- One turn of `while (1)`. -/
def turn (slotCount : Nat) (l : Loop) (t : Turn) : Loop :=
  reorderPhase slotCount t.reorderWires { l with bench := l.matched t }

/-- Before the first turn. -/
structure Loop.Start (slotCount : Nat) (l : Loop) : Prop where
  bench : l.bench.Start slotCount
  reorderMask : l.reorderMask = 1
  reorderSlot : l.reorderSlot = 0

def Loop.init (slotCount : Nat) : Loop where
  bench := Bench.init slotCount
  reorderMask := 1
  reorderLeftMask := initLeftMask slotCount
  reorderSlot := 0

theorem Loop.start_init (slotCount : Nat) : (Loop.init slotCount).Start slotCount :=
  ⟨Bench.start_init slotCount, rfl, rfl⟩

/-- The mask is that of the slot to be looked at. -/
structure LoopInv (n : Nat) (l : Loop) : Prop where
  inv : Inv n none l.bench
  mask : l.reorderMask = 1#32 <<< l.reorderSlot
  slot : l.reorderSlot ≤ n - 1

section Run
variable {n : Nat} {l : Loop}

theorem handlePacket_settles (w : RxWires) (f : Firmware) (s : Fin 32) :
    Settles f s (handlePacket w f s) := by
  have hx := slotRxPacket_settles w (f.put s { f.context s with matchCnt := 0 }) s
  refine Settles.of_put ?_ hx
  exact ⟨rfl, rfl, rfl, rfl⟩

theorem Loop.Start.inv (h : l.Start n) : LoopInv n l where
  inv := h.bench.inv
  mask := by
    rw [h.reorderMask, h.reorderSlot]
    rfl
  slot := by
    rw [h.reorderSlot]
    exact Nat.zero_le _

theorem inv_processReorder {b : Bench} {s : Fin 32} (h : Inv n none b) (w : ReorderWires)
    (hs : s ∈ heldSlots b.fw.reorderSlots1hot) :
    Inv n none (b.call (processReorder w b.fw s)) := by
  rcases processReorder_cases w b.fw s with ⟨-, -, hx⟩ | ⟨-, -, -, hx⟩ | ⟨-, -, hw, hk, he⟩
  · exact Inv.settle_held h hs hx
  · exact Inv.settle_held h hs hx
  · exact Inv.call_idle h hw hk he

/-- A slot whose packet has waited too long is sent when it is looked at. -/
theorem sent_of_timeout {b : Bench} {s : Fin 32} {k : Nat} (h : Inv n none b) (w : ReorderWires)
    (hk : b.last s = some k) (hseq : w.header.seq ≠ w.entry.expSeq)
    (htime : timedOut w.timer16LH (b.fw.context s).reorderTs 3000 = true) :
    k ∈ (b.call (processReorder w b.fw s)).sent := by
  rcases processReorder_cases w b.fw s with ⟨hin, -⟩ | ⟨-, -, ⟨d, he, hd⟩, -⟩ | ⟨-, hout, -⟩
  · exact absurd hin hseq
  · have hslot : slotOf d.tag = s := by
      rw [hd]
      exact (h.configured s (h.ranged s k hk)).slotOf_tag
    rw [Bench.call_send he hslot]
    rw [hk]
    exact List.mem_append_right _ List.mem_cons_self
  · rw [htime] at hout
    exact Bool.noConfusion hout

section Turns
variable (h : LoopInv n l) (hn : n ≤ 32) {t : Turn}
include h hn

theorem LoopInv.received (hd : l.bench.Delivers n t.rx) : Inv n none (l.received t) :=
  h.inv.rxPhase hn (handlePacket_settles t.rxWires) hd

theorem LoopInv.matched (hd : l.bench.Delivers n t.rx) : Inv n none (l.matched t) :=
  Inv.matchPhase (slotMatch_drains t.matchWires) (h.received hn hd) t.ruleIds

/-- The index of the slot to be looked at. -/
theorem LoopInv.ofNat_slot :
    (Fin.ofNat 32 l.reorderSlot).val = l.reorderSlot := by
  have := h.slot
  exact Nat.mod_eq_of_lt (by omega)

theorem LoopInv.held_of_bit :
    l.bench.fw.reorderSlots1hot &&& l.reorderMask ≠ 0 ↔
      Fin.ofNat 32 l.reorderSlot ∈ heldSlots l.bench.fw.reorderSlots1hot := by
  rw [h.mask, ← and_mask_ne_zero, h.ofNat_slot hn]

theorem LoopInv.lookAt (w : ReorderWires) :
    Inv n none (lookAt w l) := by
  unfold Pigasus.lookAt
  split_ifs with hbit
  · exact inv_processReorder h.inv w ((h.held_of_bit hn).mp hbit)
  · exact h.inv

theorem LoopInv.reorderPhase (w : ReorderWires) :
    LoopInv n (reorderPhase n w l) := by
  unfold Pigasus.reorderPhase
  split_ifs with hany hlast
  · exact ⟨h.lookAt hn w, rfl, Nat.zero_le _⟩
  · -- a slot is in the set, so there is at least one
    obtain ⟨s, hs⟩ := exists_held hany
    have hpos : s.val < n := h.inv.range (.inr (.inl hs))
    have hslot := h.slot
    refine ⟨h.lookAt hn w, ?_, ?_⟩
    · change l.reorderMask <<< 1 = 1#32 <<< (l.reorderSlot + 1)
      rw [h.mask, ← BitVec.shiftLeft_add]
    · change l.reorderSlot + 1 ≤ n - 1
      omega
  · exact h

theorem LoopInv.turn (hd : l.bench.Delivers n t.rx) : LoopInv n (turn n l t) := by
  have hmatched : LoopInv n { l with bench := l.matched t } := ⟨h.matched hn hd, h.mask, h.slot⟩
  exact hmatched.reorderPhase hn t.reorderWires

/-- A packet that was put aside too long ago is sent when the loop comes to its slot. -/
theorem LoopInv.sent_of_waited {w : ReorderWires} {s : Fin 32}
    {k : Nat} (hs : s.val = l.reorderSlot) (hheld : s ∈ heldSlots l.bench.fw.reorderSlots1hot)
    (hk : l.bench.last s = some k) (hseq : w.header.seq ≠ w.entry.expSeq)
    (htime : timedOut w.timer16LH (l.bench.fw.context s).reorderTs 3000 = true) :
    k ∈ (Pigasus.reorderPhase n w l).bench.sent := by
  have hslot : Fin.ofNat 32 l.reorderSlot = s := Fin.ext ((h.ofNat_slot hn).trans hs.symm)
  have hbit : l.bench.fw.reorderSlots1hot &&& l.reorderMask ≠ 0 := by
    rw [h.held_of_bit hn, hslot]
    exact hheld
  have hany : l.bench.fw.reorderSlots1hot ≠ 0 := by
    intro hzero
    rw [hzero] at hbit
    exact hbit (BitVec.zero_and)
  have hbench : (Pigasus.reorderPhase n w l).bench = Pigasus.lookAt w l := by
    unfold Pigasus.reorderPhase
    split_ifs
    · rfl
    · rfl
  rw [hbench, Pigasus.lookAt, if_pos hbit, hslot]
  exact sent_of_timeout h.inv w hk hseq htime

theorem LoopInv.run {turns : List Turn}
    (hd : Meets (Pigasus.turn n) (fun l t => l.bench.Delivers n t.rx) l turns) :
    LoopInv n (run (Pigasus.turn n) l turns) :=
  run_invariant (fun _ _ h hd => h.turn hn hd) h hd

end Turns

/-- **`pigasus.c` returns each slot once.**  After every run of the main loop, and after each
phase of the turn that follows, no packet was sent twice, a packet that was not sent is with
the matcher or in the reorder set, and the counter counts that set.  The packet whose end the
matcher reports is sent in that turn, and so is the one that has waited too long. -/
theorem returns_slots (n : Nat) (hn : n ≤ 32) (l : Loop) (hstart : l.Start n)
    (turns : List Turn)
    (hd : Meets (Pigasus.turn n) (fun l t => l.bench.Delivers n t.rx) l turns) :
    Returns (Clocked.run (Pigasus.turn n) l turns).bench ∧
    ∀ l', l' = Clocked.run (Pigasus.turn n) l turns → ∀ t, l'.bench.Delivers n t.rx →
      Returns (l'.received t) ∧ Returns (l'.matched t) ∧ Returns (Pigasus.turn n l' t).bench ∧
      (∀ s rest k, (l'.received t).queue = s :: rest → (l'.received t).last s = some k →
        0 ∈ t.ruleIds → k ∈ (l'.matched t).sent) ∧
      ∀ s k, s.val = l'.reorderSlot → s ∈ heldSlots (l'.matched t).fw.reorderSlots1hot →
        (l'.matched t).last s = some k →
        t.reorderWires.header.seq ≠ t.reorderWires.entry.expSeq →
        timedOut t.reorderWires.timer16LH ((l'.matched t).fw.context s).reorderTs 3000 = true →
        k ∈ (Pigasus.turn n l' t).bench.sent := by
  have hrun := hstart.inv.run hn hd
  refine ⟨hrun.inv.returns, ?_⟩
  rintro l' rfl t ht
  have hreceived := hrun.received hn ht
  have hmatched := hrun.matched hn ht
  refine ⟨hreceived.returns, hmatched.returns, (hrun.turn hn ht).inv.returns, ?_, ?_⟩
  · intro s rest k hq hk hz
    exact Inv.sent_of_end (slotMatch_drains t.matchWires) hreceived hz hq hk
  · intro s k hs hheld hk hseq htime
    have hl : LoopInv n { Clocked.run (Pigasus.turn n) l turns with
        bench := (Clocked.run (Pigasus.turn n) l turns).matched t } :=
      ⟨hmatched, hrun.mask, hrun.slot⟩
    exact hl.sent_of_waited hn hs hheld hk hseq htime

end Run

/-- A TCP packet over IPv4 with this sequence number. -/
def tcpHeader (seq : BitVec 32) : Header :=
  { (default : Header) with ethType := 0x0008, versionIhl := 0x45, protocol := 0x06, seq := seq }

/-- A flow that waits for the byte 1500. -/
def openFlow : Flow := { tag := 0, ts := 7, expSeq := 1500, state := 0x01FFFFFF00000000 }

/-- A packet begins a flow, matches a rule and ends.  The next one of the same slot is ahead of
the flow and put aside, and the third turn finds that it has waited too long. -/
def sampleTurns : List Turn :=
  [{ rx := some ⟨1514, 1, 0⟩
     rxWires := { (default : RxWires) with header := tcpHeader 40 }
     ruleIds := [5, 0]
     matchWires := { (default : MatchWires) with header := tcpHeader 40 }
     reorderWires := default },
   { rx := some ⟨1514, 1, 0⟩
     rxWires :=
      { header := tcpHeader 2960, entry := openFlow, timer16HL := 8, timer16LH := 100 }
     ruleIds := []
     matchWires := default
     reorderWires := { header := tcpHeader 2960, entry := openFlow, timer16LH := 100 } },
   { rx := none
     rxWires := default
     ruleIds := []
     matchWires := default
     reorderWires := { header := tcpHeader 2960, entry := openFlow, timer16LH := 4000 } }]

theorem returns_slots_sampleTurns :
    (run (turn 1) (Loop.init 1) sampleTurns).bench.sent = [0, 1] ∧
      (run (turn 1) (Loop.init 1) (sampleTurns.take 2)).bench.fw.reorderSlots1hot = 1 ∧
      Returns (run (turn 1) (Loop.init 1) sampleTurns).bench :=
  ⟨by decide +kernel, by decide +kernel,
    (returns_slots 1 (by decide) (Loop.init 1) (Loop.start_init 1) sampleTurns
      (by decide +kernel)).1⟩

end Rosebud.Pigasus
