import Mathlib.Data.List.Range
import Rosebud.Clocked
import Rosebud.PigasusSlots

/-! # `pigasus3.c`: the timeout of a held slot

The firmware of the string matching engine with the header check in hardware.  Every turn of
its main loop goes through the whole reorder set.  A slot whose packet is next in its flow is
given to the matcher and taken out of the set; one that has waited too long is sent, but
`process_reorder` neither clears its bit nor counts it off, as its sibling in `pigasus.c` does.
The next turn finds the slot again and sends it again: `slot_sent_twice`.

The scan of the main loop, with its two masks and its early exit, is a fold over the slots
(`reorderLoop_eq_scan`).  From it the condition is read off: a turn leaves the book in order
exactly if every slot of the reorder set is next in its flow or not timed out (`OnTime`), and
along runs of such turns each slot is returned once.
-/
namespace Rosebud.Pigasus3
open Clocked PigasusSlots

def REORDER_LIMIT : BitVec 32 := 8

/-! ## Functions -/

/-- What `slot_rx_packet` reads besides the context. -/
structure RxWires where
  header : Header
  entry : Flow
  timer16HL : BitVec 16
  accHdrParse : BitVec 8
deriving Inhabited

/-- The end of the packet in memory. -/
def Context.withEop (slot : Context) : Context :=
  { slot with eop := slot.desc.data + slot.desc.len.setWidth 32 }

/-- `process_tcp:` -/
def processTcp (w : RxWires) (f : Firmware) (s : Fin 32) (slot : Context)
    (actions : List Action) : Firmware × List Action :=
  let slot := { Context.withEop (slot.withPayload 54) with isTcp := true }
  (f.put s slot, actions ++ [slot.command w.header.ports])

/-- `case 0x06:`, by the result of the header check. -/
def rxTcp (w : RxWires) (f : Firmware) (s : Fin 32) (slot : Context) (actions : List Action) :
    Firmware × List Action :=
  if w.accHdrParse = 0 then drop f s slot actions
  else if w.accHdrParse = 1 then
    processTcp w f s { slot with flow := slot.flow.setState32H 0x01FFFFFF }
      (actions ++ [.accPigStateH 0x01FFFFFF, .flowWrite slot.flowId (.tag w.header.hashL)])
  else if w.accHdrParse = 2 then
    let slot := { slot with desc := { slot.desc with port := 2 } }
    (f.put s slot, actions ++ [.pktSend slot.desc])
  else if w.accHdrParse = 3 then
    processTcp w f s { slot with flow := slot.flow.setState32H w.entry.state32H }
      (actions ++ [.accPigState w.entry.state])
  else if w.accHdrParse = 4 then
    if f.reorderSlotCount ≤ REORDER_LIMIT then
      let slot := { Context.withEop (slot.withPayload 54) with
        isTcp := true
        flow := { slot.flow.setState32H w.entry.state32H with ts := w.entry.ts } }
      ((f.put s slot).hold slot, actions)
    else drop f s slot actions
  -- no other value of the check has a branch of its own
  else processTcp w f s slot actions

def slotRxPacket (w : RxWires) (f : Firmware) (s : Fin 32) : Firmware × List Action :=
  let slot := { f.context s with flowId := w.header.hashH >>> 1 }
  let look := [Action.hashLookup slot.flowId]
  if w.header.ethType = 0x0008 then
    if w.header.protocol = 0x06 then
      rxTcp w f s slot (look ++ [.accSeqNGo w.header.hashL w.timer16HL w.header.seq])
    else if w.header.protocol = 0x11 then
      let slot := { Context.withEop (slot.withPayload 42) with isTcp := false }
      (f.put s slot, look ++ [.accPigState 0, slot.command w.header.ports])
    else drop f s slot look
  else drop f s slot look

/-- A match: the low byte of its rule id is written behind the packet. -/
def addRule (slot : Context) (ruleId : BitVec 32) : Context × List Action :=
  ({ slot with
      eop := slot.eop + 4
      desc := { slot.desc with len := slot.desc.len + 4 }
      matchCnt := slot.matchCnt + 1 },
    [.release, .storeByte slot.eop (ruleId.setWidth 8)])

/-- The end of the packet. -/
def endPacket (w : MatchWires) (slot : Context) : Context × List Action :=
  let slot :=
    if 0x80 < slot.flow.state8H ∨ slot.matchCnt ≠ 0 then
      { slot with desc := { slot.desc with port := 2 } }
    else { slot with desc := { slot.desc with len := 0 } }
  ({ slot with matchCnt := 0 },
    (if slot.isTcp then flowUpdate w slot else []) ++ [.release, .pktSend slot.desc])

def slotMatch (w : MatchWires) (f : Firmware) (s : Fin 32) (ruleIds : List (BitVec 32)) :
    Firmware × List Action :=
  let (slot, actions) := matchLoop addRule (endPacket w) (f.context s) ruleIds
  (f.put s slot, actions)

/-- What `process_reorder` reads. -/
structure ReorderWires where
  header : Header
  entry : Flow
  timer16HL : BitVec 16
deriving Inhabited

/-- The timeout sends the packet and leaves the slot in the reorder set. -/
def processReorder (w : ReorderWires) (f : Firmware) (s : Fin 32) : Firmware × List Action :=
  let slot := f.context s
  let slot := { slot with flow := { slot.flow with expSeq := w.entry.expSeq } }
  let look := [Action.hashLookup slot.flowId]
  if w.header.seq = slot.flow.expSeq then
    ((f.put s slot).unhold slot,
      look ++ [.accPigState w.entry.state, slot.command w.header.ports])
  else if timedOut w.timer16HL slot.flow.ts 4 then
    let slot := { slot with desc := { slot.desc with len := 0 } }
    (f.put s slot, look ++ [.pktSend slot.desc])
  else (f.put s slot, look)

/-! ## The main loop -/

/-- What one turn of the loop reads; `process_reorder` may be called for every slot. -/
structure Turn where
  rx : Option RecvDesc
  rxWires : RxWires
  ruleIds : List (BitVec 32)
  matchWires : MatchWires
  reorderWires : Fin 32 → ReorderWires

/-- The bench after the packet of the turn was handled. -/
def received (b : Bench) (t : Turn) : Bench := b.rxPhase (slotRxPacket t.rxWires) t.rx

/-- The bench after the results of the matcher were read. -/
def matched (b : Bench) (t : Turn) : Bench :=
  (received b t).matchPhase (slotMatch t.matchWires) t.ruleIds

/-- The `for` loop over the slots from `i` on, `left` of them. -/
def reorderLoop (w : Fin 32 → ReorderWires) : (left i : Nat) →
    (reorderMask reorderLeftMask : BitVec 32) → Bench → Bench
  | 0, _, _, _, b => b
  | left + 1, i, reorderMask, reorderLeftMask, b =>
    let b :=
      if b.fw.reorderSlots1hot &&& reorderMask ≠ 0 then
        b.call (processReorder (w (Fin.ofNat 32 i)) b.fw (Fin.ofNat 32 i))
      else b
    let reorderMask := reorderMask <<< 1
    let reorderLeftMask := reorderLeftMask <<< 1
    if b.fw.reorderSlots1hot &&& reorderLeftMask = 0 then b
    else reorderLoop w left (i + 1) reorderMask reorderLeftMask b

/-- `if (reorder_slots_1hot)` -/
def reorderPhase (slotCount : Nat) (w : Fin 32 → ReorderWires) (b : Bench) : Bench :=
  if b.fw.reorderSlots1hot ≠ 0 then reorderLoop w slotCount 0 1 (initLeftMask slotCount) b
  else b

/-- One turn of `while (1)`. -/
def turn (slotCount : Nat) (b : Bench) (t : Turn) : Bench :=
  reorderPhase slotCount t.reorderWires (matched b t)

/-! ## A slot that is sent twice -/

/-- A TCP packet over IPv4 with this sequence number. -/
def tcpHeader (seq : BitVec 32) : Header :=
  { (default : Header) with ethType := 0x0008, protocol := 0x06, seq := seq }

/-- A flow that waits for the byte 1500 and was last seen at 7. -/
def openFlow : Flow := { tag := 0, ts := 7, expSeq := 1500, state := 0x01FFFFFF00000000 }

/-- A turn without a packet or a result, at the given time. -/
def quietTurn (time : BitVec 16) : Turn where
  rx := none
  rxWires := default
  ruleIds := []
  matchWires := default
  reorderWires := fun _ => { header := tcpHeader 2960, entry := openFlow, timer16HL := time }

/-- A packet that is ahead of its flow comes at 8. -/
def earlyTurn : Turn :=
  { quietTurn 8 with
    rx := some ⟨1514, 1, 0⟩
    rxWires :=
      { header := tcpHeader 2960, entry := openFlow, timer16HL := 8, accHdrParse := 4 } }

/-- The only packet is put aside, and sent in each of the two turns after its time is over; its
slot is still in the reorder set then. -/
theorem slot_sent_twice :
    Meets (turn 1) (fun b t => b.Delivers 1 t.rx) (Bench.init 1)
        [earlyTurn, quietTurn 12, quietTurn 13] ∧
      (run (turn 1) (Bench.init 1) [earlyTurn, quietTurn 12, quietTurn 13]).received = [0] ∧
      (run (turn 1) (Bench.init 1) [earlyTurn, quietTurn 12, quietTurn 13]).sent = [0, 0] ∧
      (run (turn 1) (Bench.init 1)
        [earlyTurn, quietTurn 12, quietTurn 13]).fw.reorderSlots1hot = 1 := by
  decide +kernel

/-! ## What the functions do -/

section Outcomes
variable {f : Firmware} {s : Fin 32}

theorem processTcp_settles (w : RxWires) {slot : Context} {actions : List Action}
    (hs : (f.context s).Same slot) (ha : effects actions = []) :
    Settles f s (processTcp w f s slot actions) := by
  have hs' : (f.context s).Same { Context.withEop (slot.withPayload 54) with isTcp := true } :=
    ⟨hs.index, hs.setMask, hs.rstMask, hs.tag⟩
  exact start_settles hs' ha w.header.ports

theorem rxTcp_settles (w : RxWires) {slot : Context} {actions : List Action}
    (hs : (f.context s).Same slot) (ha : effects actions = []) :
    Settles f s (rxTcp w f s slot actions) := by
  have hsame : ∀ flow, (f.context s).Same { slot with flow := flow } := fun _ =>
    ⟨hs.index, hs.setMask, hs.rstMask, hs.tag⟩
  unfold rxTcp
  split_ifs with hdrop hnew hcoll hnext hahead hroom
  · exact drop_settles hs ha
  · refine processTcp_settles w (hsame _) ?_
    rw [effects_append, ha]
    rfl
  · exact send_settles ⟨hs.index, hs.setMask, hs.rstMask, hs.tag⟩ ha
  · refine processTcp_settles w (hsame _) ?_
    rw [effects_append, ha]
    rfl
  · exact hold_settles ⟨hs.index, hs.setMask, hs.rstMask, hs.tag⟩ ha
  · exact drop_settles hs ha
  · exact processTcp_settles w hs ha

theorem slotRxPacket_settles (w : RxWires) (f : Firmware) (s : Fin 32) :
    Settles f s (slotRxPacket w f s) := by
  have hsame : ∀ id, (f.context s).Same { f.context s with flowId := id } := fun _ =>
    ⟨rfl, rfl, rfl, rfl⟩
  unfold slotRxPacket
  split_ifs with htype htcp hudp
  · exact rxTcp_settles w (hsame _) rfl
  · exact .starts (workedOn_put f ⟨rfl, rfl, rfl, rfl⟩) ⟨rfl, rfl⟩ rfl
  · exact drop_settles (hsame _) rfl
  · exact drop_settles (hsame _) rfl

theorem endPacket_same (w : MatchWires) (slot : Context) : slot.Same (endPacket w slot).1 := by
  unfold endPacket
  split_ifs
  all_goals exact ⟨rfl, rfl, rfl, rfl⟩

theorem slotMatch_drains (w : MatchWires) (f : Firmware) (s : Fin 32)
    (ruleIds : List (BitVec 32)) : Drains f s ruleIds (slotMatch w f s ruleIds) :=
  drains_matchLoop (fun _ _ => ⟨⟨rfl, rfl, rfl, rfl⟩, rfl⟩) (endPacket_same w)
    (fun _ => effects_end w _ _ _) f ruleIds

/-- The packet is the next one of its flow. -/
def Next (w : ReorderWires) : Prop := w.header.seq = w.entry.expSeq
deriving Decidable

/-- The packet has waited too long. -/
def Late (w : ReorderWires) (slot : Context) : Prop :=
  timedOut w.timer16HL slot.flow.ts 4 = true
deriving Decidable

/-- A slot whose packet is next is taken out of the reorder set and given to the matcher.  One
that is late is sent and stays in the set. -/
theorem processReorder_cases (w : ReorderWires) (f : Firmware) (s : Fin 32) :
    (Next w ∧ effects (processReorder w f s).2 = [.start (f.context s).index] ∧
      (processReorder w f s).1.reorderSlots1hot = f.reorderSlots1hot &&& (f.context s).rstMask ∧
      Settles (f.unhold (f.context s)) s (processReorder w f s)) ∨
    (¬ Next w ∧ Late w (f.context s) ∧ Keeps f (processReorder w f s).1 ∧
      ∃ d, effects (processReorder w f s).2 = [.send d] ∧ d.tag = (f.context s).desc.tag) ∨
    (¬ Next w ∧ ¬ Late w (f.context s) ∧ Keeps f (processReorder w f s).1 ∧
      effects (processReorder w f s).2 = []) := by
  unfold processReorder
  dsimp only
  split_ifs with hseq htime
  · refine .inl ⟨hseq, rfl, rfl, .starts ?_ ⟨rfl, rfl⟩ rfl⟩
    refine WorkedOn.of_context (workedOn_put f ?_) rfl rfl
    exact ⟨rfl, rfl, rfl, rfl⟩
  · exact .inr (.inl ⟨hseq, htime, ⟨rfl, rfl⟩, _, rfl, rfl⟩)
  · exact .inr (.inr ⟨hseq, htime, ⟨rfl, rfl⟩, rfl⟩)

theorem processReorder_worked (w : ReorderWires) (f : Firmware) (s : Fin 32) :
    WorkedOn f s (processReorder w f s).1 := by
  unfold processReorder
  dsimp only
  split_ifs
  · refine WorkedOn.of_context (workedOn_put f ?_) rfl rfl
    exact ⟨rfl, rfl, rfl, rfl⟩
  · exact workedOn_put f ⟨rfl, rfl, rfl, rfl⟩
  · exact workedOn_put f ⟨rfl, rfl, rfl, rfl⟩

end Outcomes

/-! ## The scan -/

/-- One slot is looked at. -/
def visit (w : Fin 32 → ReorderWires) (b : Bench) (s : Fin 32) : Bench :=
  if s ∈ heldSlots b.fw.reorderSlots1hot then b.call (processReorder (w s) b.fw s) else b

/-- The slots are looked at one after the other. -/
def scan (w : Fin 32 → ReorderWires) (slots : List (Fin 32)) (b : Bench) : Bench :=
  slots.foldl (visit w) b

/-- The slots from `i` on, `left` of them. -/
def slotsFrom (i left : Nat) : List (Fin 32) := (List.range' i left).map (Fin.ofNat 32)

section Scan
variable {w : Fin 32 → ReorderWires} {b : Bench} {s t : Fin 32} {n : Nat} {slots : List (Fin 32)}

theorem slotsFrom_succ (i left : Nat) :
    slotsFrom i (left + 1) = Fin.ofNat 32 i :: slotsFrom (i + 1) left := rfl

theorem mem_slotsFrom {i left : Nat} (h : i + left ≤ 32) :
    s ∈ slotsFrom i left ↔ i ≤ s.val ∧ s.val < i + left := by
  unfold slotsFrom
  rw [List.mem_map]
  constructor
  · rintro ⟨j, hj, rfl⟩
    rw [List.mem_range'_1] at hj
    have hval : (Fin.ofNat 32 j).val = j := Nat.mod_eq_of_lt (by omega)
    rw [hval]
    exact hj
  · intro hs
    exact ⟨s.val, List.mem_range'_1.mpr hs, Fin.ext (Nat.mod_eq_of_lt s.isLt)⟩

theorem nodup_slotsFrom {i left : Nat} (h : i + left ≤ 32) : (slotsFrom i left).Nodup := by
  refine List.Nodup.map_on ?_ List.nodup_range'
  intro j hj k hk hjk
  rw [List.mem_range'_1] at hj hk
  have hval := congrArg Fin.val hjk
  change j % 32 = k % 32 at hval
  rwa [Nat.mod_eq_of_lt (by omega), Nat.mod_eq_of_lt (by omega)] at hval

/-- Nothing is held, so nothing happens. -/
theorem scan_idle (h : ∀ s ∈ slots, s ∉ heldSlots b.fw.reorderSlots1hot) : scan w slots b = b := by
  induction slots with
  | nil => rfl
  | cons s slots ih =>
    have hvisit : visit w b s = b := if_neg (h s List.mem_cons_self)
    change scan w slots (visit w b s) = b
    rw [hvisit]
    exact ih fun t ht => h t (List.mem_cons_of_mem s ht)

/-! ### One slot -/

/-- Only a slot whose packet is next leaves the set. -/
theorem visit_hot : (visit w b s).fw.reorderSlots1hot =
    if s ∈ heldSlots b.fw.reorderSlots1hot ∧ Next (w s) then
      b.fw.reorderSlots1hot &&& (b.fw.context s).rstMask
    else b.fw.reorderSlots1hot := by
  by_cases hs : s ∈ heldSlots b.fw.reorderSlots1hot
  · rw [visit, if_pos hs, Bench.call_fw]
    rcases processReorder_cases (w s) b.fw s with
      ⟨hnext, -, hhot, -⟩ | ⟨hno, -, hk, -⟩ | ⟨hno, -, hk, -⟩
    · rw [if_pos ⟨hs, hnext⟩, hhot]
    · rw [if_neg fun h => hno h.2, hk.hot]
    · rw [if_neg fun h => hno h.2, hk.hot]
  · rw [visit, if_neg hs, if_neg fun h => hs h.1]

theorem visit_held_subset : heldSlots (visit w b s).fw.reorderSlots1hot ⊆
    heldSlots b.fw.reorderSlots1hot := by
  rw [visit_hot]
  split_ifs
  · intro t ht
    rw [mem_heldSlots, BitVec.getLsbD_and, Bool.and_eq_true] at ht
    exact mem_heldSlots.mpr ht.1
  · exact fun _ h => h

theorem visit_worked : WorkedOn b.fw s (visit w b s).fw := by
  unfold visit
  split_ifs
  · rw [Bench.call_fw]
    exact processReorder_worked (w s) b.fw s
  · exact ⟨⟨rfl, rfl, rfl, rfl⟩, fun _ _ => rfl⟩

theorem visit_frame : (visit w b s).last = b.last ∧ ∀ k ∈ b.sent, k ∈ (visit w b s).sent := by
  unfold visit
  split_ifs
  case neg => exact ⟨rfl, fun _ h => h⟩
  rcases processReorder_cases (w s) b.fw s with ⟨-, he, -⟩ | ⟨-, -, -, d, he, -⟩ | ⟨-, -, -, he⟩
  · rw [Bench.call_start he]
    exact ⟨rfl, fun _ h => h⟩
  · rw [Bench.call_send he rfl]
    exact ⟨rfl, fun _ => List.mem_append_left _⟩
  · rw [Bench.call_idle he]
    exact ⟨rfl, fun _ h => h⟩

/-- The other slots stay in the reorder set, if the context of this one was set up. -/
theorem visit_held_other (hc : (b.fw.context s).Configured s) (hts : t ≠ s) :
    t ∈ heldSlots (visit w b s).fw.reorderSlots1hot ↔ t ∈ heldSlots b.fw.reorderSlots1hot := by
  rw [visit_hot]
  split_ifs
  · rw [hc.rstMask, heldSlots_and, Finset.mem_erase, and_iff_right hts]
  · rfl

/-- A slot whose packet is next leaves the set. -/
theorem visit_next (hc : (b.fw.context s).Configured s) (hnext : Next (w s)) :
    s ∉ heldSlots (visit w b s).fw.reorderSlots1hot := by
  rw [visit_hot]
  split_ifs with hs
  · rw [hc.rstMask, heldSlots_and]
    exact Finset.notMem_erase s _
  · exact fun h => hs ⟨h, hnext⟩

/-- A slot that is late is sent and stays. -/
theorem visit_late (hc : (b.fw.context s).Configured s)
    (hs : s ∈ heldSlots b.fw.reorderSlots1hot) (hno : ¬ Next (w s))
    (hlate : Late (w s) (b.fw.context s)) {k : Nat} (hk : b.last s = some k) :
    s ∈ heldSlots (visit w b s).fw.reorderSlots1hot ∧ k ∈ (visit w b s).sent := by
  constructor
  · rwa [visit_hot, if_neg fun h => hno h.2]
  rw [visit, if_pos hs]
  rcases processReorder_cases (w s) b.fw s with ⟨hyes, -⟩ | ⟨-, -, -, d, he, hd⟩ | ⟨-, hout, -⟩
  · exact absurd hyes hno
  · have hslot : slotOf d.tag = s := by
      rw [hd]
      exact hc.slotOf_tag
    rw [Bench.call_send he hslot, hk]
    exact List.mem_append_right _ List.mem_cons_self
  · exact absurd hlate hout

/-- A slot that is next or not late is handled as it should be, and no command is lost. -/
theorem visit_onTime (h : Inv n none b)
    (hfine : s ∈ heldSlots b.fw.reorderSlots1hot → Next (w s) ∨ ¬ Late (w s) (b.fw.context s)) :
    Inv n none (visit w b s) ∧
      (visit w b s).queue.length + (heldSlots (visit w b s).fw.reorderSlots1hot).card =
        b.queue.length + (heldSlots b.fw.reorderSlots1hot).card := by
  by_cases hs : s ∈ heldSlots b.fw.reorderSlots1hot
  case neg =>
    have hvisit : visit w b s = b := if_neg hs
    rw [hvisit]
    exact ⟨h, rfl⟩
  have hvisit : visit w b s = b.call (processReorder (w s) b.fw s) := if_pos hs
  rw [hvisit, Bench.call_fw]
  rcases processReorder_cases (w s) b.fw s with
    ⟨-, he, hhot, hx⟩ | ⟨hno, hlate, -⟩ | ⟨-, -, hkeep, he⟩
  · refine ⟨h.settle_held hs hx, ?_⟩
    have hc := h.configured s (h.range (.inr (.inl hs)))
    have hpos : 0 < (heldSlots b.fw.reorderSlots1hot).card := Finset.card_pos.mpr ⟨s, hs⟩
    rw [Bench.call_start he, hhot, hc.rstMask, heldSlots_and, Finset.card_erase_of_mem hs]
    rw [List.length_append, List.length_singleton]
    omega
  · exact ((hfine hs).elim hno fun hout => hout hlate).elim
  · refine ⟨h.call_idle (processReorder_worked (w s) b.fw s) hkeep he, ?_⟩
    rw [Bench.call_idle he, hkeep.hot]

/-! ### All slots -/

/-- Every slot of the reorder set is next in its flow or has not waited too long. -/
def OnTime (w : Fin 32 → ReorderWires) (b : Bench) : Prop :=
  ∀ s ∈ heldSlots b.fw.reorderSlots1hot, Next (w s) ∨ ¬ Late (w s) (b.fw.context s)
deriving Decidable

theorem scan_onTime (hnodup : slots.Nodup) (h : Inv n none b)
    (hfine : ∀ s ∈ slots, s ∈ heldSlots b.fw.reorderSlots1hot →
      Next (w s) ∨ ¬ Late (w s) (b.fw.context s)) :
    Inv n none (scan w slots b) ∧
      (scan w slots b).queue.length + (heldSlots (scan w slots b).fw.reorderSlots1hot).card =
        b.queue.length + (heldSlots b.fw.reorderSlots1hot).card := by
  induction slots generalizing b with
  | nil => exact ⟨h, rfl⟩
  | cons s slots ih =>
    rw [List.nodup_cons] at hnodup
    obtain ⟨hinv, hcount⟩ := visit_onTime h (hfine s List.mem_cons_self)
    -- looking at `s` changes no other context and puts nothing into the set
    have hrest : ∀ t ∈ slots, t ∈ heldSlots (visit w b s).fw.reorderSlots1hot →
        Next (w t) ∨ ¬ Late (w t) ((visit w b s).fw.context t) := by
      intro t ht hheld
      have hts : t ≠ s := fun hts => hnodup.1 (hts ▸ ht)
      rw [visit_worked.others t hts]
      exact hfine t (List.mem_cons_of_mem s ht) (visit_held_subset hheld)
    obtain ⟨hinv', hcount'⟩ := ih hnodup.2 hinv hrest
    exact ⟨hinv', hcount'.trans hcount⟩

theorem scan_held_subset :
    heldSlots (scan w slots b).fw.reorderSlots1hot ⊆ heldSlots b.fw.reorderSlots1hot := by
  induction slots generalizing b with
  | nil => exact fun _ h => h
  | cons s slots ih => exact fun t ht => visit_held_subset (ih ht)

/-- What the scan does not change. -/
theorem scan_other (hrange : ∀ s ∈ slots, s.val < n)
    (hc : ∀ i, i.val < n → (b.fw.context i).Configured i) (ht : t ∉ slots) :
    (t ∈ heldSlots (scan w slots b).fw.reorderSlots1hot ↔
      t ∈ heldSlots b.fw.reorderSlots1hot) ∧ (scan w slots b).last = b.last ∧
      ∀ k ∈ b.sent, k ∈ (scan w slots b).sent := by
  induction slots generalizing b with
  | nil => exact ⟨Iff.rfl, rfl, fun _ h => h⟩
  | cons s slots ih =>
    rw [List.mem_cons, not_or] at ht
    obtain ⟨hheld, hlast, hsent⟩ := ih (b := visit w b s)
      (fun u hu => hrange u (List.mem_cons_of_mem s hu)) (visit_worked.configured hc) ht.2
    have hcs := hc s (hrange s List.mem_cons_self)
    exact ⟨hheld.trans (visit_held_other hcs ht.1), hlast.trans visit_frame.1,
      fun k hk => hsent k (visit_frame.2 k hk)⟩

/-- No slot whose packet is next is still in the set after the scan. -/
theorem scan_next (hnodup : slots.Nodup) (hrange : ∀ s ∈ slots, s.val < n)
    (hc : ∀ i, i.val < n → (b.fw.context i).Configured i) (hs : s ∈ slots)
    (hnext : Next (w s)) : s ∉ heldSlots (scan w slots b).fw.reorderSlots1hot := by
  induction slots generalizing b with
  | nil => exact absurd hs List.not_mem_nil
  | cons t slots ih =>
    rw [List.nodup_cons] at hnodup
    have hrest : ∀ u ∈ slots, u.val < n := fun u hu => hrange u (List.mem_cons_of_mem t hu)
    have hc' := visit_worked (w := w) (s := t) |>.configured hc
    rcases List.mem_cons.mp hs with rfl | hs
    · have hout := visit_next (hc s (hrange s List.mem_cons_self)) hnext
      exact fun hheld => hout ((scan_other hrest hc' hnodup.1).1.mp hheld)
    · exact ih hnodup.2 hrest hc' hs

/-- **A slot that is late is sent by the scan and is in the reorder set after it.** -/
theorem scan_late (hnodup : slots.Nodup) (hrange : ∀ s ∈ slots, s.val < n)
    (hc : ∀ i, i.val < n → (b.fw.context i).Configured i) (hs : s ∈ slots)
    (hheld : s ∈ heldSlots b.fw.reorderSlots1hot) (hno : ¬ Next (w s))
    (hlate : Late (w s) (b.fw.context s)) {k : Nat} (hk : b.last s = some k) :
    s ∈ heldSlots (scan w slots b).fw.reorderSlots1hot ∧
      (scan w slots b).last s = some k ∧ k ∈ (scan w slots b).sent := by
  induction slots generalizing b with
  | nil => exact absurd hs List.not_mem_nil
  | cons t slots ih =>
    rw [List.nodup_cons] at hnodup
    have hrest : ∀ u ∈ slots, u.val < n := fun u hu => hrange u (List.mem_cons_of_mem t hu)
    have hc' := visit_worked (w := w) (s := t) |>.configured hc
    have hlast : (visit w b t).last s = some k := by
      rw [visit_frame.1]
      exact hk
    by_cases hst : s = t
    · subst hst
      obtain ⟨hstays, hsent⟩ :=
        visit_late (hc s (hrange s List.mem_cons_self)) hheld hno hlate hk
      obtain ⟨hiff, hsame, hkeeps⟩ := scan_other (w := w) hrest hc' hnodup.1
      refine ⟨hiff.mpr hstays, ?_, hkeeps k hsent⟩
      exact (congrFun hsame s).trans hlast
    · have hs' : s ∈ slots := (List.mem_cons.mp hs).resolve_left hst
      refine ih hnodup.2 hrest hc' hs' ?_ ?_ hlast
      · exact (visit_held_other (hc t (hrange t List.mem_cons_self)) hst).mpr hheld
      · rw [visit_worked.others s hst]
        exact hlate

end Scan

/-! ### The loop is the scan -/

theorem getLsbD_initLeftMask {n j : Nat} (hn : n ≤ 32) (hj : j < n) :
    (initLeftMask n).getLsbD j = true := by
  have hj32 : j < 32 := Nat.lt_of_lt_of_le hj hn
  unfold initLeftMask
  split_ifs with hall
  · rw [BitVec.getLsbD_not, BitVec.ofNat_eq_ofNat, BitVec.getLsbD_zero]
    simpa using hj32
  · have hlt : 2 ^ n < 2 ^ 32 := Nat.pow_lt_pow_right (by decide) (by omega)
    have hpow : (1#32 <<< n).toNat = 2 ^ n := by
      rw [BitVec.toNat_shiftLeft, Nat.shiftLeft_eq]
      simpa using Nat.mod_eq_of_lt hlt
    have hone : (1 : BitVec 32) ≤ 1#32 <<< n := by
      rw [BitVec.le_def, hpow]
      exact Nat.one_le_two_pow
    have hmask : ((1#32 <<< n) - 1).toNat = 2 ^ n - 1 := by
      rw [BitVec.toNat_sub_of_le hone, hpow]
      rfl
    rw [BitVec.getLsbD, hmask, Nat.testBit_two_pow_sub_one]
    exact decide_eq_true hj

/-- The early exit is taken only when no slot is left. -/
theorem notMem_of_leftMask {hot : BitVec 32} {n i : Nat} (hn : n ≤ 32)
    (hheld : ∀ s ∈ heldSlots hot, s.val < n) (hzero : hot &&& initLeftMask n <<< i = 0)
    {s : Fin 32} (hi : i ≤ s.val) : s ∉ heldSlots hot := by
  intro hs
  have hbit : (initLeftMask n <<< i).getLsbD s.val = true := by
    have hlt := hheld s hs
    rw [BitVec.getLsbD_shiftLeft, getLsbD_initLeftMask hn (by omega)]
    simpa using hi
  have hboth : (hot &&& initLeftMask n <<< i).getLsbD s.val = true := by
    rw [BitVec.getLsbD_and, mem_heldSlots.mp hs, hbit]
    rfl
  rw [hzero, BitVec.ofNat_eq_ofNat, BitVec.getLsbD_zero] at hboth
  exact Bool.noConfusion hboth

theorem reorderLoop_eq_scan (w : Fin 32 → ReorderWires) {n left i : Nat} (hn : n ≤ 32)
    (hleft : i + left = n) {b : Bench}
    (hheld : ∀ s ∈ heldSlots b.fw.reorderSlots1hot, s.val < n) :
    reorderLoop w left i (1#32 <<< i) (initLeftMask n <<< i) b =
      scan w (slotsFrom i left) b := by
  -- induction on the slots that are left; the masks have moved on with `i`
  induction left generalizing i b with
  | zero => rfl
  | succ left ih =>
    have hval : (Fin.ofNat 32 i).val = i := Nat.mod_eq_of_lt (by omega)
    have hvisit : (if b.fw.reorderSlots1hot &&& 1#32 <<< i ≠ 0 then
        b.call (processReorder (w (Fin.ofNat 32 i)) b.fw (Fin.ofNat 32 i)) else b) =
        visit w b (Fin.ofNat 32 i) := by
      have hbit := and_mask_ne_zero b.fw.reorderSlots1hot (Fin.ofNat 32 i)
      rw [hval] at hbit
      simp only [visit, hbit]
    have hheld' : ∀ s ∈ heldSlots (visit w b (Fin.ofNat 32 i)).fw.reorderSlots1hot,
        s.val < n := fun s hs => hheld s (visit_held_subset hs)
    rw [reorderLoop, hvisit, ← BitVec.shiftLeft_add, ← BitVec.shiftLeft_add, slotsFrom_succ]
    split_ifs with hzero
    · refine (scan_idle ?_).symm
      intro s hs
      rw [mem_slotsFrom (by omega)] at hs
      exact notMem_of_leftMask hn hheld' hzero hs.1
    · exact ih (by omega) hheld'

/-- **The scan of the main loop looks at every slot of the reorder set once.** -/
theorem reorderPhase_eq_scan (w : Fin 32 → ReorderWires) {n : Nat} (hn : n ≤ 32) {b : Bench}
    (hheld : ∀ s ∈ heldSlots b.fw.reorderSlots1hot, s.val < n) :
    reorderPhase n w b = scan w (slotsFrom 0 n) b := by
  unfold reorderPhase
  split_ifs with hany
  · have hloop := reorderLoop_eq_scan w hn (Nat.zero_add n) hheld
    rw [BitVec.shiftLeft_zero, BitVec.shiftLeft_zero] at hloop
    exact hloop
  · refine (scan_idle fun s _ hs => ?_).symm
    rw [not_not.mp hany, mem_heldSlots, BitVec.ofNat_eq_ofNat, BitVec.getLsbD_zero] at hs
    exact Bool.noConfusion hs

/-! ## Turns and runs -/

section Run
variable {n : Nat} {b : Bench} {t : Turn}

theorem inv_received (h : Inv n none b) (hn : n ≤ 32) (hd : b.Delivers n t.rx) :
    Inv n none (received b t) :=
  h.rxPhase hn (slotRxPacket_settles t.rxWires) hd

theorem inv_matched (h : Inv n none b) (hn : n ≤ 32) (hd : b.Delivers n t.rx) :
    Inv n none (matched b t) :=
  Inv.matchPhase (slotMatch_drains t.matchWires) (inv_received h hn hd) t.ruleIds

theorem turn_eq_scan (hn : n ≤ 32) (h : Inv n none (matched b t)) :
    turn n b t = scan t.reorderWires (slotsFrom 0 n) (matched b t) :=
  reorderPhase_eq_scan t.reorderWires hn fun _ hs => h.range (.inr (.inl hs))

theorem slotsFrom_lt (hn : n ≤ 32) (s : Fin 32) (hs : s ∈ slotsFrom 0 n) : s.val < n := by
  rw [mem_slotsFrom (by omega)] at hs
  omega

theorem mem_slotsFrom_zero (hn : n ≤ 32) {s : Fin 32} (hs : s.val < n) : s ∈ slotsFrom 0 n := by
  rw [mem_slotsFrom (by omega)]
  omega

/-- A turn in which every slot is on time leaves the book in order. -/
theorem inv_turn (h : Inv n none b) (hn : n ≤ 32) (hd : b.Delivers n t.rx)
    (ht : OnTime t.reorderWires (matched b t)) : Inv n none (turn n b t) := by
  have hm := inv_matched h hn hd
  rw [turn_eq_scan hn hm]
  exact (scan_onTime (nodup_slotsFrom (by omega)) hm fun s _ => ht s).1

/-- **A turn leaves the book in order exactly if every slot is on time.** -/
theorem returns_turn_iff (h : Inv n none b) (hn : n ≤ 32) (hd : b.Delivers n t.rx) :
    Returns (turn n b t) ↔ OnTime t.reorderWires (matched b t) := by
  refine ⟨?_, fun ht => (inv_turn h hn hd ht).returns⟩
  have hm := inv_matched h hn hd
  rw [turn_eq_scan hn hm]
  intro hr s hs
  by_contra hlate
  rw [not_or, not_not] at hlate
  obtain ⟨k, hk, -⟩ := hm.sound.unsent s (.inr (.inl hs))
  have hrange : s.val < n := hm.range (.inr (.inl hs))
  obtain ⟨hstays, hlast, hsent⟩ := scan_late (nodup_slotsFrom (by omega)) (slotsFrom_lt hn)
    hm.configured (mem_slotsFrom_zero hn hrange) hs hlate.1 hlate.2 hk
  -- the slot is in the set, so its packet should not have been sent
  obtain ⟨j, hj, hunsent⟩ := hr.waiting s (.inr hstays)
  obtain rfl : j = k := Option.some.inj (hj.symm.trans hlast)
  exact hunsent hsent

/-- No packet comes, the matcher ends a command if it has one, and every slot of the reorder
set is next in its flow. -/
def Quiet (b : Bench) (t : Turn) : Prop :=
  t.rx = none ∧ (b.queue ≠ [] → 0 ∈ t.ruleIds) ∧
    ∀ s ∈ heldSlots b.fw.reorderSlots1hot, Next (t.reorderWires s)

instance (b : Bench) (t : Turn) : Decidable (Quiet b t) :=
  have : Decidable (t.rx = none) := decidable_of_iff (t.rx.isNone = true) Option.isNone_iff_eq_none
  inferInstanceAs (Decidable (_ ∧ _ ∧ _))

/-- The turns until everything is sent. -/
def left (b : Bench) : Nat := b.queue.length + 2 * (heldSlots b.fw.reorderSlots1hot).card

theorem Quiet.received_eq (h : Quiet b t) : received b t = b := by
  rw [received, h.1]
  rfl

theorem Quiet.delivers (h : Quiet b t) : b.Delivers n t.rx := by
  intro d hd
  rw [h.1] at hd
  exact absurd hd (Option.not_mem_none d)

theorem Quiet.matched_frame (h : Quiet b t) :
    (matched b t).fw.reorderSlots1hot = b.fw.reorderSlots1hot ∧
      (matched b t).queue = b.queue.tail := by
  have hframe := Bench.matchPhase_frame (slotMatch_drains t.matchWires) (received b t) t.ruleIds
  rw [h.received_eq] at hframe
  have hm : matched b t = b.matchPhase (slotMatch t.matchWires) t.ruleIds := by
    rw [matched, h.received_eq]
  rw [hm]
  refine ⟨hframe.1, hframe.2.trans ?_⟩
  cases hq : b.queue with
  | nil => exact ite_self _
  | cons s rest => exact if_pos (h.2.1 (hq ▸ List.cons_ne_nil s rest))

theorem Quiet.onTime (h : Quiet b t) : OnTime t.reorderWires (matched b t) := by
  intro s hs
  rw [h.matched_frame.1] at hs
  exact .inl (h.2.2 s hs)

/-- A quiet turn is one turn less. -/
theorem left_turn (h : Inv n none b) (hn : n ≤ 32) (hq : Quiet b t) :
    left (turn n b t) ≤ left b - 1 := by
  have hm := inv_matched h hn (t := t) hq.delivers
  obtain ⟨hhot, hqueue⟩ := hq.matched_frame
  have hnodup : (slotsFrom 0 n).Nodup := nodup_slotsFrom (by omega)
  obtain ⟨-, hcount⟩ := scan_onTime hnodup hm fun s _ => hq.onTime s
  -- every slot of the set is next, so the scan empties it
  have hempty : heldSlots (turn n b t).fw.reorderSlots1hot = ∅ := by
    rw [Finset.eq_empty_iff_forall_notMem]
    intro s hs
    have hturn := (inv_turn h hn hq.delivers hq.onTime).range (.inr (.inl hs))
    have hbefore : s ∈ heldSlots (matched b t).fw.reorderSlots1hot := by
      rw [turn_eq_scan hn hm] at hs
      exact scan_held_subset hs
    rw [turn_eq_scan hn hm] at hs
    rw [hhot] at hbefore
    exact scan_next hnodup (slotsFrom_lt hn) hm.configured
      (mem_slotsFrom_zero hn hturn) (hq.2.2 s hbefore) hs
  rw [← turn_eq_scan hn hm, hempty, hhot, hqueue, List.length_tail, Finset.card_empty] at hcount
  unfold left
  rw [hempty, Finset.card_empty]
  omega

/-- When nothing is left, everything was sent. -/
theorem sent_of_left (h : Returns b) (hzero : left b = 0) (k : Nat)
    (hk : k < b.received.length) : k ∈ b.sent := by
  unfold left at hzero
  rcases h.found k hk with hsent | ⟨s, -, -, hq | hs⟩
  · exact hsent
  · have hpos := List.length_pos_of_mem hq
    omega
  · have hpos := Finset.card_pos.mpr ⟨s, hs⟩
    omega

theorem run_quiet (h : Inv n none b) (hn : n ≤ 32) {more : List Turn}
    (hq : Meets (turn n) Quiet b more) :
    Inv n none (run (turn n) b more) ∧ left (run (turn n) b more) ≤ left b - more.length := by
  induction more generalizing b with
  | nil => exact ⟨h, Nat.le_refl _⟩
  | cons t more ih =>
    have hstep := left_turn h hn hq.1
    obtain ⟨hinv, hle⟩ := ih (inv_turn h hn hq.1.delivers hq.1.onTime) hq.2
    refine ⟨hinv, ?_⟩
    rw [run_cons, List.length_cons]
    omega

theorem inv_run (h : Inv n none b) (hn : n ≤ 32) {turns : List Turn}
    (hd : Meets (turn n) (fun b t => b.Delivers n t.rx) b turns)
    (ht : Meets (turn n) (fun b t => OnTime t.reorderWires (matched b t)) b turns) :
    Inv n none (run (turn n) b turns) :=
  run_invariant (fun _ _ h hc => inv_turn h hn hc.1 hc.2) h (hd.and ht)

/-- **`pigasus3.c` returns each slot once in every run in which no slot of the reorder set
times out.**  After such a run no packet was sent twice, a packet that was not sent is with
the matcher or in the reorder set, and the counter counts that set.  The next turn keeps this
exactly if its slots are on time, the packet whose end the matcher reports is sent in it, and
enough quiet turns send everything. -/
theorem returns_slots_onTime (n : Nat) (hn : n ≤ 32) (b : Bench) (hstart : b.Start n)
    (turns : List Turn) (hd : Meets (turn n) (fun b t => b.Delivers n t.rx) b turns)
    (ht : Meets (turn n) (fun b t => OnTime t.reorderWires (matched b t)) b turns) :
    Returns (run (turn n) b turns) ∧
    ∀ e, e = run (turn n) b turns →
      (∀ t, e.Delivers n t.rx →
        (Returns (turn n e t) ↔ OnTime t.reorderWires (matched e t)) ∧
        ∀ s rest k, (received e t).queue = s :: rest → (received e t).last s = some k →
          0 ∈ t.ruleIds → k ∈ (matched e t).sent) ∧
      ∀ more, Meets (turn n) Quiet e more → left e ≤ more.length →
        (run (turn n) e more).sent.Nodup ∧
        ∀ k < (run (turn n) e more).received.length, k ∈ (run (turn n) e more).sent := by
  have hrun := inv_run hstart.inv hn hd ht
  refine ⟨hrun.returns, ?_⟩
  rintro e rfl
  refine ⟨?_, ?_⟩
  · intro t hdt
    refine ⟨returns_turn_iff hrun hn hdt, ?_⟩
    intro s rest k hq hk hz
    exact Inv.sent_of_end (slotMatch_drains t.matchWires) (inv_received hrun hn hdt) hz hq hk
  · intro more hquiet hlen
    obtain ⟨hinv, hle⟩ := run_quiet hrun hn hquiet
    exact ⟨hinv.sound.sent_nodup, sent_of_left hinv.returns (by omega)⟩

end Run

/-- The flow has come to the packet that waits, and then the matcher ends it. -/
def caughtUp : List Turn :=
  let wires : Fin 32 → ReorderWires := fun _ =>
    { header := tcpHeader 2960, entry := { openFlow with expSeq := 2960 }, timer16HL := 9 }
  [{ quietTurn 9 with reorderWires := wires },
   { quietTurn 9 with reorderWires := wires, ruleIds := [0] }]

theorem returns_slots_onTime_caughtUp :
    (run (turn 1) (Bench.init 1) [earlyTurn]).fw.reorderSlots1hot = 1 ∧
      Returns (run (turn 1) (Bench.init 1) [earlyTurn]) ∧
      0 ∈ (run (turn 1) (run (turn 1) (Bench.init 1) [earlyTurn]) caughtUp).sent := by
  obtain ⟨hreturns, hmore⟩ := returns_slots_onTime 1 (by decide) (Bench.init 1)
    (Bench.start_init 1) [earlyTurn] (by decide +kernel) (by decide +kernel)
  refine ⟨by decide +kernel, hreturns, ?_⟩
  exact ((hmore _ rfl).2 caughtUp (by decide +kernel) (by decide +kernel)).2 0
    (by decide +kernel)

end Rosebud.Pigasus3
