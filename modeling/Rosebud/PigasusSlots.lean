import Mathlib.Data.BitVec
import Mathlib.Data.Finset.Card
import Mathlib.Data.Fintype.Basic
import Rosebud.Custody

/-! # The slots of the Pigasus firmware

What the two versions of the firmware, `pigasus.c` and `pigasus3.c`, have in common: the
contexts of the slots, the reorder set, and what their functions do to the outside.

A function of the firmware gets the values it reads and returns the state it leaves and the
`Action`s it takes, in order.  `Bench` puts the firmware between the load balancer and the
string matcher and keeps the book of the packets: which were received, which were sent, and
which commands the matcher has not finished.  The set of slots put aside is read off
`reorder_slots_1hot`.

`Settles` and `Drains` say what a function may do with the slot it works on; the invariant of
the book, `Inv`, follows from them for every phase of the main loop.
-/
namespace Rosebud.PigasusSlots
open Custody (Book Sound)

/-! ## State -/

/-- `struct Desc`. -/
structure Desc where
  len : BitVec 16
  tag : BitVec 8
  port : BitVec 8
  data : BitVec 32
deriving DecidableEq, Inhabited

/-- `struct flow`. -/
structure Flow where
  tag : BitVec 16
  ts : BitVec 16
  expSeq : BitVec 32
  state : BitVec 64
deriving Inhabited

/-- `state_32[1]`. -/
def Flow.state32H (f : Flow) : BitVec 32 := f.state.extractLsb' 32 32

/-- `state_8[7]`. -/
def Flow.state8H (f : Flow) : BitVec 8 := f.state.extractLsb' 56 8

/-- `state_32[1] = v`. -/
def Flow.setState32H (f : Flow) (v : BitVec 32) : Flow :=
  { f with state := v ++ f.state.extractLsb' 0 32 }

/-- `struct slot_context`, without the pointers to the header; `reorder_ts` is there in
`pigasus.c` only. -/
structure Context where
  index : Fin 32
  desc : Desc
  flow : Flow
  flowId : BitVec 16
  reorderTs : BitVec 16
  isTcp : Bool
  eop : BitVec 32
  payloadAddr : BitVec 32
  payloadLength : BitVec 32
  matchCnt : BitVec 32
  setMask : BitVec 32
  rstMask : BitVec 32
deriving Inhabited

structure Firmware where
  context : Fin 32 → Context
  reorderSlots1hot : BitVec 32
  reorderSlotCount : BitVec 32

def Firmware.put (f : Firmware) (s : Fin 32) (slot : Context) : Firmware :=
  { f with context := Function.update f.context s slot }

/-- What the firmware reads of the header of a packet; `seq` through the byte-swapped view. -/
structure Header where
  ethType : BitVec 16
  versionIhl : BitVec 8
  protocol : BitVec 8
  seq : BitVec 32
  ports : BitVec 32
  flags : BitVec 16
  hashL : BitVec 16
  hashH : BitVec 16
deriving Inhabited

/-! ## Actions -/

/-- A field of the flow table that is written. -/
inductive FlowWrite where
  | tag (v : BitVec 16)
  | ts (v : BitVec 16)
  | expSeq (v : BitVec 32)
  | state8H (v : BitVec 8)
  | state32H (v : BitVec 32)
  | state32L (v : BitVec 32)
  | state64 (v : BitVec 64)

inductive Action where
  /-- `HASH_LOOKUP`. -/
  | hashLookup (flowId : BitVec 16)
  /-- `ACC_CUR_TAG`, `ACC_CUR_TS` and `ACC_SEQ_N_GO`. -/
  | accSeqNGo (tag ts : BitVec 16) (seq : BitVec 32)
  /-- `ACC_PIG_STATE_H`. -/
  | accPigStateH (v : BitVec 32)
  /-- `ACC_PIG_STATE`. -/
  | accPigState (v : BitVec 64)
  /-- `ACC_DMA_ADDR`, `ACC_DMA_LEN`, `ACC_PIG_PORTS`, `ACC_PIG_SLOT`, and `ACC_PIG_CTRL = 1`. -/
  | start (addr len ports : BitVec 32) (slot : Fin 32)
  /-- `ACC_PIG_CTRL = 2`. -/
  | release
  /-- A word or a byte written behind the packet. -/
  | store (eop ruleId : BitVec 32)
  | storeByte (eop : BitVec 32) (v : BitVec 8)
  | flowWrite (flowId : BitVec 16) (w : FlowWrite)
  | pktSend (desc : Desc)

/-- What matters for the slots: a packet is sent, or a slot given to the matcher. -/
inductive Effect where
  | send (desc : Desc)
  | start (slot : Fin 32)

def Action.effect : Action → Option Effect
  | .pktSend d => some (.send d)
  | .start _ _ _ s => some (.start s)
  | _ => none

def effects (actions : List Action) : List Effect := actions.filterMap Action.effect

@[simp] theorem effects_append (as bs : List Action) :
    effects (as ++ bs) = effects as ++ effects bs := List.filterMap_append

/-! ### What both versions share -/

/-- The payload behind the headers, as both versions compute it. -/
def Context.withPayload (slot : Context) (payloadOffset : BitVec 32) : Context :=
  { slot with
    payloadAddr := slot.desc.data + payloadOffset
    payloadLength := slot.desc.len.setWidth 32 - payloadOffset }

/-- The command for the packet of a slot. -/
def Context.command (slot : Context) (ports : BitVec 32) : Action :=
  .start slot.payloadAddr slot.payloadLength ports slot.index

/-- `drop:` -/
def drop (f : Firmware) (s : Fin 32) (slot : Context) (actions : List Action) :
    Firmware × List Action :=
  let slot := { slot with desc := { slot.desc with len := 0 } }
  (f.put s slot, actions ++ [.pktSend slot.desc])

/-- What `slot_match` reads: the header of the packet, the state of the matcher and the timer. -/
structure MatchWires where
  header : Header
  accPigState : BitVec 64
  timer16HL : BitVec 16
deriving Inhabited

/-- The entry of a TCP flow at the end of a packet. -/
def flowUpdate (w : MatchWires) (slot : Context) : List Action :=
  (if w.header.flags &&& 0x0100 ≠ 0 then [.flowWrite slot.flowId (.state8H 0)]
   else if slot.matchCnt ≠ 0 then
     [.flowWrite slot.flowId (.state32H (w.accPigState.extractLsb' 32 32 ||| 0x80000000)),
      .flowWrite slot.flowId (.state32L (w.accPigState.extractLsb' 0 32))]
   else [.flowWrite slot.flowId (.state64 w.accPigState)]) ++
  (if w.header.flags &&& 0x0200 ≠ 0 then
     [.flowWrite slot.flowId (.expSeq (w.header.seq + slot.payloadLength + 1))]
   else [.flowWrite slot.flowId (.expSeq (w.header.seq + slot.payloadLength))]) ++
  [.flowWrite slot.flowId (.ts w.timer16HL)]

/-- The loop of `slot_match`, over the rule ids read while `ACC_PIG_MATCH` is set; the two
versions differ in what a match and the end of a packet do. -/
def matchLoop (addRule : Context → BitVec 32 → Context × List Action)
    (endPacket : Context → Context × List Action) (slot : Context) :
    List (BitVec 32) → Context × List Action
  | [] => (slot, [])
  | ruleId :: ruleIds =>
    if ruleId ≠ 0 then
      let (slot, actions) := addRule slot ruleId
      let (slot, more) := matchLoop addRule endPacket slot ruleIds
      (slot, actions ++ more)
    else endPacket slot

/-- The slot is taken out of the reorder set. -/
def Firmware.unhold (f : Firmware) (slot : Context) : Firmware :=
  { f with
    reorderSlots1hot := f.reorderSlots1hot &&& slot.rstMask
    reorderSlotCount := f.reorderSlotCount - 1 }

/-- The slot is put into the reorder set. -/
def Firmware.hold (f : Firmware) (slot : Context) : Firmware :=
  { f with
    reorderSlotCount := f.reorderSlotCount + 1
    reorderSlots1hot := f.reorderSlots1hot ||| slot.setMask }

/-- A 16-bit timer is before the time stamp, or more than `limit` ticks after it. -/
def timedOut (curTime ts : BitVec 16) (limit : Nat) : Bool :=
  decide (curTime < ts) || decide (limit < curTime.toNat - ts.toNat)

/-! ## The reorder set -/

/-- The slots whose bit is set. -/
def heldSlots (hot : BitVec 32) : Finset (Fin 32) := Finset.univ.filter fun i => hot.getLsbD i.val

@[simp] theorem mem_heldSlots {hot : BitVec 32} {i : Fin 32} :
    i ∈ heldSlots hot ↔ hot.getLsbD i.val = true := by
  simp [heldSlots]

theorem getLsbD_mask (i j : Fin 32) : (1#32 <<< i.val).getLsbD j.val = decide (j = i) := by
  rw [← BitVec.twoPow_eq, BitVec.getLsbD_twoPow]
  have hi : i.val < 32 := i.isLt
  simp [hi, Fin.ext_iff, eq_comm]

theorem heldSlots_or (hot : BitVec 32) (i : Fin 32) :
    heldSlots (hot ||| 1#32 <<< i.val) = insert i (heldSlots hot) := by
  ext j
  rw [mem_heldSlots, BitVec.getLsbD_or, getLsbD_mask, Finset.mem_insert, mem_heldSlots,
    Bool.or_eq_true, decide_eq_true_eq, Or.comm]

theorem heldSlots_and (hot : BitVec 32) (i : Fin 32) :
    heldSlots (hot &&& ~~~(1#32 <<< i.val)) = (heldSlots hot).erase i := by
  ext j
  rw [mem_heldSlots, BitVec.getLsbD_and, BitVec.getLsbD_not, getLsbD_mask, Finset.mem_erase,
    mem_heldSlots]
  simp [And.comm]

/-- A bit is tested with its mask. -/
theorem and_mask_ne_zero (hot : BitVec 32) (i : Fin 32) :
    hot &&& 1#32 <<< i.val ≠ 0 ↔ i ∈ heldSlots hot := by
  rw [mem_heldSlots]
  constructor
  · intro hne
    by_contra hoff
    refine hne (BitVec.eq_of_getLsbD_eq fun j hj => ?_)
    have hmask := getLsbD_mask i ⟨j, hj⟩
    rw [BitVec.getLsbD_and, hmask]
    by_cases hij : (⟨j, hj⟩ : Fin 32) = i
    · subst hij
      simpa using hoff
    · simp [hij]
  · intro hon heq
    have hbit : (hot &&& 1#32 <<< i.val).getLsbD i.val = true := by
      rw [BitVec.getLsbD_and, getLsbD_mask, hon]
      simp
    rw [heq, BitVec.ofNat_eq_ofNat, BitVec.getLsbD_zero] at hbit
    exact Bool.noConfusion hbit

theorem exists_held {hot : BitVec 32} (h : hot ≠ 0) : ∃ i, i ∈ heldSlots hot := by
  by_contra hnone
  refine h (BitVec.eq_of_getLsbD_eq fun j hj => ?_)
  have hoff : hot.getLsbD j ≠ true := fun hon => hnone ⟨⟨j, hj⟩, mem_heldSlots.mpr hon⟩
  simpa using hoff

/-- `init_left_mask` -/
def initLeftMask (slotCount : Nat) : BitVec 32 :=
  if slotCount = 32 then ~~~0 else (1#32 <<< slotCount) - 1

/-! ## The firmware at work -/

/-- A received descriptor, `desc_low`. -/
structure RecvDesc where
  len : BitVec 16
  tag : BitVec 8
  port : BitVec 8

/-- There is a context to fall back on. -/
scoped instance neZero_contexts : NeZero 32 := ⟨by decide⟩

/-- The index of the context of a tag. -/
def slotOf (tag : BitVec 8) : Fin 32 := Fin.ofNat 32 (tag.toNat - 1)

/-- The firmware, the packets it received and sent, and the commands the matcher has not
finished.  `sends` are all calls of `pkt_send`, `sent` the packets they were for. -/
structure Bench where
  fw : Firmware
  received : List (Fin 32)
  last : Fin 32 → Option Nat
  sends : List Desc
  sent : List Nat
  queue : List (Fin 32)

namespace Bench
variable (b : Bench)

def book : Book (Fin 32) where
  received := b.received
  last := b.last
  sent := b.sent
  queue := b.queue
  held := heldSlots b.fw.reorderSlots1hot

def effect : Effect → Bench
  | .send d => { b with sends := b.sends ++ [d], sent := b.sent ++ (b.last (slotOf d.tag)).toList }
  | .start s => { b with queue := b.queue ++ [s] }

/-- A function of the firmware is run, and its actions take effect. -/
def call (x : Firmware × List Action) : Bench :=
  (effects x.2).foldl Bench.effect { b with fw := x.1 }

/-- A packet is received: its descriptor is copied into the context of its slot. -/
def receive (d : RecvDesc) : Bench :=
  let slot := b.fw.context (slotOf d.tag)
  { b with
    received := b.received ++ [slotOf d.tag]
    last := Function.update b.last (slotOf d.tag) (some b.received.length)
    fw := b.fw.put (slotOf d.tag)
      { slot with desc := { slot.desc with len := d.len, tag := d.tag, port := d.port } } }

/-- The first command of the matcher is finished. -/
def finish : Bench := { b with queue := b.queue.tail }

/-- `if (in_pkt_ready())` -/
def rxPhase (slotRxPacket : Firmware → Fin 32 → Firmware × List Action)
    (rx : Option RecvDesc) : Bench :=
  match rx with
  | none => b
  | some d => (b.receive d).call (slotRxPacket (b.receive d).fw (slotOf d.tag))

/-- `if (ACC_PIG_MATCH)`, with the rule ids that are read one after the other while it is set.
They are those of the matcher's first command, and a zero ends it. -/
def matchPhase (slotMatch : Firmware → Fin 32 → List (BitVec 32) → Firmware × List Action)
    (ruleIds : List (BitVec 32)) : Bench :=
  match b.queue, ruleIds with
  | s :: _, _ :: _ =>
    (if 0 ∈ ruleIds then b.finish else b).call (slotMatch b.fw s ruleIds)
  | _, _ => b

/-- The load balancer gives a packet to one of the `n` slots only after the packet that was
there before was sent. -/
def Delivers (n : Nat) (rx : Option RecvDesc) : Prop :=
  ∀ d ∈ rx, (1 ≤ d.tag.toNat ∧ d.tag.toNat ≤ n) ∧ ∀ k ∈ b.last (slotOf d.tag), k ∈ b.sent
deriving Decidable

end Bench

/-- The parts of a context that are set once. -/
structure Context.Configured (slot : Context) (i : Fin 32) : Prop where
  index : slot.index = i
  setMask : slot.setMask = 1#32 <<< i.val
  rstMask : slot.rstMask = ~~~(1#32 <<< i.val)
  tag : slot.desc.tag.toNat = i.val + 1

theorem Context.Configured.slotOf_tag {slot : Context} {i : Fin 32} (h : slot.Configured i) :
    slotOf slot.desc.tag = i := by
  apply Fin.ext
  rw [slotOf, h.tag, Nat.add_sub_cancel]
  exact Nat.mod_eq_of_lt i.isLt

/-- The book is in order, the counter counts the set bits, and every call of `pkt_send` was
for the slot of its packet; `hand` is the slot a function is working on. -/
structure Inv (n : Nat) (hand : Option (Fin 32)) (b : Bench) : Prop where
  configured : ∀ i, i.val < n → (b.fw.context i).Configured i
  ranged : ∀ s k, b.last s = some k → s.val < n
  sound : Sound hand b.book
  counted : b.fw.reorderSlotCount.toNat = (heldSlots b.fw.reorderSlots1hot).card
  calls : b.sends.map (fun d => some (slotOf d.tag)) = b.sent.map fun k => b.received[k]?

theorem Inv.range {n : Nat} {hand : Option (Fin 32)} {b : Bench} {s : Fin 32} (h : Inv n hand b)
    (hs : b.book.Has hand s) : s.val < n := by
  obtain ⟨k, hlast, -⟩ := h.sound.unsent s hs
  exact h.ranged s k hlast

/-- After `main`'s initialisation. -/
structure Bench.Start (n : Nat) (b : Bench) : Prop where
  configured : ∀ i, i.val < n → (b.fw.context i).Configured i
  reorderSlots1hot : b.fw.reorderSlots1hot = 0
  reorderSlotCount : b.fw.reorderSlotCount = 0
  received : b.received = []
  last : ∀ s, b.last s = none
  sends : b.sends = []
  sent : b.sent = []
  queue : b.queue = []

/-- The contexts of the first `n` slots as `main` sets them up, with packets of 16 KiB. -/
def Context.init (n : Nat) (i : Fin 32) : Context :=
  if i.val < n then
    { (default : Context) with
      index := i
      desc := { (default : Desc) with
        tag := BitVec.ofNat 8 (i.val + 1)
        data := 0x01000000 + 4 * 128 * 1024 + 10 + 4 + BitVec.ofNat 32 i.val * (16 * 1024) }
      matchCnt := 0
      setMask := 1#32 <<< i.val
      rstMask := ~~~(1#32 <<< i.val) }
  else default

def Bench.init (n : Nat) : Bench where
  fw := { context := Context.init n, reorderSlots1hot := 0, reorderSlotCount := 0 }
  received := []
  last := fun _ => none
  sends := []
  sent := []
  queue := []

theorem Bench.start_init (n : Nat) : (Bench.init n).Start n where
  configured i hi := by
    change (Context.init n i).Configured i
    rw [Context.init, if_pos hi]
    refine ⟨rfl, rfl, rfl, ?_⟩
    exact Nat.mod_eq_of_lt (by omega)
  reorderSlots1hot := rfl
  reorderSlotCount := rfl
  received := rfl
  last _ := rfl
  sends := rfl
  sent := rfl
  queue := rfl

theorem Bench.Start.inv {n : Nat} {b : Bench} (h : b.Start n) : Inv n none b where
  configured := h.configured
  ranged s k hk := by
    rw [h.last s] at hk
    exact absurd hk.symm (Option.some_ne_none _)
  sound := by
    have hbook : b.book = ⟨[], fun _ => none, [], [], ∅⟩ := by
      unfold Bench.book
      rw [h.received, h.sent, h.queue, h.reorderSlots1hot,
        show b.last = fun _ => none from funext h.last]
      rfl
    rw [hbook]
    exact Custody.sound_empty
  counted := by
    rw [h.reorderSlots1hot, h.reorderSlotCount]
    rfl
  calls := by
    rw [h.sends, h.sent]
    rfl

/-! ## What a function may do -/

/-- A context in which the parts that are set once are the same. -/
structure Context.Same (slot slot' : Context) : Prop where
  index : slot'.index = slot.index
  setMask : slot'.setMask = slot.setMask
  rstMask : slot'.rstMask = slot.rstMask
  tag : slot'.desc.tag = slot.desc.tag

theorem Context.Same.trans {a b c : Context} (h : a.Same b) (h' : b.Same c) : a.Same c :=
  ⟨h'.index.trans h.index, h'.setMask.trans h.setMask, h'.rstMask.trans h.rstMask,
    h'.tag.trans h.tag⟩

/-- The firmware after a function that worked on one slot. -/
structure WorkedOn (f : Firmware) (s : Fin 32) (f' : Firmware) : Prop where
  same : (f.context s).Same (f'.context s)
  others : ∀ i, i ≠ s → f'.context i = f.context i

/-- The reorder set is left alone. -/
structure Keeps (f f' : Firmware) : Prop where
  hot : f'.reorderSlots1hot = f.reorderSlots1hot
  count : f'.reorderSlotCount = f.reorderSlotCount

/-- A function that works on a slot sends its packet, gives it to the matcher, or puts it into
the reorder set. -/
inductive Settles (f : Firmware) (s : Fin 32) (x : Firmware × List Action) : Prop
  | sends (d : Desc) (worked : WorkedOn f s x.1) (keeps : Keeps f x.1)
      (effects_eq : effects x.2 = [.send d]) (tag : d.tag = (f.context s).desc.tag)
  | starts (worked : WorkedOn f s x.1) (keeps : Keeps f x.1)
      (effects_eq : effects x.2 = [.start (f.context s).index])
  | holds (worked : WorkedOn f s x.1) (keeps : Keeps (f.hold (f.context s)) x.1)
      (effects_eq : effects x.2 = [])

/-- A function that reads the matcher's results for a slot sends its packet when they end. -/
structure Drains (f : Firmware) (s : Fin 32) (ruleIds : List (BitVec 32))
    (x : Firmware × List Action) : Prop where
  worked : WorkedOn f s x.1
  keeps : Keeps f x.1
  ended : 0 ∈ ruleIds → ∃ d, effects x.2 = [.send d] ∧ d.tag = (f.context s).desc.tag
  going : 0 ∉ ruleIds → effects x.2 = []

section Rules
variable {n : Nat} {b : Bench} {s : Fin 32} {hand : Option (Fin 32)}
  {x : Firmware × List Action}

theorem workedOn_put (f : Firmware) {slot : Context} (h : (f.context s).Same slot) :
    WorkedOn f s (f.put s slot) where
  same := by
    have hself : (f.put s slot).context s = slot := Function.update_self _ _ _
    rw [hself]
    exact h
  others i hi := Function.update_of_ne hi _ _

/-- Only the contexts matter. -/
theorem WorkedOn.of_context {f f' g g' : Firmware} (h : WorkedOn f s f')
    (hf : g.context = f.context) (hf' : g'.context = f'.context) : WorkedOn g s g' := by
  refine ⟨?_, ?_⟩
  · rw [hf, hf']
    exact h.same
  · rw [hf, hf']
    exact h.others

theorem WorkedOn.configured {f f' : Firmware} (h : WorkedOn f s f')
    (hf : ∀ i, i.val < n → (f.context i).Configured i) (i : Fin 32) (hi : i.val < n) :
    (f'.context i).Configured i := by
  by_cases his : i = s
  · subst his
    have hc := hf i hi
    exact ⟨h.same.index.trans hc.index, h.same.setMask.trans hc.setMask,
      h.same.rstMask.trans hc.rstMask, h.same.tag ▸ hc.tag⟩
  · rw [h.others i his]
    exact hf i hi

/-! ### The shared functions -/

section Outcomes
variable {f : Firmware} {slot : Context} {actions : List Action}
  (hs : (f.context s).Same slot) (ha : effects actions = [])
include hs ha

/-- The ways a function ends: the packet is sent. -/
theorem send_settles : Settles f s (f.put s slot, actions ++ [.pktSend slot.desc]) := by
  refine .sends slot.desc (workedOn_put f hs) ⟨rfl, rfl⟩ ?_ hs.tag
  rw [effects_append, ha]
  rfl

/-- It is given to the matcher. -/
theorem start_settles (ports : BitVec 32) :
    Settles f s (f.put s slot, actions ++ [slot.command ports]) := by
  refine .starts (workedOn_put f hs) ⟨rfl, rfl⟩ ?_
  rw [effects_append, ha, ← hs.index]
  rfl

/-- It is put aside. -/
theorem hold_settles : Settles f s ((f.put s slot).hold slot, actions) := by
  refine .holds (WorkedOn.of_context (workedOn_put f hs) rfl rfl) ⟨?_, rfl⟩ ha
  exact congrArg (f.reorderSlots1hot ||| ·) hs.setMask

theorem drop_settles : Settles f s (drop f s slot actions) :=
  send_settles ⟨hs.index, hs.setMask, hs.rstMask, hs.tag⟩ ha

end Outcomes

theorem effects_flowUpdate (w : MatchWires) (slot : Context) :
    effects (flowUpdate w slot) = [] := by
  unfold flowUpdate
  split_ifs <;> rfl

/-- At the end of a packet it is sent, after the flow table was brought up to date. -/
theorem effects_end (w : MatchWires) (slot slot' : Context) (d : Desc) :
    effects ((if slot.isTcp then flowUpdate w slot' else []) ++ [.release, .pktSend d]) =
      [.send d] := by
  rw [effects_append]
  split_ifs
  · rw [effects_flowUpdate]
    rfl
  · rfl

section Loop
variable {addRule : Context → BitVec 32 → Context × List Action}
  {endPacket : Context → Context × List Action}
  (hadd : ∀ slot id, slot.Same (addRule slot id).1 ∧ effects (addRule slot id).2 = [])
  (hend : ∀ slot : Context, slot.Same (endPacket slot).1)
  (hsend : ∀ slot, effects (endPacket slot).2 = [.send (endPacket slot).1.desc])
include hadd hend hsend

/-- The loop sends the packet when it reads the zero, and does nothing of the kind before. -/
theorem matchLoop_spec (slot : Context) (ruleIds : List (BitVec 32)) :
    slot.Same (matchLoop addRule endPacket slot ruleIds).1 ∧
      (0 ∈ ruleIds → effects (matchLoop addRule endPacket slot ruleIds).2 =
        [.send (matchLoop addRule endPacket slot ruleIds).1.desc]) ∧
      (0 ∉ ruleIds → effects (matchLoop addRule endPacket slot ruleIds).2 = []) := by
  -- induction on the rule ids; a match hands its changed context on to the rest of the loop
  induction ruleIds generalizing slot with
  | nil => exact ⟨⟨rfl, rfl, rfl, rfl⟩, fun h => absurd h List.not_mem_nil, fun _ => rfl⟩
  | cons ruleId ruleIds ih =>
    by_cases hz : ruleId = 0
    · subst hz
      have hloop : matchLoop addRule endPacket slot (0 :: ruleIds) = endPacket slot :=
        if_neg (by simp)
      rw [hloop]
      exact ⟨hend slot, fun _ => hsend slot, fun h => absurd List.mem_cons_self h⟩
    · obtain ⟨hsame₁, hidle⟩ := hadd slot ruleId
      obtain ⟨hsame, hzero, hgo⟩ := ih (addRule slot ruleId).1
      have hloop : matchLoop addRule endPacket slot (ruleId :: ruleIds) =
          ((matchLoop addRule endPacket (addRule slot ruleId).1 ruleIds).1,
            (addRule slot ruleId).2 ++
              (matchLoop addRule endPacket (addRule slot ruleId).1 ruleIds).2) := if_pos hz
      have heff : effects (matchLoop addRule endPacket slot (ruleId :: ruleIds)).2 =
          effects (matchLoop addRule endPacket (addRule slot ruleId).1 ruleIds).2 := by
        rw [hloop, effects_append, hidle]
        rfl
      have hmem : 0 ∈ ruleId :: ruleIds ↔ 0 ∈ ruleIds := by
        rw [List.mem_cons, or_iff_right (Ne.symm hz)]
      rw [heff, hmem, hloop]
      exact ⟨hsame₁.trans hsame, hzero, hgo⟩

theorem drains_matchLoop (f : Firmware) (ruleIds : List (BitVec 32)) :
    Drains f s ruleIds (f.put s (matchLoop addRule endPacket (f.context s) ruleIds).1,
      (matchLoop addRule endPacket (f.context s) ruleIds).2) := by
  obtain ⟨hsame, hzero, hgo⟩ := matchLoop_spec hadd hend hsend (f.context s) ruleIds
  exact ⟨workedOn_put f hsame, ⟨rfl, rfl⟩, fun h => ⟨_, hzero h, hsame.tag⟩, hgo⟩

end Loop

/-- A change of the context before the function changes nothing about the outcome. -/
theorem Settles.of_put {f : Firmware} {slot : Context} (hs : (f.context s).Same slot)
    (hx : Settles (f.put s slot) s x) : Settles f s x := by
  have hself : (f.put s slot).context s = slot := Function.update_self _ _ _
  have hworked : WorkedOn (f.put s slot) s x.1 → WorkedOn f s x.1 := by
    intro hw
    refine ⟨hs.trans (hself ▸ hw.same), fun i hi => (hw.others i hi).trans ?_⟩
    exact Function.update_of_ne hi _ _
  cases hx with
  | sends d hw hk he hd =>
    rw [hself] at hd
    exact .sends d (hworked hw) ⟨hk.hot, hk.count⟩ he (hd.trans hs.tag)
  | starts hw hk he =>
    rw [hself, hs.index] at he
    exact .starts (hworked hw) ⟨hk.hot, hk.count⟩ he
  | holds hw hk he =>
    refine .holds (hworked hw) ⟨hk.hot.trans ?_, hk.count⟩ he
    change f.reorderSlots1hot ||| ((f.put s slot).context s).setMask = _
    rw [hself, hs.setMask]
    rfl

/-! ### Calls -/

@[simp] theorem Bench.call_fw : (b.call x).fw = x.1 := by
  have hfold : ∀ (es : List Effect) (c : Bench), (es.foldl Bench.effect c).fw = c.fw := by
    intro es
    induction es with
    | nil => exact fun _ => rfl
    | cons e es ih =>
      intro c
      cases e
      all_goals exact ih _
  exact hfold _ _

theorem Bench.call_idle (he : effects x.2 = []) : b.call x = { b with fw := x.1 } := by
  rw [Bench.call, he]
  rfl

theorem Bench.call_start (he : effects x.2 = [.start s]) :
    b.call x = { b with fw := x.1, queue := b.queue ++ [s] } := by
  rw [Bench.call, he]
  rfl

theorem Bench.call_send {d : Desc} (he : effects x.2 = [.send d]) (hd : slotOf d.tag = s) :
    b.call x = { b with
      fw := x.1, sends := b.sends ++ [d], sent := b.sent ++ (b.last s).toList } := by
  rw [Bench.call, he, ← hd]
  rfl

/-- A call that neither sends nor starts anything. -/
theorem Inv.call_idle (h : Inv n hand b) (hw : WorkedOn b.fw s x.1) (hk : Keeps b.fw x.1)
    (he : effects x.2 = []) : Inv n hand (b.call x) := by
  rw [Bench.call_idle he]
  refine ⟨hw.configured h.configured, h.ranged, ?_, ?_, h.calls⟩
  · have hbook : Bench.book { b with fw := x.1 } = b.book := by
      unfold Bench.book
      rw [hk.hot]
    rw [hbook]
    exact h.sound
  · rw [hk.hot, hk.count]
    exact h.counted

/-- A call that sends the packet in hand. -/
theorem Inv.call_send {d : Desc} (h : Inv n (some s) b) (hw : WorkedOn b.fw s x.1)
    (hk : Keeps b.fw x.1) (he : effects x.2 = [.send d])
    (hd : d.tag = (b.fw.context s).desc.tag) : Inv n none (b.call x) := by
  have hslot : slotOf d.tag = s := by
    rw [hd]
    exact (h.configured s (h.range (.inr (.inr rfl)))).slotOf_tag
  obtain ⟨k, hlast, -⟩ := h.sound.unsent s (.inr (.inr rfl))
  rw [Bench.call_send he hslot]
  refine ⟨hw.configured h.configured, h.ranged, ?_, ?_, ?_⟩
  · have hbook : Bench.book { b with
        fw := x.1, sends := b.sends ++ [d], sent := b.sent ++ (b.last s).toList } =
        b.book.send s := by
      unfold Bench.book Book.send
      rw [hk.hot]
    rw [hbook]
    exact h.sound.send
  · rw [hk.hot, hk.count]
    exact h.counted
  · have hat : b.received[k]? = some s := h.sound.last_at s k hlast
    have hl : b.last s = some k := hlast
    rw [List.map_append, List.map_append, h.calls, hl]
    simp [hslot, hat]

/-- A call that gives the slot in hand to the matcher. -/
theorem Inv.call_start (h : Inv n (some s) b) (hw : WorkedOn b.fw s x.1) (hk : Keeps b.fw x.1)
    (he : effects x.2 = [.start (b.fw.context s).index]) : Inv n none (b.call x) := by
  rw [(h.configured s (h.range (.inr (.inr rfl)))).index] at he
  rw [Bench.call_start he]
  refine ⟨hw.configured h.configured, h.ranged, ?_, ?_, h.calls⟩
  · have hbook : Bench.book { b with fw := x.1, queue := b.queue ++ [s] } = b.book.start s := by
      unfold Bench.book Book.start
      rw [hk.hot]
    rw [hbook]
    exact h.sound.start
  · rw [hk.hot, hk.count]
    exact h.counted

/-! ### The reorder set -/

/-- The slot in hand is put into the reorder set. -/
theorem Inv.hold (h : Inv n (some s) b) :
    Inv n none { b with fw := b.fw.hold (b.fw.context s) } := by
  have hheld : heldSlots (b.fw.reorderSlots1hot ||| (b.fw.context s).setMask) =
      insert s (heldSlots b.fw.reorderSlots1hot) := by
    rw [(h.configured s (h.range (.inr (.inr rfl)))).setMask, heldSlots_or]
  have hout : s ∉ heldSlots b.fw.reorderSlots1hot := (h.sound.in_hand s rfl).2
  refine ⟨h.configured, h.ranged, ?_, ?_, h.calls⟩
  · have hbook : Bench.book { b with fw := b.fw.hold (b.fw.context s) } = b.book.hold s := by
      unfold Bench.book Book.hold Firmware.hold
      rw [hheld]
    rw [hbook]
    exact h.sound.hold
  · change (b.fw.reorderSlotCount + 1).toNat =
      (heldSlots (b.fw.reorderSlots1hot ||| (b.fw.context s).setMask)).card
    have hle : b.fw.reorderSlotCount.toNat ≤ 32 := by
      rw [h.counted]
      exact Finset.card_le_univ _
    rw [hheld, Finset.card_insert_of_notMem hout, ← h.counted, BitVec.toNat_add]
    exact Nat.mod_eq_of_lt (by simp; omega)

/-- A slot of the reorder set is taken in hand. -/
theorem Inv.unhold (h : Inv n none b) (hs : s ∈ heldSlots b.fw.reorderSlots1hot) :
    Inv n (some s) { b with fw := b.fw.unhold (b.fw.context s) } := by
  have hheld : heldSlots (b.fw.reorderSlots1hot &&& (b.fw.context s).rstMask) =
      (heldSlots b.fw.reorderSlots1hot).erase s := by
    rw [(h.configured s (h.range (.inr (.inl hs)))).rstMask, heldSlots_and]
  refine ⟨h.configured, h.ranged, ?_, ?_, h.calls⟩
  · have hbook : Bench.book { b with fw := b.fw.unhold (b.fw.context s) } = b.book.unhold s := by
      unfold Bench.book Book.unhold Firmware.unhold
      rw [hheld]
    rw [hbook]
    exact h.sound.unhold hs
  · change (b.fw.reorderSlotCount - 1).toNat =
      (heldSlots (b.fw.reorderSlots1hot &&& (b.fw.context s).rstMask)).card
    have hpos : 0 < b.fw.reorderSlotCount.toNat := by
      rw [h.counted]
      exact Finset.card_pos.mpr ⟨s, hs⟩
    have hone : (1 : BitVec 32) ≤ b.fw.reorderSlotCount := by
      rw [BitVec.le_def]
      exact hpos
    rw [hheld, Finset.card_erase_of_mem hs, ← h.counted, BitVec.toNat_sub_of_le hone]
    rfl

/-- **A function that settles the slot in hand leaves the book in order.** -/
theorem Inv.settle (h : Inv n (some s) b) (hx : Settles b.fw s x) : Inv n none (b.call x) := by
  cases hx with
  | sends d hw hk he hd => exact h.call_send hw hk he hd
  | starts hw hk he => exact h.call_start hw hk he
  | holds hw hk he =>
    -- the call writes the whole firmware state, so the bit may as well be set before it
    exact h.hold.call_idle (hw.of_context rfl rfl) hk he

/-- A function that settles a slot of the reorder set, after it took the slot out. -/
theorem Inv.settle_held (h : Inv n none b) (hs : s ∈ heldSlots b.fw.reorderSlots1hot)
    (hx : Settles (b.fw.unhold (b.fw.context s)) s x) : Inv n none (b.call x) :=
  (h.unhold hs).settle hx

/-! ### Phases -/

/-- A packet comes into a slot that is free. -/
theorem Inv.receive (h : Inv n none b) (hn : n ≤ 32) {d : RecvDesc}
    (htag : 1 ≤ d.tag.toNat ∧ d.tag.toNat ≤ n) (hfree : b.book.Free (slotOf d.tag)) :
    Inv n (some (slotOf d.tag)) (b.receive d) := by
  have hval : (slotOf d.tag).val = d.tag.toNat - 1 := Nat.mod_eq_of_lt (by omega)
  refine ⟨?_, ?_, h.sound.receive hfree, h.counted, ?_⟩
  · intro i hi
    by_cases his : i = slotOf d.tag
    · subst his
      have hc := h.configured (slotOf d.tag) hi
      have hself : (b.receive d).fw.context (slotOf d.tag) = { b.fw.context (slotOf d.tag) with
          desc := { (b.fw.context (slotOf d.tag)).desc with
            len := d.len, tag := d.tag, port := d.port } } := Function.update_self _ _ _
      rw [hself]
      refine ⟨hc.index, hc.setMask, hc.rstMask, ?_⟩
      change d.tag.toNat = (slotOf d.tag).val + 1
      omega
    · have hother : (b.receive d).fw.context i = b.fw.context i := Function.update_of_ne his _ _
      rw [hother]
      exact h.configured i hi
  · intro t k hk
    by_cases hts : t = slotOf d.tag
    · omega
    · have hother : (b.receive d).last t = b.last t := Function.update_of_ne hts _ _
      exact h.ranged t k (hother ▸ hk)
  · change b.sends.map _ = b.sent.map fun k => (b.received ++ [slotOf d.tag])[k]?
    rw [h.calls]
    refine List.map_congr_left fun k hk => ?_
    exact (List.getElem?_append_left (h.sound.sent_lt k hk)).symm

theorem Inv.rxPhase (h : Inv n none b) (hn : n ≤ 32)
    {slotRxPacket : Firmware → Fin 32 → Firmware × List Action}
    (hrx : ∀ f t, Settles f t (slotRxPacket f t)) {rx : Option RecvDesc} (hd : b.Delivers n rx) :
    Inv n none (b.rxPhase slotRxPacket rx) := by
  cases rx with
  | none => exact h
  | some d =>
    obtain ⟨htag, hfree⟩ := hd d rfl
    exact (h.receive hn htag hfree).settle (hrx _ _)

/-- The matcher finishes its first command. -/
theorem Inv.finish (h : Inv n none b) {rest : List (Fin 32)} (hq : b.queue = s :: rest) :
    Inv n (some s) b.finish :=
  ⟨h.configured, h.ranged, h.sound.finish hq, h.counted, h.calls⟩

section Match
variable {slotMatch : Firmware → Fin 32 → List (BitVec 32) → Firmware × List Action}

/-- Nothing happens, or the results of the matcher's first command are read. -/
theorem Bench.matchPhase_cases (b : Bench)
    (slotMatch : Firmware → Fin 32 → List (BitVec 32) → Firmware × List Action)
    (ruleIds : List (BitVec 32)) :
    ((b.queue = [] ∨ ruleIds = []) ∧ b.matchPhase slotMatch ruleIds = b) ∨
      ∃ s rest, b.queue = s :: rest ∧ b.matchPhase slotMatch ruleIds =
        (if 0 ∈ ruleIds then b.finish else b).call (slotMatch b.fw s ruleIds) := by
  unfold Bench.matchPhase
  cases hq : b.queue with
  | nil => exact .inl ⟨.inl rfl, rfl⟩
  | cons s rest =>
    cases ruleIds with
    | nil => exact .inl ⟨.inr rfl, rfl⟩
    | cons r ids => exact .inr ⟨s, rest, rfl, rfl⟩

variable (hmatch : ∀ f t ids, Drains f t ids (slotMatch f t ids))
include hmatch

theorem Inv.matchPhase (h : Inv n none b) (ruleIds : List (BitVec 32)) :
    Inv n none (b.matchPhase slotMatch ruleIds) := by
  rcases b.matchPhase_cases slotMatch ruleIds with ⟨-, hsame⟩ | ⟨s, rest, hq, heq⟩
  · rw [hsame]
    exact h
  · have hx := hmatch b.fw s ruleIds
    rw [heq]
    by_cases hz : 0 ∈ ruleIds
    · obtain ⟨d, he, hd⟩ := hx.ended hz
      rw [if_pos hz]
      exact (h.finish hq).call_send hx.worked hx.keeps he hd
    · rw [if_neg hz]
      exact h.call_idle hx.worked hx.keeps (hx.going hz)

/-- The match phase leaves the reorder set alone and ends at most the first command. -/
theorem Bench.matchPhase_frame (b : Bench) (ruleIds : List (BitVec 32)) :
    (b.matchPhase slotMatch ruleIds).fw.reorderSlots1hot = b.fw.reorderSlots1hot ∧
      (b.matchPhase slotMatch ruleIds).queue =
        if 0 ∈ ruleIds then b.queue.tail else b.queue := by
  rcases b.matchPhase_cases slotMatch ruleIds with
    ⟨hidle, hsame⟩ | ⟨s, rest, -, heq⟩
  · rw [hsame]
    refine ⟨rfl, ?_⟩
    rcases hidle with hq | hr
    · rw [hq]
      exact (ite_self _).symm
    · rw [hr]
      exact (if_neg List.not_mem_nil).symm
  · have hx := hmatch b.fw s ruleIds
    rw [heq, Bench.call_fw]
    refine ⟨hx.keeps.hot, ?_⟩
    by_cases hz : 0 ∈ ruleIds
    · obtain ⟨d, he, -⟩ := hx.ended hz
      rw [if_pos hz, if_pos hz, Bench.call_send he rfl]
      rfl
    · rw [if_neg hz, if_neg hz, Bench.call_idle (hx.going hz)]

/-- A packet whose end the matcher reports is sent in that turn. -/
theorem Inv.sent_of_end (h : Inv n none b) {ruleIds : List (BitVec 32)} (hz : 0 ∈ ruleIds)
    {rest : List (Fin 32)} (hq : b.queue = s :: rest) {k : Nat} (hk : b.last s = some k) :
    k ∈ (b.matchPhase slotMatch ruleIds).sent := by
  rcases b.matchPhase_cases slotMatch ruleIds with
    ⟨hidle | hidle, -⟩ | ⟨t, rest', hq', heq⟩
  · rw [hidle] at hq
    exact absurd hq.symm (List.cons_ne_nil _ _)
  · rw [hidle] at hz
    exact absurd hz List.not_mem_nil
  · obtain rfl : s = t := (List.cons.inj (hq.symm.trans hq')).1
    obtain ⟨d, he, hd⟩ := (hmatch b.fw s ruleIds).ended hz
    have hslot : slotOf d.tag = s := by
      rw [hd]
      exact (h.configured s (h.ranged s k hk)).slotOf_tag
    rw [heq, if_pos hz, Bench.call_send he hslot]
    change k ∈ b.sent ++ (b.last s).toList
    rw [hk]
    exact List.mem_append_right _ List.mem_cons_self

end Match

end Rules

/-! ## Each slot is returned once -/

/-- What the book says to the outside.  No packet was sent twice, each call of `pkt_send` was
for a packet, and a packet that was not sent is with the matcher or in the reorder set, which
the counter counts. -/
structure Returns (b : Bench) : Prop where
  once : b.sent.Nodup
  calls : b.sends.map (fun d => some (slotOf d.tag)) = b.sent.map fun k => b.received[k]?
  received : ∀ k ∈ b.sent, k < b.received.length
  found : ∀ k, k < b.received.length → k ∈ b.sent ∨ ∃ s, b.received[k]? = some s ∧
    b.last s = some k ∧ (s ∈ b.queue ∨ s ∈ heldSlots b.fw.reorderSlots1hot)
  waiting : ∀ s, s ∈ b.queue ∨ s ∈ heldSlots b.fw.reorderSlots1hot →
    ∃ k, b.last s = some k ∧ k ∉ b.sent
  apart : ∀ s ∈ b.queue, s ∉ heldSlots b.fw.reorderSlots1hot
  counted : b.fw.reorderSlotCount.toNat = (heldSlots b.fw.reorderSlots1hot).card

theorem Inv.returns {n : Nat} {b : Bench} (h : Inv n none b) : Returns b where
  once := h.sound.sent_nodup
  calls := h.calls
  received := h.sound.sent_lt
  found k hk := by
    rcases h.sound.found k hk with hsent | ⟨s, hs, hq | hh | hn⟩
    · exact .inl hsent
    · exact .inr ⟨s, h.sound.last_at s k hs, hs, .inl hq⟩
    · exact .inr ⟨s, h.sound.last_at s k hs, hs, .inr hh⟩
    · exact absurd hn.symm (Option.some_ne_none _)
  waiting s hs := by
    rcases hs with hq | hh
    · exact h.sound.unsent s (.inl hq)
    · exact h.sound.unsent s (.inr (.inl hh))
  apart := h.sound.apart
  counted := h.counted

end Rosebud.PigasusSlots
