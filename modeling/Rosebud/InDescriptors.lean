import Rosebud.BasicFifo
import Rosebud.Clocked
import Rosebud.DescParser
import Rosebud.Selectors

/-! # Descriptors for the core, and the slots in use

The part of `rpu_intercon.v` between `recvd_data_fifo` and the core: an entry of the queue is
latched in one register, adjusted by the length of the load balancer's tag, and offered to the
core.  Two bits for each slot say whether the core has it (`slots_in_prog`) and whether its
packet is still to be sent (`slots_to_send`); an entry for a slot with one of them set is
taken from the queue and dropped, with a pulse of `in_desc_dupl_r`.

`Owner` is what the two bits stand for.  They follow it, with one exception: an entry that is
dropped because its slot waits to be sent sets `slots_in_prog` of a slot that the core does
not have, and nothing clears it (`slot_lost`).  `delivers_of_sane` says that nothing else is
wrong.
-/
namespace Rosebud.InDesc
open Clocked

/-- `SLOT_COUNT`, and the address width of `recvd_data_fifo`. -/
structure Config where
  slotCount : Nat
  aw : Nat
  aw_pos : 0 < aw

/-- `SLOT_WIDTH`. -/
def Config.slotWidth (P : Config) : Nat := clog2 (P.slotCount + 1)

variable {P : Config}

/-- The slot of a descriptor, `[16+:SLOT_WIDTH]`. -/
def slotOf (P : Config) (d : BitVec 64) : Nat := (d.extractLsb' 16 P.slotWidth).toNat

/-- The slots that exist. -/
def IsSlot (P : Config) (s : Nat) : Prop := 1 ≤ s ∧ s ≤ P.slotCount
deriving Decidable

/-- An entry of `recvd_data_fifo`. -/
structure Entry (P : Config) where
  desc : BitVec 64
  isSlot : IsSlot P (slotOf P desc)

def Entry.slot (x : Entry P) : Nat := slotOf P x.desc

structure Regs (P : Config) where
  recvdDataFifo : BasicFifo P.aw (Entry P)
  inDescValidR : Bool
  inDescR : BitVec 64
  doneWSlotR : Bool
  outDescSlotR : Nat
  slotsInProg : Nat → Bool
  slotsToSend : Nat → Bool
  inDescDuplR : Bool
  invSlotIntR : Bool
  outDescErr : Bool
  overrideInSlotErr : Nat → Bool
  overrideOutSlotErr : Nat → Bool
  invalidOutSlotErr : Nat → Bool

structure Inputs (P : Config) where
  recvDescValid : Bool
  recvDesc : Entry P
  lbTagLen : BitVec 16
  inDescTaken : Bool
  outDesc : DescParser.Beat
  queues : DescParser.Ready
  pktSentF : Bool
  pktSentDescF : BitVec 64

/-! ## The circuit -/

section Circuit
variable (r : Regs P) (i : Inputs P)

/-- A write to one bit; the vectors have the bits `SLOT_COUNT` to 1. -/
def setBit (P : Config) (bits : Nat → Bool) (s : Nat) (v : Bool) : Nat → Bool := fun k =>
  if k = s ∧ IsSlot P s then v else bits k

def doneWSlot : Bool :=
  (decide (DescParser.outDescType i.outDesc = 0) || decide (DescParser.outDescType i.outDesc = 1) ||
      decide (DescParser.outDescType i.outDesc = 2)) &&
    !i.outDesc.outDesc2nd && DescParser.taken i.outDesc i.queues

def outDescSlot : Nat := slotOf P i.outDesc.outDesc

def pktSentSlotF : Nat := slotOf P i.pktSentDescF

def inDescReadyN : Bool := i.inDescTaken || r.inDescDuplR || !r.inDescValidR

def inDescN : Entry P := r.recvdDataFifo.dout

/-- An entry is taken out of the queue. -/
def arrives : Bool := r.recvdDataFifo.doutValid && inDescReadyN r i

/-- Its slot is in use. -/
def inUse : Bool :=
  r.slotsToSend (inDescN r).slot || r.slotsInProg (inDescN r).slot

def inDescValid : Bool := r.inDescValidR && !r.inDescDuplR

/-- The address past the load balancer's tag, and the length without it. -/
def adjusted (d : BitVec 64) (lbTagLen : BitVec 16) : BitVec 64 :=
  (d.extractLsb' 32 32 + lbTagLen.setWidth 32) ++ d.extractLsb' 16 16 ++
    (d.extractLsb' 0 16 - lbTagLen)

def fifoInputs : BasicFifo.Inputs (Entry P) where
  rst := false
  clear := false
  dinValid := i.recvDescValid
  din := i.recvDesc
  doutReady := inDescReadyN r i

def slotsInProgNext : Nat → Bool :=
  let taken := if arrives r i then setBit P r.slotsInProg (inDescN r).slot true else r.slotsInProg
  if r.doneWSlotR then setBit P taken r.outDescSlotR false else taken

def slotsToSendNext : Nat → Bool :=
  let sent := if i.pktSentF then setBit P r.slotsToSend (pktSentSlotF i) false else r.slotsToSend
  if r.doneWSlotR then setBit P sent r.outDescSlotR true else sent

/-- The core gives back a slot it does not have. -/
def invalidOutSlot : Bool :=
  r.doneWSlotR && decide (r.outDescSlotR ≠ 0) && !r.slotsInProg r.outDescSlotR

/-- The core gives back a slot that is to be sent already. -/
def overrideOutSlot : Bool :=
  r.doneWSlotR && decide (r.outDescSlotR ≠ 0) && r.slotsToSend r.outDescSlotR

/-- The registers after the clock edge, outside reset and `core_reset`. -/
def next : Regs P where
  recvdDataFifo := r.recvdDataFifo.next (fifoInputs r i)
  inDescValidR :=
    if arrives r i then true
    else if i.inDescTaken || r.inDescDuplR then false else r.inDescValidR
  inDescR := if arrives r i then adjusted (inDescN r).desc i.lbTagLen else r.inDescR
  doneWSlotR := doneWSlot i
  outDescSlotR := outDescSlot i
  slotsInProg := slotsInProgNext r i
  slotsToSend := slotsToSendNext r i
  inDescDuplR := arrives r i && inUse r
  invSlotIntR := invalidOutSlot r
  outDescErr := invalidOutSlot r || overrideOutSlot r || r.outDescErr
  overrideInSlotErr :=
    if arrives r i && inUse r then setBit P r.overrideInSlotErr (inDescN r).slot true
    else r.overrideInSlotErr
  overrideOutSlotErr :=
    if overrideOutSlot r then setBit P r.overrideOutSlotErr r.outDescSlotR true
    else r.overrideOutSlotErr
  invalidOutSlotErr :=
    if invalidOutSlot r then setBit P r.invalidOutSlotErr r.outDescSlotR true
    else r.invalidOutSlotErr

end Circuit

/-! ## Who has a slot -/

inductive Owner where
  /-- Nobody: the next entry for the slot is for the core. -/
  | free
  /-- Its entry is offered to the core. -/
  | offered
  /-- The core has taken its entry and not given it back. -/
  | core
  /-- The core has given it back, and its packet has not been sent. -/
  | waiting
deriving DecidableEq

/-- An entry as it was taken out of the queue, and whether its slot had an owner. -/
structure Arrival (P : Config) where
  entry : Entry P
  lbTagLen : BitVec 16
  owned : Bool

/-- What the core gets of an entry. -/
def Arrival.offer (a : Arrival P) : BitVec 64 := adjusted a.entry.desc a.lbTagLen

structure Cycle (P : Config) where
  offer : Bool
  wires : Entry P
  lbTagLen : BitVec 16
  inDescTaken : Bool
  outDesc : DescParser.Beat
  queues : DescParser.Ready
  pktSentF : Bool
  pktSentDescF : BitVec 64

/-- The circuit between a source of entries, the core and the sending side.  `owner` and
`spoiled` are the history of the slots: `spoiled` are those for which an entry was dropped
while they waited to be sent. -/
structure Bench (P : Config) where
  regs : Regs P
  pending : List (Entry P)
  arrivals : List (Arrival P)
  delivered : List (BitVec 64)
  pulses : Nat
  owner : Nat → Owner
  spoiled : Nat → Bool

namespace Bench
variable (b : Bench P) (c : Cycle P) (s : Nat)

def inputs : Inputs P where
  recvDescValid := (bus b.pending c.offer c.wires).1
  recvDesc := (bus b.pending c.offer c.wires).2
  lbTagLen := c.lbTagLen
  inDescTaken := c.inDescTaken
  outDesc := c.outDesc
  queues := c.queues
  pktSentF := c.pktSentF
  pktSentDescF := c.pktSentDescF

/-- An entry for the slot is taken out of the queue. -/
def arrivesFor : Bool := arrives b.regs (b.inputs c) && decide ((inDescN b.regs).slot = s)

/-- The core takes the entry for the slot. -/
def deliversFor : Bool :=
  inDescValid b.regs && c.inDescTaken && decide (slotOf P b.regs.inDescR = s)

/-- The core gives the slot back. -/
def givesFor : Bool := doneWSlot (b.inputs c) && decide (outDescSlot (b.inputs c) = s)

/-- The slot is given back by a descriptor of the last cycle. -/
def giving : Bool := b.regs.doneWSlotR && decide (b.regs.outDescSlotR = s)

/-- The packet of the slot has been sent. -/
def sentFor : Bool := c.pktSentF && decide (pktSentSlotF (b.inputs c) = s)

/-- The owner of the slot after the cycle. -/
def ownerNext : Owner :=
  if b.givesFor c s then .waiting
  else match b.owner s with
    | .free => if b.arrivesFor c s then .offered else .free
    | .offered => if b.deliversFor c s then .core else .offered
    | .core => .core
    | .waiting => if b.sentFor c s then .free else .waiting

/-- The descriptor the core takes. -/
def delivers : List (BitVec 64) :=
  if inDescValid b.regs && c.inDescTaken then [b.regs.inDescR] else []

/-- The entry taken out of the queue. -/
def arriving : List (Arrival P) :=
  if arrives b.regs (b.inputs c) then
    [⟨inDescN b.regs, c.lbTagLen, decide (b.owner (inDescN b.regs).slot ≠ .free)⟩]
  else []

def step : Bench P where
  regs := next b.regs (b.inputs c)
  pending := rest b.pending
    ((bus b.pending c.offer c.wires).1 && b.regs.recvdDataFifo.dinReady)
  arrivals := b.arrivals ++ b.arriving c
  delivered := b.delivered ++ b.delivers c
  pulses := b.pulses + b.regs.inDescDuplR.toNat
  owner := b.ownerNext c
  spoiled := fun s => b.spoiled s ||
    (b.arrivesFor c s && decide (b.owner s = .waiting) && !b.giving s)

/-- Out of reset. -/
structure Start : Prop where
  recvdDataFifo : b.regs.recvdDataFifo.Fresh
  inDescValidR : b.regs.inDescValidR = false
  doneWSlotR : b.regs.doneWSlotR = false
  slotsInProg : ∀ s, b.regs.slotsInProg s = false
  slotsToSend : ∀ s, b.regs.slotsToSend s = false
  inDescDuplR : b.regs.inDescDuplR = false
  arrivals : b.arrivals = []
  delivered : b.delivered = []
  pulses : b.pulses = 0
  owner : ∀ s, b.owner s = .free
  spoiled : ∀ s, b.spoiled s = false

/-- The descriptor that is offered to the core. -/
def onOffer : List (BitVec 64) := if inDescValid b.regs then [b.regs.inDescR] else []

end Bench

/-- The core gives back slots that it has, and a packet is not sent in the cycle after its
descriptor. -/
def Proper (b : Bench P) (c : Cycle P) : Prop :=
  (doneWSlot (b.inputs c) = true → IsSlot P (outDescSlot (b.inputs c)) →
    b.owner (outDescSlot (b.inputs c)) = .core) ∧
  (c.pktSentF = true → b.giving (pktSentSlotF (b.inputs c)) = false)
deriving Decidable

/-- Once the packet of a slot has been sent, no entry arrives for it, if one was dropped while
the slot waited. -/
def Unspoiled (b : Bench P) (c : Cycle P) : Prop :=
  arrives b.regs (b.inputs c) = true → b.spoiled (inDescN b.regs).slot = true →
    b.owner (inDescN b.regs).slot = .waiting
deriving Decidable

def Sane (b : Bench P) (c : Cycle P) : Prop := Proper b c ∧ Unspoiled b c
deriving Decidable

/-! ## The bits of one slot -/

/-- A slot: its owner, its two bits, whether it is being given back, and whether it is
spoiled. -/
structure View where
  owner : Owner
  inProg : Bool
  toSend : Bool
  giving : Bool
  spoiled : Bool

/-- What happens to a slot in a cycle. -/
structure Events where
  arrives : Bool
  delivers : Bool
  gives : Bool
  sent : Bool

namespace View
variable (v : View) (e : Events)

def next : View where
  owner :=
    if e.gives then .waiting
    else match v.owner with
      | .free => if e.arrives then .offered else .free
      | .offered => if e.delivers then .core else .offered
      | .core => .core
      | .waiting => if e.sent then .free else .waiting
  inProg := if v.giving then false else if e.arrives then true else v.inProg
  toSend := if v.giving then true else if e.sent then false else v.toSend
  giving := e.gives
  spoiled := v.spoiled || (e.arrives && decide (v.owner = .waiting) && !v.giving)

/-- What the bits of a slot say about its owner. -/
def Law : Prop :=
  match v.owner with
  | .free => v.giving = false ∧ v.toSend = false ∧ v.inProg = v.spoiled
  | .offered => v.giving = false ∧ v.toSend = false ∧ v.inProg = true ∧ v.spoiled = false
  | .core => v.giving = false ∧ v.toSend = false ∧ v.inProg = true ∧ v.spoiled = false
  | .waiting =>
    (v.giving = true ∧ v.toSend = false ∧ v.inProg = true ∧ v.spoiled = false) ∨
      (v.giving = false ∧ v.toSend = true ∧ v.inProg = v.spoiled)

end View

section View
variable {v : View} {e : Events}

/-- **The bits of a slot follow its owner.** -/
theorem View.Law.next (h : v.Law) (hgives : e.gives = true → v.owner = .core)
    (hsent : e.sent = true → v.giving = false)
    (hfresh : e.arrives = true → v.spoiled = true → v.owner = .waiting) : (v.next e).Law := by
  obtain ⟨owner, inProg, toSend, giving, spoiled⟩ := v
  obtain ⟨arrives, delivers, gives, sent⟩ := e
  cases owner with
  | free =>
    obtain ⟨rfl, rfl, hbits⟩ := h
    obtain rfl : inProg = spoiled := hbits
    cases gives with
    | true => exact Owner.noConfusion (hgives rfl)
    | false =>
      cases arrives with
      | false => exact ⟨rfl, by cases sent <;> rfl, by cases inProg <;> rfl⟩
      | true =>
        -- an entry for a free slot finds it unspoiled
        cases inProg with
        | true => exact Owner.noConfusion (hfresh rfl rfl)
        | false => exact ⟨rfl, by cases sent <;> rfl, rfl, rfl⟩
  | offered =>
    obtain ⟨rfl, rfl, rfl, rfl⟩ := h
    cases gives with
    | true => exact Owner.noConfusion (hgives rfl)
    | false => cases delivers <;> cases arrives <;> cases sent <;> exact ⟨rfl, rfl, rfl, rfl⟩
  | core =>
    obtain ⟨rfl, rfl, rfl, rfl⟩ := h
    cases gives with
    | true => cases arrives <;> cases sent <;> exact .inl ⟨rfl, rfl, rfl, rfl⟩
    | false => cases arrives <;> cases sent <;> exact ⟨rfl, rfl, rfl, rfl⟩
  | waiting =>
    cases gives with
    | true => exact Owner.noConfusion (hgives rfl)
    | false =>
      rcases h with ⟨rfl, rfl, rfl, rfl⟩ | ⟨rfl, rfl, hbits⟩
      · -- the descriptor of the last cycle takes effect, whatever arrives
        cases sent with
        | true => exact Bool.noConfusion (hsent rfl)
        | false => cases arrives <;> exact .inr ⟨rfl, rfl, rfl⟩
      · obtain rfl : inProg = spoiled := hbits
        cases sent with
        | true => cases arrives <;> cases inProg <;> exact ⟨rfl, rfl, rfl⟩
        | false => cases arrives <;> cases inProg <;> exact .inr ⟨rfl, rfl, rfl⟩

/-- A slot is in use exactly if it has an owner. -/
theorem View.Law.inUse_iff (h : v.Law) (hfresh : v.spoiled = true → v.owner = .waiting) :
    (v.toSend || v.inProg) = decide (v.owner ≠ .free) := by
  obtain ⟨owner, inProg, toSend, giving, spoiled⟩ := v
  cases owner with
  | free =>
    obtain ⟨rfl, rfl, hbits⟩ := h
    obtain rfl : inProg = spoiled := hbits
    cases inProg with
    | false => rfl
    | true => exact Owner.noConfusion (hfresh rfl)
  | offered =>
    obtain ⟨rfl, rfl, rfl, rfl⟩ := h
    rfl
  | core =>
    obtain ⟨rfl, rfl, rfl, rfl⟩ := h
    rfl
  | waiting =>
    rcases h with ⟨rfl, rfl, rfl, rfl⟩ | ⟨rfl, rfl, -⟩
    · rfl
    · rfl

end View

/-! ## One cycle -/

def Bench.view (b : Bench P) (s : Nat) : View where
  owner := b.owner s
  inProg := b.regs.slotsInProg s
  toSend := b.regs.slotsToSend s
  giving := b.giving s
  spoiled := b.spoiled s

def Bench.events (b : Bench P) (c : Cycle P) (s : Nat) : Events where
  arrives := b.arrivesFor c s
  delivers := b.deliversFor c s
  gives := b.givesFor c s
  sent := b.sentFor c s

section Step
variable {b : Bench P} {c : Cycle P} {s : Nat} {stream : List (Entry P)}

theorem setBit_eq (hs : IsSlot P s) (cond : Bool) (bits : Nat → Bool) (k : Nat) (v : Bool) :
    (if cond then setBit P bits k v else bits) s =
      if cond && decide (k = s) then v else bits s := by
  cases cond with
  | false => rfl
  | true =>
    by_cases hk : k = s
    · simp [setBit, hk, hs]
    · simp [setBit, hk, Ne.symm hk]

theorem view_step (hs : IsSlot P s) (c : Cycle P) :
    (b.step c).view s = (b.view s).next (b.events c s) := by
  have hprog : slotsInProgNext b.regs (b.inputs c) s =
      if b.giving s then false else if b.arrivesFor c s then true else b.regs.slotsInProg s := by
    unfold slotsInProgNext
    rw [setBit_eq hs, setBit_eq hs]
    rfl
  have hsend : slotsToSendNext b.regs (b.inputs c) s =
      if b.giving s then true else if b.sentFor c s then false else b.regs.slotsToSend s := by
    unfold slotsToSendNext
    rw [setBit_eq hs, setBit_eq hs]
    rfl
  change View.mk (b.ownerNext c s) (slotsInProgNext b.regs (b.inputs c) s)
    (slotsToSendNext b.regs (b.inputs c) s) (b.givesFor c s) _ = _
  rw [hprog, hsend]
  rfl

/-- What holds in every state that is reached. -/
structure Inv (stream : List (Entry P)) (b : Bench P) : Prop where
  fifo : b.regs.recvdDataFifo.Valid
  law : ∀ s, IsSlot P s → (b.view s).Law
  stream : b.arrivals.map Arrival.entry ++ b.regs.recvdDataFifo.contents ++ b.pending = stream
  kept : b.delivered ++ b.onOffer = (b.arrivals.filter fun a => !a.owned).map Arrival.offer
  dropped : b.pulses + b.regs.inDescDuplR.toNat = (b.arrivals.filter fun a => a.owned).length

theorem Bench.Start.inv (h : b.Start) : Inv b.pending b where
  fifo := h.recvdDataFifo.valid
  law s _ := by
    have howner : (b.view s).owner = .free := h.owner s
    have hgiving : (b.view s).giving = false := by
      change (b.regs.doneWSlotR && _) = false
      rw [h.doneWSlotR]
      rfl
    have hbits : (b.view s).inProg = (b.view s).spoiled :=
      (h.slotsInProg s).trans (h.spoiled s).symm
    unfold View.Law
    rw [howner]
    exact ⟨hgiving, h.slotsToSend s, hbits⟩
  stream := by
    rw [h.arrivals, h.recvdDataFifo.contents_eq]
    rfl
  kept := by
    rw [h.arrivals, h.delivered, Bench.onOffer, inDescValid, h.inDescValidR]
    rfl
  dropped := by
    rw [h.arrivals, h.pulses, h.inDescDuplR]
    rfl

theorem law_step (h : ∀ s, IsSlot P s → (b.view s).Law) (hsane : Sane b c) (hs : IsSlot P s) :
    ((b.step c).view s).Law := by
  rw [view_step hs]
  refine (h s hs).next ?_ ?_ ?_
  · intro hg
    obtain ⟨hdone, hslot⟩ := Bool.and_eq_true_iff.mp hg
    have hout : outDescSlot (b.inputs c) = s := of_decide_eq_true hslot
    have hcore := hsane.1.1 hdone (hout ▸ hs)
    rw [hout] at hcore
    exact hcore
  · intro hp
    obtain ⟨hsent, hslot⟩ := Bool.and_eq_true_iff.mp hp
    have hno := hsane.1.2 hsent
    rw [of_decide_eq_true hslot] at hno
    exact hno
  · intro ha hspoiled
    obtain ⟨harr, hslot⟩ := Bool.and_eq_true_iff.mp ha
    have hin : (inDescN b.regs).slot = s := of_decide_eq_true hslot
    have hwait := hsane.2 harr (hin ▸ hspoiled)
    rw [hin] at hwait
    exact hwait

/-- **The drop is right**: an entry is dropped exactly if its slot has an owner. -/
theorem inUse_eq (h : ∀ s, IsSlot P s → (b.view s).Law) (hsane : Sane b c)
    (harr : arrives b.regs (b.inputs c) = true) :
    inUse b.regs = decide (b.owner (inDescN b.regs).slot ≠ .free) :=
  (h _ (inDescN b.regs).isSlot).inUse_iff (hsane.2 harr)

theorem Bench.pending_step (b : Bench P) (c : Cycle P) :
    b.pending = (if b.regs.recvdDataFifo.enque (fifoInputs b.regs (b.inputs c)) then
      [(b.inputs c).recvDesc] else []) ++ (b.step c).pending := by
  exact taken_append_rest fun h => (Bool.and_eq_true_iff.mp h).1

theorem stream_step (h : Inv stream b) (c : Cycle P) :
    (b.step c).arrivals.map Arrival.entry ++ (b.step c).regs.recvdDataFifo.contents ++
      (b.step c).pending = stream := by
  have hcons := BasicFifo.conservation (i := fifoInputs b.regs (b.inputs c)) h.fifo rfl
  have harriving : (b.arriving c).map Arrival.entry =
      if b.regs.recvdDataFifo.deque (fifoInputs b.regs (b.inputs c)) then
        [b.regs.recvdDataFifo.dout] else [] := by
    change (if arrives b.regs (b.inputs c) then _ else _ : List (Arrival P)).map _ =
      if arrives b.regs (b.inputs c) then _ else _
    split <;> rfl
  have hpend := b.pending_step c
  rw [← h.stream]
  change (b.arrivals ++ b.arriving c).map Arrival.entry ++
    (b.regs.recvdDataFifo.next (fifoInputs b.regs (b.inputs c))).contents ++ _ = _
  rw [List.map_append, harriving, List.append_assoc (b.arrivals.map _), ← hcons]
  conv_rhs => rw [hpend]
  simp only [List.append_assoc]
  rfl

/-- An entry that arrives leaves nothing on offer that the core does not take. -/
theorem delivers_of_arrives (harr : arrives b.regs (b.inputs c) = true) :
    b.delivers c = b.onOffer := by
  have hready : inDescReadyN b.regs (b.inputs c) = true := (Bool.and_eq_true_iff.mp harr).2
  unfold Bench.delivers Bench.onOffer inDescValid
  change (c.inDescTaken || b.regs.inDescDuplR || !b.regs.inDescValidR) = true at hready
  cases ht : c.inDescTaken <;> cases hd : b.regs.inDescDuplR <;>
    cases hv : b.regs.inDescValidR <;> simp [ht, hd, hv] at hready ⊢

theorem kept_step (h : Inv stream b) (hsane : Sane b c) :
    (b.step c).delivered ++ (b.step c).onOffer =
      ((b.step c).arrivals.filter fun a => !a.owned).map Arrival.offer := by
  change (b.delivered ++ b.delivers c) ++ (b.step c).onOffer =
    ((b.arrivals ++ b.arriving c).filter _).map _
  rw [List.filter_append, List.map_append, ← h.kept]
  unfold Bench.arriving
  cases harr : arrives b.regs (b.inputs c) with
  | true =>
    have huse := inUse_eq h.law hsane harr
    have hoffer : (b.step c).onOffer =
        if inUse b.regs then [] else [adjusted (inDescN b.regs).desc c.lbTagLen] := by
      unfold Bench.onOffer inDescValid
      change (if (if arrives b.regs (b.inputs c) then true else _) &&
        !(arrives b.regs (b.inputs c) && inUse b.regs) then
          [if arrives b.regs (b.inputs c) then _ else _] else []) = _
      rw [harr]
      cases inUse b.regs <;> rfl
    rw [delivers_of_arrives harr, hoffer, huse]
    by_cases hfree : b.owner (inDescN b.regs).slot = .free <;> simp [hfree, Arrival.offer]
  | false =>
    have hoffer : b.delivers c ++ (b.step c).onOffer = b.onOffer := by
      unfold Bench.delivers Bench.onOffer inDescValid
      change _ ++ (if (if arrives b.regs (b.inputs c) then true
          else if c.inDescTaken || b.regs.inDescDuplR then false else b.regs.inDescValidR) &&
        !(arrives b.regs (b.inputs c) && inUse b.regs) then
          [if arrives b.regs (b.inputs c) then _ else b.regs.inDescR] else []) = _
      rw [harr]
      cases c.inDescTaken <;> cases b.regs.inDescDuplR <;> cases b.regs.inDescValidR <;> rfl
    rw [List.append_assoc, hoffer]
    exact (List.append_nil _).symm

theorem dropped_step (h : Inv stream b) (hsane : Sane b c) :
    (b.step c).pulses + (b.step c).regs.inDescDuplR.toNat =
      ((b.step c).arrivals.filter fun a => a.owned).length := by
  change (b.pulses + b.regs.inDescDuplR.toNat) +
    (arrives b.regs (b.inputs c) && inUse b.regs).toNat =
      ((b.arrivals ++ b.arriving c).filter _).length
  rw [List.filter_append, List.length_append, ← h.dropped]
  unfold Bench.arriving
  cases harr : arrives b.regs (b.inputs c) with
  | true =>
    rw [inUse_eq h.law hsane harr]
    by_cases hfree : b.owner (inDescN b.regs).slot = .free <;> simp [hfree]
  | false => rfl

theorem Inv.step (h : Inv stream b) (hsane : Sane b c) : Inv stream (b.step c) where
  fifo := h.fifo.next P.aw_pos (fifoInputs b.regs (b.inputs c))
  law _ hs := law_step h.law hsane hs
  stream := stream_step h c
  kept := kept_step h hsane
  dropped := dropped_step h hsane

end Step

/-! ## Progress -/

/-- What is left to do: to put the entries into the queue, to take them out of it, to deliver
the one in the register, and to get ready. -/
def Bench.left (b : Bench P) : Nat :=
  4 * b.pending.length + 2 * b.regs.recvdDataFifo.contents.length + b.regs.inDescValidR.toNat +
    (!b.regs.recvdDataFifo.dinReady).toNat

/-- A cycle in which an entry is offered, if there is one, and the core takes what it is
offered. -/
def Feeds (_ : Bench P) (c : Cycle P) : Prop := c.offer = true ∧ c.inDescTaken = true
deriving Decidable

section Progress
variable {b : Bench P} {c : Cycle P}

theorem pending_length (b : Bench P) (c : Cycle P) :
    (b.step c).pending.length +
      (b.regs.recvdDataFifo.enque (fifoInputs b.regs (b.inputs c))).toNat = b.pending.length := by
  have hlen := congrArg List.length (b.pending_step c)
  rw [List.length_append] at hlen
  cases he : b.regs.recvdDataFifo.enque (fifoInputs b.regs (b.inputs c)) <;>
    simp only [he, if_true, Bool.false_eq_true, if_false, List.length_nil, List.length_singleton,
      Bool.toNat_true, Bool.toNat_false] at hlen ⊢ <;> omega

theorem contents_length (h : b.regs.recvdDataFifo.Valid) (c : Cycle P) :
    (b.step c).regs.recvdDataFifo.contents.length + (arrives b.regs (b.inputs c)).toNat =
      b.regs.recvdDataFifo.contents.length +
        (b.regs.recvdDataFifo.enque (fifoInputs b.regs (b.inputs c))).toNat := by
  have hlen := congrArg List.length
    (BasicFifo.conservation (i := fifoInputs b.regs (b.inputs c)) h rfl)
  change _ = ((if arrives b.regs (b.inputs c) then _ else _) ++
    (b.step c).regs.recvdDataFifo.contents).length at hlen
  rw [List.length_append, List.length_append] at hlen
  cases he : b.regs.recvdDataFifo.enque (fifoInputs b.regs (b.inputs c)) <;>
    cases ha : arrives b.regs (b.inputs c) <;>
    simp only [he, ha, if_true, Bool.false_eq_true, if_false, List.length_nil,
      List.length_singleton, Bool.toNat_true, Bool.toNat_false] at hlen ⊢ <;> omega

/-- No cycle adds to what is left. -/
theorem left_next (h : b.regs.recvdDataFifo.Valid) (c : Cycle P) :
    (b.step c).left + (arrives b.regs (b.inputs c)).toNat +
      (b.regs.recvdDataFifo.enque (fifoInputs b.regs (b.inputs c))).toNat ≤ b.left := by
  have hpend := pending_length b c
  have hcont := contents_length h c
  have hvalid : (b.step c).regs.inDescValidR.toNat ≤
      b.regs.inDescValidR.toNat + (arrives b.regs (b.inputs c)).toNat := by
    change (if arrives b.regs (b.inputs c) then true
      else if c.inDescTaken || b.regs.inDescDuplR then false else b.regs.inDescValidR).toNat ≤ _
    cases arrives b.regs (b.inputs c) <;> cases c.inDescTaken <;> cases b.regs.inDescDuplR <;>
      cases b.regs.inDescValidR <;> decide
  have hready : (!(b.step c).regs.recvdDataFifo.dinReady).toNat ≤
      (!b.regs.recvdDataFifo.dinReady).toNat +
        (b.regs.recvdDataFifo.enque (fifoInputs b.regs (b.inputs c))).toNat := by
    cases he : b.regs.recvdDataFifo.enque (fifoInputs b.regs (b.inputs c)) with
    | true => exact Nat.le_trans (Bool.toNat_le _) (Nat.le_add_left _ _)
    | false =>
      cases hr : b.regs.recvdDataFifo.dinReady with
      | false => exact Nat.le_trans (Bool.toNat_le _) (Nat.le_add_right _ _)
      | true =>
        have hkeep := BasicFifo.dinReady_next (i := fifoInputs b.regs (b.inputs c)) h rfl hr he
        rw [show (b.step c).regs.recvdDataFifo.dinReady = true from hkeep]
        decide
  unfold Bench.left
  omega

/-- **With entries on offer and a core that takes them something moves**, as long as anything
is left to do. -/
theorem left_step (h : b.regs.recvdDataFifo.Valid) (c : Cycle P) :
    (b.step c).left ≤ b.left - if Feeds b c then 1 else 0 := by
  have hnext := left_next h c
  by_cases hfeed : Feeds b c
  · rw [if_pos hfeed]
    cases harr : arrives b.regs (b.inputs c) with
    | true =>
      rw [harr, Bool.toNat_true] at hnext
      omega
    | false =>
      cases he : b.regs.recvdDataFifo.enque (fifoInputs b.regs (b.inputs c)) with
      | true =>
        rw [he, Bool.toNat_true] at hnext
        omega
      | false =>
        have hpend := pending_length b c
        have hcont := contents_length h c
        rw [harr, he, Bool.toNat_false] at hcont
        -- the core takes, so that an entry in the queue would arrive
        have hempty : b.regs.recvdDataFifo.contents = [] := by
          have hready : inDescReadyN b.regs (b.inputs c) = true := by
            change (c.inDescTaken || _ || _) = true
            rw [hfeed.2]
            rfl
          have hv : b.regs.recvdDataFifo.doutValid = false := by
            unfold arrives at harr
            rwa [hready, Bool.and_true] at harr
          rw [h.doutValid_eq] at hv
          simpa using hv
        have hvalid : (b.step c).regs.inDescValidR = false := by
          change (if arrives b.regs (b.inputs c) then true
            else if c.inDescTaken || b.regs.inDescDuplR then false else _) = false
          rw [harr, hfeed.2]
          rfl
        have hready : (b.step c).regs.recvdDataFifo.dinReady = true := by
          refine BasicFifo.dinReady_next_of_lt (i := fifoInputs b.regs (b.inputs c)) h rfl ?_
          change (b.step c).regs.recvdDataFifo.contents.length < 2 ^ P.aw
          have hpos := Nat.two_pow_pos P.aw
          rw [hempty, List.length_nil] at hcont
          omega
        have hnone : b.regs.recvdDataFifo.dinReady = true → b.pending.length = 0 := by
          intro hr
          cases hp : b.pending with
          | nil => rfl
          | cons x xs =>
            change ((bus b.pending c.offer c.wires).1 && b.regs.recvdDataFifo.dinReady) = false
              at he
            rw [hp, hfeed.1, hr] at he
            exact absurd he Bool.true_eq_false.mp
        unfold Bench.left
        rw [hvalid, hready]
        cases hr : b.regs.recvdDataFifo.dinReady with
        | true =>
          have hzero := hnone hr
          simp only [Bool.not_true, Bool.toNat_false]
          rw [hempty] at hcont ⊢
          simp only [List.length_nil] at hcont ⊢
          omega
        | false =>
          simp only [Bool.not_true, Bool.not_false, Bool.toNat_false, Bool.toNat_true]
          omega
  · rw [if_neg hfeed]
    omega

theorem empty_of_left (h : b.left = 0) :
    b.pending = [] ∧ b.regs.recvdDataFifo.contents = [] ∧ b.onOffer = [] := by
  unfold Bench.left at h
  have hvalid : b.regs.inDescValidR = false := by
    cases hv : b.regs.inDescValidR with
    | false => rfl
    | true =>
      rw [hv, Bool.toNat_true] at h
      omega
  refine ⟨List.length_eq_zero_iff.mp (by omega), List.length_eq_zero_iff.mp (by omega), ?_⟩
  rw [Bench.onOffer, inDescValid, hvalid]
  rfl

end Progress

/-! ## Runs -/

section Runs

def sampleConfig : Config := ⟨2, 1, Nat.one_pos⟩

/-- Eight bytes at address 64, in slot 1. -/
def sampleEntry : Entry sampleConfig := ⟨64#32 ++ 1#16 ++ 8#16, by decide⟩

def sampleBench (entries : List (Entry sampleConfig)) : Bench sampleConfig where
  regs :=
    { recvdDataFifo := ⟨fun _ => sampleEntry, 0, 0, false, false, 0⟩
      inDescValidR := false
      inDescR := 0
      doneWSlotR := false
      outDescSlotR := 0
      slotsInProg := fun _ => false
      slotsToSend := fun _ => false
      inDescDuplR := false
      invSlotIntR := false
      outDescErr := false
      overrideInSlotErr := fun _ => false
      overrideOutSlotErr := fun _ => false
      invalidOutSlotErr := fun _ => false }
  pending := entries
  arrivals := []
  delivered := []
  pulses := 0
  owner := fun _ => .free
  spoiled := fun _ => false

theorem sampleBench_start (entries : List (Entry sampleConfig)) : (sampleBench entries).Start :=
  ⟨⟨rfl, rfl, rfl, rfl, rfl⟩, rfl, rfl, fun _ => rfl, fun _ => rfl, rfl, rfl, rfl, rfl,
    fun _ => rfl, fun _ => rfl⟩

/-- A cycle of a core that takes what it is offered: an entry is offered, slot 1 is given
back with a descriptor of type 0, and its packet has been sent. -/
def cycle (offer gives sent : Bool) : Cycle sampleConfig where
  offer := offer
  wires := sampleEntry
  lbTagLen := 4
  inDescTaken := true
  outDesc := ⟨1#48 ++ 8#16, false, gives⟩
  queues := ⟨true, true, true, true⟩
  pktSentF := sent
  pktSentDescF := 1#48 ++ 8#16

/-- A second entry comes while the slot waits to be sent, and a third one afterwards. -/
def lateEntry : List (Cycle sampleConfig) :=
  [cycle false false false, cycle true false false, cycle false false false,
    cycle false false false, cycle false true false, cycle true false false,
    cycle false false false, cycle false false true, cycle true false false,
    cycle false false false, cycle false false false, cycle false false false]

/-- The third entry is for a free slot, and is dropped like the second. -/
theorem slot_lost :
    let b := sampleBench [sampleEntry, sampleEntry, sampleEntry]
    let e := run Bench.step b lateEntry
    Meets Bench.step Proper b lateEntry ∧
      e.arrivals.map Arrival.owned = [false, true, false] ∧ e.pulses = 2 ∧
      e.delivered = [68#32 ++ 1#16 ++ 4#16] ∧ e.onOffer = [] := by
  decide +kernel

/-- **Entries are delivered in order, and dropped exactly if their slot has an owner**, in
every run in which the core gives back slots that it has and no entry comes for a spoiled
slot after its packet was sent.  The entries taken out of the queue are the first ones that
were offered; those whose slot was free then have been offered to the core, in order and
once, with the tag taken off; each of the others has made one pulse of `in_desc_dupl_r`.
After `Bench.left` cycles with an entry on offer and a core that takes them, all are done. -/
theorem delivers_of_sane {b : Bench P} (hstart : b.Start) {cycles : List (Cycle P)}
    (hsane : Meets Bench.step Sane b cycles) :
    let e := run Bench.step b cycles
    e.arrivals.map Arrival.entry ++ e.regs.recvdDataFifo.contents ++ e.pending = b.pending ∧
    e.delivered ++ e.onOffer = (e.arrivals.filter fun a => !a.owned).map Arrival.offer ∧
    e.pulses + e.regs.inDescDuplR.toNat = (e.arrivals.filter fun a => a.owned).length ∧
    (b.left ≤ tally Bench.step Feeds b cycles →
      e.arrivals.map Arrival.entry = b.pending ∧
        e.delivered = (e.arrivals.filter fun a => !a.owned).map Arrival.offer) := by
  intro e
  have hinit : Inv b.pending b := hstart.inv
  have hkeep : ∀ s c, Inv b.pending s → Sane s c → Inv b.pending (s.step c) :=
    fun _ _ h hc => h.step hc
  have hinv : Inv b.pending e := run_invariant hkeep hinit hsane
  refine ⟨hinv.stream, hinv.kept, hinv.dropped, fun hfed => ?_⟩
  have hrank := run_exhausts (D := Feeds) (m := Bench.left) hkeep
    (fun s c h _ => left_step h.fifo c) hinit hsane
  have hleft : e.left = 0 := Nat.le_zero.mp (Nat.le_trans hrank (by omega))
  obtain ⟨hpend, hcont, hoffer⟩ := empty_of_left hleft
  have hstream := hinv.stream
  have hkept := hinv.kept
  rw [hcont, hpend, List.append_nil, List.append_nil] at hstream
  rw [hoffer, List.append_nil] at hkept
  exact ⟨hstream, hkept⟩

/-- A second entry while the core has the slot, and a third one after the packet was sent. -/
def earlyEntry : List (Cycle sampleConfig) :=
  [cycle false false false, cycle true false false, cycle true false false,
    cycle false false false, cycle false false false, cycle false true false,
    cycle false false false, cycle false false true] ++
    List.replicate 16 (cycle true false false)

theorem delivers_of_sane_earlyEntry :
    let b := sampleBench [sampleEntry, sampleEntry, sampleEntry]
    let e := run Bench.step b earlyEntry
    e.arrivals.map Arrival.owned = [false, true, false] ∧ e.pulses = 1 ∧
      e.delivered = [68#32 ++ 1#16 ++ 4#16, 68#32 ++ 1#16 ++ 4#16] ∧
      e.arrivals.map Arrival.entry = b.pending ∧
      e.delivered = (e.arrivals.filter fun a => !a.owned).map Arrival.offer :=
  ⟨by decide +kernel, by decide +kernel, by decide +kernel,
    (delivers_of_sane (sampleBench_start [sampleEntry, sampleEntry, sampleEntry])
      (by decide +kernel : Meets Bench.step Sane _ earlyEntry)).2.2.2 (by decide +kernel)⟩

end Runs

end Rosebud.InDesc
