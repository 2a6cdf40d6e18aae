import Rosebud.Clocked
import Rosebud.PcieSlots

/-! # `pcie_cont_read`

Reads of host memory, asked for by the host or by a core.  A request is given a slot of
the scratchpad; its length, its destination and its tag are written into tables at that
slot, and a descriptor goes to the PCIe engine, which fetches the bytes into the region
of the slot.  When the engine reports the slot's tag, a descriptor made from the tables
goes to the client that forwards the region to the core, and when the client reports
the slot it is free again.

The bench runs the controller with its two vendored neighbours.  The PCIe engine holds
any number of descriptors and writes their bytes in any order and at any time; it
reports a descriptor when all its bytes are written.  The client does the same with
reads.  The bytes the engine fetched are recorded per slot next to the scratchpad, so
that what the client forwards can be compared with them.

`Booked` is what the bookkeeping keeps for requests of any length: the bitmap is the
complement of the slots in flight, neither descriptor queue is ever pushed when full,
and every descriptor carries the region and the length of its slot.
-/
namespace Rosebud
open Clocked PcieParams

variable (p : PcieParams)

/-- `axis_read_desc_*`: an order to the client. -/
structure AxisReadDesc where
  addr : BitVec p.ramAddrWidth
  len : BitVec 16
  tag : p.Slot
  dest : p.CoreTag
  user : BitVec p.coreAddrWidth
deriving DecidableEq, Inhabited

/-- `cores_ctrl_s_*`. -/
structure CoreReadReq where
  tdata : BitVec 128
  tuser : BitVec p.coreWidth

/-- What is saved of a request and what its descriptor is made of. -/
structure ReadRequest where
  pcieAddr : BitVec 64
  len : BitVec 16
  coreAddr : BitVec p.coreAddrWidth
  coreTag : p.CoreTag
  pcieTag : BitVec 32

structure PcieContRead where
  rxLen : p.Slot → BitVec 16
  rxCoreAddr : p.Slot → BitVec p.coreAddrWidth
  rxCoreTag : p.Slot → p.CoreTag
  rxPcieTag : p.Slot → BitVec 32
  rxSlot : BitVec p.slotCount
  pcieDmaReadDesc : PcieDesc p
  pcieDmaReadDescValid : Bool
  axisReadDesc : AxisReadDesc p
  axisReadDescValid : Bool
  hostStatusTag : BitVec 32
  hostStatusValid : Bool
  pcieDmaReadDescFifo : BasicFifo p.slotWidth (PcieDesc p)
  axisReadDescFifo : BasicFifo p.slotWidth (AxisReadDesc p)
deriving Inhabited

namespace PcieContRead

structure Inputs where
  rst : Bool
  hostValid : Bool
  host : HostDesc
  coresValid : Bool
  cores : CoreReadReq p
  pcieReady : Bool
  pcieStatusValid : Bool
  pcieStatusTag : p.Tag
  axisReady : Bool
  axisStatusValid : Bool
  axisStatusTag : p.Slot

variable {p}

/-! ## The module -/

section Module

/-- The request a host descriptor makes. -/
def ofHost (d : HostDesc) : ReadRequest p where
  pcieAddr := d.pcieAddr
  len := d.len
  coreAddr := d.ramAddr.extractLsb' 0 p.coreAddrWidth
  coreTag := d.ramAddr.extractLsb' p.coreAddrWidth p.coreWidth ++ (0 : BitVec p.coreTagWidth)
  pcieTag := d.tag

/-- The request of a core; its PCIe tag is zero. -/
def ofCore (r : CoreReadReq p) : ReadRequest p where
  pcieAddr := r.tdata.extractLsb' 64 64
  len := r.tdata.extractLsb' 0 16
  coreAddr := r.tdata.extractLsb' 32 p.coreAddrWidth
  coreTag := r.tuser ++ r.tdata.extractLsb' 16 p.coreTagWidth
  pcieTag := 0

variable (s : PcieContRead p) (i : Inputs p)

def selectedRxSlot : p.Slot := (PcieSlots.select s.rxSlot).1

def selectedRxSlotV : Bool := s.rxSlot != 0

def hostReady : Bool := s.pcieDmaReadDescFifo.dinReady && s.selectedRxSlotV

/-- Requests of the cores wait for those of the host. -/
def coresReady : Bool :=
  s.pcieDmaReadDescFifo.dinReady && s.selectedRxSlotV && !i.hostValid

/-- The request accepted in this cycle. -/
def request : Option (ReadRequest p) :=
  if i.hostValid && s.hostReady then some (ofHost i.host)
  else if i.coresValid && s.coresReady i then some (ofCore i.cores)
  else none

/-- A table, with the accepted request saved at the selected slot. -/
def save {α : Type} (table : p.Slot → α) (field : ReadRequest p → α) : p.Slot → α :=
  match s.request i with
  | some r => Function.update table s.selectedRxSlot (field r)
  | none => table

def pcieFifoInputs : BasicFifo.Inputs (PcieDesc p) :=
  ⟨i.rst, false, s.pcieDmaReadDescValid, s.pcieDmaReadDesc, i.pcieReady⟩

def axisFifoInputs : BasicFifo.Inputs (AxisReadDesc p) :=
  ⟨i.rst, false, s.axisReadDescValid, s.axisReadDesc, i.axisReady⟩

/-- The registers after the clock edge. -/
def next : PcieContRead p where
  rxLen := s.save i s.rxLen ReadRequest.len
  rxCoreAddr := s.save i s.rxCoreAddr ReadRequest.coreAddr
  rxCoreTag := s.save i s.rxCoreTag ReadRequest.coreTag
  rxPcieTag := s.save i s.rxPcieTag ReadRequest.pcieTag
  rxSlot :=
    if i.rst then BitVec.allOnes p.slotCount
    else PcieSlots.update s.rxSlot (s.request i).isSome i.axisStatusValid i.axisStatusTag.toNat
  pcieDmaReadDesc :=
    match s.request i with
    | some r => ⟨r.pcieAddr, regionStart s.selectedRxSlot, r.len, tagOf s.selectedRxSlot⟩
    | none => s.pcieDmaReadDesc
  pcieDmaReadDescValid := !i.rst && (s.request i).isSome
  axisReadDesc :=
    if i.pcieStatusValid then
      { addr := regionStart i.pcieStatusTag
        len := s.rxLen (slotOf i.pcieStatusTag)
        tag := slotOf i.pcieStatusTag
        dest := s.rxCoreTag (slotOf i.pcieStatusTag)
        user := s.rxCoreAddr (slotOf i.pcieStatusTag) }
    else s.axisReadDesc
  axisReadDescValid := !i.rst && i.pcieStatusValid
  hostStatusTag :=
    if i.axisStatusValid && s.rxPcieTag i.axisStatusTag != 0 then s.rxPcieTag i.axisStatusTag
    else s.hostStatusTag
  hostStatusValid :=
    !i.rst && (i.axisStatusValid && s.rxPcieTag i.axisStatusTag != 0)
  pcieDmaReadDescFifo := s.pcieDmaReadDescFifo.next (s.pcieFifoInputs i)
  axisReadDescFifo := s.axisReadDescFifo.next (s.axisFifoInputs i)

end Module

/-- The registers a reset leaves; the tables and the descriptors hold anything. -/
structure Fresh (s : PcieContRead p) : Prop where
  rxSlot : s.rxSlot = BitVec.allOnes p.slotCount
  pcieDesc : s.pcieDmaReadDescValid = false
  axisDesc : s.axisReadDescValid = false
  hostStatus : s.hostStatusValid = false
  pcieFifo : s.pcieDmaReadDescFifo.Fresh
  axisFifo : s.axisReadDescFifo.Fresh

/-- A request is accepted only with a slot to give it. -/
theorem rxSlot_ne_zero {s : PcieContRead p} {i : Inputs p} (h : (s.request i).isSome = true) :
    s.rxSlot ≠ 0 := by
  intro hz
  simp [request, hostReady, coresReady, selectedRxSlotV, hz] at h

/-! ## The bench -/

/-- A descriptor in the PCIe engine, with the bytes of it still to be written. -/
structure Fetch (p : PcieParams) where
  desc : PcieDesc p
  left : List Nat

/-- A descriptor in the client, with the bytes of it still to be forwarded. -/
structure Forward (p : PcieParams) where
  desc : AxisReadDesc p
  left : List Nat

/-- A forwarded byte: for which descriptor, which byte of it, what the client read, and
what the engine had fetched for the request that holds the slot. -/
structure Forwarded (p : PcieParams) where
  desc : AxisReadDesc p
  offset : Nat
  byte : BitVec 8
  fetched : Option (BitVec 8)

structure Bench (p : PcieParams) where
  regs : PcieContRead p
  fetching : List (Fetch p)
  forwarding : List (Forward p)
  ram : Nat → BitVec 8
  fetched : p.Slot → Nat → Option (BitVec 8)
  forwarded : List (Forwarded p)

/-- A byte the engine writes: of which of its descriptors, which byte, and its value. -/
structure Write where
  index : Nat
  offset : Nat
  byte : BitVec 8

/-- What the surroundings do in a cycle.  Descriptors in the engine and in the client are
named by their positions there. -/
structure Cycle (p : PcieParams) where
  hostValid : Bool
  host : HostDesc
  coresValid : Bool
  cores : CoreReadReq p
  pcieReady : Bool
  writes : List Write
  complete : Option Nat
  axisReady : Bool
  reads : List (Nat × Nat)
  finish : Option Nat

namespace Bench
open PcieSlots (dropReported dropReported_perm stage_perm)

/-- The scratchpad byte `offset` bytes from an address; addresses wrap at the size. -/
def byteAt (addr : BitVec p.ramAddrWidth) (offset : Nat) : Nat :=
  (addr.toNat + offset) % p.ramSize

/-- The engine writes a byte it has still to write. -/
def write (b : Bench p) (w : Write) : Bench p :=
  match b.fetching[w.index]? with
  | none => b
  | some f =>
    if w.offset ∈ f.left then
      { b with
        fetching := b.fetching.set w.index { f with left := f.left.erase w.offset }
        ram := Function.update b.ram (byteAt f.desc.ramAddr w.offset) w.byte
        fetched := Function.update b.fetched (slotOf f.desc.tag)
          (Function.update (b.fetched (slotOf f.desc.tag)) w.offset (some w.byte)) }
    else b

/-- The client reads a byte it has still to forward. -/
def read (b : Bench p) (r : Nat × Nat) : Bench p :=
  match b.forwarding[r.1]? with
  | none => b
  | some f =>
    if r.2 ∈ f.left then
      { b with
        forwarding := b.forwarding.set r.1 { f with left := f.left.erase r.2 }
        forwarded := b.forwarded ++
          [⟨f.desc, r.2, b.ram (byteAt f.desc.addr r.2), b.fetched f.desc.tag r.2⟩] }
    else b

/-- The descriptor the engine reports: one with nothing left to write. -/
def completing (b : Bench p) (c : Cycle p) : Option (Fetch p) :=
  (c.complete.bind (b.fetching[·]?)).filter fun f => f.left.isEmpty

/-- The descriptor the client reports: one with nothing left to forward. -/
def finishing (b : Bench p) (c : Cycle p) : Option (Forward p) :=
  (c.finish.bind (b.forwarding[·]?)).filter fun f => f.left.isEmpty

def inputs (b : Bench p) (c : Cycle p) : Inputs p where
  rst := false
  hostValid := c.hostValid
  host := c.host
  coresValid := c.coresValid
  cores := c.cores
  pcieReady := c.pcieReady
  pcieStatusValid := (b.completing c).isSome
  pcieStatusTag := ((b.completing c).map (·.desc.tag)).getD 0
  axisReady := c.axisReady
  axisStatusValid := (b.finishing c).isSome
  axisStatusTag := ((b.finishing c).map (·.desc.tag)).getD 0

@[simp] theorem rst_inputs (b : Bench p) (c : Cycle p) : (b.inputs c).rst = false := rfl

/-- The descriptors the engine and the client take from the queues. -/
def newFetches (b : Bench p) (c : Cycle p) : List (Fetch p) :=
  if b.regs.pcieDmaReadDescFifo.doutValid && c.pcieReady then
    [⟨b.regs.pcieDmaReadDescFifo.dout, List.range b.regs.pcieDmaReadDescFifo.dout.len.toNat⟩]
  else []

def newForwards (b : Bench p) (c : Cycle p) : List (Forward p) :=
  if b.regs.axisReadDescFifo.doutValid && c.axisReady then
    [⟨b.regs.axisReadDescFifo.dout, List.range b.regs.axisReadDescFifo.dout.len.toNat⟩]
  else []

/-- The clock edge.  A request that is given a slot starts with nothing fetched. -/
def clock (b : Bench p) (c : Cycle p) : Bench p where
  regs := b.regs.next (b.inputs c)
  fetching :=
    dropReported b.fetching c.complete (b.completing c).isSome ++ b.newFetches c
  forwarding :=
    dropReported b.forwarding c.finish (b.finishing c).isSome ++ b.newForwards c
  ram := b.ram
  fetched :=
    if (b.regs.request (b.inputs c)).isSome then
      Function.update b.fetched b.regs.selectedRxSlot fun _ => none
    else b.fetched
  forwarded := b.forwarded

/-- A cycle: what is read and written in it, then the edge. -/
def step (b : Bench p) (c : Cycle p) : Bench p :=
  ((c.writes.foldl write (c.reads.foldl read b)).clock c)

/-- A bench after a reset, with nothing in flight. -/
structure Start (b : Bench p) : Prop where
  regs : b.regs.Fresh
  fetching : b.fetching = []
  forwarding : b.forwarding = []
  fetched : ∀ slot i, b.fetched slot i = none
  forwarded : b.forwarded = []

/-! ## The requests in flight -/

/-- The orders to the engine: just made, queued, or in the engine. -/
def pcieDescs (b : Bench p) : List (PcieDesc p) :=
  (if b.regs.pcieDmaReadDescValid then [b.regs.pcieDmaReadDesc] else []) ++
    b.regs.pcieDmaReadDescFifo.contents ++ b.fetching.map Fetch.desc

/-- The orders to the client: just made, queued, or in the client. -/
def axisDescs (b : Bench p) : List (AxisReadDesc p) :=
  (if b.regs.axisReadDescValid then [b.regs.axisReadDesc] else []) ++
    b.regs.axisReadDescFifo.contents ++ b.forwarding.map Forward.desc

/-- The slots of the requests in flight. -/
def held (b : Bench p) : List p.Slot :=
  b.pcieDescs.map (slotOf ·.tag) ++ b.axisDescs.map (·.tag)

/-- The descriptor of the request that holds a slot, as the engine was given it. -/
structure PcieDescOk (s : PcieContRead p) (d : PcieDesc p) : Prop where
  tag : d.tag = tagOf (slotOf d.tag)
  ramAddr : d.ramAddr = regionStart (slotOf d.tag)
  len : d.len = s.rxLen (slotOf d.tag)

/-- The descriptor of the request that holds a slot, as the client was given it. -/
structure AxisDescOk (s : PcieContRead p) (d : AxisReadDesc p) : Prop where
  addr : d.addr = regionStart d.tag
  len : d.len = s.rxLen d.tag
  dest : d.dest = s.rxCoreTag d.tag
  user : d.user = s.rxCoreAddr d.tag

/-- **What the bookkeeping keeps.** -/
structure Booked (b : Bench p) : Prop where
  pcieFifo : b.regs.pcieDmaReadDescFifo.Valid
  axisFifo : b.regs.axisReadDescFifo.Valid
  pcieRoom : b.regs.pcieDmaReadDescValid = true → b.regs.pcieDmaReadDescFifo.dinReady = true
  axisRoom : b.regs.axisReadDescValid = true → b.regs.axisReadDescFifo.dinReady = true
  balanced : PcieSlots.Balanced b.regs.rxSlot b.held
  pcieOk : ∀ d ∈ b.pcieDescs, PcieDescOk b.regs d
  axisOk : ∀ d ∈ b.axisDescs, AxisDescOk b.regs d

theorem Start.descs_eq {b : Bench p} (h : b.Start) : b.pcieDescs = [] ∧ b.axisDescs = [] := by
  constructor
  · simp [pcieDescs, h.regs.pcieDesc, h.regs.pcieFifo.contents_eq, h.fetching]
  · simp [axisDescs, h.regs.axisDesc, h.regs.axisFifo.contents_eq, h.forwarding]

theorem Start.booked {b : Bench p} (h : b.Start) : b.Booked := by
  obtain ⟨hpcie, haxis⟩ := h.descs_eq
  constructor
  · exact h.regs.pcieFifo.valid
  · exact h.regs.axisFifo.valid
  · simp [h.regs.pcieDesc]
  · simp [h.regs.axisDesc]
  · rw [held, hpcie, haxis, h.regs.rxSlot]
    exact PcieSlots.balanced_allOnes
  · simp [hpcie]
  · simp [haxis]

/-! ## What the engine and the client do within a cycle -/

section Bytes
variable {b : Bench p}

/-- What a write can be: nothing, or a byte of a descriptor the engine holds. -/
theorem write_cases (b : Bench p) (w : Write) :
    b.write w = b ∨ ∃ f, b.fetching[w.index]? = some f ∧ w.offset ∈ f.left ∧
      b.write w = { b with
        fetching := b.fetching.set w.index { f with left := f.left.erase w.offset }
        ram := Function.update b.ram (byteAt f.desc.ramAddr w.offset) w.byte
        fetched := Function.update b.fetched (slotOf f.desc.tag)
          (Function.update (b.fetched (slotOf f.desc.tag)) w.offset (some w.byte)) } := by
  unfold write
  split
  · exact .inl rfl
  · rename_i f hf
    split
    · rename_i hleft
      exact .inr ⟨f, hf, hleft, rfl⟩
    · exact .inl rfl

/-- What a read can be: nothing, or a byte of a descriptor the client holds. -/
theorem read_cases (b : Bench p) (r : Nat × Nat) :
    b.read r = b ∨ ∃ f, b.forwarding[r.1]? = some f ∧ r.2 ∈ f.left ∧
      b.read r = { b with
        forwarding := b.forwarding.set r.1 { f with left := f.left.erase r.2 }
        forwarded := b.forwarded ++
          [⟨f.desc, r.2, b.ram (byteAt f.desc.addr r.2), b.fetched f.desc.tag r.2⟩] } := by
  unfold read
  split
  · exact .inl rfl
  · rename_i f hf
    split
    · rename_i hleft
      exact .inr ⟨f, hf, hleft, rfl⟩
    · exact .inl rfl

/-- Replacing an element by one with the same image leaves the images. -/
theorem map_set_of_eq {α β : Type} {g : α → β} {l : List α} {k : Nat} {x y : α}
    (hx : l[k]? = some x) (hg : g y = g x) : (l.set k y).map g = l.map g := by
  obtain ⟨hk, hget⟩ := List.getElem?_eq_some_iff.mp hx
  rw [List.map_set, hg, ← hget, ← List.getElem_map g (h := by simpa using hk)]
  exact List.set_getElem_self _

theorem fetching_write (b : Bench p) (w : Write) :
    (b.write w).fetching.map Fetch.desc = b.fetching.map Fetch.desc := by
  rcases b.write_cases w with heq | ⟨f, hf, -, heq⟩
  · rw [heq]
  · rw [heq]
    exact map_set_of_eq hf rfl

theorem forwarding_read (b : Bench p) (r : Nat × Nat) :
    (b.read r).forwarding.map Forward.desc = b.forwarding.map Forward.desc := by
  rcases b.read_cases r with heq | ⟨f, hf, -, heq⟩
  · rw [heq]
  · rw [heq]
    exact map_set_of_eq hf rfl

theorem regs_write (b : Bench p) (w : Write) : (b.write w).regs = b.regs := by
  rcases b.write_cases w with heq | ⟨f, -, -, heq⟩ <;> rw [heq]

theorem regs_read (b : Bench p) (r : Nat × Nat) : (b.read r).regs = b.regs := by
  rcases b.read_cases r with heq | ⟨f, -, -, heq⟩ <;> rw [heq]

theorem forwarding_write (b : Bench p) (w : Write) :
    (b.write w).forwarding = b.forwarding := by
  rcases b.write_cases w with heq | ⟨f, -, -, heq⟩ <;> rw [heq]

theorem fetching_read (b : Bench p) (r : Nat × Nat) : (b.read r).fetching = b.fetching := by
  rcases b.read_cases r with heq | ⟨f, -, -, heq⟩ <;> rw [heq]

/-- The bookkeeping looks at the registers and at the descriptors only. -/
theorem Booked.congr {b b' : Bench p} (h : b.Booked) (hregs : b'.regs = b.regs)
    (hfetch : b'.fetching.map Fetch.desc = b.fetching.map Fetch.desc)
    (hforward : b'.forwarding.map Forward.desc = b.forwarding.map Forward.desc) :
    b'.Booked := by
  have hpcie : b'.pcieDescs = b.pcieDescs := by rw [pcieDescs, pcieDescs, hregs, hfetch]
  have haxis : b'.axisDescs = b.axisDescs := by rw [axisDescs, axisDescs, hregs, hforward]
  have hheld : b'.held = b.held := by rw [held, held, hpcie, haxis]
  obtain ⟨hv, hv', hr, hr', hbal, hok, hok'⟩ := h
  constructor
  · rwa [hregs]
  · rwa [hregs]
  · rwa [hregs]
  · rwa [hregs]
  · rwa [hregs, hheld]
  · rwa [hregs, hpcie]
  · rwa [hregs, haxis]

theorem Booked.write (h : b.Booked) (w : Write) : (b.write w).Booked :=
  h.congr (b.regs_write w) (b.fetching_write w) (by rw [b.forwarding_write w])

theorem Booked.read (h : b.Booked) (r : Nat × Nat) : (b.read r).Booked :=
  h.congr (b.regs_read r) (by rw [b.fetching_read r]) (b.forwarding_read r)

end Bytes

/-! ## The clock edge -/

section Edge
variable {b : Bench p} (h : b.Booked) (c : Cycle p)

/-- The order made for the accepted request. -/
def accepted (b : Bench p) (c : Cycle p) : List (PcieDesc p) :=
  if (b.clock c).regs.pcieDmaReadDescValid then [(b.clock c).regs.pcieDmaReadDesc] else []

/-- The order made for the reported descriptor. -/
def issued (b : Bench p) (c : Cycle p) : List (AxisReadDesc p) :=
  if (b.clock c).regs.axisReadDescValid then [(b.clock c).regs.axisReadDesc] else []

theorem map_accepted : (b.accepted c).map (slotOf ·.tag) =
    if (b.regs.request (b.inputs c)).isSome then [b.regs.selectedRxSlot] else [] := by
  unfold accepted clock next
  cases hreq : b.regs.request (b.inputs c) <;> simp [inputs]

theorem map_issued : (b.issued c).map (·.tag) =
    (b.completing c).toList.map (slotOf ·.desc.tag) := by
  unfold issued clock next
  cases hdone : b.completing c <;> simp [inputs, hdone]

/-- An order for the client is made for a reported descriptor. -/
theorem completing_of_issued {d : AxisReadDesc p} (hd : d ∈ b.issued c) :
    ∃ f, b.completing c = some f ∧
      d = ⟨regionStart f.desc.tag, b.regs.rxLen (slotOf f.desc.tag), slotOf f.desc.tag,
        b.regs.rxCoreTag (slotOf f.desc.tag), b.regs.rxCoreAddr (slotOf f.desc.tag)⟩ := by
  unfold issued clock next at hd
  cases hdone : b.completing c with
  | none => simp [inputs, hdone] at hd
  | some f => exact ⟨f, rfl, by simpa [inputs, hdone] using hd⟩

theorem completing_mem {f : Fetch p} (hf : b.completing c = some f) :
    f ∈ b.fetching ∧ f.left = [] := by
  obtain ⟨hbind, hleft⟩ := Option.filter_eq_some_iff.mp hf
  obtain ⟨k, -, hk⟩ := Option.bind_eq_some_iff.mp hbind
  exact ⟨List.mem_of_getElem? hk, List.isEmpty_iff.mp hleft⟩

theorem finishing_mem {f : Forward p} (hf : b.finishing c = some f) :
    f ∈ b.forwarding ∧ f.left = [] := by
  obtain ⟨hbind, hleft⟩ := Option.filter_eq_some_iff.mp hf
  obtain ⟨k, -, hk⟩ := Option.bind_eq_some_iff.mp hbind
  exact ⟨List.mem_of_getElem? hk, List.isEmpty_iff.mp hleft⟩

theorem mem_pcieDescs_of_fetching {f : Fetch p} (hf : f ∈ b.fetching) :
    f.desc ∈ b.pcieDescs :=
  List.mem_append_right _ (List.mem_map_of_mem hf)

theorem mem_axisDescs_of_forwarding {f : Forward p} (hf : f ∈ b.forwarding) :
    f.desc ∈ b.axisDescs :=
  List.mem_append_right _ (List.mem_map_of_mem hf)

theorem mem_held_of_pcie {d : PcieDesc p} (hd : d ∈ b.pcieDescs) : slotOf d.tag ∈ b.held :=
  List.mem_append_left _ (List.mem_map_of_mem hd)

theorem mem_held_of_axis {d : AxisReadDesc p} (hd : d ∈ b.axisDescs) : d.tag ∈ b.held :=
  List.mem_append_right _ (List.mem_map_of_mem hd)

include h

theorem Booked.pcieDescs_clock :
    ((b.clock c).pcieDescs ++ (b.completing c).toList.map Fetch.desc).Perm
      (b.accepted c ++ b.pcieDescs) :=
  stage_perm h.pcieFifo (i := b.regs.pcieFifoInputs (b.inputs c)) rfl h.pcieRoom
    (dropReported_perm fun _ h => (Option.filter_eq_some_iff.mp h).1) Fetch.desc
    (by
      unfold newFetches BasicFifo.deque
      split <;> simp_all [pcieFifoInputs, inputs])
    (b.accepted c)

theorem Booked.axisDescs_clock :
    ((b.clock c).axisDescs ++ (b.finishing c).toList.map Forward.desc).Perm
      (b.issued c ++ b.axisDescs) :=
  stage_perm h.axisFifo (i := b.regs.axisFifoInputs (b.inputs c)) rfl h.axisRoom
    (dropReported_perm fun _ h => (Option.filter_eq_some_iff.mp h).1) Forward.desc
    (by
      unfold newForwards BasicFifo.deque
      split <;> simp_all [axisFifoInputs, inputs])
    (b.issued c)

/-- The slots in use after the edge: the selected one is added, the finished one gone. -/
theorem Booked.count_held_clock (slot : p.Slot) :
    (b.clock c).held.count slot +
        ((b.finishing c).toList.map (·.desc.tag)).count slot =
      b.held.count slot +
        (if (b.regs.request (b.inputs c)).isSome then [b.regs.selectedRxSlot] else []).count
          slot := by
  have hpcie := ((h.pcieDescs_clock c).map (slotOf ·.tag)).count_eq slot
  have haxis := ((h.axisDescs_clock c).map (·.tag)).count_eq slot
  rw [List.map_append, List.map_append, map_accepted, List.map_map] at hpcie
  rw [List.map_append, List.map_append, map_issued, List.map_map] at haxis
  simp only [held, List.count_append, Function.comp_def] at hpcie haxis ⊢
  omega

theorem Booked.balanced_clock :
    PcieSlots.Balanced (b.clock c).regs.rxSlot (b.clock c).held := by
  refine h.balanced.update (b.inputs c).axisStatusTag rxSlot_ne_zero ?_ ?_
  · intro hfin
    obtain ⟨f, hf⟩ := Option.isSome_iff_exists.mp hfin
    obtain ⟨hmem, -⟩ := finishing_mem c hf
    refine ⟨?_, rfl⟩
    simpa [inputs, hf] using mem_held_of_axis (mem_axisDescs_of_forwarding hmem)
  · intro slot
    have hcount := h.count_held_clock c slot
    have hback : ((b.finishing c).toList.map (·.desc.tag)).count slot =
        ((b.inputs c).axisStatusValid && decide (slot = (b.inputs c).axisStatusTag)).toNat := by
      cases hf : b.finishing c with
      | none => simp [inputs, hf]
      | some f => by_cases hs : slot = f.desc.tag <;> simp [inputs, hf, hs, Ne.symm]
    rw [← hback, ← PcieSlots.count_given]
    exact hcount

/-- A slot in use is not the one a request is given. -/
theorem Booked.save_held {α : Type} {slot : p.Slot} (hs : slot ∈ b.held) {i : Inputs p}
    (table : p.Slot → α) (field : ReadRequest p → α) :
    b.regs.save i table field slot = table slot := by
  unfold save
  cases hreq : b.regs.request i with
  | none => rfl
  | some r =>
    refine Function.update_of_ne ?_ _ _
    rintro rfl
    have hfree := (PcieSlots.select_of_ne_zero (rxSlot_ne_zero (by rw [hreq]; rfl))).1
    exact h.balanced.not_mem hfree hs

theorem Booked.pcieOk_clock : ∀ d ∈ (b.clock c).pcieDescs, PcieDescOk (b.clock c).regs d := by
  intro d hd
  have hmem := (h.pcieDescs_clock c).subset (List.mem_append_left _ hd)
  rcases List.mem_append.mp hmem with hnew | hold
  · -- the order just made: its fields are those saved in the same cycle
    unfold accepted clock next at hnew
    cases hreq : b.regs.request (b.inputs c) with
    | none => simp [hreq] at hnew
    | some r =>
      obtain rfl : d = ⟨r.pcieAddr, regionStart b.regs.selectedRxSlot, r.len,
          tagOf b.regs.selectedRxSlot⟩ := by simpa [hreq] using hnew
      constructor
      · simp
      · simp
      · simp [clock, next, save, hreq]
  · obtain ⟨htag, haddr, hlen⟩ := h.pcieOk d hold
    refine ⟨htag, haddr, ?_⟩
    rw [hlen]
    exact (h.save_held (mem_held_of_pcie hold) b.regs.rxLen ReadRequest.len).symm

theorem Booked.axisOk_clock : ∀ d ∈ (b.clock c).axisDescs, AxisDescOk (b.clock c).regs d := by
  intro d hd
  have hmem := (h.axisDescs_clock c).subset (List.mem_append_left _ hd)
  rcases List.mem_append.mp hmem with hnew | hold
  · -- the order made for a report: its slot is in use, so no table changes there
    obtain ⟨f, hdone, rfl⟩ := b.completing_of_issued c hnew
    have hfetch := mem_pcieDescs_of_fetching (completing_mem c hdone).1
    have hheld := mem_held_of_pcie hfetch
    obtain ⟨htag, -, -⟩ := h.pcieOk f.desc hfetch
    constructor
    · exact (congrArg regionStart htag).trans (regionStart_tagOf _)
    · exact (h.save_held hheld _ _).symm
    · exact (h.save_held hheld _ _).symm
    · exact (h.save_held hheld _ _).symm
  · obtain ⟨haddr, hlen, hdest, huser⟩ := h.axisOk d hold
    have hheld := mem_held_of_axis hold
    constructor
    · exact haddr
    · rw [hlen]
      exact (h.save_held hheld _ _).symm
    · rw [hdest]
      exact (h.save_held hheld _ _).symm
    · rw [huser]
      exact (h.save_held hheld _ _).symm

/-- **The bookkeeping is kept by a clock edge.** -/
theorem Booked.clock : (b.clock c).Booked := by
  have hbal := h.balanced_clock c
  have hlen := hbal.length_le
  simp only [held, pcieDescs, axisDescs, List.length_append, List.length_map] at hlen
  constructor
  · exact h.pcieFifo.next p.slotWidth_pos (b.regs.pcieFifoInputs (b.inputs c))
  · exact h.axisFifo.next p.slotWidth_pos (b.regs.axisFifoInputs (b.inputs c))
  · intro hvalid
    refine BasicFifo.dinReady_next_of_lt h.pcieFifo rfl ?_
    rw [hvalid, if_pos rfl] at hlen
    simp only [List.length_singleton] at hlen
    change (b.clock c).regs.pcieDmaReadDescFifo.contents.length < _
    omega
  · intro hvalid
    refine BasicFifo.dinReady_next_of_lt h.axisFifo rfl ?_
    rw [hvalid, if_pos rfl] at hlen
    simp only [List.length_singleton] at hlen
    change (b.clock c).regs.axisReadDescFifo.contents.length < _
    omega
  · exact hbal
  · exact h.pcieOk_clock c
  · exact h.axisOk_clock c

end Edge

end Bench
end PcieContRead
end Rosebud
