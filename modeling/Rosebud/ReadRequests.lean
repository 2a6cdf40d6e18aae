import Rosebud.ReadIsolation

/-! # The requests of `pcie_cont_read`

A request is one entry of tables at its slot, then an order to the PCIe engine, then an
order to the client, and at last, if the host asked with a tag, a status.  The account
here follows the requests themselves: which are accepted, pending, completed by the engine
and closed by the client, next to what the controller does.

`requests_accounted` compares the two in every state of every run: the bitmap is the
complement of the slots of the pending requests, every order to the client is that of a
completed request, and the statuses are those of the closed ones.
-/
namespace Rosebud.PcieContRead
open Clocked PcieParams PcieSlots

variable {p : PcieParams}

/-- A request as it is taken: a descriptor of the host or a word of a core. -/
inductive Taken (p : PcieParams) where
  | host (d : HostDesc)
  | core (r : CoreReadReq p)

namespace Taken

/-- What the controller makes of it. -/
def request : Taken p → ReadRequest p
  | host d => ofHost d
  | core r => ofCore r

/-! What is asked for, in numbers.  The upper bits of the host's `ram_addr` name the core, the
lower ones the address there; a core gives the length in bits 15 to 0 of its word, its own tag
from bit 16 on and the address from bit 32 on. -/

def len : Taken p → Nat
  | host d => d.len.toNat
  | core r => r.tdata.toNat % 2 ^ 16

def coreAddr : Taken p → Nat
  | host d => d.ramAddr.toNat % 2 ^ p.coreAddrWidth
  | core r => r.tdata.toNat / 2 ^ 32 % 2 ^ p.coreAddrWidth

def coreTag : Taken p → Nat
  | host d => d.ramAddr.toNat / 2 ^ p.coreAddrWidth % 2 ^ p.coreWidth * 2 ^ p.coreTagWidth
  | core r => r.tuser.toNat * 2 ^ p.coreTagWidth + r.tdata.toNat / 2 ^ 16 % 2 ^ p.coreTagWidth

/-- The tag of a status; requests of cores have none. -/
def tag : Taken p → BitVec 32
  | host d => d.tag
  | core _ => 0

/-- The controller saves what is asked for. -/
theorem request_spec (t : Taken p) :
    t.request.len.toNat = t.len ∧ t.request.coreAddr.toNat = t.coreAddr ∧
      t.request.coreTag.toNat = t.coreTag ∧ t.request.pcieTag = t.tag := by
  cases t with
  | host d =>
    refine ⟨rfl, ?_, ?_, rfl⟩
    · simp [request, ofHost, coreAddr]
    · simp only [request, ofHost, coreTag, Lanes.toNat_append, BitVec.extractLsb'_toNat,
        Nat.shiftRight_eq_div_pow]
      simp
  | core r =>
    refine ⟨?_, ?_, ?_, rfl⟩
    · simp [request, ofCore, len]
    · simp [request, ofCore, coreAddr, Nat.shiftRight_eq_div_pow]
    · simp only [request, ofCore, coreTag, Lanes.toNat_append, BitVec.extractLsb'_toNat,
        Nat.shiftRight_eq_div_pow]

end Taken

/-- A request and the slot it was given. -/
abbrev Held (p : PcieParams) : Type := p.Slot × Taken p

/-- An order to the client in numbers. -/
structure Order where
  addr : Nat
  len : Nat
  tag : Nat
  dest : Nat
  user : Nat
deriving DecidableEq

def AxisReadDesc.order (o : AxisReadDesc p) : Order :=
  ⟨o.addr.toNat, o.len.toNat, o.tag.toNat, o.dest.toNat, o.user.toNat⟩

/-- The order a request asks for: its bytes, from the region of its slot. -/
def order (x : Held p) : Order :=
  ⟨x.1.toNat * 2048, x.2.len, x.1.toNat, x.2.coreTag, x.2.coreAddr⟩

/-- The descriptor of a request. -/
def descOf (x : Held p) : AxisReadDesc p where
  addr := regionStart x.1
  len := x.2.request.len
  tag := x.1
  dest := x.2.request.coreTag
  user := x.2.request.coreAddr

theorem order_descOf (x : Held p) : AxisReadDesc.order (descOf x) = order x := by
  obtain ⟨hlen, haddr, htag, -⟩ := x.2.request_spec
  simp only [AxisReadDesc.order, descOf, order, hlen, haddr, htag,
    toNat_regionStart x.1 x.1.isLt]

/-- The controller with its neighbours, and the account of the requests. -/
structure Account (p : PcieParams) where
  bench : Bench p
  accepted : List (Held p)
  pending : List (Held p)
  completed : List (Held p)
  closed : List (Held p)
  issued : List (AxisReadDesc p)
  statuses : List (BitVec 32)

namespace Account

def start (b : Bench p) : Account p := ⟨b, [], [], [], [], [], []⟩

/-- The bench at the clock edge: what is read and written in the cycle is done. -/
def edge (b : Bench p) (c : Cycle p) : Bench p :=
  c.writes.foldl Bench.write (c.reads.foldl Bench.read b)

/-- What is taken in a cycle: the host comes first. -/
def taken (b : Bench p) (c : Cycle p) : Option (Taken p) :=
  if c.hostValid && b.regs.hostReady then some (.host c.host)
  else if c.coresValid && b.regs.coresReady (b.inputs c) then some (.core c.cores)
  else none

def arrival (b : Bench p) (c : Cycle p) : List (Held p) :=
  (taken b c).toList.map fun t => (b.regs.selectedRxSlot, t)

/-- The requests of a slot. -/
def atSlot (slot : Option p.Slot) (l : List (Held p)) : List (Held p) :=
  l.filter fun x => slot = some x.1

/-- The slots the engine and the client report. -/
def completes (b : Bench p) (c : Cycle p) : Option p.Slot :=
  (b.completing c).map fun f => slotOf f.desc.tag

def finishes (b : Bench p) (c : Cycle p) : Option p.Slot :=
  (b.finishing c).map fun f => f.desc.tag

/-- The status the host sees. -/
def status (s : PcieContRead p) : List (BitVec 32) :=
  if s.hostStatusValid then [s.hostStatusTag] else []

/-- The order to the client that was just made. -/
def made (s : PcieContRead p) : List (AxisReadDesc p) :=
  if s.axisReadDescValid then [s.axisReadDesc] else []

/-- The clock edge, with the account. -/
def clock (a : Account p) (c : Cycle p) : Account p where
  bench := a.bench.clock c
  accepted := a.accepted ++ arrival a.bench c
  pending := a.pending.filter (fun x => !decide (finishes a.bench c = some x.1)) ++
    arrival a.bench c
  completed := a.completed ++ atSlot (completes a.bench c) a.pending
  closed := a.closed ++ atSlot (finishes a.bench c) a.pending
  issued := a.issued ++ (a.bench.newForwards c).map Forward.desc
  statuses := a.statuses ++ status a.bench.regs

def step (a : Account p) (c : Cycle p) : Account p :=
  clock { a with bench := edge a.bench c } c

/-- The tables hold a request. -/
structure Saved (s : PcieContRead p) (x : Held p) : Prop where
  len : s.rxLen x.1 = x.2.request.len
  coreAddr : s.rxCoreAddr x.1 = x.2.request.coreAddr
  coreTag : s.rxCoreTag x.1 = x.2.request.coreTag
  pcieTag : s.rxPcieTag x.1 = x.2.request.pcieTag

/-- **The account is right.** -/
structure Right (a : Account p) : Prop where
  booked : a.bench.Booked
  slots : (a.pending.map Prod.fst).Perm a.bench.held
  saved : ∀ x ∈ a.pending, Saved a.bench.regs x
  balance : a.accepted.Perm (a.closed ++ a.pending)
  orders : a.issued ++ a.bench.regs.axisReadDescFifo.contents ++ made a.bench.regs =
    a.completed.map descOf
  answers : a.statuses ++ status a.bench.regs =
    (a.closed.map fun x => x.2.tag).filter (· ≠ 0)

theorem right_start {b : Bench p} (h : b.Start) : (start b).Right where
  booked := h.booked
  slots := by
    have hpcie : b.pcieDescs = [] := by
      simp [Bench.pcieDescs, h.regs.pcieDesc, h.regs.pcieFifo.contents_eq, h.fetching]
    have haxis : b.axisDescs = [] := by
      simp [Bench.axisDescs, h.regs.axisDesc, h.regs.axisFifo.contents_eq, h.forwarding]
    simp [start, Bench.held, hpcie, haxis]
  saved := by simp [start]
  balance := List.Perm.refl []
  orders := by simp [start, made, h.regs.axisDesc, h.regs.axisFifo.contents_eq]
  answers := by simp [start, status, h.regs.hostStatus]

theorem request_eq (b : Bench p) (c : Cycle p) :
    b.regs.request (b.inputs c) = (taken b c).map Taken.request := by
  change (if c.hostValid && b.regs.hostReady then some (ofHost c.host)
    else if c.coresValid && b.regs.coresReady (b.inputs c) then some (ofCore c.cores)
    else none) = _
  unfold taken
  split_ifs <;> rfl

/-! ## Within a cycle -/

/-- What is read and written in a cycle changes neither the registers nor the slots in
use. -/
theorem edge_spec (b : Bench p) (c : Cycle p) :
    (edge b c).regs = b.regs ∧ (edge b c).held = b.held := by
  have hread : ∀ b' r, b'.regs = b.regs ∧ b'.held = b.held →
      (Bench.read b' r).regs = b.regs ∧ (Bench.read b' r).held = b.held := by
    intro b' r hb
    refine ⟨(b'.regs_read r).trans hb.1, Eq.trans ?_ hb.2⟩
    simp only [Bench.held, Bench.pcieDescs, Bench.axisDescs, b'.regs_read r, b'.fetching_read r,
      b'.forwarding_read r]
  have hwrite : ∀ b' w, b'.regs = b.regs ∧ b'.held = b.held →
      (Bench.write b' w).regs = b.regs ∧ (Bench.write b' w).held = b.held := by
    intro b' w hb
    refine ⟨(b'.regs_write w).trans hb.1, Eq.trans ?_ hb.2⟩
    simp only [Bench.held, Bench.pcieDescs, Bench.axisDescs, b'.regs_write w, b'.fetching_write w,
      b'.forwarding_write w]
  exact run_preserves hwrite (run_preserves hread ⟨rfl, rfl⟩ c.reads) c.writes

theorem booked_edge {b : Bench p} (h : b.Booked) (c : Cycle p) : (edge b c).Booked := by
  have hread : (run Bench.read b c.reads).Booked :=
    run_preserves (fun _ r hb => hb.read r) h c.reads
  exact run_preserves (fun _ w hb => hb.write w) hread c.writes

theorem Right.edge {a : Account p} (h : a.Right) (c : Cycle p) :
    ({ a with bench := Account.edge a.bench c } : Account p).Right := by
  obtain ⟨hregs, hheld⟩ := edge_spec a.bench c
  obtain ⟨hbooked, hslots, hsaved, hbalance, horders, hanswers⟩ := h
  constructor
  · exact booked_edge hbooked c
  · rwa [hheld]
  · rwa [hregs]
  · exact hbalance
  · rwa [hregs]
  · rwa [hregs]

/-! ## The clock edge -/

/-- Of requests with different slots, the one of a slot is alone there. -/
theorem atSlot_of_mem {l : List (Held p)} (hn : (l.map Prod.fst).Nodup) {x : Held p} (hx : x ∈ l) :
    atSlot (some x.1) l = [x] := by
  induction l with
  | nil => exact absurd hx List.not_mem_nil
  | cons y l ih =>
    rw [List.map_cons, List.nodup_cons] at hn
    rcases List.mem_cons.mp hx with rfl | hxl
    · have hnone : atSlot (some x.1) l = [] := by
        refine List.filter_eq_nil_iff.mpr fun z hz hs => hn.1 ?_
        have : x.1 = z.1 := by simpa using hs
        rw [this]
        exact List.mem_map_of_mem hz
      change (x :: l).filter _ = [x]
      rw [List.filter_cons, if_pos (decide_eq_true rfl)]
      exact congrArg (List.cons x) hnone
    · have hne : x.1 ≠ y.1 := fun heq => hn.1 (heq ▸ List.mem_map_of_mem hxl)
      have htail := ih hn.2 hxl
      unfold atSlot at htail ⊢
      simpa [hne] using htail

theorem atSlot_none (l : List (Held p)) : atSlot none l = [] := by
  simp [atSlot]

section Edge
variable {a : Account p} (h : a.Right) (c : Cycle p)
include h

theorem Right.nodup : (a.pending.map Prod.fst).Nodup :=
  h.slots.nodup_iff.mpr h.booked.balanced.nodup

/-- A slot in use is that of one pending request. -/
theorem Right.exists_pending {slot : p.Slot} (hs : slot ∈ a.bench.held) :
    ∃ x ∈ a.pending, x.1 = slot ∧ atSlot (some slot) a.pending = [x] := by
  obtain ⟨x, hx, rfl⟩ := List.mem_map.mp (h.slots.mem_iff.mpr hs)
  exact ⟨x, hx, rfl, atSlot_of_mem h.nodup hx⟩

/-- The request the engine has completed, if it reports one. -/
theorem Right.completes_cases :
    a.bench.completing c = none ∧ atSlot (completes a.bench c) a.pending = [] ∨
    ∃ f x, a.bench.completing c = some f ∧ x ∈ a.pending ∧ x.1 = slotOf f.desc.tag ∧
      f.desc.tag = tagOf x.1 ∧ atSlot (completes a.bench c) a.pending = [x] := by
  cases hdone : a.bench.completing c with
  | none => exact .inl ⟨rfl, by rw [completes, hdone]; exact atSlot_none _⟩
  | some f =>
    have hmem := Bench.mem_pcieDescs_of_fetching (Bench.completing_mem c hdone).1
    obtain ⟨x, hx, hslot, hone⟩ := h.exists_pending (Bench.mem_held_of_pcie hmem)
    refine .inr ⟨f, x, rfl, hx, hslot, ?_, ?_⟩
    · rw [hslot]
      exact (h.booked.pcieOk _ hmem).tag
    · rw [completes, hdone]
      exact hone

/-- The request the client has closed, if it reports one. -/
theorem Right.finishes_cases :
    a.bench.finishing c = none ∧ atSlot (finishes a.bench c) a.pending = [] ∨
    ∃ f x, a.bench.finishing c = some f ∧ x ∈ a.pending ∧ x.1 = f.desc.tag ∧
      atSlot (finishes a.bench c) a.pending = [x] := by
  cases hdone : a.bench.finishing c with
  | none => exact .inl ⟨rfl, by rw [finishes, hdone]; exact atSlot_none _⟩
  | some f =>
    have hmem := Bench.mem_axisDescs_of_forwarding (Bench.finishing_mem c hdone).1
    obtain ⟨x, hx, hslot, hone⟩ := h.exists_pending (Bench.mem_held_of_axis hmem)
    refine .inr ⟨f, x, rfl, hx, hslot, ?_⟩
    rw [finishes, hdone]
    exact hone

theorem Right.slots_clock : ((a.clock c).pending.map Prod.fst).Perm (a.clock c).bench.held := by
  rw [List.perm_iff_count]
  intro slot
  have hcount := h.booked.count_held_clock c slot
  have hold := h.slots.count_eq slot
  have hsplit := (List.filter_append_perm (fun x : Held p => decide (finishes a.bench c = some x.1))
    a.pending).map Prod.fst |>.count_eq slot
  have hclosed : ((atSlot (finishes a.bench c) a.pending).map Prod.fst).count slot =
      ((a.bench.finishing c).toList.map (·.desc.tag)).count slot := by
    rcases h.finishes_cases c with ⟨hf, hnone⟩ | ⟨f, x, hf, -, hslot, hone⟩
    · rw [hf, hnone]
      rfl
    · rw [hf, hone]
      simp [hslot]
  have hnew : ((arrival a.bench c).map Prod.fst).count slot =
      (if (a.bench.regs.request (a.bench.inputs c)).isSome then [a.bench.regs.selectedRxSlot]
        else []).count slot := by
    rw [request_eq]
    cases htaken : taken a.bench c <;> simp [arrival, htaken]
  change ((a.pending.filter _ ++ arrival a.bench c).map Prod.fst).count slot =
    (a.bench.clock c).held.count slot
  unfold atSlot at hclosed
  simp only [List.map_append, List.count_append] at hsplit ⊢
  omega

theorem Right.saved_clock : ∀ x ∈ (a.clock c).pending, Saved (a.clock c).bench.regs x := by
  intro x hx
  rcases List.mem_append.mp hx with hold | hnew
  · -- the slot of a pending request is in use, so no table changes there
    have hmem := List.mem_of_mem_filter hold
    have hheld := h.slots.mem_iff.mp (List.mem_map_of_mem hmem)
    obtain ⟨hlen, haddr, htag, hpcie⟩ := h.saved x hmem
    constructor
    · exact (h.booked.save_held hheld _ _).trans hlen
    · exact (h.booked.save_held hheld _ _).trans haddr
    · exact (h.booked.save_held hheld _ _).trans htag
    · exact (h.booked.save_held hheld _ _).trans hpcie
  · obtain ⟨t, ht, rfl⟩ := List.mem_map.mp hnew
    have hreq : a.bench.regs.request (a.bench.inputs c) = some t.request := by
      rw [request_eq, Option.mem_toList.mp ht]
      rfl
    constructor <;> simp [clock, Bench.clock, next, save, hreq]

theorem Right.balance_clock :
    (a.clock c).accepted.Perm ((a.clock c).closed ++ (a.clock c).pending) := by
  have hsplit := List.filter_append_perm
    (fun x : Held p => decide (finishes a.bench c = some x.1)) a.pending
  change (a.accepted ++ _).Perm (a.closed ++ a.pending.filter _ ++ (a.pending.filter _ ++ _))
  refine (h.balance.append_right _).trans ?_
  rw [List.append_assoc, List.append_assoc, ← List.append_assoc (List.filter _ _)]
  exact (hsplit.symm.append_right _).append_left _

/-- The orders to the client are those of the completed requests, in their order. -/
theorem Right.orders_clock :
    (a.clock c).issued ++ (a.clock c).bench.regs.axisReadDescFifo.contents ++
      made (a.clock c).bench.regs = (a.clock c).completed.map descOf := by
  have hcons := BasicFifo.conservation h.booked.axisFifo
    (i := a.bench.regs.axisFifoInputs (a.bench.inputs c)) rfl
  have hin : (if a.bench.regs.axisReadDescFifo.enque
      (a.bench.regs.axisFifoInputs (a.bench.inputs c)) then [a.bench.regs.axisReadDesc] else []) =
      made a.bench.regs := by
    unfold made BasicFifo.enque
    cases hv : a.bench.regs.axisReadDescValid with
    | false => simp [axisFifoInputs, hv]
    | true => simp [axisFifoInputs, hv, h.booked.axisRoom hv]
  have hout : (if a.bench.regs.axisReadDescFifo.deque
      (a.bench.regs.axisFifoInputs (a.bench.inputs c)) then
        [a.bench.regs.axisReadDescFifo.dout] else []) =
      (a.bench.newForwards c).map Forward.desc := by
    unfold Bench.newForwards BasicFifo.deque
    split <;> simp_all [axisFifoInputs, Bench.inputs]
  have hmade : made (a.bench.clock c).regs =
      (atSlot (completes a.bench c) a.pending).map descOf := by
    rcases h.completes_cases c with ⟨hnone, hat⟩ | ⟨f, x, hdone, hx, hslot, htag, hat⟩
    · rw [hat]
      simp [made, Bench.clock, next, Bench.inputs, hnone]
    · obtain ⟨hlen, haddr, hcore, -⟩ := h.saved x hx
      rw [hat]
      simp only [made, Bench.clock, next, Bench.inputs, hdone]
      simp [descOf, htag, regionStart_tagOf, hlen, haddr, hcore]
  change a.issued ++ _ ++ (a.bench.regs.axisReadDescFifo.next
    (a.bench.regs.axisFifoInputs (a.bench.inputs c))).contents ++
    made (a.bench.clock c).regs = (a.completed ++ _).map descOf
  rw [← hout, List.append_assoc a.issued, ← hcons, hmade, List.map_append, ← h.orders]
  simp only [List.append_assoc]
  rw [← hin]
  rfl

/-- The statuses are those of the closed requests with a tag, in their order. -/
theorem Right.answers_clock :
    (a.clock c).statuses ++ status (a.clock c).bench.regs =
      ((a.clock c).closed.map fun x => x.2.tag).filter (· ≠ 0) := by
  have hnew : status (a.bench.clock c).regs =
      ((atSlot (finishes a.bench c) a.pending).map fun x => x.2.tag).filter (· ≠ 0) := by
    rcases h.finishes_cases c with ⟨hnone, hat⟩ | ⟨f, x, hdone, hx, hslot, hat⟩
    · rw [hat]
      simp [status, Bench.clock, next, Bench.inputs, hnone]
    · have htag := (h.saved x hx).pcieTag.trans x.2.request_spec.2.2.2
      rw [hslot] at htag
      rw [hat]
      by_cases hz : x.2.tag = 0#32 <;>
        simp [status, Bench.clock, next, Bench.inputs, hdone, htag, hz]
  change a.statuses ++ status a.bench.regs ++ status (a.bench.clock c).regs =
    ((a.closed ++ _).map _).filter _
  rw [h.answers, hnew, List.map_append, List.filter_append]

theorem Right.clock : (a.clock c).Right where
  booked := h.booked.clock c
  slots := h.slots_clock c
  saved := h.saved_clock c
  balance := h.balance_clock c
  orders := h.orders_clock c
  answers := h.answers_clock c

end Edge

theorem Right.step {a : Account p} (h : a.Right) (c : Cycle p) : (a.step c).Right :=
  (h.edge c).clock c

/-- **The bookkeeping is that of the requests.**  In every run from reset, whatever the
host and the cores ask for and whatever the order and delay of the completions: a slot is
free exactly if no pending request has it, and no two have the same; neither descriptor
FIFO is pushed when full; every request taken is pending or was closed, once; the orders to
the client, taken, queued or just made, are those of the completed requests with the core
tag, the address and the length the host or the core gave; and the statuses, past and
present, are the tags the host gave to the closed requests, where it gave one. -/
theorem requests_accounted {b : Bench p} (h : b.Start) (cycles : List (Cycle p)) :
    let a := run step (start b) cycles
    (∀ slot : p.Slot, slot.toNat < p.slotCount →
      (isFree a.bench.regs.rxSlot slot = true ↔ slot ∉ a.pending.map Prod.fst)) ∧
    (a.pending.map Prod.fst).Nodup ∧
    (a.bench.regs.pcieDmaReadDescValid = true →
      a.bench.regs.pcieDmaReadDescFifo.dinReady = true) ∧
    (a.bench.regs.axisReadDescValid = true → a.bench.regs.axisReadDescFifo.dinReady = true) ∧
    a.accepted.Perm (a.closed ++ a.pending) ∧
    (a.issued ++ a.bench.regs.axisReadDescFifo.contents ++ made a.bench.regs).map
      AxisReadDesc.order = a.completed.map order ∧
    a.statuses ++ status a.bench.regs =
      (a.closed.map fun x => x.2.tag).filter (· ≠ 0) := by
  intro a
  have hright : a.Right :=
    run_preserves (P := Right) (fun _ c ha => ha.step c) (right_start h) cycles
  refine ⟨fun slot hlt => ?_, hright.nodup, hright.booked.pcieRoom, hright.booked.axisRoom,
    hright.balance, ?_, hright.answers⟩
  · rw [hright.slots.mem_iff]
    constructor
    · exact fun hfree => hright.booked.balanced.not_mem hfree
    · intro hnot
      have hbal := hright.booked.balanced slot
      rw [List.count_eq_zero_of_not_mem hnot, decide_eq_true hlt, Nat.zero_add] at hbal
      exact Bool.toNat_eq_one.mp hbal
  · rw [hright.orders, List.map_map]
    exact List.map_congr_left fun x _ => order_descOf x

/-- The host asks with tag 7 for a byte at address 0x123456 of core 9, and core 2 with its own
tag 3 for two bytes at its address 0x40; the engine completes them in the other order, and the
client closes that of the host first. -/
def hostAndCore : List (Cycle board) :=
  [Bench.quiet,
    { Bench.quiet with hostValid := true, host := ⟨0xABCDEF000, 0x24123456, 1, 7⟩ },
    { Bench.quiet with coresValid := true, cores := ⟨0x00000001234560000000004000030002, 2⟩ },
    Bench.quiet, Bench.quiet,
    { Bench.quiet with writes := [⟨1, 0, 0xBB⟩, ⟨1, 1, 0xCC⟩], complete := some 1 },
    { Bench.quiet with writes := [⟨0, 0, 0xAA⟩], complete := some 0 },
    Bench.quiet, Bench.quiet, Bench.quiet,
    { Bench.quiet with reads := [(0, 0), (0, 1), (1, 0)], finish := some 1 },
    { Bench.quiet with finish := some 0 }, Bench.quiet, Bench.quiet]

/-- Both are closed, the client had the order of each, and the host alone gets a status. -/
theorem requests_accounted_two :
    let a := run step (start Bench.afterReset) hostAndCore
    a.closed.map Prod.fst = [0, 1] ∧ a.pending.length = 0 ∧ a.statuses = [7] ∧
      a.accepted.Perm (a.closed ++ a.pending) ∧
      (a.issued ++ a.bench.regs.axisReadDescFifo.contents ++ made a.bench.regs).map
        AxisReadDesc.order = [⟨2048, 2, 1, 2 * 32 + 3, 0x40⟩, ⟨0, 1, 0, 9 * 32, 0x123456⟩] :=
  have h := requests_accounted Bench.afterReset_start hostAndCore
  ⟨by decide +kernel, by decide +kernel, by decide +kernel, h.2.2.2.2.1,
    h.2.2.2.2.2.1.trans (by decide +kernel)⟩

end Account
end Rosebud.PcieContRead
