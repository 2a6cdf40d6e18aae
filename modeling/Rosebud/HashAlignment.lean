import Rosebud.LbHashBlocking
import Rosebud.LbHashDropping
import Rosebud.HeaderAdderBlocking

/-! # Hashes and packets meet again

In both hash policies a packet and its hash part at the input of an interface.  The words
wait in a data FIFO; the hash waits for a descriptor in `rx_hash_fifo` and then, with it,
in `rx_hash_n_desc_fifo`; at the header adder the two are put together again, by nothing
but their order.  `rx_hash_fifo` has no back pressure: a hash that finds it full is lost,
and from then on every packet gets the hash of a later one.

A comment in the source says that the FIFO has more room than there are packets of 64
bytes in the data FIFO.  It forgets the output registers of the data FIFO: with packets of
one word, more hashes arrive than fit (`hash_lost`).  `aligned_of_room` is what holds if
a hash comes only while there is room for it.

The two vendored modules are here what they are assumed to be.  `rx_hash` yields one hash
for every packet, in order, at any time after its first word; the data FIFO is a queue
with a bounded number of words.
-/
namespace Rosebud

/-- The parameters of the data path of the hash policies. -/
structure HashPathConfig extends HashConfig where
  strbWidth : Nat
  portWidth : Nat
  four_le_strbWidth : 4 ≤ strbWidth

namespace HashPath
open Clocked AxiStream HashSelect
open HeaderAdderBlocking (Owes takesWord takesHeader outs offered word ne_lst_of_takesWord)

variable {Q : HashPathConfig} {R E : Type}

abbrev Word (Q : HashPathConfig) : Type := Beat Q.strbWidth Unit

abbrev Pkt (Q : HashPathConfig) : Type := Packet Q.strbWidth Unit

abbrev Out (Q : HashPathConfig) : Type :=
  HeaderAdderBlocking.Out Q.strbWidth (Q.coreIdWidth + Q.tagWidth) Q.portWidth

/-- A hash that left `rx_hash_fifo`, the descriptor that was offered for it, and whether
its packet is to be dropped. -/
structure Alloc (Q : HashPathConfig) where
  rxHash : RxHash
  drop : Bool
  descData : IdTag Q.toHashConfig
deriving DecidableEq

/-- One interface: its sender (the packets `ahead`, and the words left of the `current`
one), the hashes still in `rx_hash`, the data FIFO and the header adder; and what has
happened on it so far. -/
structure Lane (Q : HashPathConfig) where
  ahead : List (Pkt Q)
  current : List (Word Q)
  hashing : List RxHash
  dataFifo : List (Word Q)
  adder : HeaderAdderBlocking.Regs 4 (Q.coreIdWidth + Q.tagWidth) Q.portWidth
  begun : List (Pkt Q)
  allocs : List (Alloc Q)
  left : List (Out Q)

/-- One cycle of the surroundings.  Of `lb`, the wires of the hash units and of the header
adders are driven by the data path. -/
structure Cycle (Q : HashPathConfig) where
  lb : HashSelect.Cycle Q.toHashConfig
  offer : Fin Q.ifCount → Bool
  fifoReady : Fin Q.ifCount → Bool
  fifoValid : Fin Q.ifCount → Bool
  emit : Fin Q.ifCount → Bool
  mAxisTready : Fin Q.ifCount → Bool
  idleWord : Word Q

/-- What the data path needs to know of a policy: its registers contain the shared ones,
and the entry it writes has the hash of the selected interface and the descriptor on
offer.  `view` is what the header adder gets from an entry: the drop bit, the hash and the
descriptor. -/
structure Policy (Q : HashPathConfig) (R E : Type) where
  ramPipeline : Nat
  front : R → HashSelect.Regs Q.toHashConfig E
  view : E → Bool × BitVec 32 × IdTag Q.toHashConfig
  take : R → HashSelect.Cycle Q.toHashConfig → Bool
  entry : R → HashSelect.Cycle Q.toHashConfig → E
  next : R → HashSelect.Cycle Q.toHashConfig → R
  front_next : ∀ r c, front (next r c) = advance (front r) c (take r c) (entry r c)
  view_entry : ∀ r c, (view (entry r c)).2 = (selectedHash (front r), c.descData)

/-- `lb_hash_blocking`, whose header adders have `drop` tied to zero. -/
def blocking (Q : HashPathConfig) : Policy Q (LbHashBlocking.Regs Q.toHashConfig)
    (LbHashBlocking.HashNDesc Q.toHashConfig) where
  ramPipeline := 1
  front := LbHashBlocking.Regs.toRegs
  view := fun e => (false, e)
  take := LbHashBlocking.descPop
  entry := LbHashBlocking.hashNDestIn
  next := LbHashBlocking.next
  front_next := fun _ _ => rfl
  view_entry := fun _ _ => rfl

def dropping (Q : HashPathConfig) : Policy Q (LbHashDropping.Regs Q.toHashConfig)
    (LbHashDropping.DropNDesc Q.toHashConfig) where
  ramPipeline := 2
  front := LbHashDropping.Regs.toRegs
  view := id
  take := LbHashDropping.take
  entry := LbHashDropping.hashNDestIn
  next := LbHashDropping.next
  front_next := fun _ _ => rfl
  view_entry := fun _ _ => rfl

/-! ## The data path of an interface -/

section Wires
variable (pol : Policy Q R E) (r : R) (l : Lane Q) (c : Cycle Q) (p : Fin Q.ifCount)

/-- The words the data FIFO holds: its memory and its output registers. -/
def capacity : Nat := Q.dataFifoDepth / Q.strbWidth + pol.ramPipeline + 1

/-- The data FIFO takes a word, if one is offered. -/
def accepts : Bool :=
  c.offer p && c.fifoReady p && decide (l.dataFifo.length < capacity pol)

/-- The packet that begins in a cycle, if one does. -/
def begins : List (Pkt Q) :=
  if accepts pol l c p && l.current.isEmpty then l.ahead.take 1 else []

/-- The words of the current packet, also if it begins in this cycle. -/
def supply : List (Word Q) := l.current ++ (begins pol l c p).flatMap Packet.beats

def arrives : List (Word Q) := if accepts pol l c p then (supply pol l c p).take 1 else []

def rxHashValid : Bool := c.emit p && !l.hashing.isEmpty

def dataFifoValid : Bool := c.fifoValid p && !l.dataFifo.isEmpty

def adderIn : HeaderAdderBlocking.Inputs Q.strbWidth 4 (Q.coreIdWidth + Q.tagWidth) Q.portWidth :=
  let w := l.dataFifo.headD c.idleWord
  let fifo := (pol.front r).rxHashNDescFifo p
  { sAxis := ⟨w.tdata, w.tkeep, w.tlast, ((pol.view fifo.dout).2.2, BitVec.ofNat Q.portWidth p)⟩
    sAxisTvalid := dataFifoValid l c p
    header := (pol.view fifo.dout).2.1
    drop := (pol.view fifo.dout).1
    headerValid := fifo.doutValid
    mAxisTready := c.mAxisTready p }

end Wires

section Bench
variable (pol : Policy Q R E) (hashOf : Fin Q.ifCount → Pkt Q → RxHash)

/-- A policy and its interfaces. -/
structure Bench (Q : HashPathConfig) (R : Type) where
  regs : R
  lanes : Fin Q.ifCount → Lane Q

variable (b : Bench Q R) (c : Cycle Q)

/-- The wires of the policy. -/
def lbCycle : HashSelect.Cycle Q.toHashConfig :=
  { c.lb with
    rxHashValid := fun p => rxHashValid (b.lanes p) c p
    rxHash := fun p => (b.lanes p).hashing.headD (c.lb.rxHash p)
    hashNDestOutReady := fun p =>
      HeaderAdderBlocking.headerReady (b.lanes p).adder (adderIn pol b.regs (b.lanes p) c p) }

/-- The hash of an interface that gets a descriptor in this cycle. -/
def allocates (p : Fin Q.ifCount) : List (Alloc Q) :=
  let lb := lbCycle pol b c
  if taken (pol.front b.regs) (pol.take b.regs lb) p then
    [⟨rxHashF (pol.front b.regs) p, (pol.view (pol.entry b.regs lb)).1, c.lb.descData⟩]
  else []

def clockLane (p : Fin Q.ifCount) : Lane Q :=
  let l := b.lanes p
  let i := adderIn pol b.regs l c p
  { ahead := l.ahead.drop (begins pol l c p).length
    current := (supply pol l c p).drop (arrives pol l c p).length
    hashing := l.hashing.drop (rxHashValid l c p).toNat ++ (begins pol l c p).map (hashOf p)
    dataFifo := l.dataFifo.drop (takesWord l.adder i).toNat ++ arrives pol l c p
    adder := HeaderAdderBlocking.next false l.adder i
    begun := l.begun ++ begins pol l c p
    allocs := l.allocs ++ allocates pol b c p
    left := l.left ++ outs l.adder i }

def clock : Bench Q R where
  regs := pol.next b.regs (lbCycle pol b c)
  lanes := clockLane pol hashOf b c

/-- A hash comes only while it has a place: of the packets begun, fewer than `rx_hash_fifo` has
entries have a hash that has come from `rx_hash` and has no descriptor. -/
def RoomAhead : Prop :=
  ∀ p, rxHashValid (b.lanes p) c p = true → (b.lanes p).begun.length <
    (b.lanes p).allocs.length + (b.lanes p).hashing.length + 2 ^ Q.hashFifoWidth
deriving Decidable

/-- Nothing has arrived yet. -/
structure Idle (l : Lane Q) : Prop where
  current : l.current = []
  hashing : l.hashing = []
  dataFifo : l.dataFifo = []
  adder : l.adder.state = .hdr
  begun : l.begun = []
  allocs : l.allocs = []
  left : l.left = []

/-- **What a packet should come out as**: with its hash in front, for the descriptor that
was allocated to the hash, or not at all. -/
def expected (p : Fin Q.ifCount) (x : Pkt Q × Alloc Q) : List (Out Q) :=
  HeaderAdderBlocking.expected (H := 4)
    ⟨x.2.drop, x.2.rxHash.hash, (x.2.descData, BitVec.ofNat Q.portWidth p)⟩ x.1

/-- No hash that comes with room ahead finds `rx_hash_fifo` full, and what leaves an interface
are its packets in order, each with its own hash. -/
structure Aligned : Prop where
  ready : ∀ c, RoomAhead b c → ∀ p, (lbCycle pol b c).rxHashValid p = true →
    ((pol.front b.regs).rxHashFifo p).dinReady = true
  own : ∀ p, ∃ pairs : List (Pkt Q × Alloc Q),
    pairs.map Prod.fst <+: (b.lanes p).begun ∧ pairs.map Prod.snd <+: (b.lanes p).allocs ∧
    (∀ x ∈ pairs, x.2.rxHash = hashOf p x.1) ∧
    (b.lanes p).left <+: pairs.flatMap (expected p)

end Bench

/-! ## The hashes of an interface -/

/-- What an entry of `rx_hash_n_desc_fifo` holds of an allocation. -/
def Alloc.entry (a : Alloc Q) : Bool × BitVec 32 × IdTag Q.toHashConfig :=
  (a.drop, a.rxHash.hash, a.descData)

/-- The hashes of the packets begun are those allocated, waiting, and still computed; and the
FIFO is ready for the next unless it is full. -/
structure Hashes (fifo : BasicFifo Q.hashFifoWidth RxHash) (hash : Pkt Q → RxHash)
    (l : Lane Q) : Prop where
  order : l.allocs.map Alloc.rxHash ++ fifo.contents ++ l.hashing = l.begun.map hash
  ready : fifo.dinReady = false → fifo.contents.length = 2 ^ Q.hashFifoWidth ∨ l.hashing = []

/-- The packets begun and the hashes allocated, in pairs as far as the header adder has
got: what leaves and is still owed is what should come out for them. -/
structure Stream (pol : Policy Q R E) (fifo : BasicFifo Q.hashFifoWidth E) (p : Fin Q.ifCount)
    (l : Lane Q) (pairs : List (Pkt Q × Alloc Q)) (fresh : List (Pkt Q)) (queued : List (Alloc Q))
    (part : List (Word Q)) (owed : List (Out Q)) : Prop where
  begun : l.begun = pairs.map Prod.fst ++ fresh
  allocs : l.allocs = pairs.map Prod.snd ++ queued
  entries : fifo.contents.map pol.view = queued.map Alloc.entry
  owes : Owes l.adder part owed
  words : l.dataFifo ++ l.current = part ++ fresh.flatMap Packet.beats
  left : l.left ++ owed = pairs.flatMap (expected p)

/-! ## The FIFOs of the policy -/

section Fifos
variable (pol : Policy Q R E) (hashOf : Fin Q.ifCount → Pkt Q → RxHash) (b : Bench Q R)
  (c : Cycle Q) (p : Fin Q.ifCount)

abbrev hashFifo : BasicFifo Q.hashFifoWidth RxHash := (pol.front b.regs).rxHashFifo p

abbrev descFifo : BasicFifo Q.hashFifoWidth E := (pol.front b.regs).rxHashNDescFifo p

def hashFifoIn : BasicFifo.Inputs RxHash :=
  rxHashFifoIn (pol.front b.regs) (lbCycle pol b c) (pol.take b.regs (lbCycle pol b c)) p

def descFifoIn : BasicFifo.Inputs E :=
  rxHashNDescFifoIn (pol.front b.regs) (lbCycle pol b c) (pol.take b.regs (lbCycle pol b c))
    (pol.entry b.regs (lbCycle pol b c)) p

theorem hashFifo_clock :
    hashFifo pol (clock pol hashOf b c) p = (hashFifo pol b p).next (hashFifoIn pol b c p) := by
  rw [hashFifo, clock, pol.front_next]
  rfl

theorem descFifo_clock :
    descFifo pol (clock pol hashOf b c) p = (descFifo pol b p).next (descFifoIn pol b c p) := by
  rw [descFifo, clock, pol.front_next]
  rfl

variable {pol b} (hsel : Selected (pol.front b.regs))
include hsel

/-- The hash that leaves `rx_hash_fifo` is the one that is allocated. -/
theorem hashFifo_out :
    (if (hashFifo pol b p).deque (hashFifoIn pol b c p) then [(hashFifo pol b p).dout] else []) =
      (allocates pol b c p).map Alloc.rxHash := by
  rw [show (hashFifo pol b p).deque (hashFifoIn pol b c p) = _ from hsel.consumes_eq p, allocates]
  split <;> rfl

/-- The entry stored is that of the allocation. -/
theorem descFifo_in :
    (if (descFifo pol b p).enque (descFifoIn pol b c p) then
      [pol.view (pol.entry b.regs (lbCycle pol b c))] else []) =
      (allocates pol b c p).map Alloc.entry := by
  rw [show (descFifo pol b p).enque (descFifoIn pol b c p) = _ from hsel.pushes_eq p, allocates]
  split
  · rename_i ht
    have hhash := (hsel.chosen_of_taken ht).selectedHash_eq
    have hview := pol.view_entry b.regs (lbCycle pol b c)
    rw [hhash] at hview
    exact congrArg (fun x => [x]) (Prod.ext rfl hview)
  · rfl

end Fifos

section Step
variable {pol : Policy Q R E} {hashOf : Fin Q.ifCount → Pkt Q → RxHash} {b : Bench Q R}
  {c : Cycle Q} {p : Fin Q.ifCount}

theorem hashing_ne_nil {l : Lane Q} (hv : rxHashValid l c p = true) : l.hashing ≠ [] := by
  intro hnil
  simp [rxHashValid, hnil] at hv

theorem Hashes.ready_of_valid {fifo : BasicFifo Q.hashFifoWidth RxHash} {hash : Pkt Q → RxHash}
    {l : Lane Q} (h : Hashes fifo hash l) (hv : rxHashValid l c p = true)
    (hroom : l.begun.length < l.allocs.length + l.hashing.length + 2 ^ Q.hashFifoWidth) :
    fifo.dinReady = true := by
  have hlen := congrArg List.length h.order
  simp only [List.length_append, List.length_map] at hlen
  by_contra hn
  rcases h.ready (Bool.not_eq_true _ ▸ hn) with hfull | hnil
  · omega
  · exact hashing_ne_nil hv hnil

section Hash
variable (hsel : Selected (pol.front b.regs))
  (hh : Hashes (hashFifo pol b p) (hashOf p) (b.lanes p)) (hroom : RoomAhead b c)
include hh hroom

/-- The hash presented is stored. -/
theorem hashFifo_in :
    (if (hashFifo pol b p).enque (hashFifoIn pol b c p) then [(lbCycle pol b c).rxHash p] else []) =
      (b.lanes p).hashing.take (rxHashValid (b.lanes p) c p).toNat := by
  cases hv : rxHashValid (b.lanes p) c p with
  | false => simp [BasicFifo.enque, hashFifoIn, rxHashFifoIn, lbCycle, hv]
  | true =>
    have hready := hh.ready_of_valid hv (hroom p hv)
    obtain ⟨x, xs, hl⟩ := List.exists_cons_of_ne_nil (hashing_ne_nil hv)
    simp [BasicFifo.enque, hashFifoIn, rxHashFifoIn, lbCycle, hv, hready, hl]

include hsel

/-- **No hash is lost** between `rx_hash` and the allocation. -/
theorem hashFifo_conservation :
    (hashFifo pol b p).contents ++
        (b.lanes p).hashing.take (rxHashValid (b.lanes p) c p).toNat =
      (allocates pol b c p).map Alloc.rxHash ++
        (hashFifo pol (clock pol hashOf b c) p).contents := by
  rw [hashFifo_clock, ← hashFifo_out c p hsel, ← hashFifo_in hh hroom]
  exact BasicFifo.conservation (hsel.hashFifo p) rfl

theorem Hashes.clock :
    Hashes (hashFifo pol (HashPath.clock pol hashOf b c) p) (hashOf p)
      ((HashPath.clock pol hashOf b c).lanes p) where
  order := by
    change ((b.lanes p).allocs ++ allocates pol b c p).map _ ++ _ ++
      ((b.lanes p).hashing.drop _ ++ (begins pol (b.lanes p) c p).map _) =
      ((b.lanes p).begun ++ begins pol (b.lanes p) c p).map _
    have hcons := hashFifo_conservation hsel hh hroom
    calc _ = (b.lanes p).allocs.map Alloc.rxHash ++ ((allocates pol b c p).map Alloc.rxHash ++
            (hashFifo pol (HashPath.clock pol hashOf b c) p).contents) ++
            ((b.lanes p).hashing.drop (rxHashValid (b.lanes p) c p).toNat ++
              (begins pol (b.lanes p) c p).map (hashOf p)) := by
          rw [List.map_append, List.append_assoc (List.map _ (b.lanes p).allocs)]
      _ = (b.lanes p).allocs.map Alloc.rxHash ++ (hashFifo pol b p).contents ++
            ((b.lanes p).hashing.take (rxHashValid (b.lanes p) c p).toNat ++
              (b.lanes p).hashing.drop (rxHashValid (b.lanes p) c p).toNat) ++
              (begins pol (b.lanes p) c p).map (hashOf p) := by
          rw [← hcons]
          simp only [List.append_assoc]
      _ = _ := by rw [List.take_append_drop, hh.order, List.map_append]
  ready := by
    intro hnot
    rw [hashFifo_clock] at hnot ⊢
    have hvalid := (hsel.hashFifo p).next Q.hashFifoWidth_pos (hashFifoIn pol b c p)
    refine .inl (Nat.le_antisymm hvalid.length_le (Nat.le_of_not_lt fun hlt => ?_))
    have hready := BasicFifo.dinReady_next_of_lt (hsel.hashFifo p) rfl hlt
    rw [hnot] at hready
    exact Bool.false_ne_true hready

end Hash

/-! ## The words of an interface -/

/-- What arrives and what is left of the current packet is what there was. -/
theorem arrives_append (l : Lane Q) (c : Cycle Q) (p : Fin Q.ifCount) :
    arrives pol l c p ++ (supply pol l c p).drop (arrives pol l c p).length = supply pol l c p := by
  unfold arrives
  split
  · rcases supply pol l c p with _ | ⟨w, ws⟩ <;> rfl
  · rfl

/-- The word on offer is the oldest one of the data FIFO. -/
theorem dataFifo_of_valid {l : Lane Q} {r : R} (h : dataFifoValid l c p = true) :
    ∃ ws, l.dataFifo = word (adderIn pol r l c p) :: ws := by
  cases hl : l.dataFifo with
  | nil => simp [dataFifoValid, hl] at h
  | cons w ws => exact ⟨ws, by simp [word, adderIn, hl]⟩

section Words
variable {pairs : List (Pkt Q × Alloc Q)} {fresh : List (Pkt Q)} {queued : List (Alloc Q)}
  {part : List (Word Q)} {owed : List (Out Q)}

/-- The words to come after a cycle: one may have been taken from the front, and a packet
may have begun. -/
theorem words_clock (rest : List (Word Q))
    (h : (b.lanes p).dataFifo.drop (takesWord (b.lanes p).adder
      (adderIn pol b.regs (b.lanes p) c p)).toNat ++ (b.lanes p).current = rest) :
    ((clock pol hashOf b c).lanes p).dataFifo ++ ((clock pol hashOf b c).lanes p).current =
      rest ++ (begins pol (b.lanes p) c p).flatMap Packet.beats := by
  change (b.lanes p).dataFifo.drop _ ++ arrives pol (b.lanes p) c p ++
    (supply pol (b.lanes p) c p).drop _ = _
  rw [List.append_assoc, arrives_append, supply, ← List.append_assoc, h]

variable (hsel : Selected (pol.front b.regs))
  (h : Stream pol (descFifo pol b p) p (b.lanes p) pairs fresh queued part owed)
include hsel h

/-- The entries after a cycle. -/
theorem entries_clock {taken left' : List (Alloc Q)} (hq : queued = taken ++ left')
    (ht : taken.length = (takesHeader (b.lanes p).adder
      (adderIn pol b.regs (b.lanes p) c p)).toNat) :
    (descFifo pol (clock pol hashOf b c) p).contents.map pol.view =
      (left' ++ allocates pol b c p).map Alloc.entry := by
  have hdeq : (descFifo pol b p).deque (descFifoIn pol b c p) =
      takesHeader (b.lanes p).adder (adderIn pol b.regs (b.lanes p) c p) := rfl
  rw [descFifo_clock, BasicFifo.contents_next (hsel.descFifo p) rfl, List.map_append,
    List.map_append, ← descFifo_in c p hsel, List.map_drop, h.entries, hdeq, ← ht, hq,
    List.map_append, List.drop_left' (List.length_map _)]
  congr 1
  split <;> rfl

/-- A cycle in which no header is taken. -/
theorem Stream.clock_inside {part' : List (Word Q)} {owed' : List (Out Q)}
    (hno : takesHeader (b.lanes p).adder (adderIn pol b.regs (b.lanes p) c p) = false)
    (hword : (b.lanes p).dataFifo.drop (takesWord (b.lanes p).adder
      (adderIn pol b.regs (b.lanes p) c p)).toNat ++ (b.lanes p).current =
        part' ++ fresh.flatMap Packet.beats)
    (howed : owed = outs (b.lanes p).adder (adderIn pol b.regs (b.lanes p) c p) ++ owed')
    (hnext : Owes (HeaderAdderBlocking.next false (b.lanes p).adder
      (adderIn pol b.regs (b.lanes p) c p)) part' owed') :
    Stream pol (descFifo pol (clock pol hashOf b c) p) p ((clock pol hashOf b c).lanes p) pairs
      (fresh ++ begins pol (b.lanes p) c p) (queued ++ allocates pol b c p) part' owed' where
  begun := by
    change (b.lanes p).begun ++ _ = _
    rw [h.begun, List.append_assoc]
  allocs := by
    change (b.lanes p).allocs ++ _ = _
    rw [h.allocs, List.append_assoc]
  entries := entries_clock hsel h (List.nil_append _).symm (by rw [hno]; rfl)
  owes := hnext
  words := by rw [words_clock _ hword, List.flatMap_append, List.append_assoc]
  left := by
    change (b.lanes p).left ++ _ ++ _ = _
    rw [List.append_assoc, ← howed, h.left]

/-- **A cycle of the header adder**, with what it takes from the data FIFO and from the
FIFO of the descriptors. -/
theorem Stream.clock : ∃ pairs' fresh' queued' part' owed',
    Stream pol (descFifo pol (clock pol hashOf b c) p) p
      ((HashPath.clock pol hashOf b c).lanes p) pairs' fresh' queued' part' owed' := by
  have hHW := Q.four_le_strbWidth
  by_cases hs : (b.lanes p).adder.state = .hdr
  · obtain ⟨rfl, rfl⟩ : part = [] ∧ owed = [] := by simpa [Owes, hs] using h.owes
    cases ht : takesHeader (b.lanes p).adder (adderIn pol b.regs (b.lanes p) c p) with
    | false =>
      obtain ⟨hword, houts, hstate⟩ := HeaderAdderBlocking.waits hs ht
      refine ⟨_, _, _, [], [], h.clock_inside hsel ht ?_ ?_ ?_⟩
      · rw [hword]
        exact h.words
      · rw [houts, List.append_nil]
      · simp [Owes, hstate]
    | true =>
      -- the header on offer is the oldest entry, the word the first one of a packet
      obtain ⟨hhv, hready⟩ := Bool.and_eq_true_iff.mp ht
      obtain ⟨a, queued, rfl, hview⟩ : ∃ a as, queued = a :: as ∧
          pol.view (descFifo pol b p).dout = a.entry := by
        obtain ⟨es, hc⟩ := (hsel.descFifo p).contents_eq_cons hhv
        have hent := h.entries
        rw [hc] at hent
        cases queued with
        | nil => exact absurd hent (List.cons_ne_nil _ _)
        | cons a as => exact ⟨a, as, rfl, (List.cons.inj hent).1⟩
      obtain ⟨ws, hfifo⟩ : ∃ ws, (b.lanes p).dataFifo =
          word (adderIn pol b.regs (b.lanes p) c p) :: ws :=
        dataFifo_of_valid (Bool.and_eq_true_iff.mp (Bool.and_eq_true_iff.mp hready).1).2
      have hwords := h.words
      obtain ⟨q, fresh, rfl⟩ : ∃ q qs, fresh = q :: qs := by
        cases fresh with
        | nil => simp [hfifo] at hwords
        | cons q qs => exact ⟨q, qs, rfl⟩
      rw [hfifo, List.flatMap_cons, q.beats_eq_cons, List.cons_append, List.nil_append,
        List.cons_append] at hwords
      obtain ⟨hfirst, hrest⟩ := List.cons.inj hwords
      obtain ⟨htake, owed', hexp, hnext⟩ :=
        HeaderAdderBlocking.begins (by decide) hHW hs ht hfirst
      refine ⟨pairs ++ [(q, a)], fresh ++ begins pol (b.lanes p) c p,
        queued ++ allocates pol b c p, q.beats.tail, owed', ?_, ?_, ?_, hnext, ?_, ?_⟩
      · change (b.lanes p).begun ++ _ = _
        rw [h.begun]
        simp
      · change (b.lanes p).allocs ++ _ = _
        rw [h.allocs]
        simp
      · exact entries_clock hsel h (List.singleton_append).symm (by rw [ht]; rfl)
      · rw [words_clock (q.beats.tail ++ fresh.flatMap Packet.beats),
          List.flatMap_append, List.append_assoc]
        rw [htake, hfifo]
        exact hrest
      · have hoffered : HeaderAdderBlocking.expected
            (offered (adderIn pol b.regs (b.lanes p) c p)) q = expected p (q, a) := by
          simp only [offered, adderIn, expected]
          rw [show pol.view ((pol.front b.regs).rxHashNDescFifo p).dout = a.entry from hview]
          rfl
        have hleft := h.left
        rw [List.append_nil] at hleft
        change (b.lanes p).left ++ _ ++ _ = _
        rw [List.append_assoc, ← hexp, hoffered, hleft, List.flatMap_append,
          List.flatMap_singleton]
  · have hhead : (adderIn pol b.regs (b.lanes p) c p).sAxisTvalid = true → part ≠ [] →
        part = word (adderIn pol b.regs (b.lanes p) c p) :: part.tail := by
      intro hv hne
      obtain ⟨ws, hfifo⟩ : ∃ ws, (b.lanes p).dataFifo =
          word (adderIn pol b.regs (b.lanes p) c p) :: ws := dataFifo_of_valid hv
      obtain ⟨x, xs, rfl⟩ := List.exists_cons_of_ne_nil hne
      have hwords := h.words
      rw [hfifo, List.cons_append, List.cons_append] at hwords
      rw [(List.cons.inj hwords).1, List.tail_cons]
    obtain ⟨hno, owed', howed, hnext⟩ := h.owes.inside (by decide) hHW hs hhead
    refine ⟨_, _, _, _, owed', h.clock_inside hsel hno ?_ howed hnext⟩
    cases htake : takesWord (b.lanes p).adder (adderIn pol b.regs (b.lanes p) c p) with
    | false => exact h.words
    | true =>
      obtain ⟨ws, hfifo⟩ : ∃ ws, (b.lanes p).dataFifo =
          word (adderIn pol b.regs (b.lanes p) c p) :: ws :=
        dataFifo_of_valid (Bool.and_eq_true_iff.mp htake).1
      obtain ⟨x, xs, rfl⟩ :=
        List.exists_cons_of_ne_nil (h.owes.part_ne_nil hs (ne_lst_of_takesWord htake))
      have hwords := h.words
      rw [hfifo, List.cons_append, List.cons_append] at hwords
      rw [hfifo]
      exact (List.cons.inj hwords).2

end Words

end Step

/-! ## Whole runs -/

section Run
variable {pol : Policy Q R E} {hashOf : Fin Q.ifCount → Pkt Q → RxHash} {b : Bench Q R}
  {c : Cycle Q}

structure Inv (pol : Policy Q R E) (hashOf : Fin Q.ifCount → Pkt Q → RxHash)
    (b : Bench Q R) : Prop where
  selected : Selected (pol.front b.regs)
  hashes : ∀ p, Hashes (hashFifo pol b p) (hashOf p) (b.lanes p)
  stream : ∀ p, ∃ pairs fresh queued part owed,
    Stream pol (descFifo pol b p) p (b.lanes p) pairs fresh queued part owed

theorem Inv.start (h : HashSelect.Start (pol.front b.regs)) (hidle : ∀ p, Idle (b.lanes p)) :
    Inv pol hashOf b where
  selected := h.selected
  hashes := fun p => by
    obtain ⟨-, hhash, -, -, hbegun, hallocs, -⟩ := hidle p
    have hempty := (h.rxHashFifo p).contents_eq
    refine ⟨?_, fun _ => .inr hhash⟩
    rw [hallocs, hempty, hhash, hbegun]
    rfl
  stream := fun p => by
    obtain ⟨hcurrent, -, hfifo, hadder, hbegun, hallocs, hleft⟩ := hidle p
    refine ⟨[], [], [], [], [], hbegun, hallocs, ?_, ?_, ?_, ?_⟩
    · rw [(h.rxHashNDescFifo p).contents_eq]
      rfl
    · simp [Owes, hadder]
    · rw [hfifo, hcurrent]
      rfl
    · rw [hleft]
      rfl

theorem Inv.clock (h : Inv pol hashOf b) (hroom : RoomAhead b c) :
    Inv pol hashOf (clock pol hashOf b c) where
  selected := by
    rw [HashPath.clock, pol.front_next]
    exact h.selected.advance
  hashes := fun p => (h.hashes p).clock h.selected hroom
  stream := fun p => by
    obtain ⟨_, _, _, _, _, hs⟩ := h.stream p
    exact hs.clock h.selected

/-- The hash of each pair is that of its packet: both lists are in the order of arrival. -/
theorem own_hash {hash : Pkt Q → RxHash} {l : Lane Q} {fifo : BasicFifo Q.hashFifoWidth RxHash}
    (h : Hashes fifo hash l) {pairs : List (Pkt Q × Alloc Q)} {fresh : List (Pkt Q)}
    {queued : List (Alloc Q)} (hb : l.begun = pairs.map Prod.fst ++ fresh)
    (ha : l.allocs = pairs.map Prod.snd ++ queued) :
    ∀ x ∈ pairs, x.2.rxHash = hash x.1 := by
  have horder := h.order
  rw [hb, ha, List.map_append, List.map_append, List.map_map, List.map_map, List.append_assoc,
    List.append_assoc] at horder
  have hmap := (List.append_inj horder (by simp)).1
  exact fun x hx => List.map_inj_left.mp hmap x hx

theorem Inv.aligned (h : Inv pol hashOf b) : Aligned pol hashOf b where
  ready := fun c hroom p hv => (h.hashes p).ready_of_valid hv (hroom p hv)
  own := fun p => by
    obtain ⟨pairs, fresh, queued, part, owed, hs⟩ := h.stream p
    refine ⟨pairs, ?_, ?_, own_hash (h.hashes p) hs.begun hs.allocs, ?_⟩
    · exact ⟨fresh, hs.begun.symm⟩
    · exact ⟨queued, hs.allocs.symm⟩
    · exact ⟨owed, hs.left⟩

/-- With room for their hashes, packets keep them under every policy. -/
theorem aligned_run (h : HashSelect.Start (pol.front b.regs)) (hidle : ∀ p, Idle (b.lanes p))
    {cycles : List (Cycle Q)} (hroom : Meets (clock pol hashOf) RoomAhead b cycles) :
    Aligned pol hashOf (run (HashPath.clock pol hashOf) b cycles) :=
  (run_invariant (P := Inv pol hashOf) (fun _ _ hb hc => hb.clock hc) (Inv.start h hidle)
    hroom).aligned

end Run

/-- **Hashes and packets stay aligned if there is room ahead.**  In every run of either
policy from reset, whatever arrives and whatever is available, in which a hash comes only
while it has a place, no hash finds its FIFO full, and what leaves or is dropped are the
packets of the interface in order, each with the hash computed for it and the descriptor
allocated for that hash. -/
theorem aligned_of_room (hashOf : Fin Q.ifCount → Pkt Q → RxHash) (cycles : List (Cycle Q)) :
    (∀ b, LbHashBlocking.Start b.regs → (∀ p, Idle (b.lanes p)) →
      Meets (clock (blocking Q) hashOf) RoomAhead b cycles →
      Aligned (blocking Q) hashOf (run (clock (blocking Q) hashOf) b cycles)) ∧
    (∀ b, LbHashDropping.Start b.regs → (∀ p, Idle (b.lanes p)) →
      Meets (clock (dropping Q) hashOf) RoomAhead b cycles →
      Aligned (dropping Q) hashOf (run (clock (dropping Q) hashOf) b cycles)) := by
  constructor
  · intro b h hidle hroom
    exact aligned_run h.1 hidle hroom
  · intro b h hidle hroom
    exact aligned_run h.front hidle hroom

/-! ## A hash too many -/

/-- One interface with words of 64 bytes.  `rx_hash_fifo` holds two hashes; the data FIFO of
`lb_hash_blocking` holds two words and has two output registers. -/
def onePort : HashPathConfig where
  toHashConfig := { twoPorts with ifCount := 1 }
  strbWidth := 64
  portWidth := 1
  four_le_strbWidth := by decide

/-- A packet of one word of 60 bytes, the lowest of which is `n`. -/
def shortPacket (n : Nat) : Pkt onePort := ⟨[], BitVec.ofNat _ n, 60, by decide, ()⟩

/-- The hash of these packets: their lowest bytes. -/
def lowHash (_ : Fin onePort.ifCount) (q : Pkt onePort) : RxHash :=
  ⟨0, q.final.extractLsb' 0 32⟩

def idleLane (n : Nat) : Lane onePort where
  ahead := (List.range n).map fun k => shortPacket (k + 1)
  current := []
  hashing := []
  dataFifo := []
  adder := ⟨.hdr, 0, 0, 0, 0⟩
  begun := []
  allocs := []
  left := []

theorem idleLane_idle (n : Nat) : Idle (idleLane n) := ⟨rfl, rfl, rfl, rfl, rfl, rfl, rfl⟩

def blockingReset (n : Nat) : Bench onePort (LbHashBlocking.Regs onePort.toHashConfig) :=
  ⟨⟨default, fun _ => 0, fun _ => false⟩, fun _ => idleLane n⟩

def droppingReset (n : Nat) : Bench onePort (LbHashDropping.Regs onePort.toHashConfig) :=
  ⟨⟨default, LbHashDropping.dropLimitReset _, fun _ => false, fun _ => 0⟩,
    fun _ => idleLane n⟩

/-- A cycle in which everything is ready and every core has a slot; a packet is offered if
`offer` is set, and the host writes ones to register `reg` of the cores if it is given. -/
def onePortCycle (offer : Bool) (reg : Option Nat) : Cycle onePort where
  lb :=
    { hostCmd := BitVec.ofNat 29 (reg.getD 0)
      hostCmdForInts := false
      hostCmdWrData := 3
      hostCmdWrEn := reg.isSome
      rxHashValid := fun _ => false
      rxHash := fun _ => ⟨0, 0⟩
      hashNDestOutReady := fun _ => false
      sAxisLineCount := fun _ => 0
      slotValids := fun _ => true
      slotBusys := fun _ => false
      descData := 5 }
  offer := fun _ => offer
  fifoReady := fun _ => true
  fifoValid := fun _ => true
  emit := fun _ => true
  mAxisTready := fun _ => true
  idleWord := ⟨0, 0, false, ()⟩

def onePortIf : Fin onePort.ifCount := ⟨0, by decide⟩

/-- The lowest byte of the hash and of the packet in a word that leaves. -/
def labels : Out onePort → Nat × Nat
  | .word v => ((v.bytes.getD 0 0).toNat, (v.bytes.getD 4 0).toNat)
  | .dropped _ => (0, 0)

/-- Two packets through either policy, once the cores are enabled. -/
theorem aligned_of_room_two :
    let cycles := [onePortCycle false (some 0), onePortCycle false (some 1),
      onePortCycle true none, onePortCycle true none] ++ List.replicate 6 (onePortCycle false none)
    let b := run (clock (blocking onePort) lowHash) (blockingReset 2) cycles
    let b' := run (clock (dropping onePort) lowHash) (droppingReset 2) cycles
    (b.lanes onePortIf).left.map labels = [(1, 1), (2, 2)] ∧
      Aligned (blocking onePort) lowHash b ∧
      (b'.lanes onePortIf).left.map labels = [(1, 1), (2, 2)] ∧
      Aligned (dropping onePort) lowHash b' := by
  intro cycles b b'
  obtain ⟨hblocking, hdropping⟩ := aligned_of_room (Q := onePort) lowHash cycles
  refine ⟨by decide +kernel, ?_, by decide +kernel, ?_⟩
  · exact hblocking (blockingReset 2) ⟨.default, fun _ => rfl⟩
      (fun _ => idleLane_idle 2) (by decide +kernel)
  · exact hdropping (droppingReset 2) ⟨.default, rfl, fun _ => rfl, fun _ => rfl⟩
      (fun _ => idleLane_idle 2) (by decide +kernel)

/-- **A hash is lost.**  Four packets of one word arrive while no core takes packets: they
fit into the data FIFO, but the third hash finds `rx_hash_fifo` full.  When the cores are
enabled and a fifth packet has arrived, the third packet leaves with its hash. -/
theorem hash_lost :
    let arrival := List.replicate 3 (onePortCycle true none)
    let later := [onePortCycle true none, onePortCycle false none, onePortCycle false (some 0),
      onePortCycle false (some 1)] ++ List.replicate 6 (onePortCycle false none) ++
      [onePortCycle true none] ++ List.replicate 6 (onePortCycle false none)
    let b := run (clock (blocking onePort) lowHash) (blockingReset 5) arrival
    let b' := run (clock (blocking onePort) lowHash) b later
    LbHashBlocking.Start (blockingReset 5).regs ∧
      (lbCycle (blocking onePort) b (onePortCycle true none)).rxHashValid onePortIf = true ∧
      (hashFifo (blocking onePort) b onePortIf).dinReady = false ∧
      (b'.lanes onePortIf).left.map labels = [(1, 1), (2, 2), (5, 3)] :=
  ⟨⟨.default, fun _ => rfl⟩, by decide +kernel, by decide +kernel, by decide +kernel⟩

end HashPath
end Rosebud
