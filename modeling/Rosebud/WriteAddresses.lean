import Rosebud.HostReadStatus

/-! # The addresses of PCIe writes

`pcie_cont_write` gives the sink a free slot, keeps the header that `header_remover` shows
with the first word for that slot, and orders the write of the slot to that address once
the sink reports the packet.  Next to the bench we keep the words in the region of every
slot, so that an order can be compared with the packet that is really there.

A slot is free exactly when neither the sink nor an order has it, and the queue of the
orders never overflows.  The header of a packet is lost, though, if its first word is
offered while the sink is not ready: `header_remover` takes the word and stays in its
first state, and the order goes to the address that the next word begins with
(`header_word_lost`).  If the sink is ready for the first word of every packet, an order
has the address, the core tag and the bytes of one packet (`addresses_of_ready`).
-/
namespace Rosebud.PcieContWrite
open Clocked PcieParams AxiStream HeaderRemover

variable {p : PcieParams} {W : Nat}

/-- The bench, with the words last written to the region of each slot. -/
structure Regions (p : PcieParams) (W : Nat) where
  bench : Bench p W
  region : p.Slot → List (TxView p W)

namespace Bench

/-- The regions after the word the sink takes. -/
def write (b : Bench p W) (c : Cycle p W) (region : p.Slot → List (TxView p W)) :
    p.Slot → List (TxView p W) :=
  match b.sink, b.word c with
  | .write desc words, some v => Function.update region desc.tag (words ++ [v])
  | _, _ => region

section Edge
variable {b : Bench p W} (c : Cycle p W)

/-- Only the region of the slot of the sink is written. -/
theorem write_of_not_mem (region : p.Slot → List (TxView p W)) {slot : p.Slot}
    (h : slot ∉ b.sinkSlots) : b.write c region slot = region slot := by
  unfold write
  cases hs : b.sink with
  | idle => rfl
  | drop => rfl
  | write desc words =>
    cases b.word c with
    | none => rfl
    | some v =>
      refine Function.update_of_ne ?_ _ _
      rintro rfl
      exact h (by simp [sinkSlots, hs])

theorem Booked.write_stored (hb : b.Booked) (region : p.Slot → List (TxView p W))
    {y : Stored p W} (hy : y ∈ b.stored) :
    b.write c region y.desc.tag = region y.desc.tag := by
  apply write_of_not_mem
  intro hmem
  have hnodup := hb.balanced.nodup
  rw [held, List.append_assoc, List.nodup_append] at hnodup
  exact hnodup.2.2 _ hmem _ (List.mem_append_left _ (List.mem_map_of_mem hy)) rfl

theorem Booked.write_order (hb : b.Booked) (region : p.Slot → List (TxView p W))
    {d : PcieDesc p} (hd : d ∈ b.pcieDescs) :
    b.write c region (slotOf d.tag) = region (slotOf d.tag) := by
  apply write_of_not_mem
  intro hmem
  have hnodup := hb.balanced.nodup
  rw [held, List.append_assoc, List.nodup_append] at hnodup
  exact hnodup.2.2 _ hmem _ (List.mem_append_right _ (List.mem_map_of_mem hd)) rfl

/-- The words of a packet whose storing ends are in its region, and are the first words of
the first packet not stored yet. -/
theorem Tracked.storing_words {reported waiting rest : List (Packet W (TxSide p))}
    {owed : List (TxWord p W)} (hW : 8 < W)
    (h : Tracked b reported waiting rest owed) (hm : b.front.HeaderMet true (b.frontCycle c))
    (region : p.Slot → List (TxView p W)) {y : Stored p W} (hy : y ∈ b.storing c) :
    b.write c region y.desc.tag = y.words ∧
      ∃ q rest', rest = q :: rest' ∧ y.words <+: (expected 8 true q).map Prod.fst := by
  obtain ⟨owed', -, hword⟩ := word_cases c hW h.owes hm
  unfold storing at hy
  split at hy
  · rename_i desc words v hs hv
    obtain rfl : y = ⟨desc, words ++ [v]⟩ := by
      split at hy
      · exact List.mem_singleton.mp hy
      · exact absurd hy List.not_mem_nil
    refine ⟨by simp [write, hs, hv], ?_⟩
    obtain ⟨taken, rfl, hwithin⟩ := h.sinkAt.within hs
    rcases hword with ⟨hnone, -⟩ | ⟨x, -, hx, rfl⟩
    · rw [hv] at hnone
      exact absurd hnone (by simp)
    · obtain rfl : v = x.1 := Option.some.inj (hv.symm.trans hx)
      obtain ⟨q, rest', more, hrest, hq, -, -⟩ := hwithin.next
      refine ⟨q, rest', hrest, more.map Prod.fst, ?_⟩
      rw [hq]
      simp
  · exact absurd hy List.not_mem_nil

theorem getElem?_of_prefix {α : Type} {xs ys : List α} (h : xs <+: ys) {k : Nat} {x : α}
    (hx : xs[k]? = some x) : ys[k]? = some x := by
  obtain ⟨hk, rfl⟩ := List.getElem?_eq_some_iff.mp hx
  exact List.prefix_iff_getElem?.mp h k hk

/-- Packets already handed to the stream stay. -/
theorem sent_supply (b : Bench p W) (c : Cycle p W) : b.sent <+: (b.supply c).sent := by
  rcases b.supply_cases c with heq | ⟨x, asked, -, heq⟩ <;> rw [heq]
  exact List.prefix_append _ _

theorem length_orders_clock :
    (b.clock c).orders.length = b.orders.length + (b.reporting c).isSome.toNat := by
  change (b.orders ++ b.ordering c).length = _
  rw [List.length_append, ordering]
  cases (b.reporting c).isSome <;> rfl

/-- At most one packet ends in a cycle. -/
theorem length_storing : (b.storing c).length ≤ 1 := by
  unfold storing
  split
  · split <;> simp
  · simp

theorem length_reporting : (b.reporting c).isSome.toNat ≤ b.stored.length := by
  cases hr : b.reporting c with
  | none => simp
  | some y =>
    obtain ⟨more, hmore⟩ := reporting_eq_some c hr
    simp [hmore]

theorem ordering_eq {d : PcieDesc p} (hd : d ∈ b.ordering c) : b.ordering c = [d] := by
  unfold ordering at hd ⊢
  split at hd
  · rename_i hsome
    rw [if_pos hsome, List.mem_singleton.mp hd]
  · exact absurd hd List.not_mem_nil

end Edge
end Bench

/-! ## The bytes of a slot -/

/-- The first words of a packet carry its first bytes. -/
theorem bytes_of_words (hW : 0 < W) {q : Packet W (TxSide p)} {words : List (TxView p W)}
    (h : words <+: (expected 8 true q).map Prod.fst) :
    words.flatMap View.bytes <+: payload q := by
  obtain ⟨more, hmore⟩ := h
  refine ⟨more.flatMap View.bytes, ?_⟩
  rw [← List.flatMap_append, hmore, expected, Bool.or_true, if_pos rfl, List.map_map]
  have hfst : (Prod.fst ∘ fun v : TxView p W => (v, headerOf 8 q)) = id := rfl
  rw [hfst, List.map_id, flatMap_bytes_pack hW]
  rfl

/-- As many bytes as there are, up to a limit. -/
theorem take_of_prefix {α : Type} {xs ys : List α} (h : xs <+: ys) {n limit : Nat}
    (hn : n = min limit xs.length) (hn' : n = min limit ys.length) :
    xs.take n = ys.take limit := by
  obtain ⟨more, rfl⟩ := h
  rw [List.length_append] at hn'
  by_cases hle : limit ≤ xs.length
  · obtain rfl : n = limit := by omega
    rw [List.take_append_of_le_length hle]
  · obtain rfl : more = [] := List.length_eq_zero_iff.mp (by omega)
    rw [List.append_nil, List.take_of_length_le (by omega), List.take_of_length_le (by omega)]

namespace Regions

/-- One cycle. -/
def step (b : Regions p W) (c : Cycle p W) : Regions p W where
  bench := b.bench.step c
  region := (b.bench.supply c).write c b.region

/-- The sink is ready whenever a packet's first word is offered. -/
def Ready (b : Regions p W) (c : Cycle p W) : Prop := b.bench.Ready c
deriving Decidable

/-- The packet number `k` is in the region of the slot of an order, with its core tag. -/
structure Holds (b : Regions p W) (k : Nat) (d : PcieDesc p) : Prop where
  order : b.bench.orders[k]? = some d
  packet : ∃ x, b.bench.sent[k]? = some x ∧
    b.bench.regs.txCoreTag (slotOf d.tag) = x.packet.side.tuser ∧
    ((b.region (slotOf d.tag)).flatMap View.bytes).take d.len.toNat =
      (payload x.packet).take 2048

/-- The words of a stored packet are in its region. -/
structure Filed (b : Regions p W) (j : Nat) (y : Stored p W) : Prop where
  region : b.region y.desc.tag = y.words
  packet : ∃ x, b.bench.sent[b.bench.orders.length + j]? = some x ∧
    y.words <+: (expected 8 true x.packet).map Prod.fst

/-- **What is where**: every stored packet, and every packet with an order. -/
structure Placed (b : Regions p W) : Prop where
  followed : b.bench.Followed
  stored : ∀ j y, b.bench.stored[j]? = some y → b.Filed j y
  orders : ∀ d ∈ b.bench.pcieDescs, b.Holds (b.bench.holder (slotOf d.tag)) d

theorem placed_start {b : Regions p W} (h : b.bench.Start) : b.Placed where
  followed := h.followed
  stored := by simp [h.stored]
  orders := by simp [Bench.pcieDescs, h.regs.pcieDesc, h.regs.fifo.contents_eq, h.writing]

section Step
variable {b : Regions p W} (c : Cycle p W)

/-- A core hands a packet to the stream. -/
theorem Placed.supply (h : b.Placed) : Placed ⟨b.bench.supply c, b.region⟩ := by
  have hsent := b.bench.sent_supply c
  have hfollowed := h.followed.supply c
  obtain ⟨front, sent, asked, heq⟩ := b.bench.supply_frame c
  rw [heq] at hsent hfollowed ⊢
  constructor
  · exact hfollowed
  · intro j y hy
    obtain ⟨hregion, x, hx, hwords⟩ := h.stored j y hy
    exact ⟨hregion, x, Bench.getElem?_of_prefix hsent hx, hwords⟩
  · intro d hd
    obtain ⟨horder, x, hx, huser, hdata⟩ := h.orders d hd
    exact ⟨horder, x, Bench.getElem?_of_prefix hsent hx, huser, hdata⟩

/-- The clock edge. -/
def clock (b : Regions p W) (c : Cycle p W) : Regions p W :=
  ⟨b.bench.clock c, b.bench.write c b.region⟩

/-- Stored packets move up by one with a report; the one that ends comes behind them. -/
theorem Placed.stored_clock (hW : 8 < W) (h : b.Placed)
    (hm : b.bench.front.HeaderMet true (b.bench.frontCycle c)) (j : Nat) (y : Stored p W)
    (hy : (b.clock c).bench.stored[j]? = some y) : (b.clock c).Filed j y := by
  have hlength := b.bench.length_orders_clock c
  change (b.bench.stored.drop (b.bench.reporting c).isSome.toNat ++
    b.bench.storing c)[j]? = some y at hy
  by_cases hj : j < (b.bench.stored.drop (b.bench.reporting c).isSome.toNat).length
  · rw [List.getElem?_append_left hj, List.getElem?_drop] at hy
    obtain ⟨hregion, x, hx, hwords⟩ := h.stored _ y hy
    refine ⟨?_, x, ?_, hwords⟩
    · rw [← hregion]
      exact h.followed.booked.write_stored c _ (List.mem_of_getElem? hy)
    · change b.bench.sent[(b.bench.clock c).orders.length + j]? = _
      rw [hlength, Nat.add_assoc]
      exact hx
  · rw [List.getElem?_append_right (by omega)] at hy
    obtain ⟨reported, waiting, rest, owed, htracked⟩ := h.followed.tracked
    obtain ⟨hregion, q, rest', rfl, hwords⟩ :=
      htracked.storing_words c hW hm b.region (List.mem_of_getElem? hy)
    -- at most one packet ends in a cycle
    have hone : (b.bench.storing c).length ≤ 1 := b.bench.length_storing c
    have hlt := (List.getElem?_eq_some_iff.mp hy).1
    refine ⟨hregion, ?_⟩
    have hreported := htracked.orders.length_eq
    have hwaiting := htracked.stored.length_eq
    have hle := b.bench.length_reporting c
    rw [List.length_drop] at hj hlt
    have hpacket :
        (b.bench.sent.map Sent.packet)[(b.bench.clock c).orders.length + j]? = some q := by
      have hindex : (b.bench.clock c).orders.length + j = (reported ++ waiting).length := by
        rw [hlength, List.length_append]
        omega
      rw [htracked.packets, hindex, List.getElem?_append_right (Nat.le_refl _), Nat.sub_self]
      rfl
    rw [List.getElem?_map] at hpacket
    obtain ⟨x, hx, rfl⟩ := Option.map_eq_some_iff.mp hpacket
    exact ⟨x, hx, hwords⟩

/-- The order made for a reported packet is the next one, and has what was stored. -/
theorem Placed.ordering_holds (hW : 8 < W) (h : b.Placed) (hnext : (b.bench.clock c).Followed)
    {d : PcieDesc p} (hd : d ∈ b.bench.ordering c) :
    (b.clock c).Holds ((b.bench.clock c).holder (slotOf d.tag)) d := by
  obtain ⟨hholder, x, hx, huser⟩ := h.followed.ordering_user c hd
  have hsingle : b.bench.ordering c = [d] := b.bench.ordering_eq c hd
  have horder : (b.bench.clock c).orders[b.bench.orders.length]? = some d := by
    change (b.bench.orders ++ b.bench.ordering c)[b.bench.orders.length]? = _
    rw [hsingle, List.getElem?_concat_length]
  rw [hholder]
  refine ⟨horder, x, hx, huser, ?_⟩
  obtain ⟨x', hx', hfor⟩ := hnext.orderFor horder
  obtain rfl : x = x' := Option.some.inj (hx.symm.trans hx')
  obtain ⟨y, more, -, hstored, hslot, hlen⟩ := b.bench.reporting_of_ordering c hd
  obtain ⟨hregion, x'', hx'', hwords⟩ := h.stored 0 y (by simp [hstored])
  obtain rfl : x = x'' := Option.some.inj (hx.symm.trans hx'')
  have hmem : y ∈ b.bench.stored := by simp [hstored]
  have hsame : (b.clock c).region (slotOf d.tag) = y.words := by
    rw [hslot, ← hregion]
    exact h.followed.booked.write_stored c _ hmem
  rw [hsame]
  refine take_of_prefix (bytes_of_words (by omega) hwords) ?_ hfor.len
  have hle := h.followed.booked.len_le hmem
  rw [hlen, BitVec.toNat_ofNat, Nat.mod_eq_of_lt (by omega), Stored.len,
    (h.followed.booked.storedOk y hmem).2]
  rfl

/-- **One clock edge keeps what is where.** -/
theorem Placed.clock (hW : 8 < W) (h : b.Placed)
    (hm : b.bench.front.HeaderMet true (b.bench.frontCycle c)) : (b.clock c).Placed := by
  have hfollowed : (b.bench.clock c).Followed := by
    obtain ⟨hbooked, hasked, reported, waiting, rest, owed, htracked⟩ := h.followed
    exact ⟨hbooked.clock c, hasked.clock c, htracked.clock c hW hbooked hm⟩
  refine ⟨hfollowed, h.stored_clock c hW hm, ?_⟩
  intro d hd
  have hmem := (h.followed.booked.pcieDescs_clock c).subset (List.mem_append_left _ hd)
  rcases List.mem_append.mp hmem with hnew | hold
  · exact h.ordering_holds c hW hfollowed hnew
  · obtain ⟨horder, x, hx, huser, hdata⟩ := h.orders d hold
    obtain ⟨hholder, htag⟩ := h.followed.booked.entries_clock c hold
    change (b.clock c).Holds ((b.bench.clock c).holder (slotOf d.tag)) d
    rw [hholder]
    refine ⟨Bench.getElem?_of_prefix (List.prefix_append _ _) horder, x, hx, ?_, ?_⟩
    · exact htag.trans huser
    · rw [← hdata]
      change ((b.bench.write c b.region (slotOf d.tag)).flatMap View.bytes).take _ = _
      rw [h.followed.booked.write_order c _ hold]

theorem Placed.step (hW : 8 < W) (h : b.Placed) {c : Cycle p W} (hc : b.Ready c) :
    (b.step c).Placed := (h.supply c).clock c hW hc

end Step

/-- **Every order is for the packet in its slot.**  In every run in which the sink is ready
for the first word of every packet, whatever the cores send and in whatever order the PCIe
engine completes: the free slots are those neither the sink nor an order has, and no slot
is given twice; every order that is not completed has the address, the core tag and the
bytes of the packet whose words are in the region of its slot, up to the 2048 bytes of a
region; and an order is pushed to the queue only when the queue has room. -/
theorem addresses_of_ready (hW : 8 < W) {b : Regions p W} (hstart : b.bench.Start)
    {cycles : List (Cycle p W)} (hc : Meets Regions.step Regions.Ready b cycles) :
    let b' := run Regions.step b cycles
    (b'.bench.held.Nodup ∧
      (∀ slot ∈ b'.bench.held, slot.toNat < p.slotCount) ∧
      ∀ slot : p.Slot, slot.toNat < p.slotCount →
        (PcieSlots.isFree b'.bench.regs.txSlot slot = true ↔ slot ∉ b'.bench.held)) ∧
      (∀ d ∈ b'.bench.pcieDescs, ∃ x,
        b'.bench.sent[b'.bench.holder (slotOf d.tag)]? = some x ∧
        d.pcieAddr = headerOf 8 x.packet ∧
        b'.bench.regs.txCoreTag (slotOf d.tag) = x.packet.side.tuser ∧
        ((b'.region (slotOf d.tag)).flatMap View.bytes).take d.len.toNat =
          (payload x.packet).take 2048) ∧
      (b'.bench.regs.pcieDmaWriteDescValid = true →
        b'.bench.regs.pcieDmaWriteDescFifo.dinReady = true) := by
  intro b'
  have hplaced : b'.Placed :=
    run_invariant (P := Placed) (fun _ _ hb hcyc => hb.step hW hcyc) (placed_start hstart) hc
  have hbooked := hplaced.followed.booked
  refine ⟨⟨hbooked.balanced.nodup, fun slot => hbooked.balanced.lt_slotCount, ?_⟩, ?_,
    hbooked.room⟩
  · intro slot hslot
    refine ⟨hbooked.balanced.not_mem, ?_⟩
    intro hnot
    have hcount := hbooked.balanced slot
    rw [List.count_eq_zero_of_not_mem hnot, decide_eq_true hslot] at hcount
    cases hfree : PcieSlots.isFree b'.bench.regs.txSlot slot with
    | true => rfl
    | false => simp [hfree] at hcount
  · intro d hd
    obtain ⟨horder, x, hx, huser, hdata⟩ := hplaced.orders d hd
    obtain ⟨x', hx', hfor⟩ := hplaced.followed.orderFor horder
    obtain rfl : x = x' := Option.some.inj (hx.symm.trans hx')
    exact ⟨x, hx, hfor.pcieAddr, huser, hdata⟩

/-! ## A header word offered too early -/

/-- The bench after a reset, with nothing in the regions. -/
def afterReset : Regions board 64 := ⟨Bench.afterReset, fun _ => []⟩

/-- A packet of core 0 for address 4096, whose second word begins with 7. -/
def twoWords : Packet 64 (TxSide board) := ⟨[4096], 7, 16, by decide, ⟨0, 0, true⟩⟩

/-- A core sends the packet once the sink has its descriptor. -/
def sendAfter : List (Cycle board 64) :=
  [Bench.quiet, { Bench.quiet with send := some (twoWords, none) }] ++
    List.replicate 5 Bench.quiet

/-- A core sends the packet in the cycle in which the sink takes its descriptor. -/
def sendBefore : List (Cycle board 64) :=
  [{ Bench.quiet with send := some (twoWords, none) }] ++ List.replicate 4 Bench.quiet

/-- Sent after the sink has its descriptor, the packet is written to its address. -/
theorem addresses_of_ready_two :
    let b' := run Regions.step afterReset sendAfter
    b'.bench.pcieDescs.map PcieDesc.pcieAddr = [4096] ∧
      (b'.bench.held.Nodup ∧
        (∀ slot ∈ b'.bench.held, slot.toNat < board.slotCount) ∧
        ∀ slot : board.Slot, slot.toNat < board.slotCount →
          (PcieSlots.isFree b'.bench.regs.txSlot slot = true ↔ slot ∉ b'.bench.held)) ∧
      (∀ d ∈ b'.bench.pcieDescs, ∃ x,
        b'.bench.sent[b'.bench.holder (slotOf d.tag)]? = some x ∧
        d.pcieAddr = headerOf 8 x.packet ∧
        b'.bench.regs.txCoreTag (slotOf d.tag) = x.packet.side.tuser ∧
        ((b'.region (slotOf d.tag)).flatMap View.bytes).take d.len.toNat =
          (payload x.packet).take 2048) ∧
      (b'.bench.regs.pcieDmaWriteDescValid = true →
        b'.bench.regs.pcieDmaWriteDescFifo.dinReady = true) :=
  ⟨by decide +kernel,
    addresses_of_ready (by decide) Bench.afterReset_start (by decide +kernel)⟩

/-- **The first word is lost.**  The only packet has the address 4096, its first word is
offered while the sink has no descriptor, and its order is for the address 7, with which
the second word begins. -/
theorem header_word_lost :
    afterReset.bench.Start ∧
      let b' := run Regions.step afterReset sendBefore
      b'.bench.sent.map (fun x => headerOf 8 x.packet) = [4096] ∧
        b'.bench.pcieDescs.map PcieDesc.pcieAddr = [7] := by
  refine ⟨Bench.afterReset_start, ?_⟩
  decide +kernel

end Regions
end Rosebud.PcieContWrite
