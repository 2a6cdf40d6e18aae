import Mathlib.Data.List.Forall2
import Rosebud.PcieContWrite

/-! # Host reads of core memory

A packet becomes an order of the PCIe engine in two places that do not see each other:
the header goes into the table of `pcie_cont_write` at the slot remembered in
`last_tx_slot`, the bytes into the region of the slot, and the two meet again when the
sink reports the slot.  `Tracked` follows every packet through both: the packets already
ordered, those stored and not reported, and the one in the sink, of which the header
table has the header once its first word was visible.

The fixed length of the sink's descriptors cuts every packet at 2048 bytes
(`long_read_truncated`), and a header word that meets a sink without a descriptor is lost
in the header remover.  Apart from these two, the order made for the answer to a request
is for the address and the length of the request (`orders_of_ready`).
-/
namespace Rosebud.PcieContWrite
open Clocked PcieParams AxiStream
open HeaderRemover (Owes expected expectedAll headerOf Received)

variable {p : PcieParams} {W : Nat}

/-! ## Messages -/

theorem pcieAddr_ctrlMessage (d : HostDesc) : (ctrlMessage p d).extractLsb' 64 64 = d.pcieAddr := by
  apply BitVec.eq_of_getLsbD_eq
  intro i hi
  have hlen : ¬ 64 + i < 32 := by omega
  have hram : ¬ 64 + i - 32 < 32 := by omega
  have hpcie : 64 + i - 32 - 32 = i := by omega
  simp only [BitVec.getLsbD_extractLsb', ctrlMessage, BitVec.getLsbD_append, hlen, hram, hpcie, hi]
  simp

theorem len_ctrlMessage (d : HostDesc) : (ctrlMessage p d).extractLsb' 0 16 = d.len := by
  apply BitVec.eq_of_getLsbD_eq
  intro i hi
  have hlen : 0 + i < 32 := by omega
  simp only [BitVec.getLsbD_extractLsb', ctrlMessage, BitVec.getLsbD_append, hlen, hi]
  simp [BitVec.getLsbD_setWidth]
  omega

namespace Bench
variable {b : Bench p W}

/-- A packet is what a core returns for a request. -/
structure Returns (d : HostDesc) (q : Packet W (TxSide p)) : Prop where
  header : headerOf 8 q = d.pcieAddr
  length : (payload q).length = d.len.toNat
  tuser : q.side.tuser = (hostWrDestCore d : BitVec p.coreWidth) ++ (0 : BitVec p.coreTagWidth)

/-- **Requests reach their cores as they were accepted**, and answers answer them. -/
structure Asked (b : Bench p W) : Prop where
  message : b.regs.coresCtrlMTvalid = true → ∃ earlier d, b.requests = earlier ++ [d] ∧
    b.regs.coresCtrlMTdata = ctrlMessage p d ∧ b.regs.coresCtrlMTdest = hostWrDestCore d
  asked : ∀ core n message, b.asked core = some (n, message) → ∃ d,
    b.requests[n]? = some d ∧ message = ctrlMessage p d ∧ hostWrDestCore d = core
  sent : ∀ x ∈ b.sent, ∀ n, x.answers = some n → ∃ d,
    b.requests[n]? = some d ∧ Returns d x.packet

theorem Start.asked_start (h : b.Start) : b.Asked := by
  constructor
  · simp [h.regs.ctrl]
  · intro core n message hasked
    simp [h.asked core] at hasked
  · simp [h.sent]

theorem returns_of_answers {core : BitVec p.coreWidth} {d : HostDesc} {q : Packet W (TxSide p)}
    (hcore : hostWrDestCore d = core) (h : Answers core (ctrlMessage p d) q) : Returns d q := by
  obtain ⟨hheader, hlen, huser⟩ := h
  constructor
  · rw [hheader]
    exact pcieAddr_ctrlMessage d
  · rw [hlen, len_ctrlMessage]
  · rw [huser, hcore]

theorem Asked.supply (h : b.Asked) (c : Cycle p W) : (b.supply c).Asked := by
  rcases b.supply_cases c with heq | ⟨x, asked, hs, heq⟩
  · rwa [heq]
  · rw [heq]
    refine ⟨h.message, fun core n m hk => h.asked core n m (hs.kept core n m hk), ?_⟩
    intro y hy k hk
    rcases List.mem_append.mp hy with hold | hnew
    · exact h.sent y hold k hk
    · obtain rfl := List.mem_singleton.mp hnew
      obtain ⟨core, m, hasked, -, hans⟩ := hs.answer k hk
      obtain ⟨d, hd, rfl, hcore⟩ := h.asked core k m hasked
      exact ⟨d, hd, returns_of_answers hcore hans⟩

/-- Earlier requests keep their numbers. -/
theorem requests_clock (b : Bench p W) (c : Cycle p W) {n : Nat} {d : HostDesc}
    (hd : b.requests[n]? = some d) : (b.clock c).requests[n]? = some d := by
  change (if _ then _ else _ : List HostDesc)[n]? = _
  split
  · have hlt := (List.getElem?_eq_some_iff.mp hd).1
    rwa [List.getElem?_append_left hlt]
  · exact hd

theorem Asked.clock (h : b.Asked) (c : Cycle p W) : (b.clock c).Asked := by
  constructor
  · intro hvalid
    have hacc : b.regs.hostAccept (b.inputs c) = true := by simpa [Bench.clock, next] using hvalid
    refine ⟨b.requests, c.host, ?_, ?_, ?_⟩
    · simp [Bench.clock, hacc]
    · simp [Bench.clock, next, hacc]
    · simp [Bench.clock, next, hacc]
  · intro core n message hasked
    change (if _ then _ else _ : BitVec p.coreWidth → Option (Nat × BitVec 128)) core = _ at hasked
    split at hasked
    · rename_i hsent
      obtain ⟨earlier, d, hreq, hdata, hdest⟩ := h.message (Bool.and_eq_true_iff.mp hsent).1
      by_cases hc : core = b.regs.coresCtrlMTdest
      · rw [hc, Function.update_self, Option.some.injEq, Prod.mk.injEq] at hasked
        obtain ⟨rfl, rfl⟩ := hasked
        refine ⟨d, b.requests_clock c ?_, hdata, by rw [hc, hdest]⟩
        simp [hreq]
      · rw [Function.update_of_ne hc] at hasked
        obtain ⟨d, hd, hrest⟩ := h.asked core n message hasked
        exact ⟨d, b.requests_clock c hd, hrest⟩
    · obtain ⟨d, hd, hrest⟩ := h.asked core n message hasked
      exact ⟨d, b.requests_clock c hd, hrest⟩
  · intro x hx n hn
    obtain ⟨d, hd, hret⟩ := h.sent x hx n hn
    exact ⟨d, b.requests_clock c hd, hret⟩

/-! ## Packets -/

/-- The order for a packet. -/
structure OrderFor (q : Packet W (TxSide p)) (d : PcieDesc p) : Prop where
  pcieAddr : d.pcieAddr = headerOf 8 q
  len : d.len.toNat = min 2048 (payload q).length

/-- A stored packet: its header is in the table, its bytes are counted, and its sideband
is the one it will be reported with. -/
structure StoredFor (s : PcieContWrite p) (q : Packet W (TxSide p)) (x : Stored p W) : Prop where
  header : s.txPcieAddr x.desc.tag = headerOf 8 q
  len : x.len = min 2048 (payload q).length
  user : x.user = q.side.tuser

/-- A word with the header that is visible with it. -/
abbrev TxWord (p : PcieParams) (W : Nat) := Received W 8 8 (p.coreWidth + p.coreTagWidth)

/-- The sink was given `taken` of the packets `qs`, not yet a whole one, and is still to
be given `owed`. -/
structure Within (qs : List (Packet W (TxSide p))) (taken owed : List (TxWord p W)) : Prop where
  eq : taken ++ owed = expectedAll 8 true qs
  unmarked : ∀ x ∈ taken, x.1.tlast = false

/-- The header of the packet in the sink is in the table. -/
def Latched (b : Bench p W) (rest : List (Packet W (TxSide p))) (desc : AxisWriteDesc p) : Prop :=
  b.regs.lastTxSlotV = false ∧ ∃ q rest', rest = q :: rest' ∧
    b.regs.txPcieAddr desc.tag = headerOf 8 q

/-- Where the sink is in the packets `rest` that are not stored yet. -/
inductive SinkAt (b : Bench p W) (rest : List (Packet W (TxSide p))) (owed : List (TxWord p W)) :
    Prop
  | idle (hs : b.sink = .idle) (hv : b.regs.lastTxSlotV = false)
      (howed : owed = expectedAll 8 true rest)
  | write {desc : AxisWriteDesc p} {taken : List (TxWord p W)}
      (hs : b.sink = .write desc (taken.map Prod.fst)) (hwithin : Within rest taken owed)
      (hlatch : b.regs.lastTxSlotV = true ∧ b.regs.lastTxSlot = desc.tag ∧ taken = [] ∨
        b.Latched rest desc)
  | drop {q : Packet W (TxSide p)} {taken : List (TxWord p W)} (hs : b.sink = .drop)
      (hv : b.regs.lastTxSlotV = false) (hwithin : Within (q :: rest) taken owed)

/-- **Every packet is accounted for**: `reported` have their orders, `waiting` are stored,
and the sink is in `rest`. -/
structure Tracked (b : Bench p W) (reported waiting rest : List (Packet W (TxSide p)))
    (owed : List (TxWord p W)) : Prop where
  packets : b.sent.map Sent.packet = reported ++ waiting ++ rest
  owes : Owes true (b.sent.map Sent.packet) b.front owed
  orders : List.Forall₂ OrderFor reported b.orders
  stored : List.Forall₂ (StoredFor b.regs) waiting b.stored
  sinkAt : SinkAt b rest owed

/-- The sink is ready whenever a packet's first word is offered. -/
def Ready (b : Bench p W) (c : Cycle p W) : Prop :=
  (b.supply c).front.HeaderMet true ((b.supply c).frontCycle c)
deriving Decidable

theorem Start.tracked (h : b.Start) : Tracked b [] [] [] [] := by
  constructor
  · simp [h.sent]
  · refine ⟨[], List.nil_suffix, ?_⟩
    simp [h.front, h.stream, expectedAll]
  · simp [h.orders]
  · simp [h.stored]
  · exact .idle h.sink h.regs.lastTxSlot rfl

/-- The words of a packet end in its last one. -/
theorem framed_expected (q : Packet W (TxSide p)) :
    Framed (fun x => x.1.tlast) (expected 8 true q) := by
  unfold expected
  rw [Bool.or_true, if_pos rfl]
  exact (framed_pack _ _).map fun _ => rfl

theorem expectedAll_append (qs rs : List (Packet W (TxSide p))) :
    expectedAll 8 true (qs ++ rs) = expectedAll 8 true qs ++ expectedAll 8 true rs := by
  simp [expectedAll]

section Within
variable {qs : List (Packet W (TxSide p))} {taken owed : List (TxWord p W)} {x : TxWord p W}

theorem Within.supply (h : Within qs taken owed) (q : Packet W (TxSide p)) :
    Within (qs ++ [q]) taken (owed ++ expected 8 true q) := by
  refine ⟨?_, h.unmarked⟩
  rw [← List.append_assoc, h.eq, expectedAll_append]
  simp [expectedAll]

/-- Given words are unmarked, so the next one is of the first packet. -/
theorem Within.next (h : Within qs taken (x :: owed)) :
    ∃ q qs' more, qs = q :: qs' ∧ expected 8 true q = taken ++ x :: more ∧
      owed = more ++ expectedAll 8 true qs' ∧ (x.1.tlast = true ↔ more = []) := by
  cases qs with
  | nil => exact absurd h.eq (by simp [expectedAll])
  | cons q qs' =>
    have heq := h.eq
    obtain ⟨more, hq, howed, hlast⟩ := (framed_expected q).next h.unmarked heq
    exact ⟨q, qs', more, rfl, hq, howed, hlast⟩

/-- An unmarked word leaves the sink inside the packet. -/
theorem Within.snoc (h : Within qs taken (x :: owed)) (hx : x.1.tlast = false) :
    Within qs (taken ++ [x]) owed := by
  refine ⟨by rw [List.append_assoc, List.singleton_append, h.eq], ?_⟩
  intro y hy
  rcases List.mem_append.mp hy with hold | hnew
  · exact h.unmarked y hold
  · rw [List.mem_singleton.mp hnew, hx]

end Within

/-- One more packet behind the others. -/
theorem Tracked.supply {reported waiting rest : List (Packet W (TxSide p))}
    {owed : List (TxWord p W)} (h : Tracked b reported waiting rest owed) (c : Cycle p W) :
    ∃ rest' owed', Tracked (b.supply c) reported waiting rest' owed' := by
  rcases b.supply_cases c with heq | ⟨⟨q, answers⟩, asked, -, heq⟩
  · rw [heq]
    exact ⟨rest, owed, h⟩
  rw [heq, handOver]
  refine ⟨rest ++ [q], owed ++ expected 8 true q, ?_, by simpa using h.owes.supply q,
    h.orders, h.stored, ?_⟩
  · simp [h.packets]
  · cases h.sinkAt with
    | idle hs hv howed =>
      refine .idle hs hv ?_
      rw [howed, expectedAll_append]
      simp [expectedAll]
    | write hs hwithin hlatch =>
      refine .write hs (hwithin.supply q) (hlatch.imp_right ?_)
      rintro ⟨hv, r, rest', rfl, haddr⟩
      exact ⟨hv, r, rest' ++ [q], rfl, haddr⟩
    | drop hs hv hwithin => exact .drop hs hv (hwithin.supply q)

/-! ## The clock edge -/

section Edge
variable {q : Packet W (TxSide p)} {reported waiting rest : List (Packet W (TxSide p))}
  {owed taken more : List (TxWord p W)} {x : TxWord p W}

/-- Every word of a packet comes with its header and its sideband. -/
theorem of_mem_expected (hx : x ∈ expected 8 true q) :
    x.2 = headerOf 8 q ∧ x.1.side = q.side.tag := by
  unfold expected at hx
  rw [Bool.or_true, if_pos rfl] at hx
  obtain ⟨v, hv, rfl⟩ := List.mem_map.mp hx
  refine ⟨rfl, ?_⟩
  rcases List.mem_append.mp hv with hbody | hlast
  · obtain ⟨k, -, rfl⟩ := List.mem_map.mp hbody
    rfl
  · rw [List.mem_singleton.mp hlast]

theorem of_expected_eq (hq : expected 8 true q = taken ++ x :: more) :
    x.2 = headerOf 8 q ∧ x.1.side = q.side.tag := by
  apply of_mem_expected
  rw [hq]
  exact List.mem_append_right taken List.mem_cons_self

/-- The words of a packet carry its payload. -/
theorem byteCount_expected (hW : 0 < W) (q : Packet W (TxSide p)) :
    byteCount ((expected 8 true q).map Prod.fst) = (payload q).length := by
  unfold byteCount expected
  rw [Bool.or_true, if_pos rfl, List.map_map]
  have hfst : (Prod.fst ∘ fun v : TxView p W => (v, headerOf 8 q)) = id := rfl
  rw [hfst, List.map_id, flatMap_bytes_pack hW]
  rfl

theorem byteCount_append (xs ys : List (TxView p W)) :
    byteCount (xs ++ ys) = byteCount xs + byteCount ys := by
  simp [byteCount]

/-- A packet whose storing ends: with its last word, or with the descriptor used up. -/
theorem storedFor_of_end (hW : 0 < W) {s : PcieContWrite p}
    {desc : AxisWriteDesc p} (hdesc : RegionDesc desc)
    (hq : expected 8 true q = taken ++ x :: more)
    (hend : more = [] ∨ desc.len.toNat ≤ byteCount (taken.map Prod.fst ++ [x.1]))
    (haddr : s.txPcieAddr desc.tag = headerOf 8 q) :
    StoredFor s q ⟨desc, taken.map Prod.fst ++ [x.1]⟩ := by
  have hlen : desc.len.toNat = 2048 := by rw [hdesc.2]; rfl
  have hcount := byteCount_expected hW q
  rw [hq, List.append_cons, List.map_append, byteCount_append, List.map_append] at hcount
  refine ⟨haddr, ?_, ?_⟩
  · unfold Stored.len
    simp only [hlen]
    rcases hend with rfl | hfull
    · rw [← hcount]
      simp [byteCount]
    · simp only [List.map_cons, List.map_nil] at hcount
      omega
  · have hside := (of_expected_eq hq).2
    simp [Stored.user, hside, HeaderRemover.Side.tag]

variable (c : Cycle p W)

/-- The slot whose header is still to be seen is the one of the sink. -/
theorem SinkAt.lastTxSlot_mem (h : SinkAt b rest owed) (hv : b.regs.lastTxSlotV = true) :
    b.regs.lastTxSlot ∈ b.sinkSlots := by
  cases h with
  | idle _ hv' _ | drop _ hv' _ => exact absurd (hv.symm.trans hv') (by simp)
  | write hs _ hlatch =>
    obtain ⟨-, hslot, -⟩ | ⟨hv', -⟩ := hlatch
    · simp [sinkSlots, hs, hslot]
    · exact absurd (hv.symm.trans hv') (by simp)

theorem SinkAt.within {desc : AxisWriteDesc p} {words : List (TxView p W)}
    (h : SinkAt b rest owed) (hs : b.sink = .write desc words) :
    ∃ taken : List (TxWord p W), words = taken.map Prod.fst ∧ Within rest taken owed := by
  cases h with
  | idle hs' _ _ | drop hs' _ _ => exact absurd (hs.symm.trans hs') (by simp)
  | write hs' hwithin _ => exact ⟨_, (Sink.write.inj (hs.symm.trans hs')).2, hwithin⟩

/-- Headers of stored packets stay in the table: only the slot of the sink is written. -/
theorem Tracked.txPcieAddr_stored (hb : b.Booked) (h : SinkAt b rest owed) {x : Stored p W}
    (hx : x ∈ b.stored) :
    (b.clock c).regs.txPcieAddr x.desc.tag = b.regs.txPcieAddr x.desc.tag := by
  change (if _ then _ else _ : p.Slot → BitVec 64) x.desc.tag = _
  split
  · rename_i hlatch
    have hmem := h.lastTxSlot_mem (Bool.and_eq_true_iff.mp hlatch).1
    refine Function.update_of_ne ?_ _ _
    intro heq
    have hnodup := hb.balanced.nodup
    rw [held, List.append_assoc, List.nodup_append] at hnodup
    refine hnodup.2.2 _ hmem _ ?_ heq.symm
    exact List.mem_append_left _ (List.mem_map_of_mem hx)
  · rfl

/-- A relation may be replaced by one that holds for the members. -/
theorem forall₂_imp_of_mem {α β : Type} {R S : α → β → Prop} {l : List α} {m : List β}
    (h : List.Forall₂ R l m) (himp : ∀ a x, x ∈ m → R a x → S a x) : List.Forall₂ S l m := by
  induction h with
  | nil => exact .nil
  | cons hab _ ih =>
    refine .cons (himp _ _ List.mem_cons_self hab) (ih ?_)
    intro a x hx
    exact himp a x (List.mem_cons_of_mem _ hx)

/-- A report makes the order of the packet reported; the others stay stored. -/
theorem Tracked.report (hb : b.Booked) (h : Tracked b reported waiting rest owed) :
    ∃ reported' waiting', reported ++ waiting = reported' ++ waiting' ∧
      List.Forall₂ OrderFor reported' (b.clock c).orders ∧
      List.Forall₂ (StoredFor (b.clock c).regs) waiting'
        (b.stored.drop (b.reporting c).isSome.toNat) := by
  have hkeep : ∀ q x, x ∈ b.stored → StoredFor b.regs q x → StoredFor (b.clock c).regs q x := by
    intro q x hx hq
    refine ⟨?_, hq.len, hq.user⟩
    rw [Tracked.txPcieAddr_stored c hb h.sinkAt hx, hq.header]
  cases hr : b.reporting c with
  | none =>
    refine ⟨reported, waiting, rfl, ?_, ?_⟩
    · simpa [Bench.clock, ordering, hr] using h.orders
    · exact forall₂_imp_of_mem h.stored hkeep
  | some x =>
    obtain ⟨more, hmore⟩ := reporting_eq_some c hr
    have hstored := h.stored
    rw [hmore] at hstored
    cases hstored with
    | cons hq hrest =>
      rename_i q waiting
      have hle := hb.len_le (x := x) (by simp [hmore])
      refine ⟨reported ++ [q], waiting, by simp, ?_, ?_⟩
      · have horders : (b.clock c).orders = b.orders ++ [⟨b.regs.txPcieAddr x.desc.tag,
            regionStart x.desc.tag, BitVec.ofNat 16 x.len, tagOf x.desc.tag⟩] := by
          simp [Bench.clock, ordering, hr, next, inputs]
        rw [horders]
        refine List.rel_append h.orders (.cons ⟨hq.header, ?_⟩ .nil)
        rw [BitVec.toNat_ofNat, Nat.mod_eq_of_lt (by omega), hq.len]
      · simp only [hmore, Option.isSome_some, Bool.toNat_true, List.drop_succ_cons, List.drop_zero]
        refine forall₂_imp_of_mem hrest ?_
        intro q' x' hx'
        exact hkeep q' x' (by simp [hmore, hx'])

/-- Outside the taking of a descriptor, the mark is lowered when a word is visible. -/
theorem lastTxSlotV_clock (hacc : b.regs.descAccept (b.inputs c) = false) :
    (b.clock c).regs.lastTxSlotV = (b.regs.lastTxSlotV && !b.dataValid c) := by
  change (!false && (if b.regs.lastTxSlotV && b.dataValid c then false
    else b.regs.descAccept (b.inputs c) || b.regs.lastTxSlotV)) = _
  rw [hacc]
  cases b.regs.lastTxSlotV <;> cases b.dataValid c <;> rfl

theorem descAccept_of_sink (hs : b.sink ≠ .idle) : b.regs.descAccept (b.inputs c) = false := by
  by_contra hacc
  exact hs (sink_of_descAccept c (Bool.eq_true_of_not_eq_false hacc))

/-- The header of the packet in the sink, once a word of it was visible. -/
theorem header_latched (hW : 8 < W) (howes : Owes true (b.sent.map Sent.packet) b.front owed)
    {desc : AxisWriteDesc p} (hs : b.sink = .write desc (taken.map Prod.fst))
    (hwithin : Within rest taken owed)
    (hlatch : b.regs.lastTxSlotV = true ∧ b.regs.lastTxSlot = desc.tag ∧ taken = [] ∨
      b.Latched rest desc) (hseen : b.dataValid c = true ∨ b.regs.lastTxSlotV = false) :
    (b.clock c).Latched rest desc := by
  have hacc := descAccept_of_sink (b := b) c (by simp [hs])
  change _ ∧ ∃ q rest', _ ∧ (if b.regs.lastTxSlotV && b.dataValid c then _ else _ :
    p.Slot → BitVec 64) desc.tag = headerOf 8 q
  obtain ⟨hv, hslot, -⟩ | ⟨hv, q, rest', hrest, haddr⟩ := hlatch
  · have hvis : b.dataValid c = true := hseen.resolve_right (by simp [hv])
    obtain ⟨owed', rfl⟩ := howes.head hW (c := b.frontCycle c) hvis
    obtain ⟨q, rest', more, hrest, hq, -, -⟩ := hwithin.next
    refine ⟨by simp [lastTxSlotV_clock c hacc, hvis], q, rest', hrest, ?_⟩
    rw [hv, hvis, Bool.and_self, if_pos rfl, hslot, Function.update_self]
    exact (of_expected_eq hq).1
  · refine ⟨by simp [lastTxSlotV_clock c hacc, hv], q, rest', hrest, ?_⟩
    rw [hv, Bool.false_and, if_neg Bool.false_ne_true]
    exact haddr

/-- The sink takes the next word owed, or none. -/
theorem word_cases (hW : 8 < W) (howes : Owes true (b.sent.map Sent.packet) b.front owed)
    (hm : b.front.HeaderMet true (b.frontCycle c)) :
    ∃ owed', Owes true (b.sent.map Sent.packet) (b.clock c).front owed' ∧
      (b.word c = none ∧ owed = owed' ∨
        ∃ x, b.dataValid c = true ∧ b.word c = some x.1 ∧ owed = x :: owed') := by
  obtain ⟨owed', howes', howed⟩ := howes.step hW hm
  refine ⟨owed', howes', ?_⟩
  unfold word
  change owed = (if b.dataValid c && b.dataReady c then _ else _) ++ owed' at howed
  split
  · rename_i htaken
    rw [if_pos htaken] at howed
    exact .inr ⟨_, (Bool.and_eq_true_iff.mp htaken).1, rfl, howed⟩
  · rename_i htaken
    rw [if_neg htaken] at howed
    exact .inl ⟨rfl, howed⟩

theorem sink_clock : (b.clock c).sink = b.sinkNext c := rfl

/-- **What the sink does with a packet**, in a cycle: it moves on in the packets not
stored yet, and stores the one that ends. -/
theorem Tracked.sink_step (hW : 8 < W) (hb : b.Booked)
    (h : Tracked b reported waiting rest owed) (hm : b.front.HeaderMet true (b.frontCycle c)) :
    ∃ ended rest' owed', rest = ended ++ rest' ∧
      Owes true (b.sent.map Sent.packet) (b.clock c).front owed' ∧
      List.Forall₂ (StoredFor (b.clock c).regs) ended (b.storing c) ∧
      SinkAt (b.clock c) rest' owed' := by
  obtain ⟨owed', howes', hword⟩ := word_cases c hW h.owes hm
  cases h.sinkAt with
  | idle hs hv howed =>
    have hnone := word_idle (b := b) c hs
    obtain rfl : owed = owed' := by
      rcases hword with ⟨-, heq⟩ | ⟨x, -, hx, -⟩
      · exact heq
      · exact absurd (hnone.symm.trans hx) (by simp)
    refine ⟨[], rest, owed, rfl, howes', by simp [storing, hs], ?_⟩
    cases hacc : b.regs.descAccept (b.inputs c) with
    | false =>
      exact .idle (by simp [sink_clock, sinkNext, hs, hacc])
        (by simp [lastTxSlotV_clock c hacc, hv]) howed
    | true =>
      have hsink : (b.clock c).sink =
          .write b.regs.axisWriteDesc (([] : List (TxWord p W)).map Prod.fst) := by
        simp [sink_clock, sinkNext, hs, hacc]
      refine .write hsink ⟨howed, by simp⟩ (.inl ⟨?_, ?_, rfl⟩)
      · simp [Bench.clock, next, hv, hacc]
      · simp [Bench.clock, next, hacc, axisWriteDesc]
  | @drop q taken hs hv hwithin =>
    have hacc := descAccept_of_sink (b := b) c (by simp [hs])
    have hv' : (b.clock c).regs.lastTxSlotV = false := by simp [lastTxSlotV_clock c hacc, hv]
    refine ⟨[], rest, owed', rfl, howes', by simp [storing, hs], ?_⟩
    rcases hword with ⟨hnone, rfl⟩ | ⟨x, -, hx, rfl⟩
    · exact .drop (by simp [sink_clock, sinkNext, hs, hnone]) hv' hwithin
    · cases hl : x.1.tlast with
      | true =>
        obtain ⟨q', rest', more, hqs, -, howed, hlast⟩ := hwithin.next
        obtain ⟨rfl, rfl⟩ := List.cons.inj hqs
        refine .idle (by simp [sink_clock, sinkNext, hs, hx, hl]) hv' ?_
        rw [howed, hlast.mp hl, List.nil_append]
      | false => exact .drop (by simp [sink_clock, sinkNext, hs, hx, hl]) hv' (hwithin.snoc hl)
  | @write desc taken hs hwithin hlatch =>
    have hdesc := hb.sinkOk desc _ hs
    rcases hword with ⟨hnone, rfl⟩ | ⟨x, hvis, hx, rfl⟩
    · -- no word is taken, but one may become visible and show the header
      refine ⟨[], rest, owed, rfl, howes', by simp [storing, hs, hnone], ?_⟩
      have hsink : (b.clock c).sink = .write desc (taken.map Prod.fst) := by
        simp [sink_clock, sinkNext, hs, hnone]
      refine .write hsink hwithin ?_
      by_cases hseen : b.dataValid c = true ∨ b.regs.lastTxSlotV = false
      · exact .inr (header_latched c hW h.owes hs hwithin hlatch hseen)
      · obtain ⟨hvis, hv⟩ := not_or.mp hseen
        obtain ⟨hv, hslot, hnil⟩ | ⟨hv', -⟩ := hlatch
        · have hacc := descAccept_of_sink (b := b) c (by simp [hs])
          refine .inl ⟨?_, ?_, hnil⟩
          · simp [lastTxSlotV_clock c hacc, hv, hvis]
          · simpa [Bench.clock, next, hacc] using hslot
        · exact absurd hv' hv
    · obtain ⟨hv', q, rest', rfl, haddr⟩ :=
        header_latched c hW h.owes hs hwithin hlatch (.inl hvis)
      obtain ⟨q', rest'', more, hqs, hq, howed, hlast⟩ := hwithin.next
      obtain ⟨rfl, rfl⟩ := List.cons.inj hqs
      -- the packet ends with its last word, or with the descriptor used up
      have hends : (x.1.tlast = true ∨
          desc.len.toNat ≤ byteCount (taken.map Prod.fst ++ [x.1])) →
          List.Forall₂ (StoredFor (b.clock c).regs) [q] (b.storing c) := by
        intro hend
        have hstoring : b.storing c = [⟨desc, taken.map Prod.fst ++ [x.1]⟩] := by
          simp [storing, hs, hx, hend]
        rw [hstoring]
        exact .cons (storedFor_of_end (by omega) hdesc hq (hend.imp_left hlast.mp) haddr) .nil
      cases hl : x.1.tlast with
      | true =>
        refine ⟨[q], rest', owed', rfl, howes', hends (.inl hl), ?_⟩
        refine .idle (by simp [sink_clock, sinkNext, hs, hx, hl]) hv' ?_
        rw [howed, hlast.mp hl, List.nil_append]
      | false =>
        by_cases hfull : desc.len.toNat ≤ byteCount (taken.map Prod.fst ++ [x.1])
        · refine ⟨[q], rest', owed', rfl, howes', hends (.inr hfull), ?_⟩
          exact .drop (by simp [sink_clock, sinkNext, hs, hx, hl, hfull]) hv' (hwithin.snoc hl)
        · refine ⟨[], q :: rest', owed', rfl, howes', ?_, ?_⟩
          · simp [storing, hs, hx, hl, hfull]
          · have hsink : (b.clock c).sink = .write desc ((taken ++ [x]).map Prod.fst) := by
              simp [sink_clock, sinkNext, hs, hx, hl, hfull]
            exact .write hsink (hwithin.snoc hl) (.inr ⟨hv', q, rest', rfl, haddr⟩)

/-- **One clock edge follows every packet.** -/
theorem Tracked.clock (hW : 8 < W) (hb : b.Booked) (h : Tracked b reported waiting rest owed)
    (hm : b.front.HeaderMet true (b.frontCycle c)) :
    ∃ reported' waiting' rest' owed', Tracked (b.clock c) reported' waiting' rest' owed' := by
  obtain ⟨reported', waiting', hsplit, horders, hstored⟩ := h.report c hb
  obtain ⟨ended, rest', owed', hrest, howes, hended, hsink⟩ := h.sink_step c hW hb hm
  refine ⟨reported', waiting' ++ ended, rest', owed', ?_, howes, horders, ?_, hsink⟩
  · change b.sent.map Sent.packet = _
    rw [h.packets, hrest, hsplit]
    simp
  · exact List.rel_append hstored hended

end Edge

/-! ## Runs -/

/-- What holds in every state of a run. -/
structure Followed (b : Bench p W) : Prop where
  booked : b.Booked
  asked : b.Asked
  tracked : ∃ reported waiting rest owed, Tracked b reported waiting rest owed

theorem Start.followed (h : b.Start) : b.Followed :=
  ⟨h.booked, h.asked_start, [], [], [], [], h.tracked⟩

theorem Followed.supply (h : b.Followed) (c : Cycle p W) : (b.supply c).Followed := by
  obtain ⟨reported, waiting, rest, owed, htracked⟩ := h.tracked
  obtain ⟨rest', owed', hsupplied⟩ := htracked.supply c
  exact ⟨h.booked.supply c, h.asked.supply c, reported, waiting, rest', owed', hsupplied⟩

/-- **One cycle follows every packet**, if the sink is ready for first words. -/
theorem Followed.step (hW : 8 < W) (h : b.Followed) {c : Cycle p W}
    (hc : b.Ready c) : (b.step c).Followed := by
  obtain ⟨hbooked, hasked, reported, waiting, rest, owed, htracked⟩ := h.supply c
  exact ⟨hbooked.clock c, hasked.clock c, htracked.clock c hW hbooked hc⟩

/-- The order number `k` is for the packet number `k`. -/
theorem Followed.orderFor (h : b.Followed) {k : Nat} {d : PcieDesc p}
    (hd : b.orders[k]? = some d) : ∃ x, b.sent[k]? = some x ∧ OrderFor x.packet d := by
  obtain ⟨reported, waiting, rest, owed, htracked⟩ := h.tracked
  obtain ⟨hk, rfl⟩ := List.getElem?_eq_some_iff.mp hd
  have hlen := htracked.orders.length_eq
  have hk' : k < reported.length := by omega
  have hfor := htracked.orders.get hk' hk
  have hpacket : (b.sent.map Sent.packet)[k]? = some reported[k] := by
    rw [htracked.packets, List.append_assoc, List.getElem?_append_left hk',
      List.getElem?_eq_getElem hk']
  rw [List.getElem?_map] at hpacket
  obtain ⟨x, hx, hxq⟩ := Option.map_eq_some_iff.mp hpacket
  refine ⟨x, hx, ?_⟩
  rw [hxq]
  exact hfor

/-- When the stream is empty and nothing is stored, every packet has its order. -/
theorem Followed.length_orders (h : b.Followed)
    (hstate : b.front.regs.state = .hdr) (hpending : b.front.pending = [])
    (hstored : b.stored = []) : b.orders.length = b.sent.length := by
  obtain ⟨reported, waiting, rest, owed, htracked⟩ := h.tracked
  -- nothing is owed, since no packet is on the way
  obtain ⟨qs, -, howes⟩ := htracked.owes
  simp only [hstate] at howes
  obtain ⟨hqs, howed⟩ := howes
  have hnil : qs = [] := by
    cases qs with
    | nil => rfl
    | cons q qs =>
      rw [hpending, List.flatMap_cons] at hqs
      exact absurd (List.append_eq_nil_iff.mp hqs.symm).1 q.beats_ne_nil
  obtain rfl : owed = [] := by rw [howed, hnil]; rfl
  -- so the sink is at the end of the packets too
  have hframe : ∀ (q : Packet W (TxSide p)) qs taken, ¬ Within (q :: qs) taken [] := by
    intro q qs taken hwithin
    obtain ⟨init, y, hq, -, hy⟩ := framed_expected q
    have heq := hwithin.eq
    rw [List.append_nil, expectedAll, List.flatMap_cons, hq] at heq
    have hlast := hwithin.unmarked y (by simp [heq])
    change y.1.tlast = true at hy
    rw [hy] at hlast
    exact Bool.false_ne_true hlast.symm
  have hrest : rest = [] := by
    cases hr : rest with
    | nil => rfl
    | cons q rest' =>
      have hsink := htracked.sinkAt
      rw [hr] at hsink
      cases hsink with
      | idle _ _ howed => exact absurd ⟨howed, by simp⟩ (hframe q rest' [])
      | write _ hwithin _ => exact absurd hwithin (hframe q rest' _)
      | drop _ _ hwithin => exact absurd hwithin (hframe _ (q :: rest') _)
  have hwaiting : waiting = [] := by
    have := htracked.stored
    rw [hstored] at this
    exact List.forall₂_nil_right_iff.mp this
  have hpackets := congrArg List.length htracked.packets
  simp only [hrest, hwaiting, List.append_nil, List.length_map] at hpackets
  rw [hpackets, htracked.orders.length_eq]

/-! ## The ranges of the slots -/

/-- The slots in use, with the bytes of their regions that may be used. -/
def uses (b : Bench p W) : List (p.Slot × Nat) :=
  (match b.sink with
    | .write desc _ => [(desc.tag, desc.len.toNat)]
    | .idle | .drop => []) ++
    b.stored.map (fun x => (x.desc.tag, x.desc.len.toNat)) ++
    b.pcieDescs.map (fun d => (slotOf d.tag, d.len.toNat))

/-- The scratchpad ranges of the live transmit slots: what the sink was told to store to,
and what the PCIe engine was told to read. -/
def ranges (b : Bench p W) : List PcieSlots.Span :=
  (match b.sink with
    | .write desc _ => [⟨desc.addr.toNat, desc.len.toNat⟩]
    | .idle | .drop => []) ++
    b.stored.map (fun x => ⟨x.desc.addr.toNat, x.desc.len.toNat⟩) ++
    b.pcieDescs.map (fun d => ⟨d.ramAddr.toNat, d.len.toNat⟩)

theorem map_fst_uses (b : Bench p W) : b.uses.map Prod.fst = b.held := by
  unfold uses held sinkSlots
  cases b.sink <;> simp [Function.comp_def]

theorem Booked.ranges_eq (h : b.Booked) : b.ranges = b.uses.map fun x =>
    ⟨(regionStart x.1 : BitVec p.ramAddrWidth).toNat, x.2⟩ := by
  unfold ranges uses
  rw [List.map_append, List.map_append, List.map_map, List.map_map]
  congr 1
  · congr 1
    · cases hs : b.sink with
      | idle => rfl
      | drop => rfl
      | write desc words => simp [(h.sinkOk desc words hs).1]
    · refine List.map_congr_left fun x hx => ?_
      simp [(h.storedOk x hx).1]
  · refine List.map_congr_left fun d hd => ?_
    simp [(h.pcieOk d hd).ramAddr]

theorem Booked.uses_le (h : b.Booked) : ∀ x ∈ b.uses, x.2 ≤ 2048 := by
  intro x hx
  rcases List.mem_append.mp hx with hx | hx
  · rcases List.mem_append.mp hx with hx | hx
    · split at hx
      · rename_i desc words hs
        rw [List.mem_singleton.mp hx]
        simp [(h.sinkOk desc words hs).2]
      · exact absurd hx List.not_mem_nil
      · exact absurd hx List.not_mem_nil
    · obtain ⟨y, hy, rfl⟩ := List.mem_map.mp hx
      simp [(h.storedOk y hy).2]
  · obtain ⟨d, hd, rfl⟩ := List.mem_map.mp hx
    exact (h.pcieOk d hd).len

theorem Booked.pairwise_disjoint (h : b.Booked) :
    b.ranges.Pairwise fun x y => Disjoint x.bytes y.bytes := by
  have hnodup := h.balanced.nodup
  rw [← map_fst_uses, List.nodup_iff_pairwise_ne, List.pairwise_map] at hnodup
  rw [h.ranges_eq, List.pairwise_map]
  refine hnodup.imp_of_mem ?_
  intro x y hx hy hne
  exact PcieSlots.disjoint_regions hne (h.uses_le x hx) (h.uses_le y hy)

/-! ## Complete reads -/

/-- The cycle accepts no request of the host for more than 2048 bytes. -/
def ShortRequest (b : Bench p W) (c : Cycle p W) : Prop :=
  b.regs.hostAccept (b.inputs c) = true → c.host.len.toNat ≤ 2048
deriving Decidable

/-- Requests of at most 2048 bytes stay so. -/
theorem short_step {c : Cycle p W} (h : ∀ d ∈ b.requests, d.len.toNat ≤ 2048)
    (hc : b.ShortRequest c) : ∀ d ∈ (b.step c).requests, d.len.toNat ≤ 2048 := by
  have hreq : (b.supply c).requests = b.requests := by
    obtain ⟨front, sent, asked, heq⟩ := b.supply_frame c
    rw [heq]
  intro d hd
  change d ∈ (if _ then _ else _ : List HostDesc) at hd
  split at hd
  · rename_i hacc
    rw [regs_supply] at hacc
    rcases List.mem_append.mp hd with hold | hnew
    · exact h d (hreq ▸ hold)
    · rw [List.mem_singleton.mp hnew]
      exact hc hacc
  · exact h d (hreq ▸ hd)

/-- **Host reads are complete.**  In every run in which the sink is ready for the first
word of every packet and no request of the host is longer than 2048 bytes, whatever else
the cores send and however the stream, the sink and the PCIe engine are delayed: the
orders are those of the packets, in their order and one for each; the order for the
answer to a request is for its address and its length; and the scratchpad ranges of the
live slots are pairwise disjoint.  Once the stream is empty, no packet is without its
order. -/
theorem orders_of_ready (hW : 8 < W) {b : Bench p W} (hstart : b.Start)
    {cycles : List (Cycle p W)}
    (hc : Meets Bench.step (fun b c => b.Ready c ∧ b.ShortRequest c) b cycles) :
    let b' := run Bench.step b cycles
    (∀ (k : Nat) (d : PcieDesc p), b'.orders[k]? = some d → ∃ x : Sent p W, b'.sent[k]? = some x ∧
      d.pcieAddr = headerOf 8 x.packet ∧
      ∀ n, x.answers = some n → ∃ r : HostDesc, b'.requests[n]? = some r ∧
        d.pcieAddr = r.pcieAddr ∧ d.len = r.len) ∧
      b'.ranges.Pairwise (fun x y => Disjoint x.bytes y.bytes) ∧
      (b'.front.regs.state = .hdr → b'.front.pending = [] → b'.stored = [] →
        b'.orders.length = b'.sent.length) := by
  intro b'
  obtain ⟨hfollowed, hshort⟩ : b'.Followed ∧ ∀ d ∈ b'.requests, d.len.toNat ≤ 2048 :=
    run_invariant (P := fun b => b.Followed ∧ ∀ d ∈ b.requests, d.len.toNat ≤ 2048)
      (fun _ _ hb hcyc => ⟨hb.1.step hW hcyc.1, short_step hb.2 hcyc.2⟩)
      ⟨hstart.followed, by simp [hstart.requests]⟩ hc
  refine ⟨?_, hfollowed.booked.pairwise_disjoint, hfollowed.length_orders⟩
  intro k d hd
  obtain ⟨x, hx, hfor⟩ := hfollowed.orderFor hd
  refine ⟨x, hx, hfor.pcieAddr, ?_⟩
  intro n hn
  obtain ⟨r, hr, hret⟩ := hfollowed.asked.sent x (List.mem_of_getElem? hx) n hn
  refine ⟨r, hr, by rw [hfor.pcieAddr, hret.header], ?_⟩
  have hle := hshort r (List.mem_of_getElem? hr)
  apply BitVec.eq_of_toNat_eq
  rw [hfor.len, hret.length]
  omega

/-! ## A read of 2049 bytes -/

/-- The bench after a reset, for words of 64 bytes. -/
def afterReset : Bench board 64 where
  regs := { (default : PcieContWrite board) with txSlot := BitVec.allOnes 16 }
  front := ⟨⟨.hdr, 0, 0, 0, 0, 0⟩, [], []⟩
  sink := .idle
  stored := []
  writing := []
  sent := []
  requests := []
  asked := fun _ => none
  pending := fun _ => none
  orders := []
  holder := fun _ => 0
  completed := []
  statuses := []

theorem afterReset_start : afterReset.Start where
  regs := ⟨rfl, fun _ => rfl, rfl, rfl, rfl, rfl, .default⟩
  front := rfl
  stream := rfl
  sink := rfl
  stored := rfl
  writing := rfl
  sent := rfl
  requests := rfl
  asked := fun _ => rfl
  pending := fun _ => rfl
  orders := rfl
  completed := rfl
  statuses := rfl

/-- A cycle in which everyone is ready and nothing is asked, sent or reported. -/
def quiet : Cycle board 64 where
  hostValid := false
  host := ⟨0, 0, 0, 0⟩
  coresCtrlMTready := true
  send := none
  offer := true
  idle := ⟨0, 0, false, ⟨0, 0, false⟩⟩
  dataReady := true
  descReady := true
  report := true
  pcieReady := true
  complete := none

/-- A packet of core 0 with tag 0: a header and `64 * n + k - 8` bytes of zeros. -/
def zeros (n k : Nat) (hk : k ≤ 64) : Packet 64 (TxSide board) :=
  ⟨List.replicate n 0, 0, k, hk, ⟨0, 0, true⟩⟩

/-- The host reads `len` bytes from core 0, which answers with `q`; then `n` cycles. -/
def reading (len : BitVec 16) (q : Packet 64 (TxSide board)) (n : Nat) : List (Cycle board 64) :=
  [{ quiet with hostValid := true, host := ⟨0, 0, len, 1⟩ }, quiet,
    { quiet with send := some (q, some 0) }] ++ List.replicate n quiet

/-- With 40 bytes the order is for what was asked. -/
theorem orders_of_ready_forty :
    let b' := run Bench.step afterReset (reading 40 (zeros 0 48 (by decide)) 6)
    b'.orders.map PcieDesc.len = [40] ∧
      (∀ (k : Nat) (d : PcieDesc board), b'.orders[k]? = some d → ∃ x : Sent board 64,
      b'.sent[k]? = some x ∧ d.pcieAddr = headerOf 8 x.packet ∧
      ∀ n, x.answers = some n → ∃ r : HostDesc, b'.requests[n]? = some r ∧
        d.pcieAddr = r.pcieAddr ∧ d.len = r.len) ∧
      b'.ranges.Pairwise (fun x y => Disjoint x.bytes y.bytes) ∧
      (b'.front.regs.state = .hdr → b'.front.pending = [] → b'.stored = [] →
        b'.orders.length = b'.sent.length) :=
  ⟨by decide +kernel, orders_of_ready (by decide) afterReset_start (by decide +kernel)⟩

/-- **A read of 2049 bytes is cut.**  The sink is ready throughout, the packet is the
answer to the request, and its order is for 2048 bytes. -/
theorem long_read_truncated :
    afterReset.Start ∧
      Meets Bench.step Ready afterReset (reading 2049 (zeros 32 9 (by decide)) 40) ∧
      let b' := run Bench.step afterReset (reading 2049 (zeros 32 9 (by decide)) 40)
      b'.requests.map HostDesc.len = [2049] ∧ b'.sent.map Sent.answers = [some 0] ∧
        b'.orders.map PcieDesc.len = [2048] := by
  refine ⟨afterReset_start, ?_⟩
  decide +kernel

end Bench
end Rosebud.PcieContWrite
