import Rosebud.HostReads

/-! # The status of a host read

`pcie_cont_write` takes a read of the host to be over when the PCIe write of a packet with
tag 0 of its core has completed, whatever that packet was, and the register of the status
is written at such completions only.  So a status stays on until the next one
(`status_repeated`), and a packet a core sent on its own with tag 0 ends the read of
another.

If whenever the status is on another completion with tag 0 arrives, and such a completion
is that of the answer while a request is pending, the statuses are those of the answers
written, one cycle each and in their order, and no request is forgotten
(`statuses_of_exact`).
-/
namespace Rosebud.PcieContWrite.Bench
open Clocked PcieParams AxiStream

variable {p : PcieParams} {W : Nat} {b : Bench p W}

theorem coreOf_append (core : BitVec p.coreWidth) :
    coreOf (core ++ (0 : BitVec p.coreTagWidth)) = core := by
  apply BitVec.eq_of_getLsbD_eq
  intro i hi
  have hge : ¬ p.coreTagWidth + i < p.coreTagWidth := by omega
  simp [coreOf, BitVec.getLsbD_append, hge, hi]

theorem ownTag_append (core : BitVec p.coreWidth) :
    ownTag (core ++ (0 : BitVec p.coreTagWidth)) = 0 := by
  apply BitVec.eq_of_getLsbD_eq
  intro i hi
  simp [ownTag, BitVec.getLsbD_append, hi]

/-! ## The answers written to the host -/

/-- The request a packet answers. -/
def answerOf (b : Bench p W) (k : Nat) : Option Nat := (b.sent[k]?).bind Sent.answers

/-- The requests whose answers have been written to the host, in that order. -/
def answered (b : Bench p W) : List Nat := b.completed.filterMap b.answerOf

/-- The status in this cycle. -/
def current (b : Bench p W) : List (BitVec 32) :=
  if b.regs.hostStatusValid then [b.regs.hostStatusTag] else []

/-- The tags of requests. -/
def tagsOf (b : Bench p W) (ns : List Nat) : List (BitVec 32) :=
  ns.filterMap fun n => (b.requests[n]?).map HostDesc.tag

/-- The request whose status a cycle raises. -/
def ending (b : Bench p W) (c : Cycle p W) : List Nat :=
  if b.regs.hostDone (b.inputs c) then
    (b.pending (b.regs.txDoneCoreId (b.inputs c))).toList
  else []

/-- **The condition for exact statuses.**  A message to a core is taken in its only cycle;
while a status is on, a packet with tag 0 completes; a packet with tag 0 of a core with a
pending request that completes is the answer to it; and no request is accepted for a core
in the cycle in which another packet with tag 0 of the core completes. -/
@[mk_iff]
structure Exact (b : Bench p W) (c : Cycle p W) : Prop where
  taken : b.regs.coresCtrlMTvalid = true → c.coresCtrlMTready = true
  lowered : b.regs.hostStatusValid = true → b.regs.hostDone (b.inputs c) = true
  answer : b.regs.hostDone (b.inputs c) = true → ∀ d ∈ b.completing c,
    ∀ n ∈ b.pending (b.regs.txDoneCoreId (b.inputs c)),
      b.answerOf (b.holder (slotOf d.tag)) = some n
  apart : b.regs.hostDone (b.inputs c) = true →
    ¬ (b.regs.hostAccept (b.inputs c) = true ∧
      hostWrDestCore c.host = b.regs.txDoneCoreId (b.inputs c))

instance (b : Bench p W) (c : Cycle p W) : Decidable (b.Exact c) :=
  decidable_of_iff' _ (exact_iff b c)

/-- Where a pending request is: on its way to its core, there, or answered by a packet on
its way to the host. -/
def Underway (b : Bench p W) (core : BitVec p.coreWidth) (n : Nat) : Prop :=
  b.regs.coresCtrlMTvalid = true ∧ b.regs.coresCtrlMTdest = core ∧ n = b.requests.length - 1 ∨
    (∃ m, b.asked core = some (n, m)) ∨ ∃ k, b.answerOf k = some n ∧ k ∉ b.completed

/-- **What is known of the requests and the packets that answer them.** -/
structure Counted (b : Bench p W) : Prop where
  /-- Every order is in flight or completed, and carries the number of its packet. -/
  numbered : (b.pcieDescs.map (fun d => b.holder (slotOf d.tag)) ++ b.completed).Perm
    (List.range b.orders.length)
  users : ∀ d ∈ b.pcieDescs, ∃ x, b.sent[b.holder (slotOf d.tag)]? = some x ∧
    b.regs.txCoreTag (slotOf d.tag) = x.packet.side.tuser
  tagV : ∀ core, b.regs.txPcieTagV core = (b.pending core).isSome
  tag : ∀ core n, b.pending core = some n → ∃ r, b.requests[n]? = some r ∧
    hostWrDestCore r = core ∧ b.regs.txPcieTag core = r.tag
  /-- A request that is on its way to its core, or there, is pending and unanswered. -/
  message : b.regs.coresCtrlMTvalid = true →
    b.pending b.regs.coresCtrlMTdest = some (b.requests.length - 1) ∧
      b.asked b.regs.coresCtrlMTdest = none ∧
      ∀ k, b.answerOf k ≠ some (b.requests.length - 1)
  asked : ∀ core n m, b.asked core = some (n, m) →
    b.pending core = some n ∧ ∀ k, b.answerOf k ≠ some n
  once : ∀ j k n, b.answerOf j = some n → b.answerOf k = some n → j = k
  inFlight : ∀ k n r, b.answerOf k = some n → k ∉ b.completed → b.requests[n]? = some r →
    b.pending (hostWrDestCore r) = some n
  underway : ∀ core n, b.pending core = some n → b.Underway core n
  covered : ∀ n r, b.requests[n]? = some r →
    n ∈ b.answered ∨ b.pending (hostWrDestCore r) = some n
  statuses : b.statuses ++ b.current = b.tagsOf b.answered

theorem Start.counted (h : b.Start) : b.Counted := by
  have hpcie : b.pcieDescs = [] := by
    simp [pcieDescs, h.regs.pcieDesc, h.regs.fifo.contents_eq, h.writing]
  have hnone : ∀ k, b.answerOf k = none := fun k => by simp [answerOf, h.sent]
  constructor
  · simp [hpcie, h.completed, h.orders]
  · simp [hpcie]
  · intro core
    rw [h.regs.txPcieTagV, h.pending core]
    rfl
  · intro core n hn
    simp [h.pending core] at hn
  · simp [h.regs.ctrl]
  · intro core n m hm
    simp [h.asked core] at hm
  · intro j k n hj
    simp [hnone j] at hj
  · intro k n r hk
    simp [hnone k] at hk
  · intro core n hn
    simp [h.pending core] at hn
  · simp [h.requests]
  · simp [h.statuses, current, h.regs.hostStatus, tagsOf, answered, h.completed]

/-! ## A packet handed to the stream -/

section Supply
variable (hf : b.Followed) (h : b.Counted)

theorem answerOf_eq_some {k n : Nat} (hk : b.answerOf k = some n) :
    ∃ x, b.sent[k]? = some x ∧ x.answers = some n := Option.bind_eq_some_iff.mp hk

include hf in
/-- An answer is to an accepted request, and looks like one. -/
theorem Followed.answerOf_request {k n : Nat} (hk : b.answerOf k = some n) :
    ∃ x r, b.sent[k]? = some x ∧ b.requests[n]? = some r ∧ Returns r x.packet := by
  obtain ⟨x, hx, hn⟩ := answerOf_eq_some hk
  obtain ⟨r, hr, hret⟩ := hf.asked.sent x (List.mem_of_getElem? hx) n hn
  exact ⟨x, r, hx, hr, hret⟩

include hf in
theorem Followed.orders_le : b.orders.length ≤ b.sent.length := by
  obtain ⟨reported, waiting, rest, owed, htracked⟩ := hf.tracked
  have hlen := congrArg List.length htracked.packets
  simp only [List.length_map, List.length_append] at hlen
  have := htracked.orders.length_eq
  omega

include h in
/-- Completed packets are among those ordered. -/
theorem Counted.completed_lt {k : Nat} (hk : k ∈ b.completed) : k < b.orders.length :=
  List.mem_range.mp (h.numbered.subset (List.mem_append_right _ hk))

include h in
/-- A request is pending for its own core only. -/
theorem Counted.core_unique {core core' : BitVec p.coreWidth} {n : Nat}
    (hn : b.pending core = some n) (hn' : b.pending core' = some n) : core = core' := by
  obtain ⟨r, hr, rfl, -⟩ := h.tag core n hn
  obtain ⟨r', hr', rfl, -⟩ := h.tag core' n hn'
  rw [Option.some.inj (hr.symm.trans hr')]

/-- Earlier packets keep their numbers. -/
theorem answerOf_append {b' : Bench p W} {x : Sent p W} (hs : b'.sent = b.sent ++ [x]) (k : Nat) :
    b'.answerOf k = if k = b.sent.length then x.answers else b.answerOf k := by
  unfold answerOf
  rw [hs]
  rcases Nat.lt_trichotomy k b.sent.length with hlt | heq | hgt
  · rw [List.getElem?_append_left hlt, if_neg (by omega)]
  · rw [heq, List.getElem?_concat_length, if_pos rfl]
    rfl
  · rw [List.getElem?_eq_none (by simp; omega), List.getElem?_eq_none (by omega),
      if_neg (by omega)]

/-- A packet that answers is among those sent. -/
theorem answerOf_append_some {b' : Bench p W} {x : Sent p W} (hs : b'.sent = b.sent ++ [x])
    {k n : Nat} (hk : b.answerOf k = some n) : b'.answerOf k = some n := by
  obtain ⟨y, hy, -⟩ := answerOf_eq_some hk
  have hlt := (List.getElem?_eq_some_iff.mp hy).1
  rw [answerOf_append hs, if_neg (by omega), hk]

include hf h in
theorem Counted.answered_append (b' : Bench p W) {x : Sent p W}
    (hs : b'.sent = b.sent ++ [x]) (hc : b'.completed = b.completed) :
    b'.answered = b.answered := by
  unfold answered
  rw [hc]
  refine List.filterMap_congr fun k hk => ?_
  have hlt := h.completed_lt hk
  have hle := hf.orders_le
  rw [answerOf_append hs, if_neg (by omega)]

include hf h in
/-- A packet is handed to the stream. -/
theorem Counted.handOver {x : Sent p W}
    {asked : BitVec p.coreWidth → Option (Nat × BitVec 128)} (hs : b.Supplies x asked) :
    (b.handOver x asked).Counted := by
  have hcases : ∀ {k n}, (b.handOver x asked).answerOf k = some n →
      k = b.sent.length ∧ x.answers = some n ∨ b.answerOf k = some n := by
    intro k n hk
    rw [answerOf_append (b := b) rfl] at hk
    split at hk
    · exact .inl ⟨‹_›, hk⟩
    · exact .inr hk
  have hanswered := h.answered_append hf (b.handOver x asked) rfl rfl
  constructor
  · exact h.numbered
  · intro d hd
    obtain ⟨y, hy, huser⟩ := h.users d hd
    exact ⟨y, (List.getElem?_append_left (List.getElem?_eq_some_iff.mp hy).1).trans hy, huser⟩
  · exact h.tagV
  · exact h.tag
  · intro hv
    obtain ⟨hpend, hnone, hun⟩ := h.message hv
    refine ⟨hpend, Option.eq_none_iff_forall_ne_some.mpr fun e he => ?_, fun k hk => ?_⟩
    · exact absurd (hnone.symm.trans (hs.kept _ _ _ he)) (by simp)
    rcases hcases hk with ⟨-, hn⟩ | hk
    · -- the last request is on its way to another core
      obtain ⟨core, m, hasked, -⟩ := hs.answer _ hn
      obtain rfl := h.core_unique hpend (h.asked core _ m hasked).1
      exact absurd (hnone.symm.trans hasked) (by simp)
    · exact hun k hk
  · intro core n m hm
    have hold := hs.kept core n m hm
    obtain ⟨hpend, hun⟩ := h.asked core n m hold
    refine ⟨hpend, fun k hk => ?_⟩
    rcases hcases hk with ⟨-, hn⟩ | hk
    · obtain ⟨core', m', hasked, hnone, -⟩ := hs.answer n hn
      obtain rfl := h.core_unique hpend (h.asked core' n m' hasked).1
      exact absurd (hnone.symm.trans hm) (by simp)
    · exact hun k hk
  · intro j k n hj hk
    rcases hcases hj with ⟨rfl, hn⟩ | hj <;> rcases hcases hk with ⟨rfl, hn'⟩ | hk
    · rfl
    · obtain ⟨core, m, hasked, -⟩ := hs.answer n hn
      exact absurd hk ((h.asked core n m hasked).2 k)
    · obtain ⟨core, m, hasked, -⟩ := hs.answer n hn'
      exact absurd hj ((h.asked core n m hasked).2 j)
    · exact h.once j k n hj hk
  · intro k n r hk hcomp hr
    rcases hcases hk with ⟨-, hn⟩ | hk
    · obtain ⟨core, m, hasked, -⟩ := hs.answer n hn
      obtain ⟨r', hr', -, hcore⟩ := hf.asked.asked core n m hasked
      obtain rfl := Option.some.inj (hr.symm.trans hr')
      rw [hcore]
      exact (h.asked core n m hasked).1
    · exact h.inFlight k n r hk hcomp hr
  · intro core n hn
    rcases h.underway core n hn with hmsg | ⟨m, hm⟩ | ⟨k, hk, hnot⟩
    · exact .inl hmsg
    · rcases hs.left core n m hm with hkept | hanswer
      · exact .inr (.inl ⟨m, hkept⟩)
      · -- the request answered now
        refine .inr (.inr ⟨b.sent.length, ?_, fun hmem => ?_⟩)
        · rw [answerOf_append (b := b) rfl, if_pos rfl, hanswer]
        · have hlt := h.completed_lt hmem
          have hle := hf.orders_le
          omega
    · exact .inr (.inr ⟨k, answerOf_append_some rfl hk, hnot⟩)
  · intro n r hr
    rw [hanswered]
    exact h.covered n r hr
  · rw [hanswered]
    exact h.statuses

include hf h in
theorem Counted.supply (c : Cycle p W) : (b.supply c).Counted := by
  rcases b.supply_cases c with heq | ⟨x, asked, hs, heq⟩
  · rwa [heq]
  · rw [heq]
    exact h.handOver hf hs

end Supply

/-! ## The clock edge -/

section Edge
variable (c : Cycle p W) {core : BitVec p.coreWidth} {d : PcieDesc p} {n : Nat}

theorem pending_clock (core : BitVec p.coreWidth) : (b.clock c).pending core =
    if b.regs.hostDone (b.inputs c) = true ∧ core = b.regs.txDoneCoreId (b.inputs c) then none
    else if b.regs.hostAccept (b.inputs c) = true ∧ core = hostWrDestCore c.host then
      some b.requests.length
    else b.pending core := by
  cases hdone : b.regs.hostDone (b.inputs c) <;> cases hacc : b.regs.hostAccept (b.inputs c) <;>
    simp [clock, hdone, hacc, Function.update_apply]

/-- A request pending after the edge was accepted now, or was pending and did not end. -/
theorem pending_clock_cases (hn : (b.clock c).pending core = some n) :
    (b.regs.hostAccept (b.inputs c) = true ∧ core = hostWrDestCore c.host ∧
        n = b.requests.length) ∨
      (b.pending core = some n ∧
        ¬ (b.regs.hostDone (b.inputs c) = true ∧ core = b.regs.txDoneCoreId (b.inputs c)) ∧
        ¬ (b.regs.hostAccept (b.inputs c) = true ∧ core = hostWrDestCore c.host)) := by
  rw [pending_clock] at hn
  split at hn
  · exact absurd hn (by simp)
  · rename_i hdone
    split at hn
    · rename_i hacc
      exact .inl ⟨hacc.1, hacc.2, (Option.some.inj hn).symm⟩
    · rename_i hacc
      exact .inr ⟨hn, hdone, hacc⟩

/-- What a completion with tag 0 is. -/
theorem completing_of_done (h : b.regs.hostDone (b.inputs c) = true) :
    ∃ d, b.completing c = some d ∧ ownTag (b.regs.txCoreTag (slotOf d.tag)) = 0 ∧
      b.regs.txDoneCoreId (b.inputs c) = coreOf (b.regs.txCoreTag (slotOf d.tag)) := by
  obtain ⟨hvalid, htag⟩ := Bool.and_eq_true_iff.mp h
  obtain ⟨d, hd⟩ := Option.isSome_iff_exists.mp hvalid
  have hstatus : (b.inputs c).pcieStatusTag = d.tag := by simp [inputs, hd]
  refine ⟨d, hd, ?_, ?_⟩
  · simpa [txDoneCoreTag, hstatus] using htag
  · rw [txDoneCoreId, hstatus]

theorem mem_pcieDescs_of_completing (hd : b.completing c = some d) :
    d ∈ b.pcieDescs := List.mem_append_right _ (mem_writing c hd)

/-- A report is for a slot whose order is still to be made: the entries of the orders
already made stay. -/
theorem Booked.entries_clock (hb : b.Booked) (hd : d ∈ b.pcieDescs) :
    (b.clock c).holder (slotOf d.tag) = b.holder (slotOf d.tag) ∧
      (b.clock c).regs.txCoreTag (slotOf d.tag) = b.regs.txCoreTag (slotOf d.tag) := by
  cases hr : b.reporting c with
  | none => simp [Bench.clock, next, inputs, hr]
  | some x =>
    obtain ⟨rest, hrest⟩ := reporting_eq_some c hr
    have hne : slotOf d.tag ≠ x.desc.tag := by
      intro heq
      have hnodup := hb.balanced.nodup
      rw [held, List.nodup_append] at hnodup
      refine hnodup.2.2 x.desc.tag (List.mem_append_right _ ?_) (slotOf d.tag)
        (List.mem_map_of_mem hd) heq.symm
      exact List.mem_map_of_mem (by simp [hrest])
    simp [Bench.clock, next, inputs, hr, Function.update_of_ne hne]

/-- The packet of the order made in this cycle. -/
theorem Followed.ordering_user (hf : b.Followed) (hd : d ∈ b.ordering c) :
    (b.clock c).holder (slotOf d.tag) = b.orders.length ∧
      ∃ x, b.sent[b.orders.length]? = some x ∧
        (b.clock c).regs.txCoreTag (slotOf d.tag) = x.packet.side.tuser := by
  obtain ⟨y, more, hr, hmore, hslot, -⟩ := b.reporting_of_ordering c hd
  obtain ⟨reported, waiting, rest, owed, htracked⟩ := hf.tracked
  have hstored := htracked.stored
  rw [hmore] at hstored
  obtain ⟨q, waiting', hq, -, rfl⟩ := List.forall₂_cons_right_iff.mp hstored
  have hlen := htracked.orders.length_eq
  have hpacket : (b.sent.map Sent.packet)[b.orders.length]? = some q := by
    rw [htracked.packets, ← hlen]
    simp
  rw [List.getElem?_map] at hpacket
  obtain ⟨x, hx, rfl⟩ := Option.map_eq_some_iff.mp hpacket
  rw [hslot]
  refine ⟨by simp [clock, inputs, hr], x, hx, ?_⟩
  simp [clock, next, inputs, hr, hq.user]

theorem length_ordering (hf : b.Followed) :
    (b.ordering c).map (fun d => (b.clock c).holder (slotOf d.tag)) =
      (List.range (b.ordering c).length).map (b.orders.length + ·) := by
  have hall : ∀ d ∈ b.ordering c, (b.clock c).holder (slotOf d.tag) = b.orders.length :=
    fun d hd => (hf.ordering_user c hd).1
  generalize hl : b.ordering c = l at hall
  unfold ordering at hl
  split at hl
  · subst hl
    simpa using hall _ List.mem_cons_self
  · subst hl
    rfl

variable (hf : b.Followed) (h : b.Counted)
include hf h

theorem Counted.numbered_clock :
    ((b.clock c).pcieDescs.map (fun d => (b.clock c).holder (slotOf d.tag)) ++
      (b.clock c).completed).Perm (List.range (b.clock c).orders.length) := by
  have hkeep : ∀ l : List (PcieDesc p), (∀ d ∈ l, d ∈ b.pcieDescs) →
      l.map (fun d => (b.clock c).holder (slotOf d.tag)) =
        l.map (fun d => b.holder (slotOf d.tag)) :=
    fun l hl => List.map_congr_left fun d hd => (hf.booked.entries_clock c (hl d hd)).1
  have hold := hkeep b.pcieDescs fun _ hd => hd
  have hcomp := hkeep (b.completing c).toList fun d hd =>
    mem_pcieDescs_of_completing c (Option.mem_toList.mp hd)
  have hperm := (hf.booked.pcieDescs_clock c).map (fun d => (b.clock c).holder (slotOf d.tag))
  rw [List.map_append, List.map_append, hold, hcomp, length_ordering c hf] at hperm
  have hrange : List.range (b.clock c).orders.length = List.range b.orders.length ++
      (List.range (b.ordering c).length).map (b.orders.length + ·) := by
    rw [← List.range_add]
    exact congrArg List.range List.length_append
  rw [hrange]
  -- counting the occurrences of every number
  refine List.perm_iff_count.mpr fun k => ?_
  have hk := List.perm_iff_count.mp hperm k
  have hn := List.perm_iff_count.mp h.numbered k
  have hdone : (b.clock c).completed =
      b.completed ++ (b.completing c).toList.map fun d => b.holder (slotOf d.tag) := rfl
  rw [hdone]
  simp only [List.count_append] at hk hn ⊢
  omega

theorem Counted.users_clock : ∀ d ∈ (b.clock c).pcieDescs, ∃ x,
    (b.clock c).sent[(b.clock c).holder (slotOf d.tag)]? = some x ∧
      (b.clock c).regs.txCoreTag (slotOf d.tag) = x.packet.side.tuser := by
  intro d hd
  have hmem := (hf.booked.pcieDescs_clock c).subset (List.mem_append_left _ hd)
  rcases List.mem_append.mp hmem with hnew | hold
  · obtain ⟨hholder, hx⟩ := hf.ordering_user c hnew
    rw [hholder]
    exact hx
  · obtain ⟨hholder, htag⟩ := hf.booked.entries_clock c hold
    rw [hholder, htag]
    exact h.users d hold

omit hf in
/-- A completing packet was not completed before. -/
theorem Counted.completing_not_mem (hd : b.completing c = some d) :
    b.holder (slotOf d.tag) ∉ b.completed := by
  intro hmem
  have hnodup := h.numbered.nodup_iff.mpr List.nodup_range
  rw [List.nodup_append] at hnodup
  exact hnodup.2.2 _ (List.mem_map_of_mem (mem_pcieDescs_of_completing c hd)) _ hmem rfl

/-- What a completing packet with an answer does to the module. -/
theorem Counted.completing_answer (hd : b.completing c = some d)
    (hn : b.answerOf (b.holder (slotOf d.tag)) = some n) :
    b.regs.hostDone (b.inputs c) = true ∧
      b.pending (b.regs.txDoneCoreId (b.inputs c)) = some n := by
  obtain ⟨x, r, hx, hr, hret⟩ := hf.answerOf_request hn
  obtain ⟨y, hy, huser⟩ := h.users d (mem_pcieDescs_of_completing c hd)
  obtain rfl : x = y := Option.some.inj (hx.symm.trans hy)
  rw [hret.tuser] at huser
  have hstatus : (b.inputs c).pcieStatusTag = d.tag := by simp [inputs, hd]
  have hvalid : (b.inputs c).pcieStatusValid = true := by simp [inputs, hd]
  constructor
  · rw [hostDone, hvalid, txDoneCoreTag, hstatus, huser, ownTag_append]
    simp
  · rw [txDoneCoreId, hstatus, huser, coreOf_append]
    exact h.inFlight _ n r hn (h.completing_not_mem c hd) hr

variable (hc : b.Exact c)
include hc

/-- **The answers written grow by the request whose status is raised.** -/
theorem Counted.answered_clock : (b.clock c).answered = b.answered ++ b.ending c := by
  have hstep : (b.clock c).answered = b.answered ++
      ((b.completing c).toList.map fun d => b.holder (slotOf d.tag)).filterMap b.answerOf :=
    List.filterMap_append
  rw [hstep]
  congr 1
  unfold ending
  cases hd : b.completing c with
  | none =>
    have hno : b.regs.hostDone (b.inputs c) = false := by simp [hostDone, inputs, hd]
    simp [hno]
  | some d =>
    cases hn : b.answerOf (b.holder (slotOf d.tag)) with
    | some n =>
      obtain ⟨hdone, hpend⟩ := h.completing_answer c hf hd hn
      simp [hdone, hpend, hn]
    | none =>
      have hnil : (if b.regs.hostDone (b.inputs c) then
          (b.pending (b.regs.txDoneCoreId (b.inputs c))).toList else []) = [] := by
        split
        · rename_i hdone
          cases hpend : b.pending (b.regs.txDoneCoreId (b.inputs c)) with
          | none => rfl
          | some m =>
            have := hc.answer hdone d hd m hpend
            rw [hn] at this
            exact absurd this (by simp)
        · rfl
      simp [hnil, hn]

omit hf hc in
/-- A core takes a request only when it has none pending. -/
theorem Counted.pending_of_accept (hacc : b.regs.hostAccept (b.inputs c) = true) :
    b.pending (hostWrDestCore c.host) = none := by
  have hready := (Bool.and_eq_true_iff.mp (Bool.and_eq_true_iff.mp hacc).2).2
  have htag : b.regs.txPcieTagV (hostWrDestCore c.host) = false := by simpa using hready
  rw [h.tagV] at htag
  exact Option.isSome_eq_false_iff.mp htag |> Option.isNone_iff_eq_none.mp

omit hf h in
/-- The request accepted in a cycle is pending after it. -/
theorem Exact.pending_accepted (hacc : b.regs.hostAccept (b.inputs c) = true) :
    (b.clock c).pending (hostWrDestCore c.host) = some b.requests.length := by
  rw [pending_clock, if_neg, if_pos ⟨hacc, rfl⟩]
  rintro ⟨hdone, heq⟩
  exact hc.apart hdone ⟨hacc, heq⟩

omit hf in
/-- A pending request stays pending, or its status is raised. -/
theorem Counted.pending_kept (hn : b.pending core = some n) : (b.clock c).pending core = some n ∨
      ∃ d, b.completing c = some d ∧ b.answerOf (b.holder (slotOf d.tag)) = some n ∧
        b.ending c = [n] := by
  rw [pending_clock]
  split
  · rename_i hdone
    obtain ⟨hdone, rfl⟩ := hdone
    obtain ⟨d, hd, -⟩ := completing_of_done c hdone
    exact .inr ⟨d, hd, hc.answer hdone d hd n hn, by simp [ending, hdone, hn]⟩
  · split
    · rename_i hacc
      obtain ⟨hacc, rfl⟩ := hacc
      rw [h.pending_of_accept c hacc] at hn
      exact absurd hn (by simp)
    · exact .inl hn

omit hf in
/-- An unanswered request that is pending stays so. -/
theorem Counted.pending_unanswered (hn : b.pending core = some n)
    (hun : ∀ k, b.answerOf k ≠ some n) : (b.clock c).pending core = some n := by
  rcases h.pending_kept c hc hn with hkept | ⟨d, -, hd, -⟩
  · exact hkept
  · exact absurd hd (hun _)

omit hf hc in
theorem Counted.tagV_clock (core : BitVec p.coreWidth) :
    (b.clock c).regs.txPcieTagV core = ((b.clock c).pending core).isSome := by
  have hreg : (b.clock c).regs.txPcieTagV core =
      if b.regs.hostDone (b.inputs c) = true ∧ core = b.regs.txDoneCoreId (b.inputs c) then false
      else if b.regs.hostAccept (b.inputs c) = true ∧ core = hostWrDestCore c.host then true
      else b.regs.txPcieTagV core := by
    cases hdone : b.regs.hostDone (b.inputs c) <;>
      cases hacc : b.regs.hostAccept (b.inputs c) <;>
      simp [clock, next, hdone, hacc, Function.update_apply]
  rw [hreg, pending_clock, h.tagV]
  split
  · rfl
  · split <;> rfl

omit hf hc in
theorem Counted.tag_clock (hn : (b.clock c).pending core = some n) :
    ∃ r, (b.clock c).requests[n]? = some r ∧
      hostWrDestCore r = core ∧ (b.clock c).regs.txPcieTag core = r.tag := by
  rcases pending_clock_cases c hn with ⟨hacc, rfl, rfl⟩ | ⟨hold, -, hno⟩
  · exact ⟨c.host, by simp [clock, hacc], rfl, by simp [clock, next, hacc]⟩
  · obtain ⟨r, hr, hdest, htag⟩ := h.tag core n hold
    refine ⟨r, b.requests_clock c hr, hdest, ?_⟩
    rw [← htag]
    change (if _ then _ else _ : BitVec p.coreWidth → BitVec 32) core = _
    split
    · rename_i hacc
      exact Function.update_of_ne (fun heq => hno ⟨hacc, heq⟩) _ _
    · rfl

theorem Counted.message_clock (hv : (b.clock c).regs.coresCtrlMTvalid = true) :
    (b.clock c).pending (b.clock c).regs.coresCtrlMTdest =
        some ((b.clock c).requests.length - 1) ∧
      (b.clock c).asked (b.clock c).regs.coresCtrlMTdest = none ∧
      ∀ k, (b.clock c).answerOf k ≠ some ((b.clock c).requests.length - 1) := by
  have hacc : b.regs.hostAccept (b.inputs c) = true := by simpa [clock, next] using hv
  have hdest : (b.clock c).regs.coresCtrlMTdest = hostWrDestCore c.host := by
    simp [clock, next, hacc]
  have hlen : (b.clock c).requests.length - 1 = b.requests.length := by simp [clock, hacc]
  have hfree := h.pending_of_accept c hacc
  rw [hdest, hlen]
  refine ⟨hc.pending_accepted c hacc, ?_, ?_⟩
  · have hold : b.asked (hostWrDestCore c.host) = none := by
      cases ha : b.asked (hostWrDestCore c.host) with
      | none => rfl
      | some x =>
        obtain ⟨n, m⟩ := x
        have := (h.asked _ n m ha).1
        rw [hfree] at this
        exact absurd this (by simp)
    change (if _ then _ else _ : BitVec p.coreWidth → Option (Nat × BitVec 128)) _ = _
    split
    · rename_i hsent
      have hpend := (h.message (Bool.and_eq_true_iff.mp hsent).1).1
      rw [Function.update_of_ne, hold]
      intro heq
      rw [← heq, hfree] at hpend
      exact absurd hpend (by simp)
    · exact hold
  · intro k hk
    obtain ⟨x, r, -, hr, -⟩ := hf.answerOf_request (b := b) hk
    have := (List.getElem?_eq_some_iff.mp hr).1
    omega

omit hf in
theorem Counted.asked_clock {m : BitVec 128} (ha : (b.clock c).asked core = some (n, m)) :
    (b.clock c).pending core = some n ∧ ∀ k, (b.clock c).answerOf k ≠ some n := by
  have hcases : b.asked core = some (n, m) ∨ (b.regs.coresCtrlMTvalid = true ∧
      core = b.regs.coresCtrlMTdest ∧ n = b.requests.length - 1) := by
    change (if _ then _ else _ : BitVec p.coreWidth → Option (Nat × BitVec 128)) _ = _ at ha
    split at ha
    · rename_i hsent
      by_cases heq : core = b.regs.coresCtrlMTdest
      · rw [heq, Function.update_self, Option.some.injEq, Prod.mk.injEq] at ha
        exact .inr ⟨(Bool.and_eq_true_iff.mp hsent).1, heq, ha.1.symm⟩
      · rw [Function.update_of_ne heq] at ha
        exact .inl ha
    · exact .inl ha
  have hun : b.pending core = some n ∧ ∀ k, b.answerOf k ≠ some n := by
    rcases hcases with hold | ⟨hv, rfl, rfl⟩
    · exact h.asked core n m hold
    · obtain ⟨hpend, -, hun⟩ := h.message hv
      exact ⟨hpend, hun⟩
  exact ⟨h.pending_unanswered c hc hun.1 hun.2, hun.2⟩

theorem Counted.inFlight_clock {k n : Nat} {r : HostDesc} (hk : b.answerOf k = some n)
    (hcomp : k ∉ (b.clock c).completed) (hr : (b.clock c).requests[n]? = some r) :
    (b.clock c).pending (hostWrDestCore r) = some n := by
  obtain ⟨x, r', -, hr', -⟩ := hf.answerOf_request hk
  obtain rfl : r' = r := Option.some.inj ((b.requests_clock c hr').symm.trans hr)
  have hpend := h.inFlight k n r' hk (fun hmem => hcomp (List.mem_append_left _ hmem)) hr'
  rcases h.pending_kept c hc hpend with hkept | ⟨d, hd, hans, -⟩
  · exact hkept
  · -- the answer completes in this very cycle
    refine absurd (List.mem_append_right _ ?_) hcomp
    rw [h.once k _ n hk hans, hd]
    simp

theorem Counted.underway_clock (hn : (b.clock c).pending core = some n) :
    (b.clock c).Underway core n := by
  rcases pending_clock_cases c hn with ⟨hacc, rfl, rfl⟩ | ⟨hold, hnot, -⟩
  · refine .inl ⟨by simp [clock, next, hacc], by simp [clock, next, hacc], by simp [clock, hacc]⟩
  · rcases h.underway core n hold with ⟨hv, hdest, hlast⟩ | ⟨m, hm⟩ | ⟨k, hk, hnotin⟩
    · -- the message is taken by the core
      refine .inr (.inl ⟨b.regs.coresCtrlMTdata, ?_⟩)
      simp [clock, hv, hc.taken hv, hdest, hlast]
    · refine .inr (.inl ⟨m, ?_⟩)
      change (if _ then _ else _ : BitVec p.coreWidth → Option (Nat × BitVec 128)) core = _
      split
      · rename_i hsent
        have hfree := (h.message (Bool.and_eq_true_iff.mp hsent).1).2.1
        rw [Function.update_of_ne, hm]
        intro heq
        rw [← heq, hm] at hfree
        exact absurd hfree (by simp)
      · exact hm
    · refine .inr (.inr ⟨k, hk, fun hmem => ?_⟩)
      rcases List.mem_append.mp hmem with hbefore | hnow
      · exact hnotin hbefore
      · -- a completing answer would have ended the request
        obtain ⟨d, hd, rfl⟩ := List.mem_map.mp hnow
        obtain ⟨hdone, hpend⟩ := h.completing_answer c hf (Option.mem_toList.mp hd) hk
        exact hnot ⟨hdone, h.core_unique hold hpend⟩

theorem Counted.covered_clock {r : HostDesc} (hr : (b.clock c).requests[n]? = some r) :
    n ∈ (b.clock c).answered ∨ (b.clock c).pending (hostWrDestCore r) = some n := by
  rw [h.answered_clock c hf hc]
  by_cases hlt : n < b.requests.length
  · have hold : b.requests[n]? = some r := by
      rw [← hr, b.requests_clock c (List.getElem?_eq_getElem hlt), List.getElem?_eq_getElem hlt]
    rcases h.covered n r hold with hdone | hpend
    · exact .inl (List.mem_append_left _ hdone)
    · rcases h.pending_kept c hc hpend with hkept | ⟨d, -, -, hend⟩
      · exact .inr hkept
      · exact .inl (by simp [hend])
  · have hacc : b.regs.hostAccept (b.inputs c) = true := by
      by_contra hno
      have hsame : (b.clock c).requests = b.requests := if_neg hno
      rw [hsame, List.getElem?_eq_none (by omega)] at hr
      exact absurd hr (by simp)
    have happ : (b.clock c).requests = b.requests ++ [c.host] := if_pos hacc
    rw [happ, List.getElem?_append_right (by omega)] at hr
    have hzero := (List.getElem?_eq_some_iff.mp hr).1
    rw [List.length_singleton] at hzero
    obtain rfl : n = b.requests.length := by omega
    obtain rfl : c.host = r := by simpa using hr
    exact .inr (hc.pending_accepted c hacc)

omit hf h hc in
/-- The tags of requests already accepted stay. -/
theorem tagsOf_clock {ns : List Nat} (hns : ∀ n ∈ ns, ∃ r, b.requests[n]? = some r) :
    (b.clock c).tagsOf ns = b.tagsOf ns := by
  refine List.filterMap_congr fun n hn => ?_
  obtain ⟨r, hr⟩ := hns n hn
  rw [hr, b.requests_clock c hr]

theorem Counted.statuses_clock :
    (b.clock c).statuses ++ (b.clock c).current = (b.clock c).tagsOf (b.clock c).answered := by
  have hstat : (b.clock c).statuses = b.statuses ++ b.current := by
    unfold current
    cases hv : b.regs.hostStatusValid <;> simp [clock, hv]
  have hcur : (b.clock c).current = b.tagsOf (b.ending c) := by
    unfold current ending tagsOf
    cases hdone : b.regs.hostDone (b.inputs c) with
    | false =>
      have hlow : b.regs.hostStatusValid = false := by
        by_contra hv
        have := hc.lowered (Bool.eq_true_of_not_eq_false hv)
        rw [hdone] at this
        exact absurd this (by simp)
      simp [clock, next, hdone, hlow]
    | true =>
      cases hpend : b.pending (b.regs.txDoneCoreId (b.inputs c)) with
      | none => simp [clock, next, hdone, h.tagV, hpend]
      | some n =>
        obtain ⟨r, hr, -, htag⟩ := h.tag _ n hpend
        simp [clock, next, hdone, h.tagV, hpend, htag, hr]
  have hknown : ∀ n ∈ b.answered ++ b.ending c, ∃ r, b.requests[n]? = some r := by
    intro n hn
    rw [← h.answered_clock c hf hc] at hn
    obtain ⟨k, -, hk⟩ := List.mem_filterMap.mp hn
    obtain ⟨x, r, -, hr, -⟩ := hf.answerOf_request (b := b) hk
    exact ⟨r, hr⟩
  rw [hstat, hcur, h.statuses, h.answered_clock c hf hc, tagsOf_clock c hknown]
  exact List.filterMap_append.symm

/-- **One clock edge keeps the count of the statuses.** -/
theorem Counted.clock : (b.clock c).Counted where
  numbered := h.numbered_clock c hf
  users := h.users_clock c hf
  tagV := h.tagV_clock c
  tag _ _ := h.tag_clock c
  message := h.message_clock c hf hc
  asked _ _ _ := h.asked_clock c hc
  once := h.once
  inFlight _ _ _ := h.inFlight_clock c hf hc
  underway _ _ := h.underway_clock c hf hc
  covered _ _ := h.covered_clock c hf hc
  statuses := h.statuses_clock c hf hc

end Edge

/-! ## Runs -/

/-- The condition on a cycle, after a core has handed its packet to the stream. -/
def ExactStep (b : Bench p W) (c : Cycle p W) : Prop := b.Ready c ∧ (b.supply c).Exact c
deriving Decidable

theorem Counted.run (hW : 8 < W) (hstart : b.Start) {cycles : List (Cycle p W)}
    (hc : Meets step ExactStep b cycles) :
    (Clocked.run step b cycles).Followed ∧ (Clocked.run step b cycles).Counted := by
  refine run_invariant (P := fun b : Bench p W => b.Followed ∧ b.Counted) ?_
    ⟨hstart.followed, hstart.counted⟩ hc
  rintro b c ⟨hf, h⟩ ⟨hready, hexact⟩
  exact ⟨hf.step hW hready, (h.supply hf c).clock c (hf.supply c) hexact⟩

/-- No request is written to the host twice. -/
theorem Counted.nodup_answered (h : b.Counted) : b.answered.Nodup := by
  have hnodup := (List.nodup_append.mp (h.numbered.nodup_iff.mpr List.nodup_range)).2.1
  refine hnodup.filterMap ?_
  intro j k n hj hk
  exact h.once j k n hj hk

/-- A pending request has not been answered to the host. -/
theorem Counted.not_mem_answered (h : b.Counted) {core : BitVec p.coreWidth}
    {n : Nat} (hn : b.pending core = some n) : n ∉ b.answered := by
  intro hmem
  obtain ⟨k, hk, hans⟩ := List.mem_filterMap.mp hmem
  rcases h.underway core n hn with ⟨hv, -, rfl⟩ | ⟨m, hm⟩ | ⟨j, hj, hnot⟩
  · exact (h.message hv).2.2 k hans
  · exact (h.asked core n m hm).2 k hans
  · exact hnot (h.once j k n hj hans ▸ hk)

/-- **Exact statuses.**  In a run that meets the condition, the cycles with a status are
those of the answers written to the host, one for each answer, in their order and with the
tags of their requests; every request was answered so or is pending; and when the messages
are taken, answered, and all packets are written, no request is pending. -/
theorem statuses_of_exact (hW : 8 < W) {b : Bench p W} (hstart : b.Start)
    {cycles : List (Cycle p W)} (hc : Meets step ExactStep b cycles) :
    let b' := run step b cycles
    b'.statuses ++ b'.current = b'.tagsOf b'.answered ∧ b'.answered.Nodup ∧
      (∀ n r, b'.requests[n]? = some r →
        (n ∈ b'.answered ↔ b'.pending (hostWrDestCore r) ≠ some n)) ∧
      (b'.regs.coresCtrlMTvalid = false → (∀ core, b'.asked core = none) →
        (∀ k < b'.sent.length, k ∈ b'.completed) → ∀ core, b'.pending core = none) := by
  obtain ⟨-, h⟩ := Counted.run hW hstart hc
  refine ⟨h.statuses, h.nodup_answered, ?_, ?_⟩
  · intro n r hr
    constructor
    · intro hmem hpend
      exact h.not_mem_answered hpend hmem
    · intro hpend
      exact (h.covered n r hr).resolve_right hpend
  · intro hmsg hasked hall core
    cases hpend : (run step b cycles).pending core with
    | none => rfl
    | some n =>
      rcases h.underway core n hpend with ⟨hv, -⟩ | ⟨m, hm⟩ | ⟨k, hk, hnot⟩
      · rw [hmsg] at hv
        exact absurd hv (by simp)
      · rw [hasked core] at hm
        exact absurd hm (by simp)
      · obtain ⟨x, hx, -⟩ := answerOf_eq_some hk
        exact absurd (hall k (List.getElem?_eq_some_iff.mp hx).1) hnot

/-- A packet of 40 bytes, after its header. -/
def forty : Packet 64 (TxSide board) := zeros 0 48 (by decide)

/-- The host reads 40 bytes from core 0; the core answers, sends another packet with tag 0
right after the answer, and both are written to the host. -/
def readThenOwn : List (Cycle board 64) :=
  reading 40 forty 2 ++ [{ quiet with send := some (forty, none) }] ++ List.replicate 8 quiet ++
    List.replicate 2 { quiet with complete := some 0 }

/-- The completion of the second packet ends the status of the first. -/
theorem statuses_of_exact_two :
    let b' := run step afterReset readThenOwn
    (b'.statuses = [1] ∧ b'.completed = [0, 1]) ∧
      b'.statuses ++ b'.current = b'.tagsOf b'.answered ∧ b'.answered.Nodup ∧
      (∀ (n : Nat) (r : HostDesc), b'.requests[n]? = some r →
        (n ∈ b'.answered ↔ b'.pending (hostWrDestCore r) ≠ some n)) ∧
      (b'.regs.coresCtrlMTvalid = false → (∀ core, b'.asked core = none) →
        (∀ k < b'.sent.length, k ∈ b'.completed) → ∀ core, b'.pending core = none) :=
  ⟨by decide +kernel, statuses_of_exact (by decide) afterReset_start (by decide +kernel)⟩

/-- **A status is repeated.**  One read of 40 bytes, one answer, nothing else: the sink and
the cores are ready throughout, and the status with the tag of the request is there in
every cycle after the completion. -/
theorem status_repeated :
    let cycles := reading 40 forty 8 ++ [{ quiet with complete := some 0 }] ++
      List.replicate 3 quiet
    afterReset.Start ∧ Meets step Ready afterReset cycles ∧
      (run step afterReset cycles).requests.map HostDesc.tag = [1] ∧
      (run step afterReset cycles).completed = [0] ∧
      (run step afterReset cycles).statuses = [1, 1, 1] := by
  refine ⟨afterReset_start, ?_, ?_, ?_, ?_⟩ <;> decide +kernel

-- A read also ends early: the core sends a packet of its own with tag 0 before the answer,
-- and its completion raises the status while the answer is not written.
example :
    let cycles := [{ quiet with hostValid := true, host := ⟨0, 0, 40, 1⟩ }, quiet,
      { quiet with send := some (forty, none) }] ++ List.replicate 8 quiet ++
      [{ quiet with complete := some 0 }, quiet]
    Meets step Ready afterReset cycles ∧ (run step afterReset cycles).answered = [] ∧
      (run step afterReset cycles).statuses = [1] := by
  refine ⟨?_, ?_, ?_⟩ <;> decide +kernel

end Rosebud.PcieContWrite.Bench
