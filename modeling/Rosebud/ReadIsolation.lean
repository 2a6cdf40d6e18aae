import Rosebud.PcieContRead

/-! # The scratchpad of `pcie_cont_read`

Nothing compares the length of a request with the 2048 bytes between two slots.  As
long as no request is longer than that unless it is alone in flight, the ranges of the
requests in flight are disjoint, and the client forwards for each of them the bytes the
engine fetched for it (`isolated_of_short`): `Isolated` says that the scratchpad holds, at
every slot in use, what was fetched for the request there.  A longer request reaches into
the regions of the slots after its own, and its bytes are forwarded in the place of theirs
(`long_request_overwrites`).
-/
namespace Rosebud.PcieContRead.Bench
open Clocked PcieParams PcieSlots

variable {p : PcieParams} {b : Bench p}

/-- The ranges of the requests in flight. -/
def inFlight (b : Bench p) : List Span :=
  b.pcieDescs.map (fun d => ⟨d.ramAddr.toNat, d.len.toNat⟩) ++
    b.axisDescs.map (fun d => ⟨d.addr.toNat, d.len.toNat⟩)

/-- The range of a slot in use is the one of the descriptor that holds it. -/
theorem Booked.inFlight_eq (h : b.Booked) : b.inFlight = b.held.map fun slot =>
      ⟨(regionStart slot : BitVec p.ramAddrWidth).toNat, (b.regs.rxLen slot).toNat⟩ := by
  rw [inFlight, held, List.map_append, List.map_map, List.map_map]
  congr 1
  · refine List.map_congr_left fun d hd => ?_
    obtain ⟨-, haddr, hlen⟩ := h.pcieOk d hd
    simp [haddr, hlen]
  · refine List.map_congr_left fun d hd => ?_
    obtain ⟨haddr, hlen, -, -⟩ := h.axisOk d hd
    simp [haddr, hlen]

/-- A request has at most the 2048 bytes of a region, as have those in flight; or none is in
flight and it fits into the scratchpad. -/
def ShortOrAlone (b : Bench p) (c : Cycle p) : Prop :=
  ∀ r ∈ b.regs.request (b.inputs c),
    (r.len.toNat ≤ 2048 ∧ ∀ x ∈ b.inFlight, x.len ≤ 2048) ∨
      (b.inFlight = [] ∧ r.len.toNat ≤ p.ramSize)
deriving Decidable

/-- The slots in use have short requests, or there is only one. -/
def Apart (b : Bench p) : Prop :=
  (∀ slot ∈ b.held, (b.regs.rxLen slot).toNat ≤ 2048) ∨
    (b.held.length ≤ 1 ∧ ∀ slot ∈ b.held, (b.regs.rxLen slot).toNat ≤ p.ramSize)

/-- **What the scratchpad holds**: at every slot in use the bytes fetched for its request, and
all of them once the engine has reported it. -/
structure Isolated (b : Bench p) : Prop where
  booked : b.Booked
  apart : b.Apart
  agree : ∀ slot ∈ b.held, ∀ i v, b.fetched slot i = some v →
    i < (b.regs.rxLen slot).toNat ∧
      b.ram (byteAt (regionStart slot : BitVec p.ramAddrWidth) i) = v
  fetchLeft : ∀ f ∈ b.fetching, ∀ i ∈ f.left, i < f.desc.len.toNat
  fetchDone : ∀ f ∈ b.fetching, ∀ i, i < f.desc.len.toNat → i ∉ f.left →
    (b.fetched (slotOf f.desc.tag) i).isSome = true
  forwardLeft : ∀ f ∈ b.forwarding, ∀ i ∈ f.left, i < f.desc.len.toNat
  axisDone : ∀ d ∈ b.axisDescs, ∀ i, i < d.len.toNat → (b.fetched d.tag i).isSome = true
  forwarded : ∀ e ∈ b.forwarded, e.fetched = some e.byte

theorem Start.isolated (h : b.Start) : b.Isolated := by
  obtain ⟨hpcie, haxis⟩ := h.descs_eq
  constructor
  · exact h.booked
  · exact .inl (by simp [held, hpcie, haxis])
  · simp [held, hpcie, haxis]
  · simp [h.fetching]
  · simp [h.fetching]
  · simp [h.forwarding]
  · simp [haxis]
  · simp [h.forwarded]

/-! ## Reads and writes -/

/-- What a write records of the fetched bytes. -/
theorem isSome_record {fetched : p.Slot → Nat → Option (BitVec 8)} {slot slot' : p.Slot}
    {i j : Nat} {v : BitVec 8} (hsome : slot' = slot ∧ j = i ∨ (fetched slot' j).isSome = true) :
    (Function.update fetched slot (Function.update (fetched slot) i (some v)) slot' j).isSome =
      true := by
  by_cases hs : slot' = slot
  · subst hs
    rw [Function.update_self]
    by_cases hj : j = i
    · subst hj
      rw [Function.update_self]
      rfl
    · rw [Function.update_of_ne hj]
      exact hsome.resolve_left fun hc => hj hc.2
  · rw [Function.update_of_ne hs]
    exact hsome.resolve_left fun hc => hs hc.1

/-- What is in flight does not change with the bytes. -/
theorem descs_read (b : Bench p) (r : Nat × Nat) :
    (b.read r).pcieDescs = b.pcieDescs ∧ (b.read r).axisDescs = b.axisDescs := by
  simp only [pcieDescs, axisDescs, b.regs_read r, b.fetching_read r, b.forwarding_read r, and_self]

theorem descs_write (b : Bench p) (w : Write) :
    (b.write w).pcieDescs = b.pcieDescs ∧ (b.write w).axisDescs = b.axisDescs := by
  simp only [pcieDescs, axisDescs, b.regs_write w, b.fetching_write w, b.forwarding_write w,
    and_self]

section Bytes
variable (h : b.Isolated)
include h

/-- **Bytes of different requests are different bytes of the scratchpad.** -/
theorem Isolated.byte_inj {slot slot' : p.Slot} (hs : slot ∈ b.held) (hs' : slot' ∈ b.held)
    {i j : Nat} (hi : i < (b.regs.rxLen slot).toNat) (hj : j < (b.regs.rxLen slot').toNat)
    (hbyte : byteAt (regionStart slot : BitVec p.ramAddrWidth) i =
      byteAt (regionStart slot' : BitVec p.ramAddrWidth) j) : slot = slot' ∧ i = j := by
  rcases h.apart with hshort | ⟨hone, hfits⟩
  · have hlen := hshort slot hs
    have hlen' := hshort slot' hs'
    exact region_byte_inj (h.booked.balanced.lt_slotCount hs) (h.booked.balanced.lt_slotCount hs')
      (by omega) (by omega) hbyte
  · obtain ⟨x, hx⟩ := List.length_eq_one_iff.mp
      (Nat.le_antisymm hone (List.length_pos_of_mem hs))
    rw [hx, List.mem_singleton] at hs hs'
    subst hs hs'
    have hlen := hfits slot' (hx ▸ List.mem_singleton_self _)
    have hmod : i ≡ j [MOD p.ramSize] := Nat.ModEq.add_left_cancel' _ hbyte
    exact ⟨rfl, hmod.eq_of_lt_of_lt (by omega) (by omega)⟩

/-- What is still to be written is of the request that holds the slot. -/
theorem Isolated.left_lt {f : Fetch p} (hf : f ∈ b.fetching) {i : Nat} (hi : i ∈ f.left) :
    i < (b.regs.rxLen (slotOf f.desc.tag)).toNat := by
  rw [← (h.booked.pcieOk f.desc (mem_pcieDescs_of_fetching hf)).len]
  exact h.fetchLeft f hf i hi

/-- The client reads what was fetched. -/
theorem Isolated.read_eq {f : Forward p} (hf : f ∈ b.forwarding) {i : Nat}
    (hi : i ∈ f.left) :
    b.fetched f.desc.tag i = some (b.ram (byteAt f.desc.addr i)) := by
  have hmem := mem_axisDescs_of_forwarding hf
  obtain ⟨v, hv⟩ := Option.isSome_iff_exists.mp
    (h.axisDone f.desc hmem i (h.forwardLeft f hf i hi))
  obtain ⟨-, hram⟩ := h.agree _ (mem_held_of_axis hmem) _ _ hv
  rw [(h.booked.axisOk f.desc hmem).addr, hram, hv]

theorem Isolated.read (r : Nat × Nat) : (b.read r).Isolated := by
  have hbooked := h.booked.read r
  rcases b.read_cases r with heq | ⟨f, hf, hleft, heq⟩
  · rwa [heq]
  · have hfmem := List.mem_of_getElem? hf
    have hregs := b.regs_read r
    have hfetch := b.fetching_read r
    obtain ⟨hpcie, haxis⟩ := b.descs_read r
    have hheld : (b.read r).held = b.held := by rw [held, held, hpcie, haxis]
    have hram : (b.read r).ram = b.ram := by rw [heq]
    have hfetched : (b.read r).fetched = b.fetched := by rw [heq]
    constructor
    · exact hbooked
    · rw [Apart, hheld, hregs]
      exact h.apart
    · rw [hheld, hregs, hram, hfetched]
      exact h.agree
    · rw [hfetch]
      exact h.fetchLeft
    · rw [hfetch, hfetched]
      exact h.fetchDone
    · rw [heq]
      intro g hg i hi
      rcases List.mem_or_eq_of_mem_set hg with hold | rfl
      · exact h.forwardLeft g hold i hi
      · exact h.forwardLeft f hfmem i (List.mem_of_mem_erase hi)
    · rw [haxis, hfetched]
      exact h.axisDone
    · rw [heq]
      intro e he
      rcases List.mem_append.mp he with hold | hnew
      · exact h.forwarded e hold
      · rw [List.mem_singleton.mp hnew]
        exact h.read_eq hfmem hleft

theorem Isolated.write (w : Write) : (b.write w).Isolated := by
  have hbooked := h.booked.write w
  rcases b.write_cases w with heq | ⟨f, hf, hleft, heq⟩
  · rwa [heq]
  · have hfmem := List.mem_of_getElem? hf
    have hregs := b.regs_write w
    have hforward := b.forwarding_write w
    obtain ⟨hpcie, haxis⟩ := b.descs_write w
    have hheld : (b.write w).held = b.held := by rw [held, held, hpcie, haxis]
    have hmem := mem_pcieDescs_of_fetching hfmem
    have hslot := mem_held_of_pcie hmem
    have haddr := (h.booked.pcieOk f.desc hmem).ramAddr
    have hlt := h.left_lt hfmem hleft
    constructor
    · exact hbooked
    · rw [Apart, hheld, hregs]
      exact h.apart
    · -- the byte written is one of its own request, so that no other byte changes
      rw [hheld, hregs, heq]
      intro slot hs i v hv
      simp only [haddr] at hv ⊢
      by_cases hsame : slot = slotOf f.desc.tag ∧ i = w.offset
      · obtain ⟨rfl, rfl⟩ := hsame
        rw [Function.update_self, Function.update_self] at hv
        refine ⟨hlt, ?_⟩
        rw [Function.update_self]
        exact Option.some.inj hv
      · have hold : b.fetched slot i = some v := by
          by_cases hs' : slot = slotOf f.desc.tag
          · subst hs'
            have hne : i ≠ w.offset := fun hi => hsame ⟨rfl, hi⟩
            rwa [Function.update_self, Function.update_of_ne hne] at hv
          · rwa [Function.update_of_ne hs'] at hv
        obtain ⟨hi, hram⟩ := h.agree slot hs i v hold
        refine ⟨hi, ?_⟩
        rw [Function.update_of_ne, hram]
        intro hbyte
        exact hsame (h.byte_inj hs hslot hi hlt hbyte)
    · rw [heq]
      intro g hg i hi
      rcases List.mem_or_eq_of_mem_set hg with hold | rfl
      · exact h.fetchLeft g hold i hi
      · exact h.fetchLeft f hfmem i (List.mem_of_mem_erase hi)
    · rw [heq]
      intro g hg i hi hnot
      rcases List.mem_or_eq_of_mem_set hg with hold | rfl
      · exact isSome_record (.inr (h.fetchDone g hold i hi hnot))
      · by_cases hio : i = w.offset
        · exact isSome_record (.inl ⟨rfl, hio⟩)
        · refine isSome_record (.inr (h.fetchDone f hfmem i hi fun hin => ?_))
          exact hnot ((List.mem_erase_of_ne hio).mpr hin)
    · rw [hforward]
      exact h.forwardLeft
    · rw [haxis, heq]
      intro d hd i hi
      exact isSome_record (.inr (h.axisDone d hd i hi))
    · rw [heq]
      exact h.forwarded

end Bytes

/-! ## The clock edge -/

section Edge
variable (h : b.Isolated) (c : Cycle p)

theorem mem_fetching_clock {f : Fetch p} (hf : f ∈ (b.clock c).fetching) :
    f ∈ b.fetching ∨ f.left = List.range f.desc.len.toNat := by
  rcases List.mem_append.mp hf with hold | hnew
  · exact .inl (mem_of_mem_dropReported hold)
  · unfold newFetches at hnew
    split at hnew
    · rw [List.mem_singleton.mp hnew]
      exact .inr rfl
    · exact absurd hnew List.not_mem_nil

theorem mem_forwarding_clock {f : Forward p} (hf : f ∈ (b.clock c).forwarding) :
    f ∈ b.forwarding ∨ f.left = List.range f.desc.len.toNat := by
  rcases List.mem_append.mp hf with hold | hnew
  · exact .inl (mem_of_mem_dropReported hold)
  · unfold newForwards at hnew
    split at hnew
    · rw [List.mem_singleton.mp hnew]
      exact .inr rfl
    · exact absurd hnew List.not_mem_nil

include h

/-- What was fetched for a slot in use stays when another slot is given out. -/
theorem Isolated.fetched_clock {slot : p.Slot} (hs : slot ∈ b.held) :
    (b.clock c).fetched slot = b.fetched slot := by
  change (if _ then _ else _ : p.Slot → Nat → Option (BitVec 8)) slot = _
  split
  · rename_i hreq
    refine Function.update_of_ne ?_ _ _
    rintro rfl
    exact h.booked.balanced.not_mem (PcieSlots.select_of_ne_zero (rxSlot_ne_zero hreq)).1 hs
  · rfl

/-- The slots in use after the edge were in use, or one was just given to a request. -/
theorem Isolated.mem_held_clock {slot : p.Slot} (hs : slot ∈ (b.clock c).held) :
    slot ∈ b.held ∨
      slot = b.regs.selectedRxSlot ∧ (b.regs.request (b.inputs c)).isSome = true := by
  have hcount := h.booked.count_held_clock c slot
  have hpos := List.count_pos_iff.mpr hs
  split at hcount
  · rename_i hreq
    by_cases hsel : slot = b.regs.selectedRxSlot
    · exact .inr ⟨hsel, hreq⟩
    · rw [List.count_cons_of_ne (Ne.symm hsel), List.count_nil] at hcount
      exact .inl (List.count_pos_iff.mp (by omega))
  · rw [List.count_nil] at hcount
    exact .inl (List.count_pos_iff.mp (by omega))

/-- After the edge the requests in flight are short, or there is one. -/
theorem Isolated.apart_clock (hc : b.ShortOrAlone c) : (b.clock c).Apart := by
  have hlen : ∀ slot ∈ b.held, (b.clock c).regs.rxLen slot = b.regs.rxLen slot :=
    fun slot hs => h.booked.save_held hs b.regs.rxLen ReadRequest.len
  have hcount := h.booked.count_held_clock c
  cases hreq : b.regs.request (b.inputs c) with
  | none =>
    have hsub : (b.clock c).held.Subperm b.held := List.subperm_iff_count.mpr fun slot => by
      have hslot := hcount slot
      simp only [hreq, Option.isSome_none, Bool.false_eq_true, if_false, List.count_nil] at hslot
      omega
    rcases h.apart with hshort | ⟨hone, hfits⟩
    · exact .inl fun slot hs => hlen slot (hsub.subset hs) ▸ hshort slot (hsub.subset hs)
    · exact .inr ⟨hsub.length_le.trans hone,
        fun slot hs => hlen slot (hsub.subset hs) ▸ hfits slot (hsub.subset hs)⟩
  | some r =>
    have hnew : (b.clock c).regs.rxLen b.regs.selectedRxSlot = r.len := by
      change b.regs.save (b.inputs c) b.regs.rxLen ReadRequest.len _ = _
      simp [save, hreq]
    rcases hc r hreq with ⟨hr, hothers⟩ | ⟨halone, hr⟩
    · refine .inl fun slot hs => ?_
      rcases h.mem_held_clock c hs with hold | ⟨rfl, -⟩
      · rw [hlen slot hold]
        rw [h.booked.inFlight_eq] at hothers
        exact hothers _ (List.mem_map_of_mem hold)
      · rwa [hnew]
    · have hnil : b.held = [] := List.map_eq_nil_iff.mp (h.booked.inFlight_eq ▸ halone)
      have hsub : (b.clock c).held.Subperm [b.regs.selectedRxSlot] :=
        List.subperm_iff_count.mpr fun slot => by
          have hslot := hcount slot
          simp only [hreq, Option.isSome_some, if_true, hnil, List.count_nil] at hslot
          omega
      refine .inr ⟨hsub.length_le, fun slot hs => ?_⟩
      rw [List.mem_singleton.mp (hsub.subset hs), hnew]
      exact hr

/-- An order just made for the client: all its bytes are in the scratchpad. -/
theorem Isolated.axisDone_clock {d : AxisReadDesc p} (hd : d ∈ (b.clock c).axisDescs) {i : Nat}
    (hi : i < d.len.toNat) : ((b.clock c).fetched d.tag i).isSome = true := by
  have hmem := (h.booked.axisDescs_clock c).subset (List.mem_append_left _ hd)
  rcases List.mem_append.mp hmem with hnew | hold
  · obtain ⟨f, hdone, rfl⟩ := b.completing_of_issued c hnew
    obtain ⟨hfmem, hleft⟩ := completing_mem c hdone
    have hdesc := mem_pcieDescs_of_fetching hfmem
    have hlen := (h.booked.pcieOk f.desc hdesc).len
    rw [h.fetched_clock c (mem_held_of_pcie hdesc)]
    exact h.fetchDone f hfmem i (by rwa [hlen]) (by simp [hleft])
  · rw [h.fetched_clock c (mem_held_of_axis hold)]
    exact h.axisDone d hold i hi

theorem Isolated.clock (hc : b.ShortOrAlone c) : (b.clock c).Isolated := by
  constructor
  · exact h.booked.clock c
  · exact h.apart_clock c hc
  · intro slot hs i v hv
    rcases h.mem_held_clock c hs with hold | ⟨rfl, hreq⟩
    · rw [h.fetched_clock c hold] at hv
      change i < (b.regs.save (b.inputs c) b.regs.rxLen ReadRequest.len slot).toNat ∧ _
      rw [h.booked.save_held hold]
      exact h.agree slot hold i v hv
    · -- nothing has been fetched for a new request
      change (if _ then _ else _ : p.Slot → Nat → Option (BitVec 8)) _ i = _ at hv
      rw [if_pos hreq, Function.update_self] at hv
      exact absurd hv (by simp)
  · intro f hf i hi
    rcases mem_fetching_clock c hf with hold | hnew
    · exact h.fetchLeft f hold i hi
    · rw [hnew] at hi
      exact List.mem_range.mp hi
  · intro f hf i hi hnot
    rcases mem_fetching_clock c hf with hold | hnew
    · rw [h.fetched_clock c (mem_held_of_pcie (mem_pcieDescs_of_fetching hold))]
      exact h.fetchDone f hold i hi hnot
    · rw [hnew] at hnot
      exact absurd (List.mem_range.mpr hi) hnot
  · intro f hf i hi
    rcases mem_forwarding_clock c hf with hold | hnew
    · exact h.forwardLeft f hold i hi
    · rw [hnew] at hi
      exact List.mem_range.mp hi
  · intro d hd i hi
    exact h.axisDone_clock c hd hi
  · exact h.forwarded

/-- **One cycle keeps the scratchpad in order**, if it accepts no long request beside
another. -/
theorem Isolated.step (hc : b.ShortOrAlone c) : (b.step c).Isolated := by
  have hread : (run Bench.read b c.reads).Isolated :=
    run_preserves (fun _ r hb => hb.read r) h c.reads
  have hwrite : (run Bench.write (run Bench.read b c.reads) c.writes).Isolated :=
    run_preserves (fun _ w hb => hb.write w) hread c.writes
  obtain ⟨hregs, hpcie, haxis⟩ :
      (run Bench.write (run Bench.read b c.reads) c.writes).regs = b.regs ∧
        (run Bench.write (run Bench.read b c.reads) c.writes).pcieDescs = b.pcieDescs ∧
        (run Bench.write (run Bench.read b c.reads) c.writes).axisDescs = b.axisDescs := by
    let same (x : Bench p) : Prop :=
      x.regs = b.regs ∧ x.pcieDescs = b.pcieDescs ∧ x.axisDescs = b.axisDescs
    have hsame : same (run Bench.read b c.reads) :=
      run_preserves (fun x r hx => ⟨(x.regs_read r).trans hx.1, (x.descs_read r).1.trans hx.2.1,
        (x.descs_read r).2.trans hx.2.2⟩) ⟨rfl, rfl, rfl⟩ c.reads
    exact run_preserves (fun x w hx => ⟨(x.regs_write w).trans hx.1,
      (x.descs_write w).1.trans hx.2.1, (x.descs_write w).2.trans hx.2.2⟩) hsame c.writes
  refine hwrite.clock c fun r hr => ?_
  rw [hregs] at hr
  rw [inFlight, hpcie, haxis]
  exact hc r hr

end Edge

/-! ## Disjoint ranges -/

theorem Isolated.pairwise_disjoint (h : b.Isolated) :
    b.inFlight.Pairwise fun x y => Disjoint x.bytes y.bytes := by
  rw [h.booked.inFlight_eq, List.pairwise_map]
  rcases h.apart with hshort | ⟨hone, -⟩
  · refine h.booked.balanced.nodup.imp_of_mem ?_
    intro slot slot' hs hs' hne
    exact disjoint_regions hne (hshort slot hs) (hshort slot' hs')
  · match hheld : b.held with
    | [] => exact .nil
    | [_] => exact List.pairwise_singleton _ _
    | _ :: _ :: _ => simp [hheld] at hone

/-- **Isolation of the scratchpad.**  In every run, whatever host and cores ask for and
in whatever order the engine and the client work and report, if a request of more than 2048
bytes is accepted only when none is in flight, and none beside it: the ranges of the requests
in flight are pairwise disjoint, and every byte forwarded is the byte fetched for the same
request. -/
theorem isolated_of_short {b : Bench p} (hstart : b.Start) {cycles : List (Cycle p)}
    (hshort : Meets Bench.step ShortOrAlone b cycles) :
    (run Bench.step b cycles).inFlight.Pairwise (fun x y => Disjoint x.bytes y.bytes) ∧
      ∀ e ∈ (run Bench.step b cycles).forwarded, e.fetched = some e.byte := by
  have hiso : (run Bench.step b cycles).Isolated :=
    run_invariant (fun _ c hb hc => hb.step c hc) hstart.isolated hshort
  exact ⟨hiso.pairwise_disjoint, hiso.forwarded⟩

/-! ## Two requests -/

/-- The bench after a reset, with a cleared scratchpad. -/
def afterReset : Bench board where
  regs := { (default : PcieContRead board) with rxSlot := BitVec.allOnes 16 }
  fetching := []
  forwarding := []
  ram := fun _ => 0
  fetched := fun _ _ => none
  forwarded := []

theorem afterReset_start : afterReset.Start where
  regs := ⟨rfl, rfl, rfl, rfl, .default, .default⟩
  fetching := rfl
  forwarding := rfl
  fetched := fun _ _ => rfl
  forwarded := rfl

/-- A cycle in which nothing is asked for and nothing written, read or reported. -/
def quiet : Cycle board where
  hostValid := false
  host := ⟨0, 0, 0, 0⟩
  coresValid := false
  cores := ⟨0, 0⟩
  pcieReady := true
  writes := []
  complete := none
  axisReady := true
  reads := []
  finish := none

/-- A host request for `len` bytes. -/
def asking (len : BitVec 16) (tag : BitVec 32) : Cycle board :=
  { quiet with hostValid := true, host := ⟨0, 0, len, tag⟩ }

/-- Two requests; the second is fetched, then byte 2048 of the first, then the second
is forwarded. -/
def overtaking (len : BitVec 16) : List (Cycle board) :=
  [quiet, asking len 1, asking 1 2, quiet, quiet,
    { quiet with writes := [⟨1, 0, 0xBB⟩], complete := some 1 },
    { quiet with writes := [⟨0, 2048, 0xAA⟩] }, quiet, { quiet with reads := [(0, 0)] }]

/-- With 2048 bytes in the first request the second one is left alone. -/
theorem isolated_of_short_two :
    (run Bench.step afterReset (overtaking 2048)).inFlight.Pairwise
        (fun x y => Disjoint x.bytes y.bytes) ∧
      ∀ e ∈ (run Bench.step afterReset (overtaking 2048)).forwarded, e.fetched = some e.byte :=
  isolated_of_short afterReset_start (by decide +kernel)

/-- **A request of 2049 bytes** shares the scratchpad byte 2048 with the request in the
next slot, and the core that asked for the latter is sent a byte of the former. -/
theorem long_request_overwrites :
    afterReset.Start ∧
      Meets Bench.step (fun b c => ∀ r ∈ b.regs.request (b.inputs c),
        1 ≤ r.len.toNat ∧ r.len.toNat ≤ 16384) afterReset (overtaking 2049) ∧
      ¬ (run Bench.step afterReset (overtaking 2049)).inFlight.Pairwise
        (fun x y => Disjoint x.bytes y.bytes) ∧
      ∃ e ∈ (run Bench.step afterReset (overtaking 2049)).forwarded,
        e.fetched = some 0xBB ∧ e.byte = 0xAA := by
  refine ⟨afterReset_start, by decide +kernel, ?_, by decide +kernel⟩
  have hspans : (run Bench.step afterReset (overtaking 2049)).inFlight =
      [⟨0, 2049⟩, ⟨2048, 1⟩] := by decide +kernel
  rw [hspans]
  intro hpair
  have hdisj := List.rel_of_pairwise_cons hpair List.mem_cons_self
  have hfirst : 2048 ∈ Span.bytes ⟨0, 2049⟩ := by simp [Span.bytes]
  exact Set.disjoint_left.mp hdisj hfirst (by simp [Span.bytes])

end Rosebud.PcieContRead.Bench
