import Rosebud.Clocked
import Rosebud.HeaderAdder

/-! # `header_adder` over whole streams

Packets come one after the other, each with what stands at the header port when its first
word comes.  `Owes` says, in every state, which words of the packet that is passing are
still to come and which words are still to leave for it.  A cycle takes the words that leave
off the front of those owed (`Owes.step`), so that the stream that leaves is that of the
packets behind their headers (`prepends_exactly`).
-/
namespace Rosebud.HeaderAdder
open Clocked Lanes AxiStream

variable {W H dw uw : Nat}

/-! ## The surroundings -/

/-- A packet, and what stands at the header port when its first word comes.  The sideband of
the packet is that of its first word. -/
structure Offer (W H dw uw : Nat) where
  packet : Packet W (Tag dw uw)
  count_pos : 0 < packet.count
  header : BitVec (8 * H)
  headerValid : Bool

namespace Offer
variable (o : Offer W H dw uw) (alwaysHdr : Bool)

/-- The header the packet should get. -/
def added : Option (BitVec (8 * H)) := if o.headerValid || alwaysHdr then some o.header else none

/-- What should leave for the packet. -/
def views : List (View W (Tag dw uw)) := expected (o.added alwaysHdr) o.packet

end Offer

/-- One cycle of the surroundings: whether a word is offered, what stands on the wires if
not, the sideband of the words after a packet's first, and what stands at the header port
when no first word is offered. -/
structure Cycle (W H dw uw : Nat) where
  offer : Bool
  idle : Beat W (Tag dw uw)
  side : Tag dw uw
  header : BitVec (8 * H)
  headerValid : Bool
  mAxisTready : Bool

/-- The module with the words to come of the packet that is passing, the packets after it,
and two logs: the packets for which `header_ready` was given, and the words that left. -/
structure Bench (W H dw uw : Nat) where
  regs : Regs H dw uw
  part : List (Beat W (Tag dw uw))
  queue : List (Offer W H dw uw)
  readied : List (Offer W H dw uw)
  out : List (View W (Tag dw uw))

namespace Bench
variable (alwaysHdr : Bool) (b : Bench W H dw uw) (c : Cycle W H dw uw)

/-- The packet whose first word is on offer. -/
def first : Option (Offer W H dw uw) := if c.offer && b.part.isEmpty then b.queue.head? else none

def inputs : Inputs W H dw uw where
  sAxis := match b.first c, b.part with
    | some o, _ => o.packet.firstBeat
    | none, w :: _ => { w with side := c.side }
    | none, [] => c.idle
  sAxisTvalid := (b.first c).isSome || (c.offer && !b.part.isEmpty)
  header := ((b.first c).map Offer.header).getD c.header
  headerValid := ((b.first c).map Offer.headerValid).getD c.headerValid
  mAxisTready := c.mAxisTready

/-- A word is taken. -/
def accepts : Bool := (b.inputs c).sAxisTvalid && sAxisTready b.regs (b.inputs c)

def step : Bench W H dw uw where
  regs := next alwaysHdr b.regs (b.inputs c)
  part :=
    if b.accepts c then
      match b.first c with
      | some o => o.packet.beats.tail
      | none => b.part.tail
    else b.part
  queue := if b.accepts c && (b.first c).isSome then b.queue.tail else b.queue
  readied := b.readied ++ if headerReady b.regs (b.inputs c) then b.queue.head?.toList else []
  out := b.out ++
    if mAxisTvalid b.regs (b.inputs c) && c.mAxisTready then
      [(mAxis alwaysHdr b.regs (b.inputs c)).view]
    else []

/-- Out of reset, with packets to come. -/
structure Start (offers : List (Offer W H dw uw)) : Prop where
  state : b.regs.state = .hdr
  part : b.part = []
  queue : b.queue = offers
  readied : b.readied = []
  out : b.out = []

end Bench

/-! ## What is owed -/

section Owed
variable {alwaysHdr : Bool} {r : Regs H dw uw} {i : Inputs W H dw uw}

/-- Inside a packet the sideband of the input word does not count. -/
def within (r : Regs H dw uw) (i : Inputs W H dw uw) : Inputs W H dw uw :=
  { i with sAxis := { i.sAxis with side := if r.state = .hdr then i.sAxis.side else r.tag } }

theorem mAxis_within : mAxis alwaysHdr r (within r i) = mAxis alwaysHdr r i := by
  cases hs : r.state <;>
    simp [mAxis, mAxisTdata, mAxisTkeep, mAxisTlast, mAxisTdest, mAxisTuser, addsHeader, strbLeft,
      within, hs]

theorem next_within : next alwaysHdr r (within r i) = next alwaysHdr r i := by
  cases hs : r.state <;>
    simp [next, nextState, sAxisTready, addsHeader, strbLeft, within, hs]

/-- The packet that is passing has the words `part` to come, and `owed` is still to leave
for it. -/
def Owes (alwaysHdr : Bool) (r : Regs H dw uw) (part : List (Beat W (Tag dw uw)))
    (owed : List (View W (Tag dw uw))) : Prop :=
  match r.state with
  | .hdr => part = [] ∧ owed = []
  | .lst => part = [] ∧ owed = [lastView W r]
  | .mid | .fwd => Carries alwaysHdr r r.tag ∧ ∃ q : Packet W (Tag dw uw), 0 < q.count ∧
      part = q.beats ∧ owed = pack W r.tag (headerBytes (latched r) ++ q.bytes)

theorem Owes.of_inside {part : List (Beat W (Tag dw uw))} {owed : List (View W (Tag dw uw))}
    (h : Owes alwaysHdr r part owed) (hhdr : r.state ≠ .hdr) (hlst : r.state ≠ .lst) :
    Carries alwaysHdr r r.tag ∧ ∃ q : Packet W (Tag dw uw), 0 < q.count ∧
      part = q.beats ∧ owed = pack W r.tag (headerBytes (latched r) ++ q.bytes) := by
  cases hs : r.state with
  | hdr => exact absurd hs hhdr
  | lst => exact absurd hs hlst
  | mid => simpa only [Owes, hs] using h
  | fwd => simpa only [Owes, hs] using h

theorem owes_of_inside {part : List (Beat W (Tag dw uw))} {owed : List (View W (Tag dw uw))}
    (hs : r.state = .mid ∨ r.state = .fwd) (hc : Carries alwaysHdr r r.tag)
    {q : Packet W (Tag dw uw)} (hq : 0 < q.count) (hpart : part = q.beats)
    (howed : owed = pack W r.tag (headerBytes (latched r) ++ q.bytes)) :
    Owes alwaysHdr r part owed := by
  rcases hs with hs | hs <;> simp only [Owes, hs] <;> exact ⟨hc, q, hq, hpart, howed⟩

/-- **A word of a packet is taken.**  A word leaves for it, which was owed. -/
theorem owes_taken (hH : 0 < H) (hHW : H ≤ W) (hs : r.state ≠ .lst)
    (hr : r.state ≠ .hdr → Carries alwaysHdr r r.tag) (hvalid : i.sAxisTvalid = true)
    (hready : i.mAxisTready = true) {q : Packet W (Tag dw uw)} (hq : 0 < q.count)
    (hdata : i.sAxis.tdata = q.head) (hkeep : i.sAxis.tkeep = lowMask W q.headCount)
    (hlast : i.sAxis.tlast = q.body.isEmpty) :
    ∃ owed, pack W (within r i).sAxis.side (headerBytes (front alwaysHdr r i) ++ q.bytes) =
        (mAxis alwaysHdr r i).view :: owed ∧
      Owes alwaysHdr (next alwaysHdr r i) q.beats.tail owed := by
  have hcarries : Carries alwaysHdr r (within r i).sAxis.side := by
    by_cases hhdr : r.state = .hdr
    · constructor <;> simp [hhdr]
    · simpa [within, hhdr] using hr hhdr
  obtain ⟨owed, hpack, hcases⟩ := pack_taken (i := within r i) alwaysHdr hHW hH hs hcarries hvalid
    hready (fun _ => hq) hdata hkeep hlast
  rw [mAxis_within] at hpack
  rw [next_within] at hcases
  refine ⟨owed, hpack, ?_⟩
  rcases hcases with ⟨hbody, hs', rfl⟩ | ⟨hbody, hs', rfl⟩ | ⟨d, ds, hbody, hs', hc, rfl⟩
  · simp [Owes, hs', Packet.beats_nil hbody]
  · simp [Owes, hs', Packet.beats_nil hbody]
  · have hinside : (next alwaysHdr r i).state = .mid ∨ (next alwaysHdr r i).state = .fwd := by
      rw [hs']
      split
      · exact .inl rfl
      · exact .inr rfl
    have htag : (next alwaysHdr r i).tag = (within r i).sAxis.side := by
      apply hc.tag
      rcases hinside with h | h <;> rw [h] <;> decide
    rw [Packet.beats_cons hbody, List.tail_cons, ← htag]
    exact owes_of_inside hinside (htag ▸ hc) (q := { q with body := ds }) hq rfl rfl

end Owed

/-! ## One cycle -/

section Step
variable {alwaysHdr : Bool} {b : Bench W H dw uw} {c : Cycle W H dw uw}
  {owed : List (View W (Tag dw uw))}

/-- What a cycle does to the words owed and to the packets to come. -/
def Moves (alwaysHdr : Bool) (b : Bench W H dw uw) (c : Cycle W H dw uw)
    (owed : List (View W (Tag dw uw))) : Prop :=
  ∃ owed', Owes alwaysHdr (b.step alwaysHdr c).regs (b.step alwaysHdr c).part owed' ∧
    (b.step alwaysHdr c).out ++ owed' ++
        (b.step alwaysHdr c).queue.flatMap (Offer.views · alwaysHdr) =
      b.out ++ owed ++ b.queue.flatMap (Offer.views · alwaysHdr) ∧
    (b.step alwaysHdr c).readied ++ (b.step alwaysHdr c).queue = b.readied ++ b.queue

/-- A word is taken when the module is not in `LST` and the receiver is ready. -/
theorem ready_of_accepts (h : b.accepts c = true) :
    (b.inputs c).sAxisTvalid = true ∧ b.regs.state ≠ .lst ∧ c.mAxisTready = true := by
  obtain ⟨hvalid, hready⟩ := Bool.and_eq_true_iff.mp h
  unfold sAxisTready at hready
  split at hready
  · exact absurd hready Bool.false_ne_true
  · exact ⟨hvalid, ‹_›, hready⟩

theorem next_lst_stall {r : Regs H dw uw} {i : Inputs W H dw uw} (hs : r.state = .lst)
    (hready : i.mAxisTready = false) : next alwaysHdr r i = r := by
  obtain ⟨state, data, keep, dest, user⟩ := r
  subst hs
  simp [next, nextState, sAxisTready, hready]

/-- The lanes left over leave. -/
theorem moves_lst (h : Owes alwaysHdr b.regs b.part owed) (hs : b.regs.state = .lst) :
    Moves alwaysHdr b c owed := by
  obtain ⟨hpart, rfl⟩ : b.part = [] ∧ owed = [lastView W b.regs] := by
    simpa only [Owes, hs] using h
  have ha : b.accepts c = false := by simp [Bench.accepts, sAxisTready, hs]
  have hhdr : headerReady b.regs (b.inputs c) = false := by simp [headerReady, hs]
  have hview := view_lst (i := b.inputs c) alwaysHdr hs
  cases hready : c.mAxisTready with
  | true =>
    have hstate : (next alwaysHdr b.regs (b.inputs c)).state = .hdr := by
      simp [next, nextState, hs, show (b.inputs c).mAxisTready = true from hready]
    refine ⟨[], ?_, ?_, ?_⟩
    · simp [Owes, Bench.step, hstate, ha, hpart]
    · simp [Bench.step, ha, mAxisTvalid, hs, hready, hview]
    · simp [Bench.step, ha, hhdr]
  | false =>
    have hregs : next alwaysHdr b.regs (b.inputs c) = b.regs := next_lst_stall hs hready
    refine ⟨[lastView W b.regs], ?_, ?_, ?_⟩
    · simp [Owes, Bench.step, hregs, hs, ha, hpart]
    · simp [Bench.step, ha, hready]
    · simp [Bench.step, ha, hhdr]

/-- No word is taken, and none leaves. -/
theorem moves_idle (h : Owes alwaysHdr b.regs b.part owed) (hs : b.regs.state ≠ .lst)
    (ha : b.accepts c = false) : Moves alwaysHdr b c owed := by
  have hno : ((b.inputs c).sAxisTvalid && (b.inputs c).mAxisTready) = false := by
    simpa [Bench.accepts, sAxisTready, hs] using ha
  have hhdr : headerReady b.regs (b.inputs c) = false := by
    rw [headerReady, Bool.and_assoc, hno, Bool.and_false]
  have hplain : b.regs.state = .fwd → alwaysHdr = false := by
    intro hf
    exact (h.of_inside (by rw [hf]; decide) hs).1.plain hf
  obtain ⟨hstate, hlatched, hcarries⟩ := next_idle alwaysHdr hs hplain ha
  refine ⟨owed, ?_, ?_, ?_⟩
  · have hpart : (b.step alwaysHdr c).part = b.part := by simp [Bench.step, ha]
    rw [hpart]
    change Owes alwaysHdr (next alwaysHdr b.regs (b.inputs c)) b.part owed
    by_cases hh : b.regs.state = .hdr
    · simpa only [Owes, hstate, hh] using h
    · obtain ⟨hc, q, hq, hbeats, howed⟩ := h.of_inside hh hs
      have htag : (next alwaysHdr b.regs (b.inputs c)).tag = b.regs.tag := by
        simp [next, Regs.tag, hh]
      refine owes_of_inside ?_ (htag ▸ hcarries _ hc) hq hbeats (by rw [htag, hlatched, howed])
      rw [hstate]
      cases hst : b.regs.state with
      | hdr => exact absurd hst hh
      | lst => exact absurd hst hs
      | mid => exact .inl rfl
      | fwd => exact .inr rfl
  · have hstill : (mAxisTvalid b.regs (b.inputs c) && c.mAxisTready) = false := by
      rw [mAxisTvalid, if_pos hs]
      exact hno
    simp [Bench.step, ha, hstill]
  · simp [Bench.step, ha, hhdr]

variable (hH : 0 < H) (hHW : H ≤ W) (h : Owes alwaysHdr b.regs b.part owed)
include hH hHW h

/-- **A packet begins.** -/
theorem moves_first (hs : b.regs.state = .hdr) (ha : b.accepts c = true) :
    Moves alwaysHdr b c owed := by
  obtain ⟨hvalid, hlst, hready⟩ := ready_of_accepts ha
  obtain ⟨hpart, rfl⟩ : b.part = [] ∧ owed = [] := by simpa only [Owes, hs] using h
  obtain ⟨o, ho⟩ : ∃ o, b.first c = some o := by
    rw [← Option.isSome_iff_exists]
    simpa [Bench.inputs, hpart] using hvalid
  obtain ⟨rest, hqueue⟩ : ∃ rest, b.queue = o :: rest := by
    unfold Bench.first at ho
    split at ho
    · exact List.head?_eq_some_iff.mp ho
    · exact absurd ho (by simp)
  have hword : (b.inputs c).sAxis = o.packet.firstBeat := by simp [Bench.inputs, ho]
  have hfront : front alwaysHdr b.regs (b.inputs c) = o.added alwaysHdr := by
    simp [front, addsHeader, Offer.added, Bench.inputs, hs, ho]
  obtain ⟨owed', hpack, howes⟩ := owes_taken hH hHW hlst (fun hne => absurd hs hne) hvalid hready
    o.count_pos (congrArg Beat.tdata hword) (congrArg Beat.tkeep hword) (congrArg Beat.tlast hword)
  have hside : (within b.regs (b.inputs c)).sAxis.side = o.packet.side := by
    simp [within, hs, hword, Packet.firstBeat]
  rw [hfront, hside] at hpack
  have hview : o.views alwaysHdr = (mAxis alwaysHdr b.regs (b.inputs c)).view :: owed' := hpack
  have hhdr : headerReady b.regs (b.inputs c) = true := by
    simp [headerReady, hs, hvalid, show (b.inputs c).mAxisTready = true from hready]
  refine ⟨owed', ?_, ?_, ?_⟩
  · simpa [Bench.step, ha, ho] using howes
  · simp [Bench.step, ha, ho, hqueue, hview, mAxisTvalid, hlst, hvalid, hready]
  · simp [Bench.step, ha, ho, hqueue, hhdr]

/-- **A packet goes on.** -/
theorem moves_inside (hs : b.regs.state ≠ .hdr) (ha : b.accepts c = true) :
    Moves alwaysHdr b c owed := by
  obtain ⟨hvalid, hlst, hready⟩ := ready_of_accepts ha
  obtain ⟨hcarries, q, hq, hpart, rfl⟩ := h.of_inside hs hlst
  have hcons := q.beats_eq_cons
  rw [← hpart] at hcons
  have hne : b.part ≠ [] := hpart ▸ q.beats_ne_nil
  have hfirst : b.first c = none := by simp [Bench.first, hne]
  have hword : (b.inputs c).sAxis = { q.firstBeat with side := c.side } := by
    simp only [Bench.inputs, hfirst]
    rw [hcons]
  obtain ⟨owed', hpack, howes⟩ := owes_taken hH hHW hlst (fun _ => hcarries) hvalid hready
    hq (congrArg Beat.tdata hword) (congrArg Beat.tkeep hword) (congrArg Beat.tlast hword)
  have hside : (within b.regs (b.inputs c)).sAxis.side = b.regs.tag := by simp [within, hs]
  have hfront : front alwaysHdr b.regs (b.inputs c) = latched b.regs := by simp [front, hs]
  rw [hfront, hside] at hpack
  have hhdr : headerReady b.regs (b.inputs c) = false := by simp [headerReady, hs]
  refine ⟨owed', ?_, ?_, ?_⟩
  · simpa [Bench.step, ha, hfirst, hpart] using howes
  · simp [Bench.step, ha, hfirst, hpack, mAxisTvalid, hlst, hvalid, hready]
  · simp [Bench.step, ha, hfirst, hhdr]

/-- **One cycle.**  The words that leave are taken off the front of those owed. -/
theorem Owes.step : Moves alwaysHdr b c owed := by
  by_cases hlst : b.regs.state = .lst
  · exact moves_lst h hlst
  · cases ha : b.accepts c with
    | false => exact moves_idle h hlst ha
    | true =>
      by_cases hhdr : b.regs.state = .hdr
      · exact moves_first hH hHW h hhdr ha
      · exact moves_inside hH hHW h hhdr ha

end Step

/-! ## Whole runs -/

section Progress
variable {alwaysHdr : Bool} {b : Bench W H dw uw} {c : Cycle W H dw uw}
  {owed : List (View W (Tag dw uw))}

/-- The words to come. -/
def Bench.words (b : Bench W H dw uw) : Nat :=
  b.part.length + (b.queue.flatMap fun o => o.packet.beats).length

/-- The steps the module still has to make: every word is taken, and may leave something for
a cycle of its own. -/
def Bench.left (b : Bench W H dw uw) : Nat :=
  2 * b.words + if b.regs.state = .lst then 1 else 0

/-- A word is on offer if there is one, and the receiver is ready. -/
def Feeds (_ : Bench W H dw uw) (c : Cycle W H dw uw) : Prop :=
  c.offer = true ∧ c.mAxisTready = true
deriving Decidable

theorem words_step (alwaysHdr : Bool) (b : Bench W H dw uw) (c : Cycle W H dw uw) :
    b.words = (b.step alwaysHdr c).words + (b.accepts c).toNat := by
  cases ha : b.accepts c with
  | false => simp [Bench.words, Bench.step, ha]
  | true =>
    have hvalid := (ready_of_accepts ha).1
    cases hf : b.first c with
    | some o =>
      unfold Bench.first at hf
      split at hf
      · rename_i hfirst
        have hpart : b.part = [] := List.isEmpty_iff.mp (Bool.and_eq_true_iff.mp hfirst).2
        obtain ⟨rest, hqueue⟩ := List.head?_eq_some_iff.mp hf
        have hfirst' : b.first c = some o := by rw [Bench.first, if_pos hfirst, hf]
        have hlen := o.packet.length_beats
        simp only [Bench.words, Bench.step, ha, hfirst', hpart, hqueue, List.flatMap_cons,
          List.length_append, List.length_tail, List.length_nil, List.tail_cons, if_true,
          Option.isSome_some, Bool.and_self, Bool.toNat_true]
        omega
      · exact absurd hf (by simp)
    | none =>
      have hne : b.part ≠ [] := by
        intro hnil
        simp [Bench.inputs, hf, hnil] at hvalid
      have hpos := List.length_pos_iff.mpr hne
      simp only [Bench.words, Bench.step, ha, hf, List.length_tail, if_true, Option.isSome_none,
        Bool.and_false, Bool.false_eq_true, if_false, Bool.toNat_true]
      omega

/-- **A cycle never sets the module back, and one that feeds it brings it forward.** -/
theorem Owes.left_step (h : Owes alwaysHdr b.regs b.part owed) :
    (b.step alwaysHdr c).left ≤ b.left - if Feeds b c then 1 else 0 := by
  have hwords := words_step alwaysHdr b c
  by_cases hlst : b.regs.state = .lst
  · have ha : b.accepts c = false := by simp [Bench.accepts, sAxisTready, hlst]
    rw [Bench.left, Bench.left, if_pos hlst]
    cases hready : c.mAxisTready with
    | true =>
      have hstate : (b.step alwaysHdr c).regs.state = .hdr := by
        simp [Bench.step, next, nextState, hlst, show (b.inputs c).mAxisTready = true from hready]
      rw [hstate, if_neg (by decide)]
      split <;> omega
    | false =>
      have hno : ¬ Feeds b c := fun hf => Bool.false_ne_true (hready.symm.trans hf.2)
      split <;> omega
  · rw [Bench.left, Bench.left, if_neg hlst]
    cases ha : b.accepts c with
    | true =>
      rw [ha, Bool.toNat_true] at hwords
      split <;> split <;> omega
    | false =>
      have hplain : b.regs.state = .fwd → alwaysHdr = false := by
        intro hf
        exact (h.of_inside (by rw [hf]; decide) hlst).1.plain hf
      have hstate : (b.step alwaysHdr c).regs.state = b.regs.state :=
        (next_idle alwaysHdr hlst hplain ha).1
      rw [hstate, if_neg hlst]
      split
      · -- a ready receiver and no word taken: there is none
        rename_i hf
        have hnone : b.words = 0 := by
          have hvalid : (b.inputs c).sAxisTvalid = false := by
            simpa [Bench.accepts, sAxisTready, hlst, Bench.inputs, hf.2] using ha
          simp only [Bench.inputs, Bench.first, hf.1, Bool.true_and] at hvalid
          cases hpart : b.part with
          | cons w ws => simp [hpart] at hvalid
          | nil =>
            cases hqueue : b.queue with
            | cons o rest => simp [hpart, hqueue] at hvalid
            | nil => simp [Bench.words, hpart, hqueue]
        omega
      · omega

end Progress

section Runs
variable {alwaysHdr : Bool} {offers : List (Offer W H dw uw)} {b : Bench W H dw uw}

/-- The words of a packet behind its header: their bytes, the last mark on the last of them
only, all but the last of them full, and the sideband of the packet's first word. -/
structure IsPrepended (alwaysHdr : Bool) (o : Offer W H dw uw) (vs : List (View W (Tag dw uw))) :
    Prop where
  bytes : vs.flatMap View.bytes =
    (if o.headerValid || alwaysHdr then lanes o.header 0 H else []) ++ o.packet.bytes
  last : Framed View.tlast vs
  full : ∃ n k, vs.map View.tkeep = List.replicate n (BitVec.allOnes W) ++ [lowMask W k]
  side : ∀ v ∈ vs, v.side = o.packet.side
  unchanged : (o.headerValid || alwaysHdr) = false → vs = o.packet.beats.map Beat.view

theorem Offer.isPrepended_views (hW : 0 < W) (o : Offer W H dw uw) (alwaysHdr : Bool) :
    IsPrepended alwaysHdr o (o.views alwaysHdr) where
  bytes := by
    rw [views, expected, flatMap_bytes_pack hW, added]
    cases o.headerValid || alwaysHdr <;> rfl
  last := framed_pack _ _
  full := ⟨_, _, map_tkeep_pack _⟩
  side := side_pack _ _
  unchanged := by
    intro hno
    rw [views, expected, added, hno, if_neg Bool.false_ne_true, headerBytes, List.nil_append,
      pack_bytes hW o.count_pos]

/-- The stream that has left, and the headers that have been taken, are those of the packets
in their order. -/
structure Prepends (alwaysHdr : Bool) (offers : List (Offer W H dw uw)) (b : Bench W H dw uw) :
    Prop where
  out : b.out <+: offers.flatMap (Offer.views · alwaysHdr)
  /-- The packets that have begun are those whose headers have been taken, each once. -/
  headers : b.readied ++ b.queue = offers

/-- What is owed accounts for everything that has not left. -/
def Balanced (alwaysHdr : Bool) (offers : List (Offer W H dw uw)) (b : Bench W H dw uw) : Prop :=
  ∃ owed, Owes alwaysHdr b.regs b.part owed ∧
    b.out ++ owed ++ b.queue.flatMap (Offer.views · alwaysHdr) =
      offers.flatMap (Offer.views · alwaysHdr) ∧
    b.readied ++ b.queue = offers

theorem Bench.Start.balanced (h : b.Start offers) : Balanced alwaysHdr offers b := by
  refine ⟨[], ?_, ?_, ?_⟩
  · simp [Owes, h.state, h.part]
  · rw [h.out, h.queue]
    rfl
  · rw [h.readied, h.queue]
    rfl

theorem Balanced.step (hH : 0 < H) (hHW : H ≤ W)
    (h : Balanced alwaysHdr offers b) (c : Cycle W H dw uw) :
    Balanced alwaysHdr offers (b.step alwaysHdr c) := by
  obtain ⟨owed, howes, hout, hheaders⟩ := h
  obtain ⟨owed', howes', hout', hheaders'⟩ := howes.step (c := c) hH hHW
  exact ⟨owed', howes', hout'.trans hout, hheaders'.trans hheaders⟩

theorem Balanced.prepends (h : Balanced alwaysHdr offers b) : Prepends alwaysHdr offers b := by
  obtain ⟨owed, -, hout, hheaders⟩ := h
  rw [List.append_assoc] at hout
  exact ⟨⟨_, hout⟩, hheaders⟩

/-- With no step left to make, everything has left. -/
theorem Balanced.out_eq (h : Balanced alwaysHdr offers b)
    (hleft : b.left = 0) : b.out = offers.flatMap (Offer.views · alwaysHdr) := by
  obtain ⟨owed, howes, hout, -⟩ := h
  have hwords : b.words = 0 := by
    unfold Bench.left at hleft
    omega
  have hlst : b.regs.state ≠ .lst := by
    intro hs
    simp [Bench.left, hs] at hleft
  have hpart : b.part = [] := List.length_eq_zero_iff.mp (Nat.add_eq_zero_iff.mp hwords).1
  have hqueue : b.queue = [] := by
    cases hq : b.queue with
    | nil => rfl
    | cons o rest =>
      have hlen := o.packet.length_beats
      have hzero := (Nat.add_eq_zero_iff.mp hwords).2
      rw [hq, List.flatMap_cons, List.length_append] at hzero
      omega
  -- inside a packet there are words to come
  have hhdr : b.regs.state = .hdr := by
    by_contra hne
    obtain ⟨-, q, -, hbeats, -⟩ := howes.of_inside hne hlst
    exact q.beats_ne_nil (hbeats.symm.trans hpart)
  obtain ⟨-, rfl⟩ : b.part = [] ∧ owed = [] := by simpa only [Owes, hhdr] using howes
  rw [← hout, hqueue]
  simp

/-- **Headers are put in front of packets exactly.**  Whatever the packets, the offers and
the receiver, what has left is a beginning of the packets behind their headers, and the
header of every packet that has begun has been taken once.  In twice as many cycles with a
word on offer and a ready receiver as there are words to come, and one more, everything
leaves. -/
theorem prepends_exactly (hH : 0 < H) (hHW : H ≤ W) {b : Bench W H dw uw}
    (hs : b.Start offers) (cycles : List (Cycle W H dw uw)) :
    Prepends alwaysHdr offers (run (Bench.step alwaysHdr) b cycles) ∧
      (∀ o ∈ offers, IsPrepended alwaysHdr o (o.views alwaysHdr)) ∧
      ∀ more, 2 * (run (Bench.step alwaysHdr) b cycles).words + 1 ≤
          tally (Bench.step alwaysHdr) Feeds (run (Bench.step alwaysHdr) b cycles) more →
        (run (Bench.step alwaysHdr) b (cycles ++ more)).out =
          offers.flatMap (Offer.views · alwaysHdr) := by
  have hW : 0 < W := Nat.lt_of_lt_of_le hH hHW
  have hbalanced : Balanced alwaysHdr offers (run (Bench.step alwaysHdr) b cycles) :=
    run_preserves (fun _ c h => h.step hH hHW c) hs.balanced cycles
  simp only [run_append]
  generalize run (Bench.step alwaysHdr) b cycles = e at hbalanced
  refine ⟨hbalanced.prepends, fun o _ => o.isPrepended_views hW alwaysHdr, ?_⟩
  intro more hfed
  have hend : Balanced alwaysHdr offers (run (Bench.step alwaysHdr) e more) :=
    run_preserves (fun _ c h => h.step hH hHW c) hbalanced more
  have hinv : ∀ s c, Balanced alwaysHdr offers s → True →
      Balanced alwaysHdr offers (Bench.step alwaysHdr s c) := fun _ c h _ => h.step hH hHW c
  have hrank := run_exhausts (D := Feeds) (m := Bench.left) hinv
    (by
      rintro s c ⟨owed, howes, -⟩ -
      exact howes.left_step) hbalanced (meets_true _ _ more)
  apply hend.out_eq
  have hle : e.left ≤ 2 * e.words + 1 := by
    unfold Bench.left
    split <;> omega
  omega

end Runs

/-! ## A packet with a header and one without -/

/-- Three bytes with a header of one byte, in words of two. -/
def withHeader : Offer 2 1 1 1 :=
  ⟨⟨[0x0201], 0x0003, 1, Nat.two_pos, (1, 0)⟩, by decide, 0x55, true⟩

def withoutHeader : Offer 2 1 1 1 :=
  ⟨⟨[0x0605], 0x0807, 2, Nat.one_lt_two, (0, 1)⟩, by decide, 0x66, false⟩

def sampleBench : Bench 2 1 1 1 :=
  ⟨⟨.hdr, 0, 0, 0, 0⟩, [], [withHeader, withoutHeader], [], []⟩

/-- A cycle with a word on offer; after the first word the sideband is anything. -/
def feeding (mAxisTready : Bool) : Cycle 2 1 1 1 :=
  ⟨true, ⟨0, 0, false, (0, 0)⟩, (1, 1), 0, true, mAxisTready⟩

theorem prepends_exactly_two :
    (run (Bench.step false) sampleBench
        ([feeding true, feeding false] ++ List.replicate 7 (feeding true))).out =
      [⟨[0x55, 1], 3, false, (1, 0)⟩, ⟨[2, 3], 3, true, (1, 0)⟩,
        ⟨[5, 6], 3, false, (0, 1)⟩, ⟨[7, 8], 3, true, (0, 1)⟩] ∧
    (run (Bench.step false) sampleBench
        ([feeding true, feeding false] ++ List.replicate 7 (feeding true))).out =
      [withHeader, withoutHeader].flatMap (Offer.views · false) := by
  have hs : sampleBench.Start [withHeader, withoutHeader] := ⟨rfl, rfl, rfl, rfl, rfl⟩
  obtain ⟨-, -, hends⟩ := @prepends_exactly _ _ _ _ false _ (by decide) (by decide) _ hs
    [feeding true, feeding false]
  exact ⟨by decide +kernel, hends _ (by decide +kernel)⟩

end Rosebud.HeaderAdder
