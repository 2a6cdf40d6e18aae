import Rosebud.Clocked
import Rosebud.HeaderAdderBlocking

/-! # `header_adder_blocking` over whole streams

Packets come on one side, and headers with their drop marks out of a queue on the other,
each when it likes.  The first word of a packet and the header at the front of the queue are
taken in the same cycle (`Owes.moves`), so that the packets and the headers stay in step,
and every packet is dropped or put out behind its own header (`pairs_headers`).
-/
namespace Rosebud.HeaderAdderBlocking
open Clocked Lanes AxiStream
open HeaderAdder (Tag lastView)

variable {W H dw uw : Nat}

/-! ## The surroundings -/

/-- One cycle of the surroundings: whether a word and a header are offered, and what stands
on the wires if not. -/
structure Cycle (W H dw uw : Nat) where
  offer : Bool
  idle : Beat W Unit
  headerOffer : Bool
  idleHeader : Header H dw uw
  mAxisTready : Bool

/-- The module with the words to come of the packet that is passing, the packets after it,
the headers to come, how many packets have begun and how many headers have been taken, and
what became of the words. -/
structure Bench (W H dw uw : Nat) where
  regs : Regs H dw uw
  part : List (Beat W Unit)
  packets : List (Packet W Unit)
  headers : List (Header H dw uw)
  begun : Nat
  popped : Nat
  out : List (Out W dw uw)

namespace Bench
variable (b : Bench W H dw uw) (c : Cycle W H dw uw)

/-- The words to come. -/
def pending : List (Beat W Unit) := b.part ++ b.packets.flatMap Packet.beats

def axis : Bool × Beat W Unit := bus b.pending c.offer c.idle

def headerBus : Bool × Header H dw uw := bus b.headers c.headerOffer c.idleHeader

def inputs : Inputs W H dw uw where
  sAxis := { (b.axis c).2 with side := (b.headerBus c).2.side }
  sAxisTvalid := (b.axis c).1
  header := (b.headerBus c).2.header
  drop := (b.headerBus c).2.drop
  headerValid := (b.headerBus c).1
  mAxisTready := c.mAxisTready

def accepts : Bool := takesWord b.regs (b.inputs c)

/-- The first word of a packet is taken. -/
def begins : Bool := b.accepts c && b.part.isEmpty

def pops : Bool := takesHeader b.regs (b.inputs c)

def step : Bench W H dw uw where
  regs := next false b.regs (b.inputs c)
  part :=
    if b.accepts c then
      match b.part, b.packets with
      | [], q :: _ => q.beats.tail
      | part, _ => part.tail
    else b.part
  packets := rest b.packets (b.begins c)
  headers := rest b.headers (b.pops c)
  begun := b.begun + (b.begins c).toNat
  popped := b.popped + (b.pops c).toNat
  out := b.out ++ outs b.regs (b.inputs c)

/-- Out of reset, with packets and headers to come. -/
structure Start (packets : List (Packet W Unit)) (headers : List (Header H dw uw)) : Prop where
  state : b.regs.state = .hdr
  part : b.part = []
  packets : b.packets = packets
  headers : b.headers = headers
  begun : b.begun = 0
  popped : b.popped = 0
  out : b.out = []

end Bench

/-! ## One cycle -/

section Step
variable {b : Bench W H dw uw} {c : Cycle W H dw uw} {owed : List (Out W dw uw)}

theorem word_inputs (b : Bench W H dw uw) (c : Cycle W H dw uw) :
    word (b.inputs c) = (b.axis c).2 := rfl

/-- A header that is taken is the first of those to come. -/
theorem headers_of_pops (h : b.pops c = true) :
    ∃ xs, b.headers = offered (b.inputs c) :: xs :=
  bus_of_valid (Bool.and_eq_true_iff.mp h).1

/-- What becomes of the packets to come, with the headers to come. -/
def due (b : Bench W H dw uw) : List (Out W dw uw) :=
  (List.zipWith expected b.headers b.packets).flatten

/-- What a cycle does to the words owed and to the packets and headers to come. -/
structure Moves (b : Bench W H dw uw) (c : Cycle W H dw uw) (owed : List (Out W dw uw)) :
    Prop where
  together : b.begins c = b.pops c
  out : ∃ owed', Owes (b.step c).regs (b.step c).part owed' ∧
    (b.step c).out ++ owed' ++ due (b.step c) = b.out ++ owed ++ due b

variable (hH : 0 < H) (hHW : H ≤ W) (h : Owes b.regs b.part owed)
include hH hHW h

/-- **Between packets.** -/
theorem moves_outside (hs : b.regs.state = .hdr) : Moves b c owed := by
  obtain ⟨hpart, rfl⟩ : b.part = [] ∧ owed = [] := by simpa only [Owes, hs] using h
  cases hpops : b.pops c with
  | false =>
    obtain ⟨hword, houts, hstate⟩ := waits hs hpops
    have hacc : b.accepts c = false := hword
    have hbegins : b.begins c = false := by rw [Bench.begins, hacc, Bool.false_and]
    refine ⟨hbegins.trans hpops.symm, [], ?_, ?_⟩
    · simp [Owes, Bench.step, hstate, hacc, hpart]
    · simp [Bench.step, due, houts, hbegins, hpops]
  | true =>
    -- the word on offer is the first of the next packet
    obtain ⟨xs, hheaders⟩ := headers_of_pops hpops
    have hvalid : (b.axis c).1 = true := by
      have hready := (Bool.and_eq_true_iff.mp hpops).2
      exact (Bool.and_eq_true_iff.mp (Bool.and_eq_true_iff.mp hready).1).2
    obtain ⟨q, qs, hq⟩ : ∃ q qs, b.packets = q :: qs := by
      cases hp : b.packets with
      | nil => simp [Bench.axis, Bench.pending, hpart, hp] at hvalid
      | cons q qs => exact ⟨q, qs, rfl⟩
    have hpending : b.pending = q.firstBeat :: (q.beats.tail ++ qs.flatMap Packet.beats) := by
      rw [Bench.pending, hpart, hq, List.flatMap_cons, q.beats_eq_cons]
      rfl
    have hfirst : word (b.inputs c) = q.firstBeat := by
      obtain ⟨ws, hp⟩ := bus_of_valid hvalid
      exact (List.cons.inj (hp.symm.trans hpending)).1
    obtain ⟨hword, owed', hexpected, howes⟩ := HeaderAdderBlocking.begins hH hHW hs hpops hfirst
    have hacc : b.accepts c = true := hword
    have hbegins : b.begins c = true := by rw [Bench.begins, hacc, hpart]; rfl
    refine ⟨hbegins.trans hpops.symm, owed', ?_, ?_⟩
    · simpa [Bench.step, hacc, hpart, hq] using howes
    · have hdue : due b = outs b.regs (b.inputs c) ++ owed' ++ due (b.step c) := by
        rw [← hexpected, due, due, hheaders, hq]
        simp [Bench.step, hbegins, hpops, hq, hheaders]
      rw [hdue]
      simp [Bench.step]

/-- **Inside a packet.** -/
theorem moves_inside (hs : b.regs.state ≠ .hdr) : Moves b c owed := by
  have hword : (b.inputs c).sAxisTvalid = true → b.part ≠ [] →
      b.part = word (b.inputs c) :: b.part.tail := by
    intro hvalid hne
    obtain ⟨w, ws, hpart⟩ := List.exists_cons_of_ne_nil hne
    obtain ⟨xs, hp⟩ := bus_of_valid hvalid
    rw [← Bench.axis, Bench.pending, hpart] at hp
    rw [hpart, word_inputs, ← (List.cons.inj hp).1]
    rfl
  obtain ⟨hpops, owed', howed, howes⟩ := h.inside hH hHW hs hword
  have hne : b.accepts c = true → b.part ≠ [] := fun hacc =>
    h.part_ne_nil hs (ne_lst_of_takesWord hacc)
  have hbegins : b.begins c = false := by
    cases hacc : b.accepts c with
    | false => rw [Bench.begins, hacc, Bool.false_and]
    | true => rw [Bench.begins, List.isEmpty_eq_false_iff.mpr (hne hacc), Bool.and_false]
  have hpops' : b.pops c = false := hpops
  have hpart : (b.step c).part = if takesWord b.regs (b.inputs c) then b.part.tail else b.part := by
    change (if b.accepts c then _ else _) = if b.accepts c then _ else _
    cases hacc : b.accepts c with
    | false => rfl
    | true =>
      obtain ⟨w, ws, hw⟩ := List.exists_cons_of_ne_nil (hne hacc)
      rw [hw]
  refine ⟨hbegins.trans hpops'.symm, owed', hpart ▸ howes, ?_⟩
  rw [howed]
  simp [Bench.step, due, hbegins, hpops']

theorem Owes.moves : Moves b c owed := by
  by_cases hs : b.regs.state = .hdr
  · exact moves_outside hH hHW h hs
  · exact moves_inside hH hHW h hs

end Step

/-! ## Whole runs -/

section Progress
variable {b : Bench W H dw uw} {c : Cycle W H dw uw} {owed : List (Out W dw uw)}

/-- The words to come of the packets that have a header. -/
def Bench.words (b : Bench W H dw uw) : Nat :=
  b.part.length + ((b.packets.take b.headers.length).flatMap Packet.beats).length

/-- The steps the module still has to make: every word is taken, and may leave something for
a cycle of its own. -/
def Bench.left (b : Bench W H dw uw) : Nat :=
  2 * b.words + if b.regs.state = .lst then 1 else 0

/-- A word and a header are on offer if there are any, and the receiver is ready. -/
def Feeds (_ : Bench W H dw uw) (c : Cycle W H dw uw) : Prop :=
  c.offer = true ∧ c.headerOffer = true ∧ c.mAxisTready = true
deriving Decidable

theorem words_step (hm : Moves b c owed) :
    b.words = (b.step c).words + (b.accepts c).toNat := by
  have htogether := hm.together
  cases hacc : b.accepts c with
  | false =>
    have hbegins : b.begins c = false := by rw [Bench.begins, hacc, Bool.false_and]
    simp [Bench.words, Bench.step, hacc, hbegins, ← htogether]
  | true =>
    cases hpart : b.part with
    | cons w ws =>
      have hbegins : b.begins c = false := by simp [Bench.begins, hpart]
      simp only [Bench.words, Bench.step, hacc, hpart, hbegins, ← htogether, rest_false, if_true,
        List.tail_cons, List.length_cons, Bool.toNat_true]
      omega
    | nil =>
      have hbegins : b.begins c = true := by simp [Bench.begins, hpart, hacc]
      rw [hbegins] at htogether
      obtain ⟨xs, hheaders⟩ := headers_of_pops htogether.symm
      cases hq : b.packets with
      | nil =>
        have hvalid : (b.axis c).1 = true := (Bool.and_eq_true_iff.mp hacc).1
        simp [Bench.axis, Bench.pending, hpart, hq] at hvalid
      | cons q qs =>
        have hlen := q.length_beats
        simp only [Bench.words, Bench.step, hacc, hpart, hbegins, ← htogether, hheaders, hq,
          rest_true, if_true, List.tail_cons, List.length_cons, List.take_succ_cons,
          List.flatMap_cons, List.length_append, List.length_tail, List.length_nil,
          Bool.toNat_true]
        omega

/-- In `LST` nothing is taken, and the module leaves it if the receiver is ready. -/
theorem lst_step (hs : b.regs.state = .lst) : b.accepts c = false ∧
    (c.mAxisTready = true → (b.step c).regs.state = .hdr) := by
  constructor
  · simp [Bench.accepts, takesWord, sAxisTready, hs]
  · intro hready
    have hready' : (b.inputs c).mAxisTready = true := hready
    simp [Bench.step, next, nextState, hs, hready']

/-- Only a word that is taken can leave something to send. -/
theorem lst_of_not_accepts (hs : b.regs.state ≠ .lst) (hacc : b.accepts c = false) :
    (b.step c).regs.state ≠ .lst := by
  have hno : takesWord b.regs (b.inputs c) = false := hacc
  change nextState false b.regs (b.inputs c) ≠ .lst
  cases hst : b.regs.state with
  | lst => exact absurd hst hs
  | drp =>
    simp only [nextState, hst]
    split <;> decide
  | mid =>
    have hthree : ((b.inputs c).sAxisTvalid && (b.inputs c).sAxis.tlast &&
        (b.inputs c).mAxisTready) = false := by
      have hno' : ((b.inputs c).sAxisTvalid && (b.inputs c).mAxisTready) = false := by
        simpa [takesWord, sAxisTready, hst] using hno
      rw [Bool.and_right_comm, hno', Bool.false_and]
    simp [nextState, hst, hthree]
  | hdr =>
    have hpops : takesHeader b.regs (b.inputs c) = false := by
      rw [← hno]
      cases hv : (b.inputs c).headerValid <;> cases hsv : (b.inputs c).sAxisTvalid <;>
        simp [takesWord, takesHeader, headerReady, sAxisTready, hasHeader, hst, hv, hsv]
    have hstate : nextState false b.regs (b.inputs c) = .hdr := (waits hst hpops).2.2
    rw [hstate]
    decide

/-- No word is taken though all are ready: there is none, or none that has a header. -/
theorem words_of_feeds (h : Owes b.regs b.part owed) (hs : b.regs.state ≠ .lst)
    (hf : Feeds b c) (hacc : b.accepts c = false) : b.words = 0 := by
  obtain ⟨hoffer, hheader, hready⟩ := hf
  have hready' : (b.inputs c).mAxisTready = true := hready
  cases hpart : b.part with
  | cons w ws =>
    have hvalid : (b.inputs c).sAxisTvalid = true := by
      simp [Bench.inputs, Bench.axis, Bench.pending, hpart, hoffer]
    have hst : b.regs.state = .mid ∨ b.regs.state = .drp := by
      cases hst : b.regs.state with
      | hdr => simp [Owes, hst, hpart] at h
      | lst => exact absurd hst hs
      | mid => exact .inl rfl
      | drp => exact .inr rfl
    rcases hst with hst | hst <;>
      simp [Bench.accepts, takesWord, sAxisTready, hst, hvalid, hready'] at hacc
  | nil =>
    cases hq : b.packets with
    | nil => simp [Bench.words, hpart, hq]
    | cons q qs =>
      cases hh : b.headers with
      | nil => simp [Bench.words, hpart, hh]
      | cons x xs =>
        obtain ⟨w, ws, hw⟩ := List.exists_cons_of_ne_nil q.beats_ne_nil
        have hvalid : (b.inputs c).sAxisTvalid = true := by
          simp [Bench.inputs, Bench.axis, Bench.pending, hpart, hq, hoffer, hw]
        have hhv : (b.inputs c).headerValid = true := by
          simp [Bench.inputs, Bench.headerBus, hh, hheader]
        have hst : b.regs.state = .hdr := by
          by_contra hne
          exact h.part_ne_nil hne hs hpart
        simp [Bench.accepts, takesWord, sAxisTready, hasHeader, hst, hvalid, hhv, hready'] at hacc

/-- **A cycle never sets the module back, and one that feeds it brings it forward.** -/
theorem Owes.left_step (hm : Moves b c owed) (h : Owes b.regs b.part owed) :
    (b.step c).left ≤ b.left - if Feeds b c then 1 else 0 := by
  have hwords := words_step hm
  by_cases hlst : b.regs.state = .lst
  · obtain ⟨hacc, hstate⟩ := lst_step (c := c) hlst
    rw [Bench.left, Bench.left, if_pos hlst]
    by_cases hf : Feeds b c
    · rw [hstate hf.2.2, if_pos hf, if_neg (by decide)]
      omega
    · split <;> omega
  · rw [Bench.left, Bench.left, if_neg hlst]
    cases hacc : b.accepts c with
    | true =>
      rw [hacc, Bool.toNat_true] at hwords
      split <;> split <;> omega
    | false =>
      have hstate : (b.step c).regs.state ≠ .lst := lst_of_not_accepts hlst hacc
      rw [if_neg hstate]
      split
      · rename_i hf
        have hnone := words_of_feeds h hlst hf hacc
        omega
      · omega

end Progress

section Runs
variable {packets : List (Packet W Unit)} {headers : List (Header H dw uw)}
  {b : Bench W H dw uw}

/-- What becomes of a packet: with the drop mark all its words are taken and none leaves;
without it the words that leave are one packet with the header's bytes in front, and carry
the sideband that came with the header. -/
structure Paired (h : Header H dw uw) (q : Packet W Unit) (out : List (Out W dw uw)) : Prop where
  dropped : h.drop = true → out = q.beats.map .dropped
  passed : h.drop = false → ∃ vs : List (View W (Tag dw uw)), out = vs.map .word ∧
    vs.flatMap View.bytes = lanes h.header 0 H ++ q.bytes ∧ Framed View.tlast vs ∧
    (∃ n k, vs.map View.tkeep = List.replicate n (BitVec.allOnes W) ++ [lowMask W k]) ∧
    ∀ v ∈ vs, v.side = h.side

theorem paired_expected (hW : 0 < W) (h : Header H dw uw) (q : Packet W Unit) :
    Paired h q (expected h q) where
  dropped := fun hd => if_pos hd
  passed := by
    intro hd
    refine ⟨_, if_neg (by simp [hd]), flatMap_bytes_pack hW _, framed_pack _ _,
      ⟨_, _, map_tkeep_pack _⟩, side_pack _ _⟩

/-- The packets and the headers are in step, and what has become of the packets is what
should have. -/
structure Pairs (packets : List (Packet W Unit)) (headers : List (Header H dw uw))
    (b : Bench W H dw uw) : Prop where
  out : b.out <+: (List.zipWith expected headers packets).flatten
  packets : b.packets = packets.drop b.begun
  headers : b.headers = headers.drop b.popped
  inStep : b.begun = b.popped
  /-- A packet begins in the cycle in which its header is taken. -/
  together : ∀ c, b.begins c = b.pops c

/-- What is owed accounts for everything that has not been put out. -/
def Balanced (packets : List (Packet W Unit)) (headers : List (Header H dw uw))
    (b : Bench W H dw uw) : Prop :=
  (∃ owed, Owes b.regs b.part owed ∧
    b.out ++ owed ++ due b = (List.zipWith expected headers packets).flatten) ∧
  b.packets = packets.drop b.begun ∧ b.headers = headers.drop b.popped ∧ b.begun = b.popped

theorem Bench.Start.balanced (h : b.Start packets headers) : Balanced packets headers b := by
  refine ⟨⟨[], ?_, ?_⟩, ?_, ?_, ?_⟩
  · simp [Owes, h.state, h.part]
  · rw [h.out, due, h.packets, h.headers]
    rfl
  · rw [h.packets, h.begun]
    rfl
  · rw [h.headers, h.popped]
    rfl
  · rw [h.begun, h.popped]

theorem drop_rest {α : Type} {l l' : List α} {n : Nat} (h : l = l'.drop n) (t : Bool) :
    rest l t = l'.drop (n + t.toNat) := by
  cases t with
  | false => exact h
  | true => rw [rest_true, h, List.tail_drop, Bool.toNat_true]

theorem Balanced.step (hH : 0 < H) (hHW : H ≤ W)
    (h : Balanced packets headers b) (c : Cycle W H dw uw) :
    Balanced packets headers (b.step c) := by
  obtain ⟨⟨owed, howes, hout⟩, hpackets, hheaders, hstep⟩ := h
  obtain ⟨htogether, owed', howes', hout'⟩ := howes.moves (c := c) hH hHW
  refine ⟨⟨owed', howes', hout'.trans hout⟩, drop_rest hpackets _, drop_rest hheaders _, ?_⟩
  change b.begun + (b.begins c).toNat = b.popped + (b.pops c).toNat
  rw [hstep, htogether]

theorem Balanced.pairs (hH : 0 < H) (hHW : H ≤ W)
    (h : Balanced packets headers b) : Pairs packets headers b := by
  obtain ⟨⟨owed, howes, hout⟩, hpackets, hheaders, hstep⟩ := h
  rw [List.append_assoc] at hout
  exact ⟨⟨_, hout⟩, hpackets, hheaders, hstep, fun c => (howes.moves hH hHW).together⟩

/-- With no step left to make, everything has been put out. -/
theorem Balanced.out_eq (h : Balanced packets headers b)
    (hleft : b.left = 0) : b.out = (List.zipWith expected headers packets).flatten := by
  obtain ⟨⟨owed, howes, hout⟩, -⟩ := h
  have hwords : b.words = 0 := by
    unfold Bench.left at hleft
    omega
  obtain ⟨hlen, hrest⟩ := Nat.add_eq_zero_iff.mp hwords
  have hpart : b.part = [] := List.length_eq_zero_iff.mp hlen
  have hlst : b.regs.state ≠ .lst := by
    intro hs
    simp [Bench.left, hs] at hleft
  have hhdr : b.regs.state = .hdr := by
    by_contra hne
    exact howes.part_ne_nil hne hlst hpart
  obtain ⟨-, howed⟩ : b.part = [] ∧ owed = [] := by simpa only [Owes, hhdr] using howes
  have hdue : due b = [] := by
    cases hq : b.packets with
    | nil => simp [due, hq]
    | cons q qs =>
      cases hh : b.headers with
      | nil => simp [due, hh]
      | cons x xs =>
        have hbeats := q.length_beats
        rw [hq, hh, List.length_cons, List.take_succ_cons, List.flatMap_cons,
          List.length_append] at hrest
        omega
  rw [← hout, howed, hdue, List.append_nil, List.append_nil]

/-- **Headers and packets are paired one to one.**  Whatever the packets, the headers and
their drop marks, when each of them is offered and when the receiver is ready: the `k`-th
packet takes the `k`-th header, and is dropped or put out behind it as the mark says.  In
twice as many cycles with both on offer and a ready receiver as the packets with a header
have words, and one more, all of them have passed. -/
theorem pairs_headers (hH : 0 < H) (hHW : H ≤ W) {b : Bench W H dw uw}
    (hs : b.Start packets headers) (cycles : List (Cycle W H dw uw)) :
    Pairs packets headers (run Bench.step b cycles) ∧
      (∀ (h : Header H dw uw) (q : Packet W Unit), Paired h q (expected h q)) ∧
      ∀ more, 2 * (run Bench.step b cycles).words + 1 ≤
          tally Bench.step Feeds (run Bench.step b cycles) more →
        (run Bench.step b (cycles ++ more)).out =
          (List.zipWith expected headers packets).flatten := by
  have hW : 0 < W := Nat.lt_of_lt_of_le hH hHW
  have hbalanced : Balanced packets headers (run Bench.step b cycles) :=
    run_preserves (fun _ c h => h.step hH hHW c) hs.balanced cycles
  simp only [run_append]
  generalize run Bench.step b cycles = e at hbalanced
  refine ⟨hbalanced.pairs hH hHW, paired_expected hW, ?_⟩
  intro more hfed
  have hinv : ∀ s c, Balanced packets headers s → True →
      Balanced packets headers (Bench.step s c) := fun _ c h _ => h.step hH hHW c
  have hend : Balanced packets headers (run Bench.step e more) :=
    run_invariant hinv hbalanced (meets_true _ _ more)
  have hrank := run_exhausts (D := Feeds) (m := Bench.left) hinv
    (by
      rintro s c ⟨⟨owed, howes, -⟩, -⟩ -
      exact Owes.left_step (howes.moves hH hHW) howes) hbalanced (meets_true _ _ more)
  apply hend.out_eq
  have hle : e.left ≤ 2 * e.words + 1 := by
    unfold Bench.left
    split <;> omega
  omega

end Runs

/-! ## A packet that is dropped and one that is not -/

def samplePackets : List (Packet 2 Unit) :=
  [⟨[0x0201], 0x0003, 1, by decide, ()⟩, ⟨[0x0605], 0x0807, 2, by decide, ()⟩]

def sampleHeaders : List (Header 1 1 1) := [⟨true, 0x55, (0, 1)⟩, ⟨false, 0x66, (1, 0)⟩]

def sampleBench : Bench 2 1 1 1 :=
  ⟨⟨.hdr, 0, 0, 0, 0⟩, [], samplePackets, sampleHeaders, 0, 0, []⟩

def feeding (offer headerOffer : Bool) : Cycle 2 1 1 1 :=
  ⟨offer, ⟨0, 0, false, ()⟩, headerOffer, ⟨true, 0, (1, 1)⟩, true⟩

theorem pairs_headers_two :
    (run Bench.step sampleBench
        ([feeding true false, feeding false true] ++ List.replicate 9 (feeding true true))).out =
      [.dropped ⟨0x0201, 3, false, ()⟩, .dropped ⟨0x0003, 1, true, ()⟩,
        .word ⟨[0x66, 5], 3, false, (1, 0)⟩, .word ⟨[6, 7], 3, false, (1, 0)⟩,
        .word ⟨[8], 1, true, (1, 0)⟩] ∧
    (run Bench.step sampleBench
        ([feeding true false, feeding false true] ++ List.replicate 9 (feeding true true))).out =
      (List.zipWith expected sampleHeaders samplePackets).flatten := by
  have hs : sampleBench.Start samplePackets sampleHeaders := ⟨rfl, rfl, rfl, rfl, rfl, rfl, rfl⟩
  obtain ⟨-, -, hends⟩ := pairs_headers (by decide) (by decide) hs
    [feeding true false, feeding false true]
  exact ⟨by decide +kernel, hends _ (by decide +kernel)⟩

end Rosebud.HeaderAdderBlocking
