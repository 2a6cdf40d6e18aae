import Rosebud.Clocked
import Rosebud.SmeWrapper

/-! # The frames of `pigasus_sme_wrapper` and the queue of the metadata

`pigasus_sme_wrapper` reads the metadata of a packet off the head of a queue for as long as
it works on the packet, and `port_group` pops the queue when the results of the string
matcher for the packet end, which is some time after the last word has gone to the matcher.
Nothing keeps the next packet from coming before that: it is then framed with the metadata
of the packet before (`next_packet_loses_preamble`).  And if the next packet has a single
word, which comes while the extra cycle of the packet before is sent, it raises the extra
cycle once more, and again (`extra_cycle_repeats`).

If no packet begins before the metadata of those before it have been popped (`Apart`), every
packet becomes one frame, made of its own preamble and payload, the state reported for it is
its own, and its frame ends while the circuit is fed (`frames_of_apart`).

The string matcher is not modelled.  It takes words when it likes, and gives one
end-of-packet result for each frame, in some later cycle; `owed` counts the frames it has
not done this for.
-/
namespace Rosebud.SmeWrapper
open Clocked Lanes AxiStream

/-! ## The circuit within one packet -/

section Lane
variable {r : Regs} {i : Inputs} {p : Pkt} {held : Option Beat} {xs : List Beat} {x : Beat}

/-- The registers hold a word of the stream. -/
structure Holds (r : Regs) (x : Beat) : Prop where
  data : r.sAxisTdataRevR = byteSwap x.tdata
  empty : r.sAxisTemptyR = x.tempty
  first : r.sAxisTfirstR = x.tfirst
  last : r.sAxisTlastR = x.tlast
  lessThan7 : r.emptyLessThan7 = decide (x.tempty < 7)
  minus7 : r.emptyMinus7 = 9 + x.tempty

theorem holds_next (h : takes r i = true) : Holds (next r i) i.sAxis where
  data := by simp [next, h]
  empty := by simp [next, h]
  first := by simp [next, h]
  last := by simp [next, h]
  lessThan7 := by simp [next, h]
  minus7 := by simp [next, h]

theorem Holds.next (hx : Holds r x) (h : takes r i = false) : Holds (next r i) x where
  data := by simp [SmeWrapper.next, h, hx.data]
  empty := by simp [SmeWrapper.next, h, hx.empty]
  first := by simp [SmeWrapper.next, h, hx.first]
  last := by simp [SmeWrapper.next, h, hx.last]
  lessThan7 := by simp [SmeWrapper.next, h, hx.lessThan7]
  minus7 := by simp [SmeWrapper.next, h, hx.minus7]

/-- The words for the matcher that are still to come, with the words `todo` of the packet
held or to come. -/
def owing (p : Pkt) (r : Regs) (todo : List Beat) : List PktWord :=
  (if r.extraCycle then [⟨r.rest7 ++ BitVec.allOnes 72, r.remEmpty, false, true⟩] else []) ++
    frameFrom p.side r.rest7 todo

/-- The word that goes to the matcher. -/
def passed (r : Regs) (i : Inputs) : List PktWord :=
  if inPktValid r && i.inPktReady then [inPkt r i] else []

/-- Where the circuit is in a packet: it holds a word or not, and `xs` are to come. -/
structure Lane (p : Pkt) (r : Regs) (held : Option Beat) (xs : List Beat) : Prop where
  valid : r.sAxisTvalidR = held.isSome
  holds : ∀ x ∈ held, Holds r x
  extra : r.extraCycle = true → held.toList ++ xs = [] ∧ hasPreamble p.side = true
  place : held.toList ++ xs ≠ [] → ∃ before ds, p.body = before ++ ds ∧
    held.toList ++ xs = beatsFrom p.final p.tempty before.isEmpty ds ∧
    ∀ d ∈ before.getLast?, r.rest7 = lowSeven d
  report : r.stateOutValid = true →
    held.toList ++ xs = [] ∧ (lanes r.last7 0 7).reverse = p.lastSeven

/-- What a cycle within a packet does. -/
def Lane.Moves (p : Pkt) (r : Regs) (i : Inputs) (held : Option Beat) (xs : List Beat) : Prop :=
  ∃ held', Lane p (next r i) held' (rest xs (takes r i)) ∧
    passed r i ++ owing p (next r i) (held'.toList ++ rest xs (takes r i)) =
      owing p r (held.toList ++ xs) ∧
    (next r i).stateOutValid.toNat + (if held'.toList ++ rest xs (takes r i) = [] then 0 else 1) =
      if held.toList ++ xs = [] then 0 else 1

/-- The matcher takes nothing: everything stays where it is. -/
theorem Lane.moves_of_not_ready (h : Lane p r held xs) (hr : i.inPktReady = false) :
    Lane.Moves p r i held xs := by
  have htready : sAxisTready r i = false := by simp [sAxisTready, hr]
  have htakes : takes r i = false := by simp [takes, htready]
  have hrest7 : (next r i).rest7 = r.rest7 := by simp [next, hr]
  have hextra : (next r i).extraCycle = r.extraCycle := by simp [next, hr]
  rw [Lane.Moves, htakes]
  refine ⟨held, ⟨?_, ?_, ?_, ?_, ?_⟩, ?_, ?_⟩
  · simp [next, htakes, htready, h.valid]
  · exact fun x hx => (h.holds x hx).next htakes
  · rw [hextra]
    exact h.extra
  · rw [hrest7]
    exact h.place
  · intro hv
    simp [next, htready] at hv
  · simp [passed, owing, hr, next]
  · simp [next, htready]

/-- The extra cycle. -/
theorem Lane.moves_of_extra (h : Lane p r held xs) (hr : i.inPktReady = true)
    (he : r.extraCycle = true) (hside : i.preambleStateIn = p.side) :
    Lane.Moves p r i held xs := by
  obtain ⟨hnil, hp⟩ := h.extra he
  obtain ⟨hheld, hxs⟩ := List.append_eq_nil_iff.mp hnil
  have hnone : held = none := by simpa using hheld
  subst hnone hxs
  have hvalid : r.sAxisTvalidR = false := h.valid
  have htakes : takes r i = false := by simp [takes, sAxisTready, he]
  have hextra : (next r i).extraCycle = false := by simp [next, hvalid, hr]
  rw [Lane.Moves, htakes]
  refine ⟨none, ⟨?_, ?_, ?_, ?_, ?_⟩, ?_, ?_⟩
  · simp [next, htakes, hvalid]
  · simp
  · simp [hextra]
  · simp
  · intro hv
    simp [next, hvalid] at hv
  · simp [passed, owing, inPktValid, inPkt, inPktData, inPktEmpty, inPktSop, inPktEop, he, hr,
      hside, hp, hextra, frameFrom]
  · simp [next, hvalid]

/-- No word is held: one may come. -/
theorem Lane.moves_of_none (h : Lane p r none xs) (he : r.extraCycle = false)
    (hnext : takes r i = true → ∃ xs', xs = i.sAxis :: xs') :
    Lane.Moves p r i none xs := by
  have hvalid : r.sAxisTvalidR = false := h.valid
  have hextra : (next r i).extraCycle = false := by simp [next, hvalid, he]
  have hrest7 : (next r i).rest7 = r.rest7 := by simp [next, hvalid]
  have hstate : (next r i).stateOutValid = false := by simp [next, hvalid]
  have hpassed : passed r i = [] := by simp [passed, inPktValid, hvalid, he]
  have hv' : (next r i).sAxisTvalidR = takes r i := by simp [next, hvalid]
  rw [Lane.Moves, hpassed]
  -- the words to come are the same, held or not
  have hplace := h.place
  rw [← hrest7] at hplace
  have howing : ∀ todo, owing p (next r i) todo = owing p r todo := by
    intro todo
    simp [owing, hextra, he, hrest7]
  cases ht : takes r i with
  | false =>
    rw [ht] at hv'
    exact ⟨none, ⟨hv', by simp, by simp [hextra], hplace, by simp [hstate]⟩, howing _,
      by rw [hstate]; exact Nat.zero_add _⟩
  | true =>
    obtain ⟨xs', rfl⟩ := hnext ht
    rw [ht] at hv'
    refine ⟨some i.sAxis, ⟨hv', ?_, by simp [hextra], hplace, by simp [hstate]⟩, howing _,
      by rw [hstate]; exact Nat.zero_add _⟩
    intro x hx
    rw [← Option.some.inj hx]
    exact holds_next ht

/-- The word on offer is the one the held word should make. -/
theorem Holds.inPkt_eq (h : Holds r x) (he : r.extraCycle = false)
    (hside : i.preambleStateIn = p.side) : inPkt r i = wordFor p.side r.rest7 x := by
  unfold inPkt wordFor inPktData inPktEmpty inPktSop inPktEop
  rw [hside, he, h.data, h.empty, h.first, h.last, h.lessThan7, h.minus7]
  cases hp : hasPreamble p.side <;> cases hf : x.tfirst <;> simp

/-- A held word goes to the matcher. -/
theorem Lane.moves_of_some (h : Lane p r (some x) xs) (hr : i.inPktReady = true)
    (hside : i.preambleStateIn = p.side)
    (hnext : takes r i = true → ∃ xs', xs = i.sAxis :: xs') :
    Lane.Moves p r i (some x) xs := by
  have hx : Holds r x := h.holds x rfl
  have he : r.extraCycle = false := by
    by_contra hne
    have hnil := (h.extra (by simpa using hne)).1
    simp at hnil
  have hvalid : r.sAxisTvalidR = true := h.valid
  have htready : sAxisTready r i = true := by simp [sAxisTready, hr, he]
  have hrest7 : (next r i).rest7 = lowSeven x.tdata := by
    simp [next, hvalid, hr, hx.data, lowSeven]
  have hextra : (next r i).extraCycle =
      (x.tlast && hasPreamble p.side && decide (x.tempty < 7)) := by
    simp [next, hvalid, hr, he, hside, hx.last, hx.lessThan7]
  have hrem : (next r i).remEmpty = 9 + x.tempty := by simp [next, hvalid, hr, hx.minus7]
  have hstate : (next r i).stateOutValid = x.tlast := by
    simp [next, hvalid, htready, hx.last]
  have hlast : x.tlast = true → (next r i).last7 = lastBytes r i := by
    intro hl
    simp [next, hvalid, hx.last, hl]
  have hv' : (next r i).sAxisTvalidR = takes r i := by simp [next, htready]
  have hpassed : passed r i = [wordFor p.side r.rest7 x] := by
    simp [passed, inPktValid, hvalid, hr, hx.inPkt_eq he hside]
  -- what is held after the cycle, with the words to come, is what was to come
  obtain ⟨held', htodo, hholds, hsome⟩ : ∃ held' : Option Beat,
      held'.toList ++ rest xs (takes r i) = xs ∧ (∀ y ∈ held', Holds (next r i) y) ∧
        held'.isSome = takes r i := by
    cases ht : takes r i with
    | false => exact ⟨none, rfl, by simp, rfl⟩
    | true =>
      obtain ⟨xs', rfl⟩ := hnext ht
      refine ⟨some i.sAxis, rfl, ?_, rfl⟩
      intro y hy
      rw [← Option.some.inj hy]
      exact holds_next ht
  obtain ⟨before, ds, hbody, hbeats, hbefore⟩ := h.place (by simp)
  change x :: xs = _ at hbeats
  refine ⟨held', ?_, ?_, ?_⟩
  · rw [← htodo] at hbeats
    refine ⟨hv'.trans hsome.symm, hholds, ?_, ?_, ?_⟩
    · intro hex
      rw [hextra, Bool.and_eq_true_iff, Bool.and_eq_true_iff] at hex
      refine ⟨?_, hex.1.2⟩
      cases ds with
      | nil => exact (List.cons.inj hbeats).2
      | cons d ds =>
        rw [(List.cons.inj hbeats).1] at hex
        simp at hex
    · intro hne
      cases ds with
      | nil => exact absurd (List.cons.inj hbeats).2 hne
      | cons d ds =>
        obtain ⟨hd, htail⟩ := List.cons.inj hbeats
        have hfirst : (before ++ [d]).isEmpty = false := by cases before <;> rfl
        refine ⟨before ++ [d], ds, by rw [hbody, List.append_assoc]; rfl, ?_, ?_⟩
        · rw [htail, hfirst]
        · intro d' hd'
          rw [List.getLast?_concat, Option.mem_some_iff] at hd'
          rw [hrest7, hd, ← hd']
    · intro hv
      rw [hstate] at hv
      cases ds with
      | nil =>
        obtain ⟨hd, htail⟩ := List.cons.inj hbeats
        rw [List.append_nil] at hbody
        refine ⟨htail, ?_⟩
        rw [hlast hv]
        apply lastBytes_eq hside
        · rw [hx.data, hd]
        · rw [hx.empty, hd]
        · rw [hx.first, hd, hbody]
        · intro ds d hds
          exact hbefore d (by rw [← hbody, hds]; simp)
      | cons d ds =>
        rw [(List.cons.inj hbeats).1] at hv
        simp at hv
  · rw [htodo, hpassed]
    simp only [owing, he, hextra, hrest7, hrem, Bool.false_eq_true, if_false, List.nil_append,
      List.singleton_append, Option.toList_some, frameFrom]
    rfl
  · rw [htodo, hstate]
    cases ds with
    | nil =>
      obtain ⟨hd, htail⟩ := List.cons.inj hbeats
      simp [hd, htail]
    | cons d ds =>
      obtain ⟨hd, htail⟩ := List.cons.inj hbeats
      cases ds <;> simp [hd, htail, beatsFrom]

/-- **One cycle within a packet.**  The words passed on are taken off the front of those
still to come. -/
theorem Lane.step (h : Lane p r held xs)
    (hside : owing p r (held.toList ++ xs) ≠ [] → i.preambleStateIn = p.side)
    (hnext : takes r i = true → ∃ xs', xs = i.sAxis :: xs') : Lane.Moves p r i held xs := by
  cases hr : i.inPktReady with
  | false => exact h.moves_of_not_ready hr
  | true =>
    cases he : r.extraCycle with
    | true => exact h.moves_of_extra hr he (hside (by simp [owing, he]))
    | false =>
      cases held with
      | none => exact h.moves_of_none he hnext
      | some x => exact h.moves_of_some hr (hside (by simp [owing, frameFrom])) hnext

/-- The first word of a packet comes. -/
theorem Lane.start (hv : r.sAxisTvalidR = false) (he : r.extraCycle = false)
    (ht : takes r i = true) (hq : p.beats = i.sAxis :: xs) :
    Lane p (next r i) (some i.sAxis) xs ∧ owing p (next r i) (i.sAxis :: xs) = p.frame := by
  have hextra : (next r i).extraCycle = false := by simp [next, hv, he]
  have hv' : (next r i).sAxisTvalidR = true := by simp [next, ht]
  have hstate : (next r i).stateOutValid = false := by simp [next, hv]
  refine ⟨⟨hv', ?_, by simp [hextra], ?_, by simp [hstate]⟩, ?_⟩
  · intro x hx
    rw [← Option.some.inj hx]
    exact holds_next ht
  · intro _
    exact ⟨[], p.body, rfl, hq.symm, by simp⟩
  · rw [owing, hextra, ← hq, Pkt.frame, Pkt.beats]
    exact frameFrom_first _ _ p.body p.tempty

end Lane

/-! ## The circuit, the queue and `port_group` -/

/-- The circuit with the queue of the metadata, the state machine of `port_group`, the frames
the matcher owes a result for, the words and metadata to come, how many packets have begun
and how many metadata have been popped, what went to the matcher and the states reported. -/
structure Bench (aw : Nat) where
  regs : Regs
  pg : PortGroup
  metaFifo : BasicFifo aw (BitVec 64)
  owed : Nat
  pending : List Beat
  metas : List (BitVec 64)
  begun : Nat
  popped : Nat
  sent : List PktWord
  states : List (BitVec 64)

/-- The surroundings in one cycle. -/
structure Cycle where
  offer : Bool
  idle : Beat
  metaOffer : Bool
  metaIdle : BitVec 64
  inPktReady : Bool
  inUsrValid : Bool
  inUsrEop : Bool
  intAlmostFull : Bool

variable {aw : Nat}

namespace Bench
variable (b : Bench aw) (c : Cycle)

def axis : Bool × Beat := bus b.pending c.offer c.idle

def metaBus : Bool × BitVec 64 := bus b.metas c.metaOffer c.metaIdle

def inputs : Inputs where
  sAxisTvalid := (b.axis c).1
  sAxis := (b.axis c).2
  preambleStateIn := b.metaFifo.dout
  inPktReady := c.inPktReady

def fifoInputs : BasicFifo.Inputs (BitVec 64) where
  rst := false
  clear := false
  dinValid := (b.metaBus c).1
  din := (b.metaBus c).2
  doutReady := b.pg.inMetaReady

def accepts : Bool := takes b.regs (b.inputs c)

/-- The first word of a packet is taken. -/
def starts : Bool := b.accepts c && (b.axis c).2.tfirst

/-- The last word of a frame goes to the matcher. -/
def ends : Bool := inPktValid b.regs && c.inPktReady && inPktEop b.regs (b.inputs c)

/-- The end of the results for a frame; there is one for a frame of an earlier cycle only. -/
def inUsrEop : Bool := c.inUsrEop && decide (0 < b.owed)

/-- `port_group` takes the end of the results for a frame. -/
def resolves : Bool := decide (b.pg.state = .rule) && (c.inUsrValid && b.inUsrEop c)

def pops : Bool := b.metaFifo.deque (b.fifoInputs c)

def step : Bench aw where
  regs := next b.regs (b.inputs c)
  pg := b.pg.next b.metaFifo.doutValid c.inUsrValid (b.inUsrEop c) c.intAlmostFull
  metaFifo := b.metaFifo.next (b.fifoInputs c)
  owed := b.owed + (b.ends c).toNat - (b.resolves c).toNat
  pending := rest b.pending (b.accepts c)
  metas := rest b.metas (b.metaFifo.enque (b.fifoInputs c))
  begun := b.begun + (b.starts c).toNat
  popped := b.popped + (b.pops c).toNat
  sent := b.sent ++ passed b.regs (b.inputs c)
  states := b.states ++
    if b.regs.stateOutValid then [preambleStateOut b.regs (b.inputs c)] else []

/-- Out of reset, with packets to come. -/
structure Start (pks : List Pkt) : Prop where
  sAxisTvalidR : b.regs.sAxisTvalidR = false
  extraCycle : b.regs.extraCycle = false
  stateOutValid : b.regs.stateOutValid = false
  pg : b.pg = ⟨.idle, false⟩
  metaFifo : b.metaFifo.Fresh
  owed : b.owed = 0
  pending : b.pending = pks.flatMap Pkt.beats
  metas : b.metas = pks.map fun p => p.side
  begun : b.begun = 0
  popped : b.popped = 0
  sent : b.sent = []
  states : b.states = []

/-- A packet begins when its metadata is in the queue. -/
def Presented : Prop :=
  b.starts c = true → b.begun < b.popped + b.metaFifo.contents.length
deriving Decidable

/-- A packet begins when the metadata of all packets before it have been popped. -/
def Apart : Prop := b.starts c = true → b.popped + (b.pops c).toNat = b.begun
deriving Decidable

/-- The matcher is ready, and the next word is there if the packet under way has one. -/
def Feeds : Prop :=
  c.inPktReady = true ∧ (c.offer = true ∨ ∀ x ∈ b.pending.head?, x.tfirst = true)
deriving Decidable

end Bench

/-- The frames the matcher has got, and the states reported, are those of the packets. -/
structure FramesRight (pks : List Pkt) (b : Bench aw) : Prop where
  frames : ∀ (k : Nat) f, (cut PktWord.eop b.sent).1[k]? = some f →
    ∃ p, pks[k]? = some p ∧ IsFrame p f
  /-- The frame under way has less words than it takes for the packet. -/
  under_way : (cut PktWord.eop b.sent).2 ≠ [] →
    ∃ p, pks[(cut PktWord.eop b.sent).1.length]? = some p ∧
      (cut PktWord.eop b.sent).2.length < (p.frameBytes.length + 15) / 16
  states : ∀ (k : Nat) st, b.states[k]? = some st → ∃ p, pks[k]? = some p ∧ Reports p st
  /-- The state of every packet whose frame has ended has been reported, or is now. -/
  reported : (cut PktWord.eop b.sent).1.length ≤ b.states.length + b.regs.stateOutValid.toNat

/-! ## The words of the packets -/

variable {pks past later : List Pkt} {p : Pkt} {held : Option Beat} {xs : List Beat}
  {b : Bench aw} {c : Cycle} {busy : Bool}

/-- In the middle of a packet, or after it and before the next. -/
structure Within (pks past : List Pkt) (p : Pkt) (later : List Pkt) (held : Option Beat)
    (xs : List Beat) (b : Bench aw) : Prop where
  packets : pks = past ++ p :: later
  begun : b.begun = past.length + 1
  pending : b.pending = xs ++ later.flatMap Pkt.beats
  lane : Lane p b.regs held xs
  sent : b.sent ++ owing p b.regs (held.toList ++ xs) = past.flatMap Pkt.frame ++ p.frame
  left : owing p b.regs (held.toList ++ xs) <:+ p.frame
  nonfirst : ∀ y ∈ xs, y.tfirst = false
  count : b.states.length + b.regs.stateOutValid.toNat +
    (if held.toList ++ xs = [] then 0 else 1) = b.begun
  states : ∀ (k : Nat) st, b.states[k]? = some st → ∃ p, pks[k]? = some p ∧ Reports p st

/-- Before the first packet, or within one; `busy` says that the frame has not ended. -/
inductive Words (pks : List Pkt) (b : Bench aw) : Bool → Prop
  | before (valid : b.regs.sAxisTvalidR = false) (extra : b.regs.extraCycle = false)
      (report : b.regs.stateOutValid = false) (begun : b.begun = 0)
      (pending : b.pending = pks.flatMap Pkt.beats) (sent : b.sent = [])
      (states : b.states = []) : Words pks b false
  | within {past : List Pkt} {p : Pkt} {later : List Pkt} {held : Option Beat} {xs : List Beat}
      (h : Within pks past p later held xs b) :
      Words pks b !(owing p b.regs (held.toList ++ xs)).isEmpty

theorem Pkt.beats_eq_cons (p : Pkt) :
    ∃ y ys, p.beats = y :: ys ∧ y.tfirst = true ∧ ∀ z ∈ ys, z.tfirst = false := by
  have htail : ∀ ds, ∀ z ∈ beatsFrom p.final p.tempty false ds, z.tfirst = false := by
    intro ds
    induction ds with
    | nil => simp [beatsFrom]
    | cons d ds ih =>
      intro z hz
      rcases List.mem_cons.mp hz with rfl | hz
      · rfl
      · exact ih z hz
  cases hb : p.body with
  | nil => exact ⟨_, _, by rw [Pkt.beats, hb]; rfl, rfl, by simp⟩
  | cons d ds => exact ⟨_, _, by rw [Pkt.beats, hb]; rfl, rfl, htail ds⟩

/-- A word is taken off the front of those to come. -/
theorem Bench.pending_of_accepts (h : b.accepts c = true) :
    ∃ ys, b.pending = (b.inputs c).sAxis :: ys := by
  have hvalid : (b.inputs c).sAxisTvalid = true := (Bool.and_eq_true_iff.mp h).1
  exact bus_of_valid hvalid

/-- The first word of the first of some packets. -/
theorem first_of_flatMap {y : Beat} {ys : List Beat} (h : later.flatMap Pkt.beats = y :: ys) :
    ∃ q later' zs, later = q :: later' ∧ q.beats = y :: zs ∧ y.tfirst = true ∧
      (∀ z ∈ zs, z.tfirst = false) ∧ ys = zs ++ later'.flatMap Pkt.beats := by
  cases later with
  | nil => simp at h
  | cons q later' =>
    obtain ⟨y', zs, hq, hfirst, hzs⟩ := q.beats_eq_cons
    rw [List.flatMap_cons, hq, List.cons_append] at h
    obtain ⟨rfl, rfl⟩ := List.cons.inj h
    exact ⟨q, later', zs, rfl, hq, hfirst, hzs, rfl⟩

theorem owing_eq_nil {r : Regs} {todo : List Beat} (h : owing p r todo = []) :
    r.extraCycle = false ∧ todo = [] := by
  obtain ⟨hextra, hframe⟩ := List.append_eq_nil_iff.mp h
  refine ⟨?_, ?_⟩
  · by_contra he
    simp [he] at hextra
  · cases todo with
    | nil => rfl
    | cons x xs => simp [frameFrom] at hframe

theorem Within.packets_eq (h : Within pks past p later held xs b) :
    pks = (past ++ [p]) ++ later := by
  rw [h.packets, List.append_assoc, List.singleton_append]

/-- The word passed on, if there is one, ends the frame exactly if it is the last. -/
theorem Within.ends_eq (h : Within pks past p later held xs b) {ws : List PktWord}
    (hmove : passed b.regs (b.inputs c) ++ ws = owing p b.regs (held.toList ++ xs)) :
    (!ws.isEmpty).toNat + (b.ends c).toNat =
      (!(owing p b.regs (held.toList ++ xs)).isEmpty).toNat := by
  have hready : (b.inputs c).inPktReady = c.inPktReady := rfl
  cases hv : inPktValid b.regs && c.inPktReady with
  | false =>
    have hends : b.ends c = false := by rw [Bench.ends, hv, Bool.false_and]
    rw [passed, hready, hv, if_neg Bool.false_ne_true, List.nil_append] at hmove
    rw [hends, hmove]
    rfl
  | true =>
    have hends : b.ends c = (inPkt b.regs (b.inputs c)).eop := by
      rw [Bench.ends, hv, Bool.true_and]
      rfl
    rw [passed, hready, hv, if_pos rfl, List.singleton_append] at hmove
    have hframed := p.framed_frame.of_suffix h.left (by rw [← hmove]; exact List.cons_ne_nil _ _)
    rw [← hmove] at hframed ⊢
    rw [hends]
    rcases hframed.of_cons with ⟨heop, rfl⟩ | ⟨heop, hrest⟩
    · rw [heop]
      rfl
    · obtain ⟨init, y, rfl, -, -⟩ := hrest
      rw [heop]
      simp

/-- The log of the states after a cycle. -/
theorem Within.states_step (h : Within pks past p later held xs b)
    (hside : b.regs.stateOutValid = true → b.metaFifo.dout = p.side) :
    ∀ (k : Nat) st, (b.step c).states[k]? = some st → ∃ p, pks[k]? = some p ∧ Reports p st := by
  intro k st hst
  change (b.states ++ if b.regs.stateOutValid then _ else _)[k]? = some st at hst
  cases hv : b.regs.stateOutValid with
  | false =>
    rw [hv, if_neg Bool.false_ne_true, List.append_nil] at hst
    exact h.states k st hst
  | true =>
    obtain ⟨htodo, hlast⟩ := h.lane.report hv
    have hcount := h.count
    rw [htodo, if_pos rfl, h.begun, hv] at hcount
    change b.states.length + 1 + 0 = _ at hcount
    rw [hv, if_pos rfl] at hst
    rcases Nat.lt_trichotomy k b.states.length with hlt | rfl | hgt
    · rw [List.getElem?_append_left hlt] at hst
      exact h.states k st hst
    · rw [List.getElem?_append_right (Nat.le_refl _), Nat.sub_self] at hst
      refine ⟨p, ?_, ?_⟩
      · rw [h.packets, show b.states.length = past.length by omega]
        simp
      · rw [← Option.some.inj hst]
        exact reports (hside hv) hlast
    · rw [List.getElem?_eq_none (by simp; omega)] at hst
      exact absurd hst (by simp)

/-- The count of the states reported and under way. -/
theorem Bench.length_states_step (b : Bench aw) (c : Cycle) :
    (b.step c).states.length = b.states.length + b.regs.stateOutValid.toNat := by
  change (b.states ++ if b.regs.stateOutValid then _ else _).length = _
  cases b.regs.stateOutValid <;> simp

/-- **One cycle within a packet.** -/
theorem Within.step (h : Within pks past p later held xs b)
    (hside : owing p b.regs (held.toList ++ xs) ≠ [] ∨ b.regs.stateOutValid = true →
      b.metaFifo.dout = p.side)
    (hnext : b.accepts c = true → ∃ xs', xs = (b.inputs c).sAxis :: xs') :
    b.starts c = false ∧ ∃ held', Within pks past p later held' (rest xs (b.accepts c)) (b.step c) ∧
      passed b.regs (b.inputs c) ++
          owing p (b.step c).regs (held'.toList ++ rest xs (b.accepts c)) =
        owing p b.regs (held.toList ++ xs) := by
  have hstarts : b.starts c = false := by
    cases hacc : b.accepts c with
    | false => rw [Bench.starts, hacc, Bool.false_and]
    | true =>
      obtain ⟨xs', rfl⟩ := hnext hacc
      have hfirst := h.nonfirst _ List.mem_cons_self
      rw [Bench.starts, hacc, Bool.true_and]
      exact hfirst
  refine ⟨hstarts, ?_⟩
  obtain ⟨held', hlane, hmove, hcount⟩ := h.lane.step (fun hne => hside (.inl hne)) hnext
  refine ⟨held', ?_, hmove⟩
  change passed b.regs (b.inputs c) ++
    owing p (b.step c).regs (held'.toList ++ rest xs (b.accepts c)) = _ at hmove
  change (b.step c).regs.stateOutValid.toNat +
    (if held'.toList ++ rest xs (b.accepts c) = [] then 0 else 1) = _ at hcount
  have hbegun : (b.step c).begun = b.begun := by
    change b.begun + (b.starts c).toNat = _
    rw [hstarts]
    rfl
  have hlength := b.length_states_step c
  refine
    { packets := h.packets
      begun := hbegun.trans h.begun
      pending := ?_
      lane := hlane
      sent := ?_
      left := ?_
      nonfirst := ?_
      count := ?_
      states := h.states_step fun hv => hside (.inr hv) }
  · change rest b.pending (b.accepts c) = _
    rw [h.pending]
    cases hacc : b.accepts c with
    | false => rfl
    | true =>
      obtain ⟨xs', rfl⟩ := hnext hacc
      rfl
  · change (b.sent ++ passed b.regs (b.inputs c)) ++ _ = _
    rw [List.append_assoc, hmove, h.sent]
  · refine List.IsSuffix.trans ?_ h.left
    rw [← hmove]
    exact List.suffix_append _ _
  · intro y hy
    apply h.nonfirst
    cases hacc : b.accepts c with
    | false => rwa [hacc] at hy
    | true =>
      rw [hacc] at hy
      exact List.mem_of_mem_tail hy
  · have hbefore := h.count
    omega

/-- Nothing is held and no extra cycle is due. -/
theorem passed_of_still {r : Regs} {i : Inputs} (hv : r.sAxisTvalidR = false)
    (he : r.extraCycle = false) : passed r i = [] := by
  simp [passed, inPktValid, hv, he]

theorem ends_of_still (hv : b.regs.sAxisTvalidR = false) (he : b.regs.extraCycle = false) :
    b.ends c = false := by
  simp [Bench.ends, inPktValid, hv, he]

theorem stateOutValid_of_still (hv : b.regs.sAxisTvalidR = false) :
    (b.step c).regs.stateOutValid = false := by
  simp [Bench.step, next, hv]

/-- **A packet begins.** -/
theorem begin_step (hpks : pks = past ++ later) (hbegun : b.begun = past.length)
    (hpending : b.pending = later.flatMap Pkt.beats) (hsent : b.sent = past.flatMap Pkt.frame)
    (hv : b.regs.sAxisTvalidR = false) (he : b.regs.extraCycle = false)
    (hcount : b.states.length + b.regs.stateOutValid.toNat = b.begun)
    (hstates : ∀ (k : Nat) st, (b.step c).states[k]? = some st →
      ∃ p, pks[k]? = some p ∧ Reports p st)
    (hacc : b.accepts c = true) : b.starts c = true ∧ Words pks (b.step c) true := by
  obtain ⟨ys, hys⟩ := b.pending_of_accepts hacc
  obtain ⟨q, later', xs, rfl, hq, hfirst, hxs, rfl⟩ := first_of_flatMap (hpending.symm.trans hys)
  have hstarts : b.starts c = true := by
    rw [Bench.starts, hacc, Bool.true_and]
    exact hfirst
  obtain ⟨hlane, hframe⟩ := Lane.start (p := q) hv he hacc hq
  change owing q (b.step c).regs ((b.inputs c).sAxis :: xs) = q.frame at hframe
  have hbusy : (!(owing q (b.step c).regs ((b.inputs c).sAxis :: xs)).isEmpty) = true := by
    obtain ⟨init, y, hq, -, -⟩ := q.framed_frame
    rw [hframe, hq]
    simp
  have hbegun' : (b.step c).begun = b.begun + 1 := by
    change b.begun + (b.starts c).toNat = _
    rw [hstarts]
    rfl
  have hlength := b.length_states_step c
  have hwithin : Within pks past q later' (some (b.inputs c).sAxis) xs (b.step c) :=
    { packets := hpks
      begun := by rw [hbegun', hbegun]
      pending := by
        change rest b.pending (b.accepts c) = _
        rw [hys, hacc]
        rfl
      lane := hlane
      sent := by
        change (b.sent ++ passed b.regs (b.inputs c)) ++ owing q (b.step c).regs (_ :: xs) = _
        rw [passed_of_still hv he, List.append_nil, hsent, hframe]
      left := ⟨[], hframe⟩
      nonfirst := hxs
      count := by
        have hword : (some (b.inputs c).sAxis).toList ++ xs ≠ [] := List.cons_ne_nil _ _
        rw [if_neg hword, stateOutValid_of_still hv, hbegun', hlength, hcount, Bool.toNat_false,
          Nat.add_zero]
      states := hstates }
  exact ⟨hstarts, hbusy ▸ .within hwithin⟩

/-- **One cycle.**  Words keep coming out in their order; the frame under way ends with its
last word, and a packet begins only when there is none. -/
theorem Words.step (h : Words pks b busy) (hside : busy = true ∨ b.regs.stateOutValid = true →
      (pks.map fun p => p.side)[b.begun - 1]? = some b.metaFifo.dout)
    (hstart : b.starts c = true → busy = false) :
    ∃ busy', Words pks (b.step c) busy' ∧
      busy'.toNat + (b.ends c).toNat = busy.toNat + (b.starts c).toNat ∧
      ((b.step c).regs.stateOutValid = true → busy = true) := by
  cases h with
  | before valid extra report begun pending sent states =>
    have hstate' := stateOutValid_of_still (c := c) valid
    have hstates : (b.step c).states = [] := by
      change b.states ++ (if b.regs.stateOutValid then _ else _) = []
      rw [states, report]
      rfl
    have hends := ends_of_still (c := c) valid extra
    cases hacc : b.accepts c with
    | true =>
      obtain ⟨hstarts, hwords⟩ := begin_step (List.nil_append pks).symm begun pending sent valid
        extra (by rw [states, report, begun]; rfl) (by simp [hstates]) hacc
      exact ⟨true, hwords, by rw [hends, hstarts]; rfl, by simp [hstate']⟩
    | false =>
      have hstarts : b.starts c = false := by rw [Bench.starts, hacc, Bool.false_and]
      refine ⟨false, .before ?_ ?_ hstate' ?_ ?_ ?_ hstates, by rw [hends, hstarts],
        by simp [hstate']⟩
      · change (b.accepts c || (b.regs.sAxisTvalidR && _)) = false
        rw [hacc, valid]
        rfl
      · simp [Bench.step, next, valid, extra]
      · change b.begun + (b.starts c).toNat = 0
        rw [begun, hstarts]
        rfl
      · change rest b.pending (b.accepts c) = _
        rw [hacc, pending]
        rfl
      · change b.sent ++ passed b.regs (b.inputs c) = []
        rw [sent, passed_of_still valid extra]
        rfl
  | within h =>
    rename_i past p later held xs
    have hdout : owing p b.regs (held.toList ++ xs) ≠ [] ∨ b.regs.stateOutValid = true →
        b.metaFifo.dout = p.side := by
      intro hbusy
      have hhead := hside (by simpa using hbusy)
      rw [h.begun, Nat.add_sub_cancel, h.packets] at hhead
      simpa using hhead.symm
    have hvalid : (b.step c).regs.stateOutValid = true →
        (!(owing p b.regs (held.toList ++ xs)).isEmpty) = true := by
      intro hv
      change (b.regs.sAxisTlastR && b.regs.sAxisTvalidR && _) = true at hv
      have hsome := (Bool.and_eq_true_iff.mp (Bool.and_eq_true_iff.mp hv).1).2
      rw [h.lane.valid] at hsome
      obtain ⟨x, rfl⟩ := Option.isSome_iff_exists.mp hsome
      simp [owing, frameFrom]
    by_cases hnext : b.accepts c = true → ∃ xs', xs = (b.inputs c).sAxis :: xs'
    · obtain ⟨hstarts, held', hwithin, hmove⟩ := h.step hdout hnext
      exact ⟨_, .within hwithin, by rw [h.ends_eq hmove, hstarts]; rfl, hvalid⟩
    · -- the word taken is not one of this packet
      obtain ⟨hacc, hnone⟩ := Classical.not_imp.mp hnext
      obtain ⟨ys, hys⟩ := b.pending_of_accepts hacc
      have hxs : xs = [] := by
        cases xs with
        | nil => rfl
        | cons x xs =>
          rw [h.pending, List.cons_append] at hys
          exact absurd ⟨xs, by rw [(List.cons.inj hys).1]⟩ hnone
      subst hxs
      have hfirst : b.starts c = true := by
        obtain ⟨-, -, -, -, -, hfirst, -⟩ := first_of_flatMap (h.pending.symm.trans hys)
        rw [Bench.starts, hacc, Bool.true_and]
        exact hfirst
      have howing : owing p b.regs (held.toList ++ []) = [] := by simpa using hstart hfirst
      obtain ⟨he, htodo⟩ := owing_eq_nil howing
      have hheld : held = none := by simpa using htodo
      subst hheld
      have hsent := h.sent
      rw [howing, List.append_nil] at hsent
      obtain ⟨-, hwords⟩ := begin_step h.packets_eq (by rw [h.begun]; simp) h.pending
        (by rw [hsent]; simp) h.lane.valid he (by simpa using h.count)
        (h.states_step fun hv => hdout (.inr hv)) hacc
      exact ⟨true, hwords, by rw [ends_of_still h.lane.valid he, hfirst, howing]; rfl, hvalid⟩

/-! ## The metadata at the head of the queue -/

/-- The metadata, and how far each packet has come: of the last packet begun the frame is
under way, or its results are owed, or its metadata is popped now, or has been. -/
structure Queue (pks : List Pkt) (busy : Bool) (b : Bench aw) : Prop where
  fifo : b.metaFifo.Valid
  metas : (pks.map fun p => p.side).drop b.popped = b.metaFifo.contents ++ b.metas
  presented : b.begun ≤ b.popped + b.metaFifo.contents.length
  recent : b.begun ≤ b.popped + 1
  ready : b.pg.inMetaReady = true → b.pg.state = .idle
  counts : b.popped + b.pg.inMetaReady.toNat + b.owed + busy.toNat = b.begun
  reported : b.regs.stateOutValid = true → busy = true ∨ 0 < b.owed

/-- **While the circuit works on a packet, the packet's metadata is at the head.** -/
theorem Queue.head (h : Queue pks busy b) (hb : busy = true ∨ b.regs.stateOutValid = true) :
    (pks.map fun p => p.side)[b.begun - 1]? = some b.metaFifo.dout := by
  have hcounts := h.counts
  have hrecent := h.recent
  have hpresented := h.presented
  have hbegun : b.begun = b.popped + 1 := by
    rcases hb with rfl | hv
    · change _ + 1 = _ at hcounts
      omega
    · rcases h.reported hv with rfl | hpos
      · change _ + 1 = _ at hcounts
        omega
      · omega
  cases hc : b.metaFifo.contents with
  | nil =>
    rw [hc, List.length_nil] at hpresented
    omega
  | cons x xs =>
    have hfirst := congrArg (fun l => l[0]?) h.metas
    simp only [hc, List.getElem?_drop, Nat.add_zero, List.cons_append, List.getElem?_cons_zero]
      at hfirst
    rw [hbegun, Nat.add_sub_cancel, hfirst, BasicFifo.dout_eq hc]

/-- The metadata is there when it is popped. -/
theorem Queue.pops_eq (h : Queue pks busy b) : b.pops c = b.pg.inMetaReady := by
  have hcounts := h.counts
  have hpresented := h.presented
  change (b.metaFifo.doutValid && b.pg.inMetaReady) = _
  cases hr : b.pg.inMetaReady with
  | false => exact Bool.and_false _
  | true =>
    rw [hr] at hcounts
    change _ + 1 + _ + _ = _ at hcounts
    rw [h.fifo.doutValid_eq, Bool.and_true]
    cases hc : b.metaFifo.contents with
    | nil =>
      rw [hc, List.length_nil] at hpresented
      omega
    | cons x xs => rfl

/-- `in_meta_ready` is high for one cycle, after the end of the results for a frame. -/
theorem Queue.inMetaReady_step (h : Queue pks busy b) :
    (b.step c).pg.inMetaReady = b.resolves c := by
  change (b.pg.next _ _ _ _).inMetaReady = _
  unfold PortGroup.next Bench.resolves
  cases hs : b.pg.state with
  | idle => rfl
  | rule =>
    have hlow : b.pg.inMetaReady = false := by
      by_contra hne
      rw [h.ready (by simpa using hne)] at hs
      exact absurd hs (by decide)
    cases hu : c.inUsrValid && b.inUsrEop c with
    | true => rfl
    | false => exact hlow

theorem Queue.state_step (h : Queue pks busy b) (hr : (b.step c).pg.inMetaReady = true) :
    (b.step c).pg.state = .idle := by
  rw [h.inMetaReady_step] at hr
  obtain ⟨hrule, hu⟩ := Bool.and_eq_true_iff.mp hr
  change (b.pg.next _ _ _ _).state = _
  unfold PortGroup.next
  rw [of_decide_eq_true hrule, hu]
  rfl

/-- The metadata to come, after a cycle. -/
theorem Bench.metas_eq (b : Bench aw) (c : Cycle) : b.metas =
    (if b.metaFifo.enque (b.fifoInputs c) then [(b.fifoInputs c).din] else []) ++
      (b.step c).metas := by
  exact taken_append_rest fun he => (Bool.and_eq_true_iff.mp he).1

theorem Queue.metas_step (h : Queue pks busy b) :
    (pks.map fun p => p.side).drop (b.step c).popped =
      (b.step c).metaFifo.contents ++ (b.step c).metas := by
  have hfifo := b.metaFifo.conservation (i := b.fifoInputs c) h.fifo rfl
  have hall := h.metas
  rw [b.metas_eq c, ← List.append_assoc, hfifo, List.append_assoc] at hall
  change (pks.map fun p => p.side).drop (b.popped + (b.metaFifo.deque (b.fifoInputs c)).toNat) =
    (b.metaFifo.next (b.fifoInputs c)).contents ++ _
  cases hd : b.metaFifo.deque (b.fifoInputs c) with
  | false =>
    rw [hd, if_neg Bool.false_ne_true, List.nil_append] at hall
    exact hall
  | true =>
    rw [hd, if_pos rfl, List.singleton_append] at hall
    rw [← List.drop_drop, hall]
    rfl

/-- No packet begins before the one before it is done with. -/
theorem Queue.not_busy (h : Queue pks busy b) (happart : b.Apart c) (hs : b.starts c = true) :
    busy = false ∧ b.popped + b.pg.inMetaReady.toNat = b.begun := by
  have hcounts := h.counts
  have hpopped := happart hs
  rw [h.pops_eq] at hpopped
  refine ⟨?_, hpopped⟩
  cases busy with
  | false => rfl
  | true =>
    change _ + 1 = _ at hcounts
    omega

/-- **One cycle of the queue.** -/
theorem Queue.step (haw : 0 < aw) (h : Queue pks busy b) (hpresented : b.Presented c)
    (happart : b.Apart c) {busy' : Bool}
    (hwords : busy'.toNat + (b.ends c).toNat = busy.toNat + (b.starts c).toNat)
    (hreport : (b.step c).regs.stateOutValid = true → busy = true) :
    Queue pks busy' (b.step c) := by
  have hfifo := congrArg List.length
    (b.metaFifo.conservation (i := b.fifoInputs c) h.fifo rfl)
  have hpops := h.pops_eq (c := c)
  have hcounts := h.counts
  have hbegun : (b.step c).begun = b.begun + (b.starts c).toNat := rfl
  have hpopped : (b.step c).popped = b.popped + b.pg.inMetaReady.toNat := by
    rw [← hpops]
    rfl
  have howed : (b.step c).owed = b.owed + (b.ends c).toNat - (b.resolves c).toNat := rfl
  have hresolves : (b.resolves c).toNat ≤ b.owed := by
    cases hr : b.resolves c with
    | false => exact Nat.zero_le _
    | true =>
      have heop := (Bool.and_eq_true_iff.mp (Bool.and_eq_true_iff.mp hr).2).2
      exact of_decide_eq_true (Bool.and_eq_true_iff.mp heop).2
  have hstarts : b.starts c = true → busy = false ∧
      b.popped + b.pg.inMetaReady.toNat = b.begun := h.not_busy happart
  refine
    { fifo := h.fifo.next haw (b.fifoInputs c)
      metas := h.metas_step
      presented := ?_
      recent := ?_
      ready := h.state_step
      counts := ?_
      reported := ?_ }
  · have hlen : (b.step c).popped + (b.step c).metaFifo.contents.length ≥
        b.popped + b.metaFifo.contents.length := by
      change b.popped + (b.metaFifo.deque (b.fifoInputs c)).toNat +
        (b.metaFifo.next (b.fifoInputs c)).contents.length ≥ _
      rw [List.length_append, List.length_append] at hfifo
      have hdeque : (if b.metaFifo.deque (b.fifoInputs c) then [b.metaFifo.dout] else []).length =
          (b.metaFifo.deque (b.fifoInputs c)).toNat := by
        cases b.metaFifo.deque (b.fifoInputs c) <;> rfl
      omega
    have hbefore := h.presented
    cases hs : b.starts c with
    | false =>
      rw [hs, Bool.toNat_false] at hbegun
      omega
    | true =>
      have hnow := hpresented hs
      rw [hs, Bool.toNat_true] at hbegun
      omega
  · have hbefore := h.recent
    cases hs : b.starts c with
    | false =>
      rw [hs, Bool.toNat_false] at hbegun
      omega
    | true =>
      have hnow := (hstarts hs).2
      rw [hs, Bool.toNat_true] at hbegun
      omega
  · rw [h.inMetaReady_step, hpopped, howed, hbegun]
    omega
  · intro hv
    have hbusy := hreport hv
    cases busy' with
    | true => exact .inl rfl
    | false =>
      right
      rw [hbusy, Bool.toNat_true, Bool.toNat_false] at hwords
      omega

/-! ## Every frame ends -/

section Progress
variable {n : Nat}

/-- The words that are still to go to the matcher for the first `n` packets, and those that
are still to be taken, once the last of these packets has begun. -/
def Bench.left (pks : List Pkt) (n : Nat) (b : Bench aw) : Nat :=
  if n < b.begun then 0
  else
    ((pks.take n).flatMap Pkt.frame).length - b.sent.length +
      (b.pending.length - ((pks.drop n).flatMap Pkt.beats).length)

theorem length_beatsFrom (final : BitVec 128) (tempty : BitVec 4) (first : Bool)
    (ds : List (BitVec 128)) : (beatsFrom final tempty first ds).length = ds.length + 1 := by
  induction ds generalizing first with
  | nil => rfl
  | cons d ds ih => rw [beatsFrom, List.length_cons, ih, List.length_cons]

theorem Within.length_le (h : Within pks past p later held xs b) :
    xs.length ≤ p.beats.length := by
  by_cases hnil : held.toList ++ xs = []
  · rw [(List.append_eq_nil_iff.mp hnil).2]
    exact Nat.zero_le _
  · obtain ⟨before, ds, hbody, hwords, -⟩ := h.lane.place hnil
    have hlen := congrArg List.length hwords
    have hall := congrArg List.length hbody
    rw [List.length_append, length_beatsFrom] at hlen
    rw [List.length_append] at hall
    rw [Pkt.beats, length_beatsFrom]
    omega

/-- What has gone to the matcher and what is to be taken, within a packet. -/
theorem Within.lengths (h : Within pks past p later held xs b) :
    ((pks.take b.begun).flatMap Pkt.frame).length =
        b.sent.length + (owing p b.regs (held.toList ++ xs)).length ∧
      b.pending.length = xs.length + ((pks.drop b.begun).flatMap Pkt.beats).length := by
  have hbegun : b.begun = (past ++ [p]).length := by
    rw [h.begun, List.length_append, List.length_singleton]
  rw [hbegun, h.packets_eq, List.take_left, List.drop_left, List.flatMap_append,
    List.flatMap_singleton, ← h.sent, List.length_append, h.pending, List.length_append]
  exact ⟨rfl, rfl⟩

theorem Within.left_eq (h : Within pks past p later held xs b) :
    b.left pks b.begun = (owing p b.regs (held.toList ++ xs)).length + xs.length := by
  obtain ⟨hsent, hpending⟩ := h.lengths
  rw [Bench.left, if_neg (Nat.lt_irrefl _)]
  omega

/-- While a frame is under way, every cycle that feeds the circuit brings it forward. -/
theorem Within.feeds (h : Within pks past p later held xs b) (hf : b.Feeds c)
    (howing : owing p b.regs (held.toList ++ xs) ≠ []) :
    passed b.regs (b.inputs c) ≠ [] ∨ xs ≠ [] ∧ b.accepts c = true := by
  obtain ⟨hready, hoffer⟩ := hf
  have hready' : (b.inputs c).inPktReady = true := hready
  by_cases hvalid : inPktValid b.regs = true
  · left
    simp [passed, hvalid, hready']
  · -- nothing is held, so the packet has a word to come
    right
    rw [inPktValid, Bool.or_eq_true, not_or] at hvalid
    obtain ⟨hv, he⟩ := hvalid
    have hnone : held = none := by
      have hheld := h.lane.valid
      cases held with
      | none => rfl
      | some x => exact absurd hheld hv
    subst hnone
    cases xs with
    | nil =>
      refine absurd ?_ howing
      simp [owing, he, frameFrom]
    | cons y ys =>
      refine ⟨List.cons_ne_nil y ys, ?_⟩
      have hpending : b.pending = y :: (ys ++ later.flatMap Pkt.beats) := h.pending
      have hfirst := h.nonfirst y List.mem_cons_self
      have hon : c.offer = true := by
        rcases hoffer with hon | hall
        · exact hon
        · rw [hall y (by rw [hpending]; rfl)] at hfirst
          exact absurd hfirst (by decide)
      simp [Bench.accepts, takes, sAxisTready, Bench.inputs, Bench.axis, bus, hon, hpending, he,
        hready]

theorem Bench.length_sent_step (b : Bench aw) (c : Cycle) :
    (b.step c).sent.length = b.sent.length + (passed b.regs (b.inputs c)).length :=
  List.length_append

theorem Bench.length_pending_step (b : Bench aw) (c : Cycle) :
    (b.step c).pending.length = b.pending.length - (b.accepts c).toNat := by
  change (rest b.pending (b.accepts c)).length = _
  cases b.accepts c with
  | false => rfl
  | true => exact List.length_tail

/-- **A cycle never sets a packet back, and one that feeds the circuit brings it forward.** -/
theorem Words.left_step (h : Words pks b busy) (hpos : 0 < n)
    (hn : n ≤ b.begun) : (b.step c).left pks n ≤ b.left pks n - if b.Feeds c then 1 else 0 := by
  have hbegun : (b.step c).begun = b.begun + (b.starts c).toNat := rfl
  have hsent := b.length_sent_step c
  have hpending := b.length_pending_step c
  by_cases hlater : n < (b.step c).begun
  · rw [Bench.left, if_pos hlater]
    exact Nat.zero_le _
  · obtain rfl : n = b.begun := by omega
    cases h with
    | before _ _ _ hzero => omega
    | within h =>
      rename_i past p later held xs
      obtain ⟨hwords, hbeats⟩ := h.lengths
      rw [h.left_eq, Bench.left, if_neg hlater]
      by_cases howing : owing p b.regs (held.toList ++ xs) = []
      · -- all words have gone to the matcher
        have hxs := congrArg List.length (List.append_eq_nil_iff.mp (owing_eq_nil howing).2).2
        have howed := congrArg List.length howing
        rw [List.length_nil] at hxs howed
        omega
      · have hleft := List.length_pos_iff.mpr howing
        split
        · next hf =>
          rcases h.feeds hf howing with hpassed | ⟨hxs, hacc⟩
          · have hone := List.length_pos_iff.mpr hpassed
            omega
          · have hone := List.length_pos_iff.mpr hxs
            rw [hacc, Bool.toNat_true] at hpending
            omega
        · omega

end Progress

/-! ## Whole runs -/

/-- The circuit and the queue together. -/
def Orderly (pks : List Pkt) (b : Bench aw) : Prop :=
  ∃ busy, Words pks b busy ∧ Queue pks busy b

theorem Bench.Start.orderly (h : b.Start pks) : Orderly pks b := by
  refine ⟨false, .before h.sAxisTvalidR h.extraCycle h.stateOutValid h.begun h.pending h.sent
    h.states, ?_⟩
  exact
    { fifo := h.metaFifo.valid
      metas := by rw [h.popped, h.metas, h.metaFifo.contents_eq]; rfl
      presented := by rw [h.begun]; exact Nat.zero_le _
      recent := by rw [h.begun]; exact Nat.zero_le _
      ready := by simp [h.pg]
      counts := by rw [h.popped, h.pg, h.owed, h.begun]; rfl
      reported := by simp [h.stateOutValid] }

theorem Orderly.step (haw : 0 < aw) {c : Cycle} (h : Orderly pks b)
    (hc : b.Presented c ∧ b.Apart c) : Orderly pks (b.step c) := by
  obtain ⟨busy, hwords, hqueue⟩ := h
  obtain ⟨busy', hwords', hends, hreport⟩ :=
    hwords.step hqueue.head fun hs => (hqueue.not_busy hc.2 hs).1
  exact ⟨busy', hwords', hqueue.step haw hc.1 hc.2 hends hreport⟩

/-- The frames of the first packets are frames of those packets. -/
theorem isFrame_of_prefix {l : List Pkt} (h : l <+: pks) {k : Nat} {f : List PktWord}
    (hf : (l.map Pkt.frame)[k]? = some f) : ∃ p, pks[k]? = some p ∧ IsFrame p f := by
  rw [List.getElem?_map] at hf
  obtain ⟨p, hp, rfl⟩ := Option.map_eq_some_iff.mp hf
  obtain ⟨rest, rfl⟩ := h
  have hlt := (List.getElem?_eq_some_iff.mp hp).1
  exact ⟨p, by rw [List.getElem?_append_left hlt, hp], p.isFrame_frame⟩

/-- Frames, and the beginning of one more. -/
theorem cut_frames (l : List Pkt) {ws : List PktWord} (h : ∀ w ∈ ws, w.eop = false) :
    cut PktWord.eop (l.flatMap Pkt.frame ++ ws) = (l.map Pkt.frame, ws) := by
  refine cut_flatten ?_ h
  intro f hf
  obtain ⟨p, -, rfl⟩ := List.mem_map.mp hf
  exact p.framed_frame

/-- The frame of the last packet begun has ended. -/
theorem Within.cut_of_nil (h : Within pks past p later held xs b)
    (howing : owing p b.regs (held.toList ++ xs) = []) :
    cut PktWord.eop b.sent = ((past ++ [p]).map Pkt.frame, []) := by
  have hsent := h.sent
  rw [howing, List.append_nil] at hsent
  have hcut := cut_frames (past ++ [p]) (List.forall_mem_nil fun w : PktWord => w.eop = false)
  rwa [List.append_nil, List.flatMap_append, List.flatMap_singleton, ← hsent] at hcut

/-- The frame of the last packet begun is under way. -/
theorem Within.cut_of_ne_nil (h : Within pks past p later held xs b)
    (howing : owing p b.regs (held.toList ++ xs) ≠ []) :
    ∃ done, done ++ owing p b.regs (held.toList ++ xs) = p.frame ∧
      cut PktWord.eop b.sent = (past.map Pkt.frame, done) := by
  obtain ⟨done, hframe⟩ := h.left
  have hsent := h.sent
  rw [← hframe, ← List.append_assoc] at hsent
  have hunmarked : ∀ w ∈ done, w.eop = false := by
    have hframed := p.framed_frame
    rw [← hframe] at hframed
    exact hframed.unmarked howing
  refine ⟨done, hframe, ?_⟩
  rw [List.append_cancel_right hsent]
  exact cut_frames past hunmarked

/-- What the invariant says of the frames and the states. -/
theorem Words.framesRight (h : Words pks b busy) : FramesRight pks b := by
  cases h with
  | before valid extra report begun pending sent states =>
    exact
      { frames := by simp [sent, cut]
        under_way := by simp [sent, cut]
        states := by simp [states]
        reported := by simp [sent, cut] }
  | within h =>
    rename_i past p later held xs
    have hcount := h.count
    rw [h.begun] at hcount
    by_cases howing : owing p b.regs (held.toList ++ xs) = []
    · have hcut := h.cut_of_nil howing
      have hfront : past ++ [p] <+: pks := ⟨later, h.packets_eq.symm⟩
      rw [(owing_eq_nil howing).2, if_pos rfl] at hcount
      exact
        { frames := fun k f hf => isFrame_of_prefix hfront (by rwa [hcut] at hf)
          under_way := by simp [hcut]
          states := h.states
          reported := by
            rw [hcut, List.length_map, List.length_append, List.length_singleton]
            omega }
    · obtain ⟨done, hframe, hcut⟩ := h.cut_of_ne_nil howing
      have hfront : past <+: pks := ⟨p :: later, h.packets.symm⟩
      exact
        { frames := fun k f hf => isFrame_of_prefix hfront (by rwa [hcut] at hf)
          under_way := by
            intro _
            rw [hcut]
            refine ⟨p, by rw [h.packets, List.length_map]; simp, ?_⟩
            have hlen := congrArg List.length hframe
            rw [List.length_append] at hlen
            have hpos := List.length_pos_iff.mpr howing
            rw [← p.isFrame_frame.length, ← hlen]
            exact Nat.lt_add_of_pos_right hpos
          states := h.states
          reported := by
            rw [hcut, List.length_map]
            split at hcount <;> omega }

/-- With nothing left for the first `n` packets, their frames have ended. -/
theorem Words.ended (h : Words pks b busy) {n : Nat} (hn : n ≤ b.begun)
    (hleft : b.left pks n = 0) : n ≤ (cut PktWord.eop b.sent).1.length := by
  cases h with
  | before _ _ _ hzero => omega
  | within h =>
    rename_i past p later held xs
    have hbegun := h.begun
    by_cases howing : owing p b.regs (held.toList ++ xs) = []
    · rw [h.cut_of_nil howing, List.length_map, List.length_append, List.length_singleton]
      omega
    · obtain ⟨done, -, hcut⟩ := h.cut_of_ne_nil howing
      have hpos := List.length_pos_iff.mpr howing
      rw [hcut, List.length_map]
      -- the last packet begun is not one of the first `n`
      by_contra hlt
      obtain rfl : n = b.begun := by omega
      rw [h.left_eq] at hleft
      omega

/-- What is left of a packet that has begun is no more than its frame and its words. -/
theorem Words.left_le (h : Words pks b busy) {k : Nat} {q : Pkt}
    (hk : k < b.begun) (hq : pks[k]? = some q) :
    b.left pks (k + 1) ≤ q.frame.length + q.beats.length := by
  by_cases hlast : k + 1 < b.begun
  · rw [Bench.left, if_pos hlast]
    exact Nat.zero_le _
  · have hbegun : k + 1 = b.begun := by omega
    cases h with
    | before _ _ _ hzero => omega
    | within h =>
      rename_i past p later held xs
      have hpast : k = past.length := by
        have := h.begun
        omega
      rw [h.packets, hpast, List.getElem?_append_right (Nat.le_refl _), Nat.sub_self,
        List.getElem?_cons_zero] at hq
      obtain rfl := Option.some.inj hq
      rw [hbegun, h.left_eq]
      exact Nat.add_le_add h.left.length_le h.length_le

/-- **Every packet becomes its frame.**  If no packet begins before the metadata of those
before it have been popped, the frames the matcher gets are those of the packets, in their
order, with their own preambles, each with as many words as its bytes need; and the states
reported are those of the packets.  The frame of a packet that has begun ends within as many
cycles that feed the circuit as the frame and the packet have words. -/
theorem frames_of_apart (haw : 0 < aw) (hs : b.Start pks) {cycles : List Cycle}
    (hc : Meets Bench.step (fun b c => b.Presented c ∧ b.Apart c) b cycles) :
    FramesRight pks (run Bench.step b cycles) ∧
      ∀ more, Meets Bench.step (fun b c => b.Presented c ∧ b.Apart c) (run Bench.step b cycles)
          more →
        ∀ k p, k < (run Bench.step b cycles).begun → pks[k]? = some p →
          p.frame.length + p.beats.length ≤
            tally Bench.step Bench.Feeds (run Bench.step b cycles) more →
          k < (cut PktWord.eop (run Bench.step b (cycles ++ more)).sent).1.length := by
  have horderly : Orderly pks (run Bench.step b cycles) :=
    run_invariant (fun _ _ h hc => h.step haw hc) hs.orderly hc
  simp only [run_append]
  generalize run Bench.step b cycles = e at horderly
  obtain ⟨busy, hwords, hqueue⟩ := horderly
  refine ⟨hwords.framesRight, ?_⟩
  intro more hmore k p hk hp hfed
  have hstart : Orderly pks e ∧ k + 1 ≤ e.begun := ⟨⟨busy, hwords, hqueue⟩, hk⟩
  have hinv : ∀ s c, (Orderly pks s ∧ k + 1 ≤ s.begun) → s.Presented c ∧ s.Apart c →
      Orderly pks (s.step c) ∧ k + 1 ≤ (s.step c).begun :=
    fun s c h hc => ⟨h.1.step haw hc, Nat.le_trans h.2 (Nat.le_add_right _ _)⟩
  have hrank := run_exhausts (D := Bench.Feeds) (m := Bench.left pks (k + 1)) hinv
    (by
      rintro s c ⟨⟨_, h, -⟩, hle⟩ -
      exact h.left_step (Nat.succ_pos k) hle) hstart hmore
  obtain ⟨⟨_, hend, -⟩, hbegun⟩ := run_invariant hinv hstart hmore
  have hle := hwords.left_le hk hp
  have hzero : (run Bench.step e more).left pks (k + 1) = 0 := by omega
  exact hend.ended hbegun hzero

/-! ## Two packets in a row -/

/-- A packet of one full word that does not belong to a flow, and one with a preamble. -/
def plainPacket : Pkt := ⟨⟨[], 0x100f0e0d0c0b0a090807060504030201, 16, by decide, 0⟩, by decide⟩

def flowPacket : Pkt :=
  ⟨⟨[], 0x201f1e1d1c1b1a191817161514131211, 16, by decide, 0x1041424344454647⟩, by decide⟩

def afterReset : Bench 4 where
  regs := ⟨0, 0, false, false, false, 0, false, 0, 0, false, 0, false⟩
  pg := ⟨.idle, false⟩
  metaFifo := default
  owed := 0
  pending := [plainPacket, flowPacket].flatMap Pkt.beats
  metas := [plainPacket, flowPacket].map fun p => p.side
  begun := 0
  popped := 0
  sent := []
  states := []

theorem afterReset_start : afterReset.Start [plainPacket, flowPacket] where
  sAxisTvalidR := rfl
  extraCycle := rfl
  stateOutValid := rfl
  pg := rfl
  metaFifo := ⟨rfl, rfl, rfl, rfl, rfl⟩
  owed := rfl
  pending := rfl
  metas := rfl
  begun := rfl
  popped := rfl
  sent := rfl
  states := rfl

/-- A cycle that offers a word or metadata, with a matcher that always takes words and gives
its results at once. -/
def cycle (offer metaOffer : Bool) : Cycle :=
  ⟨offer, ⟨0, 0, false, false⟩, metaOffer, 0, true, true, true, false⟩

/-- The metadata first, then the two words with time for the results after each. -/
def apartCycles : List Cycle :=
  List.replicate 3 (cycle false true) ++
    [cycle true false] ++ List.replicate 5 (cycle false false) ++
    [cycle true false] ++ List.replicate 5 (cycle false false)

/-- The metadata first, then the two words without a pause. -/
def closeCycles : List Cycle :=
  List.replicate 3 (cycle false true) ++ List.replicate 2 (cycle true false) ++
    List.replicate 5 (cycle false false)

theorem frames_of_apart_two :
    let b := run Bench.step afterReset apartCycles
    b.states.length = 2 ∧ FramesRight [plainPacket, flowPacket] b ∧
      1 < (cut PktWord.eop b.sent).1.length := by
  have hall : Meets Bench.step (fun b c => b.Presented c ∧ b.Apart c) afterReset
      apartCycles := by decide +kernel
  -- the second packet has begun after ten cycles
  have hbegun : Meets Bench.step (fun b c => b.Presented c ∧ b.Apart c) afterReset
      (apartCycles.take 10) := by decide +kernel
  obtain ⟨hright, -⟩ := frames_of_apart (by decide) afterReset_start hall
  obtain ⟨-, hends⟩ := frames_of_apart (by decide) afterReset_start hbegun
  exact ⟨by decide +kernel, hright, hends (apartCycles.drop 10) (by decide +kernel) 1 flowPacket
    (by decide +kernel) rfl (by decide +kernel)⟩

/-- **The metadata of the packet before.**  Both metadata are in the queue before the packets
come, but the second packet comes before the first metadata has been popped: its frame has
its payload only. -/
theorem next_packet_loses_preamble :
    let b := run Bench.step afterReset closeCycles
    afterReset.Start [plainPacket, flowPacket] ∧
      Meets Bench.step Bench.Presented afterReset closeCycles ∧
      (cut PktWord.eop b.sent).1.map (List.flatMap PktWord.bytes) =
        [plainPacket.bytes, flowPacket.bytes] ∧
      flowPacket.frameBytes = flowPacket.preambleBytes ++ flowPacket.bytes ∧
      ¬ FramesRight [plainPacket, flowPacket] b := by
  have hbytes : (cut PktWord.eop (run Bench.step afterReset closeCycles).sent).1.map
      (List.flatMap PktWord.bytes) = [plainPacket.bytes, flowPacket.bytes] := by decide +kernel
  refine ⟨afterReset_start, by decide +kernel, hbytes, rfl, ?_⟩
  intro h
  have hsecond := congrArg (fun l => l[1]?) hbytes
  simp only [List.getElem?_map] at hsecond
  obtain ⟨f, hf, hpayload⟩ := Option.map_eq_some_iff.mp hsecond
  obtain ⟨p, hp, hframe⟩ := h.frames 1 f hf
  -- seven bytes are missing from the second frame
  obtain rfl : flowPacket = p := Option.some.inj hp
  exact absurd (hframe.bytes.symm.trans hpayload) (by decide +kernel)

/-! ## The extra cycle that raises itself -/

/-- The extra cycle of a packet, with the single word of the next one in the registers. -/
structure Stuck (r : Regs) : Prop where
  extraCycle : r.extraCycle = true
  valid : r.sAxisTvalidR = true
  last : r.sAxisTlastR = true
  lessThan7 : r.emptyLessThan7 = true

theorem Stuck.next {r : Regs} {i : Inputs} (h : Stuck r)
    (hp : hasPreamble i.preambleStateIn = true) : Stuck (next r i) where
  extraCycle := by
    cases hr : i.inPktReady <;> simp [SmeWrapper.next, h.extraCycle, h.valid, h.last,
      h.lessThan7, hp, hr]
  valid := by simp [SmeWrapper.next, takes, sAxisTready, h.extraCycle, h.valid]
  last := by simp [SmeWrapper.next, takes, sAxisTready, h.extraCycle, h.last]
  lessThan7 := by simp [SmeWrapper.next, takes, sAxisTready, h.extraCycle, h.lessThan7]

/-- **An extra cycle without end.**  While the metadata at the head of the queue is that of a
packet with a preamble, no word is taken any more, and every word the matcher takes ends a
frame. -/
theorem extra_cycle_repeats {r : Regs} (h : Stuck r) {is : List Inputs}
    (hp : ∀ i ∈ is, hasPreamble i.preambleStateIn = true) :
    Stuck (run next r is) ∧
      Meets next (fun r i => takes r i = false ∧ ∀ w ∈ passed r i, w.eop = true) r is := by
  induction is generalizing r with
  | nil => exact ⟨h, trivial⟩
  | cons i is ih =>
    have hi := hp i List.mem_cons_self
    obtain ⟨hrun, hmeets⟩ := ih (h.next hi) fun j hj => hp j (List.mem_cons_of_mem _ hj)
    refine ⟨hrun, ⟨?_, ?_⟩, hmeets⟩
    · simp [takes, sAxisTready, h.extraCycle]
    · intro w hw
      unfold passed at hw
      split at hw
      · rw [List.mem_singleton.mp hw]
        simp [inPkt, inPktEop, h.extraCycle]
      · exact absurd hw List.not_mem_nil

/-- Two packets with preambles without a pause get there. -/
example :
    let b : Bench 4 := { afterReset with
      pending := [flowPacket, flowPacket].flatMap Pkt.beats
      metas := [flowPacket, flowPacket].map fun p => p.side }
    Stuck (run Bench.step b (closeCycles.take 5)).regs :=
  ⟨by decide +kernel, by decide +kernel, by decide +kernel, by decide +kernel⟩

end Rosebud.SmeWrapper
