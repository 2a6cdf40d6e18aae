import Rosebud.AxiStream
import Rosebud.BasicFifo

/-! # `pigasus_sme_wrapper`

The circuit in front of the string matcher.  The words of a packet are byte swapped, and if
the metadata of the packet says so, its words are moved by seven bytes to make room for the
last seven bytes of the flow before it, its preamble.  When the moved last word does not
fit, an extra cycle sends the rest.  For the next packet of the flow the last seven bytes
are saved and reported.

The metadata is not stored with the packet: the circuit reads the head of the queue that
`port_group` pops when the matcher's results for a packet end.

`Pkt.frame` is the frame a packet should become; `Pkt.isFrame_frame` says that its bytes are
the preamble and the payload.  The ports in the metadata, which are for the rules, are left
out.
-/
namespace Rosebud.SmeWrapper
open Lanes AxiStream

/-! ## The circuit -/

/-- A word of the incoming stream. -/
structure Beat where
  tdata : BitVec 128
  tempty : BitVec 4
  tfirst : Bool
  tlast : Bool
deriving DecidableEq

/-- A word for the string matcher: the first byte is the highest, and the `empty` lowest
bytes are not part of it. -/
structure PktWord where
  data : BitVec 128
  empty : BitVec 4
  sop : Bool
  eop : Bool
deriving DecidableEq

structure Regs where
  sAxisTdataRevR : BitVec 128
  sAxisTemptyR : BitVec 4
  sAxisTvalidR : Bool
  sAxisTfirstR : Bool
  sAxisTlastR : Bool
  emptyMinus7 : BitVec 4
  emptyLessThan7 : Bool
  rest7 : BitVec 56
  remEmpty : BitVec 4
  extraCycle : Bool
  last7 : BitVec 56
  stateOutValid : Bool
deriving DecidableEq

structure Inputs where
  sAxisTvalid : Bool
  sAxis : Beat
  preambleStateIn : BitVec 64
  inPktReady : Bool

def preamble (state : BitVec 64) : BitVec 56 := state.extractLsb' 0 56

def isTcp (state : BitVec 64) : Bool := state.getLsbD 56

def hasPreamble (state : BitVec 64) : Bool := state.getLsbD 60

/-- The byte swap of the input data. -/
def byteSwap (tdata : BitVec 128) : BitVec 128 := ofLanes 16 fun i => lane tdata (15 - i)

section Wires
variable (r : Regs) (i : Inputs)

def inPktEop : Bool :=
  r.extraCycle || (r.sAxisTlastR && !(hasPreamble i.preambleStateIn && r.emptyLessThan7))

def inPktValid : Bool := r.sAxisTvalidR || r.extraCycle

def inPktSop : Bool := r.sAxisTfirstR && !r.extraCycle

def inPktEmpty : BitVec 4 :=
  if !hasPreamble i.preambleStateIn then r.sAxisTemptyR
  else if r.extraCycle then r.remEmpty
  else if r.emptyLessThan7 then 0
  else r.emptyMinus7

def sAxisTready : Bool := i.inPktReady && !r.extraCycle

def inPktData : BitVec 128 :=
  if hasPreamble i.preambleStateIn then
    if r.extraCycle then r.rest7 ++ BitVec.allOnes 72
    else if r.sAxisTfirstR then
      preamble i.preambleStateIn ++ r.sAxisTdataRevR.extractLsb' 56 72
    else r.rest7 ++ r.sAxisTdataRevR.extractLsb' 56 72
  else r.sAxisTdataRevR

/-- The word on offer to the matcher. -/
def inPkt : PktWord := ⟨inPktData r i, inPktEmpty r i, inPktSop r, inPktEop r i⟩

/-- The last seven bytes, if this is the last word; fillers are `0xFF`. -/
def lastBytes : BitVec 56 :=
  let before :=
    if r.sAxisTfirstR then
      if hasPreamble i.preambleStateIn then preamble i.preambleStateIn else BitVec.allOnes 56
    else r.rest7
  ((before ++ r.sAxisTdataRevR) >>> (8 * r.sAxisTemptyR.toNat)).setWidth 56

def preambleStateOut : BitVec 64 :=
  i.preambleStateIn.extractLsb' 61 3 ++ BitVec.ofBool (isTcp i.preambleStateIn) ++
    i.preambleStateIn.extractLsb' 57 3 ++ BitVec.ofBool (isTcp i.preambleStateIn) ++ r.last7

/-- A word of the incoming stream is taken. -/
def takes : Bool := i.sAxisTvalid && sAxisTready r i

/-- The registers after the clock edge, outside reset. -/
def next : Regs where
  sAxisTvalidR := takes r i || (r.sAxisTvalidR && !sAxisTready r i)
  sAxisTemptyR := if takes r i then i.sAxis.tempty else r.sAxisTemptyR
  sAxisTfirstR := if takes r i then i.sAxis.tfirst else r.sAxisTfirstR
  sAxisTlastR := if takes r i then i.sAxis.tlast else r.sAxisTlastR
  emptyLessThan7 := if takes r i then decide (i.sAxis.tempty < 7) else r.emptyLessThan7
  emptyMinus7 := if takes r i then 9 + i.sAxis.tempty else r.emptyMinus7
  sAxisTdataRevR := if takes r i then byteSwap i.sAxis.tdata else r.sAxisTdataRevR
  rest7 :=
    if r.sAxisTvalidR && i.inPktReady then r.sAxisTdataRevR.extractLsb' 0 56 else r.rest7
  remEmpty := if r.sAxisTvalidR && i.inPktReady then r.emptyMinus7 else r.remEmpty
  extraCycle :=
    if r.sAxisTvalidR && r.sAxisTlastR && i.inPktReady && hasPreamble i.preambleStateIn &&
        r.emptyLessThan7 then true
    else if r.extraCycle && i.inPktReady then false
    else r.extraCycle
  last7 := if r.sAxisTlastR && r.sAxisTvalidR then lastBytes r i else r.last7
  stateOutValid := r.sAxisTlastR && r.sAxisTvalidR && sAxisTready r i

end Wires

/-! ## The state machine of `port_group` -/

inductive PgState where
  | idle | rule
deriving DecidableEq

structure PortGroup where
  state : PgState
  inMetaReady : Bool
deriving DecidableEq

/-- After the clock edge, outside reset: a packet's rules are taken while its metadata is at
the head of the queue, and with their end it is popped. -/
def PortGroup.next (g : PortGroup) (inMetaValid inUsrValid inUsrEop intAlmostFull : Bool) :
    PortGroup :=
  match g.state with
  | .idle => ⟨if inMetaValid && !g.inMetaReady && !intAlmostFull then .rule else .idle, false⟩
  | .rule => if inUsrValid && inUsrEop then ⟨.idle, true⟩ else g

/-! ## Packets and their frames -/

/-- A packet, with its metadata.  Its last word has at least one byte. -/
structure Pkt extends Packet 16 (BitVec 64) where
  count_pos : 0 < count

/-- A word of the stream of bytes the matcher reads. -/
def PktWord.bytes (w : PktWord) : List (BitVec 8) :=
  (lanes w.data w.empty.toNat (16 - w.empty.toNat)).reverse

/-- The last seven bytes of a word. -/
def lowSeven (d : BitVec 128) : BitVec 56 := (byteSwap d).extractLsb' 0 56

/-- Full words, then the last one. -/
def beatsFrom (final : BitVec 128) (tempty : BitVec 4) :
    Bool → List (BitVec 128) → List Beat
  | first, [] => [⟨final, tempty, first, true⟩]
  | first, d :: ds => ⟨d, 0, first, false⟩ :: beatsFrom final tempty false ds

/-- The word for the matcher that a word of a packet makes, after the seven bytes `prev`. -/
def wordFor (state : BitVec 64) (prev : BitVec 56) (x : Beat) : PktWord where
  data :=
    if hasPreamble state then
      (if x.tfirst then preamble state else prev) ++ (byteSwap x.tdata).extractLsb' 56 72
    else byteSwap x.tdata
  empty :=
    if !hasPreamble state then x.tempty else if x.tempty < 7 then 0 else 9 + x.tempty
  sop := x.tfirst
  eop := x.tlast && !(hasPreamble state && decide (x.tempty < 7))

/-- The extra cycle for the bytes that have been moved out of the last word. -/
def extraFor (state : BitVec 64) (x : Beat) : List PktWord :=
  if x.tlast && hasPreamble state && decide (x.tempty < 7) then
    [⟨lowSeven x.tdata ++ BitVec.allOnes 72, 9 + x.tempty, false, true⟩]
  else []

/-- The words for the matcher that the words of a packet make. -/
def frameFrom (state : BitVec 64) : BitVec 56 → List Beat → List PktWord
  | _, [] => []
  | prev, x :: xs =>
    wordFor state prev x :: (extraFor state x ++ frameFrom state (lowSeven x.tdata) xs)

namespace Pkt
variable (p : Pkt)

def tempty : BitVec 4 := BitVec.ofNat 4 (16 - p.count)

def beats : List Beat := beatsFrom p.final p.tempty true p.body

/-- The frame a packet should become. -/
def frame : List PktWord := frameFrom p.side (preamble p.side) p.beats

def preambleBytes : List (BitVec 8) := (lanes (preamble p.side) 0 7).reverse

/-- The bytes the matcher should see. -/
def frameBytes : List (BitVec 8) :=
  (if hasPreamble p.side then p.preambleBytes else []) ++ p.bytes

/-- The seven bytes to be saved for the next packet of the flow. -/
def lastSeven : List (BitVec 8) :=
  let all := (if hasPreamble p.side then p.preambleBytes else List.replicate 7 0xFF) ++ p.bytes
  all.drop (all.length - 7)

end Pkt

/-- A frame for the matcher is marked at its first and at its last word and nowhere else, and
has the bytes of the packet. -/
structure IsFrame (p : Pkt) (f : List PktWord) : Prop where
  sop : ∃ w ws, f = w :: ws ∧ w.sop = true ∧ ∀ x ∈ ws, x.sop = false
  eop : Framed PktWord.eop f
  bytes : f.flatMap PktWord.bytes = p.frameBytes
  length : f.length = (p.frameBytes.length + 15) / 16

/-- A reported state has the last seven bytes of the packet, and its other bits are those of
the packet's metadata, but that a TCP packet's flow has a preamble from now on. -/
structure Reports (p : Pkt) (state : BitVec 64) : Prop where
  bytes : (lanes state 0 7).reverse = p.lastSeven
  tcp : isTcp state = isTcp p.side
  hasPreamble : hasPreamble state = isTcp p.side
  low : state.extractLsb' 57 3 = p.side.extractLsb' 57 3
  high : state.extractLsb' 61 3 = p.side.extractLsb' 61 3

/-! ## Where the bytes of a word go -/

section Bytes
variable {e : Nat}

/-- A word that is not moved. -/
theorem bytes_byteSwap (d : BitVec 128) (he : e ≤ 16) :
    (lanes (byteSwap d) e (16 - e)).reverse = lanes d 0 (16 - e) := by
  have h := lanes_ofLanes_reverse (W := 16) d (i := e) (k := 16 - e) (by omega)
  rw [show 16 - (e + (16 - e)) = 0 by omega] at h
  exact h

/-- A part of a swapped word. -/
theorem lanes_byteSwap (d : BitVec 128) {i k : Nat} (h : i + k ≤ 16) :
    (lanes (byteSwap d) i k).reverse = lanes d (16 - (i + k)) k :=
  lanes_ofLanes_reverse (W := 16) d h

theorem bytes_lowSeven (d : BitVec 128) (he : e ≤ 7) :
    (lanes (lowSeven d) e (7 - e)).reverse = lanes d 9 (7 - e) := by
  have hlow : lanes (lowSeven d) e (7 - e) = lanes (byteSwap d) e (7 - e) := by
    refine lanes_congr fun l hl => ?_
    have hlane := lane_extractLsb' (m := 7) (byteSwap d) 0 (i := e + l) (by omega)
    rw [Nat.zero_add] at hlane
    exact hlane
  rw [hlow, lanes_byteSwap d (by omega)]
  congr 1
  omega

/-- A word that is moved by seven bytes. -/
theorem bytes_moved (prev : BitVec 56) (d : BitVec 128) (he : e ≤ 9) :
    (lanes (prev ++ (byteSwap d).extractLsb' 56 72) e (16 - e)).reverse =
      (lanes prev 0 7).reverse ++ lanes d 0 (9 - e) := by
  have hsplit : 16 - e = (9 - e) + 7 := by omega
  have hlow : lanes (prev ++ (byteSwap d).extractLsb' 56 72) e (9 - e) =
      lanes (byteSwap d) (7 + e) (9 - e) := by
    refine lanes_congr fun l hl => ?_
    rw [lane_append_low (m := 9) _ _ (by omega)]
    have hlane := lane_extractLsb' (m := 9) (byteSwap d) 7 (i := e + l) (by omega)
    rw [← Nat.add_assoc] at hlane
    exact hlane
  have hhigh : lanes (prev ++ (byteSwap d).extractLsb' 56 72) (e + (9 - e)) 7 =
      lanes prev 0 7 := by
    refine lanes_congr fun l hl => ?_
    rw [lane_append_high (m := 9) _ _ (by omega)]
    congr 1
    omega
  rw [hsplit, lanes_add, List.reverse_append, hlow, hhigh, lanes_byteSwap d (by omega)]
  congr 2
  omega

/-- The extra word. -/
theorem bytes_extra (d : BitVec 128) (he : e ≤ 7) :
    (lanes (lowSeven d ++ BitVec.allOnes 72) (9 + e) (7 - e)).reverse = lanes d 9 (7 - e) := by
  have hhigh : lanes (lowSeven d ++ BitVec.allOnes 72) (9 + e) (7 - e) =
      lanes (lowSeven d) e (7 - e) := by
    refine lanes_congr fun l hl => ?_
    rw [lane_append_high (m := 9) _ _ (by omega)]
    congr 1
    omega
  rw [hhigh, bytes_lowSeven d he]

/-- The last seven bytes of a word and the seven bytes before it. -/
theorem bytes_last (before : BitVec 56) (d : BitVec 128) (he : e ≤ 16) :
    (lanes (((before ++ byteSwap d) >>> (8 * e)).setWidth 56) 0 7).reverse =
      ((lanes before 0 7).reverse ++ lanes d 0 (16 - e)).drop (16 - e) := by
  have hshift : lanes (((before ++ byteSwap d) >>> (8 * e)).setWidth 56) 0 7 =
      lanes (before ++ byteSwap d) e 7 := by
    refine lanes_congr fun l hl => ?_
    rw [lane_setWidth (m := 7) _ (by omega), lane_ushiftRight, Nat.zero_add]
  have hlow : lanes (before ++ byteSwap d) e (16 - e) = lanes (byteSwap d) e (16 - e) :=
    lanes_congr fun l hl => lane_append_low (m := 16) _ _ (by omega)
  have hhigh : lanes (before ++ byteSwap d) (e + (16 - e)) 7 = lanes before 0 7 := by
    refine lanes_congr fun l hl => ?_
    rw [lane_append_high (m := 16) _ _ (by omega)]
    congr 1
    omega
  -- the same lanes, cut after the last word and cut after seven lanes
  have hall : (lanes (before ++ byteSwap d) (e + 7) (16 - e)).reverse ++
      (lanes (before ++ byteSwap d) e 7).reverse =
      (lanes before 0 7).reverse ++ lanes d 0 (16 - e) := by
    rw [← List.reverse_append, ← lanes_add, Nat.add_comm 7, lanes_add, hlow, hhigh,
      List.reverse_append, bytes_byteSwap d he]
  rw [hshift, ← hall, List.drop_left' (by simp)]

end Bytes

/-! ## The frame of a packet -/

section Frame
variable {state : BitVec 64} {prev : BitVec 56} {final : BitVec 128} {count : Nat}

theorem toNat_tempty (hpos : 0 < count) :
    (BitVec.ofNat 4 (16 - count)).toNat = 16 - count := by
  exact Nat.mod_eq_of_lt (by omega)

/-- The empty bytes of the last word, when it is moved and when the rest of it is sent. -/
theorem toNat_nine_add {x : BitVec 4} :
    (9 + x).toNat = if x.toNat < 7 then 9 + x.toNat else x.toNat - 7 := by
  split
  · exact Nat.mod_eq_of_lt (by simp; omega)
  · simp
    omega

/-- The seven bytes before a word. -/
def headBytes (state : BitVec 64) (prev : BitVec 56) (first : Bool) : List (BitVec 8) :=
  if hasPreamble state then (lanes (if first then preamble state else prev) 0 7).reverse else []

theorem lt_seven_iff {x : BitVec 4} : x < 7 ↔ x.toNat < 7 := Iff.rfl

theorem bytes_wordFor (x : Beat) : (wordFor state prev x).bytes =
    headBytes state prev x.tfirst ++
      lanes x.tdata 0
        (if hasPreamble state ∧ x.tempty.toNat < 7 then 9 else 16 - x.tempty.toNat) := by
  unfold PktWord.bytes wordFor headBytes
  cases hp : hasPreamble state with
  | false =>
    exact bytes_byteSwap x.tdata (by omega)
  | true =>
    simp only [Bool.not_true, Bool.false_eq_true, if_false, if_true, true_and]
    by_cases hlt : x.tempty.toNat < 7
    · rw [if_pos (lt_seven_iff.mpr hlt), if_pos hlt]
      exact bytes_moved _ x.tdata (Nat.zero_le 9)
    · rw [if_neg (fun h => hlt (lt_seven_iff.mp h)), if_neg hlt, toNat_nine_add, if_neg hlt,
        bytes_moved _ x.tdata (by omega)]
      congr 2
      omega

theorem bytes_extraFor (x : Beat) : (extraFor state x).flatMap PktWord.bytes =
    if x.tlast ∧ hasPreamble state ∧ x.tempty.toNat < 7 then
      lanes x.tdata 9 (7 - x.tempty.toNat)
    else [] := by
  have hcond : (x.tlast && hasPreamble state && decide (x.tempty < 7)) = true ↔
      x.tlast ∧ hasPreamble state ∧ x.tempty.toNat < 7 := by
    rw [Bool.and_eq_true_iff, Bool.and_eq_true_iff, decide_eq_true_iff, and_assoc, lt_seven_iff]
  unfold extraFor
  by_cases h : x.tlast ∧ hasPreamble state ∧ x.tempty.toNat < 7
  · rw [if_pos (hcond.mpr h), if_pos h, List.flatMap_singleton, PktWord.bytes]
    simp only [toNat_nine_add, if_pos h.2.2]
    rw [show 16 - (9 + x.tempty.toNat) = 7 - x.tempty.toNat by omega]
    exact bytes_extra x.tdata (Nat.le_of_lt h.2.2)
  · rw [if_neg (fun hc => h (hcond.mp hc)), if_neg h]
    rfl

/-- **The frame has the bytes of the packet.** -/
theorem bytes_frameFrom (hpos : 0 < count) (hle : count ≤ 16) (first : Bool)
    (ds : List (BitVec 128)) :
    (frameFrom state prev (beatsFrom final (BitVec.ofNat 4 (16 - count)) first ds)).flatMap
        PktWord.bytes =
      headBytes state prev first ++
        (ds.flatMap (fun d => lanes d 0 16) ++ lanes final 0 count) := by
  induction ds generalizing prev first with
  | nil =>
    have hcount : 16 - (16 - count) = count := by omega
    simp only [beatsFrom, frameFrom, List.append_nil, List.flatMap_cons, List.flatMap_nil,
      List.nil_append, bytes_wordFor, bytes_extraFor, toNat_tempty hpos, hcount, List.append_assoc,
      true_and]
    congr 1
    by_cases h : hasPreamble state ∧ 16 - count < 7
    · rw [if_pos h, if_pos h, show 9 = 0 + 9 from rfl, ← lanes_add]
      congr 1
      omega
    · rw [if_neg h, if_neg h, List.append_nil]
  | cons d ds ih =>
    simp only [beatsFrom, frameFrom, List.flatMap_cons, List.flatMap_append, bytes_wordFor,
      bytes_extraFor, ih, Bool.false_eq_true, false_and, if_false, List.nil_append,
      List.append_assoc]
    congr 1
    unfold headBytes
    cases hp : hasPreamble state with
    | false => simp
    | true =>
      have hrest := bytes_lowSeven d (e := 0) (by decide)
      simp only [Bool.false_eq_true, if_false, if_true, true_and]
      rw [show BitVec.toNat (0 : BitVec 4) = 0 from rfl, if_pos (by decide), hrest,
        ← List.append_assoc, ← lanes_add]

theorem length_frameFrom (first : Bool) (ds : List (BitVec 128)) (tempty : BitVec 4) :
    (frameFrom state prev (beatsFrom final tempty first ds)).length =
      ds.length + 1 + if hasPreamble state ∧ tempty.toNat < 7 then 1 else 0 := by
  induction ds generalizing prev first with
  | nil =>
    have hiff : hasPreamble state = true ∧ tempty < 7 ↔ hasPreamble state ∧ tempty.toNat < 7 :=
      Iff.rfl
    simp only [beatsFrom, frameFrom, extraFor, Bool.true_and, Bool.and_eq_true, decide_eq_true_iff,
      hiff, List.append_nil, List.length_cons, List.length_nil]
    split <;> simp
  | cons d ds ih =>
    simp only [beatsFrom, frameFrom, extraFor, Bool.false_and, Bool.false_eq_true, if_false,
      List.nil_append, List.length_cons, ih]
    omega

/-- Only the last word of the frame ends it. -/
theorem framed_frameFrom (first : Bool) (ds : List (BitVec 128)) (tempty : BitVec 4) :
    Framed PktWord.eop (frameFrom state prev (beatsFrom final tempty first ds)) := by
  induction ds generalizing prev first with
  | nil =>
    simp only [beatsFrom, frameFrom, List.append_nil]
    unfold extraFor
    cases h : hasPreamble state && decide (tempty < 7) with
    | true =>
      simp only [Bool.true_and, h, if_true]
      refine ⟨[_], _, rfl, ?_, rfl⟩
      intro w hw
      rw [List.mem_singleton.mp hw, wordFor, h]
      rfl
    | false =>
      simp only [Bool.true_and, h, Bool.false_eq_true, if_false]
      refine ⟨[], _, rfl, by simp, ?_⟩
      rw [wordFor, h]
      rfl
  | cons d ds ih =>
    exact (ih false).cons (by simp [wordFor])

theorem sop_extraFor (x : Beat) : ∀ w ∈ extraFor state x, w.sop = false := by
  intro w hw
  unfold extraFor at hw
  split at hw
  · rw [List.mem_singleton.mp hw]
  · exact absurd hw List.not_mem_nil

/-- Only the first word of a packet starts a frame. -/
theorem sop_frameFrom (first : Bool) (ds : List (BitVec 128)) (tempty : BitVec 4) :
    ∃ w ws, frameFrom state prev (beatsFrom final tempty first ds) = w :: ws ∧
      w.sop = first ∧ ∀ x ∈ ws, x.sop = false := by
  induction ds generalizing prev first with
  | nil =>
    refine ⟨_, _, rfl, rfl, ?_⟩
    intro x hx
    rw [frameFrom, List.append_nil] at hx
    exact sop_extraFor _ x hx
  | cons d ds ih =>
    refine ⟨_, _, rfl, rfl, ?_⟩
    intro x hx
    obtain ⟨w, ws, heq, hw, hws⟩ := @ih (lowSeven d) false
    rw [heq] at hx
    rcases List.mem_append.mp hx with hx | hx
    · exact sop_extraFor _ x hx
    · rcases List.mem_cons.mp hx with rfl | hx
      · exact hw
      · exact hws x hx

/-- What comes before the first word does not matter. -/
theorem frameFrom_first (prev prev' : BitVec 56) (ds : List (BitVec 128)) (tempty : BitVec 4) :
    frameFrom state prev (beatsFrom final tempty true ds) =
      frameFrom state prev' (beatsFrom final tempty true ds) := by
  cases ds <;> rfl

end Frame

namespace Pkt
variable (p : Pkt)

theorem framed_frame : Framed PktWord.eop p.frame := framed_frameFrom true p.body p.tempty

/-- **A packet's frame is a frame of its preamble and its payload.** -/
theorem isFrame_frame : IsFrame p p.frame where
  sop := sop_frameFrom true p.body p.tempty
  eop := p.framed_frame
  bytes := by
    rw [frame, beats, tempty, bytes_frameFrom p.count_pos p.count_le, frameBytes, headBytes,
      Packet.bytes]
    rfl
  length := by
    have hpos := p.count_pos
    have hle := p.count_le
    rw [frame, beats, length_frameFrom, frameBytes, List.length_append, p.length_bytes,
      tempty, toNat_tempty hpos]
    by_cases hp : hasPreamble p.side
    · simp only [hp, true_and, if_true]
      have hlen : p.preambleBytes.length = 7 := by simp [preambleBytes]
      split <;> omega
    · simp only [hp, Bool.false_eq_true, false_and, if_false, List.length_nil]
      omega

end Pkt

/-! ## The state for the next packet -/

section Report
variable {r : Regs} {i : Inputs} {p : Pkt}

/-- Where the parts of the reported state are. -/
theorem getLsbD_preambleStateOut {k : Nat} (h : 56 ≤ k) (hk : k < 64) :
    (preambleStateOut r i).getLsbD k =
      if k = 56 ∨ k = 60 then isTcp i.preambleStateIn else i.preambleStateIn.getLsbD k := by
  unfold preambleStateOut
  obtain ⟨j, rfl⟩ := Nat.exists_eq_add_of_le h
  simp only [BitVec.getLsbD_append, BitVec.getLsbD_extractLsb', BitVec.getLsbD_ofBool]
  rcases j with _ | _ | _ | _ | _ | _ | _ | _ | j
  all_goals first | omega | simp

/-- **The reported state is that of the packet.** -/
theorem reports (hi : i.preambleStateIn = p.side)
    (h : (lanes r.last7 0 7).reverse = p.lastSeven) : Reports p (preambleStateOut r i) where
  bytes := by
    have hlow : lanes (preambleStateOut r i) 0 7 = lanes r.last7 0 7 :=
      lanes_congr fun l hl => lane_append_low (m := 7) _ _ (by omega)
    rw [hlow, h]
  tcp := by
    rw [isTcp, getLsbD_preambleStateOut (by decide) (by decide), hi]
    rfl
  hasPreamble := by
    rw [hasPreamble, getLsbD_preambleStateOut (by decide) (by decide), hi]
    rfl
  low := by
    refine BitVec.eq_of_getLsbD_eq fun k hk => ?_
    rw [BitVec.getLsbD_extractLsb', BitVec.getLsbD_extractLsb',
      getLsbD_preambleStateOut (by omega) (by omega), if_neg (by omega), hi]
  high := by
    refine BitVec.eq_of_getLsbD_eq fun k hk => ?_
    rw [BitVec.getLsbD_extractLsb', BitVec.getLsbD_extractLsb',
      getLsbD_preambleStateOut (by omega) (by omega), if_neg (by omega), hi]

theorem drop_suffix {α : Type} {l l' : List α} {n : Nat} (h : n ≤ l'.length) :
    (l ++ l').drop ((l ++ l').length - n) = l'.drop (l'.length - n) := by
  rw [List.length_append, Nat.add_sub_assoc h, List.drop_length_add_append]

/-- The bytes saved with the last word of a packet. -/
theorem lastBytes_eq (hi : i.preambleStateIn = p.side)
    (hdata : r.sAxisTdataRevR = byteSwap p.final) (hempty : r.sAxisTemptyR = p.tempty)
    (hfirst : r.sAxisTfirstR = p.body.isEmpty)
    (hrest : ∀ ds d, p.body = ds ++ [d] → r.rest7 = lowSeven d) :
    (lanes (lastBytes r i) 0 7).reverse = p.lastSeven := by
  have hpos := p.count_pos
  have hle := p.count_le
  have htempty : r.sAxisTemptyR.toNat = 16 - p.count := by
    rw [hempty, Pkt.tempty, toNat_tempty hpos]
  have hcount : 16 - (16 - p.count) = p.count := by omega
  unfold lastBytes
  simp only [hdata, htempty]
  rw [bytes_last _ _ (by omega), hcount, Pkt.lastSeven]
  rcases List.eq_nil_or_concat p.body with hnil | ⟨ds, d, hconcat⟩
  · -- one word: what comes before it is the preamble, or fillers
    have hfill : (lanes (BitVec.allOnes 56) 0 7).reverse = List.replicate 7 0xFF := by decide
    rw [hfirst, hnil, List.isEmpty_nil, if_pos rfl, hi, p.toPacket.bytes_nil hnil]
    by_cases hp : hasPreamble p.side = true
    · simp [hp, Pkt.preambleBytes]
    · simp only [hp, Bool.false_eq_true, if_false]
      rw [hfill]
      simp
  · -- the last seven bytes of the word before it
    rw [List.concat_eq_append] at hconcat
    have hnot : r.sAxisTfirstR = false := by rw [hfirst, hconcat]; simp
    rw [hnot, if_neg Bool.false_ne_true, hrest ds d hconcat]
    have hseven := bytes_lowSeven d (e := 0) (by decide)
    have hbytes : p.bytes = ds.flatMap (fun d => lanes d 0 16) ++ lanes d 0 9 ++
        (lanes d 9 7 ++ lanes p.final 0 p.count) := by
      have hsplit : lanes d 0 16 = lanes d 0 9 ++ lanes d 9 7 := lanes_add d 0 9 7
      rw [Packet.bytes, hconcat, List.flatMap_append, List.flatMap_singleton, hsplit]
      simp only [List.append_assoc]
    have hlen : (lanes d 9 7 ++ lanes p.final 0 p.count).length = 7 + p.count := by simp
    rw [hseven, hbytes, ← List.append_assoc, drop_suffix (by omega), hlen,
      Nat.add_sub_cancel_left]

end Report
end Rosebud.SmeWrapper
