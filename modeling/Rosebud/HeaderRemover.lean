import Rosebud.Clocked
import Rosebud.AxiStream

/-! # `header_remover`

The module of `header.v` that takes the first `HDR_WIDTH` bits off a packet.  It
forwards the packet one word behind: a word leaves with its low `HDR_STRB` lanes
taken from the next input word and the others from `rest_tdata_r`, the part of the
previous word that did not leave with it.  `W` and `H` are `STRB_WIDTH` and
`HDR_STRB`, so `DATA_WIDTH` is `8 * W` and `HDR_WIDTH` is `8 * H`.

The definitions follow the module signal by signal.  `Bench` closes it with a
sender that holds a list of packets and offers them when it likes, and a receiver
that is ready when it likes and writes down what it is given.
-/
namespace Rosebud.HeaderRemover
open Lanes AxiStream Clocked

/-- `HDR` while waiting for or taking the header, `MID` inside a packet that lost
its header, `LST` when only the latched lanes are left to send, and `FWD` inside a
packet that is forwarded as it is. -/
inductive State
  | hdr
  | mid
  | lst
  | fwd
deriving DecidableEq, Repr

/-- The sideband of an input word, with the `has_header` that comes with it. -/
structure Side (dw uw : Nat) where
  tdest : BitVec dw
  tuser : BitVec uw
  hasHeader : Bool
deriving DecidableEq, Repr

/-- The sideband of an output word. -/
abbrev Tag (dw uw : Nat) := BitVec dw × BitVec uw

def Side.tag {dw uw : Nat} (s : Side dw uw) : Tag dw uw := (s.tdest, s.tuser)

structure Regs (W H dw uw : Nat) where
  state : State
  headerR : BitVec (8 * H)
  restTdataR : BitVec (8 * (W - H))
  restTkeepR : BitVec (W - H)
  sAxisTdestR : BitVec dw
  sAxisTuserR : BitVec uw
deriving DecidableEq, Repr

structure Inputs (W dw uw : Nat) where
  sAxis : Beat W (Side dw uw)
  sAxisTvalid : Bool
  mAxisTready : Bool

variable {W H dw uw : Nat} (alwaysHdr : Bool)

/-! ## The module -/

section Wires
variable (r : Regs W H dw uw) (i : Inputs W dw uw)

/-- `SAME_WIDTH`, for the parameters of the instance. -/
def sameWidth (W H : Nat) : Bool := decide (W = H)

/-- `has_header || ALWAYS_HDR`. -/
def takesHeader : Bool := i.sAxis.side.hasHeader || alwaysHdr

variable (H) in
/-- `s_axis_tdata[DATA_WIDTH-1:HDR_WIDTH]`. -/
def upperData : BitVec (8 * (W - H)) := i.sAxis.tdata.extractLsb' (8 * H) (8 * (W - H))

variable (H) in
/-- `s_axis_tkeep[STRB_WIDTH-1:HDR_STRB]`. -/
def upperKeep : BitVec (W - H) := i.sAxis.tkeep.extractLsb' H (W - H)

variable (H) in
def strbLeft : Bool := if sameWidth W H then false else upperKeep H i != 0

def header : BitVec (8 * H) :=
  if r.state = .hdr then i.sAxis.tdata.extractLsb' 0 (8 * H) else r.headerR

def mAxisTdata : BitVec (8 * W) :=
  match r.state with
  | .hdr =>
    if takesHeader alwaysHdr i then
      if sameWidth W H then 0 else (0#(8 * H) ++ upperData H i).setWidth (8 * W)
    else i.sAxis.tdata
  | .mid =>
    if sameWidth W H then i.sAxis.tdata
    else (i.sAxis.tdata.extractLsb' 0 (8 * H) ++ r.restTdataR).setWidth (8 * W)
  | .lst =>
    if sameWidth W H then i.sAxis.tdata else (0#(8 * H) ++ r.restTdataR).setWidth (8 * W)
  | .fwd => i.sAxis.tdata

def mAxisTkeep : BitVec W :=
  match r.state with
  | .hdr =>
    if takesHeader alwaysHdr i then
      if sameWidth W H then 0 else (0#H ++ upperKeep H i).setWidth W
    else i.sAxis.tkeep
  | .mid =>
    if sameWidth W H then i.sAxis.tkeep
    else (i.sAxis.tkeep.extractLsb' 0 H ++ r.restTkeepR).setWidth W
  | .lst => if sameWidth W H then i.sAxis.tkeep else (0#H ++ r.restTkeepR).setWidth W
  | .fwd => i.sAxis.tkeep

def mAxisTlast : Bool :=
  match r.state with
  | .hdr => i.sAxis.tlast
  | .mid => !strbLeft H i && i.sAxis.tlast
  | .lst => true
  | .fwd => i.sAxis.tlast

def mAxisTvalid : Bool :=
  match r.state with
  | .hdr => if takesHeader alwaysHdr i then i.sAxis.tlast && i.sAxisTvalid else i.sAxisTvalid
  | .mid => i.sAxisTvalid
  | .lst => true
  | .fwd => i.sAxisTvalid

def mAxisTdest : BitVec dw := if r.state = .hdr then i.sAxis.side.tdest else r.sAxisTdestR

def mAxisTuser : BitVec uw := if r.state = .hdr then i.sAxis.side.tuser else r.sAxisTuserR

/-- A header word is accepted whether or not the output is ready. -/
def sAxisTready : Bool :=
  (decide (r.state = .hdr) && takesHeader alwaysHdr i) ||
    (i.mAxisTready && decide (r.state ≠ .lst))

/-- The state after the clock edge, outside reset. -/
def nextState : State :=
  match r.state with
  | .hdr =>
    if i.sAxisTvalid && i.mAxisTready then
      if i.sAxis.tlast then .hdr
      else if takesHeader alwaysHdr i then .mid else .fwd
    else .hdr
  | .mid =>
    if i.sAxisTvalid && i.sAxis.tlast && i.mAxisTready then
      if strbLeft H i then .lst else .hdr
    else .mid
  | .lst => if i.mAxisTready then .hdr else .lst
  | .fwd =>
    if (i.sAxisTvalid && i.sAxis.tlast && i.mAxisTready) || alwaysHdr then .hdr else .fwd

/-- The registers after the clock edge, outside reset. -/
def next : Regs W H dw uw where
  state := nextState alwaysHdr r i
  headerR := if r.state = .hdr then i.sAxis.tdata.extractLsb' 0 (8 * H) else r.headerR
  restTdataR :=
    if i.sAxisTvalid && sAxisTready alwaysHdr r i then
      if sameWidth W H then 0 else upperData H i
    else r.restTdataR
  restTkeepR :=
    if i.sAxisTvalid && sAxisTready alwaysHdr r i then
      if sameWidth W H then 0 else upperKeep H i
    else r.restTkeepR
  sAxisTdestR := if r.state = .hdr then i.sAxis.side.tdest else r.sAxisTdestR
  sAxisTuserR := if r.state = .hdr then i.sAxis.side.tuser else r.sAxisTuserR

/-- The output word. -/
def mAxis : Beat W (Tag dw uw) where
  tdata := mAxisTdata alwaysHdr r i
  tkeep := mAxisTkeep alwaysHdr r i
  tlast := mAxisTlast r i
  side := (mAxisTdest r i, mAxisTuser r i)

end Wires

/-! ## The module between a sender and a receiver -/

/-- One cycle of the surroundings: whether the sender offers its next word, what
its channel carries if it does not, and whether the receiver is ready. -/
structure Cycle (W dw uw : Nat) where
  offer : Bool
  idle : Beat W (Side dw uw)
  mAxisTready : Bool

/-- A received word, with the `header` output at its transfer. -/
abbrev Received (W H dw uw : Nat) := View W (Tag dw uw) × BitVec (8 * H)

structure Bench (W H dw uw : Nat) where
  regs : Regs W H dw uw
  pending : List (Beat W (Side dw uw))
  out : List (Received W H dw uw)

namespace Bench
variable (b : Bench W H dw uw) (c : Cycle W dw uw)

def inputs : Inputs W dw uw where
  sAxis := (bus b.pending c.offer c.idle).2
  sAxisTvalid := (bus b.pending c.offer c.idle).1
  mAxisTready := c.mAxisTready

def step : Bench W H dw uw :=
  let i := b.inputs c
  { regs := next alwaysHdr b.regs i
    pending := rest b.pending (i.sAxisTvalid && sAxisTready alwaysHdr b.regs i)
    out :=
      if mAxisTvalid alwaysHdr b.regs i && i.mAxisTready then
        b.out ++ [((mAxis alwaysHdr b.regs i).view, header b.regs i)]
      else b.out }

/-- Out of reset, with the packets `ps` to send; the data registers hold anything. -/
def start (r : Regs W H dw uw) (ps : List (Packet W (Side dw uw))) : Bench W H dw uw where
  regs := { r with state := .hdr }
  pending := ps.flatMap Packet.beats
  out := []

/-- The receiver is ready whenever a header word is offered. -/
def HeaderMet : Prop :=
  b.regs.state = .hdr → (b.inputs c).sAxisTvalid = true →
    takesHeader alwaysHdr (b.inputs c) = true → c.mAxisTready = true
deriving Decidable

end Bench

/-! ## What the receiver should be given -/

variable (H) in
/-- The first `HDR_WIDTH` bits of a packet. -/
def headerOf (p : Packet W (Side dw uw)) : BitVec (8 * H) := p.head.extractLsb' 0 (8 * H)

variable (H) in
/-- **What a packet should come out as**: without its first `HDR_STRB` bytes if it
has a header, word for word otherwise; always with `header` next to it. -/
def expected (p : Packet W (Side dw uw)) : List (Received W H dw uw) :=
  if p.side.hasHeader || alwaysHdr then
    (pack W p.side.tag (p.bytes.drop H)).map fun v => (v, headerOf H p)
  else
    p.beats.map fun x => (({ x with side := x.side.tag } : Beat W (Tag dw uw)).view, headerOf H p)

/-! ## Output words, as the receiver reads them -/

section Views
variable {r : Regs W H dw uw} {i : Inputs W dw uw}

def Regs.tag (r : Regs W H dw uw) : Tag dw uw := (r.sAxisTdestR, r.sAxisTuserR)

theorem sameWidth_eq_false (hHW : H < W) : sameWidth W H = false := by
  simp [sameWidth]; omega

theorem strbLeft_lowMask (hHW : H < W) {k : Nat} (hk : i.sAxis.tkeep = lowMask W k) :
    strbLeft H i = decide (H < k) := by
  rw [strbLeft, sameWidth_eq_false hHW, upperKeep, hk, extract_lowMask_high k hHW.le]
  rcases Nat.lt_or_ge H k with h | h
  · have hne := lowMask_ne_zero (W := W - H) (k := k - H) (by omega) (by omega)
    simp [h, hne]
  · have hz : k - H = 0 := by omega
    simp [hz, Nat.not_lt.mpr h]

/-- In `MID` a word leaves with the latched lanes below and the low lanes of the
input word above. -/
theorem view_mid (hHW : H < W) (hs : r.state = .mid) {k : Nat} (hk : i.sAxis.tkeep = lowMask W k)
    (hr : r.restTkeepR = lowMask (W - H) (W - H)) :
    (mAxis alwaysHdr r i).view =
      ⟨lanes r.restTdataR 0 (W - H) ++ lanes i.sAxis.tdata 0 (min k H),
        lowMask W (W - H + min k H), !decide (H < k) && i.sAxis.tlast, r.tag⟩ := by
  have hadd : W - H + H = W := Nat.sub_add_cancel hHW.le
  have hkeep : mAxisTkeep alwaysHdr r i = lowMask W (W - H + min k H) := by
    rw [mAxisTkeep, hs, hr, hk]
    simp only [sameWidth_eq_false hHW, extract_lowMask_low k hHW.le]
    rw [← lowMask_min H k]
    simpa using append_lowMask_full (h := H) (min k H) hadd
  have hdata : mAxisTdata alwaysHdr r i =
      (i.sAxis.tdata.extractLsb' 0 (8 * H) ++ r.restTdataR).setWidth (8 * W) := by
    simp [mAxisTdata, hs, sameWidth_eq_false hHW]
  have hkept : kept (mAxisTdata alwaysHdr r i) (lowMask W (W - H + min k H)) =
      lanes r.restTdataR 0 (W - H) ++ lanes i.sAxis.tdata 0 (min k H) := by
    rw [kept_lowMask _ (by omega), hdata, lanes_append _ _ (by omega)]
    congr 1
    exact lanes_extractLsb' (m := H) i.sAxis.tdata 0 (Nat.min_le_right k H)
  simp [Beat.view, mAxis, hkept, hkeep, mAxisTlast, hs, strbLeft_lowMask hHW hk, mAxisTdest,
    mAxisTuser, Regs.tag]

/-- In `LST` the latched lanes leave alone. -/
theorem view_lst (hHW : H < W) (hs : r.state = .lst) {k : Nat} (hk : k ≤ W - H)
    (hr : r.restTkeepR = lowMask (W - H) k) :
    (mAxis alwaysHdr r i).view = ⟨lanes r.restTdataR 0 k, lowMask W k, true, r.tag⟩ := by
  have hadd : W - H + H = W := Nat.sub_add_cancel hHW.le
  have hkeep : mAxisTkeep alwaysHdr r i = lowMask W k := by
    simpa [mAxisTkeep, hs, hr, sameWidth_eq_false hHW] using append_lowMask_zero hadd hk
  have hdata : mAxisTdata alwaysHdr r i = (0#(8 * H) ++ r.restTdataR).setWidth (8 * W) := by
    simp [mAxisTdata, hs, sameWidth_eq_false hHW]
  have hkept : kept (mAxisTdata alwaysHdr r i) (lowMask W k) = lanes r.restTdataR 0 k := by
    rw [kept_lowMask _ (by omega), hdata, lanes_append_low _ _ hk (by omega)]
  simp [Beat.view, mAxis, hkept, hkeep, mAxisTlast, hs, mAxisTdest, mAxisTuser, Regs.tag]

/-- In `HDR` a packet of one word leaves as what follows its header, possibly
nothing. -/
theorem view_hdr_header (hHW : H < W) (hs : r.state = .hdr) {k : Nat} (hkW : k ≤ W)
    (hk : i.sAxis.tkeep = lowMask W k) (hh : takesHeader alwaysHdr i = true) :
    (mAxis alwaysHdr r i).view =
      ⟨lanes i.sAxis.tdata H (k - H), lowMask W (k - H), i.sAxis.tlast, i.sAxis.side.tag⟩ := by
  have hadd : W - H + H = W := Nat.sub_add_cancel hHW.le
  have hkeep : mAxisTkeep alwaysHdr r i = lowMask W (k - H) := by
    have hup : upperKeep H i = lowMask (W - H) (k - H) := by
      rw [upperKeep, hk, extract_lowMask_high k hHW.le]
    simpa [mAxisTkeep, hs, hh, hup, sameWidth_eq_false hHW]
      using append_lowMask_zero hadd (show k - H ≤ W - H by omega)
  have hdata : mAxisTdata alwaysHdr r i = (0#(8 * H) ++ upperData H i).setWidth (8 * W) := by
    simp [mAxisTdata, hs, hh, sameWidth_eq_false hHW]
  have hkept : kept (mAxisTdata alwaysHdr r i) (lowMask W (k - H)) =
      lanes i.sAxis.tdata H (k - H) := by
    rw [kept_lowMask _ (by omega), hdata, lanes_append_low _ _ (by omega) (by omega),
      upperData, lanes_extractLsb' _ _ (by omega)]
  simp [Beat.view, mAxis, hkept, hkeep, mAxisTlast, hs, mAxisTdest, mAxisTuser, Side.tag]

/-- In `HDR` a word of a packet without header leaves as it is. -/
theorem view_hdr_plain (hs : r.state = .hdr) (hh : takesHeader alwaysHdr i = false) :
    (mAxis alwaysHdr r i) = { i.sAxis with side := i.sAxis.side.tag } := by
  simp [mAxis, mAxisTdata, mAxisTkeep, mAxisTlast, mAxisTdest, mAxisTuser, hs, hh, Side.tag]

/-- In `FWD` a word leaves as it is, with the sideband of its packet. -/
theorem view_fwd (hs : r.state = .fwd) :
    (mAxis alwaysHdr r i) = { i.sAxis with side := r.tag } := by
  simp [mAxis, mAxisTdata, mAxisTkeep, mAxisTlast, mAxisTdest, mAxisTuser, hs, Regs.tag]

end Views

/-! ## What is still to come, state by state -/

variable (H) in
def expectedAll (ps : List (Packet W (Side dw uw))) : List (Received W H dw uw) :=
  ps.flatMap (expected H alwaysHdr)

/-- In state `b` the receiver is still to be given `owed`: the rest of the packet
in progress, of which the registers hold a part, and the packets `qs` after it,
which are the last ones of the `ps` the sender started with. -/
def Owes (ps : List (Packet W (Side dw uw))) (b : Bench W H dw uw)
    (owed : List (Received W H dw uw)) : Prop :=
  ∃ qs : List (Packet W (Side dw uw)), qs <:+ ps ∧
    match b.regs.state with
    | .hdr => b.pending = qs.flatMap Packet.beats ∧ owed = expectedAll H alwaysHdr qs
    | .mid => ∃ p : Packet W (Side dw uw),
        b.pending = p.beats ++ qs.flatMap Packet.beats ∧
        b.regs.restTkeepR = lowMask (W - H) (W - H) ∧
        owed = (pack W b.regs.tag (lanes b.regs.restTdataR 0 (W - H) ++ p.bytes)).map
          (fun v => (v, b.regs.headerR)) ++ expectedAll H alwaysHdr qs
    | .lst => ∃ k : Nat,
        b.pending = qs.flatMap Packet.beats ∧ k ≤ W - H ∧
        b.regs.restTkeepR = lowMask (W - H) k ∧
        owed = (⟨lanes b.regs.restTdataR 0 k, lowMask W k, true, b.regs.tag⟩, b.regs.headerR) ::
          expectedAll H alwaysHdr qs
    | .fwd => ∃ p : Packet W (Side dw uw), alwaysHdr = false ∧
        b.pending = p.beats ++ qs.flatMap Packet.beats ∧
        owed = p.beats.map (fun x =>
          (({ x with side := b.regs.tag } : Beat W (Tag dw uw)).view, b.regs.headerR)) ++
            expectedAll H alwaysHdr qs

/-- One cycle hands out a part of what is owed. -/
def Delivers (ps : List (Packet W (Side dw uw))) (b b' : Bench W H dw uw)
    (owed : List (Received W H dw uw)) : Prop :=
  ∃ sent owed', b'.out = b.out ++ sent ∧ owed = sent ++ owed' ∧ Owes alwaysHdr ps b' owed'

section Steps
variable {alwaysHdr} {b : Bench W H dw uw} {c : Cycle W dw uw} {owed : List (Received W H dw uw)}
variable {ps qs : List (Packet W (Side dw uw))}

theorem Delivers.nothing {b' : Bench W H dw uw} (hout : b'.out = b.out)
    (ho : Owes alwaysHdr ps b' owed) : Delivers alwaysHdr ps b b' owed :=
  ⟨[], owed, by rw [hout, List.append_nil], rfl, ho⟩

theorem Delivers.word {b' : Bench W H dw uw} {v : Received W H dw uw}
    (hout : b'.out = b.out ++ [v]) (ho : Owes alwaysHdr ps b' owed) :
    Delivers alwaysHdr ps b b' (v :: owed) :=
  ⟨[v], owed, hout, rfl, ho⟩

/-- A cycle in which no word is accepted and none leaves. -/
theorem delivers_still (ho : Owes alwaysHdr ps b owed)
    (hin : ((b.inputs c).sAxisTvalid && sAxisTready alwaysHdr b.regs (b.inputs c)) = false)
    (hout : (mAxisTvalid alwaysHdr b.regs (b.inputs c) && (b.inputs c).mAxisTready) = false) :
    Delivers alwaysHdr ps b (b.step alwaysHdr c) owed := by
  refine .nothing (by simp [Bench.step, hout]) ?_
  have hstays (hl : b.regs.state ≠ .lst) :
      ((b.inputs c).sAxisTvalid && (b.inputs c).mAxisTready) = false := by
    cases hr : (b.inputs c).mAxisTready with
    | false => exact Bool.and_false _
    | true => simpa [sAxisTready, hr, hl] using hin
  cases hst : b.regs.state with
  | hdr => simpa [Owes, Bench.step, next, nextState, hst, hin, hstays] using ho
  | mid =>
    simpa [Owes, Bench.step, next, nextState, hst, hin, Bool.and_right_comm, hstays, Regs.tag]
      using ho
  | lst =>
    have hr : (b.inputs c).mAxisTready = false := by simpa [mAxisTvalid, hst] using hout
    simpa [Owes, Bench.step, next, nextState, hst, hin, hr, Regs.tag] using ho
  | fwd =>
    simp only [Owes, hst] at ho
    obtain ⟨qs, hsuf, p, rfl, ho⟩ := ho
    simp only [Owes, Bench.step, next, nextState, hst, hin, Bool.and_right_comm,
      hstays (by simp [hst]), Bool.false_and]
    exact ⟨qs, hsuf, p, trivial, ho⟩

/-- In `LST` no word is accepted, offered or not, and the latched lanes leave. -/
theorem delivers_lst (hHW : H < W) (hs : b.regs.state = .lst) (ho : Owes alwaysHdr ps b owed)
    (hr : (b.inputs c).mAxisTready = true) :
    Delivers alwaysHdr ps b (b.step alwaysHdr c) owed := by
  simp only [Owes, hs] at ho
  obtain ⟨qs, hsuf, k, hp, hk, hkeep, rfl⟩ := ho
  have hready : sAxisTready alwaysHdr b.regs (b.inputs c) = false := by
    simp [sAxisTready, hs]
  refine .word ?_ ?_
  · simp [Bench.step, mAxisTvalid, hs, hr, view_lst alwaysHdr hHW hs hk hkeep, header]
  · simp only [Owes, Bench.step, next, nextState, hs, hready, hr, Bool.and_false]
    exact ⟨qs, hsuf, hp, rfl⟩

/-- The latched lanes, a full word and more: one word leaves, and the upper lanes
of the full word take the place of the latched ones. -/
theorem pack_latched (hHW : H < W) (tag : Tag dw uw) (y : BitVec (8 * (W - H)))
    (d : BitVec (8 * W)) (bs : List (BitVec 8)) :
    pack W tag (lanes y 0 (W - H) ++ (lanes d 0 W ++ bs)) =
      ⟨lanes y 0 (W - H) ++ lanes d 0 H, BitVec.allOnes W, false, tag⟩ ::
        pack W tag (lanes d H (W - H) ++ bs) := by
  rw [lanes_split d hHW.le, List.append_assoc, ← List.append_assoc (lanes y 0 (W - H))]
  refine pack_append (by omega) (by simp; omega) (fun h => ?_)
  have hlen := congrArg List.length h
  simp at hlen
  omega

/-- A full word leaves its upper lanes in the registers. -/
theorem lanes_upperData {i : Inputs W dw uw} {k : Nat} (hk : k ≤ W - H) :
    lanes (upperData H i) 0 k = lanes i.sAxis.tdata H k :=
  lanes_extractLsb' i.sAxis.tdata H hk

theorem upperKeep_lowMask (hHW : H < W) {i : Inputs W dw uw} {k : Nat}
    (hk : i.sAxis.tkeep = lowMask W k) : upperKeep H i = lowMask (W - H) (k - H) := by
  rw [upperKeep, hk, extract_lowMask_high k hHW.le]

/-! A word that is offered to a receiver that is ready. -/

variable {x : Beat W (Side dw uw)} {xs : List (Beat W (Side dw uw))} (hp : b.pending = x :: xs)
  (hx : (b.inputs c).sAxis = x) (hv : (b.inputs c).sAxisTvalid = true)
  (hr : (b.inputs c).mAxisTready = true)
include hp hx hv hr

/-- In `MID` the word completes one output word, and the last one may leave a rest for
`LST`. -/
theorem delivers_mid (hHW : H < W) (hs : b.regs.state = .mid) (ho : Owes alwaysHdr ps b owed) :
    Delivers alwaysHdr ps b (b.step alwaysHdr c) owed := by
  simp only [Owes, hs] at ho
  obtain ⟨qs, hsuf, p, hpq, hkeep, rfl⟩ := ho
  have hready : sAxisTready alwaysHdr b.regs (b.inputs c) = true := by
    simp [sAxisTready, hs, hr]
  obtain ⟨d, ds, hbody, rfl, hxs⟩ | ⟨hbody, rfl, hxs⟩ :=
    Packet.beats_append_cases (hpq.symm.trans hp)
  · have htk : (b.inputs c).sAxis.tkeep = lowMask W W := by simp [hx, midBeat]
    have hview := view_mid alwaysHdr hHW hs htk hkeep
    rw [Nat.min_eq_right hHW.le, Nat.sub_add_cancel hHW.le, lowMask_self] at hview
    rw [Packet.bytes_cons hbody, pack_latched hHW, List.map_cons, List.cons_append]
    refine .word ?_ ?_
    · simp [Bench.step, mAxisTvalid, hs, hv, hr, hview, header, hx, midBeat]
    · simp only [Owes, Bench.step, next, nextState, hs, hready, hr, hv, hx, midBeat, hp]
      refine ⟨qs, hsuf, { p with body := ds }, ?_, ?_, ?_⟩
      · simpa using hxs
      · simp [sameWidth_eq_false hHW, upperKeep_lowMask hHW htk]
      · simp [sameWidth_eq_false hHW, lanes_upperData (Nat.le_refl _), Regs.tag, hx, midBeat]
  · have htk : (b.inputs c).sAxis.tkeep = lowMask W p.count := by simp [hx, endBeat]
    have hview := view_mid alwaysHdr hHW hs htk hkeep
    have hleft := strbLeft_lowMask hHW htk
    rw [Packet.bytes_nil hbody]
    rcases Nat.lt_or_ge H p.count with hlt | hge
    · -- More bytes than fit beside the latched lanes: the rest goes to `LST`.
      rw [Nat.min_eq_right hlt.le, Nat.sub_add_cancel hHW.le, lowMask_self] at hview
      have hcount := p.count_le
      have hne : lanes p.final H (p.count - H) ≠ [] := by
        rw [← List.length_pos_iff, length_lanes]
        omega
      rw [lanes_split p.final hlt.le, ← List.append_assoc,
        pack_append (by omega) (by simp; omega) hne, pack_of_le (by simp; omega), List.map_cons,
        List.cons_append]
      refine .word ?_ ?_
      · simp [Bench.step, mAxisTvalid, hs, hv, hr, hview, header, hx, endBeat, hlt]
      · simp only [Owes, Bench.step, next, nextState, hs, hready, hr, hv, hx, endBeat, hp, hleft,
          hlt, decide_true]
        refine ⟨qs, hsuf, p.count - H, ?_, by omega, ?_, ?_⟩
        · simpa using hxs
        · simp [sameWidth_eq_false hHW, upperKeep_lowMask hHW htk]
        · simp [sameWidth_eq_false hHW, lanes_upperData (show p.count - H ≤ W - H by omega),
            Regs.tag, hx, endBeat]
    · rw [Nat.min_eq_left hge] at hview
      rw [pack_of_le (by simp; omega), List.map_cons, List.cons_append]
      refine .word ?_ ?_
      · simp [Bench.step, mAxisTvalid, hs, hv, hr, hview, header, hx, endBeat, Nat.not_lt.mpr hge]
      · simp only [Owes, Bench.step, next, nextState, hs, hready, hr, hv, hx, endBeat, hp, hleft,
          Nat.not_lt.mpr hge, decide_false]
        exact ⟨qs, hsuf, by simpa using hxs, rfl⟩

/-- In `FWD` the word leaves as it is. -/
theorem delivers_fwd (hs : b.regs.state = .fwd) (ho : Owes alwaysHdr ps b owed) :
    Delivers alwaysHdr ps b (b.step alwaysHdr c) owed := by
  simp only [Owes, hs] at ho
  obtain ⟨qs, hsuf, p, rfl, hpq, rfl⟩ := ho
  have hready : sAxisTready false b.regs (b.inputs c) = true := by
    simp [sAxisTready, hs, hr]
  obtain ⟨d, ds, hbody, rfl, hxs⟩ | ⟨hbody, rfl, hxs⟩ :=
    Packet.beats_append_cases (hpq.symm.trans hp)
  · rw [Packet.beats_cons hbody, List.map_cons, List.cons_append]
    refine .word ?_ ?_
    · simp [Bench.step, mAxisTvalid, hs, hv, hr, view_fwd false hs, header, hx]
    · simp only [Owes, Bench.step, next, nextState, hs, hready, hr, hv, hx, midBeat, hp]
      exact ⟨qs, hsuf, { p with body := ds }, trivial, by simpa using hxs, rfl⟩
  · rw [Packet.beats_nil hbody, List.map_cons, List.cons_append]
    refine .word ?_ ?_
    · simp [Bench.step, mAxisTvalid, hs, hv, hr, view_fwd false hs, header, hx]
    · simp only [Owes, Bench.step, next, nextState, hs, hready, hr, hv, hx, endBeat, hp]
      exact ⟨qs, hsuf, by simpa using hxs, rfl⟩

section First
variable (hs : b.regs.state = .hdr) {q : Packet W (Side dw uw)} (hsuf : qs <:+ ps)
  (hq : b.pending = q.beats ++ qs.flatMap Packet.beats)
include hs hsuf hq

/-- In `HDR`, the first word of a packet with a header: it is latched, or leaves without the
header if it is also the last. -/
theorem delivers_header (hHW : H < W) (hh : (q.side.hasHeader || alwaysHdr) = true) :
    Delivers alwaysHdr ps b (b.step alwaysHdr c)
      (expected H alwaysHdr q ++ expectedAll H alwaysHdr qs) := by
  rw [expected, if_pos hh]
  obtain ⟨d, ds, hbody, rfl, hxs⟩ | ⟨hbody, rfl, hxs⟩ :=
    Packet.beats_append_cases (hq.symm.trans hp)
  · have htakes : takesHeader alwaysHdr (b.inputs c) = true := by rw [takesHeader, hx]; exact hh
    have hready : sAxisTready alwaysHdr b.regs (b.inputs c) = true := by
      simp [sAxisTready, hs, htakes]
    have htk : (b.inputs c).sAxis.tkeep = lowMask W W := by simp [hx, midBeat]
    refine .nothing ?_ ?_
    · simp [Bench.step, mAxisTvalid, hs, htakes, hx, midBeat]
    · simp only [Owes, Bench.step, next, nextState, hs, hready, hr, hv, htakes, hx, midBeat, hp]
      refine ⟨qs, hsuf, { q with body := ds }, ?_, ?_, ?_⟩
      · simpa using hxs
      · simp [sameWidth_eq_false hHW, upperKeep_lowMask hHW htk]
      · rw [Packet.bytes_cons hbody, List.drop_append_of_le_length (by simp; omega), drop_lanes]
        simp [sameWidth_eq_false hHW, lanes_upperData (Nat.le_refl _), Regs.tag, Side.tag, hx,
          midBeat, headerOf, Packet.head_cons hbody]
  · have htakes : takesHeader alwaysHdr (b.inputs c) = true := by rw [takesHeader, hx]; exact hh
    have hready : sAxisTready alwaysHdr b.regs (b.inputs c) = true := by
      simp [sAxisTready, hs, htakes]
    have hcount := q.count_le
    have htk : (b.inputs c).sAxis.tkeep = lowMask W q.count := by simp [hx, endBeat]
    have hview := view_hdr_header alwaysHdr hHW hs hcount htk htakes
    rw [Packet.bytes_nil hbody, drop_lanes, pack_of_le (by simp; omega), List.map_cons,
      List.cons_append]
    refine .word ?_ ?_
    · simp [Bench.step, mAxisTvalid, hs, hv, hr, htakes, hview, header, hx, endBeat, headerOf,
        Packet.head_nil hbody]
    · simp only [Owes, Bench.step, next, nextState, hs, hready, hr, hv, hx, endBeat, hp]
      exact ⟨qs, hsuf, by simpa using hxs, rfl⟩

/-- In `HDR`, the first word of a packet without header: it leaves as it is. -/
theorem delivers_plain (hh : (q.side.hasHeader || alwaysHdr) = false) :
    Delivers alwaysHdr ps b (b.step alwaysHdr c)
      (expected H alwaysHdr q ++ expectedAll H alwaysHdr qs) := by
  have hready : sAxisTready alwaysHdr b.regs (b.inputs c) = true := by
    simp [sAxisTready, hs, hr]
  rw [expected, hh]
  obtain ⟨d, ds, hbody, rfl, hxs⟩ | ⟨hbody, rfl, hxs⟩ :=
    Packet.beats_append_cases (hq.symm.trans hp)
  · have htakes : takesHeader alwaysHdr (b.inputs c) = false := by rw [takesHeader, hx]; exact hh
    simp only [Bool.false_eq_true, if_false, Packet.beats_cons hbody, List.map_cons,
      List.cons_append]
    refine .word ?_ ?_
    · simp [Bench.step, mAxisTvalid, hs, hv, hr, htakes, view_hdr_plain alwaysHdr hs htakes,
        header, hx, midBeat, headerOf, Packet.head_cons hbody]
    · simp only [Owes, Bench.step, next, nextState, hs, hready, hr, hv, htakes, hx, midBeat, hp]
      refine ⟨qs, hsuf, { q with body := ds }, (Bool.or_eq_false_iff.mp hh).2,
        by simpa using hxs, ?_⟩
      congr 1
      refine List.map_congr_left fun y hy => ?_
      have hyside : y.side = q.side := by
        simp only [Packet.beats, List.mem_append, List.mem_map, List.mem_singleton] at hy
        rcases hy with ⟨e, -, rfl⟩ | rfl <;> rfl
      simp [hyside, Side.tag, Regs.tag, headerOf, Packet.head_cons hbody]
  · have htakes : takesHeader alwaysHdr (b.inputs c) = false := by rw [takesHeader, hx]; exact hh
    simp only [Bool.false_eq_true, if_false, Packet.beats_nil hbody, List.map_cons,
      List.cons_append]
    refine .word ?_ ?_
    · simp [Bench.step, mAxisTvalid, hs, hv, hr, htakes, view_hdr_plain alwaysHdr hs htakes,
        header, hx, endBeat, headerOf, Packet.head_nil hbody]
    · simp only [Owes, Bench.step, next, nextState, hs, hready, hr, hv, hx, endBeat, hp]
      exact ⟨qs, hsuf, by simpa using hxs, rfl⟩

end First
omit hp hx hv hr

/-- **One cycle delivers.**  As long as the receiver is ready for header words, a
cycle hands out a part of what is owed and nothing else. -/
theorem delivers_step (hHW : H < W) (ho : Owes alwaysHdr ps b owed)
    (hm : b.HeaderMet alwaysHdr c) : Delivers alwaysHdr ps b (b.step alwaysHdr c) owed := by
  cases hr : (b.inputs c).mAxisTready with
  | false =>
    refine delivers_still ho ?_ (by simp [hr])
    by_contra hacc
    obtain ⟨hv, hacc⟩ := Bool.and_eq_true_iff.mp (Bool.of_not_eq_false hacc)
    obtain ⟨hs, ht⟩ : b.regs.state = .hdr ∧ takesHeader alwaysHdr (b.inputs c) = true := by
      simpa [sAxisTready, hr] using hacc
    exact Bool.false_ne_true (hr.symm.trans (hm hs hv ht))
  | true =>
    by_cases hl : b.regs.state = .lst
    · exact delivers_lst hHW hl ho hr
    rcases bus_cases b.pending c.offer c.idle with hbus | ⟨x, xs, hp, -, hbus⟩
    · have hv : (b.inputs c).sAxisTvalid = false := by simp [Bench.inputs, hbus]
      refine delivers_still ho (by simp [hv]) ?_
      cases hst : b.regs.state with
      | lst => exact absurd hst hl
      | hdr | mid | fwd => simp [mAxisTvalid, hst, hv]
    have hx : (b.inputs c).sAxis = x := by simp [Bench.inputs, hbus]
    have hv : (b.inputs c).sAxisTvalid = true := by simp [Bench.inputs, hbus]
    cases hs : b.regs.state with
    | lst => exact absurd hs hl
    | mid => exact delivers_mid hp hx hv hr hHW hs ho
    | fwd => exact delivers_fwd hp hx hv hr hs ho
    | hdr =>
      simp only [Owes, hs] at ho
      obtain ⟨qs, hsuf, hqs, rfl⟩ := ho
      cases qs with
      | nil => simp [hp] at hqs
      | cons q qs =>
        have hsuf' : qs <:+ ps := (List.suffix_cons q qs).trans hsuf
        cases hh : q.side.hasHeader || alwaysHdr with
        | true => exact delivers_header hp hx hv hr hs hsuf' hqs hHW hh
        | false => exact delivers_plain hp hx hv hr hs hsuf' hqs hh

/-- A word on the output is the next one owed, taken or not. -/
theorem Owes.head (hHW : H < W) (ho : Owes alwaysHdr ps b owed)
    (hv : mAxisTvalid alwaysHdr b.regs (b.inputs c) = true) :
    ∃ owed', owed =
      ((mAxis alwaysHdr b.regs (b.inputs c)).view, header b.regs (b.inputs c)) :: owed' := by
  -- what a ready receiver would be given in this cycle
  obtain ⟨sent, owed', hout, rfl, -⟩ := delivers_step (c := { c with mAxisTready := true }) hHW ho
    fun _ _ _ => rfl
  refine ⟨owed', ?_⟩
  have hvalid : (mAxisTvalid alwaysHdr b.regs (b.inputs { c with mAxisTready := true }) &&
      (b.inputs { c with mAxisTready := true }).mAxisTready) = true :=
    Bool.and_eq_true_iff.mpr ⟨hv, rfl⟩
  rw [Bench.step, if_pos hvalid] at hout
  rw [← List.append_cancel_left hout]
  rfl

/-- One cycle, word by word. -/
theorem Owes.step (hHW : H < W) (ho : Owes alwaysHdr ps b owed)
    (hm : b.HeaderMet alwaysHdr c) :
    ∃ owed', Owes alwaysHdr ps (b.step alwaysHdr c) owed' ∧
      owed = (if mAxisTvalid alwaysHdr b.regs (b.inputs c) && c.mAxisTready then
        [((mAxis alwaysHdr b.regs (b.inputs c)).view, header b.regs (b.inputs c))] else []) ++
          owed' := by
  obtain ⟨sent, owed', hout, rfl, ho'⟩ := delivers_step hHW ho hm
  refine ⟨owed', ho', congrArg (· ++ owed') ?_⟩
  change (if _ then _ else _ : List (Received W H dw uw)) = _ at hout
  split at hout
  · rename_i hvalid
    exact (List.append_cancel_left hout).symm.trans (if_pos hvalid).symm
  · rename_i hvalid
    exact (List.self_eq_append_right.mp hout).trans (if_neg hvalid).symm

/-- One more packet to send is one more to be received. -/
theorem Owes.supply (ho : Owes alwaysHdr ps b owed) (q : Packet W (Side dw uw)) :
    Owes alwaysHdr (ps ++ [q]) { b with pending := b.pending ++ q.beats }
      (owed ++ expected H alwaysHdr q) := by
  obtain ⟨qs, ⟨done, hdone⟩, ho⟩ := ho
  refine ⟨qs ++ [q], ⟨done, by rw [← List.append_assoc, hdone]⟩, ?_⟩
  cases hs : b.regs.state with
  | hdr =>
    simp only [hs] at ho ⊢
    obtain ⟨hp, rfl⟩ := ho
    exact ⟨by simp [hp], by simp [expectedAll]⟩
  | mid =>
    simp only [hs] at ho ⊢
    obtain ⟨p, hp, hkeep, rfl⟩ := ho
    exact ⟨p, by simp [hp], hkeep, by simp [expectedAll]⟩
  | lst =>
    simp only [hs] at ho ⊢
    obtain ⟨k, hp, hk, hkeep, rfl⟩ := ho
    exact ⟨k, by simp [hp], hk, hkeep, by simp [expectedAll]⟩
  | fwd =>
    simp only [hs] at ho ⊢
    obtain ⟨p, halways, hp, rfl⟩ := ho
    exact ⟨p, halways, by simp [hp], by simp [expectedAll]⟩

end Steps

/-! ## Runs -/

section Runs
variable {alwaysHdr}

theorem length_expected (hW : 0 < W) (p : Packet W (Side dw uw)) :
    (expected H alwaysHdr p).length ≤ p.beats.length := by
  unfold expected
  split
  · have hcount := p.count_le
    have hdiv : (p.body.length * W + p.count - H - 1) / W ≤ p.body.length := by
      rw [Nat.div_le_iff_le_mul_add_pred hW, Nat.mul_comm W]
      omega
    rw [List.length_map, length_pack, List.length_drop, p.length_bytes, p.length_beats]
    omega
  · rw [List.length_map]

theorem length_expectedAll (hW : 0 < W) (ps : List (Packet W (Side dw uw))) :
    (expectedAll H alwaysHdr ps).length ≤ (ps.flatMap Packet.beats).length := by
  induction ps with
  | nil => exact Nat.le_refl _
  | cons p ps ih =>
    have hp : (expected H alwaysHdr p).length ≤ p.beats.length := length_expected hW p
    unfold expectedAll at ih ⊢
    rw [List.flatMap_cons, List.flatMap_cons, List.length_append, List.length_append]
    omega

/-- The registers never hold back more than one word. -/
theorem Owes.length_le (hHW : H < W) {ps : List (Packet W (Side dw uw))} {b : Bench W H dw uw}
    {owed : List (Received W H dw uw)} (ho : Owes alwaysHdr ps b owed) :
    owed.length ≤ b.pending.length + 1 := by
  have hW : 0 < W := by omega
  obtain ⟨qs, -, ho⟩ := ho
  have hqs : (expectedAll H alwaysHdr qs).length ≤ (qs.flatMap Packet.beats).length :=
    length_expectedAll hW qs
  cases hs : b.regs.state with
  | hdr =>
    simp only [hs] at ho
    obtain ⟨hp, rfl⟩ := ho
    rw [hp]
    omega
  | mid =>
    simp only [hs] at ho
    obtain ⟨p, hp, -, rfl⟩ := ho
    have hcount := p.count_le
    have hdiv : (W - H + (p.body.length * W + p.count) - 1) / W ≤ p.body.length + 1 := by
      rw [Nat.div_le_iff_le_mul_add_pred hW, Nat.mul_add, Nat.mul_comm W]
      omega
    rw [hp, List.length_append, List.length_append, List.length_map, length_pack,
      List.length_append, length_lanes, p.length_bytes, p.length_beats]
    omega
  | lst =>
    simp only [hs] at ho
    obtain ⟨k, hp, -, -, rfl⟩ := ho
    rw [hp, List.length_cons]
    omega
  | fwd =>
    simp only [hs] at ho
    obtain ⟨p, -, hp, rfl⟩ := ho
    rw [hp, List.length_append, List.length_append, List.length_map]
    omega

theorem owes_start (r : Regs W H dw uw) (ps : List (Packet W (Side dw uw))) :
    Owes alwaysHdr ps (Bench.start r ps) (expectedAll H alwaysHdr ps) :=
  ⟨ps, List.suffix_refl ps, rfl, rfl⟩

/-- **`header_remover` is transparent as long as its receiver takes header words.**
Whatever the packets, the offers and the receiver, if the receiver is ready in each
cycle a header word is offered, then at every point of the run the words received
are the first ones of the packets without their headers, each with its packet's
header beside it; all but at most one word of what was accepted has been received;
and between packets exactly the accepted packets have been. -/
theorem transparent_of_headerMet (hHW : H < W) (r : Regs W H dw uw)
    (ps : List (Packet W (Side dw uw))) (cycles : List (Cycle W dw uw))
    (hm : Meets (Bench.step alwaysHdr) (Bench.HeaderMet alwaysHdr) (Bench.start r ps) cycles) :
    let b := run (Bench.step alwaysHdr) (Bench.start r ps) cycles
    b.out <+: expectedAll H alwaysHdr ps ∧
      (expectedAll H alwaysHdr ps).length ≤ b.out.length + b.pending.length + 1 ∧
      (b.regs.state = .hdr → ∃ done todo, ps = done ++ todo ∧
        b.pending = todo.flatMap Packet.beats ∧ b.out = expectedAll H alwaysHdr done) := by
  intro b
  have hdel : ∃ owed, Owes alwaysHdr ps b owed ∧ b.out ++ owed = [] ++ expectedAll H alwaysHdr ps :=
    run_delivers (fun _ _ _ ho hm => delivers_step hHW ho hm) (owes_start r ps) hm
  obtain ⟨owed, ho, heq⟩ := hdel
  rw [List.nil_append] at heq
  refine ⟨⟨owed, heq⟩, ?_, ?_⟩
  · have hlen := ho.length_le hHW
    rw [← heq, List.length_append]
    omega
  · intro hs
    obtain ⟨qs, ⟨done, hdone⟩, ho⟩ := ho
    simp only [hs] at ho
    obtain ⟨hp, rfl⟩ := ho
    refine ⟨done, qs, hdone.symm, hp, ?_⟩
    rw [← hdone] at heq
    simp only [expectedAll, List.flatMap_append] at heq ⊢
    exact List.append_cancel_right heq

end Runs

/-! ## A stalled header word

Two words of two lanes, one lane of header. -/

def samplePacket : Packet 2 (Side 1 1) where
  body := [0x0201]
  final := 0x0403
  count := 2
  count_le := Nat.one_lt_two
  side := ⟨0, 0, true⟩

def sampleRegs : Regs 2 1 1 1 := ⟨.hdr, 0, 0, 0, 0, 0⟩

/-- A cycle in which the sender offers its next word. -/
def offering (ready : Bool) : Cycle 2 1 1 := ⟨true, ⟨0, 0, false, ⟨0, 0, false⟩⟩, ready⟩

/-- With a ready receiver the packet comes out without its header. -/
theorem transparent_of_headerMet_samplePacket :
    Meets (Bench.step false) (Bench.HeaderMet false) (Bench.start sampleRegs [samplePacket])
      [offering true, offering true, offering true] ∧
    (run (Bench.step false) (Bench.start sampleRegs [samplePacket])
      [offering true, offering true, offering true]).out <+:
        expectedAll 1 false [samplePacket] :=
  ⟨by decide +kernel, (transparent_of_headerMet (by decide) sampleRegs [samplePacket]
    [offering true, offering true, offering true] (by decide +kernel)).1⟩

/-- **If the receiver is not ready for the header word, the word is lost.**  It is
accepted, the state stays `HDR`, and the next word is taken for the header. -/
theorem stalled_header_word_lost :
    ¬ (run (Bench.step false) (Bench.start sampleRegs [samplePacket])
      [offering false, offering true]).out <+: expectedAll 1 false [samplePacket] := by
  decide +kernel

end Rosebud.HeaderRemover
