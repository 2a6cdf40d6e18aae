import Rosebud.AxiStream

/-! # `header_adder`

The module of `header.v` that puts `HDR_WIDTH` bits in front of a packet.  Inside a
packet with a header it is `HDR_STRB` lanes behind: a word leaves with the top lanes of
the previous word below and the low lanes of the input word above, and lanes of the last
word that do not fit leave in a word of their own.  Whether a packet gets a header is
read off `header_valid` when its first word is taken.  `W` and `H` are `STRB_WIDTH` and
`HDR_STRB`.

What the module does to a word is said for any word and any state: `view_taken` is the
word that leaves, `next_midBeat` and `next_endBeat` what is kept for later.
-/
namespace Rosebud.HeaderAdder
open Lanes AxiStream

/-- `HDR` between packets, `MID` inside a packet with a header, `LST` when only the
latched lanes are left to send, and `FWD` inside a packet that is forwarded as it is. -/
inductive State
  | hdr
  | mid
  | lst
  | fwd
deriving DecidableEq, Repr

/-- The sideband of a word. -/
abbrev Tag (dw uw : Nat) := BitVec dw × BitVec uw

structure Regs (H dw uw : Nat) where
  state : State
  restTdataR : BitVec (8 * H)
  restTkeepR : BitVec H
  sAxisTdestR : BitVec dw
  sAxisTuserR : BitVec uw
deriving DecidableEq, Repr

structure Inputs (W H dw uw : Nat) where
  sAxis : Beat W (Tag dw uw)
  sAxisTvalid : Bool
  header : BitVec (8 * H)
  headerValid : Bool
  mAxisTready : Bool

variable {W H dw uw : Nat} (alwaysHdr : Bool)

/-! ## The module -/

section Wires
variable (r : Regs H dw uw) (i : Inputs W H dw uw)

/-- `SAME_WIDTH`, for the parameters of the instance. -/
def sameWidth (W H : Nat) : Bool := decide (W = H)

/-- `header_valid || ALWAYS_HDR`. -/
def addsHeader : Bool := i.headerValid || alwaysHdr

def strbLeft : Bool := i.sAxis.tkeep.extractLsb' (W - H) H != 0

/-- The low lanes of a word above `y`; with words as wide as the header, `y` alone. -/
def overData (x : BitVec (8 * W)) (y : BitVec (8 * H)) : BitVec (8 * W) :=
  if sameWidth W H then y.setWidth (8 * W)
  else (x.extractLsb' 0 (8 * (W - H)) ++ y).setWidth (8 * W)

def overKeep (x : BitVec W) (y : BitVec H) : BitVec W :=
  if sameWidth W H then y.setWidth W else (x.extractLsb' 0 (W - H) ++ y).setWidth W

def mAxisTdata : BitVec (8 * W) :=
  match r.state with
  | .hdr => if addsHeader alwaysHdr i then overData i.sAxis.tdata i.header else i.sAxis.tdata
  | .mid => overData i.sAxis.tdata r.restTdataR
  | .lst => overData 0 r.restTdataR
  | .fwd => i.sAxis.tdata

def mAxisTkeep : BitVec W :=
  match r.state with
  | .hdr =>
    if addsHeader alwaysHdr i then overKeep i.sAxis.tkeep (BitVec.allOnes H) else i.sAxis.tkeep
  | .mid => overKeep i.sAxis.tkeep r.restTkeepR
  | .lst => overKeep 0 r.restTkeepR
  | .fwd => i.sAxis.tkeep

def mAxisTlast : Bool :=
  match r.state with
  | .hdr => if addsHeader alwaysHdr i then !strbLeft i && i.sAxis.tlast else i.sAxis.tlast
  | .mid => !strbLeft i && i.sAxis.tlast
  | .lst => true
  | .fwd => i.sAxis.tlast

def mAxisTvalid : Bool := if r.state ≠ .lst then i.sAxisTvalid else true

def mAxisTdest : BitVec dw := if r.state = .hdr then i.sAxis.side.1 else r.sAxisTdestR

def mAxisTuser : BitVec uw := if r.state = .hdr then i.sAxis.side.2 else r.sAxisTuserR

def sAxisTready : Bool := if r.state = .lst then false else i.mAxisTready

/-- The header is taken with the first word of a packet only. -/
def headerReady : Bool := decide (r.state = .hdr) && i.sAxisTvalid && i.mAxisTready

/-- The state after the clock edge, outside reset. -/
def nextState : State :=
  match r.state with
  | .hdr =>
    if i.sAxisTvalid && i.mAxisTready then
      if i.sAxis.tlast then
        if strbLeft i && addsHeader alwaysHdr i then .lst else .hdr
      else if addsHeader alwaysHdr i then .mid else .fwd
    else .hdr
  | .mid =>
    if i.sAxisTvalid && i.sAxis.tlast && i.mAxisTready then
      if strbLeft i then .lst else .hdr
    else .mid
  | .lst => if i.mAxisTready then .hdr else .lst
  | .fwd =>
    if alwaysHdr || (i.sAxisTvalid && i.sAxis.tlast && i.mAxisTready) then .hdr else .fwd

/-- The registers after the clock edge, outside reset. -/
def next : Regs H dw uw where
  state := nextState alwaysHdr r i
  restTdataR :=
    if i.sAxisTvalid && sAxisTready r i then i.sAxis.tdata.extractLsb' (8 * (W - H)) (8 * H)
    else r.restTdataR
  restTkeepR :=
    if i.sAxisTvalid && sAxisTready r i then i.sAxis.tkeep.extractLsb' (W - H) H
    else r.restTkeepR
  sAxisTdestR := if r.state = .hdr then i.sAxis.side.1 else r.sAxisTdestR
  sAxisTuserR := if r.state = .hdr then i.sAxis.side.2 else r.sAxisTuserR

/-- The output word. -/
def mAxis : Beat W (Tag dw uw) where
  tdata := mAxisTdata alwaysHdr r i
  tkeep := mAxisTkeep alwaysHdr r i
  tlast := mAxisTlast alwaysHdr r i
  side := (mAxisTdest r i, mAxisTuser r i)

end Wires

/-! ## What should leave -/

/-- The bytes of a header. -/
def headerBytes (h : Option (BitVec (8 * H))) : List (BitVec 8) :=
  match h with
  | none => []
  | some y => lanes y 0 H

/-- **What a packet should come out as**: behind its header, if it has one. -/
def expected (h : Option (BitVec (8 * H))) (q : Packet W (Tag dw uw)) :
    List (View W (Tag dw uw)) :=
  pack W q.side (headerBytes h ++ q.bytes)

/-! ## One word -/

def Regs.tag (r : Regs H dw uw) : Tag dw uw := (r.sAxisTdestR, r.sAxisTuserR)

/-- The lanes kept from the words before. -/
def latched (r : Regs H dw uw) : Option (BitVec (8 * H)) :=
  match r.state with
  | .mid => some r.restTdataR
  | .hdr | .lst | .fwd => none

/-- What leaves in front of the input word: the header, or the lanes kept. -/
def front (r : Regs H dw uw) (i : Inputs W H dw uw) : Option (BitVec (8 * H)) :=
  if r.state = .hdr then if addsHeader alwaysHdr i then some i.header else none
  else latched r

/-- Inside a packet the sideband is latched, and the lanes kept are of a full word. -/
structure Carries (r : Regs H dw uw) (side : Tag dw uw) : Prop where
  tag : r.state ≠ .hdr → r.tag = side
  full : r.state = .mid → r.restTkeepR = lowMask H H
  plain : r.state = .fwd → alwaysHdr = false

/-- The word that is left in `LST`. -/
def lastView (W : Nat) (r : Regs H dw uw) : View W (Tag dw uw) :=
  (⟨overData 0 r.restTdataR, overKeep 0 r.restTkeepR, true, r.tag⟩ : Beat W (Tag dw uw)).view

section Words
variable (hHW : H ≤ W)
include hHW

theorem lanes_overData (x : BitVec (8 * W)) (y : BitVec (8 * H)) {k : Nat} (hk : H + k ≤ W) :
    lanes (overData x y) 0 (H + k) = lanes y 0 H ++ lanes x 0 k := by
  unfold overData sameWidth
  split
  · rename_i hsame
    obtain rfl : k = 0 := by have := of_decide_eq_true hsame; omega
    rw [Nat.add_zero, lanes_zero, List.append_nil]
    exact lanes_congr fun l hl => lane_setWidth y (by omega)
  · rw [lanes_append _ _ hk]
    congr 1
    exact lanes_extractLsb' (m := W - H) x 0 (by omega)

theorem lanes_overData_low (x : BitVec (8 * W)) (y : BitVec (8 * H)) {k : Nat} (hk : k ≤ H) :
    lanes (overData x y) 0 k = lanes y 0 k := by
  unfold overData
  split
  · exact lanes_congr fun l hl => lane_setWidth y (by omega)
  · exact lanes_append_low _ _ hk (by omega)

theorem overKeep_full (k : Nat) :
    overKeep (lowMask W k) (lowMask H H) = lowMask W (H + min k (W - H)) := by
  have hadd : H + (W - H) = W := Nat.add_sub_cancel' hHW
  unfold overKeep sameWidth
  split
  · rename_i hsame
    obtain rfl : W = H := of_decide_eq_true hsame
    simp
  · rw [extract_lowMask_low k (by omega), ← lowMask_min (W - H) k]
    exact append_lowMask_full _ hadd

theorem overKeep_zero {k : Nat} (hk : k ≤ H) :
    overKeep (0 : BitVec W) (lowMask H k) = lowMask W k := by
  have hadd : H + (W - H) = W := Nat.add_sub_cancel' hHW
  unfold overKeep sameWidth
  split
  · rename_i hsame
    obtain rfl : W = H := of_decide_eq_true hsame
    simp
  · have hz : (0 : BitVec W).extractLsb' 0 (W - H) = 0 := by simp
    exact append_lowMask_zero hadd hk

/-- Header or latched lanes, and a word with `k` bytes: what fits into a word. -/
theorem take_headerBytes (y : BitVec (8 * H)) (x : BitVec (8 * W)) (k : Nat) :
    (lanes y 0 H ++ lanes x 0 k).take W = lanes y 0 H ++ lanes x 0 (min k (W - H)) := by
  rw [List.take_append, List.take_of_length_le (by simpa using hHW), length_lanes]
  congr 1
  rcases Nat.le_total k (W - H) with hle | hle
  · rw [Nat.min_eq_left hle, List.take_of_length_le (by simpa using hle)]
  · rw [Nat.min_eq_right hle, take_lanes x 0 hle]

variable {r : Regs H dw uw} {i : Inputs W H dw uw}

theorem strbLeft_lowMask {k : Nat} (hkW : k ≤ W) (hk : i.sAxis.tkeep = lowMask W k) :
    strbLeft i = decide (W < H + k) := by
  rw [strbLeft, hk, extract_lowMask k (by omega)]
  by_cases hlt : W < H + k
  · have hne := lowMask_ne_zero (W := H) (k := k - (W - H)) (by omega) (by omega)
    simp [hlt, hne]
  · have hz : k - (W - H) = 0 := by omega
    simp [hlt, hz]

omit hHW in
/-- The two ways the output word is put together. -/
theorem wires_taken (hs : r.state ≠ .lst) (hr : Carries alwaysHdr r i.sAxis.side) :
    (∃ y, front alwaysHdr r i = some y ∧ mAxisTdata alwaysHdr r i = overData i.sAxis.tdata y ∧
        mAxisTkeep alwaysHdr r i = overKeep i.sAxis.tkeep (lowMask H H) ∧
        mAxisTlast alwaysHdr r i = (!strbLeft i && i.sAxis.tlast)) ∨
      (front alwaysHdr r i = none ∧ mAxisTdata alwaysHdr r i = i.sAxis.tdata ∧
        mAxisTkeep alwaysHdr r i = i.sAxis.tkeep ∧
        mAxisTlast alwaysHdr r i = i.sAxis.tlast) := by
  cases hst : r.state with
  | hdr =>
    cases ha : addsHeader alwaysHdr i with
    | true => exact .inl ⟨i.header, by simp [front, mAxisTdata, mAxisTkeep, mAxisTlast, hst, ha]⟩
    | false => exact .inr (by simp [front, mAxisTdata, mAxisTkeep, mAxisTlast, hst, ha])
  | mid =>
    have hfull := hr.full hst
    exact .inl ⟨r.restTdataR, by
      simp [front, latched, mAxisTdata, mAxisTkeep, mAxisTlast, hst, hfull]⟩
  | lst => exact absurd hst hs
  | fwd => exact .inr (by simp [front, latched, mAxisTdata, mAxisTkeep, mAxisTlast, hst])

omit hHW in
theorem side_taken (hr : Carries alwaysHdr r i.sAxis.side) :
    (mAxisTdest r i, mAxisTuser r i) = i.sAxis.side := by
  by_cases hh : r.state = .hdr
  · simp [mAxisTdest, mAxisTuser, hh]
  · simpa [mAxisTdest, mAxisTuser, hh, Regs.tag] using hr.tag hh

/-- **The word that leaves for a word taken**: what is in front of it and its own bytes,
as far as they fit. -/
theorem view_taken (hs : r.state ≠ .lst) (hr : Carries alwaysHdr r i.sAxis.side) {k : Nat}
    (hkW : k ≤ W) (hk : i.sAxis.tkeep = lowMask W k) :
    (mAxis alwaysHdr r i).view =
      ⟨(headerBytes (front alwaysHdr r i) ++ lanes i.sAxis.tdata 0 k).take W,
        lowMask W (min W ((headerBytes (front alwaysHdr r i)).length + k)),
        decide ((headerBytes (front alwaysHdr r i)).length + k ≤ W) && i.sAxis.tlast,
        i.sAxis.side⟩ := by
  have hside := side_taken alwaysHdr hr
  rcases wires_taken alwaysHdr hs hr with ⟨y, hf, hdata, hkeep, hlast⟩ | ⟨hf, hdata, hkeep, hlast⟩
  · have hmin : H + min k (W - H) = min W (H + k) := by omega
    have hkeep' : mAxisTkeep alwaysHdr r i = lowMask W (H + min k (W - H)) := by
      rw [hkeep, hk, overKeep_full hHW]
    have hbytes : kept (mAxisTdata alwaysHdr r i) (mAxisTkeep alwaysHdr r i) =
        (lanes y 0 H ++ lanes i.sAxis.tdata 0 k).take W := by
      rw [hkeep', kept_lowMask _ (by omega), hdata, lanes_overData hHW _ _ (by omega),
        take_headerBytes hHW]
    have hle : (!decide (W < H + k)) = decide (H + k ≤ W) := by
      rw [← decide_not]
      exact decide_eq_decide.mpr Nat.not_lt
    rw [hf]
    simp only [Beat.view, mAxis, hbytes, hside, headerBytes, length_lanes]
    rw [hkeep', hmin, hlast, strbLeft_lowMask hHW hkW hk, hle]
  · rw [hf]
    simp [Beat.view, mAxis, hdata, hkeep, hlast, hside, headerBytes, hk, kept_lowMask _ hkW, hkW,
      List.take_of_length_le]

omit hHW in
/-- The state after a word: behind by some lanes if something was in front of it. -/
theorem nextState_taken (hs : r.state ≠ .lst) (hr : Carries alwaysHdr r i.sAxis.side)
    (hvalid : i.sAxisTvalid = true) (hready : i.mAxisTready = true) :
    nextState alwaysHdr r i =
      if i.sAxis.tlast then
        if strbLeft i && (front alwaysHdr r i).isSome then .lst else .hdr
      else if (front alwaysHdr r i).isSome then .mid else .fwd := by
  cases hst : r.state with
  | hdr =>
    cases ha : addsHeader alwaysHdr i <;> simp [nextState, front, hst, ha, hvalid, hready]
  | mid => simp [nextState, front, latched, hst, hvalid, hready]
  | lst => exact absurd hst hs
  | fwd => simp [nextState, front, latched, hst, hvalid, hready, hr.plain hst]

omit hHW in
theorem tag_next (hr : Carries alwaysHdr r i.sAxis.side) :
    (next alwaysHdr r i).tag = i.sAxis.side := by
  by_cases hh : r.state = .hdr
  · simp [next, Regs.tag, hh]
  · simpa [next, Regs.tag, hh] using hr.tag hh

/-- What a word with `k` bytes leaves in the registers: its bytes that did not fit. -/
theorem rest_taken (hs : r.state ≠ .lst) (hvalid : i.sAxisTvalid = true)
    (hready : i.mAxisTready = true) {k : Nat} (hkW : k ≤ W)
    (hk : i.sAxis.tkeep = lowMask W k) (y : BitVec (8 * H)) :
    (next alwaysHdr r i).restTkeepR = lowMask H (H + k - W) ∧
      lanes (next alwaysHdr r i).restTdataR 0 (H + k - W) =
        (lanes y 0 H ++ lanes i.sAxis.tdata 0 k).drop W := by
  have htaken : (i.sAxisTvalid && sAxisTready r i) = true := by
    simp [sAxisTready, hs, hready, hvalid]
  have hsub : k - (W - H) = H + k - W := by omega
  constructor
  · simp only [next, htaken, if_true, hk]
    rw [extract_lowMask k (by omega), hsub]
  · simp only [next, htaken, if_true]
    rw [lanes_extractLsb' _ _ (by omega), List.drop_append,
      List.drop_of_length_le (by simpa using hHW), List.nil_append, length_lanes, drop_lanes,
      Nat.zero_add, hsub]

/-- **A full word in the middle of a packet** leaves the bytes that did not fit. -/
theorem next_midBeat (hs : r.state ≠ .lst) (hr : Carries alwaysHdr r i.sAxis.side)
    (hvalid : i.sAxisTvalid = true) (hready : i.mAxisTready = true)
    (hk : i.sAxis.tkeep = lowMask W W) (hlast : i.sAxis.tlast = false)
    (hplain : front alwaysHdr r i = none → alwaysHdr = false) :
    ((next alwaysHdr r i).state = .mid ∨ (next alwaysHdr r i).state = .fwd) ∧
      Carries alwaysHdr (next alwaysHdr r i) i.sAxis.side ∧
      headerBytes (latched (next alwaysHdr r i)) =
        (headerBytes (front alwaysHdr r i) ++ lanes i.sAxis.tdata 0 W).drop W := by
  have hstate : (next alwaysHdr r i).state = _ := nextState_taken alwaysHdr hs hr hvalid hready
  rw [hlast] at hstate
  have htag := tag_next alwaysHdr hr
  cases hf : front alwaysHdr r i with
  | none =>
    have hfwd : (next alwaysHdr r i).state = .fwd := by simpa [hf] using hstate
    refine ⟨.inr hfwd, ⟨fun _ => htag, ?_, fun _ => hplain hf⟩, ?_⟩
    · intro hm
      exact absurd (hfwd.symm.trans hm) (by simp)
    · simp [latched, hfwd, headerBytes, List.drop_of_length_le]
  | some y =>
    have hmid : (next alwaysHdr r i).state = .mid := by simpa [hf] using hstate
    obtain ⟨hkeep, hbytes⟩ := rest_taken alwaysHdr hHW hs hvalid hready (Nat.le_refl W) hk y
    rw [Nat.add_sub_cancel] at hkeep hbytes
    refine ⟨.inl hmid, ⟨fun _ => htag, fun _ => hkeep, ?_⟩, ?_⟩
    · intro hm
      exact absurd (hmid.symm.trans hm) (by simp)
    · simpa [latched, hmid, headerBytes] using hbytes

/-- **The last word of a packet**: with the word that leaves for it and, if lanes are left,
the one after it, the packet is complete. -/
theorem next_endBeat (hW : 0 < W) (hs : r.state ≠ .lst) (hr : Carries alwaysHdr r i.sAxis.side)
    (hvalid : i.sAxisTvalid = true) (hready : i.mAxisTready = true) {k : Nat} (hkW : k ≤ W)
    (hk : i.sAxis.tkeep = lowMask W k) (hlast : i.sAxis.tlast = true) :
    ((next alwaysHdr r i).state = .hdr ∧ (mAxis alwaysHdr r i).tlast = true ∧
        pack W i.sAxis.side (headerBytes (front alwaysHdr r i) ++ lanes i.sAxis.tdata 0 k) =
          [(mAxis alwaysHdr r i).view]) ∨
      ((next alwaysHdr r i).state = .lst ∧ (mAxis alwaysHdr r i).tlast = false ∧
        pack W i.sAxis.side (headerBytes (front alwaysHdr r i) ++ lanes i.sAxis.tdata 0 k) =
          [(mAxis alwaysHdr r i).view, lastView W (next alwaysHdr r i)]) := by
  have hstate : (next alwaysHdr r i).state = _ := nextState_taken alwaysHdr hs hr hvalid hready
  rw [hlast, if_pos rfl, strbLeft_lowMask hHW hkW hk] at hstate
  have hview := view_taken alwaysHdr hHW hs hr hkW hk
  cases hf : front alwaysHdr r i with
  | none =>
    left
    have hhdr : (next alwaysHdr r i).state = .hdr := by simpa [hf] using hstate
    have htlast : (mAxis alwaysHdr r i).view.tlast = true := by
      rw [hview, hf]
      simp [headerBytes, hlast, hkW]
    refine ⟨hhdr, htlast, ?_⟩
    rw [hview, hf, pack_of_le (by simpa [headerBytes] using hkW)]
    simp [headerBytes, hlast, hkW, List.take_of_length_le]
  | some y =>
    rw [hf] at hview hstate
    by_cases hfit : H + k ≤ W
    · left
      have hhdr : (next alwaysHdr r i).state = .hdr := by
        simpa [Nat.not_lt.mpr hfit] using hstate
      have htlast : (mAxis alwaysHdr r i).view.tlast = true := by
        rw [hview]
        simp [headerBytes, hlast, hfit]
      refine ⟨hhdr, htlast, ?_⟩
      rw [hview, pack_of_le (by simpa [headerBytes] using hfit)]
      simp [headerBytes, hlast, hfit, List.take_of_length_le]
    · right
      have hlst : (next alwaysHdr r i).state = .lst := by
        simpa [Nat.lt_of_not_le hfit] using hstate
      have htlast : (mAxis alwaysHdr r i).view.tlast = false := by
        rw [hview]
        simp [headerBytes, hfit]
      refine ⟨hlst, htlast, ?_⟩
      obtain ⟨hkeep, hbytes⟩ := rest_taken alwaysHdr hHW hs hvalid hready hkW hk y
      have hlen : (lanes y 0 H ++ lanes i.sAxis.tdata 0 k).length = H + k := by simp
      have hlastView : lastView W (next alwaysHdr r i) =
          ⟨(lanes y 0 H ++ lanes i.sAxis.tdata 0 k).drop W, lowMask W (H + k - W), true,
            i.sAxis.side⟩ := by
        rw [lastView, Beat.view, hkeep, overKeep_zero hHW (by omega), kept_lowMask _ (by omega),
          lanes_overData_low hHW _ _ (by omega), hbytes, tag_next alwaysHdr hr]
      have hdrop : ((lanes y 0 H ++ lanes i.sAxis.tdata 0 k).drop W).length = H + k - W := by
        rw [List.length_drop, hlen]
      rw [hlastView, hview, pack_of_lt hW (by simp [headerBytes]; omega)]
      simp only [headerBytes]
      rw [pack_of_le (by rw [hdrop]; omega), hdrop]
      have hmin : min W (H + k) = W := by omega
      simp [hfit, hmin]

omit hHW in
/-- Only a packet that is forwarded as it is has nothing in front of its words. -/
theorem plain_of_front (hs : r.state ≠ .lst) (hr : Carries alwaysHdr r i.sAxis.side)
    (hf : front alwaysHdr r i = none) : alwaysHdr = false := by
  cases hst : r.state with
  | hdr =>
    cases alwaysHdr with
    | true => simp [front, addsHeader, hst] at hf
    | false => rfl
  | mid => simp [front, latched, hst] at hf
  | lst => exact absurd hst hs
  | fwd => exact hr.plain hst

/-- **A word of a packet**: the word that leaves for it, and what is owed after it. -/
theorem pack_taken {σ : Type} (hH : 0 < H) (hs : r.state ≠ .lst)
    (hr : Carries alwaysHdr r i.sAxis.side) (hvalid : i.sAxisTvalid = true)
    (hready : i.mAxisTready = true) {q : Packet W σ}
    (hq : front alwaysHdr r i = none → 0 < q.count) (hdata : i.sAxis.tdata = q.head)
    (hkeep : i.sAxis.tkeep = lowMask W q.headCount) (hlast : i.sAxis.tlast = q.body.isEmpty) :
    ∃ owed, pack W i.sAxis.side (headerBytes (front alwaysHdr r i) ++ q.bytes) =
        (mAxis alwaysHdr r i).view :: owed ∧
      (q.body = [] ∧ (next alwaysHdr r i).state = .hdr ∧ owed = [] ∨
        q.body = [] ∧ (next alwaysHdr r i).state = .lst ∧
          owed = [lastView W (next alwaysHdr r i)] ∨
        ∃ d ds, q.body = d :: ds ∧
          (next alwaysHdr r i).state = (if (front alwaysHdr r i).isSome then .mid else .fwd) ∧
          Carries alwaysHdr (next alwaysHdr r i) i.sAxis.side ∧
          owed = pack W i.sAxis.side (headerBytes (latched (next alwaysHdr r i)) ++
            ({ q with body := ds } : Packet W σ).bytes)) := by
  have hpos : 0 < W := Nat.lt_of_lt_of_le hH hHW
  cases hbody : q.body with
  | nil =>
    rw [hbody, List.isEmpty_nil] at hlast
    have hcount : q.headCount = q.count := by simp [Packet.headCount, hbody]
    have hend := next_endBeat alwaysHdr hHW hpos hs hr hvalid hready q.headCount_le hkeep hlast
    rw [hdata, hcount, Packet.head_nil hbody] at hend
    rw [Packet.bytes_nil hbody]
    rcases hend with ⟨hstate, -, hpack⟩ | ⟨hstate, -, hpack⟩
    · exact ⟨[], hpack, .inl ⟨rfl, hstate, rfl⟩⟩
    · exact ⟨_, hpack, .inr (.inl ⟨rfl, hstate, rfl⟩)⟩
  | cons d ds =>
    rw [hbody, List.isEmpty_cons] at hlast
    have hcount : q.headCount = W := by simp [Packet.headCount, hbody]
    rw [hcount] at hkeep
    rw [Packet.head_cons hbody] at hdata
    have hview := view_taken alwaysHdr hHW hs hr (Nat.le_refl W) hkeep
    obtain ⟨-, hcarries, hbytes⟩ := next_midBeat alwaysHdr hHW hs hr hvalid hready hkeep
      hlast (plain_of_front alwaysHdr hs hr)
    have hstate : (next alwaysHdr r i).state = _ := nextState_taken alwaysHdr hs hr hvalid hready
    rw [hlast, if_neg Bool.false_ne_true] at hstate
    have hlen : W ≤ (headerBytes (front alwaysHdr r i) ++ lanes d 0 W).length := by
      rw [List.length_append, length_lanes]
      exact Nat.le_add_left _ _
    -- bytes follow the word: its own top lanes, or those of the words after it
    have hmore : W < (headerBytes (front alwaysHdr r i) ++ (lanes d 0 W ++
        ({ q with body := ds } : Packet W σ).bytes)).length := by
      rw [List.length_append, List.length_append, length_lanes, Packet.length_bytes]
      cases hf : front alwaysHdr r i with
      | none =>
        have := hq hf
        simp only [headerBytes, List.length_nil]
        omega
      | some y =>
        simp only [headerBytes, length_lanes]
        omega
    refine ⟨_, ?_, .inr (.inr ⟨d, ds, rfl, hstate, hcarries, rfl⟩)⟩
    rw [Packet.bytes_cons hbody, pack_of_lt hpos hmore, ← List.append_assoc,
      List.take_append_of_le_length hlen, List.drop_append_of_le_length hlen, hview, hdata,
      hlast, hbytes, hdata, Nat.min_eq_left (Nat.le_add_left _ _), Bool.and_false]
    simp

omit hHW in
/-- In `LST` the lanes kept leave alone. -/
theorem view_lst (hs : r.state = .lst) : (mAxis alwaysHdr r i).view = lastView W r := by
  simp [mAxis, mAxisTdata, mAxisTkeep, mAxisTlast, mAxisTdest, mAxisTuser, hs, lastView, Regs.tag]

omit hHW in
/-- Without a word taken nothing changes inside a packet. -/
theorem next_idle (hs : r.state ≠ .lst) (hplain : r.state = .fwd → alwaysHdr = false)
    (hno : (i.sAxisTvalid && sAxisTready r i) = false) :
    (next alwaysHdr r i).state = r.state ∧ latched (next alwaysHdr r i) = latched r ∧
      ∀ side, Carries alwaysHdr r side → Carries alwaysHdr (next alwaysHdr r i) side := by
  have hno' : (i.sAxisTvalid && i.mAxisTready) = false := by
    simpa [sAxisTready, hs] using hno
  have hthree : (i.sAxisTvalid && i.sAxis.tlast && i.mAxisTready) = false := by
    rw [Bool.and_right_comm, hno', Bool.false_and]
  have hstate : (next alwaysHdr r i).state = r.state := by
    cases hst : r.state with
    | hdr => simp [next, nextState, hst, hno']
    | mid => simp [next, nextState, hst, hthree]
    | lst => exact absurd hst hs
    | fwd => simp [next, nextState, hst, hthree, hplain hst]
  have hrest : (next alwaysHdr r i).restTdataR = r.restTdataR ∧
      (next alwaysHdr r i).restTkeepR = r.restTkeepR := by
    simp [next, hno]
  refine ⟨hstate, by simp only [latched, hstate, hrest.1], fun side hr => ⟨?_, ?_, ?_⟩⟩
  · intro hne
    rw [hstate] at hne
    rw [← hr.tag hne]
    simp [next, Regs.tag, hne]
  · intro hm
    rw [hrest.2]
    exact hr.full (hstate.symm.trans hm)
  · intro hf
    exact hr.plain (hstate.symm.trans hf)

end Words

end Rosebud.HeaderAdder
