import Rosebud.HeaderAdder

/-! # `header_adder_blocking`

The variant of `header_adder` the hash policies use.  A packet waits for its header, and
the header may come with a mark that the packet is to be dropped: then its words are
taken and nothing leaves.  Apart from the waiting and the dropping the module is
`header_adder` word for word (`mAxis_eq`, `next_eq`).

`Owes` says, in every state, which words of the packet that is passing are still to come
and what is still to be put out for them.  `begins` and `Owes.inside` are what a cycle
does between packets and inside of one.
-/
namespace Rosebud.HeaderAdderBlocking
open Lanes AxiStream
open HeaderAdder (Tag overData overKeep lastView)

/-- `HDR` while waiting for a packet and its header, `MID` inside a packet, `LST` when
only the latched lanes are left to send, and `DRP` inside a packet that is dropped. -/
inductive State
  | hdr
  | mid
  | lst
  | drp
deriving DecidableEq, Repr

structure Regs (H dw uw : Nat) where
  state : State
  restTdataR : BitVec (8 * H)
  restTkeepR : BitVec H
  sAxisTdestR : BitVec dw
  sAxisTuserR : BitVec uw
deriving DecidableEq, Repr

structure Inputs (W H dw uw : Nat) where
  sAxis : Beat W (Tag dw uw)
  sAxisTvalid : Bool
  header : BitVec (8 * H)
  drop : Bool
  headerValid : Bool
  mAxisTready : Bool

variable {W H dw uw : Nat} (alwaysHdr : Bool)

/-! ## The module -/

section Wires
variable (r : Regs H dw uw) (i : Inputs W H dw uw)

def strbLeft : Bool := i.sAxis.tkeep.extractLsb' (W - H) H != 0

/-- `header_valid || ALWAYS_HDR`. -/
def hasHeader : Bool := i.headerValid || alwaysHdr

def mAxisTdata : BitVec (8 * W) :=
  match r.state with
  | .hdr => if hasHeader alwaysHdr i then overData i.sAxis.tdata i.header else i.sAxis.tdata
  | .mid => overData i.sAxis.tdata r.restTdataR
  | .lst => overData 0 r.restTdataR
  | .drp => i.sAxis.tdata

def mAxisTkeep : BitVec W :=
  match r.state with
  | .hdr =>
    if hasHeader alwaysHdr i then overKeep i.sAxis.tkeep (BitVec.allOnes H) else i.sAxis.tkeep
  | .mid => overKeep i.sAxis.tkeep r.restTkeepR
  | .lst => overKeep 0 r.restTkeepR
  | .drp => i.sAxis.tkeep

def mAxisTlast : Bool :=
  match r.state with
  | .hdr => if hasHeader alwaysHdr i then !strbLeft i && i.sAxis.tlast && !i.drop else false
  | .mid => !strbLeft i && i.sAxis.tlast
  | .lst => true
  | .drp => false

def mAxisTvalid : Bool :=
  match r.state with
  | .hdr => if hasHeader alwaysHdr i then i.sAxisTvalid && !i.drop else false
  | .mid => i.sAxisTvalid
  | .lst => true
  | .drp => false

def sAxisTready : Bool :=
  match r.state with
  | .hdr => if hasHeader alwaysHdr i then i.mAxisTready || i.drop else false
  | .mid => i.mAxisTready
  | .lst => false
  | .drp => true

def mAxisTdest : BitVec dw := if r.state = .hdr then i.sAxis.side.1 else r.sAxisTdestR

def mAxisTuser : BitVec uw := if r.state = .hdr then i.sAxis.side.2 else r.sAxisTuserR

/-- The header is taken with the first word of a packet only. -/
def headerReady : Bool :=
  decide (r.state = .hdr) && i.sAxisTvalid && (i.mAxisTready || i.drop)

/-- The state after the clock edge, outside reset. -/
def nextState : State :=
  match r.state with
  | .hdr =>
    if i.sAxisTvalid && hasHeader alwaysHdr i then
      if i.drop then (if i.sAxis.tlast then .hdr else .drp)
      else if i.mAxisTready then
        if i.sAxis.tlast then (if strbLeft i then .lst else .hdr) else .mid
      else .hdr
    else .hdr
  | .mid =>
    if i.sAxisTvalid && i.sAxis.tlast && i.mAxisTready then
      if strbLeft i then .lst else .hdr
    else .mid
  | .lst => if i.mAxisTready then .hdr else .lst
  | .drp => if i.sAxisTvalid && i.sAxis.tlast then .hdr else .drp

/-- The registers after the clock edge, outside reset. -/
def next : Regs H dw uw where
  state := nextState alwaysHdr r i
  restTdataR :=
    if i.sAxisTvalid && sAxisTready alwaysHdr r i then
      i.sAxis.tdata.extractLsb' (8 * (W - H)) (8 * H)
    else r.restTdataR
  restTkeepR :=
    if i.sAxisTvalid && sAxisTready alwaysHdr r i then i.sAxis.tkeep.extractLsb' (W - H) H
    else r.restTkeepR
  sAxisTdestR := if r.state = .hdr then i.sAxis.side.1 else r.sAxisTdestR
  sAxisTuserR := if r.state = .hdr then i.sAxis.side.2 else r.sAxisTuserR

/-- The output word. -/
def mAxis : Beat W (Tag dw uw) where
  tdata := mAxisTdata alwaysHdr r i
  tkeep := mAxisTkeep alwaysHdr r i
  tlast := mAxisTlast alwaysHdr r i
  side := (mAxisTdest r i, mAxisTuser r i)

end Wires

/-! ## What should leave -/

/-- What becomes of a word: one leaves, or one is taken and dropped. -/
inductive Out (W dw uw : Nat)
  | word (v : View W (Tag dw uw))
  | dropped (b : Beat W Unit)
deriving DecidableEq

/-- A header as the module gets it, with its mark and the sideband of its packet. -/
structure Header (H dw uw : Nat) where
  drop : Bool
  header : BitVec (8 * H)
  side : Tag dw uw
deriving DecidableEq

/-- **What a packet should come out as**: all of it dropped, or behind its header. -/
def expected (h : Header H dw uw) (q : Packet W Unit) : List (Out W dw uw) :=
  if h.drop then q.beats.map .dropped
  else (pack W h.side (lanes h.header 0 H ++ q.bytes)).map .word

section Cycle
variable (r : Regs H dw uw) (i : Inputs W H dw uw)

def takesWord : Bool := i.sAxisTvalid && sAxisTready false r i

def takesHeader : Bool := i.headerValid && headerReady r i

/-- The word on offer, without the sideband of the next header. -/
def word : Beat W Unit := ⟨i.sAxis.tdata, i.sAxis.tkeep, i.sAxis.tlast, ()⟩

/-- What a cycle puts out. -/
def outs : List (Out W dw uw) :=
  if mAxisTvalid false r i then (if i.mAxisTready then [.word (mAxis false r i).view] else [])
  else if takesWord r i then [.dropped (word i)] else []

/-- The header on offer. -/
def offered : Header H dw uw := ⟨i.drop, i.header, i.sAxis.side⟩

end Cycle

/-! ## The module is `header_adder`, apart from waiting and dropping -/

def Regs.tag (r : Regs H dw uw) : Tag dw uw := (r.sAxisTdestR, r.sAxisTuserR)

/-- The registers as those of `header_adder`, which has no `DRP`. -/
def toAdder (r : Regs H dw uw) : HeaderAdder.Regs H dw uw where
  state := match r.state with
    | .hdr | .drp => .hdr
    | .mid => .mid
    | .lst => .lst
  restTdataR := r.restTdataR
  restTkeepR := r.restTkeepR
  sAxisTdestR := r.sAxisTdestR
  sAxisTuserR := r.sAxisTuserR

/-- The inputs as those of `header_adder`; inside a packet its sideband is the latched
one. -/
def adderInputs (r : Regs H dw uw) (i : Inputs W H dw uw) : HeaderAdder.Inputs W H dw uw where
  sAxis := { i.sAxis with side := if r.state = .hdr then i.sAxis.side else r.tag }
  sAxisTvalid := i.sAxisTvalid
  header := i.header
  headerValid := true
  mAxisTready := i.mAxisTready

section Adder
variable {r : Regs H dw uw} {i : Inputs W H dw uw}

theorem state_of_toAdder (h : r.state ≠ .drp) :
    ((toAdder r).state = .hdr → r.state = .hdr) ∧ ((toAdder r).state = .mid → r.state = .mid) ∧
      ((toAdder r).state = .lst → r.state = .lst) := by
  cases hs : r.state <;> simp_all [toAdder]

/-- The cycles in which the module neither waits for a header nor drops. -/
def Passes (r : Regs H dw uw) (i : Inputs W H dw uw) : Prop :=
  r.state ≠ .drp ∧ (r.state = .hdr → i.headerValid = true ∧ i.drop = false)

theorem mAxis_eq (h : Passes r i) :
    mAxis false r i = HeaderAdder.mAxis true (toAdder r) (adderInputs r i) := by
  obtain ⟨hdrp, hhdr⟩ := h
  cases hs : r.state with
  | hdr =>
    obtain ⟨hv, hd⟩ := hhdr hs
    simp [mAxis, HeaderAdder.mAxis, mAxisTdata, mAxisTkeep, mAxisTlast, mAxisTdest, mAxisTuser,
      HeaderAdder.mAxisTdata, HeaderAdder.mAxisTkeep, HeaderAdder.mAxisTlast,
      HeaderAdder.mAxisTdest, HeaderAdder.mAxisTuser, HeaderAdder.addsHeader, hasHeader,
      HeaderAdder.strbLeft, strbLeft, toAdder, adderInputs, hs, hv, hd]
  | mid =>
    simp [mAxis, HeaderAdder.mAxis, mAxisTdata, mAxisTkeep, mAxisTlast, mAxisTdest, mAxisTuser,
      HeaderAdder.mAxisTdata, HeaderAdder.mAxisTkeep, HeaderAdder.mAxisTlast,
      HeaderAdder.mAxisTdest, HeaderAdder.mAxisTuser, HeaderAdder.strbLeft, strbLeft, toAdder,
      adderInputs, hs]
  | lst =>
    simp [mAxis, HeaderAdder.mAxis, mAxisTdata, mAxisTkeep, mAxisTlast, mAxisTdest, mAxisTuser,
      HeaderAdder.mAxisTdata, HeaderAdder.mAxisTkeep, HeaderAdder.mAxisTlast,
      HeaderAdder.mAxisTdest, HeaderAdder.mAxisTuser, toAdder, hs]
  | drp => exact absurd hs hdrp

theorem next_eq (h : Passes r i) :
    (next false r i).state ≠ .drp ∧
      toAdder (next false r i) = HeaderAdder.next true (toAdder r) (adderInputs r i) := by
  obtain ⟨hdrp, hhdr⟩ := h
  cases hs : r.state with
  | hdr =>
    cases hsv : i.sAxisTvalid <;> cases hm : i.mAxisTready <;> cases hl : i.sAxis.tlast <;>
      cases hb : strbLeft i <;>
      simp_all [next, nextState, toAdder, HeaderAdder.next, HeaderAdder.nextState, adderInputs,
        hasHeader, HeaderAdder.addsHeader, HeaderAdder.strbLeft, strbLeft, sAxisTready,
        HeaderAdder.sAxisTready]
  | mid =>
    cases hsv : i.sAxisTvalid <;> cases hm : i.mAxisTready <;> cases hl : i.sAxis.tlast <;>
      cases hb : strbLeft i <;>
      simp_all [next, nextState, toAdder, HeaderAdder.next, HeaderAdder.nextState, adderInputs,
        HeaderAdder.strbLeft, strbLeft, sAxisTready, HeaderAdder.sAxisTready]
  | lst =>
    cases hm : i.mAxisTready <;>
      simp [next, nextState, toAdder, HeaderAdder.next, HeaderAdder.nextState, adderInputs,
        sAxisTready, HeaderAdder.sAxisTready, hs, hm]
  | drp => exact absurd hs hdrp

end Adder

/-! ## What is owed -/

/-- The packet that is passing has the words `part` to come, and `owed` is still to be put
out for it. -/
def Owes (r : Regs H dw uw) (part : List (Beat W Unit)) (owed : List (Out W dw uw)) : Prop :=
  match r.state with
  | .hdr => part = [] ∧ owed = []
  | .mid => r.restTkeepR = lowMask H H ∧ ∃ q : Packet W Unit, part = q.beats ∧
      owed = (pack W r.tag (lanes r.restTdataR 0 H ++ q.bytes)).map .word
  | .lst => part = [] ∧ owed = [.word (lastView W (toAdder r))]
  | .drp => ∃ q : Packet W Unit, part = q.beats ∧ owed = q.beats.map .dropped

section Step
variable {r : Regs H dw uw} {i : Inputs W H dw uw}

theorem word_eq_firstBeat {q : Packet W Unit} (h : word i = q.firstBeat) :
    i.sAxis.tdata = q.head ∧ i.sAxis.tkeep = lowMask W q.headCount ∧
      i.sAxis.tlast = q.body.isEmpty :=
  ⟨congrArg Beat.tdata h, congrArg Beat.tkeep h, congrArg Beat.tlast h⟩

/-- Between packets, without a header taken, nothing happens. -/
theorem waits (hs : r.state = .hdr) (hno : takesHeader r i = false) :
    takesWord r i = false ∧ outs r i = [] ∧ (next false r i).state = .hdr := by
  have hword : takesWord r i = false := by
    rw [← hno]
    cases hv : i.headerValid <;> cases hsv : i.sAxisTvalid <;>
      simp [takesWord, takesHeader, headerReady, sAxisTready, hasHeader, hs, hv, hsv]
  refine ⟨hword, ?_, ?_⟩
  · cases hv : i.headerValid <;> cases hsv : i.sAxisTvalid <;> cases hm : i.mAxisTready <;>
      cases hd : i.drop <;>
      simp_all [outs, mAxisTvalid, takesHeader, headerReady, hasHeader]
  · cases hv : i.headerValid <;> cases hsv : i.sAxisTvalid <;> cases hm : i.mAxisTready <;>
      cases hd : i.drop <;>
      simp_all [next, nextState, takesHeader, headerReady, hasHeader]

/-- What is owed after a word of a packet that is passed on. -/
theorem owes_taken (hH : 0 < H) (hHW : H ≤ W) (hpass : Passes r i) (hlst : r.state ≠ .lst)
    (hvalid : i.sAxisTvalid = true) (hready : i.mAxisTready = true)
    (hfull : r.state = .mid → r.restTkeepR = lowMask H H) {q : Packet W Unit}
    (hword : word i = q.firstBeat) :
    ∃ owed', (pack W (if r.state = .hdr then i.sAxis.side else r.tag)
        (lanes (if r.state = .hdr then i.header else r.restTdataR) 0 H ++ q.bytes)).map Out.word =
        .word (mAxis false r i).view :: owed' ∧ Owes (next false r i) q.beats.tail owed' := by
  obtain ⟨hdata, hkeep, hlast⟩ := word_eq_firstBeat hword
  obtain ⟨hnd, hnext⟩ := next_eq hpass
  have hstate : (toAdder r).state ≠ .lst := by
    cases hs : r.state <;> simp_all [toAdder]
  have hcarries : HeaderAdder.Carries true (toAdder r) (adderInputs r i).sAxis.side := by
    cases hs : r.state with
    | hdr => constructor <;> simp [toAdder, hs]
    | mid => constructor <;> simp [toAdder, hs, adderInputs, HeaderAdder.Regs.tag, Regs.tag, hfull]
    | lst => exact absurd hs hlst
    | drp => exact absurd hs hpass.1
  have hfront : HeaderAdder.front true (toAdder r) (adderInputs r i) =
      some (if r.state = .hdr then i.header else r.restTdataR) := by
    cases hs : r.state with
    | hdr => simp [HeaderAdder.front, HeaderAdder.addsHeader, toAdder, adderInputs, hs]
    | mid => simp [HeaderAdder.front, HeaderAdder.latched, toAdder, hs]
    | lst => exact absurd hs hlst
    | drp => exact absurd hs hpass.1
  have hsome : HeaderAdder.front true (toAdder r) (adderInputs r i) = none → 0 < q.count := by
    rw [hfront]
    exact fun h => absurd h (by simp)
  obtain ⟨owed, hpack, hcases⟩ := HeaderAdder.pack_taken true hHW hH hstate hcarries hvalid hready
    hsome hdata hkeep hlast
  rw [hfront] at hpack hcases
  rw [← hnext] at hcases
  obtain ⟨hhdr', hmid', hlst'⟩ := state_of_toAdder hnd
  refine ⟨owed.map .word, ?_, ?_⟩
  · rw [mAxis_eq hpass, ← List.map_cons, ← hpack]
    rfl
  rcases hcases with ⟨hq, hs, rfl⟩ | ⟨hq, hs, rfl⟩ | ⟨d, ds, hq, hs, hc, rfl⟩
  · simp [Owes, hhdr' hs, Packet.beats_nil hq]
  · simp [Owes, hlst' hs, Packet.beats_nil hq]
  · have htag : (next false r i).tag = (adderInputs r i).sAxis.side := hc.tag (by rw [hs]; simp)
    have hlatched : HeaderAdder.latched (toAdder (next false r i)) =
        some (next false r i).restTdataR := by
      rw [HeaderAdder.latched, hs]
      rfl
    simp only [Owes, hmid' hs, Packet.beats_cons hq, List.tail_cons]
    exact ⟨hc.full hs, _, rfl, by rw [htag, hlatched]; rfl⟩

/-- **A packet begins** with the word its header is taken with. -/
theorem begins (hH : 0 < H) (hHW : H ≤ W) (hs : r.state = .hdr) (ht : takesHeader r i = true)
    {q : Packet W Unit} (hword : word i = q.firstBeat) :
    takesWord r i = true ∧ ∃ owed', expected (offered i) q = outs r i ++ owed' ∧
      Owes (next false r i) q.beats.tail owed' := by
  simp only [takesHeader, headerReady, Bool.and_eq_true, Bool.or_eq_true, decide_eq_true_eq] at ht
  obtain ⟨hv, ⟨-, hsv⟩, hgo⟩ := ht
  have htakes : takesWord r i = true := by
    rcases hgo with hgo | hgo <;> simp [takesWord, sAxisTready, hasHeader, hs, hv, hsv, hgo]
  refine ⟨htakes, ?_⟩
  cases hd : i.drop with
  | true =>
    have houts : outs r i = [.dropped (word i)] := by
      simp [outs, mAxisTvalid, hasHeader, hs, hv, hd, htakes]
    refine ⟨q.beats.tail.map .dropped, ?_, ?_⟩
    · rw [expected, offered, hd, if_pos rfl, houts, hword, q.beats_eq_cons]
      rfl
    · have hlast := (word_eq_firstBeat hword).2.2
      cases hq : q.body with
      | nil => simp [Owes, next, nextState, hasHeader, hs, hv, hsv, hd, hlast, hq,
          Packet.beats_nil hq]
      | cons d ds =>
        have hdrp : (next false r i).state = .drp := by
          simp [next, nextState, hasHeader, hs, hv, hsv, hd, hlast, hq]
        simp only [Owes, hdrp, Packet.beats_cons hq, List.tail_cons]
        exact ⟨_, rfl, rfl⟩
  | false =>
    have hready : i.mAxisTready = true := by simpa [hd] using hgo
    have hpass : Passes r i := ⟨by simp [hs], fun _ => ⟨hv, hd⟩⟩
    have houts : outs r i = [.word (mAxis false r i).view] := by
      simp [outs, mAxisTvalid, hasHeader, hs, hv, hd, hsv, hready]
    obtain ⟨owed', hpack, howes⟩ := owes_taken hH hHW hpass (by simp [hs]) hsv hready
      (by simp [hs]) hword
    refine ⟨owed', ?_, howes⟩
    rw [houts, List.singleton_append, ← hpack]
    simp [expected, offered, hd, hs]

theorem ne_lst_of_takesWord (h : takesWord r i = true) : r.state ≠ .lst := by
  intro hl
  simp [takesWord, sAxisTready, hl] at h

/-- Inside a packet words of it are to come. -/
theorem Owes.part_ne_nil {part : List (Beat W Unit)} {owed : List (Out W dw uw)}
    (h : Owes r part owed) (hs : r.state ≠ .hdr) (hl : r.state ≠ .lst) : part ≠ [] := by
  cases hst : r.state with
  | hdr => exact absurd hst hs
  | mid =>
    simp only [Owes, hst] at h
    obtain ⟨-, q, rfl, -⟩ := h
    exact q.beats_ne_nil
  | lst => exact absurd hst hl
  | drp =>
    simp only [Owes, hst] at h
    obtain ⟨q, rfl, -⟩ := h
    exact q.beats_ne_nil

/-- **Inside a packet** no header is taken, and what a cycle puts out is what was owed. -/
theorem Owes.inside (hH : 0 < H) (hHW : H ≤ W) {part : List (Beat W Unit)}
    {owed : List (Out W dw uw)} (h : Owes r part owed) (hs : r.state ≠ .hdr)
    (hword : i.sAxisTvalid = true → part ≠ [] → part = word i :: part.tail) :
    takesHeader r i = false ∧ ∃ owed', owed = outs r i ++ owed' ∧
      Owes (next false r i) (if takesWord r i then part.tail else part) owed' := by
  have hhdr : takesHeader r i = false := by simp [takesHeader, headerReady, hs]
  refine ⟨hhdr, ?_⟩
  cases hst : r.state with
  | hdr => exact absurd hst hs
  | mid =>
    simp only [Owes, hst] at h
    obtain ⟨hfull, q, rfl, rfl⟩ := h
    cases hgo : i.sAxisTvalid && i.mAxisTready with
    | true =>
      obtain ⟨hsv, hready⟩ := Bool.and_eq_true_iff.mp hgo
      have hfirst : word i = q.firstBeat := by
        have := hword hsv q.beats_ne_nil
        rw [q.beats_eq_cons] at this
        exact (List.cons.inj this).1.symm
      obtain ⟨owed', hpack, howes⟩ := owes_taken hH hHW ⟨by simp [hst], by simp [hst]⟩
        (by simp [hst]) hsv hready (fun _ => hfull) hfirst
      refine ⟨owed', ?_, ?_⟩
      · simpa [outs, mAxisTvalid, hst, hsv, hready] using hpack
      · simpa [takesWord, sAxisTready, hst, hsv, hready] using howes
    | false =>
      have houts : outs r i = [] := by
        cases hsv : i.sAxisTvalid <;> cases hm : i.mAxisTready <;>
          simp_all [outs, mAxisTvalid, takesWord]
      have htakes : takesWord r i = false := by simpa [takesWord, sAxisTready, hst] using hgo
      have hstate : (next false r i).state = .mid := by
        have hthree : (i.sAxisTvalid && i.sAxis.tlast && i.mAxisTready) = false := by
          rw [Bool.and_right_comm, hgo, Bool.false_and]
        simp [next, nextState, hst, hthree]
      have hrest : (i.sAxisTvalid && sAxisTready false r i) = false := htakes
      refine ⟨_, by rw [houts]; rfl, ?_⟩
      simp only [Owes, hstate, htakes]
      refine ⟨by simpa [next, hrest] using hfull, q, rfl, ?_⟩
      simp [next, hrest, Regs.tag, hst]
  | lst =>
    simp only [Owes, hst] at h
    obtain ⟨rfl, rfl⟩ := h
    have hview : (mAxis false r i).view = lastView W (toAdder r) := by
      rw [mAxis_eq ⟨by simp [hst], by simp [hst]⟩]
      exact HeaderAdder.view_lst true (by simp [toAdder, hst])
    have htakes : takesWord r i = false := by simp [takesWord, sAxisTready, hst]
    cases hm : i.mAxisTready with
    | true =>
      refine ⟨[], by simp [outs, mAxisTvalid, hst, hm, hview], ?_⟩
      simp [Owes, next, nextState, hst, hm]
    | false =>
      refine ⟨_, by simp [outs, mAxisTvalid, hst, hm]; rfl, ?_⟩
      have hstate : (next false r i).state = .lst := by simp [next, nextState, hst, hm]
      have hrest : (i.sAxisTvalid && sAxisTready false r i) = false := htakes
      simp only [Owes, hstate, htakes]
      refine ⟨rfl, ?_⟩
      simp [lastView, toAdder, next, hrest, hst, HeaderAdder.Regs.tag]
  | drp =>
    simp only [Owes, hst] at h
    obtain ⟨q, rfl, rfl⟩ := h
    have htakes : takesWord r i = i.sAxisTvalid := by simp [takesWord, sAxisTready, hst]
    have houts : outs r i = if i.sAxisTvalid then [.dropped (word i)] else [] := by
      simp [outs, mAxisTvalid, hst, htakes]
    rw [houts, htakes]
    cases hsv : i.sAxisTvalid with
    | false =>
      refine ⟨_, rfl, ?_⟩
      simp only [Owes, next, nextState, hst, hsv]
      exact ⟨q, rfl, rfl⟩
    | true =>
      have hfirst : word i = q.firstBeat := by
        have := hword hsv q.beats_ne_nil
        rw [q.beats_eq_cons] at this
        exact (List.cons.inj this).1.symm
      refine ⟨q.beats.tail.map .dropped, ?_, ?_⟩
      · rw [hfirst, q.beats_eq_cons]
        rfl
      · have hlast := (word_eq_firstBeat hfirst).2.2
        cases hq : q.body with
        | nil => simp [Owes, next, nextState, hst, hsv, hlast, hq, Packet.beats_nil hq]
        | cons d ds =>
          have hdrp : (next false r i).state = .drp := by
            simp [next, nextState, hst, hsv, hlast, hq]
          simp only [Owes, hdrp, if_true, Packet.beats_cons hq, List.tail_cons]
          exact ⟨_, rfl, rfl⟩

end Step

end Rosebud.HeaderAdderBlocking
