import Rosebud.DmaWrite

/-! # What the write half of `axis_dma` is doing

The registers of the circuit are related to a small machine (`Progress`) that knows
which packet it is in, which of its words it holds and where the next byte goes.
`Matches` says what the registers hold in each of its stages, and `follows_step` is the
simulation: every cycle of the circuit is a step of that machine.

What is written and what is reported about a packet are then facts about the machine;
`DmaStores` and `RecvDesc` derive them.
-/
namespace Rosebud.DmaWrite
open Clocked Lanes AxiStream ByteStore

variable {P : Config}

/-! ## What the circuit is doing -/

/-- The lanes of a packet's first memory word that belong to it. -/
def room (p : Pkt P) : Nat := P.strbWidth - p.side.wrBaseAddr.toNat % P.strbWidth

theorem room_le (p : Pkt P) : room p ≤ P.strbWidth := Nat.sub_le _ _

/-- The writes of a packet. -/
def stores (p : Pkt P) : List (Store P.addrWidth) :=
  storesFrom (room p) p.final p.count p.body p.side.wrBaseAddr []

/-- A place inside a packet: the words of it from here on, where their first byte goes
or, if bytes of the word before are still to be written, those, and how many bytes have
been written. -/
structure Pos (P : Config) where
  pkt : Pkt P
  left : List (Word P)
  start : BitVec P.addrWidth
  carry : List (BitVec 8)
  written : Nat
  total : written + carry.length + ({ pkt with body := left } : Pkt P).bytes.length =
    pkt.bytes.length

namespace Pos
variable (x : Pos P)

/-- The words from here on, as a packet. -/
def words : Pkt P := { x.pkt with body := x.left }

def begin (p : Pkt P) : Pos P := ⟨p, p.body, p.side.wrBaseAddr, [], 0, by simp⟩

/-- How many bytes the write of the word here stores, if it is full. -/
def share : Nat := x.carry.length + room x.pkt

/-- The place one word on. -/
def advance (w : Word P) (ws : List (Word P)) (h : x.left = w :: ws) : Pos P where
  pkt := x.pkt
  left := ws
  start := x.start + BitVec.ofNat _ x.share
  carry := lanes w (room x.pkt) (P.strbWidth - room x.pkt)
  written := x.written + x.share
  total := by
    have ht := x.total
    have hr := room_le x.pkt
    rw [Packet.bytes_cons (p := { x.pkt with body := x.left }) h] at ht
    simp only [List.length_append, length_lanes] at ht ⊢
    unfold share
    omega

section Word
variable {x}

theorem head_cons {w : Word P} {ws : List (Word P)} (h : x.left = w :: ws) : x.words.head = w :=
  Packet.head_cons (p := x.words) h

theorem headCount_cons {w : Word P} {ws : List (Word P)} (h : x.left = w :: ws) :
    x.words.headCount = P.strbWidth := by
  simp [Packet.headCount, words, h]

theorem head_last (h : x.left = []) : x.words.head = x.pkt.final :=
  Packet.head_nil (p := x.words) h

theorem headCount_last (h : x.left = []) : x.words.headCount = x.pkt.count := by
  simp [Packet.headCount, words, h]

end Word

def owed : List (Store P.addrWidth) :=
  storesFrom (room x.pkt) x.pkt.final x.pkt.count x.left x.start x.carry

/-- The write after the last word. -/
def extraStore : Store P.addrWidth :=
  ⟨place (x.start + BitVec.ofNat _ x.share)
    (lanes x.pkt.final (room x.pkt) (x.pkt.count - room x.pkt)), true⟩

end Pos

/-- What the circuit is doing: nothing; holding a word it wants to write; waiting for
the next word of a packet; or writing what is left of the last word. -/
inductive Stage (P : Config) where
  | idle
  | hold (x : Pos P)
  | gap (x : Pos P)
  | extra (x : Pos P)

/-- A stage and the packets that have not begun. -/
structure Progress (P : Config) where
  stage : Stage P
  todo : List (Pkt P)

namespace Stage

/-- The words of the packet under way that have not been taken. -/
def beats : Stage P → List (Beat P.strbWidth (Side P))
  | idle => []
  | hold x => x.words.beats.tail
  | gap x => x.words.beats
  | extra _ => []

/-- The next word is not the first of a packet. -/
def mid : Stage P → Bool
  | idle => false
  | hold x => !x.left.isEmpty
  | gap _ => true
  | extra _ => false

/-- The packet under way. -/
def current : Stage P → List (Pkt P)
  | idle => []
  | hold x => [x.pkt]
  | gap x => [x.pkt]
  | extra x => [x.pkt]

/-- The writes of the packet under way that have not been made. -/
def owed : Stage P → List (Store P.addrWidth)
  | idle => []
  | hold x => x.owed
  | gap x => x.owed
  | extra x => [x.extraStore]

end Stage

namespace Progress

/-- The next packet begins. -/
def beginNext : List (Pkt P) → Progress P
  | [] => ⟨.idle, []⟩
  | p :: ps => ⟨.hold (Pos.begin p), ps⟩

/-- A cycle in which the memory is ready or not and a word is taken or not. -/
def next (a : Progress P) (ready taken : Bool) : Progress P :=
  match a.stage with
  | .idle => if taken then beginNext a.todo else a
  | .gap x => if taken then ⟨.hold x, a.todo⟩ else a
  | .extra _ => if !ready then a else if taken then beginNext a.todo else ⟨.idle, a.todo⟩
  | .hold x =>
    if !ready then a
    else
      match h : x.left with
      | w :: ws =>
        if taken then ⟨.hold (x.advance w ws h), a.todo⟩ else ⟨.gap (x.advance w ws h), a.todo⟩
      | [] =>
        if room x.pkt < x.pkt.count then ⟨.extra x, a.todo⟩
        else if taken then beginNext a.todo
        else ⟨.idle, a.todo⟩

def pending (a : Progress P) : List (Beat P.strbWidth (Side P)) :=
  a.stage.beats ++ a.todo.flatMap Packet.beats

def owed (a : Progress P) : List (Store P.addrWidth) := a.stage.owed ++ a.todo.flatMap stores

section Next
variable {todo : List (Pkt P)} {x : Pos P} (taken : Bool)

theorem next_hold_cons {w : Word P} {ws : List (Word P)} (h : x.left = w :: ws) :
    next ⟨.hold x, todo⟩ true taken =
      if taken then ⟨.hold (x.advance w ws h), todo⟩ else ⟨.gap (x.advance w ws h), todo⟩ := by
  simp only [next, Bool.not_true, Bool.false_eq_true, if_false]
  split
  · rename_i w' ws' h'
    obtain ⟨rfl, rfl⟩ := List.cons.inj (h'.symm.trans h)
    rfl
  · rename_i h'
    exact absurd (h'.symm.trans h) (by simp)

theorem next_hold_nil (h : x.left = []) :
    next ⟨.hold x, todo⟩ true taken =
      if room x.pkt < x.pkt.count then ⟨.extra x, todo⟩
      else if taken then beginNext todo
      else ⟨.idle, todo⟩ := by
  simp only [next, Bool.not_true, Bool.false_eq_true, if_false]
  split
  · rename_i w' ws' h'
    exact absurd (h'.symm.trans h) (by simp)
  · rfl

end Next

/-- The packets whose last write has not been made. -/
def unfinished (a : Progress P) : List (Pkt P) := a.stage.current ++ a.todo

/-- The packet whose last write is made in this cycle. -/
def finishing (a : Progress P) (ready : Bool) : Option (Pkt P) :=
  match a.stage with
  | .hold x =>
    if ready && (x.left.isEmpty && decide (x.pkt.count ≤ room x.pkt)) then some x.pkt else none
  | .extra x => if ready then some x.pkt else none
  | _ => none

theorem unfinished_beginNext (todo : List (Pkt P)) : (beginNext todo).unfinished = todo := by
  cases todo <;> rfl

/-- A cycle finishes the first of the unfinished packets, or none. -/
theorem unfinished_next (a : Progress P) (ready taken : Bool) :
    a.unfinished = (a.finishing ready).toList ++ (a.next ready taken).unfinished := by
  obtain ⟨st, todo⟩ := a
  have hafter :
      (if taken then beginNext todo else ⟨.idle, todo⟩ : Progress P).unfinished = todo := by
    cases taken
    · rfl
    · exact unfinished_beginNext todo
  cases st with
  | idle =>
    exact hafter.symm
  | gap x => cases taken <;> rfl
  | extra x =>
    cases ready with
    | false => rfl
    | true =>
      change x.pkt :: todo =
        x.pkt :: (if taken then beginNext todo else ⟨.idle, todo⟩ : Progress P).unfinished
      rw [hafter]
  | hold x =>
    cases ready with
    | false => rfl
    | true =>
      cases hx : x.left with
      | cons w ws =>
        rw [next_hold_cons _ hx]
        cases taken <;> simp [finishing, hx, unfinished, Stage.current, Pos.advance]
      | nil =>
        rw [next_hold_nil _ hx]
        by_cases hover : room x.pkt < x.pkt.count
        · simp [finishing, hx, hover, unfinished, Stage.current]
        · rw [if_neg hover, hafter]
          simp [finishing, hx, Nat.le_of_not_lt hover, unfinished, Stage.current]

theorem unfinished_suffix (a : Progress P) (ready taken : Bool) :
    (a.next ready taken).unfinished <:+ a.unfinished :=
  ⟨_, (a.unfinished_next ready taken).symm⟩

/-- Packets begin in their order. -/
theorem todo_next (a : Progress P) (ready taken : Bool) :
    (a.next ready taken).todo <:+ a.todo := by
  have hbegin : ∀ todo : List (Pkt P), (beginNext todo).todo <:+ todo := by
    intro todo
    cases todo with
    | nil => exact List.suffix_refl _
    | cons p ps => exact List.suffix_cons p ps
  obtain ⟨st, todo⟩ := a
  unfold next
  split
  · split
    · exact hbegin todo
    · exact List.suffix_refl _
  · split <;> exact List.suffix_refl _
  · split
    · exact List.suffix_refl _
    · split
      · exact hbegin todo
      · exact List.suffix_refl _
  · split
    · exact List.suffix_refl _
    · split
      · split <;> exact List.suffix_refl _
      · split
        · exact List.suffix_refl _
        · split
          · exact hbegin todo
          · exact List.suffix_refl _

end Progress

/-! ## How the registers follow -/

/-- The registers latched from the first word of `p`. -/
structure Latched (r : Regs P) (p : Pkt P) : Prop where
  wrStateR : r.wrStateR = .proc
  wrStartAddr : r.wrStartAddr = p.side.wrBaseAddr
  wrTdest : r.wrTdest = p.side.tdest
  wrTuser : r.wrTuser = p.side.tuser
  wrOffset : r.wrOffset.toNat = room p

/-- Nothing of the packet has been written. -/
structure AtFront (r : Regs P) (x : Pos P) : Prop where
  wrFirstPkt : r.wrFirstPkt = true
  wrStrb2 : r.wrStrb2 = 0
  start : x.start = x.pkt.side.wrBaseAddr
  carry : x.carry = []
  written : x.written = 0

/-- The second register holds the word before. -/
structure Behind (r : Regs P) (x : Pos P) : Prop where
  wrFirstPkt : r.wrFirstPkt = false
  wrStrb2 : r.wrStrb2 = BitVec.allOnes _
  carry : x.carry = lanes r.wrData2 (room x.pkt) (P.strbWidth - room x.pkt)
  nextWrAddr : r.nextWrAddr = x.start
  wrPktLen : r.wrPktLen = BitVec.ofNat _ x.written

/-- The first register holds the first word of `q`. -/
structure Holds (r : Regs P) (off : Nat) (q : Pkt P) : Prop where
  wrDataEn : r.wrDataEn = true
  extraCycleR : r.extraCycleR = false
  wrData1 : r.wrData1 = q.head
  wrStrb1 : r.wrStrb1 = lowMask _ q.headCount
  wrLast : r.wrLast = q.body.isEmpty
  wrStrbLeft : r.wrStrbLeft = decide (off < q.headCount)

structure Quiet (r : Regs P) : Prop where
  wrStateR : r.wrStateR = .idle
  wrDataEn : r.wrDataEn = false
  extraCycle : extraCycle r = false
  extraCycleR : r.extraCycleR = false
  wrFirstPkt : r.wrFirstPkt = false
  wrStrb2 : r.wrStrb2 = 0

structure Waits (r : Regs P) : Prop where
  wrDataEn : r.wrDataEn = false
  extraCycleR : r.extraCycleR = false
  wrLast : r.wrLast = false

/-- The second register holds the last word, which has not been written in full. -/
structure Overhangs (r : Regs P) (x : Pos P) : Prop where
  left : x.left = []
  room_lt : room x.pkt < x.pkt.count
  wrDataEn : r.wrDataEn = true
  extraCycleR : r.extraCycleR = true
  wrLast : r.wrLast = false
  wrFirstPkt : r.wrFirstPkt = false
  wrStrb1 : r.wrStrb1 = 0
  wrStrb2 : r.wrStrb2 = lowMask _ x.pkt.count
  wrData2 : r.wrData2 = x.pkt.final
  nextWrAddr : r.nextWrAddr = x.start + BitVec.ofNat _ x.share
  wrPktLen : r.wrPktLen = BitVec.ofNat _ (x.written + x.share)

def Matches (r : Regs P) : Stage P → Prop
  | .idle => Quiet r
  | .hold x => Latched r x.pkt ∧ (AtFront r x ∨ Behind r x) ∧ Holds r (room x.pkt) x.words
  | .gap x => Latched r x.pkt ∧ Behind r x ∧ Waits r
  | .extra x => Latched r x.pkt ∧ Overhangs r x

/-- The bench is where `a` says. -/
structure Follows (b : Bench P) (a : Progress P) : Prop where
  regs : Matches b.regs a.stage
  pending : b.pending = a.pending
  mid : b.mid = a.stage.mid

/-! ### Addresses and strobes -/

theorem toNat_offsetOf (base : BitVec P.addrWidth) :
    (offsetOf base).toNat = P.strbWidth - base.toNat % P.strbWidth := by
  have hpos := Nat.two_pow_pos P.maskBits
  have hlow : ((base.extractLsb' 0 P.maskBits).setWidth (P.maskBits + 1)).toNat =
      base.toNat % 2 ^ P.maskBits := by
    rw [BitVec.toNat_setWidth, BitVec.extractLsb'_toNat, Nat.shiftRight_zero]
    exact Nat.mod_eq_of_lt (by omega)
  have htop : (BitVec.ofNat (P.maskBits + 1) (2 ^ P.maskBits)).toNat = 2 ^ P.maskBits := by
    exact Nat.mod_eq_of_lt (by omega)
  rw [offsetOf, BitVec.toNat_sub_of_le (by rw [BitVec.le_def, hlow, htop]; omega), hlow, htop]
  rfl

theorem aligned_add (base : BitVec P.addrWidth) :
    (base >>> P.maskBits) <<< P.maskBits +
      BitVec.ofNat _ (base.toNat % P.strbWidth) = base := by
  apply BitVec.eq_of_toNat_eq
  have hdiv := Nat.div_add_mod base.toNat (2 ^ P.maskBits)
  rw [Nat.mul_comm] at hdiv
  have hbase := base.isLt
  have hmod : base.toNat % 2 ^ P.maskBits < 2 ^ P.addrWidth := by omega
  rw [BitVec.toNat_add, BitVec.toNat_shiftLeft, BitVec.toNat_ushiftRight, BitVec.toNat_ofNat,
    Nat.shiftRight_eq_div_pow, Nat.shiftLeft_eq]
  change ((base.toNat / 2 ^ P.maskBits * 2 ^ P.maskBits) % 2 ^ P.addrWidth +
    base.toNat % 2 ^ P.maskBits % 2 ^ P.addrWidth) % 2 ^ P.addrWidth = base.toNat
  have hquot : base.toNat / 2 ^ P.maskBits * 2 ^ P.maskBits < 2 ^ P.addrWidth := by omega
  rw [Nat.mod_eq_of_lt hmod, Nat.mod_eq_of_lt hquot, hdiv, Nat.mod_eq_of_lt hbase]

theorem strbWidth_sub_room (p : Pkt P) :
    P.strbWidth - room p = p.side.wrBaseAddr.toNat % P.strbWidth := by
  have := Nat.mod_lt p.side.wrBaseAddr.toNat P.strbWidth_pos
  unfold room
  omega

/-- Bytes are left over exactly if the strobe reaches past the offset. -/
theorem strb_left {count off : Nat} (hle : count ≤ P.strbWidth) :
    decide (lowMask P.strbWidth count >>> off ≠ 0) = decide (off < count) := by
  refine decide_eq_decide.mpr ⟨fun hne => ?_, fun hlt heq => ?_⟩
  · by_contra hge
    refine hne (BitVec.eq_of_getLsbD_eq fun i hi => ?_)
    rw [BitVec.getLsbD_ushiftRight, getLsbD_lowMask]
    simp
    omega
  · have hbit := congrArg (fun x => x.getLsbD 0) heq
    simp [BitVec.getLsbD_ushiftRight, getLsbD_lowMask] at hbit
    omega

/-! ### The write on offer -/

section Offer
variable {r : Regs P} {x : Pos P}

theorem hold_keptAt (h : Matches r (.hold x)) :
    keptAt (wrAddr r) (memWrData r) (memWrStrb r) =
      place x.start (x.carry ++ lanes x.words.head 0 (min x.words.headCount (room x.pkt))) := by
  obtain ⟨hl, hpos, hh⟩ := h
  unfold memWrData memWrStrb
  rw [hl.wrOffset, hh.wrData1, hh.wrStrb1]
  rcases hpos with hf | hb
  · rw [hf.wrStrb2, keptAt_window_first _ (room_le _), wrAddr, if_pos hf.wrFirstPkt,
      wrAlignedAddr, hl.wrStartAddr, strbWidth_sub_room, aligned_add, hf.start, hf.carry,
      List.nil_append]
  · rw [hb.wrStrb2, keptAt_window_mid _ (room_le _), wrAddr, hb.wrFirstPkt, hb.nextWrAddr,
      hb.carry]
    rfl

theorem hold_extraCycle (h : Matches r (.hold x)) :
    extraCycle r = (x.left.isEmpty && decide (room x.pkt < x.pkt.count)) := by
  obtain ⟨-, -, hh⟩ := h
  rw [extraCycle, hh.wrLast, hh.wrStrbLeft]
  change (x.left.isEmpty && _) = _
  cases hx : x.left with
  | nil => simp [Pos.words, Packet.headCount, hx]
  | cons w ws => rfl

theorem hold_wrLastPkt (h : Matches r (.hold x)) :
    wrLastPkt r = (x.left.isEmpty && decide (x.pkt.count ≤ room x.pkt)) := by
  have hextra := hold_extraCycle h
  obtain ⟨-, -, hh⟩ := h
  rw [wrLastPkt, hh.wrDataEn, hh.extraCycleR, hextra, hh.wrLast]
  change (true && ((x.left.isEmpty && _) || false)) = _
  by_cases hlt : room x.pkt < x.pkt.count
  · simp [hlt]
  · simp [hlt, Nat.le_of_not_lt hlt]

theorem gap_wires (h : Matches r (.gap x)) : extraCycle r = false ∧ wrLastPkt r = false := by
  obtain ⟨-, -, hw⟩ := h
  exact ⟨by simp [extraCycle, hw.wrLast], by simp [wrLastPkt, hw.wrDataEn]⟩

theorem extra_wires (h : Matches r (.extra x)) : extraCycle r = false ∧ wrLastPkt r = true := by
  obtain ⟨-, ho⟩ := h
  exact ⟨by simp [extraCycle, ho.wrLast], by simp [wrLastPkt, ho.wrDataEn, ho.extraCycleR]⟩

theorem quiet_wires (h : Quiet r) : wrLastPkt r = false := by
  simp [wrLastPkt, h.wrDataEn]

theorem extra_store (h : Matches r (.extra x)) : store r = x.extraStore := by
  have hwires := extra_wires h
  obtain ⟨hl, ho⟩ := h
  unfold store memWrData memWrStrb
  rw [hwires.2, hl.wrOffset, ho.wrStrb1, ho.wrStrb2, ho.wrData2,
    keptAt_window_last _ (Nat.le_of_lt ho.room_lt) x.pkt.count_le, wrAddr, ho.wrFirstPkt,
    ho.nextWrAddr]
  rfl

/-- The write of a word that more words of its packet follow. -/
theorem hold_store_cons (h : Matches r (.hold x)) {w : Word P} {ws : List (Word P)}
    (hx : x.left = w :: ws) :
    x.owed = store r :: (x.advance w ws hx).owed := by
  have hhead := Pos.head_cons hx
  have hcount := Pos.headCount_cons hx
  rw [store, hold_keptAt h, hold_wrLastPkt h, hhead, hcount, Nat.min_eq_right (room_le _)]
  simp [Pos.owed, hx, storesFrom, Pos.advance, Pos.share]

/-- The write of the last word, if it fits. -/
theorem hold_store_fits (h : Matches r (.hold x)) (hx : x.left = [])
    (hfit : x.pkt.count ≤ room x.pkt) : x.owed = [store r] := by
  have hhead := Pos.head_last hx
  have hcount := Pos.headCount_last hx
  rw [store, hold_keptAt h, hold_wrLastPkt h, hhead, hcount, Nat.min_eq_left hfit]
  simp [Pos.owed, hx, storesFrom, hfit]

/-- The first write of a last word that does not fit. -/
theorem hold_store_over (h : Matches r (.hold x)) (hx : x.left = [])
    (hover : room x.pkt < x.pkt.count) : x.owed = [store r, x.extraStore] := by
  have hhead := Pos.head_last hx
  have hcount := Pos.headCount_last hx
  have hnot : ¬ x.pkt.count ≤ room x.pkt := Nat.not_le.mpr hover
  rw [store, hold_keptAt h, hold_wrLastPkt h, hhead, hcount, Nat.min_eq_right (by omega)]
  simp [Pos.owed, hx, storesFrom, hnot, Pos.extraStore, Pos.share]

end Offer

/-! ### Lengths -/

section Length

/-- The loop counts the ones. -/
theorem foldr_ones {n : Nat} (p : Nat → Bool) (js : List Nat) (top : Nat)
    (htop : js.length ≤ top) :
    js.foldr (fun i count => if !p i then count - 1 else count) (BitVec.ofNat n top) =
      BitVec.ofNat n (top - js.length + (js.filter p).length) := by
  induction js with
  | nil => simp
  | cons j js ih =>
    rw [List.length_cons] at htop
    rw [List.foldr_cons, ih (by omega)]
    cases hj : p j with
    | true =>
      rw [List.filter_cons_of_pos hj, List.length_cons, List.length_cons]
      simp only [Bool.not_true, Bool.false_eq_true, if_false]
      congr 1
      omega
    | false =>
      rw [List.filter_cons_of_neg (by simp [hj]), List.length_cons]
      rw [show top - js.length + (js.filter p).length =
        (top - (js.length + 1) + (js.filter p).length) + 1 by omega, BitVec.ofNat_add]
      exact BitVec.add_sub_cancel _ _

/-- The count, in the width of the lengths, is the number of bytes stored. -/
theorem oneCount_eq {n : Nat} (addr : BitVec P.addrWidth) (data : BitVec n)
    (strb : BitVec P.strbWidth) :
    (oneCount strb).setWidth P.lenWidth =
      BitVec.ofNat P.lenWidth (keptAt addr data strb).length := by
  have hle : ((List.range P.strbWidth).filter strb.getLsbD).length ≤ P.strbWidth := by
    simpa using List.length_filter_le strb.getLsbD (List.range P.strbWidth)
  have hpow : 2 ^ (P.maskBits + 1) = P.strbWidth * 2 := Nat.pow_succ ..
  have hpos := P.strbWidth_pos
  rw [oneCount, foldr_ones _ _ _ (by simp), List.length_range, Nat.sub_self, Nat.zero_add, keptAt,
    List.length_map]
  apply BitVec.eq_of_toNat_eq
  rw [BitVec.toNat_setWidth, BitVec.toNat_ofNat, BitVec.toNat_ofNat,
    Nat.mod_eq_of_lt (a := List.length _) (by omega)]

variable {r : Regs P} {x : Pos P}

theorem hold_len (h : Matches r (.hold x)) : nextWrPktLen r =
    BitVec.ofNat _ (x.written + (x.carry.length + min x.words.headCount (room x.pkt))) := by
  have hkept := congrArg List.length (hold_keptAt h)
  rw [length_place, List.length_append, length_lanes] at hkept
  rw [nextWrPktLen, oneCount_eq (wrAddr r) (memWrData r), hkept]
  obtain ⟨-, hf | hb, -⟩ := h
  · rw [if_pos hf.wrFirstPkt, hf.written, Nat.zero_add]
  · rw [hb.wrFirstPkt, if_neg Bool.false_ne_true, hb.wrPktLen, ← BitVec.ofNat_add]

theorem extra_len (h : Matches r (.extra x)) :
    nextWrPktLen r = BitVec.ofNat _ x.pkt.bytes.length := by
  have hkept : (keptAt (wrAddr r) (memWrData r) (memWrStrb r)).length =
      x.pkt.count - room x.pkt := by
    have hs := congrArg (fun s => s.bytes.length) (extra_store h)
    simpa [store, Pos.extraStore] using hs
  rw [nextWrPktLen, oneCount_eq (wrAddr r) (memWrData r), hkept]
  obtain ⟨-, ho⟩ := h
  rw [ho.wrFirstPkt, if_neg Bool.false_ne_true, ho.wrPktLen, ← BitVec.ofNat_add]
  congr 1
  have ht := x.total
  have hlt := ho.room_lt
  rw [Packet.bytes_nil (p := { x.pkt with body := x.left }) ho.left, length_lanes] at ht
  unfold Pos.share
  simp only at ht
  omega

/-- Behind the word here the address is the one of the next memory word. -/
theorem hold_wrAddr (h : Matches r (.hold x)) :
    wrAddr r + BitVec.ofNat _ P.strbWidth = x.start + BitVec.ofNat _ x.share := by
  obtain ⟨hl, hf | hb, -⟩ := h
  · have hsub := strbWidth_sub_room x.pkt
    have hle := room_le x.pkt
    rw [wrAddr, if_pos hf.wrFirstPkt, wrAlignedAddr, hl.wrStartAddr, hf.start, Pos.share, hf.carry,
      List.length_nil, Nat.zero_add]
    conv_rhs => rw [← aligned_add x.pkt.side.wrBaseAddr]
    rw [BitVec.add_assoc, ← BitVec.ofNat_add]
    congr 2
    omega
  · have hle := room_le x.pkt
    rw [wrAddr, hb.wrFirstPkt, if_neg Bool.false_ne_true, hb.nextWrAddr, Pos.share, hb.carry,
      length_lanes, Nat.sub_add_cancel hle]

end Length

/-! ### One cycle -/

section Accept
variable {b : Bench P} {c : Cycle P}

/-- What it takes to take a word, and which one is taken. -/
theorem accepts_spec (h : b.accepts c = true) :
    c.memWrReady = true ∧ extraCycle b.regs = false ∧
      ∃ beat later, b.pending = beat :: later ∧
        (b.inputs c).sAxis.tdata = beat.tdata ∧ (b.inputs c).sAxis.tkeep = beat.tkeep ∧
        (b.inputs c).sAxis.tlast = beat.tlast ∧
        (b.mid = false → (b.inputs c).sAxis.side = beat.side) := by
  obtain ⟨hv, hr⟩ := Bool.and_eq_true_iff.mp h
  simp only [sAxisTready, Bool.and_eq_true] at hr
  obtain ⟨⟨hready, hextra⟩, -⟩ := hr
  refine ⟨hready, by simpa using hextra, ?_⟩
  obtain ⟨later, hp⟩ := bus_of_valid hv
  refine ⟨_, later, hp, ?_⟩
  simp only [Bench.inputs]
  cases b.mid <;> simp

/-- A word taken is held by the first register. -/
theorem holds_next {q : Pkt P} {off : Nat} (h : b.accepts c = true)
    (hr : writes b.regs (b.inputs c) = false → b.regs.extraCycleR = false)
    (hq : b.pending = q.beats ++ later)
    (hoff : (next b.regs (b.inputs c)).wrOffset.toNat = off) :
    Holds (next b.regs (b.inputs c)) off q := by
  obtain ⟨hready, hextra, beat, rest', hp, hdata, hkeep, hlast, -⟩ := accepts_spec h
  rw [hq, q.beats_eq_cons, List.cons_append] at hp
  obtain ⟨rfl, -⟩ := List.cons.inj hp
  have hacc : DmaWrite.accepts b.regs (b.inputs c) = true := h
  constructor
  · simp [next, hacc]
  · simp only [next]
    split
    · exact hextra
    · exact hr (Bool.not_eq_true _ ▸ ‹_›)
  · simp [next, hextra, hacc, hdata, Packet.firstBeat]
  · simp [next, hextra, hacc, hkeep, Packet.firstBeat]
  · simp [next, hextra, hacc, hlast, Packet.firstBeat]
  · simp only [next, nextWrStrbLeft, hextra, hacc, hkeep, Packet.firstBeat] at hoff ⊢
    rw [← hoff]
    simp only [Bool.false_and, Bool.false_eq_true, if_false, if_true]
    split <;> exact strb_left q.headCount_le

theorem not_accepts_of_stalled (h : c.memWrReady = false) : b.accepts c = false := by
  simp [Bench.accepts, accepts, sAxisTready, Bench.inputs, h]

end Accept

section Regs
variable {r : Regs P} {i : Inputs P}

theorem latched_begin {p : Pkt P} (h : latchInfo r i = true) (hside : i.sAxis.side = p.side) :
    Latched (next r i) p := by
  have hacc := (Bool.and_eq_true_iff.mp h).2
  refine ⟨?_, by simp [next, h, hside], by simp [next, h, hside], by simp [next, h, hside], ?_⟩
  · change nextWrState r i = .proc
    unfold nextWrState
    cases hs : r.wrStateR <;> simp [hacc]
  · simp only [next, h, if_true, toNat_offsetOf, hside]
    rfl

theorem latched_keep {p : Pkt P} (h : latchInfo r i = false) (hl : Latched r p)
    (hend : (wrLastPkt r && i.memWrReady && !accepts r i) = false) : Latched (next r i) p := by
  refine ⟨?_, by simp [next, h, hl.wrStartAddr], by simp [next, h, hl.wrTdest],
    by simp [next, h, hl.wrTuser], by simp [next, h, hl.wrOffset]⟩
  change nextWrState r i = .proc
  simp [nextWrState, hl.wrStateR, hend]

/-- Inside a packet nothing is latched before its last write. -/
theorem latchInfo_of_proc {p : Pkt P} (hl : Latched r p) :
    latchInfo r i = (wrLastPkt r && i.memWrReady && accepts r i) := by
  simp [latchInfo, hl.wrStateR]

/-- A cycle without a transfer on either side only concerns the descriptors. -/
theorem stall {st : Stage P} (h : Matches r st) (hacc : accepts r i = false)
    (hw : writes r i = false) : Matches (next r i) st := by
  have hlatch : latchInfo r i = false := by simp [latchInfo, hacc]
  have hlast : (wrLastPkt r && i.memWrReady) = false := by
    cases hd : r.wrDataEn with
    | false => simp [wrLastPkt, hd]
    | true =>
      rw [writes, hd, Bool.true_and] at hw
      simp [hw]
  have hstate : nextWrState r i = r.wrStateR := by
    simp [nextWrState, hacc, hlast]
  have hleft : nextWrStrbLeft r i = r.wrStrbLeft := by
    simp [nextWrStrbLeft, hw, hlatch, hacc]
  have hen : (next r i).wrDataEn = r.wrDataEn := by
    rw [writes] at hw
    cases hd : r.wrDataEn <;> cases hr : i.memWrReady <;> simp_all [next]
  have hfirst : (r.wrFirstPkt = true → r.wrDataEn = true) →
      (next r i).wrFirstPkt = r.wrFirstPkt := by
    intro hf
    rw [writes] at hw
    cases hp : r.wrFirstPkt <;> cases hr : i.memWrReady <;> simp_all [next]
  have hextra : extraCycle (next r i) = extraCycle r := by
    simp [extraCycle, next, hw, hacc, hleft]
  have hbehind : ∀ x, Behind r x → Behind (next r i) x := fun x hp =>
    ⟨(hfirst (by simp [hp.wrFirstPkt])).trans hp.wrFirstPkt,
      by simp [next, hw, hlast, hp.wrStrb2], by simp [next, hw, hp.carry],
      by simp [next, hw, hp.nextWrAddr], by simp [next, hw, hp.wrPktLen]⟩
  cases st with
  | idle =>
    have hf := hfirst (by simp [h.wrFirstPkt])
    exact ⟨hstate.trans h.wrStateR, hen.trans h.wrDataEn, hextra.trans h.extraCycle,
      by simp [next, hw, h.extraCycleR], hf.trans h.wrFirstPkt,
      by simp [next, hw, hlast, h.wrStrb2]⟩
  | hold x =>
    obtain ⟨hl, hpos, hh⟩ := h
    have hf := hfirst (fun _ => hh.wrDataEn)
    refine ⟨latched_keep hlatch hl (by simp [hlast]), ?_, ?_⟩
    · rcases hpos with hp | hp
      · exact .inl ⟨hf.trans hp.wrFirstPkt, by simp [next, hw, hlast, hp.wrStrb2], hp.start,
          hp.carry, hp.written⟩
      · exact .inr (hbehind x hp)
    · exact ⟨hen.trans hh.wrDataEn, by simp [next, hw, hh.extraCycleR],
        by simp [next, hacc, hh.wrData1], by simp [next, hw, hacc, hh.wrStrb1],
        by simp [next, hw, hacc, hh.wrLast], hleft.trans hh.wrStrbLeft⟩
  | gap x =>
    obtain ⟨hl, hp, hwait⟩ := h
    refine ⟨latched_keep hlatch hl (by simp [hlast]), hbehind x hp, ?_⟩
    exact ⟨hen.trans hwait.wrDataEn, by simp [next, hw, hwait.extraCycleR],
      by simp [next, hw, hacc, hwait.wrLast]⟩
  | extra x =>
    obtain ⟨hl, ho⟩ := h
    have hf := hfirst (by simp [ho.wrFirstPkt])
    refine ⟨latched_keep hlatch hl (by simp [hlast]), ?_⟩
    exact ⟨ho.left, ho.room_lt, hen.trans ho.wrDataEn, by simp [next, hw, ho.extraCycleR],
      by simp [next, hw, hacc, ho.wrLast], hf.trans ho.wrFirstPkt,
      by simp [next, hw, hacc, ho.wrStrb1], by simp [next, hw, hlast, ho.wrStrb2],
      by simp [next, hw, ho.wrData2], by simp [next, hw, ho.nextWrAddr],
      by simp [next, hw, ho.wrPktLen]⟩

/-- After the last write of a packet, if no word follows at once. -/
theorem quiet_of_last (hlast : wrLastPkt r = true) (hextra : extraCycle r = false)
    (hstate : r.wrStateR = .proc) (hready : i.memWrReady = true) (hacc : accepts r i = false) :
    Quiet (next r i) := by
  have hen : r.wrDataEn = true := (Bool.and_eq_true_iff.mp hlast).1
  have hw : writes r i = true := by simp [writes, hen, hready]
  have hlatch : latchInfo r i = false := by simp [latchInfo, hacc]
  refine ⟨?_, by simp [next, hacc, hextra, hready], ?_, by simp [next, hw, hextra],
    by simp [next, hlatch, hready], by simp [next, hlast, hready]⟩
  · change nextWrState r i = .idle
    simp [nextWrState, hstate, hlast, hready, hacc]
  · have hl : (next r i).wrLast = r.wrLast := by simp [next, hextra, hacc]
    have hleft : (next r i).wrStrbLeft = r.wrStrbLeft := by
      simp [next, nextWrStrbLeft, hextra, hacc, hlatch]
    rw [extraCycle, hl, hleft]
    exact hextra

/-- A word that more words of its packet follow moves on. -/
theorem behind_advance {x : Pos P} (h : Matches r (.hold x)) {w : Word P} {ws : List (Word P)}
    (hx : x.left = w :: ws) (hready : i.memWrReady = true) :
    Latched (next r i) x.pkt ∧ Behind (next r i) (x.advance w ws hx) := by
  have hlast : wrLastPkt r = false := by simp [hold_wrLastPkt h, hx]
  have haddr := hold_wrAddr h
  have hlen := hold_len h
  have hhead := Pos.head_cons hx
  have hcount := Pos.headCount_cons hx
  obtain ⟨hl, -, hh⟩ := h
  have hlatch : latchInfo r i = false := by simp [latchInfo_of_proc hl, hlast]
  have hw : writes r i = true := by simp [writes, hh.wrDataEn, hready]
  refine ⟨latched_keep hlatch hl (by simp [hlast]), ?_, ?_, ?_, ?_, ?_⟩
  · simp [next, hlatch, hready]
  · simp [next, hlast, hw, hh.wrStrb1, hcount]
  · simp only [next, hw, if_true, hh.wrData1, hhead]
    rfl
  · simp only [next, hw, if_true]
    exact haddr
  · rw [hcount, Nat.min_eq_right (room_le _)] at hlen
    simp only [next, hw, if_true]
    exact hlen

/-- A last word that does not fit leaves its end to the extra cycle. -/
theorem overhangs_of_over {x : Pos P} (h : Matches r (.hold x)) (hx : x.left = [])
    (hover : room x.pkt < x.pkt.count) (hready : i.memWrReady = true) :
    Matches (next r i) (.extra x) := by
  have hextra : extraCycle r = true := by simp [hold_extraCycle h, hx, hover]
  have hlast : wrLastPkt r = false := by simp [hold_wrLastPkt h, hx, hover]
  have haddr := hold_wrAddr h
  have hlen := hold_len h
  have hhead := Pos.head_last hx
  have hcount := Pos.headCount_last hx
  obtain ⟨hl, -, hh⟩ := h
  have hlatch : latchInfo r i = false := by simp [latchInfo_of_proc hl, hlast]
  have hw : writes r i = true := by simp [writes, hh.wrDataEn, hready]
  refine ⟨latched_keep hlatch hl (by simp [hlast]), hx, hover, ?_, ?_, ?_, ?_, ?_, ?_, ?_, ?_, ?_⟩
  · simp [next, hh.wrDataEn, hready, hextra]
  · simp [next, hw, hextra]
  · simp [next, hw, hextra]
  · simp [next, hlatch, hready]
  · simp [next, hw, hextra]
  · simp [next, hw, hlast, hh.wrStrb1, hcount]
  · simp [next, hw, hh.wrData1, hhead]
  · simp only [next, hw, if_true]
    exact haddr
  · rw [hcount, Nat.min_eq_right (Nat.le_of_lt hover)] at hlen
    simp only [next, hw, if_true]
    exact hlen

end Regs

/-! ### The simulation -/

section Simulation
variable {b : Bench P} {c : Cycle P} {todo : List (Pkt P)} {x : Pos P}

/-- The packet that begins when a word is taken between packets. -/
theorem begin_step (hpend : b.pending = todo.flatMap Packet.beats) (hmid : b.mid = false)
    (hacc : b.accepts c = true) (hlatch : latchInfo b.regs (b.inputs c) = true)
    (hextra : writes b.regs (b.inputs c) = false → b.regs.extraCycleR = false)
    (hstrb : (next b.regs (b.inputs c)).wrStrb2 = 0) :
    Follows (b.step c) (Progress.beginNext todo) := by
  obtain ⟨-, -, beat, later, hp, -, -, hlast, hside⟩ := accepts_spec hacc
  cases todo with
  | nil => simp [hpend] at hp
  | cons p ps =>
    rw [List.flatMap_cons] at hpend
    have hbeat : beat = p.firstBeat := by
      rw [hpend, p.beats_eq_cons, List.cons_append] at hp
      exact (List.cons.inj hp).1.symm
    have hl : Latched (next b.regs (b.inputs c)) p :=
      latched_begin hlatch (by rw [hside hmid, hbeat]; rfl)
    refine ⟨⟨hl, .inl ⟨?_, hstrb, rfl, rfl, rfl⟩, ?_⟩, ?_, ?_⟩
    · simp [Bench.step, next, hlatch]
    · exact holds_next hacc hextra hpend hl.wrOffset
    · simp only [Bench.step, hacc, rest_true, hpend]
      rw [p.beats_eq_cons]
      rfl
    · simp only [Bench.step, hacc, if_true, hlast, hbeat]
      rfl

/-- The next word of the packet under way is taken. -/
theorem continue_step (hpend : b.pending = x.words.beats ++ todo.flatMap Packet.beats)
    (hacc : b.accepts c = true)
    (hextra : writes b.regs (b.inputs c) = false → b.regs.extraCycleR = false)
    (hl : Latched (next b.regs (b.inputs c)) x.pkt)
    (hb : Behind (next b.regs (b.inputs c)) x) :
    Follows (b.step c) ⟨.hold x, todo⟩ := by
  obtain ⟨-, -, beat, later, hp, -, -, hlast, -⟩ := accepts_spec hacc
  have hbeat : beat = x.words.firstBeat := by
    rw [hpend, x.words.beats_eq_cons, List.cons_append] at hp
    exact (List.cons.inj hp).1.symm
  refine ⟨⟨hl, .inr hb, holds_next hacc hextra hpend hl.wrOffset⟩, ?_, ?_⟩
  · simp only [Bench.step, hacc, rest_true, hpend]
    rw [x.words.beats_eq_cons]
    rfl
  · simp only [Bench.step, hacc, if_true, hlast, hbeat]
    rfl

/-- A cycle in which no word is taken, with the stage it leads to. -/
theorem untaken_step {st st' : Stage P} (h : Follows b ⟨st, todo⟩) (hacc : b.accepts c = false)
    (hregs : Matches (next b.regs (b.inputs c)) st') (hbeats : st'.beats = st.beats)
    (hmid : st'.mid = st.mid) : Follows (b.step c) ⟨st', todo⟩ := by
  refine ⟨hregs, ?_, ?_⟩
  · simp only [Bench.step, hacc, rest_false, h.pending, Progress.pending, hbeats]
  · simp only [Bench.step, hacc, Bool.false_eq_true, if_false, h.mid, hmid]

/-- A write held by the memory keeps everything in place. -/
theorem held_step {st : Stage P} (h : Follows b ⟨st, todo⟩) (hready : c.memWrReady = false) :
    Follows (b.step c) ⟨st, todo⟩ := by
  have hacc := not_accepts_of_stalled (b := b) hready
  have hw : writes b.regs (b.inputs c) = false := by simp [writes, Bench.inputs, hready]
  exact untaken_step h hacc (stall h.regs hacc hw) rfl rfl

/-- The last write of a packet is made. -/
theorem last_step {st : Stage P} (h : Follows b ⟨st, todo⟩) (hbeats : st.beats = [])
    (hmid : st.mid = false) (hlast : wrLastPkt b.regs = true)
    (hextra : extraCycle b.regs = false) (hstate : b.regs.wrStateR = .proc)
    (hready : c.memWrReady = true) :
    Follows (b.step c)
      (if b.accepts c then Progress.beginNext todo else ⟨.idle, todo⟩) := by
  have hpend : b.pending = todo.flatMap Packet.beats := by
    rw [h.pending, Progress.pending, hbeats, List.nil_append]
  have hready' : (b.inputs c).memWrReady = true := hready
  have hen : b.regs.wrDataEn = true := (Bool.and_eq_true_iff.mp hlast).1
  cases hacc : b.accepts c with
  | true =>
    have hacc' : accepts b.regs (b.inputs c) = true := hacc
    refine begin_step hpend (h.mid.trans hmid) hacc ?_ ?_ ?_
    · simp [latchInfo, hlast, hready', hacc']
    · simp [writes, hen, hready']
    · simp [next, hlast, hready']
  | false =>
    exact untaken_step h hacc (quiet_of_last hlast hextra hstate hready' hacc) hbeats.symm hmid.symm

/-- **The registers follow the stages.** -/
theorem follows_step {a : Progress P} (h : Follows b a) (c : Cycle P) :
    Follows (b.step c) (a.next c.memWrReady (b.accepts c)) := by
  obtain ⟨st, todo⟩ := a
  cases st with
  | idle =>
    have hq : Quiet b.regs := h.regs
    have hw : writes b.regs (b.inputs c) = false := by simp [writes, hq.wrDataEn]
    cases hacc : b.accepts c with
    | true =>
      have hacc' : accepts b.regs (b.inputs c) = true := hacc
      refine begin_step h.pending h.mid hacc ?_ (fun _ => hq.extraCycleR) ?_
      · simp [latchInfo, hq.wrStateR, hacc']
      · simp [next, hw, quiet_wires hq, hq.wrStrb2]
    | false => exact untaken_step h hacc (stall h.regs hacc hw) rfl rfl
  | gap x =>
    obtain ⟨hextra, hlast⟩ := gap_wires h.regs
    obtain ⟨hl, hb, hwait⟩ := h.regs
    have hw : writes b.regs (b.inputs c) = false := by simp [writes, hwait.wrDataEn]
    cases hacc : b.accepts c with
    | true =>
      have hlatch : latchInfo b.regs (b.inputs c) = false := by
        simp [latchInfo_of_proc hl, hlast]
      refine continue_step h.pending hacc (fun _ => hwait.extraCycleR)
        (latched_keep hlatch hl (by simp [hlast])) ⟨?_, ?_, ?_, ?_, ?_⟩
      · simp [next, hlatch, hb.wrFirstPkt]
      · simp [next, hw, hlast, hb.wrStrb2]
      · simp [next, hw, hb.carry]
      · simp [next, hw, hb.nextWrAddr]
      · simp [next, hw, hb.wrPktLen]
    | false => exact untaken_step h hacc (stall h.regs hacc hw) rfl rfl
  | extra x =>
    obtain ⟨hextra, hlast⟩ := extra_wires h.regs
    obtain ⟨hl, ho⟩ := h.regs
    cases hready : c.memWrReady with
    | true => exact last_step h rfl rfl hlast hextra hl.wrStateR hready
    | false => exact held_step h hready
  | hold x =>
    have hextra := hold_extraCycle h.regs
    have hlast := hold_wrLastPkt h.regs
    cases hready : c.memWrReady with
    | false => exact held_step h hready
    | true =>
      have hready' : (b.inputs c).memWrReady = true := hready
      cases hx : x.left with
      | cons w ws =>
        rw [Progress.next_hold_cons _ hx]
        obtain ⟨hl, hb⟩ := behind_advance h.regs hx hready'
        have hw : writes b.regs (b.inputs c) = true := by
          simp [writes, h.regs.2.2.wrDataEn, hready']
        have hbeats : x.words.beats.tail = (x.advance w ws hx).words.beats := by
          rw [Packet.beats_cons (p := x.words) hx]
          rfl
        cases hacc : b.accepts c with
        | true =>
          refine continue_step ?_ hacc (fun hno => by simp [hw] at hno) hl hb
          rw [h.pending, Progress.pending, Stage.beats, hbeats]
        | false =>
          have hno : extraCycle b.regs = false := by simp [hextra, hx]
          have hacc' : accepts b.regs (b.inputs c) = false := hacc
          refine untaken_step h hacc ⟨hl, hb, ?_, ?_, ?_⟩ hbeats.symm ?_
          · simp [next, hacc', hno, hready']
          · simp [next, hw, hno]
          · simp [next, hno, hacc', h.regs.2.2.wrLast, Pos.words, hx]
          · simp [Stage.mid, hx]
      | nil =>
        rw [Progress.next_hold_nil _ hx]
        have hbeats : (Stage.hold x).beats = [] := by
          simp [Stage.beats, Packet.beats_nil (p := x.words) hx]
        have hmid : (Stage.hold x).mid = false := by simp [Stage.mid, hx]
        by_cases hover : room x.pkt < x.pkt.count
        · rw [if_pos hover]
          have hacc : b.accepts c = false := by
            simp [Bench.accepts, accepts, sAxisTready, hextra, hx, hover]
          exact untaken_step h hacc (overhangs_of_over h.regs hx hover hready')
            hbeats.symm hmid.symm
        · rw [if_neg hover]
          exact last_step h hbeats hmid (by simp [hlast, hx, Nat.le_of_not_lt hover])
            (by simp [hextra, hover]) h.regs.1.wrStateR hready

theorem Bench.Start.follows {ps : List (Pkt P)} (h : b.Start ps) : Follows b ⟨.idle, ps⟩ where
  regs := ⟨h.wrStateR, h.wrDataEn, by simp [extraCycle, h.wrLast], h.extraCycleR, h.wrFirstPkt,
    h.wrStrb2⟩
  pending := h.pending
  mid := h.mid

theorem idle_follows {a : Progress P} (h : Follows b a) (hs : b.regs.wrStateR = .idle) :
    a.stage = .idle := by
  obtain ⟨st, todo⟩ := a
  cases st with
  | idle => rfl
  | hold x => exact absurd (hs.symm.trans h.regs.1.wrStateR) WrState.noConfusion
  | gap x => exact absurd (hs.symm.trans h.regs.1.wrStateR) WrState.noConfusion
  | extra x => exact absurd (hs.symm.trans h.regs.1.wrStateR) WrState.noConfusion

end Simulation

/-! ### What is due -/

/-- Something that is due of every packet: of one that has not begun, and of the one under way. -/
structure Dues (P : Config) (β : Type) where
  packet : Pkt P → List β
  stage : Stage P → List β
  idle : stage .idle = []
  begins : ∀ p, stage (.hold (.begin p)) = packet p
  gap : ∀ x, stage (.gap x) = stage (.hold x)

namespace Dues
variable {β : Type} (D : Dues P β)

def total (a : Progress P) : List β := D.stage a.stage ++ a.todo.flatMap D.packet

/-- A write in this stage does `made` of what is due. -/
def Makes (made : List β) : Stage P → Prop
  | .idle => True
  | .gap _ => True
  | .extra x => D.stage (.extra x) = made
  | .hold x =>
    (∀ w ws (hx : x.left = w :: ws),
      D.stage (.hold x) = made ++ D.stage (.hold (x.advance w ws hx))) ∧
    (x.left = [] → room x.pkt < x.pkt.count →
      D.stage (.hold x) = made ++ D.stage (.extra x)) ∧
    (x.left = [] → x.pkt.count ≤ room x.pkt → D.stage (.hold x) = made)

theorem total_idle (todo : List (Pkt P)) : D.total ⟨.idle, todo⟩ = todo.flatMap D.packet := by
  rw [total, D.idle, List.nil_append]

theorem total_beginNext (todo : List (Pkt P)) :
    D.total (Progress.beginNext todo) = todo.flatMap D.packet := by
  cases todo with
  | nil => exact D.total_idle []
  | cons p ps => exact congrArg (· ++ ps.flatMap D.packet) (D.begins p)

/-- The next packet begins, or none does. -/
theorem total_ended (todo : List (Pkt P)) (taken : Bool) :
    D.total (if taken then Progress.beginNext todo else ⟨.idle, todo⟩) =
      todo.flatMap D.packet := by
  cases taken with
  | false => exact D.total_idle todo
  | true => exact D.total_beginNext todo

variable {b : Bench P} {a : Progress P} {made : List β}

/-- **A cycle does what the word it writes makes of what is due, or nothing.** -/
theorem total_step (h : Follows b a) (hmakes : D.Makes made a.stage) (c : Cycle P) :
    D.total a = (if writes b.regs (b.inputs c) then made else []) ++
      D.total (a.next c.memWrReady (b.accepts c)) := by
  obtain ⟨st, todo⟩ := a
  have hw : writes b.regs (b.inputs c) = (b.regs.wrDataEn && c.memWrReady) := rfl
  rw [hw]
  cases st with
  | idle =>
    have hq : Quiet b.regs := h.regs
    rw [hq.wrDataEn, D.total_idle]
    exact (D.total_ended todo _).symm
  | gap x =>
    obtain ⟨-, -, hwait⟩ := h.regs
    rw [hwait.wrDataEn]
    change _ = D.total (if b.accepts c then ⟨.hold x, todo⟩ else ⟨.gap x, todo⟩)
    split
    · rw [total, total, D.gap]
    · rfl
  | extra x =>
    have hextra : D.stage (.extra x) = made := hmakes
    rw [h.regs.2.wrDataEn]
    cases c.memWrReady with
    | false => rfl
    | true =>
      change D.stage (.extra x) ++ _ = made ++ D.total (if b.accepts c then _ else _)
      rw [D.total_ended, hextra]
  | hold x =>
    obtain ⟨hcons, hover, hfits⟩ := hmakes
    rw [h.regs.2.2.wrDataEn]
    cases c.memWrReady with
    | false => rfl
    | true =>
      rw [Bool.true_and, if_pos rfl, total]
      cases hx : x.left with
      | cons w ws =>
        rw [Progress.next_hold_cons _ hx, hcons w ws hx, List.append_assoc]
        split
        · rfl
        · rw [total, D.gap]
      | nil =>
        rw [Progress.next_hold_nil _ hx]
        by_cases hroom : room x.pkt < x.pkt.count
        · rw [if_pos hroom, hover hx hroom, List.append_assoc]
          rfl
        · rw [if_neg hroom, D.total_ended, hfits hx (Nat.le_of_not_lt hroom)]

end Dues

end Rosebud.DmaWrite
