import Rosebud.Clocked
import Rosebud.LbRrLu

/-! # Descriptors and packets of `lb_rr_lu`

A port asks for the descriptor of its next packet while the one before still streams, and
the port selector answers a cycle later.  Four states keep the two apart: `dest_r` is the
descriptor held for a packet to come, `dest_rr` the one of the packet that streams.

Written down per port: the descriptors granted, what became of each (used for a packet or
released by the host) and the words that leave, with their `tdest`.  `PortInv` ties the logs
to the state, and `stamped_consistently` is what follows for every run from reset, whatever
the interfaces, the receivers, the controller and the host do.
-/
namespace Rosebud.LbRrLu
open Clocked

variable {P : LuConfig}

/-! ## Packets in a log of words -/

section Words
variable {δ : Type}

/-- Whether the next word begins a packet. -/
def atStart (ws : List (δ × Bool)) : Bool := (ws.getLast?.map Prod.snd).getD true

/-- The destinations on the first words of the packets; `start` says whether the list
begins with a packet. -/
def firstDests : Bool → List (δ × Bool) → List δ
  | _, [] => []
  | start, (d, last) :: ws => (if start then [d] else []) ++ firstDests last ws

/-- Words of one packet have one destination. -/
def Uniform (ws : List (δ × Bool)) : Prop := ws.IsChain fun x y => x.2 = false → y.1 = x.1

@[simp] theorem atStart_append_singleton (ws : List (δ × Bool)) (w : δ × Bool) :
    atStart (ws ++ [w]) = w.2 := by
  simp [atStart]

theorem firstDests_append_singleton (start : Bool) (ws : List (δ × Bool)) (w : δ × Bool) :
    firstDests start (ws ++ [w]) = firstDests start ws ++
      if (ws.getLast?.map Prod.snd).getD start then [w.1] else [] := by
  induction ws generalizing start with
  | nil => cases start <;> rfl
  | cons v ws ih =>
    have hlast : ((v :: ws).getLast?.map Prod.snd).getD start =
        (ws.getLast?.map Prod.snd).getD v.2 := by
      cases hws : ws.getLast? <;> simp [List.getLast?_cons, hws]
    rw [hlast, List.cons_append]
    simp only [firstDests]
    rw [ih v.2, List.append_assoc]

theorem Uniform.append_singleton {ws : List (δ × Bool)} (h : Uniform ws) {w : δ × Bool}
    (hw : ∀ v, ws.getLast? = some v → v.2 = false → w.1 = v.1) : Uniform (ws ++ [w]) := by
  refine List.isChain_append.mpr ⟨h, List.isChain_singleton _, ?_⟩
  intro x hx y hy
  rw [List.head?_cons, Option.mem_some_iff] at hy
  rw [← hy]
  exact hw x hx

end Words

/-! ## What is written down -/

/-- What became of a descriptor. -/
inductive Fate where
  | used
  | released
deriving DecidableEq

structure Bench (P : LuConfig) where
  regs : Regs P
  granted : Fin P.ifCount → List (IdTag P)
  settled : Fin P.ifCount → List (IdTag P × Fate)
  words : Fin P.ifCount → List (IdTag P × Bool)

/-- The descriptor a port holds for a packet to come. -/
def held (r : Regs P) (n : Fin P.ifCount) : List (IdTag P) :=
  match r.portState n with
  | .first | .mid => [r.destR n]
  | .stall | .wait => []

/-- The descriptor a port uses or gives up in a cycle. -/
def settles (r : Regs P) (c : Cycle P) (n : Fin P.ifCount) : List (IdTag P × Fate) :=
  match r.portState n with
  | .first =>
    if portValid r c n then [(r.destR n, .used)]
    else if r.releaseDesc n then [(r.destR n, .released)]
    else []
  | .mid => if r.releaseDesc n then [(r.destR n, .released)] else []
  | .stall | .wait => []

/-- The descriptors that were used. -/
def usedOf (l : List (IdTag P × Fate)) : List (IdTag P) :=
  (l.filter fun x => decide (x.2 = .used)).map Prod.fst

namespace Bench
variable (b : Bench P) (i : Cycle P × Slots P)

def step : Bench P where
  regs := next b.regs i.1 i.2
  granted n := b.granted n ++ if portDescAvail b.regs i.2 n then [i.2.descData] else []
  settled n := b.settled n ++ settles b.regs i.1 n
  words n := b.words n ++
    if mAxisTvalid b.regs i.1 n && i.1.mAxisTready n then
      [(mAxisTdest b.regs n, i.1.sAxisTlast n)] else []

/-- Out of reset, with nothing written down. -/
structure Start (b : Bench P) : Prop where
  regs : Fresh b.regs
  granted : ∀ n, b.granted n = []
  settled : ∀ n, b.settled n = []
  words : ∀ n, b.words n = []

end Bench

/-! ## One cycle of a port -/

/-- The grant is one-hot and reaches a port only while it waits for a descriptor. -/
structure Granting (r : Regs P) : Prop where
  oneHot : r.portSelector.OneHot
  waits : ∀ n, r.portSelector.grantReg n = true → r.portState n = .stall ∨ r.portState n = .wait

section Port
variable {r : Regs P} {c : Cycle P} {slots : Slots P} {n : Fin P.ifCount}

theorem grantReg_of_avail (h : portDescAvail r slots n = true) :
    r.portSelector.grantReg n = true := (Bool.and_eq_true_iff.mp h).2

theorem Granting.held_eq (h : Granting r) (hg : r.portSelector.grantReg n = true) :
    held r n = [] := by
  rcases h.waits n hg with hs | hs <;> simp [held, hs]

variable (slots) in
theorem Granting.avail_of_first (h : Granting r)
    (hs : r.portState n = .first ∨ r.portState n = .mid) : portDescAvail r slots n = false := by
  cases ha : portDescAvail r slots n with
  | false => rfl
  | true => rcases h.waits n (grantReg_of_avail ha) with hw | hw <;> rcases hs with hs | hs <;>
      simp [hs] at hw

variable (c slots n) in
/-- The descriptor register is written with the grant of its port, and only then. -/
theorem Granting.destR_next (h : Granting r) :
    (next r c slots).destR n =
      if portDescAvail r slots n then slots.descData else r.destR n := by
  have hsame : (descPop r slots.slotCounts slots.slotBusys &&
      decide (r.portSelector.grantEncodedReg = n)) = portDescAvail r slots n := by
    unfold portDescAvail descPop selectedPortV
    rw [h.oneHot.grantReg n]
    have hdec : decide (r.portSelector.grantEncodedReg = n) =
        decide (n.val = r.portSelector.grantEncodedReg) := decide_eq_decide.mpr eq_comm
    rw [hdec]
    cases r.portSelector.grantValidReg <;> simp
  change (if _ then _ else _ : IdTag P) = _
  rw [hsame]

/-- A request goes out only in a state in which the port will still wait. -/
theorem nextPortState_of_descReq (h : descReq r c n = true) :
    nextPortState r c slots n = .stall ∨ nextPortState r c slots n = .wait := by
  obtain ⟨hgrant, hstate⟩ := Bool.and_eq_true_iff.mp h
  have havail : portDescAvail r slots n = false := by
    rw [portDescAvail, (Bool.not_eq_true' _).mp hgrant, Bool.and_false]
  cases hs : r.portState n with
  | stall => simp [nextPortState, hs, havail]
  | first =>
    have hv : portValid r c n = true := by simpa [hs] using hstate
    cases hl : sendingLastWord r c n <;> simp [nextPortState, hs, hv, hl]
  | wait => cases hl : sendingLastWord r c n <;> simp [nextPortState, hs, havail, hl]
  | mid => simp [hs] at hstate

theorem Granting.next (h : Granting r) (c : Cycle P) (slots : Slots P) :
    Granting (next r c slots) where
  oneHot := by
    change (r.portSelector.next false (descReq r c) fun _ => false).OneHot
    exact h.oneHot.next
  waits n hg := nextPortState_of_descReq
    (Arbiter.request_of_grant_next r.portSelector (descReq r c) (fun _ => false) hg)

/-- **A descriptor that is granted is held until it is used or released.** -/
theorem Granting.conservation (h : Granting r) :
    held r n ++ (if portDescAvail r slots n then [slots.descData] else []) =
      (settles r c n).map Prod.fst ++ held (LbRrLu.next r c slots) n := by
  have hdest := h.destR_next c slots n
  have hstate : (LbRrLu.next r c slots).portState n = nextPortState r c slots n := rfl
  simp only [held, settles, hstate, hdest]
  cases hs : r.portState n with
  | stall => cases ha : portDescAvail r slots n <;> simp [nextPortState, hs, ha]
  | first =>
    have ha := h.avail_of_first slots (.inl hs)
    have hlast : portValid r c n = false → sendingLastWord r c n = false := by
      intro hv
      simp [sendingLastWord, hv]
    cases hv : portValid r c n with
    | true => cases hl : sendingLastWord r c n <;> simp [nextPortState, hs, ha, hv, hl]
    | false => cases hr : r.releaseDesc n <;> simp [nextPortState, hs, ha, hv, hlast hv, hr]
  | wait =>
    cases ha : portDescAvail r slots n <;> cases hl : sendingLastWord r c n <;>
      simp [nextPortState, hs, ha, hl]
  | mid =>
    have ha := h.avail_of_first slots (.inr hs)
    cases hl : sendingLastWord r c n <;> cases hr : r.releaseDesc n <;>
      simp [nextPortState, hs, ha, hl, hr]

end Port

/-! ## The packets of a port -/

/-- Between packets the next word is a first one; inside a packet `dest_rr` is the
destination of the word before. -/
structure PortInv (b : Bench P) (n : Fin P.ifCount) : Prop where
  settled : (b.settled n).map Prod.fst ++ held b.regs n = b.granted n
  between : b.regs.portState n = .stall ∨ b.regs.portState n = .first →
    atStart (b.words n) = true
  inside : b.regs.portState n = .wait ∨ b.regs.portState n = .mid →
    (b.words n).getLast? = some (b.regs.destRr n, false)
  stamps : firstDests true (b.words n) = usedOf (b.settled n)
  uniform : Uniform (b.words n)

section PortStep
variable {b : Bench P} {r : Regs P} {c : Cycle P} {n : Fin P.ifCount}

@[simp] theorem usedOf_append (l l' : List (IdTag P × Fate)) :
    usedOf (l ++ l') = usedOf l ++ usedOf l' := by
  simp [usedOf]

/-- A word accepted is the first of its packet, with the descriptor held, or continues the
packet with its destination. -/
theorem PortInv.accepted (h : PortInv b n) (hv : portValid b.regs c n = true) :
    (atStart (b.words n) = true ∧ held b.regs n = [mAxisTdest b.regs n] ∧
        b.regs.portState n = .first) ∨
      ((b.words n).getLast? = some (mAxisTdest b.regs n, false) ∧
        (b.regs.portState n = .wait ∨ b.regs.portState n = .mid)) := by
  cases hs : b.regs.portState n with
  | stall => simp [portValid, sAxisTready, portNotStall, hs] at hv
  | first => exact .inl ⟨h.between (.inr hs), by simp [held, mAxisTdest, hs], rfl⟩
  | wait =>
    refine .inr ⟨?_, .inl rfl⟩
    simpa [mAxisTdest, hs] using h.inside (.inl hs)
  | mid =>
    refine .inr ⟨?_, .inr rfl⟩
    simpa [mAxisTdest, hs] using h.inside (.inr hs)

/-- Without a word the state stays on its side. -/
theorem nextPortState_of_idle (slots : Slots P) (hv : portValid r c n = false) :
    ((nextPortState r c slots n = .stall ∨ nextPortState r c slots n = .first) ↔
        (r.portState n = .stall ∨ r.portState n = .first)) ∧
      ((nextPortState r c slots n = .wait ∨ nextPortState r c slots n = .mid) ↔
        (r.portState n = .wait ∨ r.portState n = .mid)) := by
  have hl : sendingLastWord r c n = false := by simp [sendingLastWord, hv]
  cases hs : r.portState n <;> cases ha : portDescAvail r slots n <;>
    cases hr : r.releaseDesc n <;> simp [nextPortState, hs, ha, hr, hv, hl]

/-- After a word the state is between packets exactly if the word was a last one. -/
theorem nextPortState_of_valid (slots : Slots P) (hv : portValid r c n = true) :
    ((nextPortState r c slots n = .stall ∨ nextPortState r c slots n = .first) ↔
        c.sAxisTlast n = true) ∧
      ((nextPortState r c slots n = .wait ∨ nextPortState r c slots n = .mid) ↔
        c.sAxisTlast n = false) := by
  have hl : sendingLastWord r c n = c.sAxisTlast n := by simp [sendingLastWord, hv]
  cases hs : r.portState n with
  | stall => simp [portValid, sAxisTready, portNotStall, hs] at hv
  | first => cases ht : c.sAxisTlast n <;> simp [nextPortState, hs, hv, hl, ht]
  | wait =>
    cases ht : c.sAxisTlast n <;> cases ha : portDescAvail r slots n <;>
      simp [nextPortState, hs, hl, ht, ha]
  | mid =>
    cases ht : c.sAxisTlast n <;> cases hr : r.releaseDesc n <;>
      simp [nextPortState, hs, hl, ht, hr]

/-- A descriptor is used with the first word of a packet. -/
theorem usedOf_settles : usedOf (settles r c n) =
      if r.portState n = .first ∧ portValid r c n = true then [r.destR n] else [] := by
  cases hs : r.portState n <;> cases hv : portValid r c n <;> cases hr : r.releaseDesc n <;>
    simp [settles, usedOf, hs, hv, hr]

theorem PortInv.step (h : PortInv b n) (hg : Granting b.regs) (i : Cycle P × Slots P) :
    PortInv (b.step i) n := by
  have hsettled : ((b.step i).settled n).map Prod.fst ++ held (b.step i).regs n =
      (b.step i).granted n := by
    change (b.settled n ++ settles b.regs i.1 n).map Prod.fst ++ held (next b.regs i.1 i.2) n =
      b.granted n ++ _
    rw [List.map_append, List.append_assoc, ← hg.conservation, ← List.append_assoc, h.settled]
  have hstate : (b.step i).regs.portState n = nextPortState b.regs i.1 i.2 n := rfl
  cases hv : portValid b.regs i.1 n with
  | false =>
    have hwords : (b.step i).words n = b.words n := by simp [Bench.step, mAxis_transfer, hv]
    have hused : usedOf ((b.step i).settled n) = usedOf (b.settled n) := by
      change usedOf (b.settled n ++ settles b.regs i.1 n) = _
      simp [usedOf_settles, hv]
    have hdest : (b.step i).regs.destRr n = b.regs.destRr n := by simp [Bench.step, next, hv]
    obtain ⟨hbetween, hinside⟩ := nextPortState_of_idle i.2 hv
    refine ⟨hsettled, ?_, ?_, ?_, ?_⟩
    · rw [hstate, hwords]
      exact fun hs => h.between (hbetween.mp hs)
    · rw [hstate, hwords, hdest]
      exact fun hs => h.inside (hinside.mp hs)
    · rw [hwords, hused, h.stamps]
    · rw [hwords]
      exact h.uniform
  | true =>
    have hwords : (b.step i).words n =
        b.words n ++ [(mAxisTdest b.regs n, i.1.sAxisTlast n)] := by
      simp [Bench.step, mAxis_transfer, hv]
    obtain ⟨hbetween, hinside⟩ := nextPortState_of_valid i.2 hv
    have hdest : (b.step i).regs.destRr n = mAxisTdest b.regs n := by
      by_cases hs : b.regs.portState n = .first <;> simp [Bench.step, next, mAxisTdest, hs, hv]
    have hused : usedOf ((b.step i).settled n) = usedOf (b.settled n) ++
        if atStart (b.words n) then [mAxisTdest b.regs n] else [] := by
      change usedOf (b.settled n ++ settles b.regs i.1 n) = _
      rw [usedOf_append, usedOf_settles]
      rcases h.accepted hv with ⟨hfirst, -, hs⟩ | ⟨hlast, hs⟩
      · simp [hs, hv, hfirst, mAxisTdest]
      · have hnot : b.regs.portState n ≠ .first := by rcases hs with hs | hs <;> simp [hs]
        simp [hnot, atStart, hlast]
    refine ⟨hsettled, ?_, ?_, ?_, ?_⟩
    · rw [hstate, hwords, atStart_append_singleton]
      exact hbetween.mp
    · rw [hstate, hwords, hdest]
      intro hs
      rw [hinside.mp hs]
      simp
    · rw [hwords, firstDests_append_singleton, h.stamps, hused]
      rfl
    · rw [hwords]
      refine h.uniform.append_singleton ?_
      intro v hlast hopen
      rcases h.accepted hv with ⟨hfirst, -, -⟩ | ⟨hsame, -⟩
      · simp [atStart, hlast, hopen] at hfirst
      · rw [hsame] at hlast
        rw [← Option.some.inj hlast]

end PortStep

/-! ## Whole runs -/

structure Inv (b : Bench P) : Prop where
  granting : Granting b.regs
  ports : ∀ n, PortInv b n

theorem Bench.Start.inv {b : Bench P} (h : b.Start) : Inv b where
  granting :=
    ⟨h.regs.portSelector ▸ Arbiter.oneHot_reset, fun n _ => .inl (h.regs.portState n)⟩
  ports n :=
    { settled := by simp [h.settled, h.granted, held, h.regs.portState]
      between := fun _ => by simp [h.words, atStart]
      inside := fun hs => by simp [h.regs.portState] at hs
      stamps := by simp [h.words, h.settled, firstDests, usedOf]
      uniform := by simp [h.words, Uniform] }

theorem Inv.step {b : Bench P} (h : Inv b) (i : Cycle P × Slots P) : Inv (b.step i) where
  granting := h.granting.next i.1 i.2
  ports n := (h.ports n).step h.granting i

/-- A descriptor that is popped is granted to exactly one port. -/
theorem Granting.granted_once {r : Regs P} (h : Granting r) {slots : Slots P}
    (hpop : descPop r slots.slotCounts slots.slotBusys = true) :
    ∃! n, portDescAvail r slots n = true := by
  have hv : r.portSelector.grantValidReg = true := (Bool.and_eq_true_iff.mp hpop).1
  refine ⟨⟨_, h.oneHot.lt hv⟩, ?_, fun m hm => ?_⟩
  · simp [portDescAvail, hpop, h.oneHot.grantReg, hv]
  · have hgrant := grantReg_of_avail hm
    rw [h.oneHot.grantReg, hv, Bool.true_and, decide_eq_true_eq] at hgrant
    exact Fin.ext hgrant

/-- **Packets are stamped consistently.**  In every run from reset a popped descriptor is
granted to one port.  Of every port: the descriptors granted are those used or released, in
their order, and the one held; the packets accepted carry, in their order, the descriptors
used, one packet each, and one on all its words; a first word is accepted only with a
descriptor held, which it carries, and a later one with the destination of the word before;
and a grant comes only in the states `STALL` and `WAIT`, in which none is held, and is the
only thing that changes the descriptor register. -/
theorem stamped_consistently {b₀ : Bench P} (hstart : b₀.Start)
    (cycles : List (Cycle P × Slots P)) :
    let b := run Bench.step b₀ cycles
    (∀ slots : Slots P, descPop b.regs slots.slotCounts slots.slotBusys = true →
      ∃! n, portDescAvail b.regs slots n = true) ∧
    ∀ n,
      (b.settled n).map Prod.fst ++ held b.regs n = b.granted n ∧
      firstDests true (b.words n) = usedOf (b.settled n) ∧ Uniform (b.words n) ∧
      (∀ c, portValid b.regs c n = true →
        (atStart (b.words n) = true ∧ held b.regs n = [mAxisTdest b.regs n]) ∨
          (b.words n).getLast? = some (mAxisTdest b.regs n, false)) ∧
      (b.regs.portSelector.grantReg n = true →
        (b.regs.portState n = .stall ∨ b.regs.portState n = .wait) ∧ held b.regs n = []) ∧
      ∀ c slots, (next b.regs c slots).destR n =
        if portDescAvail b.regs slots n then slots.descData else b.regs.destR n := by
  intro b
  have h : Inv b := run_preserves (fun _ i hs => hs.step i) hstart.inv cycles
  refine ⟨fun slots hpop => h.granting.granted_once hpop, fun n => ?_⟩
  refine ⟨(h.ports n).settled, (h.ports n).stamps, (h.ports n).uniform, fun c hv => ?_,
    fun hg => ⟨h.granting.waits n hg, h.granting.held_eq hg⟩,
    fun c slots => h.granting.destR_next c slots n⟩
  rcases (h.ports n).accepted hv with ⟨hfirst, hheld, -⟩ | ⟨hlast, -⟩
  · exact .inl ⟨hfirst, hheld⟩
  · exact .inr hlast

/-! ## One interface -/

def oneInterface : LuConfig := .small 1

def port0 : Fin oneInterface.ifCount := ⟨0, by decide⟩

/-- The state a reset leaves. -/
def idlePort : Bench oneInterface where
  regs := default
  granted := fun _ => []
  settled := fun _ => []
  words := fun _ => []

theorem idlePort_start : idlePort.Start where
  regs := .default
  granted := fun _ => rfl
  settled := fun _ => rfl
  words := fun _ => rfl

/-- The interface offers a word, or not; every core has a slot, and `desc` is the next one. -/
def offering (valid last : Bool) (desc : IdTag oneInterface) :
    Cycle oneInterface × Slots oneInterface :=
  (⟨0, false, 0, false, fun _ => valid, fun _ => last, fun _ => true⟩,
    ⟨fun _ => 1, fun _ => false, desc⟩)

/-- The host writes a register of the cores. -/
def hostWriting (reg : BitVec 29) : Cycle oneInterface × Slots oneInterface :=
  (⟨reg, false, 15, true, fun _ => false, fun _ => false, fun _ => true⟩,
    ⟨fun _ => 1, fun _ => false, 0⟩)

/-- The cores are enabled, the port gets descriptor 5, and a packet of three words follows,
during which descriptor 9 comes. -/
def onePacket : List (Cycle oneInterface × Slots oneInterface) :=
  [hostWriting 0, hostWriting 1, offering false false 5, offering false false 5,
    offering true false 9, offering true false 9, offering true true 9]

theorem stamped_consistently_onePacket :
    let b := run Bench.step idlePort onePacket
    b.words port0 = [(5, false), (5, false), (5, true)] ∧ held b.regs port0 = [9] ∧
      (b.settled port0).map Prod.fst ++ held b.regs port0 = b.granted port0 :=
  ⟨by decide +kernel, by decide +kernel,
    ((stamped_consistently idlePort_start onePacket).2 port0).1⟩

end Rosebud.LbRrLu
