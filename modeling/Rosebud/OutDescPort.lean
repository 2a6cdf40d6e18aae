import Mathlib.Data.BitVec
import Rosebud.Clocked

/-! # The descriptor port of the core

The firmware sends a descriptor with a few stores to the I/O registers of `riscvcore`: the
two words of the descriptor, for the DRAM two words of address, and last its type, which
also starts the transfer.  `out_desc_v_r` says that a descriptor waits at the port.
`rpu_controller` sends one with a DRAM type in two beats, and is not ready for the core
during the first.

A store the port is not ready for is held by the core until it is.  The store of a type
sets `out_desc_v_r` already in the first cycle it is held, so that it commits when its own
descriptor is taken.  If however an earlier descriptor still waits in that cycle, the type
of that one is overwritten, and the handshake that clears `out_desc_v_r` for it counts for
both: `second_send_lost`.

As long as a type is stored only when no descriptor waits, each store of a type gives one
descriptor: `descriptors_of_patient`.
-/
namespace Rosebud.OutDescPort
open Clocked

/-- The I/O registers that matter here; the other stores do nothing to the port. -/
inductive IoReg where
  | sendDescAddrL
  | sendDescAddrH
  | wrDramAddrL
  | wrDramAddrH
  | sendDescType
  | rewrDescAddrL
  | rewrDescAddrH
  | other
deriving DecidableEq

def IoReg.ofAddr (ioAddr : BitVec 6) : IoReg :=
  if ioAddr = 0b000010 then sendDescAddrL
  else if ioAddr = 0b000011 then sendDescAddrH
  else if ioAddr = 0b000100 then wrDramAddrL
  else if ioAddr = 0b000101 then wrDramAddrH
  else if ioAddr = 0b001010 then sendDescType
  else if ioAddr = 0b010110 then rewrDescAddrL
  else if ioAddr = 0b010111 then rewrDescAddrH
  else other

/-- A store of the core to its I/O registers. -/
structure Store where
  ioAddr : BitVec 6
  strb : BitVec 4
  data : BitVec 32
deriving DecidableEq

namespace Store
variable (s : Store)

def reg : IoReg := .ofAddr s.ioAddr

def sendOutDesc : Bool := s.reg == .sendDescType

def updateDesc : Bool :=
  s.reg == .sendDescAddrL || s.reg == .sendDescAddrH || s.reg == .wrDramAddrL ||
    s.reg == .wrDramAddrH

/-- The stores behind `DESC_OVERRIDE`, which change a descriptor while it waits. -/
def rewrites : Bool := s.reg == .rewrDescAddrL || s.reg == .rewrDescAddrH

/-- One byte of a register the store writes. -/
def byte (old : BitVec 64) (base i : Nat) : BitVec 8 :=
  if s.strb.getLsbD i then s.data.extractLsb' (8 * i) 8 else old.extractLsb' (8 * (base + i)) 8

/-- The low half of a register written, byte by byte. -/
def writeLow (old : BitVec 64) : BitVec 64 :=
  old.extractLsb' 32 32 ++ s.byte old 0 3 ++ s.byte old 0 2 ++ s.byte old 0 1 ++ s.byte old 0 0

def writeHigh (old : BitVec 64) : BitVec 64 :=
  s.byte old 4 3 ++ s.byte old 4 2 ++ s.byte old 4 1 ++ s.byte old 4 0 ++ old.extractLsb' 0 32

end Store

/-- What goes over the port: `{type, descriptor}`, and the DRAM address. -/
structure Desc where
  hdr : BitVec 64
  dramAddr : BitVec 64
deriving DecidableEq

/-- The type of a descriptor, as `rpu_controller` and `rpu_intercon` read it. -/
def Desc.type (d : Desc) : BitVec 4 := d.hdr.extractLsb' 60 4

def Desc.isDram (d : Desc) : Bool := d.type == 4 || d.type == 5

/-! ## `riscvcore` and the merger of `rpu_controller` -/

structure CoreRegs where
  outDescDataR : BitVec 64
  outDescTypeR : BitVec 4
  dramWrAddrR : BitVec 64
  outDescVR : Bool

namespace CoreRegs
variable (r : CoreRegs)

def desc : Desc := ⟨r.outDescTypeR ++ r.outDescDataR.extractLsb' 0 60, r.dramWrAddrR⟩

/-- The descriptor the store of a type stands for, with the registers as they are. -/
def descOf (s : Store) : Desc :=
  ⟨s.data.extractLsb' 0 4 ++ r.outDescDataR.extractLsb' 0 60, r.dramWrAddrR⟩

def ioWrReady (s : Store) (outDescReady : Bool) : Bool :=
  !(s.sendOutDesc || s.updateDesc) || (s.updateDesc && !r.outDescVR) || outDescReady

/-- The registers after a cycle in which a store is on the bus, committed or not. -/
def write (s : Store) (outDescReady : Bool) : CoreRegs :=
  let open_ := !r.outDescVR || outDescReady
  match s.reg with
  | .sendDescAddrL =>
    if open_ then { r with outDescDataR := s.writeLow r.outDescDataR } else r
  | .sendDescAddrH =>
    if open_ then { r with outDescDataR := s.writeHigh r.outDescDataR } else r
  | .wrDramAddrL => if open_ then { r with dramWrAddrR := s.writeLow r.dramWrAddrR } else r
  | .wrDramAddrH => if open_ then { r with dramWrAddrR := s.writeHigh r.dramWrAddrR } else r
  | .rewrDescAddrL => { r with outDescDataR := s.writeLow r.outDescDataR }
  | .rewrDescAddrH => { r with outDescDataR := s.writeHigh r.outDescDataR }
  | .sendDescType => { r with outDescTypeR := s.data.extractLsb' 0 4 }
  | .other => r

/-- `out_desc_v_r`: set by the store of a type, cleared by the handshake, which comes
last. -/
def nextV (rst : Bool) (store : Option Store) (outDescReady : Bool) : Bool :=
  if rst || (r.outDescVR && outDescReady) then false
  else r.outDescVR || store.any (·.sendOutDesc)

def next (rst : Bool) (store : Option Store) (outDescReady : Bool) : CoreRegs :=
  { (match store with
      | some s => r.write s outDescReady
      | none => r) with
    outDescVR := r.nextV rst store outDescReady }

end CoreRegs

/-- The core's registers, the state of the merger (`true` for `DRAM`) and the store the
core holds because it has not committed yet. -/
structure Port where
  core : CoreRegs
  outDescState : Bool
  held : Option Store

namespace Port
variable (p : Port) (rst : Bool) (store : Option Store) (outDescReady : Bool)

/-- The store on the bus: the one held, or else a new one. -/
def presented : Option Store := p.held.or store

/-- The merger sends the first beat of a descriptor for the DRAM. -/
def firstBeat : Bool := !p.outDescState && p.core.desc.isDram

def coreDescReady : Bool := if p.firstBeat then false else outDescReady

def commits : Bool :=
  (p.presented store).any fun s => p.core.ioWrReady s (p.coreDescReady outDescReady)

/-- The core's descriptor is taken. -/
def transfers : Bool := p.core.outDescVR && p.coreDescReady outDescReady

def next : Port where
  core := p.core.next rst (p.presented store) (p.coreDescReady outDescReady)
  outDescState :=
    if rst then false
    else if p.core.outDescVR && outDescReady then p.firstBeat
    else p.outDescState
  held :=
    if rst then none else if p.commits store outDescReady then none else p.presented store

/-- The store of a type that has not committed yet. -/
def heldSend : Bool := p.held.any (·.sendOutDesc)

/-- A descriptor whose store has committed waits at the port. -/
def waiting : List Desc := if p.core.outDescVR && !p.heldSend then [p.core.desc] else []

/-- The descriptor of the store of a type that commits in this cycle. -/
def committed : List Desc :=
  match p.presented store with
  | some s => if s.sendOutDesc && p.commits store outDescReady then [p.core.descOf s] else []
  | none => []

/-- The descriptor taken in this cycle. -/
def taken : List Desc := if p.transfers outDescReady then [p.core.desc] else []

end Port

/-! ## One cycle of the port -/

/-- A new store of a type comes only when no descriptor waits. -/
def Patient (p : Port) (store : Option Store) : Prop :=
  p.held = none → ∀ s ∈ store, s.sendOutDesc = true → p.core.outDescVR = false
deriving Decidable

/-- No new store changes a descriptor while it waits. -/
def NoRewrite (p : Port) (store : Option Store) : Prop :=
  ∀ s ∈ store, s.rewrites = true → p.core.outDescVR = false
deriving Decidable

/-- What the held store may be: the store of a type, which has put its own type into the
register and has raised `out_desc_v_r`, or one of the stores that wait. -/
structure Port.Inv (p : Port) : Prop where
  send : ∀ s ∈ p.held, s.sendOutDesc = true →
    p.core.outDescVR = true ∧ p.core.outDescTypeR = s.data.extractLsb' 0 4
  rewrites : ∀ s ∈ p.held, s.rewrites = false

section Write
variable {r : CoreRegs} {s : Store} {ready : Bool}

/-- A descriptor that waits is safe from the stores that wait for it, and from those to
other registers. -/
theorem write_of_blocked (hv : r.outDescVR = true) (hready : ready = false)
    (hsend : s.sendOutDesc = false) (hrewr : s.rewrites = false) : r.write s ready = r := by
  unfold CoreRegs.write
  simp only [Store.sendOutDesc, Store.rewrites] at hsend hrewr
  cases hreg : s.reg <;> simp_all

theorem write_of_send (hsend : s.sendOutDesc = true) :
    r.write s ready = { r with outDescTypeR := s.data.extractLsb' 0 4 } := by
  have hreg : s.reg = .sendDescType := by simpa [Store.sendOutDesc] using hsend
  simp [CoreRegs.write, hreg]

theorem rewrites_of_send (hsend : s.sendOutDesc = true) : s.rewrites = false := by
  have hreg : s.reg = .sendDescType := by simpa [Store.sendOutDesc] using hsend
  simp [Store.rewrites, hreg]

/-- A store that rewrites a descriptor never waits. -/
theorem ioWrReady_of_rewrites (hrewr : s.rewrites = true) : r.ioWrReady s ready = true := by
  unfold CoreRegs.ioWrReady Store.sendOutDesc Store.updateDesc
  simp only [Store.rewrites] at hrewr
  cases hreg : s.reg <;> simp_all

theorem ioWrReady_of_send (hsend : s.sendOutDesc = true) : r.ioWrReady s ready = ready := by
  have hreg : s.reg = .sendDescType := by simpa [Store.sendOutDesc] using hsend
  simp [CoreRegs.ioWrReady, hsend, Store.updateDesc, hreg]

end Write

section Cycle
variable {p : Port} {store : Option Store} {ready : Bool} {s : Store}

/-- What a cycle has to keep: the invariant, and the account of descriptors that were
waiting, have been committed, have been taken and are waiting then. -/
def Accounts (p : Port) (store : Option Store) (ready : Bool) : Prop :=
  (p.next false store ready).Inv ∧
    p.waiting ++ p.committed store ready = p.taken ready ++ (p.next false store ready).waiting

theorem waiting_of_not_v (hv : p.core.outDescVR = false) : p.waiting = [] := by
  simp [Port.waiting, hv]

theorem waiting_of_held (hheld : p.held = some s) (hsend : s.sendOutDesc = true) :
    p.waiting = [] := by
  simp [Port.waiting, Port.heldSend, hheld, hsend]

section Send
variable (ready) (hp : p.presented store = some s) (hsend : s.sendOutDesc = true)
include hp hsend

theorem commits_send : p.commits store ready = p.coreDescReady ready := by
  simp [Port.commits, hp, ioWrReady_of_send hsend]

theorem committed_send : p.committed store ready =
    if p.coreDescReady ready then [p.core.descOf s] else [] := by
  simp [Port.committed, hp, hsend, commits_send ready hp hsend]

theorem held_send : (p.next false store ready).held =
    if p.coreDescReady ready then none else some s := by
  simp [Port.next, commits_send ready hp hsend, hp]

/-- The store of a type, with no descriptor waiting. -/
theorem accounts_send_new (hv : p.core.outDescVR = false) : Accounts p store ready := by
  have hcore : (p.next false store ready).core =
      { p.core with outDescTypeR := s.data.extractLsb' 0 4, outDescVR := true } := by
    simp [Port.next, CoreRegs.next, hp, write_of_send hsend, CoreRegs.nextV, hv, hsend]
  have hheld := held_send ready hp hsend
  have hcommitted := committed_send ready hp hsend
  have htaken : p.taken ready = [] := by simp [Port.taken, Port.transfers, hv]
  rw [Accounts, waiting_of_not_v hv, hcommitted, htaken]
  cases hready : p.coreDescReady ready with
  | true =>
    rw [hready, if_pos rfl] at hheld
    refine ⟨⟨by simp [hheld], by simp [hheld]⟩, ?_⟩
    simp [Port.waiting, hcore, Port.heldSend, hheld, CoreRegs.desc, CoreRegs.descOf]
  | false =>
    simp only [hready, Bool.false_eq_true, if_false] at hheld
    refine ⟨⟨by simp [hheld, hcore], by simp [hheld, rewrites_of_send hsend]⟩, ?_⟩
    simp [waiting_of_held hheld hsend]

end Send

/-- The store of a type that is held while its own descriptor waits. -/
theorem accounts_send_held (h : p.Inv) (hheld : p.held = some s) (hsend : s.sendOutDesc = true) :
    Accounts p store ready := by
  obtain ⟨hv, htype⟩ := h.send s hheld hsend
  have hp : p.presented store = some s := by simp [Port.presented, hheld]
  have hdesc : p.core.descOf s = p.core.desc := by
    simp [CoreRegs.descOf, CoreRegs.desc, htype]
  have hcore : (p.next false store ready).core =
      { p.core with outDescVR := !p.coreDescReady ready } := by
    simp [Port.next, CoreRegs.next, hp, write_of_send hsend, CoreRegs.nextV, hv, ← htype]
  have hheld' := held_send ready hp hsend
  have hcommitted := committed_send ready hp hsend
  have htaken : p.taken ready = if p.coreDescReady ready then [p.core.desc] else [] := by
    simp [Port.taken, Port.transfers, hv]
  rw [Accounts, waiting_of_held hheld hsend, hcommitted, htaken, hdesc]
  cases hready : p.coreDescReady ready with
  | true =>
    rw [hready, if_pos rfl] at hheld'
    refine ⟨⟨by simp [hheld'], by simp [hheld']⟩, ?_⟩
    rw [waiting_of_not_v (p := p.next false store ready) (by simp [hcore, hready])]
    simp
  | false =>
    simp only [hready, Bool.false_eq_true, if_false] at hheld'
    refine ⟨⟨by simp [hheld', hready, hcore, htype], by simp [hheld', h.rewrites s hheld]⟩, ?_⟩
    simp [waiting_of_held hheld' hsend]

/-- A descriptor that waits stays as it is. -/
theorem desc_next (hv : p.core.outDescVR = true) (hready : p.coreDescReady ready = false)
    (hp : ∀ s ∈ p.presented store, s.sendOutDesc = false)
    (hrewr : ∀ s ∈ p.presented store, s.rewrites = false) :
    (p.next false store ready).core.desc = p.core.desc := by
  cases hh : p.presented store with
  | none => simp [Port.next, CoreRegs.next, hh, CoreRegs.desc]
  | some s =>
    have hwrite := write_of_blocked hv hready (hp s (by simp [hh])) (hrewr s (by simp [hh]))
    simp [Port.next, CoreRegs.next, hh, hwrite, CoreRegs.desc]

/-- No store is on the bus, or one that sends nothing. -/
theorem accounts_not_send (hp : ∀ s ∈ p.presented store, s.sendOutDesc = false)
    (hrewr : p.core.outDescVR = true → ∀ s ∈ p.presented store, s.rewrites = false) :
    Accounts p store ready := by
  have hheld : p.heldSend = false := by
    cases hh : p.held with
    | none => simp [Port.heldSend, hh]
    | some s => simpa [Port.heldSend, hh] using hp s (by simp [Port.presented, hh])
  have hheld' : ∀ s ∈ (p.next false store ready).held,
      s ∈ p.presented store ∧ p.commits store ready = false := by
    intro s hs
    simp only [Port.next, Bool.false_eq_true, if_false] at hs
    split at hs
    · simp at hs
    · rename_i hcommits
      exact ⟨hs, by simpa using hcommits⟩
  have hheldSend' : (p.next false store ready).heldSend = false := by
    cases hh : (p.next false store ready).held with
    | none => simp [Port.heldSend, hh]
    | some s => simpa [Port.heldSend, hh] using hp s (hheld' s (by simp [hh])).1
  have hany : (p.presented store).any (·.sendOutDesc) = false := by
    cases hh : p.presented store with
    | none => rfl
    | some s => simpa [hh] using hp s (by simp [hh])
  have hcommitted : p.committed store ready = [] := by
    unfold Port.committed
    cases hh : p.presented store with
    | none => rfl
    | some s => simp [hp s (by simp [hh])]
  have hv' : (p.next false store ready).core.outDescVR =
      (p.core.outDescVR && !p.coreDescReady ready) := by
    cases hv : p.core.outDescVR <;> cases hr : p.coreDescReady ready <;>
      simp [Port.next, CoreRegs.next, CoreRegs.nextV, hany, hv, hr]
  refine ⟨⟨fun s hs hsend => ?_, fun s hs => ?_⟩, ?_⟩
  · simp [hp s (hheld' s hs).1] at hsend
  · obtain ⟨hpres, hcommits⟩ := hheld' s hs
    by_contra hne
    have hpres' : p.presented store = some s := hpres
    simp [Port.commits, hpres', ioWrReady_of_rewrites (Bool.not_eq_false _ ▸ hne)] at hcommits
  · rw [hcommitted, List.append_nil]
    simp only [Port.waiting, Port.taken, Port.transfers, hheld, hheldSend', hv', Bool.not_false,
      Bool.and_true]
    rcases Bool.eq_false_or_eq_true p.core.outDescVR with hv | hv
    · rcases Bool.eq_false_or_eq_true (p.coreDescReady ready) with hready | hready
      · simp [hv, hready]
      · simp [hv, hready, desc_next hv hready hp (hrewr hv)]
    · simp [hv]

section Patient
variable (h : p.Inv) (hp : Patient p store) (hn : NoRewrite p store)
include h hp hn

/-- What can be on the bus of a patient core: a new store of a type with no descriptor
waiting, a held one whose descriptor waits, or nothing that sends. -/
theorem Port.Inv.cases :
    (∃ s, p.presented store = some s ∧ s.sendOutDesc = true ∧ p.core.outDescVR = false) ∨
      (∃ s, p.held = some s ∧ s.sendOutDesc = true) ∨
      ((∀ s ∈ p.presented store, s.sendOutDesc = false) ∧
        (p.core.outDescVR = true → ∀ s ∈ p.presented store, s.rewrites = false)) := by
  have hrewr : p.core.outDescVR = true → ∀ s ∈ p.presented store, s.rewrites = false := by
    intro hv s hs
    cases hh : p.held with
    | none =>
      by_contra hne
      have hlow := hn s (by simpa [presented, hh] using hs) (by simpa using hne)
      simp [hv] at hlow
    | some t =>
      have heq : s = t := by simpa [presented, hh, eq_comm] using hs
      exact heq ▸ h.rewrites t hh
  cases hs : p.presented store with
  | none => exact .inr (.inr ⟨by simp, fun _ => by simp⟩)
  | some s =>
    cases hsend : s.sendOutDesc with
    | false => exact .inr (.inr ⟨by simp [hsend], hs ▸ hrewr⟩)
    | true =>
      cases hh : p.held with
      | none =>
        have hstore : store = some s := by simpa [presented, hh] using hs
        exact .inl ⟨s, rfl, hsend, hp hh s hstore hsend⟩
      | some t =>
        have heq : t = s := by simpa [presented, hh] using hs
        exact .inr (.inl ⟨t, rfl, heq ▸ hsend⟩)

/-- **One cycle of a patient core** keeps the account of its descriptors. -/
theorem Port.Inv.accounts : Accounts p store ready := by
  obtain ⟨s, hs, hsend, hv⟩ | ⟨s, hheld, hsend⟩ | ⟨hnot, hrewr⟩ := h.cases hp hn
  · exact accounts_send_new ready hs hsend hv
  · exact accounts_send_held h hheld hsend
  · exact accounts_not_send hnot hrewr

/-- A descriptor that is not taken stays at the port, unchanged. -/
theorem Port.Inv.stays (hv : p.core.outDescVR = true) (hready : p.coreDescReady ready = false) :
    (p.next false store ready).core.outDescVR = true ∧
      (p.next false store ready).core.desc = p.core.desc := by
  refine ⟨by simp [next, CoreRegs.next, CoreRegs.nextV, hv, hready], ?_⟩
  obtain ⟨s, -, -, hv'⟩ | ⟨s, hheld, hsend⟩ | ⟨hnot, hrewr⟩ := h.cases hp hn
  · simp [hv] at hv'
  · obtain ⟨-, htype⟩ := h.send s hheld hsend
    simp [next, CoreRegs.next, presented, hheld, write_of_send hsend, CoreRegs.desc, ← htype]
  · exact desc_next hv hready hnot (hrewr hv)

end Patient
end Cycle

/-! ## Runs -/

/-- The port with what has been committed and what has been taken. -/
structure Bench where
  port : Port
  committed : List Desc
  transferred : List Desc

/-- One cycle: the next store of the core, if it makes one (it counts only when none is
held), and whether `rpu_controller`'s beat is taken. -/
structure Cycle where
  store : Option Store
  outDescReady : Bool

namespace Bench
variable (b : Bench) (c : Cycle)

def step : Bench where
  port := b.port.next false c.store c.outDescReady
  committed := b.committed ++ b.port.committed c.store c.outDescReady
  transferred := b.transferred ++ b.port.taken c.outDescReady

/-- Out of reset; the data registers hold anything. -/
structure Start (b : Bench) : Prop where
  outDescVR : b.port.core.outDescVR = false
  held : b.port.held = none
  committed : b.committed = []
  transferred : b.transferred = []

/-- The account of a run. -/
structure Inv (b : Bench) : Prop where
  port : b.port.Inv
  committed : b.committed = b.transferred ++ b.port.waiting

theorem Start.inv {b : Bench} (h : b.Start) : b.Inv where
  port := ⟨by simp [h.held], by simp [h.held]⟩
  committed := by simp [h.committed, h.transferred, waiting_of_not_v h.outDescVR]

theorem Inv.step {b : Bench} {c : Cycle} (h : b.Inv) (hp : Patient b.port c.store)
    (hn : NoRewrite b.port c.store) : (b.step c).Inv := by
  obtain ⟨hport, haccount⟩ : Accounts b.port c.store c.outDescReady := h.port.accounts hp hn
  refine ⟨hport, ?_⟩
  show b.committed ++ _ = (b.transferred ++ _) ++ _
  rw [h.committed, List.append_assoc, haccount, List.append_assoc]
  rfl

end Bench

/-- **Each store of a type sends one descriptor.**  In every state of a run in which the
core stores a type only when no descriptor waits, the descriptors taken are those of the
committed stores, in order, but for one that still waits; and a descriptor that waits does
not change until it is taken. -/
theorem descriptors_of_patient {b : Bench} (hb : b.Start) (cycles : List Cycle)
    (hc : Meets Bench.step (fun b c => NoRewrite b.port c.store ∧ Patient b.port c.store) b
      cycles) :
    let b' := run Bench.step b cycles
    b'.committed = b'.transferred ++ b'.port.waiting ∧
      ∀ c : Cycle, NoRewrite b'.port c.store → Patient b'.port c.store →
        b'.port.core.outDescVR = true → b'.port.coreDescReady c.outDescReady = false →
        (b'.step c).port.core.outDescVR = true ∧
          (b'.step c).port.core.desc = b'.port.core.desc := by
  intro b'
  have hinv : b'.Inv := run_invariant (fun _ _ h hc => h.step hc.2 hc.1) hb.inv hc
  exact ⟨hinv.committed, fun c hn hp hv hready => hinv.port.stays hp hn hv hready⟩

/-- A core out of reset. -/
def sample : Bench := ⟨⟨⟨0, 0, 0, false⟩, false, none⟩, [], []⟩

/-- The store of a type. -/
def sendStore (type : BitVec 32) : Option Store := some ⟨0b001010, 0xF, type⟩

/-- Two descriptors with a pause between them, in which the length is written. -/
def pausing : List Cycle :=
  [⟨sendStore 0, true⟩, ⟨none, true⟩, ⟨some ⟨0b000010, 0x3, 0x40⟩, true⟩, ⟨sendStore 1, true⟩,
    ⟨none, true⟩]

theorem descriptors_of_patient_pausing :
    let b' := run Bench.step sample pausing
    b'.transferred = [⟨0, 0⟩, ⟨0x1000000000000040, 0⟩] ∧
      b'.committed = b'.transferred ++ b'.port.waiting :=
  ⟨by decide +kernel,
    (descriptors_of_patient (b := sample) ⟨rfl, rfl, rfl, rfl⟩ pausing (by decide +kernel)).1⟩

/-- **The second of two stores of a type in a row is lost**: both commit, one descriptor is
taken and none waits. -/
theorem second_send_lost :
    let b' := run Bench.step sample [⟨sendStore 0, true⟩, ⟨sendStore 1, true⟩, ⟨none, true⟩]
    sample.Start ∧ b'.committed.length = 2 ∧ b'.transferred.length = 1 ∧
      b'.port.core.outDescVR = false := by
  refine ⟨⟨rfl, rfl, rfl, rfl⟩, ?_⟩
  decide +kernel
end Rosebud.OutDescPort
