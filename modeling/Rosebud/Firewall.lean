import Rosebud.Clocked
import Rosebud.IpMatchGenerator

/-! # The firewall accelerator

`accel_wrap_firewall` gives the core two registers: the address to look up, and whether the
generated matcher found it.  The matcher takes two cycles, so that a read of the result which comes
too early is stalled, until `done` is high and no address is on its way in.

`Phase` says how far an address has come, in cycles since it was written.
-/
namespace Rosebud.Firewall
open Clocked IpMatchGenerator

/-- The registers of the generated modules; `out` are those of the tables. -/
structure Matcher where
  addrR : BitVec 32
  validR : Bool
  matchR : Bool
  done : Bool
  out : Table → Bool

def Matcher.next (F : Design) (m : Matcher) (rst valid : Bool) (addr : BitVec 32) : Matcher where
  addrR := addr
  validR := !rst && valid
  matchR := !rst && ((m.matchR || F.matchN m.out m.addrR) && !valid)
  done := !rst && ((m.done || m.validR) && !valid)
  out := fun t => !rst && t.lookup addr

/-- The I/O port of the core. -/
structure Cycle where
  rst : Bool
  ioEn : Bool
  ioWen : Bool
  ioAddr : BitVec 22
  ioWrData : BitVec 32

namespace Cycle
variable (c : Cycle)

/-- `io_addr[3:2]==2'b00` -/
def srcIpAddr : Bool := c.ioAddr.extractLsb' 2 2 == 0

/-- A write of the address. -/
def write : Bool := c.ioEn && c.ioWen && c.srcIpAddr

def read : Bool := c.ioEn && !c.ioWen

/-- A read of the result. -/
def readMatch : Bool := c.read && !c.srcIpAddr

end Cycle

structure Wrap where
  srcIpReg : BitVec 32
  srcIpValidReg : Bool
  readDataStallReg : Bool
  readDataReg : BitVec 32
  readDataValidReg : Bool
  firewall : Matcher

/-- The address as it stands in the packet has its bytes the other way around. -/
def byteSwap (a : BitVec 32) : BitVec 32 :=
  a.extractLsb' 0 8 ++ a.extractLsb' 8 8 ++ a.extractLsb' 16 8 ++ a.extractLsb' 24 8

namespace Wrap
variable (F : Design) (w : Wrap) (c : Cycle)

/-- A bit in a register of the port. -/
def flag (b : Bool) : BitVec 32 := if b then 1 else 0

/-- `read_data_reg`, `read_data_valid_reg` and `read_data_stall_reg` after the cycle. -/
def nextRead : BitVec 32 × Bool × Bool :=
  -- core keeps the address in case of stall, there is only 1 accel
  if w.readDataStallReg then (flag w.firewall.matchR, w.firewall.done, !w.firewall.done)
  else if c.readMatch then
    (flag w.firewall.matchR, w.firewall.done && !w.srcIpValidReg,
      !w.firewall.done || w.srcIpValidReg)
  else if c.read then (w.srcIpReg, true, w.readDataStallReg)
  else (w.readDataReg, false, w.readDataStallReg)

def next : Wrap where
  srcIpReg := if c.write then c.ioWrData else w.srcIpReg
  srcIpValidReg := !c.rst && c.write
  readDataReg := (w.nextRead c).1
  readDataValidReg := !c.rst && (w.nextRead c).2.1
  readDataStallReg := !c.rst && (w.nextRead c).2.2
  firewall := w.firewall.next F c.rst w.srcIpValidReg (byteSwap w.srcIpReg)

/-- A read is held until it is answered: while it is stalled, the core does nothing else. -/
def Held : Prop := w.readDataStallReg = true → c.ioEn = false ∨ c.readMatch = true
deriving Decidable

/-- The data of the first answer, in the cycle of `w` or in one of the next. -/
def reply : Wrap → List Cycle → Option (BitVec 32)
  | w, [] => if w.readDataValidReg then some w.readDataReg else none
  | w, c :: cycles => if w.readDataValidReg then some w.readDataReg else reply (w.next F c) cycles

/-! ## An address on its way -/

/-- Where the address `a` is, so many cycles after the one in which it was written. -/
def Phase (a : BitVec 32) : Nat → Wrap → Prop
  | 0, w => w.srcIpReg = a ∧ w.srcIpValidReg = true
  | 1, w => w.srcIpReg = a ∧ w.srcIpValidReg = false ∧
      w.firewall = ⟨byteSwap a, true, false, false, (·.lookup (byteSwap a))⟩
  | _ + 2, w => w.srcIpReg = a ∧ w.srcIpValidReg = false ∧
      w.firewall = ⟨byteSwap a, false, F.matchN (·.lookup (byteSwap a)) (byteSwap a), true,
        (·.lookup (byteSwap a))⟩

variable {F w c} {a : BitVec 32} {k : Nat}

theorem phase_of_write (hrst : c.rst = false) (hwrite : c.write = true) :
    Phase F c.ioWrData 0 (w.next F c) := by
  constructor
  · exact if_pos hwrite
  · simp [next, hrst, hwrite]

/-- **One cycle**, without another address. -/
theorem Phase.next (h : Phase F a k w) (hrst : c.rst = false) (hwrite : c.write = false) :
    Phase F a (k + 1) (w.next F c) := by
  have hreg : (w.next F c).srcIpReg = w.srcIpReg := if_neg (by simp [hwrite])
  have hvalid : (w.next F c).srcIpValidReg = false := by simp [Wrap.next, hwrite]
  match k, h with
  | 0, ⟨ha, hv⟩ =>
    refine ⟨hreg.trans ha, hvalid, ?_⟩
    simp [Wrap.next, Matcher.next, hrst, hv, ha]
  | 1, ⟨ha, hv, hm⟩ =>
    refine ⟨hreg.trans ha, hvalid, ?_⟩
    simp [Wrap.next, Matcher.next, hrst, hv, ha, hm]
  | k + 2, ⟨ha, hv, hm⟩ =>
    refine ⟨hreg.trans ha, hvalid, ?_⟩
    simp [Wrap.next, Matcher.next, hrst, hv, ha, hm]

/-- The address last written, after the ones before. -/
def lastWritten (a : Option (BitVec 32)) (cycles : List Cycle) : Option (BitVec 32) :=
  cycles.foldl (fun a c => if c.write then some c.ioWrData else a) a

/-- The address last written is on its way, and none is new while a read is stalled. -/
structure Tracks (F : Design) (a : Option (BitVec 32)) (w : Wrap) : Prop where
  phase : ∀ x, a = some x → ∃ k, Phase F x k w
  stall : w.readDataStallReg = true → w.srcIpValidReg = false

theorem tracks_of_rst (hrst : c.rst = true) : Tracks F none (w.next F c) where
  phase := by simp
  stall := by simp [Wrap.next, hrst]

/-- What is asked or stalled does not write. -/
theorem write_of_readMatch (hread : c.readMatch = true) : c.write = false := by
  revert hread
  simp only [Cycle.readMatch, Cycle.read, Cycle.write]
  cases c.ioEn <;> cases c.ioWen <;> simp

theorem Held.write (h : w.Held c) (hstall : w.readDataStallReg = true) : c.write = false := by
  rcases h hstall with hen | hread
  · simp [Cycle.write, hen]
  · exact write_of_readMatch hread

theorem write_of_stall_next (h : w.Held c) (hstall : (w.next F c).readDataStallReg = true) :
    c.write = false := by
  by_cases hs : w.readDataStallReg = true
  · exact h.write hs
  · by_cases hread : c.readMatch = true
    · exact write_of_readMatch hread
    · -- no read begins to wait
      have hnone : (w.nextRead c).2.2 = false := by
        rw [nextRead, if_neg hs, if_neg hread]
        split_ifs <;> exact Bool.eq_false_of_not_eq_true hs
      simp [Wrap.next, hnone] at hstall

theorem Tracks.next {a : Option (BitVec 32)} (h : Tracks F a w) (hheld : w.Held c)
    (hrst : c.rst = false) :
    Tracks F (if c.write then some c.ioWrData else a) (w.next F c) where
  phase := by
    intro x hx
    by_cases hwrite : c.write = true
    · rw [if_pos hwrite] at hx
      obtain rfl := Option.some.inj hx
      exact ⟨0, phase_of_write hrst hwrite⟩
    · rw [if_neg hwrite] at hx
      obtain ⟨k, hk⟩ := h.phase x hx
      exact ⟨k + 1, hk.next hrst (Bool.eq_false_of_not_eq_true hwrite)⟩
  stall := by
    intro hstall
    simp [Wrap.next, write_of_stall_next hheld hstall]

theorem Tracks.run {a : Option (BitVec 32)} {cycles : List Cycle} (h : Tracks F a w)
    (hrst : ∀ c ∈ cycles, c.rst = false) (hheld : Meets (Wrap.next F) Held w cycles) :
    Tracks F (lastWritten a cycles) (Clocked.run (Wrap.next F) w cycles) := by
  induction cycles generalizing w a with
  | nil => exact h
  | cons c cycles ih =>
    exact ih (h.next hheld.1 (hrst c List.mem_cons_self))
      (fun d hd => hrst d (List.mem_cons_of_mem c hd)) hheld.2

/-! ## Reads -/

/-- A read of the result is asked or stalled in the cycle. -/
def Asked (w : Wrap) (c : Cycle) : Prop := w.readDataStallReg = true ∨ c.readMatch = true

theorem Asked.write (h : Asked w c) (hheld : w.Held c) : c.write = false := by
  rcases h with hstall | hread
  · exact hheld.write hstall
  · exact write_of_readMatch hread

/-- Two cycles after the write the read is answered at once. -/
theorem answered_of_phase (h : Phase F a (k + 2) w) (hasked : Asked w c) (hrst : c.rst = false) :
    (w.next F c).readDataValidReg = true ∧
      (w.next F c).readDataReg = flag (F.matchN (·.lookup (byteSwap a)) (byteSwap a)) := by
  obtain ⟨-, hvalid, hm⟩ := h
  by_cases hstall : w.readDataStallReg = true
  · simp [next, nextRead, hstall, hm, hrst]
  · have hread := hasked.resolve_left hstall
    simp [next, nextRead, hstall, hread, hm, hvalid, hrst]

/-- Before, it is stalled. -/
theorem stalled_of_phase (h : Phase F a k w) (hk : k < 2) (hasked : Asked w c)
    (hstall : w.readDataStallReg = true → w.srcIpValidReg = false) (hrst : c.rst = false) :
    (w.next F c).readDataValidReg = false ∧ (w.next F c).readDataStallReg = true := by
  match k, h with
  | 0, ⟨_, hvalid⟩ =>
    have hs : ¬w.readDataStallReg = true := fun hs => by simp [hstall hs] at hvalid
    have hread := hasked.resolve_left hs
    simp [next, nextRead, hs, hread, hvalid, hrst]
  | 1, ⟨_, _, hm⟩ =>
    by_cases hs : w.readDataStallReg = true
    · simp [next, nextRead, hs, hm, hrst]
    · have hread := hasked.resolve_left hs
      simp [next, nextRead, hs, hread, hm, hrst]

theorem reply_of_valid (h : w.readDataValidReg = true) (cycles : List Cycle) :
    reply F w cycles = some w.readDataReg := by
  cases cycles <;> exact if_pos h

theorem reply_of_settled (h : Phase F a (k + 2) w) (hasked : Asked w c) (hrst : c.rst = false)
    (cycles : List Cycle) :
    reply F (w.next F c) cycles =
      some (flag (F.matchN (·.lookup (byteSwap a)) (byteSwap a))) := by
  obtain ⟨hvalid, hdata⟩ := answered_of_phase h hasked hrst
  rw [reply_of_valid hvalid, hdata]

/-- **A read.**  It is answered with what the matcher makes of the address, as soon as two cycles
have passed since the address was written. -/
theorem reply_of_phase {cycles : List Cycle} (h : Phase F a k w) (hasked : Asked w c)
    (hstall : w.readDataStallReg = true → w.srcIpValidReg = false)
    (hrst : ∀ d ∈ c :: cycles, d.rst = false) (hheld : Meets (Wrap.next F) Held w (c :: cycles)) :
    reply F (w.next F c) cycles = if k + cycles.length < 2 then none
      else some (flag (F.matchN (·.lookup (byteSwap a)) (byteSwap a))) := by
  induction cycles generalizing w c k with
  | nil =>
    have hrst₀ : c.rst = false := hrst c List.mem_cons_self
    rcases Nat.lt_or_ge k 2 with hk | hk
    · obtain ⟨hvalid, -⟩ := stalled_of_phase h hk hasked hstall hrst₀
      rw [List.length_nil, Nat.add_zero, if_pos hk]
      exact if_neg (by simp [hvalid])
    · obtain ⟨k, rfl⟩ := Nat.exists_eq_add_of_le' hk
      exact reply_of_settled h hasked hrst₀ _
  | cons d cycles ih =>
    have hrst₀ : c.rst = false := hrst c List.mem_cons_self
    rcases Nat.lt_or_ge k 2 with hk | hk
    · obtain ⟨hvalid, hstalled⟩ := stalled_of_phase h hk hasked hstall hrst₀
      have hwrite := hasked.write hheld.1
      have hrest := ih (h.next hrst₀ hwrite) (.inl hstalled) (fun _ => by simp [next, hwrite])
        (fun e he => hrst e (List.mem_cons_of_mem c he)) hheld.2
      rw [reply, if_neg (by simp [hvalid]), hrest, List.length_cons, Nat.add_assoc,
        Nat.add_comm 1]
    · obtain ⟨k, rfl⟩ := Nat.exists_eq_add_of_le' hk
      rw [if_neg (by omega)]
      exact reply_of_settled h hasked hrst₀ _

end Wrap

open Wrap

/-- A run that begins with a reset, of any registers, up to a read of the result and on.  At the
time of the read `addr` is the address last written. -/
structure Session (T : PrefixTable) where
  start : Wrap
  reset : Cycle
  before : List Cycle
  read : Cycle
  after : List Cycle
  addr : BitVec 32
  reset_rst : reset.rst = true
  rst : ∀ c ∈ before ++ read :: after, c.rst = false
  held : Meets (Wrap.next T.design) Held (start.next T.design reset) (before ++ read :: after)
  read_readMatch : read.readMatch = true
  written : lastWritten none before = some addr

namespace Session
variable {T : PrefixTable} (x : Session T)

/-- The registers at the time of the read. -/
def asked : Wrap := run (Wrap.next T.design) (x.start.next T.design x.reset) x.before

/-- The answer to the read. -/
def reply : Option (BitVec 32) := Wrap.reply T.design (x.asked.next T.design x.read) x.after

/-- Whether the address is in the table, as the port shows it. -/
def expected : BitVec 32 := if Listed T.prefixes (byteSwap x.addr) then 1 else 0

theorem flag_matchN : flag (T.design.matchN (·.lookup (byteSwap x.addr)) (byteSwap x.addr)) =
    x.expected := by
  simp only [flag, expected, PrefixTable.lookup_iff]

theorem exists_reply : ∃ k, x.reply =
    if k + x.after.length < 2 then none else some x.expected := by
  obtain ⟨hbefore, hafter⟩ := meets_append.mp x.held
  have htracks : Tracks T.design (some x.addr) x.asked := by
    rw [← x.written]
    exact (tracks_of_rst x.reset_rst).run
      (fun c hc => x.rst c (List.mem_append_left _ hc)) hbefore
  obtain ⟨k, hk⟩ := htracks.phase x.addr rfl
  refine ⟨k, ?_⟩
  rw [← x.flag_matchN]
  exact reply_of_phase hk (.inr x.read_readMatch) htracks.stall
    (fun c hc => x.rst c (List.mem_append_right _ hc)) hafter

end Session

/-- **The firewall matches exactly the prefix table.**  Whatever the core did before, a read of the
result is answered with 1 if one of the prefixes is a prefix of the address last written, with its
bytes swapped, and with 0 if not, within three cycles. -/
theorem answers_listed (T : PrefixTable) (x : Session T) :
    (∀ v, x.reply = some v → v = if Listed T.prefixes (byteSwap x.addr) then 1 else 0) ∧
    (2 ≤ x.after.length →
      x.reply = some (if Listed T.prefixes (byteSwap x.addr) then 1 else 0)) := by
  obtain ⟨k, hreply⟩ := x.exists_reply
  constructor
  · intro v hv
    rw [hreply] at hv
    split_ifs at hv
    exact (Option.some.inj hv).symm
  · intro hlen
    rw [hreply, if_neg (by omega)]
    rfl

/-- A prefix of nine bits, one with a table of its own, and two that share one. -/
def samplePrefixes : List Bits :=
  [(toBits 0x0A000000).take 9, (toBits 0xC0A80000).take 16, (toBits 0xAC100000).take 12,
    (toBits 0xC0AC0100).take 24]

def sampleTable : PrefixTable where
  prefixes := samplePrefixes
  firstLvlLen_le := by decide +kernel
  length_le := by decide +kernel
  no_error := by decide +kernel
  exists_longer := by decide +kernel

/-- Two addresses are written, 8.8.8.8 and 192.168.1.5, and the result is read at once. -/
def sampleSession : Session sampleTable where
  start := ⟨0, false, false, 0, false, ⟨0, false, false, false, fun _ => false⟩⟩
  reset := ⟨true, false, false, 0, 0⟩
  before := [⟨false, true, true, 0, 0x08080808⟩, ⟨false, true, true, 0, 0x0501A8C0⟩]
  read := ⟨false, true, false, 4, 0⟩
  after := List.replicate 2 ⟨false, false, false, 4, 0⟩
  addr := 0x0501A8C0
  reset_rst := rfl
  rst := by decide
  held := by decide +kernel
  read_readMatch := by decide
  written := by decide

theorem answers_listed_sampleSession :
    sampleSession.reply = some 1 ∧ Listed samplePrefixes (byteSwap sampleSession.addr) ∧
      (2 ≤ sampleSession.after.length → sampleSession.reply =
        some (if Listed samplePrefixes (byteSwap sampleSession.addr) then 1 else 0)) :=
  ⟨by decide +kernel, by decide +kernel, (answers_listed sampleTable sampleSession).2⟩

end Rosebud.Firewall
