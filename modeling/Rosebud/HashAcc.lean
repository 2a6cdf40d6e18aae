import Rosebud.Clocked
import Rosebud.Lanes
import Rosebud.Selectors
import Rosebud.Toeplitz

/-! # The hash accelerator

`accel_wrap` passes each I/O write on, one cycle later, to `hash_acc`, which appends the bytes of
the write to a register of 36 bytes; `hash_toep` is a loop over all bits of that register.

`Tracks` says what the registers hold after a clear: the bytes written since, of which those of
the last cycle may still be in the registers of the wrapper.  What is read is therefore the
Toeplitz hash of the bytes, whatever the writes were that brought them (`answers_hash`).
-/
namespace Rosebud
open Clocked Lanes Loops

/-! ## `hash_acc` -/

/-- The registers for `hw` bytes (`HASH_WIDTH`). -/
structure HashAcc (hw : Nat) where
  hashDataReg : BitVec (8 * hw)
  offsetReg : BitVec (clog2 hw)

namespace HashAcc
variable {hw : Nat}

structure Inputs where
  rst : Bool
  hashData : BitVec 32
  hashDataLen : BitVec 2
  hashDataValid : Bool
  hashClear : Bool

def hashToep (data : BitVec (8 * hw)) (len : BitVec 6) (key : BitVec ((hw + 4) * 8)) : BitVec 32 :=
  forLt len.toNat
    (fun h i =>
      forLt 8
        (fun h j =>
          if data.getLsbD (i * 8 + (7 - j)) then
            h ^^^ key.extractLsb' ((hw + 4) * 8 - 32 - i * 8 - j) 32
          else h)
        h)
    0

def hashOut (s : HashAcc hw) (hashKey : BitVec ((hw + 4) * 8)) : BitVec 32 :=
  hashToep s.hashDataReg (BitVec.ofNat 6 hw) hashKey

def next (s : HashAcc hw) (i : Inputs) : HashAcc hw :=
  if i.rst || i.hashClear then ⟨0, 0⟩
  else if i.hashDataValid then
    if i.hashDataLen = 1 then
      { hashDataReg := put s.hashDataReg (8 * s.offsetReg.toNat) (i.hashData.extractLsb' 0 8)
        offsetReg := s.offsetReg + 1 }
    else if i.hashDataLen = 2 then
      { hashDataReg := put s.hashDataReg (8 * s.offsetReg.toNat) (i.hashData.extractLsb' 0 16)
        offsetReg := s.offsetReg + 2 }
    else
      { hashDataReg := put s.hashDataReg (8 * s.offsetReg.toNat) i.hashData
        offsetReg := s.offsetReg + 4 }
  else s

/-- The number of bytes `hash_data_len` stands for. -/
def lenBytes (len : BitVec 2) : Nat := if len = 1 then 1 else if len = 2 then 2 else 4

/-- The bytes an input brings. -/
def Inputs.bytes (i : Inputs) : List (BitVec 8) :=
  if i.hashDataValid then lanes i.hashData 0 (lenBytes i.hashDataLen) else []

/-- The register holds a string, with zeros behind it. -/
structure Holds (s : HashAcc hw) (bs : List (BitVec 8)) : Prop where
  offsetReg : s.offsetReg.toNat = bs.length
  lane_eq : ∀ j < hw, lane s.hashDataReg j = bs.getD j 0

variable {s : HashAcc hw} {bs : List (BitVec 8)}

theorem holds_of_clear {i : Inputs} (h : (i.rst || i.hashClear) = true) (s : HashAcc hw) :
    (s.next i).Holds [] := by
  rw [next, if_pos h]
  refine ⟨rfl, fun j _ => ?_⟩
  simp [lane]

theorem getD_lanes {n : Nat} (v : BitVec n) {k i : Nat} (hi : i < k) :
    (lanes v 0 k).getD i 0 = lane v i := by
  simp [lanes, hi]

/-- Bytes written at the offset are appended. -/
theorem Holds.put {k : Nat} {offset : BitVec (clog2 hw)} (h : s.Holds bs) (v : BitVec (8 * k))
    (hle : bs.length + k ≤ hw) (hlt : hw < 2 ^ clog2 hw)
    (hoffset : offset = s.offsetReg + BitVec.ofNat (clog2 hw) k) :
    Holds ⟨Lanes.put s.hashDataReg (8 * s.offsetReg.toNat) v, offset⟩ (bs ++ lanes v 0 k) := by
  have hlen : (lanes v 0 k).length = k := by simp [lanes]
  constructor
  · rw [hoffset, BitVec.toNat_add, BitVec.toNat_ofNat, Nat.add_mod_mod, h.offsetReg,
      List.length_append, hlen, Nat.mod_eq_of_lt (by omega)]
  · intro j hj
    rw [lane_put _ _ _ hj, h.offsetReg]
    by_cases hold : j < bs.length
    · rw [if_neg (by omega), h.lane_eq j hj, List.getD_append _ _ _ _ hold]
    · rw [List.getD_append_right _ _ _ _ (by omega)]
      by_cases hnew : j < bs.length + k
      · rw [if_pos (by omega), getD_lanes v (by omega)]
      · rw [if_neg (by omega), h.lane_eq j hj, List.getD_eq_default _ _ (by omega),
          List.getD_eq_default _ _ (by omega)]

/-- **A cycle appends the bytes it brings.** -/
theorem Holds.next {i : Inputs} (h : s.Holds bs) (hclear : (i.rst || i.hashClear) = false)
    (hle : (bs ++ i.bytes).length ≤ hw) (hlt : hw < 2 ^ clog2 hw) :
    (s.next i).Holds (bs ++ i.bytes) := by
  rw [HashAcc.next, hclear, if_neg Bool.false_ne_true]
  unfold Inputs.bytes at hle ⊢
  cases hv : i.hashDataValid with
  | false =>
    rw [if_neg Bool.false_ne_true, if_neg Bool.false_ne_true, List.append_nil]
    exact h
  | true =>
    rw [hv, if_pos rfl] at hle
    unfold lenBytes at hle ⊢
    by_cases h1 : i.hashDataLen = 1
    · rw [if_pos h1] at hle ⊢
      rw [if_pos h1, ← lanes_extractLsb' i.hashData 0 (Nat.le_refl 1)]
      exact h.put (k := 1) _ (by simpa [lanes] using hle) hlt rfl
    · rw [if_neg h1] at hle ⊢
      rw [if_neg h1]
      by_cases h2 : i.hashDataLen = 2
      · rw [if_pos h2] at hle ⊢
        rw [if_pos h2, ← lanes_extractLsb' i.hashData 0 (Nat.le_refl 2)]
        exact h.put (k := 2) _ (by simpa [lanes] using hle) hlt rfl
      · rw [if_neg h2] at hle ⊢
        rw [if_neg h2]
        exact h.put (k := 4) _ (by simpa [lanes] using hle) hlt rfl

/-! ### The hash -/

theorem window_eq {w i : Nat} (key : BitVec w) (h : i + 32 ≤ w) :
    Toeplitz.window 32 key i = key.extractLsb' (w - 32 - i) 32 := by
  ext j hj
  have hlt : w - 32 + j < w := by omega
  have hge : ¬ w - 32 + j < i := by omega
  have hsub : w - 32 + j - i = w - 32 - i + j := by omega
  rw [Toeplitz.window, BitVec.getElem_extractLsb', BitVec.getElem_extractLsb',
    BitVec.getLsbD_shiftLeft, decide_eq_true hlt, decide_eq_false hge, hsub]
  rfl

/-- **The loops compute the hash of the string held.** -/
theorem Holds.hashOut_eq (h : s.Holds bs) (hle : bs.length ≤ hw) (hhw : hw < 64)
    (key : BitVec ((hw + 4) * 8)) : s.hashOut key = Toeplitz.hash 32 key bs := by
  have hflat : s.hashOut key = Toeplitz.hashBits 32 key (Toeplitz.bitAt bs) (hw * 8) := by
    rw [hashOut, hashToep, Toeplitz.hashBits, forLt_mul, BitVec.toNat_ofNat,
      Nat.mod_eq_of_lt hhw]
    refine forLt_congr (fun x i hi => forLt_congr (fun y j hj => ?_) x) 0
    have hdiv : (i * 8 + j) / 8 = i := by omega
    have hmod : (i * 8 + j) % 8 = j := by omega
    have hbit : Toeplitz.bitAt bs (i * 8 + j) = s.hashDataReg.getLsbD (i * 8 + (7 - j)) := by
      have hplace : 8 * i + (8 - 1 - j) = i * 8 + (7 - j) := by omega
      rw [Toeplitz.bitAt, hdiv, hmod, ← h.lane_eq i hi, BitVec.getMsbD, decide_eq_true hj,
        Bool.true_and, lane, BitVec.getLsbD_extractLsb', hplace,
        decide_eq_true (by omega), Bool.true_and]
    rw [hbit, window_eq key (by omega), Nat.sub_sub _ (i * 8) j]
  have hlength : hw * 8 = 8 * bs.length + 8 * (hw - bs.length) := by omega
  rw [hflat, hlength, Toeplitz.hash, Toeplitz.hashBits_of_clear]
  intro i hi _
  rw [Toeplitz.bitAt, List.getD_eq_default _ _ (by omega)]
  simp

end HashAcc

/-! ## `accel_wrap` -/

structure HashWrap where
  hashDataReg : BitVec 32
  hashDataLenReg : BitVec 2
  hashDataValidReg : Bool
  hashClearReg : Bool
  readDataReg : BitVec 32
  readDataValidReg : Bool
  hashAcc : HashAcc 36

namespace HashWrap

structure Inputs where
  rst : Bool
  ioEn : Bool
  ioWen : Bool
  ioAddr : BitVec 22
  ioWrData : BitVec 32

def hashKey : BitVec 320 :=
  0x6d5a56da255b0ec24167253d43a38fb0d0ca2bcbae7b30b477cb2da38030f20c6a42b73bbeac01fa

/-- The address the `case` of the writes looks at. -/
def Inputs.writeAddr (i : Inputs) : BitVec 22 :=
  (i.ioAddr.extractLsb' 0 9).setWidth 22 &&& (BitVec.allOnes 22 <<< 2)

def Inputs.isWrite (i : Inputs) (addr : BitVec 22) : Bool :=
  i.ioEn && i.ioWen && decide (i.writeAddr = addr)

def Inputs.isRead (i : Inputs) : Bool :=
  i.ioEn && !i.ioWen && decide (i.ioAddr.extractLsb' 2 7 ++ 0#2 = 0x110#9)

def hashOut (s : HashWrap) : BitVec 32 := s.hashAcc.hashOut hashKey

def next (s : HashWrap) (i : Inputs) : HashWrap where
  hashDataReg := if i.ioEn && i.ioWen then i.ioWrData else s.hashDataReg
  hashDataLenReg :=
    if i.isWrite 0x104 then 1
    else if i.isWrite 0x108 then 2
    else if i.isWrite 0x10C then 0
    else s.hashDataLenReg
  hashDataValidReg := !i.rst && (i.isWrite 0x104 || i.isWrite 0x108 || i.isWrite 0x10C)
  hashClearReg := !i.rst && i.isWrite 0x100
  readDataReg := if i.isRead then s.hashOut else s.readDataReg
  readDataValidReg := !i.rst && i.isRead
  hashAcc :=
    s.hashAcc.next ⟨i.rst, s.hashDataReg, s.hashDataLenReg, s.hashDataValidReg, s.hashClearReg⟩

/-- The bytes a cycle writes. -/
def Inputs.bytes (i : Inputs) : List (BitVec 8) :=
  if i.isWrite 0x104 then lanes i.ioWrData 0 1
  else if i.isWrite 0x108 then lanes i.ioWrData 0 2
  else if i.isWrite 0x10C then lanes i.ioWrData 0 4
  else []

/-- The bytes on their way to the accumulator. -/
def pending (s : HashWrap) : List (BitVec 8) :=
  (HashAcc.Inputs.mk false s.hashDataReg s.hashDataLenReg s.hashDataValidReg false).bytes

variable {s : HashWrap} {i : Inputs} {bs : List (BitVec 8)}

/-- What a cycle writes is on its way in the next. -/
theorem pending_next (s : HashWrap) (hr : i.rst = false) : (s.next i).pending = i.bytes := by
  have hen : ∀ addr, i.isWrite addr = true → (i.ioEn && i.ioWen) = true :=
    fun addr h => (Bool.and_eq_true_iff.mp h).1
  have h1 := hen 0x104
  have h2 := hen 0x108
  have h3 := hen 0x10C
  unfold pending HashAcc.Inputs.bytes Inputs.bytes next
  generalize i.isWrite 0x104 = a, i.isWrite 0x108 = b, i.isWrite 0x10C = c at *
  cases a with
  | true => simp [hr, h1 rfl, HashAcc.lenBytes]
  | false =>
    cases b with
    | true => simp [hr, h2 rfl, HashAcc.lenBytes]
    | false =>
      cases c with
      | true => simp [hr, h3 rfl, HashAcc.lenBytes]
      | false => simp

/-- The bytes written since a clear are in the accumulator or on their way to it; right after the
clear, the accumulator is about to be emptied. -/
def Tracks (s : HashWrap) (bs : List (BitVec 8)) : Prop :=
  (s.hashClearReg = true ∧ bs = []) ∨
    (s.hashClearReg = false ∧ ∃ taken, s.hashAcc.Holds taken ∧ bs = taken ++ s.pending)

/-- A cycle without reset and clear. -/
def Inputs.Plain (i : Inputs) : Prop := i.rst = false ∧ i.isWrite 0x100 = false

instance (i : Inputs) : Decidable i.Plain := inferInstanceAs (Decidable (_ ∧ _))

/-- **A cycle takes in what was on its way**, and what it writes is on its way next. -/
theorem Tracks.next (h : s.Tracks bs) (hi : i.Plain) (hle : bs.length ≤ 36) :
    (s.next i).hashClearReg = false ∧ (s.next i).hashAcc.Holds bs ∧
      (s.next i).pending = i.bytes := by
  obtain ⟨hr, hnoclear⟩ := hi
  have hclear : (s.next i).hashClearReg = false := by
    change (!i.rst && i.isWrite 0x100) = false
    rw [hnoclear, Bool.and_false]
  refine ⟨hclear, ?_, pending_next s hr⟩
  rcases h with ⟨hc, rfl⟩ | ⟨hc, taken, hholds, rfl⟩
  · exact HashAcc.holds_of_clear (by simp [hc]) _
  · exact hholds.next (by simp [hr, hc]) hle (by decide)

theorem Tracks.run {cycles : List Inputs} (h : s.Tracks bs) (hplain : ∀ i ∈ cycles, i.Plain)
    (hle : (bs ++ cycles.flatMap Inputs.bytes).length ≤ 36) :
    (Clocked.run HashWrap.next s cycles).Tracks (bs ++ cycles.flatMap Inputs.bytes) := by
  induction cycles generalizing s bs with
  | nil => rwa [List.flatMap_nil, List.append_nil]
  | cons i cycles ih =>
    rw [List.flatMap_cons, ← List.append_assoc] at hle ⊢
    have hlen : bs.length ≤ 36 := by
      rw [List.length_append, List.length_append] at hle
      omega
    obtain ⟨hc, hholds, hpending⟩ := h.next (hplain i (List.mem_cons_self)) hlen
    have hstep : (s.next i).Tracks (bs ++ i.bytes) := .inr ⟨hc, bs, hholds, by rw [hpending]⟩
    exact ih hstep (fun j hj => hplain j (List.mem_cons_of_mem i hj)) hle

/-! ## What is read -/

/-- The use of the accelerator for one string: a clear, cycles that write the string, a cycle in
which the last write takes effect, and the read.  The registers before may hold anything. -/
structure Session where
  start : HashWrap
  clear : Inputs
  writes : List Inputs
  settle : Inputs
  read : Inputs
  clear_isWrite : clear.rst = false ∧ clear.isWrite 0x100 = true
  writes_plain : ∀ i ∈ writes, i.Plain
  length_le : (writes.flatMap Inputs.bytes).length ≤ 36
  settle_plain : settle.Plain ∧ settle.bytes = []
  read_isRead : read.rst = false ∧ read.isRead = true

namespace Session

/-- The string written. -/
def bytes (x : Session) : List (BitVec 8) := x.writes.flatMap Inputs.bytes

/-- The registers when the read is answered. -/
def final (x : Session) : HashWrap :=
  run next x.start (x.clear :: x.writes ++ [x.settle, x.read])

/-- `io_rd_data` -/
def answer (x : Session) : BitVec 32 := x.final.readDataReg

/-- `io_rd_valid` -/
def answered (x : Session) : Bool := x.final.readDataValidReg

theorem answer_eq (x : Session) : x.answer = Toeplitz.hash 32 hashKey x.bytes := by
  have hstart : (x.start.next x.clear).Tracks [] := by
    refine .inl ⟨?_, rfl⟩
    change (!x.clear.rst && x.clear.isWrite 0x100) = true
    rw [x.clear_isWrite.1, x.clear_isWrite.2]
    rfl
  have hwritten : (run next (x.start.next x.clear) x.writes).Tracks x.bytes :=
    hstart.run x.writes_plain x.length_le
  obtain ⟨-, hholds, -⟩ := hwritten.next x.settle_plain.1 x.length_le
  have hread : x.answer = ((run next (x.start.next x.clear) x.writes).next x.settle).hashOut := by
    rw [answer, final, run_append]
    exact if_pos x.read_isRead.2
  rw [hread, hashOut, hholds.hashOut_eq x.length_le (by decide)]

theorem answered_eq (x : Session) : x.answered = true := by
  rw [answered, final, run_append]
  change (!x.read.rst && x.read.isRead) = true
  rw [x.read_isRead.1, x.read_isRead.2]
  rfl

end Session

/-- **The accelerator answers with the Toeplitz hash of the bytes written**, at most 36 since the
clear, whatever they were written with; so equal strings have equal hashes, and the hash of an
exclusive or of two strings of one length is the exclusive or of their hashes. -/
theorem answers_hash :
    (∀ x : Session, x.answered = true ∧ x.answer = Toeplitz.hash 32 hashKey x.bytes) ∧
    (∀ x y : Session, x.bytes = y.bytes → x.answer = y.answer) ∧
    ∀ x y z : Session, x.bytes.length = y.bytes.length →
      z.bytes = List.zipWith (· ^^^ ·) x.bytes y.bytes → z.answer = x.answer ^^^ y.answer := by
  refine ⟨fun x => ⟨x.answered_eq, x.answer_eq⟩, ?_, ?_⟩
  · intro x y h
    rw [x.answer_eq, y.answer_eq, h]
  · intro x y z hlen hz
    rw [x.answer_eq, y.answer_eq, z.answer_eq, hz, Toeplitz.hash_xor hlen]

def write (addr : BitVec 22) (data : BitVec 32) : Inputs := ⟨false, true, true, addr, data⟩

def idle : Inputs := ⟨false, false, false, 0, 0⟩

/-- The addresses 66.9.149.187 and 161.142.100.80 with the ports 2794 and 1766: the first address
written as a word, the second by a half word, a pause and two bytes, the ports by a half word, a
longer pause and two bytes. -/
def sampleSession : Session where
  start := ⟨7, 1, true, false, 0, false, ⟨5, 9⟩⟩
  clear := write 0x100 0
  writes := [write 0x10C 0xBB950942, write 0x108 0x8EA1, idle, write 0x104 100, write 0x104 80,
    write 0x108 0xEA0A, idle, idle, write 0x104 6, write 0x104 0xE6]
  settle := idle
  read := ⟨false, true, false, 0x110, 0⟩
  clear_isWrite := by decide
  writes_plain := by decide
  length_le := by decide
  settle_plain := by decide
  read_isRead := by decide

theorem answers_hash_sampleSession :
    sampleSession.answer = 0x51ccc178 ∧
      sampleSession.answer = Toeplitz.hash 32 hashKey sampleSession.bytes :=
  ⟨by decide +kernel, (answers_hash.1 sampleSession).2⟩

end HashWrap

end Rosebud
