import Rosebud.Firewall

/-! # The firewall as a whole

`prefix_parser.py` makes the prefix table out of a file of networks (`listed_prefixParser`), and
`firewall.c` runs on a core with the generated matcher behind its I/O port.  `verdict` is what it
is for, in terms of the bytes of a packet and of the table, and what it sends (`verdicts_sent`).
-/
namespace Rosebud.Firewall
open Clocked IpMatchGenerator Wrap

/-! ## The table of `prefix_parser.py` -/

/-- `bin(x)[2:].zfill(8)` -/
def octetBits (x : Nat) : Bits :=
  let s := (Nat.toDigits 2 x).map (· == '1')
  List.replicate (8 - s.length) false ++ s

/-- `int(x)` of a string of digits. -/
def int (x : List Char) : Option Nat :=
  if x ≠ [] ∧ x.all Char.isDigit = true then some (Nat.ofDigitChars 10 x 0) else none

/-- The prefix of a line; there is none if the script stops with an exception. -/
def prefixOf (line : List Char) : Option Bits :=
  match (line.map fun c => if c = '/' then ' ' else c).splitOn ' ' with
  | net :: len :: _ => do
    let octets ← (net.splitOn '.').mapM int
    let n ← int len
    return (octets.flatMap octetBits).take n
  | _ => none

/-- The prefixes of the lines without a colon, sorted. -/
def prefixParser (lines : List (List Char)) : Option (List Bits) :=
  ((lines.filter (':' ∉ ·)).mapM prefixOf).map
    (List.insertionSort fun x y => strLe x y = true)

/-- A line of the file: an IPv4 network, or one of IPv6, which has a colon. -/
abbrev Line := (BitVec 32 × Nat) ⊕ {text : List Char // ':' ∈ text}

def octets (addr : BitVec 32) : List Nat :=
  [24, 16, 8, 0].map fun lo => (addr.extractLsb' lo 8).toNat

/-- The address with dots. -/
def dotted (addr : BitVec 32) : List Char := ['.'].intercalate ((octets addr).map (Nat.toDigits 10))

/-- The text of a line. -/
def Line.text : Line → List Char
  | .inl net => dotted net.1 ++ '/' :: Nat.toDigits 10 net.2
  | .inr line => line.1

section Lines
variable (net : BitVec 32 × Nat) {c : Char}

theorem int_toDigits (n : Nat) : int (Nat.toDigits 10 n) = some n := by
  have hdigits : (Nat.toDigits 10 n).all Char.isDigit = true :=
    List.all_eq_true.mpr fun c hc => Nat.isDigit_of_mem_toDigits (by decide) (by decide) hc
  rw [int, if_pos ⟨Nat.toDigits_ne_nil, hdigits⟩, Nat.ofDigitChars_toDigits (by decide) (by decide)]

theorem not_mem_toDigits (n : Nat) (hc : c.isDigit = false) : c ∉ Nat.toDigits 10 n := by
  intro hmem
  rw [Nat.isDigit_of_mem_toDigits (by decide) (by decide) hmem] at hc
  exact Bool.noConfusion hc

theorem not_mem_dotted (addr : BitVec 32) (hc : c.isDigit = false) (hdot : c ≠ '.') :
    c ∉ dotted addr := by
  simp [dotted, octets, List.intercalate, not_mem_toDigits _ hc, hdot]

theorem octetBits_toNat : ∀ b : BitVec 8,
    octetBits b.toNat = (List.range 8).map fun j => b.getLsbD (7 - j) := by
  decide +kernel

theorem flatMap_octets (addr : BitVec 32) : (octets addr).flatMap octetBits = toBits addr := by
  simp only [octets, List.map_cons, List.map_nil, List.flatMap_cons, List.flatMap_nil,
    octetBits_toNat, toBits, slice, BitVec.getLsbD_extractLsb']
  rfl

/-- The two fields of the line of a network. -/
theorem splitOn_text :
    ((Line.text (.inl net)).map fun c => if c = '/' then ' ' else c).splitOn ' ' =
      [dotted net.1, Nat.toDigits 10 net.2] := by
  have hsame : ∀ l : List Char, '/' ∉ l → l.map (fun c => if c = '/' then ' ' else c) = l := by
    intro l hl
    refine (List.map_congr_left fun c hc => if_neg ?_).trans (List.map_id l)
    rintro rfl
    exact hl hc
  have hfields : ([' '].intercalate [dotted net.1, Nat.toDigits 10 net.2]).splitOn ' ' = _ :=
    List.splitOn_intercalate ' ' (by simp [not_mem_dotted, not_mem_toDigits]) (by simp)
  rw [Line.text, List.map_append, List.map_cons, hsame _ (not_mem_dotted _ rfl (by decide)),
    hsame _ (not_mem_toDigits _ rfl), if_pos rfl]
  simpa [List.intercalate] using hfields

/-- The line of a network gives its first bits. -/
theorem prefixOf_text : prefixOf (Line.text (.inl net)) = some ((toBits net.1).take net.2) := by
  have hoctets : (dotted net.1).splitOn '.' = (octets net.1).map (Nat.toDigits 10) :=
    List.splitOn_intercalate '.' (by simp [octets, not_mem_toDigits]) (by simp [octets])
  have hints : ((octets net.1).map (Nat.toDigits 10)).mapM int = some (octets net.1) := by
    simp [octets, int_toDigits]
  rw [prefixOf, splitOn_text]
  simp [hoctets, hints, int_toDigits, flatMap_octets]

end Lines

/-- **The table lists the addresses of the IPv4 networks** that the file names. -/
theorem listed_prefixParser (lines : List Line) :
    ∃ table, prefixParser (lines.map Line.text) = some table ∧ ∀ addr, Listed table addr ↔
      ∃ net, .inl net ∈ lines ∧ ∀ i < 32, i < net.2 → addr.getMsbD i = net.1.getMsbD i := by
  have hparsed : ((lines.map Line.text).filter (':' ∉ ·)).mapM prefixOf =
      some ((lines.filterMap Sum.getLeft?).map fun net => (toBits net.1).take net.2) := by
    induction lines with
    | nil => rfl
    | cons line lines ih =>
      rw [List.map_cons]
      cases line with
      | inl net =>
        have hcolon : ':' ∉ Line.text (.inl net) := by
          simp [Line.text, not_mem_dotted, not_mem_toDigits]
        rw [List.filter_cons, if_pos (decide_eq_true hcolon), List.mapM_cons, prefixOf_text, ih]
        rfl
      | inr line =>
        have hcolon : ¬ ':' ∉ Line.text (.inr line) := not_not.mpr line.2
        rw [List.filter_cons, decide_eq_false hcolon, if_neg Bool.false_ne_true, ih]
        rfl
  have hmem : ∀ net, net ∈ lines.filterMap Sum.getLeft? ↔ .inl net ∈ lines := by
    simp [List.mem_filterMap, Sum.getLeft?_eq_some_iff]
  have hlen : ∀ a, (toBits a).length = 32 := fun a => length_slice a 31 0
  have hget : ∀ (a : BitVec 32) i (h : i < (toBits a).length), (toBits a)[i] = a.getMsbD i := by
    intro a i h
    rw [hlen] at h
    simp [toBits, slice, BitVec.getMsbD, h]
  refine ⟨_, by rw [prefixParser, hparsed]; rfl, fun addr => ?_⟩
  rw [Listed]
  simp only [(List.perm_insertionSort _ _).mem_iff, List.mem_map, exists_exists_and_eq_and, hmem]
  refine exists_congr fun net => and_congr_right fun _ => ?_
  rw [List.prefix_iff_getElem]
  simp only [List.getElem_take, hget, List.length_take, hlen]
  constructor
  · rintro ⟨-, h⟩ i hi hlt
    exact (h i (by simp; omega)).symm
  · intro h
    exact ⟨by omega, fun i hi => (h i (by omega) (by omega)).symm⟩

example : prefixParser ["10.0.0.0/7".toList, "fe80::/10".toList] =
    some [[false, false, false, false, true, false, true]] := by decide +kernel

/-! ## Packets -/

/-- `struct Desc`, with the packet its pointer leads to. -/
structure Desc where
  len : BitVec 16
  tag : BitVec 8
  port : BitVec 8
  data : Nat → BitVec 8

namespace Desc
variable (d : Desc)

/-- `*((unsigned short *) (desc->data + 12))` -/
def ethType : BitVec 16 := d.data 13 ++ d.data 12

/-- `*((unsigned int *) (desc->data + 14 + 12))` -/
def srcIp : BitVec 32 := d.data 29 ++ d.data 28 ++ d.data 27 ++ d.data 26

def drop : Desc := { d with len := 0 }

def forward : Desc := { d with port := d.port ^^^ 1 }

/-- A packet passes if it is of IPv4 and the table has no prefix of its source address. -/
def Passes (T : PrefixTable) : Prop :=
  (d.data 12 = 0x08 ∧ d.data 13 = 0x00) ∧
    ¬Listed T.prefixes (d.data 26 ++ d.data 27 ++ d.data 28 ++ d.data 29)
deriving Decidable

/-- **What the firewall is for.** -/
def verdict (T : PrefixTable) : Desc := if d.Passes T then d.forward else d.drop

theorem ethType_eq_iff : d.ethType = 0x0008 ↔ d.data 12 = 0x08 ∧ d.data 13 = 0x00 := by
  constructor
  · intro h
    have hlow := congrArg (BitVec.extractLsb' 0 8) h
    have hhigh := congrArg (BitVec.extractLsb' 8 8) h
    rw [ethType, BitVec.extractLsb'_append_eq_right] at hlow
    rw [ethType, BitVec.extractLsb'_append_eq_left] at hhigh
    exact ⟨hlow, hhigh⟩
  · rintro ⟨hlow, hhigh⟩
    rw [ethType, hlow, hhigh]
    rfl

theorem byteSwap_srcIp :
    byteSwap d.srcIp = d.data 26 ++ d.data 27 ++ d.data 28 ++ d.data 29 := by
  rw [byteSwap, srcIp]
  refine BitVec.eq_of_getLsbD_eq fun i hi => ?_
  grind

/-- The answer of the accelerator decides. -/
theorem verdict_of_match (T : PrefixTable) (h : d.ethType = 0x0008) :
    (if (flag (T.design.matchN (·.lookup (byteSwap d.srcIp)) (byteSwap d.srcIp))).setWidth 8 ≠
      (0 : BitVec 8) then d.drop else d.forward) = d.verdict T := by
  have hmatch := T.lookup_iff (byteSwap d.srcIp)
  rw [byteSwap_srcIp] at hmatch ⊢
  have hip := d.ethType_eq_iff.mp h
  simp only [flag, verdict, Passes, hmatch, hip]
  split_ifs <;> simp_all

end Desc

/-! ## The firmware -/

section Firmware
variable (F : Design)

def idle : Cycle := ⟨false, false, false, 0, 0⟩

/-- `ACC_SRC_IP = a` -/
def store (a : BitVec 32) : Cycle := ⟨false, true, true, 0, a⟩

/-- A load of `ACC_FW_MATCH`. -/
def load : Cycle := ⟨false, true, false, 4, 0⟩

/-- The cycles of other instructions. -/
def idles (n : Nat) (w : Wrap) : Wrap := run (Wrap.next F) w (List.replicate n idle)

/-- A load waits until the data is valid.  The bus has its command for one cycle only. -/
def await : Nat → Wrap → Option (BitVec 32 × Wrap)
  | 0, _ => none
  | fuel + 1, w =>
    if w.readDataValidReg then some (w.readDataReg, w) else await fuel (w.next F idle)

/-- The descriptor that `slot_rx_packet` sends, with `n₁` cycles before the store and `n₂` before
the load. -/
def slotRxPacket (d : Desc) (n₁ n₂ : Nat) (w : Wrap) : Option (Desc × Wrap) :=
  if d.ethType = 0x0008 then do
    let w := (idles F n₁ w).next F (store d.srcIp)
    let (fwMatch, w) ← await F 3 ((idles F n₂ w).next F load)
    -- `ACC_FW_MATCH` is a byte
    return (if fwMatch.setWidth 8 ≠ (0 : BitVec 8) then d.drop else d.forward, w)
  else return (d.drop, idles F n₁ w)

/-- The loop of `main`, for the packets that it receives. -/
def mainLoop : List (Desc × Nat × Nat) → Wrap → Option (List Desc × Wrap)
  | [], w => some ([], w)
  | (d, n₁, n₂) :: ds, w => do
    let (out, w) ← slotRxPacket F d n₁ n₂ w
    let (outs, w) ← mainLoop ds w
    return (out :: outs, w)

end Firmware

section Runs
variable {F : Design} {w : Wrap} {c : Cycle} {a : BitVec 32} {k : Nat}

theorem stall_next (hc : c.read = false) (h : w.readDataStallReg = false) :
    (w.next F c).readDataStallReg = false := by
  simp [Wrap.next, nextRead, h, Cycle.readMatch, hc]

theorem stall_idles (n : Nat) (h : w.readDataStallReg = false) :
    (idles F n w).readDataStallReg = false := by
  induction n generalizing w with
  | zero => exact h
  | succ n ih => exact ih (stall_next rfl h)

theorem phase_idles (n : Nat) (h : Phase F a k w) : ∃ k', Phase F a k' (idles F n w) := by
  induction n generalizing w k with
  | zero => exact ⟨k, h⟩
  | succ n ih => exact ih (h.next (c := idle) rfl rfl)

/-- The load is answered at once if the address has been looked up. -/
theorem await_settled (j : Nat) (h : Phase F a (k + 2) w) (hasked : Asked w c)
    (hrst : c.rst = false) :
    ∃ w', await F (j + 1) (w.next F c) =
      some (flag (F.matchN (·.lookup (byteSwap a)) (byteSwap a)), w') ∧
        w'.readDataStallReg = false := by
  obtain ⟨hvalid, hdata⟩ := answered_of_phase h hasked hrst
  refine ⟨_, by rw [await, if_pos hvalid, hdata], ?_⟩
  rcases hasked with hs | hread <;> cases hs : w.readDataStallReg <;>
    simp_all [Wrap.next, nextRead]

/-- And after two more cycles if not. -/
theorem await_next (j : Nat) (hj : 2 ≤ k + j) (h : Phase F a k w) (hasked : Asked w c)
    (hstall : w.readDataStallReg = true → w.srcIpValidReg = false) (hrst : c.rst = false)
    (hwrite : c.write = false) :
    ∃ w', await F (j + 1) (w.next F c) =
      some (flag (F.matchN (·.lookup (byteSwap a)) (byteSwap a)), w') ∧
        w'.readDataStallReg = false := by
  induction j generalizing w k c with
  | zero =>
    obtain ⟨k, rfl⟩ := Nat.exists_eq_add_of_le' hj
    exact await_settled 0 h hasked hrst
  | succ j ih =>
    rcases Nat.lt_or_ge k 2 with hk | hk
    · obtain ⟨hvalid, hstalled⟩ := stalled_of_phase h hk hasked hstall hrst
      rw [await, if_neg (by simp [hvalid])]
      exact ih (by omega) (h.next hrst hwrite) (.inl hstalled)
        (fun _ => by simp [Wrap.next, hwrite]) rfl rfl
    · obtain ⟨k, rfl⟩ := Nat.exists_eq_add_of_le' hk
      exact await_settled _ h hasked hrst

variable {T : PrefixTable}

theorem slotRxPacket_spec (d : Desc) (n₁ n₂ : Nat) (hw : w.readDataStallReg = false) :
    ∃ w', slotRxPacket T.design d n₁ n₂ w = some (d.verdict T, w') ∧
      w'.readDataStallReg = false := by
  by_cases hd : d.ethType = 0x0008
  · have hstall : ((idles T.design n₁ w).next T.design (store d.srcIp)).readDataStallReg = false :=
      stall_next rfl (stall_idles n₁ hw)
    have hwrite : (store d.srcIp).write = true := by simp [store, Cycle.write, Cycle.srcIpAddr]
    obtain ⟨k, hk⟩ := phase_idles (a := d.srcIp) n₂ (phase_of_write (F := T.design) rfl hwrite)
    obtain ⟨w', hawait, hw'⟩ := await_next (c := load) 2 (Nat.le_add_left 2 k) hk (.inr rfl)
      (fun hs => absurd ((stall_idles n₂ hstall).symm.trans hs) Bool.false_ne_true) rfl rfl
    refine ⟨w', ?_, hw'⟩
    rw [slotRxPacket, if_pos hd, ← d.verdict_of_match T hd]
    dsimp only
    rw [hawait]
    rfl
  · have hv : d.verdict T = d.drop := if_neg fun hp => hd (d.ethType_eq_iff.mpr hp.1)
    exact ⟨_, by rw [slotRxPacket, if_neg hd, hv]; rfl, stall_idles n₁ hw⟩

/-- **The firewall sends the verdicts.**  Whatever packets are received after a reset, and however
many cycles pass between the accesses of the firmware, it sends one descriptor for each, in their
order. -/
theorem verdicts_sent (T : PrefixTable) (w : Wrap) (c : Cycle) (ps : List (Desc × Nat × Nat)) :
    ∃ w', mainLoop T.design ps (w.next T.design { c with rst := true }) =
      some (ps.map fun p => p.1.verdict T, w') := by
  have hstart : (w.next T.design { c with rst := true }).readDataStallReg = false := rfl
  generalize w.next T.design { c with rst := true } = w at hstart
  induction ps generalizing w with
  | nil => exact ⟨w, rfl⟩
  | cons p ps ih =>
    obtain ⟨d, n₁, n₂⟩ := p
    obtain ⟨w₁, hrx, hw₁⟩ := slotRxPacket_spec (T := T) d n₁ n₂ hstart
    obtain ⟨w₂, hrest⟩ := ih w₁ hw₁
    exact ⟨w₂, by simp [mainLoop, hrx, hrest]⟩

end Runs
end Rosebud.Firewall
