import Rosebud.AccelRdDma

/-! # `single_accel_rd_dma` transfers exactly

What is under way is counted (`Counted`): the counter is the number of the words between the
requests and the output, so that the queue, which has room for as many, is never pushed when
it is full.  A cycle then moves the words on without losing one (`Counted.flow`), and the
words of a descriptor are its bytes (`isTransfer_words`).
-/
namespace Rosebud.AccelRdDma
open Clocked Lanes ByteStore

variable {P : Config} {mem : Banks P}

/-! ## The words of a descriptor -/

/-- The bytes of a word that are not empty. -/
def Word.bytes (w : Word P) : List (BitVec 8) :=
  lanes w.tdata 0 (2 ^ P.maskBits - w.tempty.toNat)

/-- A packet of words that carries the bytes of a descriptor. -/
structure IsTransfer (mem : Banks P) (d : Desc P) (ws : List (Word P)) : Prop where
  length : ws.length = (d.len.toNat + (2 ^ P.maskBits - 1)) / 2 ^ P.maskBits
  tfirst : ws.map Word.tfirst = true :: List.replicate (ws.length - 1) false
  tlast : ws.map Word.tlast = List.replicate (ws.length - 1) false ++ [true]
  tempty : ∀ w ∈ ws, w.tlast = false → w.tempty = 0
  bytes : ws.flatMap Word.bytes = MemoryWords.load mem.word d.addr d.len.toNat

theorem ceil_div {n k : Nat} (hk : 0 < k) :
    (n + (k - 1)) / k = if n % k = 0 then n / k else n / k + 1 := by
  have hdiv := Nat.div_add_mod n k
  have hmod := Nat.mod_lt n hk
  by_cases hz : n % k = 0
  · rw [if_pos hz, Nat.div_eq_iff hk, Nat.mul_comm]
    omega
  · rw [if_neg hz, Nat.div_eq_iff hk, Nat.add_mul, Nat.mul_comm]
    omega

section Words
variable (d : Desc P)

theorem toNat_remainderBytes :
    (remainderBytes d.toRequest).toNat = d.len.toNat % 2 ^ P.maskBits := by
  rw [remainderBytes, BitVec.extractLsb'_toNat, Nat.shiftRight_zero]

theorem two_pow_lenWidth : 2 ^ P.lenWidth = 2 ^ P.maskBits * 2 ^ P.lineCntWidth := by
  rw [← Nat.pow_add, Config.lineCntWidth, Nat.add_sub_cancel' P.maskBits_le]

theorem remainderBytes_eq_zero :
    remainderBytes d.toRequest = 0 ↔ d.len.toNat % 2 ^ P.maskBits = 0 := by
  rw [← toNat_remainderBytes, ← BitVec.toNat_inj]
  rfl

/-- The line counter holds the number of lines, rounded up. -/
theorem toNat_reqRdCount : (reqRdCount d.toRequest).toNat =
    (d.len.toNat + (2 ^ P.maskBits - 1)) / 2 ^ P.maskBits := by
  have hpos := Nat.two_pow_pos P.maskBits
  have hlen := d.len.isLt
  have hle := d.len_le
  rw [two_pow_lenWidth] at hlen hle
  have hdiv := Nat.div_add_mod d.len.toNat (2 ^ P.maskBits)
  have hquot : d.len.toNat / 2 ^ P.maskBits < 2 ^ P.lineCntWidth := Nat.div_lt_of_lt_mul hlen
  have hextract : (d.len.extractLsb' P.maskBits P.lineCntWidth).toNat =
      d.len.toNat / 2 ^ P.maskBits := by
    rw [BitVec.extractLsb'_toNat, Nat.shiftRight_eq_div_pow, Nat.mod_eq_of_lt hquot]
  rw [reqRdCount, ceil_div hpos]
  by_cases hz : d.len.toNat % 2 ^ P.maskBits = 0
  · rw [if_pos ((remainderBytes_eq_zero d).mpr hz), if_pos hz, hextract]
  · rw [if_neg fun h => hz ((remainderBytes_eq_zero d).mp h), if_neg hz]
    -- a line that is not full is not the last one the counter can hold
    have hroom : d.len.toNat / 2 ^ P.maskBits + 1 < 2 ^ P.lineCntWidth := by
      by_contra hge
      have hfull : 2 ^ P.lineCntWidth = d.len.toNat / 2 ^ P.maskBits + 1 := by omega
      rw [hfull, Nat.mul_add, Nat.mul_one] at hle
      omega
    have hone : (1 : BitVec P.lineCntWidth).toNat = 1 :=
      Nat.mod_eq_of_lt (Nat.lt_of_le_of_lt (Nat.le_add_left 1 _) hroom)
    rw [BitVec.toNat_add, hextract, hone, Nat.mod_eq_of_lt hroom]

theorem toNat_reqRdFinalEmpty : (reqRdFinalEmpty d.toRequest).toNat =
    (reqRdCount d.toRequest).toNat * 2 ^ P.maskBits - d.len.toNat := by
  have hpos := Nat.two_pow_pos P.maskBits
  have hdiv := Nat.div_add_mod' d.len.toNat (2 ^ P.maskBits)
  rw [toNat_reqRdCount, ceil_div hpos, reqRdFinalEmpty]
  by_cases hz : d.len.toNat % 2 ^ P.maskBits = 0
  · rw [if_pos ((remainderBytes_eq_zero d).mpr hz), if_pos hz]
    change 0 = _
    omega
  · rw [if_neg fun h => hz ((remainderBytes_eq_zero d).mp h), if_neg hz, Nat.add_mul,
      Nat.one_mul, BitVec.toNat_sub, toNat_remainderBytes, BitVec.toNat_ofNat, Nat.mod_self,
      Nat.add_zero, Nat.mod_eq_of_lt (by omega)]
    omega

theorem reqRdCount_pos : 0 < (reqRdCount d.toRequest).toNat := by
  have hpos := d.len_pos
  have hm := Nat.two_pow_pos P.maskBits
  rw [toNat_reqRdCount, Nat.div_pos_iff]
  omega

end Words

/-! ### Bytes -/

theorem word_wordAddr (a : BitVec P.addrWidth) (k : Nat) :
    mem.word (MemoryWords.wordAddr P.maskBits a k) =
      mem.line (a.extractLsb' P.maskBits P.lineAddrWidth + BitVec.ofNat _ k) := by
  have hpos := Nat.two_pow_pos P.maskBits
  have hsum := MemoryWords.toNat_add_offset P.maskBits_le_addrWidth a k hpos
  rw [BitVec.add_zero, Nat.zero_add] at hsum
  have hwidth : P.addrWidth - P.maskBits = P.lineAddrWidth := Nat.add_sub_cancel _ _
  rw [Banks.word]
  congr 1
  apply BitVec.eq_of_toNat_eq
  rw [BitVec.extractLsb'_toNat, hsum, Nat.shiftRight_eq_div_pow, Nat.mul_div_cancel_left _ hpos,
    hwidth, Nat.mod_mod, BitVec.toNat_add, BitVec.extractLsb'_toNat, BitVec.toNat_ofNat,
    Nat.shiftRight_eq_div_pow, Nat.mod_add_mod, Nat.add_mod_mod]

/-- The data that begins in the `k`-th line holds the bytes from there on. -/
theorem lanes_across (a : BitVec P.addrWidth) (k : Nat) {n : Nat} (hn : n ≤ 2 ^ P.maskBits) :
    lanes (mem.across (a.extractLsb' P.maskBits P.lineAddrWidth + BitVec.ofNat _ k)
        (a.extractLsb' 0 P.maskBits)) 0 n =
      MemoryWords.load mem.word (a + BitVec.ofNat _ (k * 2 ^ P.maskBits)) n := by
  rw [← MemoryWords.lanes_window_load P.maskBits_le_addrWidth a k hn, word_wordAddr,
    word_wordAddr, Banks.across, BitVec.extractLsb'_toNat, Nat.shiftRight_zero, BitVec.ofNat_add,
    BitVec.add_assoc]
  rfl

section Lines
variable {finalEmpty offset : BitVec P.maskBits}

theorem bytes_lineWords (a : BitVec P.addrWidth) (first : Bool) (k n : Nat) :
    (lineWords mem finalEmpty (a.extractLsb' 0 P.maskBits) first
      (a.extractLsb' P.maskBits P.lineAddrWidth + BitVec.ofNat _ k) (n + 1)).flatMap Word.bytes =
      MemoryWords.load mem.word (a + BitVec.ofNat _ (k * 2 ^ P.maskBits))
        ((n + 1) * 2 ^ P.maskBits - finalEmpty.toNat) := by
  induction n generalizing first k with
  | zero =>
    rw [lineWords, lineWords, List.flatMap_cons, List.flatMap_nil, List.append_nil, Word.bytes,
      lanes_across a k (Nat.sub_le _ _), Nat.zero_add, Nat.one_mul]
    rfl
  | succ n ih =>
    have hnext : a.extractLsb' P.maskBits P.lineAddrWidth + BitVec.ofNat _ k + 1 =
        a.extractLsb' P.maskBits P.lineAddrWidth + BitVec.ofNat _ (k + 1) := by
      rw [BitVec.ofNat_add, BitVec.add_assoc]
      rfl
    have hsum : (n + 1 + 1) * 2 ^ P.maskBits - finalEmpty.toNat =
        2 ^ P.maskBits + ((n + 1) * 2 ^ P.maskBits - finalEmpty.toNat) := by
      rw [Nat.succ_mul (n + 1), Nat.succ_mul n]
      omega
    have hfull : (Word.mk first (n + 1 == 0) (if n + 1 == 0 then finalEmpty else 0)
        (mem.across (a.extractLsb' P.maskBits P.lineAddrWidth + BitVec.ofNat _ k)
          (a.extractLsb' 0 P.maskBits)) : Word P).bytes =
        MemoryWords.load mem.word (a + BitVec.ofNat _ (k * 2 ^ P.maskBits)) (2 ^ P.maskBits) :=
      lanes_across a k (Nat.le_refl _)
    rw [lineWords, List.flatMap_cons, hfull, hnext, ih, hsum, MemoryWords.load_add,
      BitVec.add_assoc, ← BitVec.ofNat_add, Nat.succ_mul k]

theorem tfirst_lineWords (first : Bool) (a : LineAddr P) (n : Nat) :
    (lineWords mem finalEmpty offset first a (n + 1)).map Word.tfirst =
      first :: List.replicate n false := by
  induction n generalizing first a with
  | zero => rfl
  | succ n ih => rw [lineWords, List.map_cons, ih, List.replicate_succ]

theorem tlast_lineWords (first : Bool) (a : LineAddr P) (n : Nat) :
    (lineWords mem finalEmpty offset first a (n + 1)).map Word.tlast =
      List.replicate n false ++ [true] := by
  induction n generalizing first a with
  | zero => rfl
  | succ n ih => rw [lineWords, List.map_cons, ih, List.replicate_succ, List.cons_append]; rfl

theorem tempty_lineWords (first : Bool) (a : LineAddr P) (n : Nat) :
    ∀ w ∈ lineWords mem finalEmpty offset first a n, w.tlast = false → w.tempty = 0 := by
  induction n generalizing first a with
  | zero =>
    intro w hw
    exact absurd hw List.not_mem_nil
  | succ n ih =>
    intro w hw hlast
    rcases List.mem_cons.mp hw with rfl | hw
    · have hne : (n == 0) = false := hlast
      simp [hne]
    · exact ih _ _ w hw hlast

end Lines

/-- **The words of a descriptor are its bytes.** -/
theorem isTransfer_words (mem : Banks P) (d : Desc P) : IsTransfer mem d (words mem d) := by
  obtain ⟨n, hn⟩ : ∃ n, (reqRdCount d.toRequest).toNat = n + 1 :=
    Nat.exists_eq_succ_of_ne_zero (Nat.ne_of_gt (reqRdCount_pos d))
  have hlen : (words mem d).length = n + 1 := by rw [words, length_lineWords, hn]
  refine ⟨?_, ?_, ?_, ?_, ?_⟩
  · rw [words, length_lineWords, toNat_reqRdCount]
  · rw [hlen, words, hn, tfirst_lineWords]
    rfl
  · rw [hlen, words, hn, tlast_lineWords]
    rfl
  · exact tempty_lineWords _ _ _
  · have hle : d.len.toNat ≤ (n + 1) * 2 ^ P.maskBits := by
      have hpos := Nat.two_pow_pos P.maskBits
      have hceil := toNat_reqRdCount d
      rw [hn] at hceil
      have hdiv := Nat.div_add_mod (d.len.toNat + (2 ^ P.maskBits - 1)) (2 ^ P.maskBits)
      rw [← hceil, Nat.mul_comm] at hdiv
      omega
    have hempty := toNat_reqRdFinalEmpty d
    have hbytes := @bytes_lineWords _ mem (reqRdFinalEmpty d.toRequest) d.addr true 0 n
    rw [hn] at hempty
    rw [hempty, Nat.sub_sub_self hle, Nat.zero_mul, BitVec.add_zero, BitVec.add_zero] at hbytes
    rw [words, hn]
    exact hbytes

/-! ## Words under way -/

/-- What is under way is counted, and the queue has room for all of it. -/
structure Counted (mem : Banks P) (r : Regs P) : Prop where
  enabled : Enabled r
  valid : r.accelFifo.Valid
  counter : r.counter.toNat = (underway mem r).length
  counter_le : r.counter.toNat ≤ P.fifoLines
  room : r.memRdValidRrr = true → r.accelFifo.dinReady = true
  count_pos : r.actMemV = true → 0 < r.actRdCount.toNat

section Step
variable {r : Regs P} {i : Inputs P}

/-- The word that is put out. -/
def popped (r : Regs P) (i : Inputs P) : List (Word P) :=
  if outputs r i then [r.accelFifo.dout] else []

/-- The word that is asked for. -/
def issued (mem : Banks P) (r : Regs P) : List (Word P) :=
  if issues r then [nextWord mem r] else []

section Count
variable {c : BitVec P.lineCntWidth}

theorem toNat_one_of_pos (h : 0 < c.toNat) : (1 : BitVec P.lineCntWidth).toNat = 1 :=
  Nat.mod_eq_of_lt (Nat.lt_of_le_of_lt h c.isLt)

theorem toNat_sub_one (h : 0 < c.toNat) : (c - 1).toNat = c.toNat - 1 := by
  have hone := toNat_one_of_pos h
  rw [BitVec.toNat_sub_of_le (by rw [BitVec.le_def, hone]; exact h), hone]

theorem eq_one_iff (h : 0 < c.toNat) : c = 1 ↔ c.toNat = 1 := by
  rw [← BitVec.toNat_inj, toNat_one_of_pos h]

end Count

theorem inHand_cons (hpos : 0 < r.actRdCount.toNat) (hv : r.actMemV = true) :
    inHand mem r = nextWord mem r :: lineWords mem r.actRdFinalEmpty r.actRdOffset false
      (actRdAddrN r) (actRdCountN r).toNat := by
  obtain ⟨n, hn⟩ : ∃ n, r.actRdCount.toNat = n + 1 :=
    Nat.exists_eq_succ_of_ne_zero (Nat.ne_of_gt hpos)
  have hlast : actRdLast r = (n == 0) := by
    have hiff := eq_one_iff hpos
    rw [hn] at hiff
    cases n with
    | zero => exact decide_eq_true (hiff.mpr rfl)
    | succ n => exact decide_eq_false fun h => absurd (hiff.mp h) (by omega)
  have hcount : (actRdCountN r).toNat = n := by
    rw [actRdCountN, toNat_sub_one hpos, hn]
    rfl
  rw [inHand, if_pos hv, hn, lineWords, hcount, nextWord, hlast, actRdEmpty, hlast]
  rfl

/-- The descriptors that are taken: one or none. -/
def Takes (r : Regs P) (i : Inputs P) (ds : List (Desc P)) : Prop :=
  (accepts r i = true ∧ ∃ d : Desc P, ds = [d] ∧ i.desc = d.toRequest) ∨
    (accepts r i = false ∧ ds = [])

/-- The words in hand: a line that is asked for leaves them, and those of a descriptor that
is taken are added. -/
theorem inHand_next {ds : List (Desc P)} (hstop : r.accelStopR = false)
    (hpos : r.actMemV = true → 0 < r.actRdCount.toNat) (htakes : Takes r i ds) :
    inHand mem r ++ ds.flatMap (words mem) = issued mem r ++ inHand mem (next r i mem) := by
  rcases htakes with ⟨hacc, d, rfl, hdesc⟩ | ⟨hacc, rfl⟩
  · have hnew : inHand mem (next r i mem) = words mem d := by
      simp [inHand, next, hacc, hstop, hdesc, words]
    have hold : inHand mem r = issued mem r := by
      cases hv : r.actMemV with
      | false => simp [inHand, issued, issues, hv]
      | true =>
        -- the last line of the descriptor in hand is asked for in this cycle
        have hready : actRdLast r = true ∧ accelFifoReady r = true := by
          simpa [accepts, descReady, hv] using (Bool.and_eq_true_iff.mp hacc).2
        have hone := (eq_one_iff (hpos hv)).mp (of_decide_eq_true hready.1)
        rw [inHand_cons (hpos hv) hv, actRdCountN, toNat_sub_one (hpos hv), hone]
        simp [issued, issues, hv, hready.2, lineWords]
    rw [hnew, hold, List.flatMap_cons, List.flatMap_nil, List.append_nil]
  · cases hv : r.actMemV with
    | false => simp [inHand, issued, issues, next, hacc, hv, hstop]
    | true =>
      cases hready : accelFifoReady r with
      | false => simp [inHand, issued, issues, next, hacc, hv, hstop, hready]
      | true =>
        rw [inHand_cons (hpos hv) hv]
        have hissued : issued mem r = [nextWord mem r] := by simp [issued, issues, hv, hready]
        rw [hissued, List.singleton_append]
        cases hlast : actRdLast r with
        | true =>
          have hone := (eq_one_iff (hpos hv)).mp (of_decide_eq_true hlast)
          rw [actRdCountN, toNat_sub_one (hpos hv), hone]
          simp [inHand, next, hacc, hlast, hready, lineWords]
        | false => simp [inHand, next, issues, hacc, hlast, hv, hstop, hready]

/-- The queue takes every word that comes out of the memory, and gives what is put out. -/
theorem Counted.fifo_next (h : Counted mem r) (hstop : r.accelStopR = false) :
    r.accelFifo.contents ++ (if r.memRdValidRrr then [r.memRdRrr] else []) =
      popped r i ++ (next r i mem).accelFifo.contents := by
  have hcons := BasicFifo.conservation h.valid (i := fifoInputs r i) (by simp [fifoInputs, hstop])
  have hpush : (r.accelFifo.enque (fifoInputs r i)) = r.memRdValidRrr := by
    cases hv : r.memRdValidRrr with
    | false => simp [BasicFifo.enque, fifoInputs, hv]
    | true => simp [BasicFifo.enque, fifoInputs, hv, h.room hv]
  rw [hpush] at hcons
  exact hcons

theorem underway_next (h : Counted mem r) (hstop : r.accelStopR = false) :
    underway mem r ++ issued mem r = popped r i ++ underway mem (next r i mem) := by
  have hcons := h.fifo_next (i := i) hstop
  rw [underway, underway, flight_next h.enabled, flight, List.append_assoc, List.append_assoc,
    ← List.append_assoc (popped r i), ← hcons, List.append_assoc]
  rfl

theorem toNat_fifoLines_le : P.fifoLines ≤ 2 ^ P.fifoAddrWidth := le_two_pow_clog2 _

/-- A word is put out only if one is under way. -/
theorem Counted.counter_pos (h : Counted mem r) (ho : outputs r i = true) :
    0 < r.counter.toNat := by
  obtain ⟨xs, hc⟩ := h.valid.contents_eq_cons (Bool.and_eq_true_iff.mp ho).1
  rw [h.counter, underway, List.length_append, hc]
  exact Nat.lt_of_lt_of_le (Nat.succ_pos _) (Nat.le_add_right _ _)

/-- The counter does not overflow. -/
theorem toNat_counter_next (h : Counted mem r) (hstop : r.accelStopR = false) :
    (next r i mem).counter.toNat =
      r.counter.toNat + (issues r).toNat - (outputs r i).toNat := by
  have hpow := @toNat_fifoLines_le P
  have hfifo := P.one_lt_fifoLines
  have hone : (1 : BitVec (P.fifoAddrWidth + 1)).toNat = 1 :=
    Nat.mod_eq_of_lt (Nat.lt_of_lt_of_le hfifo (by omega))
  simp only [next, hstop, Bool.false_eq_true, if_false]
  cases ho : outputs r i with
  | true =>
    have hpos := h.counter_pos ho
    cases hi : issues r with
    | true =>
      simp only [if_true, Bool.toNat_true]
      omega
    | false =>
      have hge : (1 : BitVec (P.fifoAddrWidth + 1)) ≤ r.counter := by
        rw [BitVec.le_def, hone]
        exact hpos
      simp only [if_true, Bool.false_eq_true, if_false, Bool.toNat_true, Bool.toNat_false]
      rw [BitVec.toNat_sub_of_le hge, hone]
      rfl
  | false =>
    cases hi : issues r with
    | true =>
      have hlt : r.counter.toNat < P.fifoLines :=
        of_decide_eq_true (Bool.and_eq_true_iff.mp hi).2
      simp only [if_true, Bool.false_eq_true, if_false, Bool.toNat_true, Bool.toNat_false]
      rw [BitVec.toNat_add_of_lt (by rw [hone]; omega), hone, Nat.sub_zero]
    | false => rfl

theorem counter_next (h : Counted mem r) (hstop : r.accelStopR = false) :
    (next r i mem).counter.toNat = (underway mem (next r i mem)).length ∧
      (next r i mem).counter.toNat ≤ P.fifoLines := by
  have hlen := congrArg List.length (underway_next (i := i) h hstop)
  have hissued : (issued mem r).length = (issues r).toNat := by
    unfold issued
    cases issues r <;> rfl
  have hpopped : (popped r i).length = (outputs r i).toNat := by
    unfold popped
    cases outputs r i <;> rfl
  rw [List.length_append, List.length_append, ← h.counter, hissued, hpopped] at hlen
  have hle := h.counter_le
  rw [toNat_counter_next h hstop]
  cases hi : issues r with
  | true =>
    have hlt : r.counter.toNat < P.fifoLines :=
      of_decide_eq_true (Bool.and_eq_true_iff.mp hi).2
    rw [hi, Bool.toNat_true] at hlen
    rw [Bool.toNat_true]
    omega
  | false =>
    rw [hi, Bool.toNat_false] at hlen
    rw [Bool.toNat_false]
    omega

/-- **What is under way stays counted**, outside a stop. -/
theorem Counted.next {ds : List (Desc P)} (h : Counted mem r) (hstop : r.accelStopR = false)
    (htakes : Takes r i ds) : Counted mem (next r i mem) := by
  obtain ⟨hcount, hle⟩ := counter_next (i := i) h hstop
  have hvalid : (AccelRdDma.next r i mem).accelFifo.Valid :=
    h.valid.next P.fifoAddrWidth_pos (fifoInputs r i)
  refine ⟨enabled_next, hvalid, hcount, hle, ?_, ?_⟩
  · intro hv
    -- the word before the queue is one of those the queue has room for
    refine BasicFifo.dinReady_next_of_lt h.valid (by simp [fifoInputs, hstop]) ?_
    have hpow := @toNat_fifoLines_le P
    have hflight : 0 < (flight mem (AccelRdDma.next r i mem)).length := by
      rw [flight, if_pos hv]
      exact Nat.succ_pos _
    rw [underway, List.length_append] at hcount
    change (AccelRdDma.next r i mem).accelFifo.contents.length < _
    omega
  · intro hv
    rcases htakes with ⟨hacc, d, -, hdesc⟩ | ⟨hacc, -⟩
    · have hnew : (AccelRdDma.next r i mem).actRdCount = reqRdCount d.toRequest := by
        simp [AccelRdDma.next, hacc, hdesc]
      rw [hnew]
      exact reqRdCount_pos d
    · simp only [AccelRdDma.next, hacc, Bool.false_eq_true, if_false, hstop, Bool.not_false,
        Bool.and_true] at hv ⊢
      cases hlast : actRdLast r && accelFifoReady r with
      | true => simp [hlast] at hv
      | false =>
        rw [hlast] at hv
        have hact : r.actMemV = true := by simpa using hv
        have hpos := h.count_pos hact
        cases hready : accelFifoReady r with
        | false => simpa [issues, hact, hready] using hpos
        | true =>
          rw [hready, Bool.and_true] at hlast
          have hne : r.actRdCount.toNat ≠ 1 := fun hone => by
            rw [actRdLast, decide_eq_false_iff_not] at hlast
            exact hlast ((eq_one_iff hpos).mpr hone)
          simp only [issues, hact, hready, Bool.and_true, if_true, actRdCountN]
          rw [toNat_sub_one hpos]
          omega

/-- **A cycle loses no word and adds none**, outside a stop. -/
theorem Counted.flow {ds : List (Desc P)} (h : Counted mem r) (hstop : r.accelStopR = false)
    (htakes : Takes r i ds) :
    underway mem r ++ inHand mem r ++ ds.flatMap (words mem) =
      popped r i ++ (underway mem (AccelRdDma.next r i mem) ++
        inHand mem (AccelRdDma.next r i mem)) := by
  rw [List.append_assoc, inHand_next hstop h.count_pos htakes, ← List.append_assoc,
    underway_next h hstop, List.append_assoc]

end Step

/-! ## Runs -/

/-- One cycle of the surroundings: whether a descriptor is offered, what is on the wires if
not, the stop and the receiver. -/
structure Cycle (P : Config) where
  offer : Bool
  idle : Request P
  accelStop : Bool
  mAxisTready : Bool

/-- The engine with the descriptors to come and two logs: the descriptors that were taken
and the words that were put out. -/
structure Bench (P : Config) where
  regs : Regs P
  pending : List (Desc P)
  accepted : List (Desc P)
  out : List (Word P)

namespace Bench
variable (b : Bench P) (c : Cycle P)

def inputs : Inputs P where
  desc := (bus (b.pending.map Desc.toRequest) c.offer c.idle).2
  descValid := (bus (b.pending.map Desc.toRequest) c.offer c.idle).1
  accelStop := c.accelStop
  mAxisTready := c.mAxisTready

def accepts : Bool := AccelRdDma.accepts b.regs (b.inputs c)

/-- The descriptor that is taken. -/
def taken : List (Desc P) := if b.accepts c then b.pending.take 1 else []

def step (mem : Banks P) (b : Bench P) (c : Cycle P) : Bench P where
  regs := next b.regs (b.inputs c) mem
  pending := rest b.pending (b.accepts c)
  accepted := b.accepted ++ b.taken c
  out := b.out ++ popped b.regs (b.inputs c)

/-- Out of reset with descriptors to come: what reset does not set holds anything.
`mem_rd_valid` is not reset itself but follows `act_mem_v`, which is. -/
structure Start (b : Bench P) (ds : List (Desc P)) : Prop where
  accelStopR : b.regs.accelStopR = false
  actMemV : b.regs.actMemV = false
  memRd : b.regs.memRd.valid = false
  memRdR : b.regs.memRdR.valid = false
  memRdRr : b.regs.memRdRr.valid = false
  memRdValidRrr : b.regs.memRdValidRrr = false
  counter : b.regs.counter = 0
  accelFifo : b.regs.accelFifo.Fresh
  pending : b.pending = ds
  accepted : b.accepted = []
  out : b.out = []

/-- The words that are still to be put out, of the descriptors that were taken. -/
def live (mem : Banks P) (b : Bench P) : List (Word P) :=
  underway mem b.regs ++ inHand mem b.regs

end Bench

section Run
variable {b : Bench P} {c : Cycle P} {ds : List (Desc P)}

/-- Nothing is under way. -/
theorem underway_of_empty {r : Regs P} (hfifo : r.accelFifo.contents = [])
    (h0 : r.memRd.valid = false) (h1 : r.memRdR.valid = false) (h2 : r.memRdRr.valid = false)
    (h3 : r.memRdValidRrr = false) : underway mem r = [] := by
  simp [underway, flight, inMemory, hfifo, h0, h1, h2, h3]

theorem Bench.Start.underway (h : b.Start ds) : underway mem b.regs = [] :=
  underway_of_empty h.accelFifo.contents_eq h.memRd h.memRdR h.memRdRr h.memRdValidRrr

theorem Bench.Start.counted (h : b.Start ds) : Counted mem b.regs where
  enabled := ⟨fun hv => absurd (h.memRd.symm.trans hv) Bool.false_ne_true,
    fun hv => absurd (h.memRd.symm.trans hv) Bool.false_ne_true⟩
  valid := h.accelFifo.valid
  counter := by
    rw [h.underway, h.counter]
    rfl
  counter_le := by
    rw [h.counter]
    exact Nat.zero_le _
  room := fun hv => absurd (h.memRdValidRrr.symm.trans hv) Bool.false_ne_true
  count_pos := fun hv => absurd (h.actMemV.symm.trans hv) Bool.false_ne_true

/-- A descriptor that is taken is the first of those to come. -/
theorem taken_spec (b : Bench P) (c : Cycle P) :
    Takes b.regs (b.inputs c) (b.taken c) ∧
      b.pending = b.taken c ++ (b.step mem c).pending := by
  cases hacc : b.accepts c with
  | false =>
    refine ⟨.inr ⟨hacc, by simp [Bench.taken, hacc]⟩, ?_⟩
    simp [Bench.taken, Bench.step, hacc]
  | true =>
    have hv : (b.inputs c).descValid = true := (Bool.and_eq_true_iff.mp hacc).1
    rcases bus_cases (b.pending.map Desc.toRequest) c.offer c.idle with
      hbus | ⟨q, later, hp, -, hbus⟩
    · simp [Bench.inputs, hbus] at hv
    · obtain ⟨d, ds, hds, rfl, -⟩ := List.map_eq_cons_iff.mp hp
      refine ⟨.inl ⟨hacc, d, by simp [Bench.taken, hacc, hds], by simp [Bench.inputs, hbus]⟩, ?_⟩
      simp [Bench.taken, Bench.step, hacc, hds]

/-- One cycle outside a stop. -/
theorem counted_step (h : Counted mem b.regs) (hstop : b.regs.accelStopR = false)
    (c : Cycle P) :
    Counted mem (b.step mem c).regs ∧
      b.live mem ++ (b.taken c).flatMap (words mem) =
        popped b.regs (b.inputs c) ++ (b.step mem c).live mem := by
  obtain ⟨htakes, -⟩ := @taken_spec P mem b c
  exact ⟨h.next hstop htakes, h.flow hstop htakes⟩

/-! ### What is left to do -/

/-- The steps the words under way still have to make. -/
def transit (r : Regs P) : Nat :=
  5 * r.memRd.valid.toNat + 4 * r.memRdR.valid.toNat + 3 * r.memRdRr.valid.toNat +
    2 * r.memRdValidRrr.toNat + r.accelFifo.contents.length

/-- The words that make a step in this cycle. -/
def moving (r : Regs P) (i : Inputs P) : Nat :=
  r.memRd.valid.toNat + r.memRdR.valid.toNat + r.memRdRr.valid.toNat +
    r.memRdValidRrr.toNat + (outputs r i).toNat

def Bench.left (mem : Banks P) (b : Bench P) : Nat :=
  transit b.regs + 6 * (inHand mem b.regs).length +
    (b.pending.map fun d => 6 * (words mem d).length + 1).sum

/-- A descriptor is on offer, and the receiver is ready. -/
def Feeds (_ : Bench P) (c : Cycle P) : Prop := c.offer = true ∧ c.mAxisTready = true
deriving Decidable

theorem transit_next {r : Regs P} {i : Inputs P} (h : Counted mem r)
    (hstop : r.accelStopR = false) :
    transit (next r i mem) + moving r i = transit r + 5 * (issues r).toNat := by
  have hcons := congrArg List.length (h.fifo_next (i := i) hstop)
  have hin : (if r.memRdValidRrr then [r.memRdRrr] else []).length = r.memRdValidRrr.toNat := by
    cases r.memRdValidRrr <;> rfl
  have hout : (popped r i).length = (outputs r i).toNat := by
    unfold popped
    cases outputs r i <;> rfl
  rw [List.length_append, List.length_append, hin, hout] at hcons
  unfold transit moving
  change 5 * (issues r).toNat + 4 * r.memRd.valid.toNat + 3 * r.memRdR.valid.toNat +
    2 * r.memRdRr.valid.toNat + (next r i mem).accelFifo.contents.length + _ = _
  omega

/-- Every step of a word, a line that is asked for and a descriptor that is taken count. -/
theorem left_next (h : Counted mem b.regs) (hstop : b.regs.accelStopR = false) (c : Cycle P) :
    (b.step mem c).left mem + moving b.regs (b.inputs c) + (issues b.regs).toNat +
      (b.taken c).length = b.left mem := by
  obtain ⟨htakes, hpend⟩ := @taken_spec P mem b c
  have htransit := transit_next (i := b.inputs c) h hstop
  have hhand := congrArg List.length (@inHand_next P mem _ _ _ hstop h.count_pos htakes)
  have hissued : (issued mem b.regs).length = (issues b.regs).toNat := by
    unfold issued
    cases issues b.regs <;> rfl
  rw [List.length_append, List.length_append, hissued] at hhand
  have hsum : (b.pending.map fun d => 6 * (words mem d).length + 1).sum =
      6 * ((b.taken c).flatMap (words mem)).length + (b.taken c).length +
        ((b.step mem c).pending.map fun d => 6 * (words mem d).length + 1).sum := by
    rw [hpend, List.map_append, List.sum_append]
    rcases htakes with ⟨-, d, hd, -⟩ | ⟨-, hnil⟩
    · simp [hd]
    · simp [hnil]
  unfold Bench.left
  change transit (next b.regs (b.inputs c) mem) +
    6 * (inHand mem (next b.regs (b.inputs c) mem)).length + _ + _ + _ + _ = _
  omega

theorem stages_idle {r : Regs P}
    (h : r.memRd.valid.toNat + r.memRdR.valid.toNat + r.memRdRr.valid.toNat +
      r.memRdValidRrr.toNat = 0) :
    r.memRd.valid = false ∧ r.memRdR.valid = false ∧ r.memRdRr.valid = false ∧
      r.memRdValidRrr = false := by
  refine ⟨?_, ?_, ?_, ?_⟩ <;>
  · rw [← Bool.toNat_eq_zero]
    omega

/-- Nothing moves only if nothing is left. -/
theorem left_eq_zero (h : Counted mem b.regs) (hfeeds : Feeds b c)
    (hmove : moving b.regs (b.inputs c) = 0) (hissue : issues b.regs = false)
    (htaken : b.taken c = []) : b.left mem = 0 := by
  obtain ⟨hoffer, hready⟩ := hfeeds
  unfold moving at hmove
  obtain ⟨h0, h1, h2, h3⟩ := stages_idle (r := b.regs) (by omega)
  have hout : outputs b.regs (b.inputs c) = false := Bool.toNat_eq_zero.mp (by omega)
  have hfifo : b.regs.accelFifo.contents = [] := by
    have hv : b.regs.accelFifo.doutValid = false := by
      simpa [outputs, mAxisTvalid, Bench.inputs, hready] using hout
    rw [h.valid.doutValid_eq] at hv
    simpa using hv
  have hcounter := h.counter
  rw [underway_of_empty hfifo h0 h1 h2 h3] at hcounter
  have hfree : accelFifoReady b.regs = true := by
    have hlines := P.one_lt_fifoLines
    exact decide_eq_true (by rw [hcounter]; exact Nat.lt_of_succ_lt hlines)
  have hact : b.regs.actMemV = false := by simpa [issues, hfree] using hissue
  have hpend : b.pending = [] := by
    cases hp : b.pending with
    | nil => rfl
    | cons d ds =>
      have hacc : b.accepts c = true := by
        simp [Bench.accepts, accepts, descReady, hact, Bench.inputs, hp, hoffer]
      simp [Bench.taken, hacc, hp] at htaken
  simp [Bench.left, transit, h0, h1, h2, h3, hfifo, inHand, hact, hpend]

theorem left_step (h : Counted mem b.regs) (hstop : b.regs.accelStopR = false) (c : Cycle P) :
    (b.step mem c).left mem ≤ b.left mem - if Feeds b c then 1 else 0 := by
  have hnext := left_next h hstop c
  by_cases hfeeds : Feeds b c
  · rw [if_pos hfeeds]
    by_contra hgt
    have hzero := left_eq_zero h hfeeds (c := c) (by omega)
      (Bool.toNat_eq_zero.mp (by omega))
      (List.length_eq_zero_iff.mp (by omega))
    omega
  · rw [if_neg hfeeds]
    omega

/-- With nothing left to do, nothing is to be put out. -/
theorem live_of_left (hleft : b.left mem = 0) : b.live mem = [] ∧ b.pending = [] := by
  unfold Bench.left transit at hleft
  obtain ⟨h0, h1, h2, h3⟩ := stages_idle (r := b.regs) (by omega)
  have hfifo : b.regs.accelFifo.contents = [] := List.length_eq_zero_iff.mp (by omega)
  have hhand : inHand mem b.regs = [] := List.length_eq_zero_iff.mp (by omega)
  have hpend : b.pending = [] := by
    cases hp : b.pending with
    | nil => rfl
    | cons d ds =>
      rw [hp, List.map_cons, List.sum_cons] at hleft
      omega
  rw [Bench.live, underway_of_empty hfifo h0 h1 h2 h3, hhand]
  exact ⟨rfl, hpend⟩

/-! ### Exactness -/

/-- Without a stop, what is put out and what is to come are the words of the descriptors. -/
def Exact (mem : Banks P) (ds : List (Desc P)) (b : Bench P) : Prop :=
  Counted mem b.regs ∧ b.regs.accelStopR = false ∧
    b.out ++ (b.live mem ++ b.pending.flatMap (words mem)) = ds.flatMap (words mem)

theorem Bench.Start.exact (h : b.Start ds) : Exact mem ds b := by
  refine ⟨h.counted, h.accelStopR, ?_⟩
  rw [h.out, Bench.live, h.underway, inHand, h.actMemV, h.pending]
  rfl

theorem Exact.step (h : Exact mem ds b) (hquiet : c.accelStop = false) :
    Exact mem ds (b.step mem c) := by
  obtain ⟨hcounted, hstop, hout⟩ := h
  obtain ⟨hcounted', hflow⟩ := counted_step hcounted hstop c
  obtain ⟨-, hpend⟩ := @taken_spec P mem b c
  refine ⟨hcounted', ?_, ?_⟩
  · change (if (b.inputs c).descValid then false else b.regs.accelStopR || c.accelStop) = false
    rw [hstop, hquiet]
    exact ite_self _
  · rw [← hout, hpend, List.flatMap_append, ← List.append_assoc (b.live mem), hflow]
    simp only [Bench.step, List.append_assoc]

/-- **The engine transfers exactly.**  For any contents of the memory, any descriptors and
any pattern of offers and of the receiver, without a stop: the words put out are at every
point the first ones of the descriptors' words, which are packets with the bytes of the
descriptors; the output queue is never pushed when it is full; and after as many cycles with
a descriptor on offer and a ready receiver as `Bench.left` says, all words are put out. -/
theorem transfers_exactly (mem : Banks P) {b : Bench P} (hstart : b.Start ds)
    {cycles : List (Cycle P)}
    (hquiet : Meets (Bench.step mem) (fun _ c => c.accelStop = false) b cycles) :
    let e := run (Bench.step mem) b cycles
    e.out <+: ds.flatMap (words mem) ∧ (∀ d, IsTransfer mem d (words mem d)) ∧
      (e.regs.memRdValidRrr = true → e.regs.accelFifo.dinReady = true) ∧
      ∀ more, Meets (Bench.step mem) (fun _ c => c.accelStop = false) e more →
        e.left mem ≤ tally (Bench.step mem) Feeds e more →
        (run (Bench.step mem) b (cycles ++ more)).out = ds.flatMap (words mem) := by
  intro e
  have hinv : ∀ s c, Exact mem ds s → c.accelStop = false → Exact mem ds (s.step mem c) :=
    fun _ _ h hc => h.step hc
  have hexact : Exact mem ds e := run_invariant hinv hstart.exact hquiet
  refine ⟨⟨_, hexact.2.2⟩, isTransfer_words mem, hexact.1.room, ?_⟩
  intro more hmore hfed
  rw [run_append]
  have hend : Exact mem ds (run (Bench.step mem) e more) := run_invariant hinv hexact hmore
  have hrank := run_exhausts (D := Feeds) (m := Bench.left mem) hinv
    (fun s c h _ => left_step h.1 h.2.1 c) hexact hmore
  have hleft : (run (Bench.step mem) e more).left mem = 0 := by omega
  obtain ⟨hlive, hpend⟩ := live_of_left hleft
  obtain ⟨-, -, hall⟩ := hend
  rw [hlive, hpend] at hall
  exact (List.append_nil _).symm.trans hall

end Run

/-! ## Five bytes across three lines -/

/-- Lines of two bytes in two blocks, and a queue of two words. -/
def sampleConfig : Config := ⟨1, 1, 1, 4, 2, Nat.succ_pos 3, Nat.one_lt_two⟩

/-- Every byte holds its address. -/
def sampleBanks : Banks sampleConfig where
  b1 := fun j k => BitVec.ofNat 16 ((8 * j.toNat + 4 * k.toNat + 1) * 256 +
    (8 * j.toNat + 4 * k.toNat))
  b2 := fun j k => BitVec.ofNat 16 ((8 * j.toNat + 4 * k.toNat + 3) * 256 +
    (8 * j.toNat + 4 * k.toNat + 2))

/-- The bytes from address 5 on. -/
def sampleDesc : Desc sampleConfig := ⟨⟨5, 5⟩, by decide, by decide⟩

def sampleBench (ds : List (Desc sampleConfig)) : Bench sampleConfig := ⟨default, ds, [], []⟩

theorem sampleBench_start (ds : List (Desc sampleConfig)) : (sampleBench ds).Start ds :=
  ⟨rfl, rfl, rfl, rfl, rfl, rfl, rfl, .default, rfl, rfl, rfl⟩

def offering (accelStop mAxisTready : Bool) : Cycle sampleConfig :=
  ⟨true, ⟨0, 0⟩, accelStop, mAxisTready⟩

theorem transfers_exactly_sampleDesc :
    let cycles := List.replicate 20 (offering false true)
    (run (Bench.step sampleBanks) (sampleBench [sampleDesc]) cycles).out =
        [⟨true, false, 0, 0x0605⟩, ⟨false, false, 0, 0x0807⟩, ⟨false, true, 1, 0x0a09⟩] ∧
      (run (Bench.step sampleBanks) (sampleBench [sampleDesc]) cycles).out =
        [sampleDesc].flatMap (words sampleBanks) :=
  ⟨by decide +kernel,
    (transfers_exactly sampleBanks (sampleBench_start [sampleDesc]) (meets_nil _ _ _)).2.2.2
      (List.replicate 20 (offering false true)) (by decide +kernel) (by decide +kernel)⟩

end Rosebud.AccelRdDma
