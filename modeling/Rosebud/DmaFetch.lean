import Rosebud.DmaRead

/-! # What the read half of `axis_dma` is doing

As for the write half, the registers are related to a small machine.  `Fetch` is a
descriptor with the number of words asked for and the words that have come, the latest
first; `Stage` says whether words are still to come, or which of the last two are
left to be sent.  `Matches` says what the registers hold in each stage, and
`matches_step` is the simulation.

Nothing is said here about what the memory answers.
-/
namespace Rosebud.DmaRead
open Clocked Lanes AxiStream ByteStore MemoryWords

variable {P : Config}

/-- A descriptor being read. -/
structure Fetch (P : Config) where
  desc : Desc P
  asked : Nat
  got : List (Word P)

/-- A cycle of it: a word asked for or not, a word received or not. -/
def Fetch.after (x : Fetch P) (asks : Bool) (word : Option (Word P)) : Fetch P :=
  ⟨x.desc, if asks then x.asked + 1 else x.asked, word.toList ++ x.got⟩

/-- What the circuit is doing: nothing; looking at a descriptor; taking words in, with
one on the stream or not; sending the last two words, or the last one. -/
inductive Stage (P : Config) where
  | idle
  | init (d : Desc P)
  | fill (x : Fetch P) (offering : Bool)
  | flush (x : Fetch P)
  | final (x : Fetch P)

namespace Stage

/-- A word is on the stream. -/
def offers : Stage P → Bool
  | idle => false
  | init _ => false
  | fill _ offering => offering
  | flush x => decide (2 ≤ x.desc.words)
  | final _ => true

/-- The descriptor under way. -/
def current : Stage P → Option (Desc P)
  | idle => none
  | init d => some d
  | fill x _ => some x.desc
  | flush x => some x.desc
  | final x => some x.desc

/-- The descriptor is done in this cycle. -/
def finishes (ready : Bool) : Stage P → Bool
  | init d => decide (d.len = 0)
  | final _ => ready
  | _ => false

/-- A cycle: a descriptor taken, a word asked for, a word received, the stream ready. -/
def next (taken : Option (Desc P)) (asks : Bool) (word : Option (Word P)) (ready : Bool) :
    Stage P → Stage P
  | idle => match taken with
    | none => idle
    | some d => init d
  | init d => if d.len = 0 then idle else fill ⟨d, 0, []⟩ false
  | fill x offering =>
    let x' := x.after asks word
    match word with
    | none => fill x' (offering && !ready)
    | some _ =>
      if x'.got.length = x.desc.words then if x.desc.left = 2 then flush x' else final x'
      else fill x' (!x.got.isEmpty)
  | flush x => if decide (2 ≤ x.desc.words) && !ready then flush x else final x
  | final x => if ready then idle else final x

end Stage

/-! ## How the registers follow -/

/-- The registers latched from a descriptor. -/
structure Latched (r : Regs P) (d : Desc P) : Prop where
  sendBaseAddr : r.sendBaseAddr = d.addr
  sendLen : r.sendLen = d.len
  sendTdest : r.sendTdest = d.tdest
  sendTuser : r.sendTuser = d.tuser
  toDrop : r.toDrop = decide (d.len = 0)
  remainderBytes : r.remainderBytes.toNat = d.offset + d.residue

/-- Nothing is asked for and nothing is in the two registers. -/
structure Empty (s : Reader P) : Prop where
  rdReqWordCount : s.regs.rdReqWordCount = 0
  outstanding : s.outstanding = []
  dataLeft : s.regs.dataLeft = 0
  readReg1V : s.regs.readReg1V = false
  readReg2V : s.regs.readReg2V = false

/-- The registers that lead through the words of a descriptor. -/
structure Fetching (s : Reader P) (x : Fetch P) : Prop where
  rdStateR : s.regs.rdStateR = .proc
  latched : Latched s.regs x.desc
  len_ne : x.desc.len ≠ 0
  words_lt : x.desc.words < 2 ^ (P.lenWidth - P.maskBits)
  rdOffset : s.regs.rdOffset.toNat = x.desc.offset
  rdFinalTkeep : s.regs.rdFinalTkeep = lowMask _ x.desc.lastCount
  rdLenIsInt : s.regs.rdLenIsInt = decide (x.desc.residue = 0)
  got_le : x.got.length ≤ x.asked
  asked_le : x.asked ≤ x.desc.words
  rdReqWordCount : s.regs.rdReqWordCount.toNat = x.desc.words - x.asked
  rdRecvWordCount : s.regs.rdRecvWordCount.toNat = x.desc.words - x.got.length
  alignedRdAddr : s.regs.alignedRdAddr = wordAddr P.maskBits x.desc.addr x.asked
  outstanding : s.outstanding =
    (List.range' x.got.length (x.asked - x.got.length)).map (wordAddr P.maskBits x.desc.addr)

/-- The two registers while words are taken in. -/
def Filled (r : Regs P) (offering : Bool) : List (Word P) → Prop
  | [] => r.readReg1V = false ∧ r.readReg2V = false ∧ offering = false
  | [w] => r.readReg1V = true ∧ r.readReg1 = w ∧ r.readReg2V = false ∧ offering = false
  | w :: w' :: _ => r.readReg1V = true ∧ r.readReg1 = w ∧ r.readReg2V = offering ∧
      (offering = true → r.readReg2 = w')

/-- The two registers with two words left: the last of them is in the first. -/
structure Flushed (r : Regs P) (x : Fetch P) : Prop where
  length : x.got.length = x.desc.words
  left : x.desc.left = 2
  dataLeft : r.dataLeft = 2
  readReg2V : r.readReg2V = decide (2 ≤ x.desc.words)
  front : ∃ older, x.got = r.readReg1 :: older
  behind : 2 ≤ x.desc.words → ∃ older, x.got = r.readReg1 :: r.readReg2 :: older

/-- The two registers with one word left: it is in the second, or between the two. -/
structure Finals (r : Regs P) (x : Fetch P) : Prop where
  length : x.got.length = x.desc.words
  dataLeft : r.dataLeft = 1
  readReg2V : r.readReg2V = true
  held : (x.desc.left = 1 ∧ ∃ older, x.got = r.readReg1 :: r.readReg2 :: older) ∨
    (x.desc.left = 2 ∧ ∃ older, x.got = r.readReg2 :: older)

def Matches (s : Reader P) : Stage P → Prop
  | .idle => s.regs.rdStateR = .idle ∧ Empty s
  | .init d => s.regs.rdStateR = .init ∧ Empty s ∧ Latched s.regs d ∧ d.Fits
  | .fill x offering =>
    Fetching s x ∧ x.got.length < x.desc.words ∧ s.regs.dataLeft = 0 ∧
      Filled s.regs offering x.got
  | .flush x => Fetching s x ∧ Flushed s.regs x
  | .final x => Fetching s x ∧ Finals s.regs x

theorem Fresh.matches {s : Reader P} (h : Fresh s) : Matches s .idle :=
  ⟨h.rdStateR, h.rdReqWordCount, h.outstanding, h.dataLeft, h.readReg1V, h.readReg2V⟩

/-! ### The circuit between descriptors -/

section Wires
variable {s : Reader P} {e : Env P} {st : Stage P}

/-- The word received in a cycle. -/
def Reader.word (s : Reader P) (e : Env P) : Option (Word P) :=
  if receives s.regs (s.inputs e) then some e.memRdData else none

/-- The descriptor taken in a cycle. -/
def Reader.taken (s : Reader P) (e : Env P) : Option (Desc P) :=
  if takesDesc s.regs (s.inputs e) then some e.sendDesc else none

namespace Filled
variable {r r' : Regs P} {offering : Bool} {got : List (Word P)}

theorem readReg2V (h : Filled r offering got) : r.readReg2V = offering := by
  match got, h with
  | [], ⟨_, h2, hoff⟩ => exact h2.trans hoff.symm
  | [_], ⟨_, _, h2, hoff⟩ => exact h2.trans hoff.symm
  | _ :: _ :: _, ⟨_, _, h2, _⟩ => exact h2

theorem readReg1V (h : Filled r offering got) : r.readReg1V = !got.isEmpty := by
  match got, h with
  | [], ⟨h1, _⟩ => exact h1
  | [_], ⟨h1, _⟩ => exact h1
  | _ :: _ :: _, ⟨h1, _⟩ => exact h1

theorem readReg1 {w : Word P} {older : List (Word P)} (h : Filled r offering got)
    (hgot : got = w :: older) : r.readReg1 = w := by
  match got, h with
  | [], _ => exact absurd hgot (by simp)
  | [_], ⟨_, hw, _⟩ => exact hw.trans (List.cons.inj hgot).1
  | _ :: _ :: _, ⟨_, hw, _⟩ => exact hw.trans (List.cons.inj hgot).1

/-- With a word on the stream both registers are full. -/
theorem offered (h : Filled r true got) :
    ∃ older, got = r.readReg1 :: r.readReg2 :: older := by
  match got, h with
  | [], ⟨_, _, hoff⟩ => exact absurd hoff (by simp)
  | [_], ⟨_, _, _, hoff⟩ => exact absurd hoff (by simp)
  | _ :: _ :: older, ⟨_, h1, _, h2⟩ => exact ⟨older, by rw [h1, h2 rfl]⟩

/-- The second register may have been sent. -/
theorem sent (h : Filled r offering got) (keep : Bool) (h1v : r'.readReg1V = r.readReg1V)
    (h1 : r'.readReg1 = r.readReg1) (h2 : r'.readReg2 = r.readReg2)
    (h2v : r'.readReg2V = (offering && keep)) : Filled r' (offering && keep) got := by
  match got, h with
  | [], ⟨hv, _, hoff⟩ =>
    rw [hoff] at h2v ⊢
    exact ⟨h1v.trans hv, h2v, rfl⟩
  | [_], ⟨hv, hw, _, hoff⟩ =>
    rw [hoff] at h2v ⊢
    exact ⟨h1v.trans hv, h1.trans hw, h2v, rfl⟩
  | _ :: _ :: _, ⟨hv, hw, _, hw'⟩ =>
    exact ⟨h1v.trans hv, h1.trans hw, h2v,
      fun hoff => h2.trans (hw' (Bool.and_eq_true_iff.mp hoff).1)⟩

/-- A word is taken in. -/
theorem receive (h : Filled r offering got) (w : Word P) (h1v : r'.readReg1V = true)
    (h1 : r'.readReg1 = w) (h2 : r'.readReg2 = r.readReg1)
    (h2v : r'.readReg2V = r.readReg1V) : Filled r' (!got.isEmpty) (w :: got) := by
  match got, h with
  | [], ⟨hv, _⟩ => exact ⟨h1v, h1, h2v.trans hv, rfl⟩
  | [_], ⟨hv, hw, _⟩ => exact ⟨h1v, h1, h2v.trans hv, fun _ => h2.trans hw⟩
  | _ :: _ :: _, ⟨hv, hw, _⟩ => exact ⟨h1v, h1, h2v.trans hv, fun _ => h2.trans hw⟩

end Filled

theorem mAxisTvalid_eq (h : Matches s st) : mAxisTvalid s.regs = st.offers := by
  cases st with
  | idle => exact h.2.readReg2V
  | init d => exact h.2.1.readReg2V
  | fill x offering => exact h.2.2.2.readReg2V
  | flush x => exact h.2.readReg2V
  | final x => exact h.2.readReg2V

theorem mAxisTlast_eq (h : Matches s st) :
    mAxisTlast s.regs = match st with | .final _ => true | _ => false := by
  cases st with
  | idle => simp [mAxisTlast, h.2.dataLeft]
  | init d => simp [mAxisTlast, h.2.1.dataLeft]
  | fill x offering => simp [mAxisTlast, h.2.2.1]
  | flush x => simp [mAxisTlast, h.2.dataLeft]
  | final x => simp [mAxisTlast, h.2.dataLeft]

/-- `pkt_sent` goes with the end of a descriptor. -/
theorem pktSent_eq (h : Matches s st) :
    pktSent s.regs (s.inputs e) = st.finishes e.mAxisTready := by
  have hv := mAxisTvalid_eq h
  have hl := mAxisTlast_eq h
  rw [pktSent, hv, hl]
  cases st with
  | idle => simp [h.1, Stage.offers, Stage.finishes]
  | init d => simp [h.1, h.2.2.1.toDrop, Stage.offers, Stage.finishes]
  | fill x offering => simp [h.1.rdStateR, Stage.finishes]
  | flush x => simp [h.1.rdStateR, Stage.finishes]
  | final x => simp [h.1.rdStateR, Stage.offers, Stage.finishes, Reader.inputs]

/-- Descriptors are taken in the idle stage only. -/
theorem sendDescReady_eq (h : Matches s st) : sendDescReady s.regs = st.current.isNone := by
  cases st with
  | idle => simp [sendDescReady, h.1, Stage.current]
  | init d => simp [sendDescReady, h.1, Stage.current]
  | fill x offering => simp [sendDescReady, h.1.rdStateR, Stage.current]
  | flush x => simp [sendDescReady, h.1.rdStateR, Stage.current]
  | final x => simp [sendDescReady, h.1.rdStateR, Stage.current]

theorem waiting_of_empty (h : Empty s) : s.waiting e.memRdReady = [] := by
  simp [Reader.waiting, memRdEn, h.rdReqWordCount, h.outstanding]

theorem receives_of_waiting_nil (h : s.waiting e.memRdReady = []) :
    receives s.regs (s.inputs e) = false := by
  simp [receives, Reader.inputs, h]

/-- Between descriptors nothing comes in and nothing goes out. -/
theorem empty_step (h : Empty s) (hstate : s.regs.rdStateR = .idle) : Empty (s.step e) := by
  have hw := waiting_of_empty (e := e) h
  have hrecv := receives_of_waiting_nil hw
  refine ⟨by simp [Reader.step, next, hstate], by simp [Reader.step, hw, hrecv],
    by simp [Reader.step, next, nextDataLeft, hstate], ?_, ?_⟩
  all_goals
    simp [Reader.step, next, nextPipe, hrecv, h.dataLeft, h.readReg1V, h.readReg2V, sends,
      mAxisTvalid]

end Wires

/-! ### Taking a descriptor -/

section Start
variable {s : Reader P} {e : Env P} {d : Desc P}

theorem toNat_low (d : Desc P) :
    (d.addr.extractLsb' 0 P.maskBits).toNat = d.offset ∧
      (d.len.extractLsb' 0 P.maskBits).toNat = d.residue := by
  constructor <;> simp [BitVec.extractLsb'_toNat, Desc.offset, Desc.residue]

theorem latched_take (h : takesDesc s.regs (s.inputs e) = true) :
    Latched (s.step e).regs e.sendDesc := by
  obtain ⟨hoff, hres⟩ := toNat_low e.sendDesc
  have hin : (s.inputs e).sendDesc = e.sendDesc := rfl
  refine ⟨by simp [Reader.step, next, h, hin], by simp [Reader.step, next, h, hin],
    by simp [Reader.step, next, h, hin], by simp [Reader.step, next, h, hin],
    by simp [Reader.step, next, h, hin], ?_⟩
  simp only [Reader.step, next, h, if_true, hin]
  rw [BitVec.toNat_add, BitVec.toNat_setWidth, BitVec.toNat_setWidth, hoff, hres,
    Nat.mod_eq_of_lt (a := Desc.offset _) (by omega),
    Nat.mod_eq_of_lt (a := Desc.residue _) (by omega), Nat.mod_eq_of_lt (by omega)]

theorem latched_keep (h : Latched s.regs d) (hstate : s.regs.rdStateR ≠ .idle) :
    Latched (s.step e).regs d := by
  have ht : takesDesc s.regs (s.inputs e) = false := by simp [takesDesc, sendDescReady, hstate]
  exact ⟨by simp [Reader.step, next, ht, h.sendBaseAddr],
    by simp [Reader.step, next, ht, h.sendLen],
    by simp [Reader.step, next, ht, h.sendTdest], by simp [Reader.step, next, ht, h.sendTuser],
    by simp [Reader.step, next, ht, h.toDrop], by simp [Reader.step, next, ht, h.remainderBytes]⟩

/-- The words to ask for. -/
theorem toNat_initWordCount {r : Regs P} (h : Latched r d) (hne : d.len ≠ 0)
    (hlt : d.words < 2 ^ (P.lenWidth - P.maskBits)) : (initWordCount r).toNat = d.words := by
  have hr := d.residue_lt
  have ho := d.offset_lt
  have hpos : 0 < P.strbWidth := Nat.two_pow_pos _
  have hdrop : r.toDrop = false := h.toDrop.trans (decide_eq_false hne)
  have hquot : (r.sendLen.extractLsb' P.maskBits (P.lenWidth - P.maskBits)).toNat =
      d.len.toNat / P.strbWidth := by
    rw [h.sendLen, BitVec.extractLsb'_toNat, Nat.shiftRight_eq_div_pow]
    apply Nat.mod_eq_of_lt
    rw [Nat.div_lt_iff_lt_mul (Nat.two_pow_pos _), ← Nat.pow_add,
      Nat.sub_add_cancel P.maskBits_le_lenWidth]
    exact d.len.isLt
  have hextra : (extraWords r).toNat =
      if d.offset + d.residue = 0 then 0 else (d.offset + d.residue) / P.strbWidth + 1 := by
    unfold extraWords
    by_cases hz : d.offset + d.residue = 0
    · have hzero : r.remainderBytes = 0 :=
        BitVec.eq_of_toNat_eq (by rw [h.remainderBytes, hz]; rfl)
      rw [if_pos (.inl hzero), if_pos hz]
      rfl
    · have hnz : r.remainderBytes ≠ 0 := by
        intro heq
        apply hz
        rw [← h.remainderBytes, heq]
        rfl
      rw [if_neg (not_or.mpr ⟨hnz, by rw [hdrop]; exact Bool.false_ne_true⟩), if_neg hz]
      have hle : (d.offset + d.residue) / P.strbWidth < 2 := by
        rw [Nat.div_lt_iff_lt_mul hpos]
        omega
      have hbit : (r.remainderBytes.extractLsb' P.maskBits 1).toNat =
          (d.offset + d.residue) / P.strbWidth := by
        rw [BitVec.extractLsb'_toNat, h.remainderBytes, Nat.shiftRight_eq_div_pow]
        exact Nat.mod_eq_of_lt hle
      have hone : (1 : BitVec 2).toNat = 1 := rfl
      rw [BitVec.toNat_add, BitVec.toNat_setWidth, hbit, hone]
      omega
  rw [initWordCount, BitVec.toNat_add, BitVec.toNat_setWidth, hquot, hextra, Nat.add_mod_mod]
  exact Nat.mod_eq_of_lt hlt

/-- The strobe of the last word. -/
theorem finalTkeep_eq {r : Regs P} (h : Latched r d) :
    ((0#(P.strbWidth - 1) ++ BitVec.allOnes P.strbWidth) >>> (tkeepZeros r).toNat).setWidth
      P.strbWidth = lowMask P.strbWidth d.lastCount := by
  have hzeros : (tkeepZeros r).toNat = P.strbWidth - d.lastCount := by
    obtain ⟨-, hres⟩ := toNat_low d
    rw [tkeepZeros, BitVec.toNat_sub, h.sendLen, hres, BitVec.toNat_ofNat, Nat.mod_self,
      Nat.add_zero]
    unfold Desc.lastCount
    split
    · rename_i hz
      rw [hz, Nat.sub_zero, Nat.mod_self, Nat.sub_self]
    · exact Nat.mod_eq_of_lt (by omega)
  ext i hi
  rw [BitVec.getElem_setWidth, BitVec.getLsbD_ushiftRight, BitVec.getLsbD_append, hzeros,
    getElem_lowMask, BitVec.getLsbD_allOnes]
  by_cases hlt : P.strbWidth - d.lastCount + i < P.strbWidth
  · have : i < d.lastCount := by omega
    simp [hlt, this]
  · have : ¬ i < d.lastCount := by omega
    simp [hlt, this]

/-- The first cycle of a descriptor. -/
theorem fetching_begin (hstate : s.regs.rdStateR = .init) (he : Empty s)
    (hl : Latched s.regs d) (hf : d.Fits) (hne : d.len ≠ 0) :
    Fetching (s.step e) ⟨d, 0, []⟩ := by
  have hw := waiting_of_empty (e := e) he
  have hrecv := receives_of_waiting_nil hw
  have hcount := toNat_initWordCount hl hne (d.words_lt hf)
  obtain ⟨hoff, hres⟩ := toNat_low d
  have hdrop : s.regs.toDrop = false := hl.toDrop.trans (decide_eq_false hne)
  refine ⟨by simp [Reader.step, next, nextRdState, hstate, hdrop],
    latched_keep hl (by simp [hstate]), hne, d.words_lt hf, ?_, ?_, ?_, Nat.le_refl 0,
    Nat.zero_le _, ?_, ?_, ?_, by simp [Reader.step, hw, hrecv]⟩
  · simp only [Reader.step, next, hstate, hl.sendBaseAddr]
    exact hoff
  · simp only [Reader.step, next, hstate]
    exact finalTkeep_eq hl
  · simp only [Reader.step, next, hstate, hl.sendLen]
    rw [← hres]
    refine decide_eq_decide.mpr ⟨fun h => by rw [h]; rfl, fun h => BitVec.eq_of_toNat_eq h⟩
  · simp only [Reader.step, next, hstate]
    exact hcount
  · simp only [Reader.step, next, hstate]
    exact hcount
  · simp [Reader.step, next, hstate, hl.sendBaseAddr, wordAddr]

end Start

/-! ### Inside a descriptor -/

section Words
variable {s : Reader P} {e : Env P} {x : Fetch P}

theorem memRdEn_eq (h : Fetching s x) : memRdEn s.regs = decide (x.asked < x.desc.words) := by
  have hcount := h.rdReqWordCount
  have hzero : (0 : BitVec (P.lenWidth - P.maskBits)).toNat = 0 := BitVec.toNat_zero
  refine decide_eq_decide.mpr ⟨fun hne => ?_, fun hlt heq => ?_⟩
  · by_contra hnot
    exact hne (BitVec.eq_of_toNat_eq (by rw [hcount, hzero]; omega))
  · rw [heq, hzero] at hcount
    omega

theorem asked_after_le (h : Fetching s x) :
    (x.after (asks s.regs (s.inputs e)) (s.word e)).asked ≤ x.desc.words := by
  have hle := h.asked_le
  have hen := memRdEn_eq h
  unfold Fetch.after
  simp only
  split
  · rename_i ha
    obtain ⟨hask, -⟩ := Bool.and_eq_true_iff.mp ha
    rw [hen, decide_eq_true_iff] at hask
    omega
  · exact hle

/-- The requests that can be answered are those for the words that have not come. -/
theorem waiting_eq (h : Fetching s x) : s.waiting e.memRdReady =
    (List.range' x.got.length ((x.after (asks s.regs (s.inputs e)) (s.word e)).asked -
      x.got.length)).map (wordAddr P.maskBits x.desc.addr) := by
  have hle := h.got_le
  have hasks : asks s.regs (s.inputs e) = (memRdEn s.regs && e.memRdReady) := rfl
  rw [Reader.waiting, h.outstanding, ← hasks, h.alignedRdAddr]
  unfold Fetch.after
  split
  · rw [Nat.sub_add_comm hle, List.range'_concat, List.map_append, List.map_singleton, Nat.one_mul,
      Nat.add_sub_cancel' hle]
  · rw [List.append_nil]

theorem length_got_after (hr : receives s.regs (s.inputs e) = true) {asks : Bool} :
    (x.after asks (s.word e)).got.length = x.got.length + 1 := by
  simp [Fetch.after, Reader.word, hr, Nat.add_comm]

theorem got_after (hr : ¬ receives s.regs (s.inputs e) = true) {asks : Bool} :
    (x.after asks (s.word e)).got = x.got := by
  simp [Fetch.after, Reader.word, hr]

/-- A word received is one that was asked for. -/
theorem got_after_le (h : Fetching s x) :
    (x.after (asks s.regs (s.inputs e)) (s.word e)).got.length ≤
      (x.after (asks s.regs (s.inputs e)) (s.word e)).asked := by
  have hle := h.got_le
  have hwait := waiting_eq (e := e) h
  have hgrow : x.asked ≤ (x.after (asks s.regs (s.inputs e)) (s.word e)).asked := by
    unfold Fetch.after
    simp only
    split <;> omega
  by_cases hr : receives s.regs (s.inputs e) = true
  · have hne : s.waiting e.memRdReady ≠ [] := by
      intro hnil
      rw [receives_of_waiting_nil hnil] at hr
      exact Bool.false_ne_true hr
    have hlen : 0 < (s.waiting e.memRdReady).length := List.length_pos_of_ne_nil hne
    rw [hwait, List.length_map, List.length_range'] at hlen
    rw [length_got_after hr]
    omega
  · rw [got_after hr]
    omega

/-- One cycle of a descriptor that goes on. -/
theorem fetching_step (h : Fetching s x) (hstate : nextRdState s.regs (s.inputs e) = .proc) :
    Fetching (s.step e) (x.after (asks s.regs (s.inputs e)) (s.word e)) := by
  have hasked := asked_after_le (e := e) h
  have hgot := got_after_le (e := e) h
  have hwait := waiting_eq (e := e) h
  refine ⟨hstate, latched_keep h.latched (by simp [h.rdStateR]), h.len_ne, h.words_lt, ?_, ?_, ?_,
    hgot, hasked, ?_, ?_, ?_, ?_⟩
  · simp only [Reader.step, next, h.rdStateR]
    exact h.rdOffset
  · simp only [Reader.step, next, h.rdStateR]
    exact h.rdFinalTkeep
  · simp only [Reader.step, next, h.rdStateR]
    exact h.rdLenIsInt
  · simp only [Reader.step, next, h.rdStateR]
    cases ha : asks s.regs (s.inputs e) with
    | false => exact h.rdReqWordCount
    | true =>
      rw [ha] at hasked
      have hlt : x.asked + 1 ≤ x.desc.words := hasked
      rw [if_pos rfl, toNat_sub_one h.rdReqWordCount (by omega), Nat.sub_sub]
      rfl
  · simp only [Reader.step, next, h.rdStateR]
    by_cases hr : receives s.regs (s.inputs e) = true
    · rw [length_got_after hr] at hgot ⊢
      rw [if_pos hr, toNat_sub_one h.rdRecvWordCount (by omega), Nat.sub_sub]
      rfl
    · rw [if_neg hr, got_after hr]
      exact h.rdRecvWordCount
  · simp only [Reader.step, next, h.rdStateR]
    cases ha : asks s.regs (s.inputs e) with
    | false => exact h.alignedRdAddr
    | true =>
      rw [if_pos rfl, h.alignedRdAddr, wordAddr, BitVec.add_assoc, ← BitVec.ofNat_add,
        ← Nat.succ_mul]
      rfl
  · rw [Reader.step, hwait]
    by_cases hr : receives s.regs (s.inputs e) = true
    · rw [length_got_after hr] at hgot ⊢
      rw [hr, rest_true, ← List.map_tail, List.tail_range', ← Nat.sub_sub]
      rfl
    · rw [got_after hr]
      rw [Bool.not_eq_true] at hr
      rw [hr, rest_false]
      rfl

/-- When all words have come, none is asked for and none comes. -/
theorem nothing_more (h : Fetching s x) (hlen : x.got.length = x.desc.words) :
    asks s.regs (s.inputs e) = false ∧ receives s.regs (s.inputs e) = false ∧
      x.after (asks s.regs (s.inputs e)) (s.word e) = x := by
  have hgot := h.got_le
  have hasked := h.asked_le
  have hask : asks s.regs (s.inputs e) = false := by
    have hen := memRdEn_eq h
    rw [asks, hen, decide_eq_false (by omega), Bool.false_and]
  have hwait : s.waiting e.memRdReady = [] := by
    rw [waiting_eq h, hask]
    simp only [Fetch.after, Bool.false_eq_true, if_false]
    rw [hlen, Nat.sub_eq_zero_of_le hasked]
    rfl
  have hrecv := receives_of_waiting_nil hwait
  refine ⟨hask, hrecv, ?_⟩
  rw [hask, Reader.word, hrecv]
  rfl

/-- What is left when the last word comes. -/
theorem lastDataLeft_eq (h : Fetching s x) :
    lastDataLeft s.regs = if x.desc.left = 2 then 2 else 1 := by
  have ho := x.desc.offset_lt
  have hr := x.desc.residue_lt
  have hoff : s.regs.rdOffset = 0 ↔ x.desc.offset = 0 := by
    rw [← h.rdOffset]
    exact ⟨fun heq => by rw [heq]; rfl, fun heq => BitVec.eq_of_toNat_eq heq⟩
  have hbit : s.regs.remainderBytes.getLsbD P.maskBits =
      decide (P.strbWidth ≤ x.desc.offset + x.desc.residue) := by
    have hpos : 0 < P.strbWidth := Nat.two_pow_pos _
    rw [BitVec.getLsbD, h.latched.remainderBytes, Nat.testBit_eq_decide_div_mod_eq]
    refine decide_eq_decide.mpr ?_
    change (x.desc.offset + x.desc.residue) / P.strbWidth % 2 = 1 ↔ _
    rcases Nat.lt_or_ge (x.desc.offset + x.desc.residue) P.strbWidth with hlt | hge
    · rw [Nat.div_eq_of_lt hlt]
      omega
    · rw [Nat.div_eq_of_lt_le (k := 1) (by omega) (by omega)]
      simpa using hge
  unfold lastDataLeft Desc.left
  rw [hbit, h.rdLenIsInt]
  by_cases hz : x.desc.offset = 0
  · rw [if_pos (hoff.mpr hz), if_pos hz, if_pos rfl]
  · rw [if_neg (fun hh => hz (hoff.mp hh)), if_neg hz]
    by_cases hres : x.desc.residue = 0
    · simp [hres]
    · by_cases hge : P.strbWidth ≤ x.desc.offset + x.desc.residue <;> simp [hres, hge]

theorem rdRecvWordCount_eq_one (h : Fetching s x) :
    s.regs.rdRecvWordCount = 1 ↔ x.got.length + 1 = x.desc.words := by
  have hlt := h.words_lt
  have hpos := x.desc.words_pos h.len_ne
  have hone : (1 : BitVec (P.lenWidth - P.maskBits)).toNat = 1 :=
    (BitVec.toNat_ofNat 1 _).trans (Nat.mod_eq_of_lt (by omega))
  have hcount := h.rdRecvWordCount
  constructor
  · intro heq
    rw [heq, hone] at hcount
    omega
  · intro heq
    exact BitVec.eq_of_toNat_eq (by rw [hcount, hone]; omega)

end Words

/-! ### The simulation -/

section Simulation
variable {s : Reader P} {e : Env P} {x : Fetch P}

theorem step_idle (h : Matches s .idle)
    (hfits : ∀ d, s.taken e = some d → d.Fits) :
    Matches (s.step e) (Stage.idle.next (s.taken e) (asks s.regs (s.inputs e)) (s.word e)
      e.mAxisTready) := by
  obtain ⟨hstate, he⟩ := h
  have hempty := empty_step (e := e) he hstate
  have htakes : takesDesc s.regs (s.inputs e) = e.sendDescValid := by
    simp [takesDesc, sendDescReady, hstate, Reader.inputs]
  cases hv : e.sendDescValid with
  | false =>
    have htaken : s.taken e = none := by simp [Reader.taken, htakes, hv]
    rw [htaken]
    exact ⟨by simp [Reader.step, next, nextRdState, hstate, Reader.inputs, hv], hempty⟩
  | true =>
    have htaken : s.taken e = some e.sendDesc := by simp [Reader.taken, htakes, hv]
    rw [htaken]
    exact ⟨by simp [Reader.step, next, nextRdState, hstate, Reader.inputs, hv], hempty,
      latched_take (htakes.trans hv), hfits _ htaken⟩

theorem step_init {d : Desc P} (h : Matches s (.init d)) :
    Matches (s.step e) ((Stage.init d).next (s.taken e) (asks s.regs (s.inputs e)) (s.word e)
      e.mAxisTready) := by
  obtain ⟨hstate, he, hl, hf⟩ := h
  have hw := waiting_of_empty (e := e) he
  have hrecv := receives_of_waiting_nil hw
  have hleft : (s.step e).regs.dataLeft = 0 := by
    simp [Reader.step, next, nextDataLeft, hstate]
  have hpipe : nextPipe s.regs (s.inputs e) =
      (s.regs.readReg1, false, s.regs.readReg2, false) := by
    simp [nextPipe, hrecv, he.dataLeft, he.readReg1V, he.readReg2V, sends, mAxisTvalid]
  by_cases hz : d.len = 0
  · have hdrop : s.regs.toDrop = true := hl.toDrop.trans (decide_eq_true hz)
    -- nothing is asked for: the count worked out for a dropped descriptor is zero
    have hzero : initWordCount s.regs = 0 := by
      rw [initWordCount, extraWords, if_pos (.inr hdrop), hl.sendLen, hz]
      simp
    rw [Stage.next, if_pos hz]
    exact ⟨by simp [Reader.step, next, nextRdState, hstate, hdrop],
      by simp only [Reader.step, next, hstate, hzero], by simp [Reader.step, hw, hrecv], hleft,
      by simp [Reader.step, next, hpipe], by simp [Reader.step, next, hpipe]⟩
  · rw [Stage.next, if_neg hz]
    exact ⟨fetching_begin hstate he hl hf hz, d.words_pos hz, hleft,
      by simp [Reader.step, next, hpipe], by simp [Reader.step, next, hpipe], rfl⟩

theorem step_fill_none {offering : Bool} (h : Matches s (.fill x offering))
    (hf : Fetching (s.step e) (x.after (asks s.regs (s.inputs e)) (s.word e)))
    (hr : receives s.regs (s.inputs e) = false) :
    Matches (s.step e) (.fill (x.after (asks s.regs (s.inputs e)) none)
      (offering && !e.mAxisTready)) := by
  obtain ⟨hfetch, hlt, hleft, hfill⟩ := h
  have hword : s.word e = none := by simp [Reader.word, hr]
  rw [hword] at hf
  have hvalid : mAxisTvalid s.regs = offering := hfill.readReg2V
  have hpipe : nextPipe s.regs (s.inputs e) = (s.regs.readReg1, s.regs.readReg1V, s.regs.readReg2,
      offering && !e.mAxisTready) := by
    have hv : s.regs.readReg2V = offering := hvalid
    simp only [nextPipe, hr, hleft, sends, hvalid, hv]
    cases offering <;> cases hready : e.mAxisTready <;> simp [Reader.inputs, hready]
  refine ⟨hf, hlt, ?_, ?_⟩
  · simp [Reader.step, next, nextDataLeft, hr, hleft]
  · exact hfill.sent (!e.mAxisTready) (by simp [Reader.step, next, hpipe])
      (by simp [Reader.step, next, hpipe]) (by simp [Reader.step, next, hpipe])
      (by simp [Reader.step, next, hpipe])

theorem step_fill_some {offering : Bool} (h : Matches s (.fill x offering))
    (hf : Fetching (s.step e) (x.after (asks s.regs (s.inputs e)) (s.word e)))
    (hr : receives s.regs (s.inputs e) = true) :
    Matches (s.step e)
      (if x.got.length + 1 = x.desc.words then
        if x.desc.left = 2 then .flush (x.after (asks s.regs (s.inputs e)) (some e.memRdData))
        else .final (x.after (asks s.regs (s.inputs e)) (some e.memRdData))
      else .fill (x.after (asks s.regs (s.inputs e)) (some e.memRdData)) (!x.got.isEmpty)) := by
  obtain ⟨hfetch, hlt, hleft, hfill⟩ := h
  have hword : s.word e = some e.memRdData := by simp [Reader.word, hr]
  rw [hword] at hf
  obtain ⟨h1, hv1, h2, hv2⟩ : (s.step e).regs.readReg1 = e.memRdData ∧
      (s.step e).regs.readReg1V = true ∧ (s.step e).regs.readReg2 = s.regs.readReg1 ∧
      (s.step e).regs.readReg2V = s.regs.readReg1V := by
    have hdata : (s.inputs e).memRdData = e.memRdData := rfl
    simp [Reader.step, next, nextPipe, hr, hdata]
  have hone := rdRecvWordCount_eq_one hfetch
  have hfull := hfill.readReg1V
  by_cases hlast : x.got.length + 1 = x.desc.words
  · have hdata : (s.step e).regs.dataLeft = if x.desc.left = 2 then 2 else 1 := by
      rw [← lastDataLeft_eq hfetch]
      simp only [Reader.step, next, nextDataLeft, hfetch.rdStateR]
      rw [if_neg (by simp), if_pos ⟨hone.mpr hlast, hr⟩]
    rw [if_pos hlast]
    by_cases htwo : x.desc.left = 2
    · rw [if_pos htwo] at hdata ⊢
      refine ⟨hf, ?_, htwo, hdata, ?_, ⟨x.got, by rw [h1]; rfl⟩, ?_⟩
      · exact hlast
      · rw [hv2, hfull]
        change _ = decide (2 ≤ x.desc.words)
        cases hgot : x.got with
        | nil => simp [← hlast, hgot]
        | cons w older => simp [← hlast, hgot]
      · intro hge
        change 2 ≤ x.desc.words at hge
        cases hgot : x.got with
        | nil => simp [hgot, ← hlast] at hge
        | cons w older =>
          refine ⟨older, ?_⟩
          rw [h1, h2, hfill.readReg1 hgot, ← hgot]
          rfl
    · rw [if_neg htwo] at hdata ⊢
      have hleft1 : x.desc.left = 1 := by
        rcases x.desc.left_eq with hl | hl
        · exact hl
        · exact absurd hl htwo
      have hsum := x.desc.words_add_left
      have htot := x.desc.total_pos hfetch.len_ne
      obtain ⟨w, older, hgot⟩ : ∃ w older, x.got = w :: older := by
        cases hgot : x.got with
        | nil =>
          rw [hgot, List.length_nil] at hlast
          omega
        | cons w older => exact ⟨w, older, rfl⟩
      refine ⟨hf, ?_, hdata, ?_, .inl ⟨hleft1, older, ?_⟩⟩
      · exact hlast
      · rw [hv2, hfull, hgot]
        rfl
      · rw [h1, h2, hfill.readReg1 hgot, ← hgot]
        rfl
  · rw [if_neg hlast]
    refine ⟨hf, ?_, ?_, ?_⟩
    · change x.got.length + 1 < x.desc.words
      omega
    · simp only [Reader.step, next, nextDataLeft, hfetch.rdStateR]
      rw [if_neg (by simp), if_neg (fun hh => hlast (hone.mp hh.1)), if_neg (by simp [hleft])]
      exact hleft
    · exact hfill.receive e.memRdData hv1 h1 h2 hv2

theorem step_fill {offering : Bool} (h : Matches s (.fill x offering)) :
    Matches (s.step e) ((Stage.fill x offering).next (s.taken e) (asks s.regs (s.inputs e))
      (s.word e) e.mAxisTready) := by
  have hstate : nextRdState s.regs (s.inputs e) = .proc := by
    simp [nextRdState, h.1.rdStateR, pktSent_eq h, Stage.finishes]
  have hf := fetching_step h.1 hstate
  by_cases hr : receives s.regs (s.inputs e) = true
  · have hword : s.word e = some e.memRdData := by simp [Reader.word, hr]
    rw [hword]
    exact step_fill_some h hf hr
  · rw [Bool.not_eq_true] at hr
    have hword : s.word e = none := by simp [Reader.word, hr]
    rw [hword]
    exact step_fill_none h hf hr

/-- While the word on the stream waits, the registers stay. -/
theorem stalled_step (h : Fetching s x) (hrecv : receives s.regs (s.inputs e) = false)
    (hb : blocked s.regs (s.inputs e) = true) :
    (s.step e).regs.readReg1 = s.regs.readReg1 ∧ (s.step e).regs.readReg2 = s.regs.readReg2 ∧
      (s.step e).regs.readReg2V = s.regs.readReg2V ∧
      (s.step e).regs.dataLeft = s.regs.dataLeft := by
  have hsends : sends s.regs (s.inputs e) = false := by
    simp only [blocked, Bool.and_eq_true, Bool.not_eq_true'] at hb
    simp [sends, hb.2]
  simp [Reader.step, next, nextPipe, nextDataLeft, hrecv, hb, hsends, h.rdStateR]

theorem step_flush (h : Matches s (.flush x)) :
    Matches (s.step e) ((Stage.flush x).next (s.taken e) (asks s.regs (s.inputs e))
      (s.word e) e.mAxisTready) := by
  have hvalid := mAxisTvalid_eq h
  have hstate : nextRdState s.regs (s.inputs e) = .proc := by
    simp [nextRdState, h.1.rdStateR, pktSent_eq h, Stage.finishes]
  obtain ⟨hfetch, hfl⟩ := h
  obtain ⟨-, hrecv, hsame⟩ := nothing_more (e := e) hfetch hfl.length
  have hf := fetching_step hfetch hstate
  rw [hsame] at hf
  have hblocked : blocked s.regs (s.inputs e) = (decide (2 ≤ x.desc.words) && !e.mAxisTready) := by
    rw [blocked, hvalid]
    rfl
  rw [Stage.next, ← hblocked]
  cases hb : blocked s.regs (s.inputs e) with
  | true =>
    obtain ⟨h1, h2, hv2, hd⟩ := stalled_step hfetch hrecv hb
    refine ⟨hf, hfl.length, hfl.left, hd.trans hfl.dataLeft, hv2.trans hfl.readReg2V, ?_, ?_⟩
    · rw [h1]
      exact hfl.front
    · rw [h1, h2]
      exact hfl.behind
  | false =>
    obtain ⟨h2, hv2, hd⟩ : (s.step e).regs.readReg2 = s.regs.readReg1 ∧
        (s.step e).regs.readReg2V = true ∧ (s.step e).regs.dataLeft = 1 := by
      simp [Reader.step, next, nextPipe, nextDataLeft, hrecv, hb, hfl.dataLeft, hfetch.rdStateR]
    refine ⟨hf, hfl.length, hd, hv2, .inr ⟨hfl.left, ?_⟩⟩
    rw [h2]
    exact hfl.front

theorem step_final (h : Matches s (.final x)) :
    Matches (s.step e) ((Stage.final x).next (s.taken e) (asks s.regs (s.inputs e))
      (s.word e) e.mAxisTready) := by
  have hvalid := mAxisTvalid_eq h
  have hsent := pktSent_eq (e := e) h
  obtain ⟨hfetch, hfin⟩ := h
  obtain ⟨hask, hrecv, hsame⟩ := nothing_more (e := e) hfetch hfin.length
  have hblocked : blocked s.regs (s.inputs e) = !e.mAxisTready := by
    rw [blocked, hvalid]
    rfl
  cases hready : e.mAxisTready with
  | true =>
    rw [hready] at hblocked hsent
    have hwait : s.waiting e.memRdReady = [] := by
      have hle := hfetch.asked_le
      rw [waiting_eq hfetch, hsame, hfin.length, Nat.sub_eq_zero_of_le hle]
      rfl
    have hcount : s.regs.rdReqWordCount = 0 := by
      apply BitVec.eq_of_toNat_eq
      have hle := hfetch.got_le
      rw [hfetch.rdReqWordCount, ← hfin.length, Nat.sub_eq_zero_of_le hle]
      rfl
    refine ⟨?_, ?_, ?_, ?_, ?_, ?_⟩
    · simp [Reader.step, next, nextRdState, hfetch.rdStateR, hsent, Stage.finishes]
    · simp only [Reader.step, next, hfetch.rdStateR, hask, Bool.false_eq_true, if_false, hcount]
    · simp [Reader.step, hwait, hrecv]
    all_goals
      simp [Reader.step, next, nextPipe, nextDataLeft, hrecv, hblocked, hfin.dataLeft,
        hfetch.rdStateR]
  | false =>
    rw [hready] at hblocked hsent
    have hstate : nextRdState s.regs (s.inputs e) = .proc := by
      simp [nextRdState, hfetch.rdStateR, hsent, Stage.finishes]
    have hf := fetching_step hfetch hstate
    rw [hsame] at hf
    obtain ⟨h1, h2, hv2, hd⟩ := stalled_step hfetch hrecv hblocked
    refine ⟨hf, hfin.length, hd.trans hfin.dataLeft, hv2.trans hfin.readReg2V, ?_⟩
    rw [h1, h2]
    exact hfin.held

/-- **The simulation.** -/
theorem matches_step {st : Stage P} (h : Matches s st) (e : Env P)
    (hfits : ∀ d, s.taken e = some d → d.Fits) :
    Matches (s.step e)
      (st.next (s.taken e) (asks s.regs (s.inputs e)) (s.word e) e.mAxisTready) := by
  cases st with
  | idle => exact step_idle h hfits
  | init d => exact step_init h
  | fill x offering => exact step_fill h
  | flush x => exact step_flush h
  | final x => exact step_final h

end Simulation

end Rosebud.DmaRead
