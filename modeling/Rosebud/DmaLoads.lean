import Rosebud.DmaFetch

/-! # The read half of `axis_dma` sends the bytes described

A memory with fixed contents answers the requests of the circuit.  The log of a bench
has an entry for every word taken from the stream, and one for every `pkt_sent`.

The words that have come are the words of the memory from the descriptor's first one
on, so that the word between the two registers holds the bytes that are due: a cycle
takes the first entries off `Stage.owed`.  `reads_exactly` is the result.  It also says
that the circuit gets done: as soon as memory and stream no longer hold it up, it is
idle after a bounded number of cycles.
-/
namespace Rosebud.DmaRead
open Clocked Lanes AxiStream ByteStore MemoryWords

variable {P : Config}

/-- The contents of the memory. -/
abbrev Contents (P : Config) : Type := BitVec P.addrWidth → Word P

/-- What is seen of a run: words on the stream, and `pkt_sent`. -/
inductive Event (P : Config) where
  | word (v : View P.strbWidth (Side P))
  | sent
deriving DecidableEq

/-- The words of a descriptor's packet. -/
def Desc.views (mem : Contents P) (d : Desc P) : List (View P.strbWidth (Side P)) :=
  pack P.strbWidth d.side (load mem d.addr d.len.toNat)

/-- What a descriptor calls for. -/
def Desc.events (mem : Contents P) (d : Desc P) : List (Event P) :=
  (if d.len = 0 then [] else (d.views mem).map .word) ++ [.sent]

/-- One cycle of the surroundings. -/
structure Cycle (P : Config) where
  offer : Bool
  idle : Desc P
  memRdReady : Bool
  respond : Bool
  noise : Word P
  mAxisTready : Bool

/-- The circuit with its descriptors to come and the log. -/
structure Bench (P : Config) where
  reader : Reader P
  pending : List (Desc P)
  log : List (Event P)

namespace Bench
variable (mem : Contents P) (b : Bench P) (c : Cycle P)

def env : Env P where
  sendDescValid := (bus b.pending c.offer c.idle).1
  sendDesc := (bus b.pending c.offer c.idle).2
  memRdReady := c.memRdReady
  respond := c.respond
  memRdData :=
    match c.respond, b.reader.waiting c.memRdReady with
    | true, a :: _ => mem a
    | _, _ => c.noise
  mAxisTready := c.mAxisTready

def inputs : Inputs P := b.reader.inputs (b.env mem c)

/-- The entries of one cycle. -/
def seen : List (Event P) :=
  (if sends b.reader.regs (b.inputs mem c) then [.word (mAxis b.reader.regs).view] else []) ++
    if pktSent b.reader.regs (b.inputs mem c) then [.sent] else []

def step : Bench P where
  reader := b.reader.step (b.env mem c)
  pending := rest b.pending (takesDesc b.reader.regs (b.inputs mem c))
  log := b.log ++ b.seen mem c

/-- Out of reset with descriptors to come. -/
structure Start (b : Bench P) (ds : List (Desc P)) : Prop where
  reader : Fresh b.reader
  pending : b.pending = ds
  log : b.log = []

end Bench

/-! ## Packets, word by word -/

namespace Desc
variable (mem : Contents P) (d : Desc P)

/-- What is due after `k` words. -/
def eventsFrom (k : Nat) : List (Event P) :=
  (pack P.strbWidth d.side (load mem (d.addr + BitVec.ofNat _ (k * P.strbWidth))
    (d.len.toNat - k * P.strbWidth))).map .word ++ [.sent]

theorem eventsFrom_zero (h : d.len ≠ 0) : d.eventsFrom mem 0 = d.events mem := by
  rw [eventsFrom, events, if_neg h, Nat.zero_mul, Nat.sub_zero, views, BitVec.add_zero]

/-- A word that is not the last. -/
theorem eventsFrom_succ {k : Nat} (h : k + 1 < d.total) :
    d.eventsFrom mem k =
      .word ⟨load mem (d.addr + BitVec.ofNat _ (k * P.strbWidth)) P.strbWidth,
        BitVec.allOnes _, false, d.side⟩ :: d.eventsFrom mem (k + 1) := by
  have hpos : 0 < P.strbWidth := Nat.two_pow_pos _
  have hlt : (k + 1) * P.strbWidth < d.len.toNat := by
    have hle : k + 1 + 1 ≤ (d.len.toNat + P.strbWidth - 1) / P.strbWidth := h
    rw [Nat.le_div_iff_mul_le hpos, Nat.succ_mul] at hle
    omega
  rw [Nat.succ_mul] at hlt
  unfold eventsFrom
  rw [pack_of_lt hpos (by rw [length_load]; omega), take_load _ (by omega),
    drop_load _ (by omega), List.map_cons, List.cons_append, BitVec.add_assoc, ← BitVec.ofNat_add,
    Nat.succ_mul, Nat.sub_sub]

/-- The last word. -/
theorem eventsFrom_last (h : d.len ≠ 0) :
    d.eventsFrom mem (d.total - 1) =
      [.word ⟨load mem (d.addr + BitVec.ofNat _ ((d.total - 1) * P.strbWidth)) d.lastCount,
        lowMask _ d.lastCount, true, d.side⟩, .sent] := by
  have hlen := d.len_eq_lastCount h
  have hle := d.lastCount_le
  have hsub : d.len.toNat - (d.total - 1) * P.strbWidth = d.lastCount := by omega
  rw [eventsFrom, hsub, pack_of_le (by rw [length_load]; exact hle), length_load]
  rfl

end Desc

/-! ## What is due -/

/-- The first `k` words of a descriptor, the latest first. -/
def firstWords (mem : Contents P) (d : Desc P) : Nat → List (Word P)
  | 0 => []
  | k + 1 => mem (wordAddr P.maskBits d.addr k) :: firstWords mem d k

/-- The words that have come are those of the memory. -/
def Loaded (mem : Contents P) (x : Fetch P) : Prop :=
  x.got = firstWords mem x.desc x.got.length

theorem Loaded.two {mem : Contents P} {x : Fetch P} (h : Loaded mem x) {w w' : Word P}
    {older : List (Word P)} (hgot : x.got = w :: w' :: older) :
    x.got.length = older.length + 2 ∧
      w = mem (wordAddr P.maskBits x.desc.addr (older.length + 1)) ∧
      w' = mem (wordAddr P.maskBits x.desc.addr older.length) := by
  have hlen : x.got.length = older.length + 2 := by rw [hgot]; rfl
  rw [Loaded, hlen, hgot] at h
  obtain ⟨hw, hrest⟩ := List.cons.inj h
  exact ⟨hlen, hw, (List.cons.inj hrest).1⟩

theorem Loaded.one {mem : Contents P} {x : Fetch P} (h : Loaded mem x) {w : Word P}
    {older : List (Word P)} (hgot : x.got = w :: older) :
    x.got.length = older.length + 1 ∧
      w = mem (wordAddr P.maskBits x.desc.addr older.length) := by
  have hlen : x.got.length = older.length + 1 := by rw [hgot]; rfl
  rw [Loaded, hlen, hgot] at h
  exact ⟨hlen, (List.cons.inj h).1⟩

namespace Stage
variable (mem : Contents P)

def Loaded : Stage P → Prop
  | idle => True
  | init _ => True
  | fill x _ => DmaRead.Loaded mem x
  | flush x => DmaRead.Loaded mem x
  | final x => DmaRead.Loaded mem x

/-- The entries due for the descriptor under way. -/
def owed : Stage P → List (Event P)
  | idle => []
  | init d => d.events mem
  | fill x offering =>
    x.desc.eventsFrom mem (x.got.length - 1 - if offering then 1 else 0)
  | flush x => x.desc.eventsFrom mem (x.desc.words - 2)
  | final x => x.desc.eventsFrom mem (x.desc.total - 1)

end Stage

section Due
variable {mem : Contents P} {s : Reader P} {x : Fetch P}

/-- The word between the two registers, if it is not the last. -/
theorem view_mid (h : Fetching s x) (hl : Loaded mem x) (hlast : mAxisTlast s.regs = false)
    {older : List (Word P)} (hgot : x.got = s.regs.readReg1 :: s.regs.readReg2 :: older) :
    (mAxis s.regs).view =
      ⟨load mem (x.desc.addr + BitVec.ofNat _ (older.length * P.strbWidth)) P.strbWidth,
        BitVec.allOnes _, false, x.desc.side⟩ := by
  obtain ⟨-, h1, h2⟩ := hl.two hgot
  have hdata : lanes (mAxisTdata s.regs) 0 P.strbWidth =
      load mem (x.desc.addr + BitVec.ofNat _ (older.length * P.strbWidth)) P.strbWidth := by
    rw [mAxisTdata, h.rdOffset, h1, h2]
    exact lanes_window_load P.maskBits_le_addrWidth _ _ (Nat.le_refl _)
  simp [mAxis, Beat.view, mAxisTkeep, hlast, kept_allOnes, hdata, h.latched.sendTdest,
    h.latched.sendTuser, Desc.side]

/-- The last word. -/
theorem view_last (h : Fetching s x) (hl : Loaded mem x) (hfin : Finals s.regs x) :
    (mAxis s.regs).view =
      ⟨load mem (x.desc.addr + BitVec.ofNat _ ((x.desc.total - 1) * P.strbWidth))
        x.desc.lastCount, lowMask _ x.desc.lastCount, true, x.desc.side⟩ := by
  have hlast : mAxisTlast s.regs = true := by simp [mAxisTlast, hfin.dataLeft]
  have hsum := x.desc.words_add_left
  have hdata : lanes (mAxisTdata s.regs) 0 x.desc.lastCount =
      load mem (x.desc.addr + BitVec.ofNat _ ((x.desc.total - 1) * P.strbWidth))
        x.desc.lastCount := by
    rw [mAxisTdata, h.rdOffset]
    rcases hfin.held with ⟨hone, older, hgot⟩ | ⟨htwo, older, hgot⟩
    · obtain ⟨hlen, h1, h2⟩ := hl.two hgot
      have hk : x.desc.total - 1 = older.length := by
        rw [hfin.length] at hlen
        omega
      rw [h1, h2, hk]
      exact lanes_window_load P.maskBits_le_addrWidth _ _ x.desc.lastCount_le
    · obtain ⟨hlen, h2⟩ := hl.one hgot
      have hk : x.desc.total - 1 = older.length := by
        rw [hfin.length] at hlen
        omega
      rw [h2, hk]
      exact lanes_window_older_load P.maskBits_le_addrWidth _ _ _
        (x.desc.offset_add_lastCount_le htwo)
  simp [mAxis, Beat.view, mAxisTkeep, hlast, h.rdFinalTkeep, kept_lowMask _ x.desc.lastCount_le,
    hdata, h.latched.sendTdest, h.latched.sendTuser, Desc.side]

end Due

/-! ## One cycle -/

section Cycle
variable {mem : Contents P} {b : Bench P} {c : Cycle P} {x : Fetch P} {st : Stage P}

/-- A word received is the next one of the memory. -/
theorem memRdData_eq (h : Fetching b.reader x)
    (hr : receives b.reader.regs (b.inputs mem c) = true) :
    (b.env mem c).memRdData = mem (wordAddr P.maskBits x.desc.addr x.got.length) := by
  have hwait := waiting_eq (e := b.env mem c) h
  have hv := (Bool.and_eq_true_iff.mp hr).1
  obtain ⟨hresp, hne⟩ : c.respond = true ∧ b.reader.waiting c.memRdReady ≠ [] := by
    simpa [Bench.inputs, Reader.inputs, Bench.env] using hv
  change b.reader.waiting c.memRdReady = _ at hwait
  simp only [Bench.env, hresp]
  generalize (x.after (asks b.reader.regs (b.reader.inputs (b.env mem c)))
    (b.reader.word (b.env mem c))).asked - x.got.length = n at hwait
  cases n with
  | zero => exact absurd hwait hne
  | succ n =>
    rw [hwait, List.range'_succ]
    rfl

theorem loaded_after (h : Fetching b.reader x) (hl : Loaded mem x) (asks : Bool) :
    Loaded mem (x.after asks (b.reader.word (b.env mem c))) := by
  unfold Reader.word
  split
  · rename_i hr
    have hdata := memRdData_eq h hr
    unfold Loaded Fetch.after
    simp only [Option.toList_some, List.singleton_append, List.length_cons, firstWords]
    rw [hdata, ← hl]
  · exact hl

/-- The words that have come stay those of the memory. -/
theorem loaded_step (h : Matches b.reader st) (hl : st.Loaded mem)
    (taken : Option (Desc P)) (asks : Bool) :
    (st.next taken asks (b.reader.word (b.env mem c)) c.mAxisTready).Loaded mem := by
  cases st with
  | idle => cases taken <;> trivial
  | init d =>
    rw [Stage.next]
    split
    · trivial
    · rfl
  | fill x offering =>
    have hafter := loaded_after (c := c) h.1 hl asks
    unfold Stage.next
    cases hw : b.reader.word (b.env mem c) with
    | none =>
      rw [hw] at hafter
      exact hafter
    | some w =>
      rw [hw] at hafter
      simp only
      split
      · split <;> exact hafter
      · exact hafter
  | flush x =>
    rw [Stage.next]
    split <;> exact hl
  | final x =>
    rw [Stage.next]
    split
    · trivial
    · exact hl

theorem seen_eq (h : Matches b.reader st) : b.seen mem c =
      (if st.offers && c.mAxisTready then [.word (mAxis b.reader.regs).view] else []) ++
        if st.finishes c.mAxisTready then [.sent] else [] := by
  have hv := mAxisTvalid_eq h
  have hs := pktSent_eq (e := b.env mem c) h
  unfold Bench.seen
  have hp : pktSent b.reader.regs (b.inputs mem c) = st.finishes c.mAxisTready := hs
  have hsends : sends b.reader.regs (b.inputs mem c) = (st.offers && c.mAxisTready) := by
    rw [sends, hv]
    rfl
  rw [hp, hsends]

/-- While words come in, the word on the stream is the one that is due. -/
theorem owed_offering (h : Matches b.reader (.fill x true)) (hl : Loaded mem x) :
    (Stage.fill x true).owed mem =
      .word (mAxis b.reader.regs).view :: x.desc.eventsFrom mem (x.got.length - 1) ∧
    2 ≤ x.got.length := by
  have hlast : mAxisTlast b.reader.regs = false := mAxisTlast_eq h
  obtain ⟨hf, hlt, -, hfill⟩ := h
  obtain ⟨older, hgot⟩ := hfill.offered
  have hlen := (hl.two hgot).1
  have hsum := x.desc.words_add_left
  have hone : x.desc.left = 1 ∨ x.desc.left = 2 := x.desc.left_eq
  have hk : x.got.length - 1 - 1 = older.length := by omega
  have hk' : x.got.length - 1 = older.length + 1 := by omega
  refine ⟨?_, by omega⟩
  rw [Stage.owed, if_pos rfl, hk, hk', x.desc.eventsFrom_succ mem (by omega),
    view_mid hf hl hlast hgot]

/-- **A cycle sees the entries that are due**, for the descriptor under way. -/
theorem owed_step (h : Matches b.reader st) (hl : st.Loaded mem)
    (hbusy : st ≠ .idle) (taken : Option (Desc P)) :
    st.owed mem = b.seen mem c ++
      (st.next taken (asks b.reader.regs (b.inputs mem c)) (b.reader.word (b.env mem c))
        c.mAxisTready).owed mem := by
  rw [seen_eq h]
  cases st with
  | idle => exact absurd rfl hbusy
  | init d =>
    by_cases hz : d.len = 0
    · simp [Stage.owed, Stage.next, Stage.offers, Stage.finishes, hz, Desc.events]
    · rw [Stage.next, if_neg hz]
      simp only [Stage.offers, Stage.finishes, decide_eq_false hz, Bool.false_and]
      exact (d.eventsFrom_zero mem hz).symm
  | fill x offering =>
    have hsum := x.desc.words_add_left
    by_cases hr : receives b.reader.regs (b.inputs mem c) = true
    · have hword : b.reader.word (b.env mem c) = some (b.env mem c).memRdData := if_pos hr
      have hready : offering = true → c.mAxisTready = true := by
        intro hoff
        have hb := (Bool.and_eq_true_iff.mp hr).2
        simpa [memRdDataReady, blocked, mAxisTvalid_eq h, Stage.offers, hoff, Bench.inputs,
          Reader.inputs, Bench.env] using hb
      have hlen : ∀ a, (x.after a (some (b.env mem c).memRdData)).got.length =
          x.got.length + 1 := fun a => rfl
      -- after the word the count of words sent is that of the words before it
      have hnext : (Stage.next taken (asks b.reader.regs (b.inputs mem c))
          (some (b.env mem c).memRdData) c.mAxisTready (.fill x offering)).owed mem =
          x.desc.eventsFrom mem (x.got.length - 1) := by
        simp only [Stage.next, hlen]
        split
        · rename_i hfull
          split
          · change x.desc.eventsFrom mem (x.desc.words - 2) = _
            congr 1
            omega
          · rename_i hnot
            change x.desc.eventsFrom mem (x.desc.total - 1) = _
            rcases x.desc.left_eq with hone | htwo
            · congr 1
              omega
            · exact absurd htwo hnot
        · change x.desc.eventsFrom mem
            (x.got.length + 1 - 1 - if (!x.got.isEmpty) = true then 1 else 0) = _
          cases x.got <;> rfl
      rw [hword, hnext]
      cases offering with
      | false => rfl
      | true =>
        rw [(owed_offering h hl).1, hready rfl]
        rfl
    · have hword : b.reader.word (b.env mem c) = none := if_neg hr
      rw [hword]
      cases offering with
      | false => rfl
      | true =>
        cases c.mAxisTready with
        | false => rfl
        | true =>
          rw [(owed_offering h hl).1]
          rfl
  | flush x =>
    obtain ⟨hf, hfl⟩ := h
    have hlast : mAxisTlast b.reader.regs = false := by simp [mAxisTlast, hfl.dataLeft]
    have hsum := x.desc.words_add_left
    rw [hfl.left] at hsum
    simp only [Stage.offers, Stage.finishes, Bool.false_eq_true, if_false, List.append_nil,
      Stage.next]
    by_cases htwo : 2 ≤ x.desc.words
    · cases c.mAxisTready with
      | false => simp [htwo]
      | true =>
        obtain ⟨older, hgot⟩ := hfl.behind htwo
        have hlen := (hl.two hgot).1
        rw [hfl.length] at hlen
        simp only [htwo, decide_true, Bool.and_true, Bool.not_true, Bool.and_false,
          Bool.false_eq_true, if_false, if_true, Stage.owed]
        rw [show x.desc.words - 2 = older.length by omega,
          show x.desc.total - 1 = older.length + 1 by omega,
          x.desc.eventsFrom_succ mem (by omega), view_mid hf hl hlast hgot]
        rfl
    · simp only [htwo, decide_false, Bool.false_and, Bool.false_eq_true, if_false, Stage.owed]
      rw [show x.desc.words - 2 = x.desc.total - 1 by omega]
      rfl
  | final x =>
    obtain ⟨hf, hfin⟩ := h
    cases c.mAxisTready with
    | false => simp [Stage.offers, Stage.finishes, Stage.next]
    | true =>
      simp only [Stage.owed, Stage.offers, Stage.finishes, Stage.next]
      rw [x.desc.eventsFrom_last mem hf.len_ne, view_last hf hl hfin]
      rfl

end Cycle

/-! ## Whole runs -/

section Run
variable {mem : Contents P} {ds : List (Desc P)} {b : Bench P} {c : Cycle P} {st : Stage P}

/-- The bench is among the descriptors `ds` and still has to show `owed`. -/
def OwesEvents (mem : Contents P) (ds : List (Desc P)) (b : Bench P)
    (owed : List (Event P)) : Prop :=
  ∃ st, Matches b.reader st ∧ st.Loaded mem ∧ b.pending <:+ ds ∧
    owed = st.owed mem ++ b.pending.flatMap (Desc.events mem)

/-- A descriptor is taken from those to come. -/
theorem taken_mem {d : Desc P} (h : b.reader.taken (b.env mem c) = some d) :
    ∃ later, b.pending = d :: later := by
  unfold Reader.taken at h
  split at h
  · rename_i ht
    rw [← Option.some.inj h]
    exact bus_of_valid (Bool.and_eq_true_iff.mp ht).2
  · exact absurd h (by simp)

theorem pending_step_suffix : (b.step mem c).pending <:+ b.pending := by
  unfold Bench.step rest
  split
  · exact List.tail_suffix _
  · exact List.suffix_refl _

theorem matches_next (mem : Contents P) (hfits : ∀ d ∈ ds, d.Fits)
    (h : Matches b.reader st) (hsuff : b.pending <:+ ds) (c : Cycle P) :
    Matches (b.step mem c).reader
      (st.next (b.reader.taken (b.env mem c)) (asks b.reader.regs (b.inputs mem c))
        (b.reader.word (b.env mem c)) c.mAxisTready) := by
  refine matches_step h (b.env mem c) fun d hd => ?_
  obtain ⟨later, hp⟩ := taken_mem hd
  exact hfits d (hsuff.subset (by rw [hp]; exact List.mem_cons_self))

theorem owesEvents_step (hfits : ∀ d ∈ ds, d.Fits) {owed : List (Event P)}
    (h : OwesEvents mem ds b owed) :
    ∃ seen owed', (b.step mem c).log = b.log ++ seen ∧ owed = seen ++ owed' ∧
      OwesEvents mem ds (b.step mem c) owed' := by
  obtain ⟨st, hm, hl, hsuff, rfl⟩ := h
  have hm' := matches_next mem hfits hm hsuff c
  have hl' := loaded_step (c := c) hm hl (b.reader.taken (b.env mem c))
    (asks b.reader.regs (b.inputs mem c))
  refine ⟨b.seen mem c, _, rfl, ?_, _, hm', hl', pending_step_suffix.trans hsuff, rfl⟩
  cases st with
  | idle =>
    -- between descriptors nothing is seen, but one may be taken
    have hready : sendDescReady b.reader.regs = true := sendDescReady_eq hm
    have htakes : takesDesc b.reader.regs (b.inputs mem c) =
        (bus b.pending c.offer c.idle).1 := by
      rw [takesDesc, hready, Bool.true_and]
      rfl
    have htaken : b.reader.taken (b.env mem c) =
        if (bus b.pending c.offer c.idle).1 then some (bus b.pending c.offer c.idle).2
        else none := by
      rw [← htakes]
      rfl
    rw [seen_eq hm, htaken]
    simp only [Bench.step, htakes]
    rcases bus_cases b.pending c.offer c.idle with hbus | ⟨d, later, hp, -, hbus⟩
    · rw [hbus]
      rfl
    · rw [hbus, hp]
      rfl
  | _ =>
    rw [owed_step (c := c) hm hl (by simp) (b.reader.taken (b.env mem c)), List.append_assoc]
    have hready : sendDescReady b.reader.regs = false := sendDescReady_eq hm
    simp [Bench.step, takesDesc, hready]

theorem Bench.Start.owesEvents (h : b.Start ds) :
    OwesEvents mem ds b (ds.flatMap (Desc.events mem)) :=
  ⟨.idle, h.reader.matches, trivial, h.pending ▸ List.suffix_refl b.pending,
    by rw [h.pending, Stage.owed, List.nil_append]⟩

/-- Nothing holds the circuit up, and no descriptor is offered. -/
structure Prompt (c : Cycle P) : Prop where
  offer : c.offer = false
  memRdReady : c.memRdReady = true
  respond : c.respond = true
  mAxisTready : c.mAxisTready = true

/-- A bound on the prompt cycles a descriptor still takes. -/
def Stage.work : Stage P → Nat
  | idle => 0
  | init d => d.words + 4
  | fill x _ => x.desc.words - x.got.length + 3
  | flush _ => 2
  | final _ => 1

/-- While words are to come, a prompt cycle brings one. -/
theorem receives_of_prompt (mem : Contents P) {x : Fetch P} (h : Fetching b.reader x)
    (hlt : x.got.length < x.desc.words) (hc : Prompt c) :
    receives b.reader.regs (b.inputs mem c) = true := by
  have hwait : b.reader.waiting c.memRdReady ≠ [] := by
    have hw := waiting_eq (e := b.env mem c) h
    change b.reader.waiting c.memRdReady = _ at hw
    have hen := memRdEn_eq h
    have hasks : asks b.reader.regs (b.reader.inputs (b.env mem c)) =
        decide (x.asked < x.desc.words) := by
      rw [asks, hen]
      change (_ && c.memRdReady) = _
      rw [hc.memRdReady, Bool.and_true]
    have hgot := h.got_le
    rw [hw, hasks]
    intro hnil
    rw [List.map_eq_nil_iff, List.range'_eq_nil_iff] at hnil
    simp only [Fetch.after, decide_eq_true_iff] at hnil
    split at hnil <;> omega
  have hready : memRdDataReady b.reader.regs (b.inputs mem c) = true := by
    simp [memRdDataReady, blocked, Bench.inputs, Reader.inputs, Bench.env, hc.mAxisTready]
  rw [receives, hready, Bool.and_true]
  change (c.respond && !(b.reader.waiting c.memRdReady).isEmpty) = true
  simp [hc.respond, hwait]

theorem work_next (mem : Contents P) (h : Matches b.reader st) (hc : Prompt c) :
    (st.next (b.reader.taken (b.env mem c)) (asks b.reader.regs (b.inputs mem c))
      (b.reader.word (b.env mem c)) c.mAxisTready).work ≤ st.work - 1 := by
  cases st with
  | idle =>
    have hnone : b.reader.taken (b.env mem c) = none := by
      simp [Reader.taken, takesDesc, Reader.inputs, Bench.env, hc.offer]
    rw [hnone]
    exact Nat.le_refl 0
  | init d =>
    rw [Stage.next]
    split
    · exact Nat.zero_le _
    · simp [Stage.work]
  | fill x offering =>
    have hlt := h.2.1
    have hr := receives_of_prompt mem h.1 hlt hc
    have hword : b.reader.word (b.env mem c) = some (b.env mem c).memRdData := if_pos hr
    rw [hword]
    simp only [Stage.next]
    split
    · split
      · simp only [Stage.work]
        omega
      · simp only [Stage.work]
        omega
    · change x.desc.words - (x.got.length + 1) + 3 ≤ _
      simp only [Stage.work]
      omega
  | flush x =>
    rw [Stage.next, hc.mAxisTready]
    simp [Stage.work]
  | final x =>
    rw [Stage.next, hc.mAxisTready]
    exact Nat.le_refl 0

/-- A run of prompt cycles ends idle. -/
theorem idle_of_prompt (hfits : ∀ d ∈ ds, d.Fits) (h : Matches b.reader st)
    (hsuff : b.pending <:+ ds) {cycles : List (Cycle P)} (hprompt : ∀ c ∈ cycles, Prompt c)
    (hlen : st.work ≤ cycles.length) :
    (run (Bench.step mem) b cycles).reader.regs.rdStateR = .idle := by
  induction cycles generalizing b st with
  | nil =>
    cases st with
    | idle => exact h.1
    | _ => exact absurd hlen (by simp [Stage.work])
  | cons c cs ih =>
    have hc := hprompt c List.mem_cons_self
    refine ih (matches_next mem hfits h hsuff c) (pending_step_suffix.trans hsuff)
      (fun c' hc' => hprompt c' (List.mem_cons_of_mem c hc')) ?_
    have hwork := work_next mem h hc
    rw [List.length_cons] at hlen
    omega

theorem idle_matches {s : Reader P} (h : Matches s st)
    (hs : s.regs.rdStateR = .idle) : st = .idle := by
  cases st with
  | idle => rfl
  | init d => exact absurd (hs.symm.trans h.1) (by simp)
  | fill x offering => exact absurd (hs.symm.trans h.1.rdStateR) (by simp)
  | flush x => exact absurd (hs.symm.trans h.1.rdStateR) (by simp)
  | final x => exact absurd (hs.symm.trans h.1.rdStateR) (by simp)

/-- The words of a packet: as many as the length needs, with the bytes described, full
but for the last, which has the mark. -/
theorem Desc.views_spec (mem : Contents P) (d : Desc P) (h : d.len ≠ 0) :
    (d.views mem).length = d.total ∧
      (d.views mem).flatMap View.bytes = load mem d.addr d.len.toNat ∧
      (d.views mem).map View.tkeep =
        List.replicate (d.total - 1) (BitVec.allOnes _) ++ [lowMask _ d.lastCount] ∧
      (d.views mem).map View.tlast = List.replicate (d.total - 1) false ++ [true] := by
  have hpos : 0 < P.strbWidth := Nat.two_pow_pos _
  have hlen := d.len_eq_lastCount h
  have htot := d.total_pos h
  have hle := d.lastCount_le
  have hlast : 0 < d.lastCount := by
    unfold Desc.lastCount
    split
    · exact hpos
    · omega
  have hdiv : (d.len.toNat - 1) / P.strbWidth = d.total - 1 := by
    rw [hlen, Nat.add_sub_assoc hlast, Nat.mul_comm, Nat.mul_add_div hpos,
      Nat.div_eq_of_lt (by omega), Nat.add_zero]
  have hrest : d.len.toNat - (d.total - 1) * P.strbWidth = d.lastCount := by omega
  refine ⟨?_, flatMap_bytes_pack hpos _, ?_, ?_⟩
  · rw [Desc.views, length_pack, length_load, hdiv]
    omega
  · rw [Desc.views, map_tkeep_pack, length_load, hdiv, hrest]
  · rw [Desc.views, map_tlast_pack, length_load, hdiv]

/-- **The described bytes are sent, each descriptor once.**  Whatever the memory holds
and however memory and stream stall, what is seen of a run is the beginning of what the
descriptors call for, in their order; whenever the circuit is idle it is all that the
descriptors taken call for; and once nothing holds the circuit up any more, it becomes
idle. -/
theorem reads_exactly (mem : Contents P) {b₀ : Bench P} (hstart : b₀.Start ds)
    (hfits : ∀ d ∈ ds, d.Fits) (cycles : List (Cycle P)) :
    let b := run (Bench.step mem) b₀ cycles
    b.log <+: ds.flatMap (Desc.events mem) ∧
      (b.reader.regs.rdStateR = .idle →
        ∃ done, ds = done ++ b.pending ∧ b.log = done.flatMap (Desc.events mem)) ∧
      (∃ n, ∀ more : List (Cycle P), (∀ c ∈ more, Prompt c) → n ≤ more.length →
        (run (Bench.step mem) b more).reader.regs.rdStateR = .idle) ∧
      ∀ d : Desc P, d.len ≠ 0 →
        (d.views mem).length = d.total ∧
        (d.views mem).flatMap View.bytes = load mem d.addr d.len.toNat ∧
        (d.views mem).map View.tkeep =
          List.replicate (d.total - 1) (BitVec.allOnes _) ++ [lowMask _ d.lastCount] ∧
        (d.views mem).map View.tlast = List.replicate (d.total - 1) false ++ [true] := by
  intro b
  have hdel : ∃ owed, OwesEvents mem ds b owed ∧
      b.log ++ owed = b₀.log ++ ds.flatMap (Desc.events mem) :=
    run_delivers (fun _ _ _ h _ => owesEvents_step hfits h) hstart.owesEvents
      (meets_true _ _ cycles)
  obtain ⟨owed, ⟨st, hm, hl, ⟨done, hdone⟩, rfl⟩, heq⟩ := hdel
  rw [hstart.log, List.nil_append] at heq
  refine ⟨⟨_, heq⟩, ?_, ⟨st.work, ?_⟩, fun d hd => d.views_spec mem hd⟩
  · intro hs
    have hidle := idle_matches hm hs
    refine ⟨done, hdone.symm, ?_⟩
    rw [hidle, ← hdone, List.flatMap_append] at heq
    exact List.append_cancel_right heq
  · intro more hprompt hlen
    exact idle_of_prompt hfits hm ⟨done, hdone⟩ hprompt hlen

end Run

/-- Words of two bytes in a memory of sixteen. -/
def sampleConfig : Config := ⟨1, 4, 4, 1, 1, Nat.le_add_left 1 3, Nat.le_add_left 1 3⟩

/-- A memory that holds its own addresses. -/
def sampleContents : Contents sampleConfig :=
  fun a => BitVec.ofNat _ ((a.toNat + 1) * 256 + a.toNat)

/-- Nothing, and three bytes from address 3 on. -/
def sampleDescs : List (Desc sampleConfig) := [⟨8, 0, 0, 0⟩, ⟨3, 3, 1, 0⟩]

def sampleBench : Bench sampleConfig := ⟨.reset, sampleDescs, []⟩

theorem sampleBench_start : sampleBench.Start sampleDescs :=
  ⟨Reader.reset_fresh, rfl, rfl⟩

/-- The `k`-th cycle of a run with stalls on both sides. -/
def stalling (k : Nat) : Cycle sampleConfig :=
  ⟨true, ⟨0, 0, 0, 0⟩, k % 3 != 0, k % 2 == 0, 0, k % 4 != 1⟩

theorem reads_exactly_sampleDescs :
    let b := run (Bench.step sampleContents) sampleBench ((List.range 20).map stalling)
    b.log = [.sent, .word ⟨[3, 4], 3, false, ⟨1, 0⟩⟩, .word ⟨[5], 1, true, ⟨1, 0⟩⟩, .sent] ∧
      b.log <+: sampleDescs.flatMap (Desc.events sampleContents) :=
  ⟨by decide +kernel,
    (reads_exactly sampleContents sampleBench_start (by decide)
      ((List.range 20).map stalling)).1⟩

end Rosebud.DmaRead
