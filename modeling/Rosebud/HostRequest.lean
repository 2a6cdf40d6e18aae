import Rosebud.Clocked
import Rosebud.SendConservation

/-! # DRAM requests of the host

The host asks an RPU for a piece of its memory with a frame of four words on
`dram_s_axis`.  `rpu_intercon` collects the words in four registers, with the DRAM port
and tag 0 put into the first one, and pushes them into `recvd_dram_rd_fifo`
(`SendSide.HostRegs`).  Frames of another length are errors: the state machine goes to
its state 4 and drops words until the next `tlast`.

A frame that is too long is dropped that way up to its own `tlast`.  A frame that is too
short reaches state 4 *with* its `tlast`, so that the next frame is dropped in its
place: `short_frame_swallows_next`.  Of short frames in a row every second one is dropped and
does no harm.  If an even number of them comes right before each frame of four words, the
entries pushed are those of the frames of four words: `requests_of_evenShorts`.
-/
namespace Rosebud.HostRequest
open Clocked SendSide

variable {P : Config}

/-- A frame: some words, and the word with `tlast`. -/
structure Frame where
  body : List (BitVec 32)
  last : BitVec 32
deriving DecidableEq

/-- What crosses the stream in a cycle: a word and `tlast`. -/
abbrev Word := BitVec 32 × Bool

namespace Frame

def words (f : Frame) : List Word := f.body.map (·, false) ++ [(f.last, true)]

def length (f : Frame) : Nat := f.words.length

theorem length_eq (f : Frame) : f.length = f.body.length + 1 := by
  simp [length, words]

variable (P) in
/-- The entry a frame of four words should give. -/
def entry (f : Frame) : Option (BitVec 128) :=
  match f.body with
  | [w₀, w₁, w₂] => some (f.last ++ w₂ ++ w₁ ++ HostRegs.firstWord P w₀)
  | _ => none

theorem entry_eq_none {f : Frame} (h : f.length ≠ 4) : f.entry P = none := by
  rw [length_eq] at h
  unfold entry
  split
  · rename_i heq
    simp [heq] at h
  · rfl

end Frame

/-! ## The circuit between the host and the send side -/

structure Bench (P : Config) where
  host : HostRegs
  recvdDramRdFifo : BasicFifo P.dramAw (BitVec 128)
  pending : List Word
  pushed : List (BitVec 128)

/-- One cycle: whether the next word is offered, what the stream carries otherwise, and
whether the send side takes an entry. -/
structure Cycle where
  offer : Bool
  idle : Word
  dramInReady : Bool

namespace Bench
variable (b : Bench P) (c : Cycle)

def dramReqReady : Bool := b.recvdDramRdFifo.dinReady

def tvalid : Bool := (bus b.pending c.offer c.idle).1

def word : Word := (bus b.pending c.offer c.idle).2

def fifoInputs : BasicFifo.Inputs (BitVec 128) where
  rst := false
  clear := false
  dinValid := b.host.dramReqValid
  din := b.host.request
  doutReady := c.dramInReady

def step : Bench P where
  host := b.host.next P (b.tvalid c) (b.word c).1 (b.word c).2 b.dramReqReady
  recvdDramRdFifo := b.recvdDramRdFifo.next (b.fifoInputs c)
  pending := rest b.pending (b.tvalid c && b.dramReqReady)
  pushed :=
    b.pushed ++ if b.recvdDramRdFifo.enque (b.fifoInputs c) then [b.host.request] else []

/-- Out of reset, with the given frames to send; the data registers hold anything. -/
structure Start (b : Bench P) (frames : List Frame) : Prop where
  dramReqValid : b.host.dramReqValid = false
  dramReqState : b.host.dramReqState = 0
  recvdDramRdFifo : b.recvdDramRdFifo.Fresh
  pending : b.pending = frames.flatMap Frame.words
  pushed : b.pushed = []

/-- The entry that is pushed in this cycle. -/
def offered : List (BitVec 128) := if b.host.dramReqValid then [b.host.request] else []

end Bench

/-- The frames of fewer than four words at the end are odd in number. -/
def oddShorts (frames : List Frame) : Bool :=
  frames.foldl (fun odd f => decide (f.length < 4) && !odd) false

theorem oddShorts_snoc (frames : List Frame) (f : Frame) :
    oddShorts (frames ++ [f]) = (decide (f.length < 4) && !oddShorts frames) := by
  simp [oddShorts]

/-- Before a frame of four words comes an even number of shorter ones in a row. -/
def EvenShorts (frames : List Frame) : Prop :=
  ∀ k (hk : k < frames.length), frames[k].length = 4 → oddShorts (frames.take k) = false

instance (frames : List Frame) : Decidable (EvenShorts frames) :=
  inferInstanceAs (Decidable (∀ k (_ : k < frames.length), _ → _))

/-! ## The state of an unfinished frame -/

variable (P) in
/-- The registers after the words `got` of a frame that has not ended. -/
def Holds : List (BitVec 32) → HostRegs → Prop
  | [], h => h.dramReqState = 0
  | [w₀], h => h.dramReqState = 1 ∧ h.dramReq0 = HostRegs.firstWord P w₀
  | [w₀, w₁], h =>
    h.dramReqState = 2 ∧ h.dramReq0 = HostRegs.firstWord P w₀ ∧ h.dramReq1 = w₁
  | [w₀, w₁, w₂], h =>
    h.dramReqState = 3 ∧ h.dramReq0 = HostRegs.firstWord P w₀ ∧ h.dramReq1 = w₁ ∧ h.dramReq2 = w₂
  | _ :: _ :: _ :: _ :: _, h => h.dramReqState = 4

section Words
variable {h : HostRegs} {got : List (BitVec 32)} {w : BitVec 32}

/-- A cycle without a word only drops `dram_req_valid`. -/
theorem next_idle {tvalid ready : Bool} (hidle : (tvalid && ready) = false) (tlast : Bool) :
    h.next P tvalid w tlast ready = { h with dramReqValid := false } := by
  simp [HostRegs.next, hidle]

/-- A word inside a frame takes the state of the words before it to the state of the
words with it. -/
theorem Holds.word (hh : Holds P got h) :
    Holds P (got ++ [w]) (h.next P true w false true) ∧
      (h.next P true w false true).dramReqValid = false := by
  match got, hh with
  | [], hh => simp [HostRegs.next, Holds, show h.dramReqState = 0 from hh]
  | [_], hh => simp [HostRegs.next, Holds, hh.1, hh.2]
  | [_, _], hh => simp [HostRegs.next, Holds, hh.1, hh.2.1, hh.2.2]
  | [_, _, _], hh => simp [HostRegs.next, Holds, hh.1]
  | _ :: _ :: _ :: _ :: _, hh => simp [HostRegs.next, Holds, show h.dramReqState = 4 from hh]

/-- The last word of a frame of four gives its entry. -/
theorem Holds.last_full (hh : Holds P got h) (hfull : got.length = 3) :
    let h' := h.next P true w true true
    h.dramReqState = 3 ∧ h'.dramReqState = 0 ∧ h'.dramReqValid = true ∧
      Frame.entry P ⟨got, w⟩ = some h'.request := by
  match got, hh, hfull with
  | [_, _, _], hh, _ =>
    simp [HostRegs.next, hh.1, hh.2.1, hh.2.2.1, hh.2.2.2, Frame.entry, HostRegs.request]

/-- The last word of a short frame leaves the error state behind. -/
theorem Holds.last_short (hh : Holds P got h) (hshort : got.length < 3) :
    let h' := h.next P true w true true
    h'.dramReqState = 4 ∧ h'.dramReqValid = false := by
  match got, hh, hshort with
  | [], hh, _ => simp [HostRegs.next, show h.dramReqState = 0 from hh]
  | [_], hh, _ => simp [HostRegs.next, hh.1]
  | [_, _], hh, _ => simp [HostRegs.next, hh.1]

/-- In the error state a word changes nothing, and `tlast` ends it. -/
theorem next_error (hs : h.dramReqState = 4) (tlast : Bool) :
    let h' := h.next P true w tlast true
    h'.dramReqState = (if tlast then 0 else 4) ∧ h'.dramReqValid = false := by
  cases tlast <;> simp [HostRegs.next, hs]

theorem Holds.last_long (hh : Holds P got h) (hlong : 3 < got.length) :
    let h' := h.next P true w true true
    h'.dramReqState = 0 ∧ h'.dramReqValid = false := by
  match got, hh, hlong with
  | _ :: _ :: _ :: _ :: _, hh, _ => exact next_error (show h.dramReqState = 4 from hh) true

end Words

/-! ## Runs -/

/-- The frames `done` are over, the words `got` of the next one have been taken, and the
frame in progress is either read properly or, after an odd number of short frames, being
dropped. -/
structure Inv (frames : List Frame) (b : Bench P) (done todo : List Frame)
    (got : List (BitVec 32)) : Prop where
  frames_eq : frames = done ++ todo
  words_eq : todo.flatMap Frame.words = got.map (·, false) ++ b.pending
  pushed_eq : b.pushed ++ b.offered = done.filterMap (Frame.entry P)
  fifo : b.recvdDramRdFifo.Valid
  state : oddShorts done = false ∧ Holds P got b.host ∨
    oddShorts done = true ∧ b.host.dramReqState = 4
  idle : b.host.dramReqValid = true → b.host.dramReqState = 0
  ready : b.host.dramReqValid = true → b.dramReqReady = true

section Step
variable {frames done todo : List Frame} {got : List (BitVec 32)} {b : Bench P} {c : Cycle}

theorem Bench.Start.inv (h : b.Start frames) : Inv frames b [] frames [] where
  frames_eq := rfl
  words_eq := by simp [h.pending]
  pushed_eq := by simp [h.pushed, Bench.offered, h.dramReqValid]
  fifo := h.recvdDramRdFifo.valid
  state := .inl ⟨rfl, h.dramReqState⟩
  idle := by simp [h.dramReqValid]
  ready := by simp [h.dramReqValid]

/-- What is offered is pushed. -/
theorem pushed_step (hready : b.host.dramReqValid = true → b.dramReqReady = true) :
    (b.step c).pushed = b.pushed ++ b.offered := by
  have henque : b.recvdDramRdFifo.enque (b.fifoInputs c) =
      (b.host.dramReqValid && b.dramReqReady) := rfl
  change b.pushed ++ _ = b.pushed ++ _
  rw [henque, Bench.offered]
  cases hv : b.host.dramReqValid with
  | false => simp
  | true => simp [hready hv]

theorem fifo_step (h : b.recvdDramRdFifo.Valid) : (b.step c).recvdDramRdFifo.Valid :=
  h.next P.dramAw_pos (b.fifoInputs c)

/-- If no entry is offered in this cycle, the room there is stays. -/
theorem ready_step (hfifo : b.recvdDramRdFifo.Valid) (hready : b.dramReqReady = true)
    (hv : b.host.dramReqValid = false) : (b.step c).dramReqReady = true := by
  refine BasicFifo.dinReady_next hfifo (i := b.fifoInputs c) rfl hready ?_
  simp [BasicFifo.enque, Bench.fifoInputs, hv]

/-- The word with `tlast` is the last one of the frame the words before it began. -/
theorem last_word {w : BitVec 32} {xs : List Word}
    (h : todo.flatMap Frame.words = got.map (·, false) ++ (w, true) :: xs) :
    ∃ fs, todo = ⟨got, w⟩ :: fs ∧ fs.flatMap Frame.words = xs := by
  cases todo with
  | nil => simp at h
  | cons f fs =>
    have hframed : AxiStream.Framed Prod.snd f.words := ⟨_, _, rfl, by simp, rfl⟩
    obtain ⟨more, hwords, hxs, hend⟩ := hframed.next (by simp) h.symm
    obtain rfl := hend.mp rfl
    obtain ⟨hbody, hlast⟩ := List.append_inj' hwords rfl
    obtain rfl : f.body = got :=
      List.map_injective_iff.mpr (fun _ _ heq => (Prod.mk.inj heq).1) hbody
    obtain rfl : f.last = w := (Prod.mk.inj (List.cons.inj hlast).1).1
    exact ⟨fs, rfl, hxs.symm⟩

/-- A cycle in which no word is taken. -/
theorem Inv.step_idle (h : Inv frames b done todo got)
    (hidle : (b.tvalid c && b.dramReqReady) = false) : Inv frames (b.step c) done todo got := by
  have hhost : (b.step c).host = { b.host with dramReqValid := false } := next_idle hidle _
  have hpending : (b.step c).pending = b.pending := by simp [Bench.step, hidle]
  constructor
  case frames_eq => exact h.frames_eq
  case words_eq => rw [hpending]; exact h.words_eq
  case pushed_eq =>
    rw [pushed_step h.ready, h.pushed_eq]
    simp [Bench.offered, hhost]
  case fifo => exact fifo_step h.fifo
  case state =>
    rcases h.state with ⟨heven, hh⟩ | ⟨hodd, hs⟩
    · refine .inl ⟨heven, ?_⟩
      rw [hhost]
      match got, hh with
      | [], hh | [_], hh | [_, _], hh | [_, _, _], hh | _ :: _ :: _ :: _ :: _, hh => exact hh
    · exact .inr ⟨hodd, by rw [hhost]; exact hs⟩
  case idle => simp [hhost]
  case ready => simp [hhost]

/-- A word inside a frame. -/
theorem Inv.step_word (h : Inv frames b done todo got) {w : BitVec 32} {xs : List Word}
    (hp : b.pending = (w, false) :: xs)
    (hhost : (b.step c).host = b.host.next P true w false true)
    (hpending : (b.step c).pending = xs) : Inv frames (b.step c) done todo (got ++ [w]) := by
  have hvalid : (b.step c).host.dramReqValid = false := by
    rw [hhost]
    rcases h.state with ⟨-, hh⟩ | ⟨-, hs⟩
    · exact hh.word.2
    · exact (next_error hs false).2
  constructor
  case frames_eq => exact h.frames_eq
  case words_eq =>
    rw [h.words_eq, hp, hpending]
    simp
  case pushed_eq =>
    rw [pushed_step h.ready, h.pushed_eq]
    simp [Bench.offered, hvalid]
  case fifo => exact fifo_step h.fifo
  case state =>
    rcases h.state with ⟨heven, hh⟩ | ⟨hodd, hs⟩
    · exact .inl ⟨heven, hhost ▸ hh.word.1⟩
    · exact .inr ⟨hodd, hhost ▸ (next_error hs false).1⟩
  case idle => simp [hvalid]
  case ready => simp [hvalid]

section Last
variable {fs : List Frame} {w : BitVec 32} (h : Inv frames b done (⟨got, w⟩ :: fs) got)
  (hfs : fs.flatMap Frame.words = (b.step c).pending)
include h hfs

/-- A frame is over, and what is offered then is its entry. -/
theorem Inv.close (hoffer : (b.step c).offered = (Frame.entry P ⟨got, w⟩).toList)
    (hstate : oddShorts (done ++ [⟨got, w⟩]) = false ∧ (b.step c).host.dramReqState = 0 ∨
      oddShorts (done ++ [⟨got, w⟩]) = true ∧ (b.step c).host.dramReqState = 4)
    (hvalid : (b.step c).host.dramReqValid = true →
      (b.step c).host.dramReqState = 0 ∧ (b.step c).dramReqReady = true) :
    Inv frames (b.step c) (done ++ [⟨got, w⟩]) fs [] where
  frames_eq := by rw [h.frames_eq]; simp
  words_eq := hfs
  pushed_eq := by
    rw [pushed_step h.ready, h.pushed_eq, hoffer, List.filterMap_append]
    cases he : Frame.entry P ⟨got, w⟩ <;> simp [he]
  fifo := fifo_step h.fifo
  state := hstate
  idle hv := (hvalid hv).1
  ready hv := (hvalid hv).2

/-- A frame that is too short or too long is over. -/
theorem Inv.close_quiet (hv : (b.step c).host.dramReqValid = false) (hne : got.length ≠ 3)
    (hstate : oddShorts (done ++ [⟨got, w⟩]) = false ∧ (b.step c).host.dramReqState = 0 ∨
      oddShorts (done ++ [⟨got, w⟩]) = true ∧ (b.step c).host.dramReqState = 4) :
    Inv frames (b.step c) (done ++ [⟨got, w⟩]) fs [] := by
  have hnone : Frame.entry P ⟨got, w⟩ = none := by
    refine Frame.entry_eq_none ?_
    rw [Frame.length_eq]
    simpa using hne
  exact h.close hfs (by simp [Bench.offered, hv, hnone]) hstate (by simp [hv])

/-- A frame that was read properly is over. -/
theorem Inv.close_read (hodd : oddShorts done = false) (hh : Holds P got b.host)
    (hready : b.dramReqReady = true) (hhost : (b.step c).host = b.host.next P true w true true) :
    Inv frames (b.step c) (done ++ [⟨got, w⟩]) fs [] := by
  have hparity := oddShorts_snoc done ⟨got, w⟩
  have hlength : Frame.length ⟨got, w⟩ = got.length + 1 := Frame.length_eq _
  rcases Nat.lt_trichotomy got.length 3 with hshort | hfull | hlong
  · -- too short: the error state stays behind for the next frame
    obtain ⟨hs, hv⟩ := hh.last_short (w := w) hshort
    rw [← hhost] at hs hv
    rw [hodd, hlength, decide_eq_true (Nat.succ_lt_succ hshort)] at hparity
    exact h.close_quiet hfs hv (Nat.ne_of_lt hshort) (.inr ⟨hparity, hs⟩)
  · obtain ⟨hthree, hs, hv, hentry⟩ := hh.last_full (w := w) hfull
    rw [← hhost] at hs hv hentry
    -- nothing is offered in the cycle of the fourth word, so the room it needs stays
    have hnot : b.host.dramReqValid = false := by
      by_contra hvalid
      have hzero := h.idle (Bool.not_eq_false _ ▸ hvalid)
      rw [hthree] at hzero
      exact absurd hzero (by decide)
    rw [hlength, hfull] at hparity
    exact h.close hfs (by simp [Bench.offered, hv, hentry]) (.inl ⟨hparity, hs⟩)
      fun _ => ⟨hs, ready_step h.fifo hready hnot⟩
  · obtain ⟨hs, hv⟩ := hh.last_long (w := w) hlong
    rw [← hhost] at hs hv
    rw [hlength, decide_eq_false (by omega)] at hparity
    exact h.close_quiet hfs hv (Nat.ne_of_gt hlong) (.inl ⟨hparity, hs⟩)

/-- A frame that was dropped is over; it is not one of four words. -/
theorem Inv.close_dropped (heven : EvenShorts frames) (hodd : oddShorts done = true)
    (hs : b.host.dramReqState = 4) (hhost : (b.step c).host = b.host.next P true w true true) :
    Inv frames (b.step c) (done ++ [⟨got, w⟩]) fs [] := by
  obtain ⟨hs', hv⟩ := next_error (P := P) (w := w) hs true
  rw [← hhost] at hs' hv
  have hparity := oddShorts_snoc done ⟨got, w⟩
  rw [hodd, Bool.not_true, Bool.and_false] at hparity
  refine h.close_quiet hfs hv (fun hthree => ?_) (.inl ⟨hparity, hs'⟩)
  have hfour := heven done.length (by simp [h.frames_eq])
  simp [h.frames_eq, Frame.length_eq, hthree, hodd] at hfour

end Last

/-- The last word of a frame. -/
theorem Inv.step_last (h : Inv frames b done todo got) (heven : EvenShorts frames)
    {w : BitVec 32} {xs : List Word} (hp : b.pending = (w, true) :: xs)
    (hready : b.dramReqReady = true)
    (hhost : (b.step c).host = b.host.next P true w true true)
    (hpending : (b.step c).pending = xs) :
    ∃ fs, Inv frames (b.step c) (done ++ [⟨got, w⟩]) fs [] := by
  have hwords := h.words_eq
  rw [hp] at hwords
  obtain ⟨fs, rfl, hfs⟩ := last_word hwords
  rw [← hpending] at hfs
  rcases h.state with ⟨hodd, hh⟩ | ⟨hodd, hs⟩
  · exact ⟨fs, h.close_read hfs hodd hh hready hhost⟩
  · exact ⟨fs, h.close_dropped hfs heven hodd hs hhost⟩

/-- **One cycle.** -/
theorem Inv.step (h : Inv frames b done todo got) (heven : EvenShorts frames) (c : Cycle) :
    ∃ done' todo' got', Inv frames (b.step c) done' todo' got' := by
  by_cases hidle : (b.tvalid c && b.dramReqReady) = false
  · exact ⟨done, todo, got, h.step_idle hidle⟩
  rw [Bool.not_eq_false, Bool.and_eq_true] at hidle
  obtain ⟨htv, hready⟩ := hidle
  obtain ⟨xs, hp⟩ := bus_of_valid htv
  obtain ⟨⟨w, tlast⟩, hword⟩ : ∃ x, b.word c = x := ⟨_, rfl⟩
  rw [← Bench.word, hword] at hp
  have hhost : (b.step c).host = b.host.next P true w tlast true := by
    simp [Bench.step, htv, hword, hready]
  have hpending : (b.step c).pending = xs := by
    simp [Bench.step, htv, hready, hp]
  cases tlast with
  | false => exact ⟨done, todo, got ++ [w], h.step_word hp hhost hpending⟩
  | true =>
    obtain ⟨fs, hinv⟩ := h.step_last heven hp hready hhost hpending
    exact ⟨done ++ [⟨got, w⟩], fs, [], hinv⟩

end Step

/-- **With an even number of short frames before each frame of four words, the entries pushed
are those of the frames of four words.**  Whatever the frames and the offers and whenever entries
are taken out of `recvd_dram_rd_fifo`, at every point of a run from reset the entries
pushed, with the one that is pushed in this cycle, are the entries of the frames `done`
whose last word has been taken, in order and once each; `got` are the words taken of the
frame after them.  An entry is only offered to `recvd_dram_rd_fifo` when it is ready. -/
theorem requests_of_evenShorts {b₀ : Bench P} {frames : List Frame}
    (hstart : b₀.Start frames) (heven : EvenShorts frames) (cycles : List Cycle) :
    let b := run Bench.step b₀ cycles
    (∃ (done todo : List Frame) (got : List (BitVec 32)), frames = done ++ todo ∧
      todo.flatMap Frame.words = got.map (·, false) ++ b.pending ∧
      b.pushed ++ b.offered = done.filterMap (Frame.entry P)) ∧
    (b.host.dramReqValid = true → b.dramReqReady = true) := by
  intro b
  have hinv : ∃ done todo got, Inv frames b done todo got :=
    run_preserves (P := fun b => ∃ done todo got, Inv frames b done todo got)
      (fun _ c ⟨_, _, _, h⟩ => h.step heven c) ⟨_, _, _, hstart.inv⟩ cycles
  obtain ⟨done, todo, got, h⟩ := hinv
  exact ⟨⟨done, todo, got, h.frames_eq, h.words_eq, h.pushed_eq⟩, h.ready⟩

/-! ## A short frame -/

def sampleBench (frames : List Frame) : Bench sampleConfig where
  host := default
  recvdDramRdFifo := default
  pending := frames.flatMap Frame.words
  pushed := []

theorem sampleBench_start (frames : List Frame) : (sampleBench frames).Start frames :=
  ⟨rfl, rfl, .default, rfl, rfl⟩

/-- A read of 64 bytes at address 0x1000 of the core, to address 0x8000 of the host. -/
def readFrame : Frame := ⟨[0xAB050040, 0x1000, 0x8000], 0⟩

/-- Cycles in which the next word is offered. -/
def offering (n : Nat) : List Cycle := List.replicate n ⟨true, (0, false), false⟩

/-- A frame of five words, two short ones and one of four. -/
def longAndShort : List Frame := [⟨[1, 2, 3, 4], 5⟩, ⟨[], 6⟩, ⟨[7], 8⟩, readFrame]

/-- The frame of four words is pushed. -/
theorem requests_of_evenShorts_longAndShort :
    let b := run Bench.step (sampleBench longAndShort) (offering 14)
    EvenShorts longAndShort ∧ b.pushed = [0x000000000000800000001000_06000040] ∧
      ∃ (done todo : List Frame) (got : List (BitVec 32)), longAndShort = done ++ todo ∧
        todo.flatMap Frame.words = got.map (·, false) ++ b.pending ∧
        b.pushed ++ b.offered = done.filterMap (Frame.entry sampleConfig) :=
  ⟨by decide, by decide +kernel,
    (requests_of_evenShorts (sampleBench_start _) (by decide) (offering 14)).1⟩

/-- **A frame of one word swallows the frame after it.** -/
theorem short_frame_swallows_next :
    let b := run Bench.step (sampleBench [⟨[], 1⟩, readFrame]) (offering 11)
    (sampleBench [⟨[], 1⟩, readFrame]).Start [⟨[], 1⟩, readFrame] ∧
      b.pending = [] ∧ b.pushed ++ b.offered = [] ∧
      [⟨[], 1⟩, readFrame].filterMap (Frame.entry sampleConfig) ≠ [] :=
  ⟨sampleBench_start _, by decide +kernel⟩

end Rosebud.HostRequest
