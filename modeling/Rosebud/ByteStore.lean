import Mathlib.Data.List.Range
import Rosebud.AxiStream

/-! # Byte strings in a memory of words

A memory of words of `W` byte lanes is written one word at a time, with a strobe for
the lanes.  A byte string that starts anywhere in a word is therefore written in
pieces: the words of the stream it comes in are shifted against the words of the
memory, and each write joins the end of one with the beginning of the next.

* `place` puts a byte string at an address, `keptAt` is what one write stores, and
  `keptAt_interval` relates the two when the strobe is one run of lanes;
* `window` is the shifted word between two others, for data and for strobes, and
  `keptAt_window_first`, `keptAt_window_mid` and `keptAt_window_last` say what it
  stores at the beginning, in the middle and at the end of a string;
* `storesFrom` lists the writes of one packet, and `flatMap_storesFrom` says that
  together they place its bytes.
-/
namespace ByteStore
open Lanes AxiStream

variable {A W : Nat}

/-! ## Bytes at addresses -/

/-- The bytes of a string at consecutive addresses. -/
def place (start : BitVec A) (bytes : List (BitVec 8)) : List (BitVec A × BitVec 8) :=
  bytes.mapIdx fun i x => (start + BitVec.ofNat A i, x)

theorem place_append (start : BitVec A) (xs ys : List (BitVec 8)) :
    place start (xs ++ ys) = place start xs ++ place (start + BitVec.ofNat A xs.length) ys := by
  unfold place
  rw [List.mapIdx_append]
  congr 2
  funext i x
  rw [Nat.add_comm, BitVec.ofNat_add, BitVec.add_assoc]

@[simp] theorem length_place (start : BitVec A) (bytes : List (BitVec 8)) :
    (place start bytes).length = bytes.length := by
  simp [place]

/-- What the write of a word stores: the lanes its strobe selects, in order. -/
def keptAt {n : Nat} (addr : BitVec A) (data : BitVec n) (strb : BitVec W) :
    List (BitVec A × BitVec 8) :=
  ((List.range W).filter fun i => strb.getLsbD i).map
    fun i => (addr + BitVec.ofNat A i, lane data i)

/-- The lanes of a strobe that is one run of ones. -/
theorem filter_range_interval {a b : Nat} (hab : a ≤ b) (hb : b ≤ W) {p : Nat → Bool}
    (h : ∀ i, i < W → p i = decide (a ≤ i ∧ i < b)) :
    (List.range W).filter p = (List.range (b - a)).map (a + ·) := by
  obtain ⟨k, rfl⟩ := Nat.exists_eq_add_of_le hab
  obtain ⟨d, rfl⟩ := Nat.exists_eq_add_of_le hb
  rw [List.range_add, List.range_add, List.filter_append, List.filter_append,
    Nat.add_sub_cancel_left]
  have hlow : (List.range a).filter p = [] := by
    rw [List.filter_eq_nil_iff]
    intro i hi
    have hia := List.mem_range.mp hi
    rw [h i (by omega)]
    simpa using fun hge => absurd hge (Nat.not_le.mpr hia)
  have hmid : ((List.range k).map (a + ·)).filter p = (List.range k).map (a + ·) := by
    rw [List.filter_eq_self]
    intro i hi
    obtain ⟨j, hj, rfl⟩ := List.mem_map.mp hi
    have hjk := List.mem_range.mp hj
    rw [h _ (by omega)]
    simpa using hjk
  have hhigh : ((List.range d).map (a + k + ·)).filter p = [] := by
    rw [List.filter_eq_nil_iff]
    intro i hi
    obtain ⟨j, hj, rfl⟩ := List.mem_map.mp hi
    have hjd := List.mem_range.mp hj
    rw [h _ (by omega)]
    simp
  rw [hlow, hmid, hhigh, List.nil_append, List.append_nil]

theorem keptAt_interval {n a b : Nat} (addr : BitVec A) (data : BitVec n) {strb : BitVec W}
    (hab : a ≤ b) (hb : b ≤ W) (h : ∀ i, i < W → strb.getLsbD i = decide (a ≤ i ∧ i < b)) :
    keptAt addr data strb = place (addr + BitVec.ofNat A a) (lanes data a (b - a)) := by
  rw [keptAt, filter_range_interval hab hb h, place, lanes]
  refine List.ext_getElem (by simp) fun i hi _ => ?_
  simp [BitVec.ofNat_add, BitVec.add_assoc]

/-! ## The word between two words -/

/-- The word `off` lanes into the concatenation of two, the older one below. -/
def window (newer older : BitVec (8 * W)) (off : Nat) : BitVec (8 * W) :=
  ((newer ++ older) >>> (8 * off)).setWidth (8 * W)

/-- The same for strobes. -/
def strbWindow (newer older : BitVec W) (off : Nat) : BitVec W :=
  ((newer ++ older) >>> off).setWidth W

section Window
variable {newer older : BitVec (8 * W)} {off : Nat}

theorem lanes_window_older {j k : Nat} (hoff : off + (j + k) ≤ W) :
    lanes (window newer older off) j k = lanes older (off + j) k := by
  refine lanes_congr fun l hl => ?_
  rw [window, lane_setWidth _ (by omega), lane_ushiftRight, lane_append_low _ _ (by omega),
    Nat.add_assoc]

theorem lanes_window_newer {k : Nat} (hoff : off ≤ W) (hk : k ≤ off) :
    lanes (window newer older off) (W - off) k = lanes newer 0 k := by
  refine lanes_congr fun l hl => ?_
  rw [window, lane_setWidth _ (by omega), lane_ushiftRight, lane_append_high _ _ (by omega)]
  congr 1
  omega

theorem lanes_window (hoff : off ≤ W) {k : Nat} (hk : k ≤ off) :
    lanes (window newer older off) 0 (W - off + k) =
      lanes older off (W - off) ++ lanes newer 0 k := by
  rw [lanes_add, lanes_window_older (by omega), Nat.zero_add, lanes_window_newer hoff hk,
    Nat.add_zero]

theorem getLsbD_strbWindow {snewer solder : BitVec W} {i : Nat} (hi : i < W) :
    (strbWindow snewer solder off).getLsbD i =
      if off + i < W then solder.getLsbD (off + i) else snewer.getLsbD (off + i - W) := by
  rw [strbWindow, BitVec.getLsbD_setWidth, BitVec.getLsbD_ushiftRight, BitVec.getLsbD_append]
  simp [hi]

/-- The first write of a string: `W - off` lanes are skipped. -/
theorem keptAt_window_first (addr : BitVec A) (hoff : off ≤ W) {count : Nat} :
    keptAt addr (window newer older off) (strbWindow (lowMask W count) 0 off) =
      place (addr + BitVec.ofNat A (W - off)) (lanes newer 0 (min count off)) := by
  rw [keptAt_interval (a := W - off) (b := W - off + min count off) addr _ (by omega) (by omega)]
  · rw [Nat.add_sub_cancel_left, lanes_window_newer hoff (by omega)]
  · intro i hi
    rw [getLsbD_strbWindow hi]
    split
    · simp
      omega
    · rw [getLsbD_lowMask, ← Bool.decide_and]
      exact decide_eq_decide.mpr (by omega)

/-- A write in the middle: the end of the older word, then the newer one as far as it
goes. -/
theorem keptAt_window_mid (addr : BitVec A) (hoff : off ≤ W) {count : Nat} :
    keptAt addr (window newer older off) (strbWindow (lowMask W count) (BitVec.allOnes W) off) =
      place addr (lanes older off (W - off) ++ lanes newer 0 (min count off)) := by
  rw [keptAt_interval (a := 0) (b := W - off + min count off) addr _ (by omega) (by omega)]
  · rw [Nat.sub_zero, lanes_window hoff (by omega)]
    congr 1
    exact BitVec.add_zero addr
  · intro i hi
    rw [getLsbD_strbWindow hi]
    split
    · rw [BitVec.getLsbD_allOnes]
      exact decide_eq_decide.mpr (by omega)
    · rw [getLsbD_lowMask, ← Bool.decide_and]
      exact decide_eq_decide.mpr (by omega)

/-- The write after the last word: what is left of it. -/
theorem keptAt_window_last (addr : BitVec A) {count : Nat} (hcount : off ≤ count)
    (hle : count ≤ W) :
    keptAt addr (window newer older off) (strbWindow 0 (lowMask W count) off) =
      place addr (lanes older off (count - off)) := by
  rw [keptAt_interval (a := 0) (b := count - off) addr _ (by omega) (by omega)]
  · rw [Nat.sub_zero, lanes_window_older (by omega)]
    congr 1
    exact BitVec.add_zero addr
  · intro i hi
    rw [getLsbD_strbWindow hi]
    split
    · rw [getLsbD_lowMask, ← Bool.decide_and]
      exact decide_eq_decide.mpr (by omega)
    · simp
      omega

end Window

/-! ## The writes of a packet -/

/-- One write: what it stores, and whether it is the last one of its packet. -/
structure Store (A : Nat) where
  bytes : List (BitVec A × BitVec 8)
  last : Bool
deriving DecidableEq

/-- The writes of the words `body` and the first `count` bytes of `final`, of which
`room` lanes each still fit the word under way; `carry` is what is left over from the
word before, and `start` the address it belongs to. -/
def storesFrom (room : Nat) (final : BitVec (8 * W)) (count : Nat) :
    List (BitVec (8 * W)) → BitVec A → List (BitVec 8) → List (Store A)
  | [], start, carry =>
    if count ≤ room then [⟨place start (carry ++ lanes final 0 count), true⟩]
    else
      [⟨place start (carry ++ lanes final 0 room), false⟩,
        ⟨place (start + BitVec.ofNat A (carry.length + room))
          (lanes final room (count - room)), true⟩]
  | w :: body, start, carry =>
    ⟨place start (carry ++ lanes w 0 room), false⟩ ::
      storesFrom room final count body (start + BitVec.ofNat A (carry.length + room))
        (lanes w room (W - room))

section Stores
variable {room count : Nat} {final : BitVec (8 * W)}

/-- **The writes of a packet place its bytes, in order and once each.** -/
theorem flatMap_storesFrom (hroom : room ≤ W) (body : List (BitVec (8 * W))) (start : BitVec A)
    (carry : List (BitVec 8)) :
    (storesFrom room final count body start carry).flatMap Store.bytes =
      place start (carry ++ (body.flatMap (fun d => lanes d 0 W) ++ lanes final 0 count)) := by
  induction body generalizing start carry with
  | nil =>
    unfold storesFrom
    split
    · simp
    · rename_i hlt
      have hsplit := lanes_split final (Nat.le_of_lt (Nat.lt_of_not_le hlt))
      rw [List.flatMap_cons, List.flatMap_cons, List.flatMap_nil, List.append_nil,
        List.flatMap_nil, List.nil_append, hsplit, ← List.append_assoc,
        place_append _ (carry ++ lanes final 0 room), List.length_append, length_lanes]
  | cons w body ih =>
    rw [storesFrom, List.flatMap_cons, ih, List.flatMap_cons, lanes_split w hroom]
    simp only [List.append_assoc]
    rw [← List.append_assoc carry, place_append _ (carry ++ lanes w 0 room), List.length_append,
      length_lanes]

/-- Only the last write of a packet is marked as such. -/
theorem map_last_storesFrom (body : List (BitVec (8 * W))) (start : BitVec A)
    (carry : List (BitVec 8)) :
    ∃ n, (storesFrom room final count body start carry).map Store.last =
      List.replicate n false ++ [true] := by
  induction body generalizing start carry with
  | nil =>
    unfold storesFrom
    split
    · exact ⟨0, rfl⟩
    · exact ⟨1, rfl⟩
  | cons w body ih =>
    obtain ⟨n, hn⟩ := ih (start + BitVec.ofNat A (carry.length + room)) (lanes w room (W - room))
    refine ⟨n + 1, ?_⟩
    rw [storesFrom, List.map_cons, hn, List.replicate_succ, List.cons_append]

/-- A packet takes a write for each word, and one more if its end runs over. -/
theorem length_storesFrom_le (body : List (BitVec (8 * W))) (start : BitVec A)
    (carry : List (BitVec 8)) :
    (storesFrom room final count body start carry).length ≤ body.length + 2 := by
  induction body generalizing start carry with
  | nil =>
    unfold storesFrom
    split <;> simp
  | cons w body ih =>
    rw [storesFrom, List.length_cons, List.length_cons]
    have := ih (start + BitVec.ofNat A (carry.length + room)) (lanes w room (W - room))
    omega

end Stores

end ByteStore
