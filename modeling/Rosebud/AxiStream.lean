import Rosebud.Lanes

/-! # Packets on a byte stream

A packet crosses a stream interface as a sequence of beats.  Each beat has `W`
byte lanes, a strobe for them, a mark on the last beat, and sideband signals of
any type `σ`.  A well-formed packet fills every beat but the last, and fills the
last one from lane 0 up; `Packet` has exactly these as its values.

What a receiver sees of a beat is its `View`: the kept bytes, the strobe, the last
mark and the sideband, but not the lanes the strobe leaves out.  `pack` lays a
byte string out as the views of one packet: a circuit that changes the length of
a packet is specified by the byte string it should send.  `cut` reads the packets
back off a stream of words with end marks.
-/
namespace AxiStream
open Lanes

/-- One beat of a stream of `W` byte lanes. -/
structure Beat (W : Nat) (σ : Type) where
  tdata : BitVec (8 * W)
  tkeep : BitVec W
  tlast : Bool
  side : σ
deriving DecidableEq, Repr

/-- A well-formed packet: full words, then a last word whose `count` lowest lanes
are kept. -/
structure Packet (W : Nat) (σ : Type) where
  body : List (BitVec (8 * W))
  final : BitVec (8 * W)
  count : Nat
  count_le : count ≤ W
  side : σ

/-- What a receiver reads off one beat. -/
structure View (W : Nat) (σ : Type) where
  bytes : List (BitVec 8)
  tkeep : BitVec W
  tlast : Bool
  side : σ
deriving DecidableEq, Repr

variable {W : Nat} {σ τ : Type}

def Beat.view (b : Beat W σ) : View W σ := ⟨kept b.tdata b.tkeep, b.tkeep, b.tlast, b.side⟩

/-- A full word in the middle of a packet. -/
def midBeat (side : σ) (d : BitVec (8 * W)) : Beat W σ := ⟨d, BitVec.allOnes W, false, side⟩

/-- A last word with `k` bytes. -/
def endBeat (side : σ) (d : BitVec (8 * W)) (k : Nat) : Beat W σ := ⟨d, lowMask W k, true, side⟩

namespace Packet

/-- The beats of a packet, in order. -/
def beats (p : Packet W σ) : List (Beat W σ) :=
  p.body.map (midBeat p.side) ++ [endBeat p.side p.final p.count]

/-- The bytes a packet carries, in order. -/
def bytes (p : Packet W σ) : List (BitVec 8) :=
  p.body.flatMap (fun d => lanes d 0 W) ++ lanes p.final 0 p.count

/-- The first word of a packet, kept bytes or not. -/
def head (p : Packet W σ) : BitVec (8 * W) := p.body.headD p.final

theorem beats_ne_nil (p : Packet W σ) : p.beats ≠ [] := by
  simp [beats]

theorem length_beats (p : Packet W σ) : p.beats.length = p.body.length + 1 := by
  simp [beats]

theorem length_bytes (p : Packet W σ) : p.bytes.length = p.body.length * W + p.count := by
  simp [bytes, List.length_flatMap]

/-! A packet is its first word and the packet of the words after it, or one last
word. -/

section Words
variable {p : Packet W σ} {d : BitVec (8 * W)} {ds : List (BitVec (8 * W))}

theorem beats_cons (h : p.body = d :: ds) :
    p.beats = midBeat p.side d :: ({ p with body := ds } : Packet W σ).beats := by
  simp [beats, h]

theorem bytes_cons (h : p.body = d :: ds) :
    p.bytes = lanes d 0 W ++ ({ p with body := ds } : Packet W σ).bytes := by
  simp [bytes, h]

theorem head_cons (h : p.body = d :: ds) : p.head = d := by
  simp [head, h]

theorem beats_nil (h : p.body = []) : p.beats = [endBeat p.side p.final p.count] := by
  simp [beats, h]

theorem bytes_nil (h : p.body = []) : p.bytes = lanes p.final 0 p.count := by
  simp [bytes, h]

theorem head_nil (h : p.body = []) : p.head = p.final := by
  simp [head, h]

/-- The beat in front of a stream of packets is the first one of its first packet. -/
theorem beats_append_cases {x : Beat W σ} {xs ys : List (Beat W σ)}
    (h : p.beats ++ ys = x :: xs) :
    (∃ d ds, p.body = d :: ds ∧ x = midBeat p.side d ∧
      xs = ({ p with body := ds } : Packet W σ).beats ++ ys) ∨
    (p.body = [] ∧ x = endBeat p.side p.final p.count ∧ xs = ys) := by
  cases hbody : p.body with
  | cons d ds =>
    rw [beats_cons hbody, List.cons_append, List.cons.injEq] at h
    exact .inl ⟨d, ds, rfl, h.1.symm, h.2.symm⟩
  | nil =>
    rw [beats_nil hbody, List.cons_append, List.nil_append, List.cons.injEq] at h
    exact .inr ⟨rfl, h.1.symm, h.2.symm⟩

end Words

/-- How many bytes the first word of a packet carries. -/
def headCount (p : Packet W σ) : Nat := if p.body.isEmpty then p.count else W

theorem headCount_le (p : Packet W σ) : p.headCount ≤ W := by
  unfold headCount
  split
  · exact p.count_le
  · exact Nat.le_refl W

/-- The first beat of a packet. -/
def firstBeat (p : Packet W σ) : Beat W σ :=
  ⟨p.head, lowMask W p.headCount, p.body.isEmpty, p.side⟩

theorem beats_eq_cons (p : Packet W σ) : p.beats = p.firstBeat :: p.beats.tail := by
  cases h : p.body with
  | nil => simp [beats_nil h, firstBeat, headCount, head, h, endBeat]
  | cons d ds => simp [beats_cons h, firstBeat, headCount, head, h, midBeat]

end Packet

/-! ## Laying a byte string out as one packet -/

/-- The byte string `bs` as one packet: `W` bytes in every word but the last, and
what is left, possibly nothing, in the last. -/
def pack (W : Nat) (side : σ) (bs : List (BitVec 8)) : List (View W σ) :=
  let full := (bs.length - 1) / W
  (List.range full).map (fun k => ⟨(bs.drop (k * W)).take W, BitVec.allOnes W, false, side⟩) ++
    [⟨bs.drop (full * W), lowMask W (bs.length - full * W), true, side⟩]

variable {side : σ}

/-- A string that fits one word is one last word. -/
theorem pack_of_le {bs : List (BitVec 8)} (h : bs.length ≤ W) :
    pack W side bs = [⟨bs, lowMask W bs.length, true, side⟩] := by
  have hfull : (bs.length - 1) / W = 0 := by
    rcases Nat.eq_zero_or_pos W with rfl | hW
    · exact Nat.div_zero _
    · exact Nat.div_eq_of_lt (by omega)
  simp [pack, hfull]

/-- A longer string starts with a full word. -/
theorem pack_of_lt {bs : List (BitVec 8)} (hW : 0 < W) (h : W < bs.length) :
    pack W side bs = ⟨bs.take W, BitVec.allOnes W, false, side⟩ :: pack W side (bs.drop W) := by
  have hfull : (bs.length - 1) / W = ((bs.drop W).length - 1) / W + 1 := by
    rw [List.length_drop, show bs.length - 1 = bs.length - W - 1 + W by omega,
      Nat.add_div_right _ hW]
  unfold pack
  simp only [hfull]
  generalize ((bs.drop W).length - 1) / W = n
  have hmul : (n + 1) * W = W + n * W := by rw [Nat.succ_mul, Nat.add_comm]
  rw [List.range_succ_eq_map, List.map_cons, List.map_map, List.cons_append]
  congr 1
  · simp
  · congr 1
    · refine List.map_congr_left fun k _ => ?_
      have hk : (k + 1) * W = W + k * W := by rw [Nat.succ_mul, Nat.add_comm]
      simp [hk, List.drop_drop]
    · simp [hmul, List.drop_drop, Nat.sub_sub]

/-- A full word in front of a packet's bytes, when bytes follow it. -/
theorem pack_append {w bs : List (BitVec 8)} (hW : 0 < W) (hw : w.length = W) (hbs : bs ≠ []) :
    pack W side (w ++ bs) = ⟨w, BitVec.allOnes W, false, side⟩ :: pack W side bs := by
  have hpos : 0 < bs.length := List.length_pos_of_ne_nil hbs
  rw [pack_of_lt hW (by rw [List.length_append]; omega), List.take_left' hw, List.drop_left' hw]

/-- Full words in front of a packet's bytes. -/
theorem pack_flatMap_append (hW : 0 < W) {vs : List (View W σ)}
    {bs : List (BitVec 8)} (hbs : bs ≠ []) (hvs : ∀ v ∈ vs, v.bytes.length = W ∧
      v = ⟨v.bytes, BitVec.allOnes W, false, side⟩) :
    pack W side (vs.flatMap View.bytes ++ bs) = vs ++ pack W side bs := by
  induction vs with
  | nil => rfl
  | cons v vs ih =>
    obtain ⟨hlen, hv⟩ := hvs v List.mem_cons_self
    rw [List.flatMap_cons, List.append_assoc, pack_append hW hlen (by simp [hbs]), ← hv,
      ih fun w hw => hvs w (List.mem_cons_of_mem v hw), List.cons_append]

theorem length_pack (bs : List (BitVec 8)) : (pack W side bs).length = (bs.length - 1) / W + 1 := by
  simp [pack]

/-- The words carry the byte string. -/
theorem flatMap_bytes_pack (hW : 0 < W) (bs : List (BitVec 8)) :
    (pack W side bs).flatMap View.bytes = bs := by
  by_cases h : bs.length ≤ W
  · rw [pack_of_le h, List.flatMap_singleton]
  · rw [pack_of_lt hW (Nat.lt_of_not_le h), List.flatMap_cons, flatMap_bytes_pack hW (bs.drop W)]
    exact List.take_append_drop W bs
termination_by bs.length
decreasing_by
  rw [List.length_drop]
  omega

/-- The last mark is on the last word only. -/
theorem map_tlast_pack (bs : List (BitVec 8)) :
    (pack W side bs).map View.tlast = List.replicate ((bs.length - 1) / W) false ++ [true] := by
  simp [pack, Function.comp_def]

/-- All words but the last are full. -/
theorem map_tkeep_pack (bs : List (BitVec 8)) :
    (pack W side bs).map View.tkeep = List.replicate ((bs.length - 1) / W) (BitVec.allOnes W) ++
      [lowMask W (bs.length - (bs.length - 1) / W * W)] := by
  simp [pack, Function.comp_def]

theorem side_pack (side : σ) (bs : List (BitVec 8)) : ∀ v ∈ pack W side bs, v.side = side := by
  intro v hv
  rcases List.mem_append.mp hv with hv | hv
  · obtain ⟨k, -, rfl⟩ := List.mem_map.mp hv
    rfl
  · rw [List.mem_singleton.mp hv]

/-- The bytes of a packet, laid out as one packet, are its beats. -/
theorem pack_bytes (hW : 0 < W) {p : Packet W σ} (hp : 0 < p.count) :
    pack W p.side p.bytes = p.beats.map Beat.view := by
  obtain ⟨body, final, count, hle, side⟩ := p
  induction body with
  | nil =>
    have hlen : (lanes final 0 count).length = count := length_lanes final 0 count
    rw [Packet.bytes_nil rfl, Packet.beats_nil rfl, pack_of_le (by rw [hlen]; exact hle), hlen]
    simp [endBeat, Beat.view, kept_lowMask final hle]
  | cons d ds ih =>
    have hbytes :
        ({ body := ds, final, count, count_le := hle, side } : Packet W σ).bytes ≠ [] := by
      rw [← List.length_pos_iff, Packet.length_bytes]
      exact Nat.add_pos_right _ hp
    rw [Packet.bytes_cons rfl, Packet.beats_cons rfl, pack_append hW (length_lanes d 0 W) hbytes,
      ih hp]
    simp [midBeat, Beat.view, kept_allOnes]

/-! ## Words that end in a mark -/

section Framed
variable {α : Type} {last : α → Bool} {F : List α}

/-- Words of which the last one, and only it, is marked. -/
def Framed (last : α → Bool) (F : List α) : Prop :=
  ∃ init y, F = init ++ [y] ∧ (∀ x ∈ init, last x = false) ∧ last y = true

theorem framed_pack (side : σ) (bs : List (BitVec 8)) : Framed View.tlast (pack W side bs) := by
  refine ⟨_, _, rfl, ?_, rfl⟩
  intro v hv
  obtain ⟨k, -, rfl⟩ := List.mem_map.mp hv
  rfl

theorem Framed.map {β : Type} {g : α → β} {last' : β → Bool} (h : Framed last F)
    (hg : ∀ x, last' (g x) = last x) : Framed last' (F.map g) := by
  obtain ⟨init, y, rfl, hinit, hy⟩ := h
  refine ⟨init.map g, g y, by simp, ?_, by rw [hg, hy]⟩
  intro x hx
  obtain ⟨z, hz, rfl⟩ := List.mem_map.mp hx
  rw [hg, hinit z hz]

/-- A stream of which no word so far was marked is still inside its first frame: the
next word belongs to it, and ends it if it is marked. -/
theorem Framed.next (hF : Framed last F) {taken l G : List α} {x : α}
    (htaken : ∀ y ∈ taken, last y = false) (h : taken ++ x :: l = F ++ G) :
    ∃ F', F = taken ++ x :: F' ∧ l = F' ++ G ∧ (last x = true ↔ F' = []) := by
  obtain ⟨init, y, rfl, hinit, hy⟩ := hF
  have hnot : ¬ ∃ bs, taken = init ++ [y] ++ bs := by
    rintro ⟨bs, rfl⟩
    have := htaken y (by simp)
    rw [hy] at this
    exact Bool.false_ne_true this.symm
  rcases List.append_eq_append_iff.mp h with ⟨as, has, hrest⟩ | ⟨bs, hbs, -⟩
  · cases as with
    | nil => exact absurd ⟨[], by rw [has, List.append_nil, List.append_nil]⟩ hnot
    | cons z F' =>
      obtain ⟨rfl, hl⟩ := List.cons.inj hrest
      refine ⟨F', has, hl, ?_⟩
      -- an unmarked word is one of `init`, so another one follows it
      rcases List.eq_nil_or_concat F' with rfl | ⟨F'', z, rfl⟩
      · have hxy : x = y := (List.append_inj' has rfl).2 |> List.cons.inj |>.1 |>.symm
        simp [hxy, hy]
      · rw [List.concat_eq_append, ← List.cons_append, ← List.append_assoc] at has
        have hmem : x ∈ init := by rw [(List.append_inj' has rfl).1]; simp
        simp [hinit x hmem]
  · exact absurd ⟨bs, hbs⟩ hnot

/-- The first word is the marked one, or a frame follows it. -/
theorem Framed.of_cons {x : α} {xs : List α} (h : Framed last (x :: xs)) :
    (last x = true ∧ xs = []) ∨ (last x = false ∧ Framed last xs) := by
  obtain ⟨init, y, heq, hinit, hy⟩ := h
  cases init with
  | nil =>
    obtain ⟨rfl, rfl⟩ := List.cons.inj heq
    exact .inl ⟨hy, rfl⟩
  | cons z init =>
    obtain ⟨rfl, rfl⟩ := List.cons.inj heq
    exact .inr ⟨hinit x List.mem_cons_self, init, y, rfl,
      fun w hw => hinit w (List.mem_cons_of_mem _ hw), hy⟩

theorem Framed.cons {x : α} (hx : last x = false) (h : Framed last F) :
    Framed last (x :: F) := by
  obtain ⟨init, y, rfl, hinit, hy⟩ := h
  refine ⟨x :: init, y, rfl, ?_, hy⟩
  intro z hz
  rcases List.mem_cons.mp hz with rfl | hz
  · exact hx
  · exact hinit z hz

/-- What is left of a frame is a frame. -/
theorem Framed.of_suffix {l : List α} (h : Framed last F) (hl : l <:+ F) (hne : l ≠ []) :
    Framed last l := by
  obtain ⟨l', rfl⟩ := hl
  induction l' with
  | nil => exact h
  | cons x l' ih =>
    rcases h.of_cons with ⟨-, hnil⟩ | ⟨-, htail⟩
    · exact absurd (List.append_eq_nil_iff.mp hnil).2 hne
    · exact ih htail

/-- What has been sent of a frame that is not complete has no mark. -/
theorem Framed.unmarked {l l' : List α} (h : Framed last (l ++ l')) (hne : l' ≠ []) :
    ∀ x ∈ l, last x = false := by
  induction l with
  | nil => simp
  | cons y l ih =>
    rcases h.of_cons with ⟨-, hnil⟩ | ⟨hy, htail⟩
    · exact absurd (List.append_eq_nil_iff.mp hnil).2 hne
    · intro x hx
      rcases List.mem_cons.mp hx with rfl | hx
      · exact hy
      · exact ih htail x hx

/-! Reading the frames back off a stream. -/

/-- The complete frames of a stream, and the words after the last mark. -/
def cut (last : α → Bool) : List α → List (List α) × List α
  | [] => ([], [])
  | x :: xs =>
    if last x then ([x] :: (cut last xs).1, (cut last xs).2)
    else match (cut last xs).1 with
      | [] => ([], x :: (cut last xs).2)
      | f :: fs => ((x :: f) :: fs, (cut last xs).2)

theorem cut_of_unmarked {l : List α} (h : ∀ x ∈ l, last x = false) : cut last l = ([], l) := by
  induction l with
  | nil => rfl
  | cons x xs ih =>
    have hx := h x List.mem_cons_self
    have hxs := ih fun y hy => h y (List.mem_cons_of_mem _ hy)
    simp [cut, hx, hxs]

/-- A frame at the front of a stream is the first one cut off. -/
theorem Framed.cut (hF : Framed last F) (l : List α) :
    cut last (F ++ l) = (F :: (cut last l).1, (cut last l).2) := by
  obtain ⟨init, y, rfl, hinit, hy⟩ := hF
  induction init with
  | nil => simp [AxiStream.cut, hy]
  | cons x xs ih =>
    have hx := hinit x List.mem_cons_self
    have hxs := ih fun z hz => hinit z (List.mem_cons_of_mem _ hz)
    simp only [List.append_assoc, List.singleton_append] at hxs
    simp [AxiStream.cut, hx, hxs]

/-- A stream of frames and the beginning of one more is cut where they end. -/
theorem cut_flatten {fs : List (List α)} {l : List α} (hfs : ∀ f ∈ fs, Framed last f)
    (hl : ∀ x ∈ l, last x = false) : cut last (fs.flatten ++ l) = (fs, l) := by
  induction fs with
  | nil => exact cut_of_unmarked hl
  | cons f fs ih =>
    have hrest := ih fun g hg => hfs g (List.mem_cons_of_mem _ hg)
    rw [List.flatten_cons, List.append_assoc, (hfs f List.mem_cons_self).cut, hrest]

/-- The frames and what follows them are the stream. -/
theorem flatten_cut (l : List α) : (cut last l).1.flatten ++ (cut last l).2 = l := by
  induction l with
  | nil => rfl
  | cons x xs ih =>
    unfold cut
    split
    · simp [ih]
    · cases hfs : (cut last xs).1 with
      | nil => simpa [hfs] using ih
      | cons f fs => simpa [hfs] using ih

/-- No word after the last mark is marked. -/
theorem unmarked_cut (l : List α) : ∀ x ∈ (cut last l).2, last x = false := by
  induction l with
  | nil => simp [cut]
  | cons x xs ih =>
    unfold cut
    split
    · exact ih
    · rename_i hx
      cases hfs : (cut last xs).1 with
      | nil =>
        intro y hy
        rcases List.mem_cons.mp hy with rfl | hy
        · exact Bool.eq_false_iff.mpr hx
        · exact ih y hy
      | cons f fs => exact ih

/-- A word is added to those after the last mark, and makes a frame of them if it is marked. -/
theorem cut_append_singleton (l : List α) (x : α) :
    cut last (l ++ [x]) =
      if last x then ((cut last l).1 ++ [(cut last l).2 ++ [x]], [])
      else ((cut last l).1, (cut last l).2 ++ [x]) := by
  induction l with
  | nil => cases hx : last x <;> simp [cut, hx]
  | cons y ys ih =>
    rw [List.cons_append, cut, ih]
    cases hx : last x <;> cases hy : last y <;> cases hfs : (cut last ys).1 <;> simp [cut, hy, hfs]

end Framed

end AxiStream
