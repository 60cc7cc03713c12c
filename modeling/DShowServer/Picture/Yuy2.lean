import Mathlib.Algebra.Group.Nat.Defs
import Mathlib.Data.List.Basic
import Mathlib.Logic.Function.Iterate
import Mathlib.Tactic.Ring

/-!
# YUY2 to I420 (dshowserver-0.22.patch)

MythTV turns the packed pictures of the server into three planes. `yuy2i420`
takes two rows at a time: of the first it keeps the luma and the chroma, of the
second the luma alone. Each plane is written through a pointer that only moves
forward, so that a plane is the list of the bytes stored through it;
`rounds_spec` says what these are after any number of rounds, and `planes_iff`
when they are the picture.
-/

namespace DShow.Yuy2

/-- The bytes stored through `y`, `u` and `v`, the pointer `src` as an offset,
and the offsets that were read. -/
structure Planes where
  y : List UInt8
  u : List UInt8
  v : List UInt8
  src : Nat
  reads : List Nat
deriving DecidableEq

def Planes.start : Planes := ⟨[], [], [], 0, []⟩

section Code

variable (src : Nat → UInt8)

/-- `*(y++) = *src`. -/
def putY (s : Planes) : Planes := { s with y := s.y ++ [src s.src], reads := s.reads ++ [s.src] }

def putU (s : Planes) : Planes := { s with u := s.u ++ [src s.src], reads := s.reads ++ [s.src] }

def putV (s : Planes) : Planes := { s with v := s.v ++ [src s.src], reads := s.reads ++ [s.src] }

/-- `src += n`. -/
def advance (n : Nat) (s : Planes) : Planes := { s with src := s.src + n }

/-- `for(j=0; j < n; j+=2)`, with `n` to go; the outer loop counts its second row
in the body, so that it goes by two as well. -/
def byTwo (body : Planes → Planes) : Nat → Planes → Planes
  | 0, s => s
  | 1, s => body s
  | n + 2, s => byTwo body n (body s)

/-- Two pixels of the first row. -/
def lumaChroma (s : Planes) : Planes :=
  let s := advance 1 (putY src s)
  let s := advance 1 (putU src s)
  let s := advance 1 (putY src s)
  advance 1 (putV src s)

/-- Two pixels of the second. -/
def luma (s : Planes) : Planes :=
  let s := advance 2 (putY src s)
  advance 2 (putY src s)

/-- The body of the outer loop. -/
def twoRows (w : Nat) (s : Planes) : Planes := byTwo (luma src) w (byTwo (lumaChroma src) w s)

def yuy2i420 (w l : Nat) : Planes := byTwo (twoRows src w) l .start

end Code

variable {src : Nat → UInt8}

theorem byTwo_eq (body : Planes → Planes) (n : Nat) (s : Planes) :
    byTwo body n s = body^[(n + 1) / 2] s := by
  induction n, s using byTwo.induct body with
  | case1 s => rfl
  | case2 s => rfl
  | case3 n s ih =>
    rw [byTwo, ih, show (n + 2 + 1) / 2 = (n + 1) / 2 + 1 by omega, Function.iterate_succ_apply]

/-- A first row of `h` pairs of pixels. -/
theorem lumaChroma_iterate (h : Nat) (s : Planes) : (lumaChroma src)^[h] s = {
    y := s.y ++ (List.range (2 * h)).map fun c => src (s.src + 2 * c)
    u := s.u ++ (List.range h).map fun k => src (s.src + 4 * k + 1)
    v := s.v ++ (List.range h).map fun k => src (s.src + 4 * k + 3)
    src := s.src + 4 * h
    reads := s.reads ++ (List.range (4 * h)).map (s.src + ·) } := by
  induction h with
  | zero => simp
  | succ h ih =>
    rw [Function.iterate_succ_apply', ih]
    have hy : 2 * (2 * h) = 4 * h := by omega
    simp only [lumaChroma, putY, putU, putV, advance, Nat.mul_succ, List.range_succ, List.map_append,
      List.map_cons, List.map_nil, List.append_assoc, List.singleton_append, Nat.add_assoc,
      Nat.reduceAdd, hy]

/-- A second row of `h` pairs. -/
theorem luma_iterate (h : Nat) (s : Planes) : (luma src)^[h] s = { s with
    y := s.y ++ (List.range (2 * h)).map fun c => src (s.src + 2 * c)
    src := s.src + 4 * h
    reads := s.reads ++ (List.range (2 * h)).map fun c => s.src + 2 * c } := by
  induction h with
  | zero => simp
  | succ h ih =>
    rw [Function.iterate_succ_apply', ih]
    have hy : 2 * (2 * h) = 4 * h := by omega
    simp only [luma, putY, advance, Nat.mul_succ, List.range_succ, List.map_append, List.map_cons,
      List.map_nil, List.append_assoc, List.singleton_append, Nat.add_assoc, Nat.reduceAdd, hy]

/-- The planes after `m` rounds over rows of `h` pairs of pixels. -/
structure Rounds (src : Nat → UInt8) (h m : Nat) (s : Planes) : Prop where
  src_eq : s.src = 8 * (h * m)
  reads : ∀ a ∈ s.reads, a < 8 * (h * m)
  y_eq : s.y = (List.range (4 * (h * m))).map fun i => src (2 * i)
  u_length : s.u.length = h * m
  u : ∀ r < m, ∀ k < h, s.u[h * r + k]? = some (src (8 * (h * r) + 4 * k + 1))
  v_length : s.v.length = h * m
  v : ∀ r < m, ∀ k < h, s.v[h * r + k]? = some (src (8 * (h * r) + 4 * k + 3))

/-- A row of a chroma plane more. -/
theorem chroma_append {h m : Nat} {plane : List UInt8} {f : Nat → Nat → UInt8}
    (hlen : plane.length = h * m) (hold : ∀ r < m, ∀ k < h, plane[h * r + k]? = some (f r k)) :
    ∀ r < m + 1, ∀ k < h, (plane ++ (List.range h).map (f m))[h * r + k]? = some (f r k) := by
  intro r hr k hk
  rcases Nat.lt_succ_iff_lt_or_eq.mp hr with hr | rfl
  · have hlt : h * r + k < h * m :=
      calc h * r + k < h * r + h := Nat.add_lt_add_left hk _
        _ = h * (r + 1) := (Nat.mul_succ h r).symm
        _ ≤ h * m := Nat.mul_le_mul_left h hr
    rw [List.getElem?_append_left (hlen ▸ hlt), hold r hr k hk]
  · rw [List.getElem?_append_right (by omega), hlen, Nat.add_sub_cancel_left]
    simp [hk]

theorem Rounds.twoRows {h m : Nat} {s : Planes} (hs : Rounds src h m s) :
    Rounds src h (m + 1) (twoRows src (2 * h) s) := by
  have hm : h * (m + 1) = h * m + h := Nat.mul_succ h m
  have e : Yuy2.twoRows src (2 * h) s = _ :=
    (byTwo_eq _ _ _).trans <| (congrArg _ (byTwo_eq _ _ _)).trans <| by
      rw [show (2 * h + 1) / 2 = h by omega, lumaChroma_iterate, luma_iterate]
  rw [e]
  constructor
  · dsimp only
    rw [hs.src_eq, hm]
    omega
  · intro a ha
    simp only [List.mem_append, List.mem_map, List.mem_range, hs.src_eq] at ha
    rw [hm]
    rcases ha with (ha | ⟨i, hi, rfl⟩) | ⟨i, hi, rfl⟩
    · have := hs.reads a ha; omega
    · omega
    · omega
  · dsimp only
    rw [hs.y_eq, hs.src_eq, hm, show 4 * (h * m + h) = 4 * (h * m) + 2 * h + 2 * h by omega,
      List.range_add, List.range_add, List.map_append, List.map_append, List.map_map, List.map_map]
    congr 1
    · congr 1
      exact List.map_congr_left fun c _ => congrArg src (by dsimp only [Function.comp_apply]; omega)
    · exact List.map_congr_left fun c _ => congrArg src (by dsimp only [Function.comp_apply]; omega)
  · simp only [List.length_append, List.length_map, List.length_range, hs.u_length, hm]
  · dsimp only
    rw [hs.src_eq]
    exact chroma_append hs.u_length hs.u
  · simp only [List.length_append, List.length_map, List.length_range, hs.v_length, hm]
  · dsimp only
    rw [hs.src_eq]
    exact chroma_append hs.v_length hs.v

theorem rounds_spec (src : Nat → UInt8) (h m : Nat) :
    Rounds src h m ((twoRows src (2 * h))^[m] .start) := by
  induction m with
  | zero =>
    exact ⟨rfl, fun _ ha => (by cases ha), rfl, rfl, fun _ hr => absurd hr (Nat.not_lt_zero _), rfl,
      fun _ hr => absurd hr (Nat.not_lt_zero _)⟩
  | succ m ih =>
    rw [Function.iterate_succ_apply']
    exact ih.twoRows

/-! ## The picture -/

/-- What the conversion of a picture is: only its bytes are read, the planes have
their sizes, and every sample is where it belongs. -/
structure Converts (src : Nat → UInt8) (w l : Nat) (s : Planes) : Prop where
  reads : ∀ a ∈ s.reads, a < 2 * w * l
  y_length : s.y.length = w * l
  u_length : s.u.length = w / 2 * ((l + 1) / 2)
  v_length : s.v.length = w / 2 * ((l + 1) / 2)
  y : ∀ r < l, ∀ c < w, s.y[r * w + c]? = some (src (2 * (r * w + c)))
  u : ∀ r < l, r % 2 = 0 → ∀ k < w / 2,
    s.u[r / 2 * (w / 2) + k]? = some (src (2 * r * w + 4 * k + 1))
  v : ∀ r < l, r % 2 = 0 → ∀ k < w / 2,
    s.v[r / 2 * (w / 2) + k]? = some (src (2 * r * w + 4 * k + 3))

theorem Rounds.y_length {h m : Nat} {s : Planes} (hs : Rounds src h m s) : s.y.length = 4 * (h * m) := by
  rw [hs.y_eq, List.length_map, List.length_range]

/-- The rounds take as many samples as the rows have, but for an odd row, which
counts twice. -/
theorem rows_iff {h l m : Nat} (hm : (l + 1) / 2 = m) :
    2 * h * l = 4 * (h * m) ↔ l % 2 = 0 ∨ 2 * h = 0 := by
  rw [show 4 * (h * m) = 2 * h * (2 * m) by ring]
  constructor
  · intro heq
    by_contra hodd
    rw [not_or] at hodd
    have := Nat.eq_of_mul_eq_mul_left (Nat.pos_of_ne_zero hodd.2) heq
    omega
  · rintro (heven | hw)
    · congr 1
      omega
    · rw [hw, Nat.zero_mul, Nat.zero_mul]

/-- The rounds convert a picture whose rows they take exactly. -/
theorem Rounds.converts {h l m : Nat} {s : Planes} (hs : Rounds src h m s) (hm : (l + 1) / 2 = m)
    (hrows : 2 * h * l = 4 * (h * m)) : Converts src (2 * h) l s := by
  have hw : 2 * h / 2 = h := Nat.mul_div_cancel_left h Nat.two_pos
  have hround : ∀ r < l, r % 2 = 0 → r / 2 < m ∧ 2 * r * (2 * h) = 8 * (h * (r / 2)) := by
    intro r hr he
    refine ⟨by omega, ?_⟩
    calc 2 * r * (2 * h) = 2 * (2 * (r / 2)) * (2 * h) := by rw [Nat.mul_div_cancel' (by omega)]
      _ = 8 * (h * (r / 2)) := by ring
  constructor
  · intro a ha
    have := hs.reads a ha
    rw [Nat.mul_assoc, hrows]
    omega
  · rw [hs.y_length, hrows]
  · rw [hs.u_length, hw, hm]
  · rw [hs.v_length, hw, hm]
  · intro r hr c hc
    have hlt : r * (2 * h) + c < 4 * (h * m) :=
      calc r * (2 * h) + c < r * (2 * h) + 2 * h := Nat.add_lt_add_left hc _
        _ = 2 * h * (r + 1) := by ring
        _ ≤ 2 * h * l := Nat.mul_le_mul_left _ hr
        _ = 4 * (h * m) := hrows
    rw [hs.y_eq, List.getElem?_map, List.getElem?_range hlt, Option.map_some]
  · intro r hr he k hk
    obtain ⟨hlt, hsrc⟩ := hround r hr he
    rw [hw] at hk ⊢
    rw [hsrc, Nat.mul_comm (r / 2), hs.u _ hlt k hk]
  · intro r hr he k hk
    obtain ⟨hlt, hsrc⟩ := hround r hr he
    rw [hw] at hk ⊢
    rw [hsrc, Nat.mul_comm (r / 2), hs.v _ hlt k hk]

/-- **Converting a picture.** For every even width, a picture is converted
exactly if its height is even or it has no columns; an odd height takes a row
more of the source and of the luma. -/
theorem planes_iff (src : Nat → UInt8) {w : Nat} (hw : w % 2 = 0) (l : Nat) :
    Converts src w l (yuy2i420 src w l) ↔ l % 2 = 0 ∨ w = 0 := by
  obtain ⟨h, rfl⟩ : ∃ h, w = 2 * h := ⟨w / 2, by omega⟩
  have hs : Rounds src h ((l + 1) / 2) (yuy2i420 src (2 * h) l) := by
    rw [yuy2i420, byTwo_eq]
    exact rounds_spec src h _
  rw [← rows_iff rfl]
  exact ⟨fun hc => hc.y_length.symm.trans hs.y_length, hs.converts rfl⟩

/-- Two columns and one row: of the six bytes that are read, two lie behind the picture. -/
theorem not_planes : ¬ Converts (fun i => UInt8.ofNat i) 2 1 (yuy2i420 (fun i => UInt8.ofNat i) 2 1) :=
  fun h => absurd (h.reads 4 (by decide)) (by decide)

/-- Two columns and two rows. -/
theorem planes_iff_two :
    Converts (fun i => UInt8.ofNat i) 2 2 (yuy2i420 (fun i => UInt8.ofNat i) 2 2) :=
  (planes_iff _ (by decide) 2).mpr (.inl (by decide))

end DShow.Yuy2
