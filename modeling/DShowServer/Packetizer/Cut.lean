import DShowServer.Framework.Split
import DShowServer.Packetizer.Loop

/-!
# Cutting the stream into chunks

A chunk shows the frame boundaries whose start codes a call on all of it finds.
The calls on a chunk, until it is consumed, cut off the buffer at these
(`feed_spec`). So what becomes of a stream that fits into the buffer depends on
how it is cut into chunks exactly as far as the boundaries do that the chunks
show (`same_frames_iff`).
-/

namespace DShow.Packetizer

open Split

/-- A chunk of the stream, and what lies in memory behind it. -/
structure Chunk where
  bytes : List UInt8
  after : Nat → UInt8

def Chunk.mem (c : Chunk) : Memory := .total (Memory.chunk c.bytes c.after)

/-- The chunk shows a frame boundary at a position. -/
def Chunk.Shows (c : Chunk) (q : Nat) : Prop :=
  Visible c.mem 0 c.bytes.length q ∧ Boundary c.mem c.bytes.length q

/-- The calls on a chunk from `len` on, at most so many: the frames that they return,
and the parser behind them. -/
def feedLoop (c : Chunk) : Nat → NalParser → Nat → Option (List (List UInt8) × NalParser)
  | 0, _, _ => none
  | fuel + 1, p, len =>
    if len < c.bytes.length then
      ((parseFrame p len (c.bytes.length - len)).run c.mem).bind fun res =>
        (feedLoop c fuel res.parser (len + res.parsed_len)).map fun r => (res.ret_buf.toList ++ r.1, r.2)
    else some ([], p)

/-- The calls on a chunk until it is consumed. -/
def feed (p : NalParser) (c : Chunk) : Option (List (List UInt8) × NalParser) :=
  feedLoop c (2 * c.bytes.length + 2) p 0

/-- The calls on one chunk after another. -/
def feedAll : NalParser → List Chunk → Option (List (List UInt8) × NalParser)
  | p, [] => some ([], p)
  | p, c :: cs => (feed p c).bind fun r => (feedAll r.2 cs).map fun rs => (r.1 ++ rs.1, rs.2)

/-- The frames that the chunks give, and what is in the buffer in the end. -/
def frames (heap : Heap) (cs : List Chunk) : Option (List (List UInt8) × List UInt8) :=
  (feedAll (initParser heap) cs).map fun r => (r.1, r.2.buf)

/-- The stream that is cut into the chunks. -/
def stream (cs : List Chunk) : List UInt8 := cs.flatMap Chunk.bytes

/-- The positions of the stream at which the chunks show a frame boundary. -/
def Shown : List Chunk → Nat → Prop
  | [], _ => False
  | c :: cs, g => g < c.bytes.length ∧ c.Shows g ∨ c.bytes.length ≤ g ∧ Shown cs (g - c.bytes.length)

/-! ## One chunk -/

/-- A call from the start or from a start code on stops at every boundary that the
chunk shows, unless there is nothing in front of it. -/
theorem Chunk.stops_of_shows {c : Chunk} {len k : Nat} {b : List UInt8}
    (hstart : len = 0 ∨ Code c.mem len ∧ b = []) (h : c.Shows (len + k)) (hpos : 0 < b.length + k) :
    Stops c.mem len c.bytes.length b.length (len + k) := by
  refine ⟨?_, .inr ⟨h.2, by omega⟩⟩
  rcases hstart with rfl | ⟨hcode, rfl⟩
  · exact h.1
  · rw [List.length_nil, Nat.zero_add] at hpos
    exact h.1.later hcode (by omega)

/-- The bytes in front of the place where a call stops are gathered. -/
theorem Chunk.pieces_front {c : Chunk} [DecidablePred c.Shows] {len : Nat} {b xs : List UInt8}
    (hstart : len = 0 ∨ Code c.mem len ∧ b = [])
    (h : ∀ q, Stops c.mem len c.bytes.length b.length q → len + xs.length ≤ q) :
    pieces c.Shows len b xs = ([], b ++ xs) := by
  refine pieces_none fun k hk hshows => ?_
  by_contra hpos
  have := h (len + k) (c.stops_of_shows hstart hshows (by omega))
  omega

/-- The bytes up to a boundary at which a call stops are cut off. -/
theorem Chunk.pieces_stop {c : Chunk} [DecidablePred c.Shows] {len q : Nat} {b : List UInt8}
    (hstart : len = 0 ∨ Code c.mem len ∧ b = []) (hstop : Stops c.mem len c.bytes.length b.length q)
    (hbound : Boundary c.mem c.bytes.length q) (hpos : 0 < b.length + (q - len))
    (hfirst : ∀ r, Stops c.mem len c.bytes.length b.length r → q ≤ r) :
    pieces c.Shows len b (c.bytes.drop len) =
      ((b ++ (c.bytes.drop len).take (q - len)) :: (pieces c.Shows q [] (c.bytes.drop q)).1,
        (pieces c.Shows q [] (c.bytes.drop q)).2) := by
  have hle := hstop.1.1
  have hlt := hbound.1
  have hlen : ((c.bytes.drop len).take (q - len)).length = q - len := by
    rw [List.length_take, List.length_drop]
    omega
  have hshows : c.Shows q := ⟨hstop.1.earlier (Nat.zero_le len), hbound⟩
  have hfront : pieces c.Shows len b ((c.bytes.drop len).take (q - len)) =
      ([], b ++ (c.bytes.drop len).take (q - len)) :=
    c.pieces_front hstart fun r hr => by
      have := hfirst r hr
      omega
  have hsplit : c.bytes.drop len = (c.bytes.drop len).take (q - len) ++ c.bytes.drop q := by
    rw [show c.bytes.drop q = (c.bytes.drop len).drop (q - len) by
      rw [List.drop_drop, Nat.add_sub_cancel' hle], List.take_append_drop]
  conv_lhs => rw [hsplit]
  rw [pieces_append, hfront, hlen, Nat.add_sub_cancel' hle,
    pieces_cut hshows (by rwa [List.length_append, hlen]) (by rw [ne_eq, List.drop_eq_nil_iff]; omega)]
  rfl

/-- A call on the rest of a chunk that fits into the buffer takes all of it, or cuts
off what lies before a boundary. -/
theorem Chunk.call_spec {c : Chunk} [DecidablePred c.Shows] {len : Nat} {b : List UInt8} {res : Parsed}
    (hout : Outcome c.mem len c.bytes.length b res) (hle : len ≤ c.bytes.length)
    (hroom : b.length + (c.bytes.length - len) ≤ maxFrameSize) (hstart : len = 0 ∨ Code c.mem len ∧ b = []) :
    (res.parsed_len = c.bytes.length - len ∧ res.ret_buf = none ∧
      pieces c.Shows len b (c.bytes.drop len) = ([], res.parser.buf)) ∨
    ∃ q, len ≤ q ∧ q ≤ c.bytes.length ∧ Code c.mem q ∧ (len < q ∨ b ≠ []) ∧
      res.parsed_len = q - len ∧ res.parser.buf = [] ∧ ∃ frame, res.ret_buf = some frame ∧
        pieces c.Shows len b (c.bytes.drop len) = (frame :: (pieces c.Shows q [] (c.bytes.drop q)).1,
          (pieces c.Shows q [] (c.bytes.drop q)).2) := by
  have hslice : ∀ {k}, len + k ≤ c.bytes.length → c.mem.slice len k = (c.bytes.drop len).take k :=
    fun h => Memory.slice_chunk h c.after
  cases hout with
  | tail clear hlen ret buf =>
    refine .inl ⟨hlen, ret, ?_⟩
    rw [c.pieces_front hstart fun q hq => absurd hq (clear q), buf, hslice (by omega),
      List.take_of_length_le (by rw [List.length_drop])]
  | full pos q stops _ long =>
    have := stops.1.le
    omega
  | frame q stops first short hlen ret buf =>
    obtain ⟨hbound, hpos⟩ : Boundary c.mem c.bytes.length q ∧ 0 < b.length + (q - len) :=
      stops.2.resolve_left (by omega)
    have hle' := stops.1.1
    have hend := hbound.1
    refine .inr ⟨q, hle', Nat.le_of_lt hend, stops.1.2.1, ?_, hlen, buf, _, ret, ?_⟩
    · rcases Nat.eq_zero_or_pos b.length with h0 | h0
      · exact .inl (by omega)
      · exact .inr (List.ne_nil_of_length_pos h0)
    · rw [c.pieces_stop hstart stops hbound hpos first, hslice (by omega)]

section

variable {c : Chunk} {fuel : Nat}

theorem feedLoop_done {p : NalParser} {len : Nat} (hle : c.bytes.length ≤ len) :
    feedLoop c (fuel + 1) p len = some ([], p) := by
  rw [feedLoop, if_neg (Nat.not_lt.mpr hle)]

theorem feedLoop_call {p p' : NalParser} {len : Nat} {res : Parsed} {fs : List (List UInt8)}
    (hlt : len < c.bytes.length) (hres : (parseFrame p len (c.bytes.length - len)).run c.mem = some res)
    (hrest : feedLoop c fuel res.parser (len + res.parsed_len) = some (fs, p')) :
    feedLoop c (fuel + 1) p len = some (res.ret_buf.toList ++ fs, p') := by
  rw [feedLoop, if_pos hlt, hres, Option.bind_some, hrest, Option.map_some]

/-- The calls on the rest of a chunk cut the buffer off at the boundaries. -/
theorem feedLoop_spec [DecidablePred c.Shows] {p : NalParser} {len : Nat}
    (hfuel : callsLeft (c.bytes.length - len) p.buf < fuel)
    (hroom : p.buf.length + (c.bytes.length - len) ≤ maxFrameSize)
    (hstart : len = 0 ∨ Code c.mem len ∧ p.buf = []) :
    ∃ p', feedLoop c fuel p len = some ((pieces c.Shows len p.buf (c.bytes.drop len)).1, p') ∧
      p'.buf = (pieces c.Shows len p.buf (c.bytes.drop len)).2 := by
  induction fuel generalizing p len with
  | zero => exact absurd hfuel (Nat.not_lt_zero _)
  | succ fuel ih =>
    rcases Nat.lt_or_ge len c.bytes.length with hlt | hge
    · obtain ⟨res, hres, hout⟩ : ∃ res, (parseFrame p len (c.bytes.length - len)).run c.mem = some res ∧
          Outcome c.mem len c.bytes.length p.buf res := exists_parsed p _ (Nat.le_of_lt hlt)
      rcases c.call_spec hout (Nat.le_of_lt hlt) hroom hstart with
        ⟨hlen, hret, hpieces⟩ | ⟨q, hle, hend, hcode, hprogress, hlen, hbuf, frame, hret, hpieces⟩
      · obtain ⟨fuel, rfl⟩ : ∃ k, fuel = k + 1 := by
          rw [callsLeft] at hfuel
          exact ⟨fuel - 1, by omega⟩
        have hdone : feedLoop c (fuel + 1) res.parser (len + res.parsed_len) = some ([], res.parser) :=
          feedLoop_done (by omega)
        rw [hpieces, feedLoop_call hlt hres hdone, hret]
        exact ⟨res.parser, rfl, rfl⟩
      · have hfuel' : callsLeft (c.bytes.length - q) res.parser.buf < fuel := by
          rw [hbuf]
          exact Nat.lt_of_lt_of_le (callsLeft_lt hle hend hprogress) (Nat.lt_succ_iff.mp hfuel)
        have hroom' : res.parser.buf.length + (c.bytes.length - q) ≤ maxFrameSize := by
          rw [hbuf, List.length_nil]
          omega
        obtain ⟨p', hrest, hbuf'⟩ := ih hfuel' hroom' (.inr ⟨hcode, hbuf⟩)
        rw [hbuf] at hrest hbuf'
        have hnext : feedLoop c fuel res.parser (len + res.parsed_len) =
            some ((pieces c.Shows q [] (c.bytes.drop q)).1, p') := by
          rwa [hlen, Nat.add_sub_cancel' hle]
        rw [hpieces, feedLoop_call hlt hres hnext, hret]
        exact ⟨p', rfl, hbuf'⟩
    · rw [List.drop_eq_nil_of_le hge]
      exact ⟨p, feedLoop_done hge, rfl⟩

end

theorem feed_spec (p : NalParser) (c : Chunk) [DecidablePred c.Shows]
    (hroom : p.buf.length + c.bytes.length ≤ maxFrameSize) :
    ∃ p', feed p c = some ((pieces c.Shows 0 p.buf c.bytes).1, p') ∧
      p'.buf = (pieces c.Shows 0 p.buf c.bytes).2 :=
  feedLoop_spec (Nat.lt_succ_of_le (callsLeft_le _ _)) hroom (.inl rfl)

/-! ## All of them -/

open scoped Classical in
/-- What the chunks give is what is cut off the stream at the boundaries that they
show, behind what is in the buffer. -/
theorem feedAll_spec (cs : List Chunk) (p : NalParser)
    (hroom : p.buf.length + (stream cs).length ≤ maxFrameSize) :
    ∃ p', feedAll p cs = some ((pieces (Shown cs) 0 p.buf (stream cs)).1, p') ∧
      p'.buf = (pieces (Shown cs) 0 p.buf (stream cs)).2 := by
  induction cs generalizing p with
  | nil => exact ⟨p, rfl, rfl⟩
  | cons c cs ih =>
    have hstream : stream (c :: cs) = c.bytes ++ stream cs := List.flatMap_cons
    have hfront : pieces (Shown (c :: cs)) 0 p.buf c.bytes = pieces c.Shows 0 p.buf c.bytes :=
      pieces_congr fun k hk => by
        simp only [Shown, Nat.zero_add]
        exact ⟨fun h => h.elim And.right fun h => by omega, fun h => .inl ⟨hk, h⟩⟩
    have hback : ∀ buf, pieces (Shown (c :: cs)) (0 + c.bytes.length) buf (stream cs) =
        pieces (Shown cs) 0 buf (stream cs) := fun buf =>
      pieces_congr fun k _ => by
        simp only [Shown, Nat.zero_add, Nat.add_sub_cancel_left]
        exact ⟨fun h => h.elim (fun h => by omega) And.right, fun h => .inr ⟨Nat.le_add_right _ k, h⟩⟩
    rw [hstream, List.length_append] at hroom
    obtain ⟨p₁, hfeed, hbuf₁⟩ := feed_spec p c (by omega)
    have hlen : (pieces c.Shows 0 p.buf c.bytes).2.length ≤ p.buf.length + c.bytes.length :=
      length_rest_le 0 p.buf c.bytes
    obtain ⟨p₂, hrest, hbuf₂⟩ := ih p₁ (by rw [hbuf₁]; omega)
    rw [hstream, pieces_append, hfront, hback, ← hbuf₁]
    refine ⟨p₂, ?_, hbuf₂⟩
    rw [feedAll, hfeed, Option.bind_some, hrest]
    rfl

open scoped Classical in
theorem frames_eq (heap : Heap) (cs : List Chunk) (hlen : (stream cs).length ≤ maxFrameSize) :
    frames heap cs = some (pieces (Shown cs) 0 [] (stream cs)) := by
  obtain ⟨p', hfeed, hbuf⟩ := feedAll_spec cs (initParser heap) (by rwa [show (initParser heap).buf = [] from rfl,
    List.length_nil, Nat.zero_add])
  rw [frames, hfeed, Option.map_some, hbuf]
  rfl

/-- Two ways of cutting a stream that is shorter than the buffer give the same frames
and leave the same bytes exactly if they show the same boundaries behind its first
position. -/
theorem same_frames_iff (heap heap' : Heap) (cs ds : List Chunk) (hcut : stream cs = stream ds)
    (hlen : (stream cs).length < maxFrameSize) : ∃ r r', frames heap cs = some r ∧ frames heap' ds = some r' ∧
      (r = r' ↔ ∀ g, 0 < g → g < (stream cs).length → (Shown cs g ↔ Shown ds g)) := by
  classical
  refine ⟨_, _, frames_eq heap cs (Nat.le_of_lt hlen), frames_eq heap' ds (hcut ▸ Nat.le_of_lt hlen), ?_⟩
  rw [← hcut]
  exact pieces_eq_iff (stream cs)

theorem same_frames_iff_six : ∃ r r', frames .zero [⟨[1, 0, 0, 0, 1, 9], fun _ => 0⟩] = some r ∧
    frames .zero [⟨[1, 0, 0], fun _ => 0⟩, ⟨[0, 1, 9], fun _ => 0⟩] = some r' ∧
    (r = r' ↔ ∀ g, 0 < g → g < 6 → (Shown [⟨[1, 0, 0, 0, 1, 9], fun _ => 0⟩] g ↔
      Shown [⟨[1, 0, 0], fun _ => 0⟩, ⟨[0, 1, 9], fun _ => 0⟩] g)) :=
  same_frames_iff _ _ [⟨[1, 0, 0, 0, 1, 9], fun _ => 0⟩] [⟨[1, 0, 0], fun _ => 0⟩, ⟨[0, 1, 9], fun _ => 0⟩] rfl
    (by decide)

/-- A start code that is cut in two is not found. -/
theorem frames_differ : stream [⟨[1, 0, 0, 0, 1, 9], fun _ => 0⟩] =
      stream [⟨[1, 0, 0], fun _ => 0⟩, ⟨[0, 1, 9], fun _ => 0⟩] ∧
    frames .zero [⟨[1, 0, 0, 0, 1, 9], fun _ => 0⟩] =
      some ([[1]], [0, 0, 0, 1, 9]) ∧
    frames .zero [⟨[1, 0, 0], fun _ => 0⟩, ⟨[0, 1, 9], fun _ => 0⟩] =
      some ([], [1, 0, 0, 0, 1, 9]) :=
  ⟨rfl, by decide +kernel, by decide +kernel⟩

end DShow.Packetizer
