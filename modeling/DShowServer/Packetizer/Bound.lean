import DShowServer.Framework.Run
import DShowServer.Packetizer.Conserve

/-!
# The buffer of the parser

`parse_frame` looks at the room in its buffer in front of a start code, and not
where it copies what is left of the chunk. So the copies stay in the buffer as
long as every call either has room for its whole chunk or stops at a start code
(`in_bounds_iff`), and a long enough stretch without one runs over it.
-/

namespace DShow.Packetizer

open Run

/-- The parser and the copies made into its buffer so far. -/
abbrev Copied := NalParser × List (Nat × Nat)

/-- A parser that has copied nothing. -/
def Copied.start (heap : Heap) : Copied := (initParser heap, [])

/-- The parser takes a call. -/
def take (s : Copied) (c : Call) : Option Copied := (call s.1 c).map fun r => (r.2, s.2 ++ r.1.copies)

/-- `buf_len` is at most `MAX_FRAME_SIZE`, and no copy went past the buffer's end. -/
def InBounds (s : Copied) : Prop := s.1.buf.length ≤ maxFrameSize ∧ Inside s.2

/-- The chunk fits behind what is in the buffer, or the call stops at a start code. -/
def HasRoom (s : Copied) (c : Call) : Prop :=
  s.1.buf.length + c.inbuf_len ≤ maxFrameSize ∨
    ∃ q, Stops (.total c.mem) c.inbuf (c.inbuf + c.inbuf_len) s.1.buf.length q

theorem exists_take (s : Copied) (c : Call) : ∃ res, take s c = some (res.parser, s.2 ++ res.copies) ∧
    Outcome (.total c.mem) c.inbuf (c.inbuf + c.inbuf_len) s.1.buf res := by
  obtain ⟨res, hcall, hout⟩ := exists_call s.1 c
  exact ⟨res, by rw [take, hcall]; rfl, hout⟩

/-- One call. -/
theorem Outcome.in_bounds {m : Memory} {s k : Nat} {b : List UInt8} {res : Parsed}
    (h : Outcome m s (s + k) b res) (hb : b.length ≤ maxFrameSize) :
    res.parser.buf.length ≤ maxFrameSize ∧ Inside res.copies ↔
      b.length + k ≤ maxFrameSize ∨ ∃ q, Stops m s (s + k) b.length q := by
  cases h with
  | tail clear _ _ buf inside =>
    rw [buf, List.length_append, Memory.length_slice, inside, Nat.add_sub_cancel_left, and_self]
    exact (or_iff_left fun ⟨q, hq⟩ => clear q hq).symm
  | full pos q stops first _ le before _ _ buf inside =>
    refine iff_of_true ⟨?_, inside⟩ (.inr ⟨q, stops⟩)
    rw [buf, List.length_append, Memory.length_slice]
    rcases before with rfl | ⟨hlt, hvis⟩
    · rwa [Nat.sub_self]
    · by_contra hlong
      exact absurd (first pos ⟨hvis, .inl (by omega)⟩) (by omega)
  | frame q stops _ _ _ _ buf inside =>
    refine iff_of_true ⟨?_, inside⟩ (.inr ⟨q, stops⟩)
    rw [buf]
    exact Nat.zero_le _

theorem take_in_bounds {s s' : Copied} {c : Call} (hs : InBounds s) (h : take s c = some s') :
    InBounds s' ↔ HasRoom s c := by
  obtain ⟨res, hres, hout⟩ := exists_take s c
  cases hres.symm.trans h
  rw [HasRoom, ← hout.in_bounds hs.1]
  exact and_congr_right' (List.forall_mem_append.trans (and_iff_right hs.2))

theorem exists_exec (s : Copied) (calls : List Call) : ∃ t, exec take s calls = some t :=
  Option.isSome_iff_exists.mp (exec_isSome (I := fun _ => True)
    (fun s c _ => (exists_take s c).elim fun _ h => ⟨_, h.1, trivial⟩) trivial calls)

/-- Over any sequence of calls the parser stays in the bounds of its buffer exactly
if every call has room. -/
theorem in_bounds_iff (heap : Heap) (calls : List Call) : ∃ t, exec take (.start heap) calls = some t ∧
    (Meets take HasRoom (.start heap) calls ↔
      ∀ fs gs u, calls = fs ++ gs → exec take (.start heap) fs = some u → InBounds u) := by
  obtain ⟨t, ht⟩ := exists_exec (.start heap) calls
  refine ⟨t, ht, ?_⟩
  exact meets_iff (I := fun _ => True) (D := fun _ _ => True) (fun _ _ _ _ _ _ => trivial)
    (fun _ _ _ _ hm _ hs => take_in_bounds hm hs) trivial ⟨Nat.zero_le _, List.forall_mem_nil _⟩
    (meets_true _ _) ht

/-! ## A stream without start codes -/

/-- A chunk in which every byte is 1. -/
def ones (k : Nat) : Call := ⟨fun _ => 1, 0, k⟩

theorem not_code_ones (q : Nat) : ¬ Code (.total fun _ => 1) q := fun h =>
  absurd (show (1 : UInt8) = 0 from Option.some.inj h.1) (by decide)

/-- Such chunks are gathered in the buffer. -/
theorem exec_ones (s : Copied) (k n : Nat) : ∃ t, exec take s (List.replicate n (ones k)) = some t ∧
    t.1.buf.length = s.1.buf.length + n * k ∧
    (InBounds s → s.1.buf.length + n * k ≤ maxFrameSize → InBounds t) := by
  induction n generalizing s with
  | zero => exact ⟨s, rfl, by rw [Nat.zero_mul, Nat.add_zero], fun h _ => h⟩
  | succ n ih =>
    obtain ⟨res, hres, hout⟩ := exists_take s (ones k)
    obtain ⟨t, ht, hlen, hin⟩ := ih (res.parser, s.2 ++ res.copies)
    have hbuf : res.parser.buf.length = s.1.buf.length + k := by
      have hnone : ∀ q, ¬ Stops (.total fun _ => 1) 0 (0 + k) s.1.buf.length q := fun q hq =>
        not_code_ones q hq.1.2.1
      cases hout with
      | tail _ _ _ buf =>
        rw [buf, List.length_append, Memory.length_slice]
        show _ + (0 + k - 0) = _
        omega
      | full _ q stops => exact absurd stops (hnone q)
      | frame q stops => exact absurd stops (hnone q)
    dsimp only at hlen hin
    rw [hbuf] at hlen hin
    rw [Nat.succ_mul]
    refine ⟨t, exec_cons_eq_some.mpr ⟨_, hres, ht⟩, by omega, fun hs hle => hin ?_ (by omega)⟩
    refine (take_in_bounds hs hres).mpr (.inl ?_)
    show s.1.buf.length + k ≤ maxFrameSize
    omega

/-- 129 packets of 8192 bytes without a start code do not fit: the last one is written over
`buf_len`, which lies behind the buffer and which the model keeps apart. -/
theorem buffer_overrun : ∃ t, exec take (.start .zero) (List.replicate 129 (ones 8192)) = some t ∧
    ¬ InBounds t := by
  obtain ⟨t, ht, hlen, -⟩ := exec_ones (.start .zero) 8192 129
  exact ⟨t, ht, fun h => absurd h.1 (by rw [hlen]; decide)⟩

end DShow.Packetizer
