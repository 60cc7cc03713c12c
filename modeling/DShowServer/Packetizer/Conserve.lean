import DShowServer.Framework.Simulate
import DShowServer.Packetizer.Frame

/-!
# No byte of the stream is lost

What a call returns and what it leaves in the buffer are, one behind the other,
what was in the buffer and what it has consumed (`Outcome.kept`). So over any
sequence of calls the frames and the buffer are the consumed stream.
-/

namespace DShow.Packetizer

open Simulate

/-- A call of `parse_frame`: the memory, and where the bytes lie that are given. -/
structure Call where
  mem : Nat → UInt8
  inbuf : Nat
  inbuf_len : Nat

/-- The frame that is returned, empty if there is none. -/
def Parsed.frame (res : Parsed) : List UInt8 := res.ret_buf.getD []

/-- The bytes that a call has consumed. -/
def Call.consumed (c : Call) (res : Parsed) : List UInt8 :=
  (Memory.total c.mem).slice c.inbuf res.parsed_len

/-- The parser takes a call. -/
def call (p : NalParser) (c : Call) : Option (Parsed × NalParser) :=
  ((parseFrame p c.inbuf c.inbuf_len).run (.total c.mem)).map fun res => (res, res.parser)

theorem exists_call (p : NalParser) (c : Call) : ∃ res, call p c = some (res, res.parser) ∧
    Outcome (.total c.mem) c.inbuf (c.inbuf + c.inbuf_len) p.buf res := by
  obtain ⟨res, hres, hout⟩ := exists_parsed p c.mem (Nat.le_add_right c.inbuf c.inbuf_len)
  rw [Nat.add_sub_cancel_left] at hres
  exact ⟨res, by rw [call, hres]; rfl, hout⟩

theorem Outcome.parsed_le {m : Memory} {s k : Nat} {b : List UInt8} {res : Parsed}
    (h : Outcome m s (s + k) b res) : res.parsed_len ≤ k := by
  cases h with
  | tail _ len => omega
  | full pos q stops _ _ le _ len =>
    have := stops.1.le
    omega
  | frame q stops _ _ len =>
    have := stops.1.le
    omega

/-- A call moves bytes from its chunk to the buffer and from there to the frame. -/
theorem Outcome.kept {m : Memory} {s n : Nat} {b : List UInt8} {res : Parsed} (h : Outcome m s n b res) :
    res.frame ++ res.parser.buf = b ++ m.slice s res.parsed_len := by
  cases h with
  | tail _ len ret buf => rw [Parsed.frame, ret, buf, len]; rfl
  | full pos q _ _ _ _ _ len ret buf => rw [Parsed.frame, ret, buf, len]; rfl
  | frame q _ _ _ len ret buf => rw [Parsed.frame, ret, buf, len, List.append_nil]; rfl

/-- Every call consumes at most the bytes that it was given and loses none; over any
sequence of calls the frames and what is in the buffer at the end are what was in
it before and the consumed stream. -/
theorem stream_conserved : (∀ (p : NalParser) (c : Call), ∃ res, call p c = some (res, res.parser) ∧
      res.parsed_len ≤ c.inbuf_len ∧ res.frame ++ res.parser.buf = p.buf ++ c.consumed res) ∧
    ∀ (p : NalParser) (calls : List Call), ∃ rs p', outputs call p calls = some (rs, p') ∧
      rs.length = calls.length ∧
      rs.flatMap Parsed.frame ++ p'.buf = p.buf ++ (List.zipWith Call.consumed calls rs).flatten := by
  constructor
  · intro p c
    obtain ⟨res, hcall, hout⟩ := exists_call p c
    exact ⟨res, hcall, hout.parsed_le, hout.kept⟩
  · intro p calls
    induction calls generalizing p with
    | nil => exact ⟨[], p, rfl, rfl, (List.append_nil _).symm⟩
    | cons c calls ih =>
      obtain ⟨res, hcall, hout⟩ := exists_call p c
      obtain ⟨rs, p', hrest, hlen, hkept⟩ := ih res.parser
      refine ⟨res :: rs, p', outputs_cons hcall hrest, congrArg Nat.succ hlen, ?_⟩
      calc (res :: rs).flatMap Parsed.frame ++ p'.buf
          = res.frame ++ (rs.flatMap Parsed.frame ++ p'.buf) := by
            rw [List.flatMap_cons, List.append_assoc]
        _ = (res.frame ++ res.parser.buf) ++ (List.zipWith Call.consumed calls rs).flatten := by
            rw [hkept, List.append_assoc]
        _ = p.buf ++ (List.zipWith Call.consumed (c :: calls) (res :: rs)).flatten := by
            rw [hout.kept, List.append_assoc]
            rfl

end DShow.Packetizer
