import DShowServer.Packetizer.Bound

/-!
# The packet loop

The loop of `dshowserver_decode_data` asks for the rest of its packet until all
of it is consumed. A call for which the buffer would get too long consumes what
lies before the start code in front; the next one begins there, and can only
stop at the same place. So the loop ends exactly if no start code of the packet
is out of reach (`loop_ends_iff`).
-/

namespace DShow.Packetizer

open Run

/-- Every start code can be reached: the buffer has room for what lies before it,
from the start or from another one at which a frame begins. -/
def Clear (m : Memory) (s n b : Nat) : Prop :=
  ∀ q, Visible m s n q → b + (q - s) ≤ maxFrameSize ∨
    ∃ r, Visible m s n r ∧ Boundary m n r ∧ r < q ∧ q - r ≤ maxFrameSize

/-- What is found from a start code on. -/
theorem Visible.later {m : Memory} {s n t q : Nat} (h : Visible m s n q) (ht : Code m t) (hlt : t < q) :
    Visible m t n q :=
  ⟨Nat.le_of_lt hlt, h.2.1, .inr ⟨h.le, t, Nat.le_refl t, ht, (ht.add_four_le h.2.1 hlt).trans h.le⟩⟩

theorem Visible.earlier {m : Memory} {s n t q : Nat} (h : Visible m t n q) (hle : s ≤ t) :
    Visible m s n q :=
  ⟨hle.trans h.1, h.2.1, h.2.2.imp_right fun ⟨hq, r, hr, hcode⟩ => ⟨hq, r, hle.trans hr, hcode⟩⟩

namespace Outcome

variable {m : Memory} {s n : Nat} {b : List UInt8} {res : Parsed}

/-- Where every start code can be reached, a call consumes its chunk or returns a
frame, and behind it every start code can be reached. -/
theorem clear (h : Outcome m s n b res) (hc : Clear m s n b.length) :
    res.parsed_len = n - s ∨ ∃ q, s ≤ q ∧ q ≤ n ∧ res.parsed_len = q - s ∧ res.parser.buf = [] ∧
      Clear m q n 0 ∧ (s < q ∨ b ≠ []) := by
  cases h with
  | tail _ len => exact .inl len
  | full pos q stops first long =>
    exfalso
    rcases hc q stops.1 with hshort | ⟨r, hr, hbound, hlt, hshort⟩
    · omega
    · -- the call would have stopped at `r`
      have hr' := hr.1
      rcases Nat.eq_zero_or_pos (b.length + (r - s)) with h0 | hpos
      · omega
      · exact absurd (first r ⟨hr, .inr ⟨hbound, hpos⟩⟩) (by omega)
  | frame q stops first short len _ buf =>
    refine .inr ⟨q, stops.1.1, stops.1.le, len, buf, fun t ht => ?_, ?_⟩
    · have hqt := ht.1
      have hsq := stops.1.1
      rcases hc t (ht.earlier hsq) with hshort | ⟨r, hr, hbound, hlt, hshort⟩
      · exact .inl (by omega)
      · by_cases hle : q ≤ r
        · have hend := hr.2.1.add_four_le ht.2.1 hlt
          exact .inr ⟨r, ⟨hle, hr.2.1, .inl (hend.trans ht.le)⟩, hbound, hlt, hshort⟩
        · exact .inl (by omega)
    · rcases stops.2 with hlong | ⟨-, hpos⟩
      · omega
      · rw [← List.length_pos_iff_ne_nil]
        omega

/-- A start code out of reach stays out of reach, and is not passed. -/
theorem stuck (h : Outcome m s n b res) (hs : s < n) (hc : ¬ Clear m s n b.length) :
    s + res.parsed_len < n ∧ ¬ Clear m (s + res.parsed_len) n res.parser.buf.length := by
  simp only [Clear, not_forall, not_or, not_exists, not_and, Nat.not_le] at hc ⊢
  obtain ⟨t, ht, hlong, hfar⟩ := hc
  have hstop : Stops m s n b.length t := ⟨ht, .inl hlong⟩
  have hst := ht.1
  have htn := ht.le
  cases h with
  | tail clear => exact absurd hstop (clear t)
  | full pos q stops first _ le before len _ buf =>
    have hqt := first t hstop
    rw [len, Nat.add_sub_cancel' le.1, buf, List.length_append, Memory.length_slice]
    have hvis : Visible m pos n t := by
      rcases before with rfl | ⟨hlt, hvis⟩
      · exact ht
      · exact ht.later hvis.2.1 (by omega)
    refine ⟨?_, t, hvis, by omega, fun r hr => hfar r (hr.earlier le.1)⟩
    rcases before with rfl | ⟨hlt, -⟩
    · exact hs
    · omega
  | frame q stops first short len _ buf =>
    have hsq := stops.1.1
    have hqt : q < t := Nat.lt_of_le_of_ne (first t hstop) (by rintro rfl; omega)
    have hbound : Boundary m n q := stops.2.elim (fun h => by omega) And.left
    rw [len, Nat.add_sub_cancel' hsq, buf, List.length_nil]
    exact ⟨by omega, t, ht.later stops.1.2.1 hqt, by rw [Nat.zero_add]; exact hfar q stops.1 hbound hqt,
      fun r hr => hfar r (hr.earlier hsq)⟩

end Outcome

/-! ## The loop -/

/-- A call of the loop. -/
theorem exists_call_at (f : Nat → UInt8) (content : Nat) {size len : Nat} (p : NalParser) (hlt : len < size) :
    ∃ res, (parseFrame p (content + len) (size - len)).run (.total f) = some res ∧
      Outcome (.total f) (content + len) (content + size) p.buf res := by
  have h := exists_parsed p f (Nat.add_le_add_left (Nat.le_of_lt hlt) content)
  rwa [Nat.add_sub_add_left] at h

section

variable {f : Nat → UInt8} {content size : Nat}

/-- A round of the loop. -/
theorem run_packetLoop (fuel : Nat) (p : NalParser) (pic : Picture) (len : Nat) :
    (packetLoop content size (fuel + 1) p pic len).run (.total f) =
      if len < size then
        ((parseFrame p (content + len) (size - len)).run (.total f)).bind fun res =>
          (packetLoop content size fuel res.parser (pic.update res.parser) (len + res.parsed_len)).run
            (.total f)
      else some (p, pic) := by
  rw [packetLoop, Probe.run_ite]
  rfl

/-- Every round consumes bytes or empties the buffer. -/
theorem packetLoop_ends {fuel : Nat} {p : NalParser} {pic : Picture} {len : Nat}
    (hfuel : callsLeft (size - len) p.buf < fuel)
    (hc : Clear (.total f) (content + len) (content + size) p.buf.length) :
    ∃ r, (packetLoop content size fuel p pic len).run (.total f) = some r := by
  induction fuel generalizing p pic len with
  | zero => exact absurd hfuel (Nat.not_lt_zero _)
  | succ fuel ih =>
    rw [run_packetLoop]
    split
    · rename_i hlt
      obtain ⟨res, hres, hout⟩ := exists_call_at f content p hlt
      rw [hres, Option.bind_some]
      rcases hout.clear hc with hlen | ⟨q, hsq, hqn, hlen, hbuf, hclear, hprogress⟩
      · obtain ⟨fuel, rfl⟩ : ∃ k, fuel = k + 1 := by
          rw [callsLeft] at hfuel
          exact ⟨fuel - 1, by omega⟩
        rw [run_packetLoop, if_neg (by omega)]
        exact ⟨_, rfl⟩
      · have hfewer := callsLeft_lt hsq hqn hprogress
        rw [Nat.add_sub_add_left] at hfewer
        refine ih ?_ ?_
        · rw [hbuf, show size - (len + res.parsed_len) = content + size - q by omega]
          omega
        · rwa [show content + (len + res.parsed_len) = q by omega, hbuf]
    · exact ⟨_, rfl⟩

theorem packetLoop_stuck {p : NalParser} {pic : Picture} {len : Nat} (hlt : len < size)
    (hc : ¬ Clear (.total f) (content + len) (content + size) p.buf.length) (fuel : Nat) :
    (packetLoop content size fuel p pic len).run (.total f) = none := by
  induction fuel generalizing p pic len with
  | zero => rfl
  | succ fuel ih =>
    obtain ⟨res, hres, hout⟩ := exists_call_at f content p hlt
    obtain ⟨hlt', hc'⟩ := hout.stuck (by omega) hc
    rw [run_packetLoop, if_pos hlt, hres, Option.bind_some]
    exact ih (by omega) (by rwa [show content + (len + res.parsed_len) = content + len + res.parsed_len by omega])

end

/-- In every state of the parser and for every packet the loop ends exactly if the
buffer has room for what lies before each start code, from what is in it already
or from a start code of the packet at which a frame begins. -/
theorem loop_ends_iff (p : NalParser) (pic : Picture) (f : Nat → UInt8) (content size : Nat) :
    (∃ fuel r, (packetLoop content size fuel p pic 0).run (.total f) = some r) ↔
      Clear (.total f) content (content + size) p.buf.length := by
  constructor
  · rintro ⟨fuel, r, hr⟩
    by_contra hc
    rcases Nat.eq_zero_or_pos size with rfl | hpos
    · refine hc fun q hq => absurd hq.2.2 ?_
      rintro (hlt | ⟨-, r, hr, -, hlt⟩)
      · exact absurd hq.1 (by omega)
      · omega
    · rw [packetLoop_stuck hpos hc] at hr
      cases hr
  · exact fun hc => ⟨_, packetLoop_ends (Nat.lt_succ_self _) hc⟩

/-- After 128 packets of 8192 bytes without a start code the buffer is full, and the
loop does not end for a packet with a start code behind its first byte. -/
theorem loop_stuck : ∃ t, exec take (.start .zero) (List.replicate 128 (ones 8192)) = some t ∧
    InBounds t ∧ ∀ fuel pic, (packetLoop 0 6 fuel t.1 pic 0).run
      (.total (Memory.chunk [1, 0, 0, 0, 1, 9] fun _ => 0)) = none := by
  obtain ⟨t, ht, hlen, hin⟩ := exec_ones (.start .zero) 8192 128
  have hfull : t.1.buf.length = maxFrameSize := hlen
  refine ⟨t, ht, hin ⟨Nat.zero_le _, List.forall_mem_nil _⟩ (Nat.le_refl _), fun fuel pic =>
    packetLoop_stuck (by omega) (fun hc => ?_) fuel⟩
  have hcode : Code (.total (Memory.chunk [1, 0, 0, 0, 1, 9] fun _ => 0)) 1 := ⟨rfl, rfl, rfl, rfl⟩
  rcases hc 1 ⟨Nat.zero_le 1, hcode, .inl (by decide)⟩ with hle | ⟨r, hr, -, hlt, -⟩
  · omega
  · obtain rfl : r = 0 := by omega
    exact absurd hr.2.1.1 (by decide)

end DShow.Packetizer
