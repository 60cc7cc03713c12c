import DShowServer.Packetizer.Nal

/-!
# What a call of `parse_frame` does

A call finds the start codes that are visible to it: those that lie in its
bytes and, behind another one, one that begins in the last of them (the search
goes four bytes too far there). It stops at the first one where the buffer would
get too long or a frame begins. `Outcome` says what it has consumed, returned
and kept then; `parseFrame_spec` is the induction over its rounds, and
`parseFrame_total` says that it returns.
-/

namespace DShow.Packetizer

/-- The start codes that a call on the bytes from `s` to `n` finds. -/
def Visible (m : Memory) (s n q : Nat) : Prop :=
  s ≤ q ∧ Code m q ∧ (q + 4 ≤ n ∨ q ≤ n ∧ ∃ r, s ≤ r ∧ Code m r ∧ r + 4 ≤ n)

/-- The start code is one of a NAL unit that begins a frame. -/
def Boundary (m : Memory) (n q : Nat) : Prop := q < n ∧ ∃ x, m (q + 4) = some x ∧ Begins x

/-- The start codes at which a call with `b` bytes in the buffer can end. -/
def Stops (m : Memory) (s n b q : Nat) : Prop :=
  Visible m s n q ∧ (maxFrameSize < b + (q - s) ∨ Boundary m n q ∧ 0 < b + (q - s))

/-- The copies end in the buffer. -/
def Inside (copies : List (Nat × Nat)) : Prop := ∀ c ∈ copies, c.1 + c.2 ≤ maxFrameSize

theorem inside_append {copies : List (Nat × Nat)} (h : Inside copies) (a n : Nat) :
    Inside (copies ++ [(a, n)]) ↔ a + n ≤ maxFrameSize := by
  rw [Inside, List.forall_mem_append, List.forall_mem_singleton]
  exact and_iff_right h

theorem Visible.le {m : Memory} {s n q : Nat} (h : Visible m s n q) : q ≤ n :=
  h.2.2.elim (fun h => by omega) And.left

/-- What a call on the bytes from `s` to `n` leaves, with the bytes `b` in the
buffer before. -/
inductive Outcome (m : Memory) (s n : Nat) (b : List UInt8) (res : Parsed) : Prop
  /-- There is no start code to stop at, and everything is kept. -/
  | tail (clear : ∀ q, ¬ Stops m s n b.length q) (len : res.parsed_len = n - s)
      (ret : res.ret_buf = none) (buf : res.parser.buf = b ++ m.slice s (n - s))
      (inside : Inside res.copies ↔ b.length + (n - s) ≤ maxFrameSize)
  /-- The buffer would get too long at `q`; what lies behind the start code before
  it is not consumed. -/
  | full (pos q : Nat) (stops : Stops m s n b.length q) (first : ∀ r, Stops m s n b.length r → q ≤ r)
      (long : maxFrameSize < b.length + (q - s)) (le : s ≤ pos ∧ pos ≤ q)
      (before : pos = s ∨ pos < q ∧ Visible m s n pos) (len : res.parsed_len = pos - s)
      (ret : res.ret_buf = none) (buf : res.parser.buf = b ++ m.slice s (pos - s))
      (inside : Inside res.copies)
  /-- A frame begins at `q`, and what lies before it is returned. -/
  | frame (q : Nat) (stops : Stops m s n b.length q) (first : ∀ r, Stops m s n b.length r → q ≤ r)
      (short : b.length + (q - s) ≤ maxFrameSize) (len : res.parsed_len = q - s)
      (ret : res.ret_buf = some (b ++ m.slice s (q - s))) (buf : res.parser.buf = [])
      (inside : Inside res.copies)

/-- The state of a call before a round. -/
structure AtRound (m : Memory) (s n : Nat) (b : List UInt8) (p : NalParser)
    (inbuf parsed_len search_offset : Nat) (copies : List (Nat × Nat)) : Prop where
  le : s ≤ inbuf ∧ inbuf ≤ n
  parsed : parsed_len = inbuf - s
  buf : p.buf = b ++ m.slice s (inbuf - s)
  offset : search_offset = 0 ∧ inbuf = s ∨ search_offset = 4 ∧ Visible m s n inbuf
  ahead : ∀ q, Stops m s n b.length q → inbuf + search_offset ≤ q
  inside : Inside copies

namespace AtRound

variable {m : Memory} {s n : Nat} {b : List UInt8} {p : NalParser}
  {inbuf parsed_len search_offset : Nat} {copies : List (Nat × Nat)}

theorem length_buf (h : AtRound m s n b p inbuf parsed_len search_offset copies) :
    p.buf.length = b.length + (inbuf - s) := by
  rw [h.buf, List.length_append, Memory.length_slice]

/-- The search finds nothing where no start code is visible. -/
theorem not_visible (h : AtRound m s n b p inbuf parsed_len search_offset copies)
    (hseek : ∀ k, k + 4 ≤ n - inbuf → ¬ Code m (inbuf + search_offset + k)) {q : Nat}
    (hq : inbuf + search_offset ≤ q) : ¬ Visible m s n q := by
  rintro ⟨hs, hcode, hend⟩
  have hnone : ∀ r, inbuf + search_offset ≤ r → r + 4 ≤ n + search_offset → ¬ Code m r := by
    intro r hr hrn
    have := hseek (r - (inbuf + search_offset)) (by omega)
    rwa [Nat.add_sub_cancel' hr] at this
  rcases h.offset with ⟨rfl, rfl⟩ | ⟨rfl, -⟩
  · -- in the first round it would have found the start code in front, too
    rcases hend with hq' | ⟨-, r, hr, hcode', hrn⟩
    · exact hnone q hq (by omega) hcode
    · exact hnone r hr (by omega) hcode'
  · exact hnone q hq (by rcases hend with h | ⟨h, -⟩ <;> omega) hcode

/-- What the search finds is the first visible start code. -/
theorem visible (h : AtRound m s n b p inbuf parsed_len search_offset copies) {j : Nat}
    (hj : j + 4 ≤ n - inbuf) (hcode : Code m (inbuf + search_offset + j))
    (hbefore : ∀ k < j, ¬ Code m (inbuf + search_offset + k)) :
    Visible m s n (inbuf + search_offset + j) ∧
      ∀ r, Visible m s n r → inbuf + search_offset ≤ r → inbuf + search_offset + j ≤ r := by
  have hle := h.le
  constructor
  · refine ⟨by omega, hcode, ?_⟩
    rcases h.offset with ⟨rfl, rfl⟩ | ⟨rfl, hvis⟩
    · exact .inl (by omega)
    · exact .inr ⟨by omega, inbuf, hle.1, hvis.2.1, by omega⟩
  · intro r hr hle'
    by_contra hlt
    have := hbefore (r - (inbuf + search_offset)) (by omega)
    rw [Nat.add_sub_cancel' hle'] at this
    exact this hr.2.1

/-- No start code is left. -/
theorem tail (h : AtRound m s n b p inbuf parsed_len search_offset copies)
    (hnone : ∀ q, inbuf + search_offset ≤ q → ¬ Visible m s n q) :
    Outcome m s n b ⟨parsed_len + (n - s - parsed_len), none,
      { p with buf := p.buf ++ m.slice inbuf (n - s - parsed_len) },
      copies ++ [(p.buf.length, n - s - parsed_len)]⟩ := by
  have hle := h.le
  have hparsed := h.parsed
  refine .tail (fun q hq => hnone q (h.ahead q hq) hq.1) (by dsimp only; omega) rfl ?_ ?_
  · dsimp only
    rw [h.buf, List.append_assoc, show m.slice inbuf _ = m.slice (s + (inbuf - s)) _ by
      rw [Nat.add_sub_cancel' hle.1], ← Memory.slice_add, show inbuf - s + _ = n - s by omega]
  · dsimp only
    rw [inside_append h.inside, h.length_buf, show b.length + (inbuf - s) + _ = b.length + (n - s) by omega]

/-- A start code at which the buffer would get too long. -/
theorem full (h : AtRound m s n b p inbuf parsed_len search_offset copies) {q : Nat}
    (hle : inbuf + search_offset ≤ q) (hvis : Visible m s n q)
    (hfirst : ∀ r, Visible m s n r → inbuf + search_offset ≤ r → q ≤ r)
    (hlong : maxFrameSize < b.length + (q - s)) :
    Outcome m s n b ⟨parsed_len, none, p, copies⟩ := by
  refine .full inbuf q ⟨hvis, .inl hlong⟩ (fun r hr => hfirst r hr.1 (h.ahead r hr)) hlong
    ⟨h.le.1, by omega⟩ ?_ h.parsed rfl h.buf h.inside
  rcases h.offset with ⟨-, heq⟩ | ⟨rfl, hvis'⟩
  · exact .inl heq
  · exact .inr ⟨by omega, hvis'⟩

/-- What is in the buffer when the bytes up to a start code are copied. -/
theorem buf_append (h : AtRound m s n b p inbuf parsed_len search_offset copies) {q : Nat}
    (hle : inbuf ≤ q) : p.buf ++ m.slice inbuf (q - inbuf) = b ++ m.slice s (q - s) := by
  have hle' := h.le
  rw [h.buf, List.append_assoc, show m.slice inbuf (q - inbuf) = m.slice (s + (inbuf - s)) (q - inbuf) by
    rw [Nat.add_sub_cancel' hle'.1], ← Memory.slice_add, show inbuf - s + (q - inbuf) = q - s by omega]

/-- A start code at which a frame begins. -/
theorem frame (h : AtRound m s n b p inbuf parsed_len search_offset copies) {q : Nat} {p' : NalParser}
    (hle : inbuf + search_offset ≤ q) (hvis : Visible m s n q)
    (hfirst : ∀ r, Visible m s n r → inbuf + search_offset ≤ r → q ≤ r)
    (hshort : b.length + (q - s) ≤ maxFrameSize) (hbound : Boundary m n q)
    (hpos : 0 < b.length + (q - s)) :
    Outcome m s n b ⟨q - s, some (b ++ m.slice s (q - s)), { p' with buf := [], last_nal_res := 0 },
      copies ++ [(p.buf.length, q - inbuf)]⟩ := by
  refine .frame q ⟨hvis, .inr ⟨hbound, hpos⟩⟩ (fun r hr => hfirst r hr.1 (h.ahead r hr)) hshort rfl rfl
    rfl ((inside_append h.inside _ _).mpr ?_)
  have := h.le
  rw [h.length_buf]
  omega

/-- Any other start code. -/
theorem next (h : AtRound m s n b p inbuf parsed_len search_offset copies) {q : Nat} {p' : NalParser}
    (hle : inbuf + search_offset ≤ q) (hvis : Visible m s n q)
    (hfirst : ∀ r, Visible m s n r → inbuf + search_offset ≤ r → q ≤ r)
    (hshort : b.length + (q - s) ≤ maxFrameSize)
    (hbound : ¬ (Boundary m n q ∧ 0 < b.length + (q - s)))
    (hbuf : p'.buf = b ++ m.slice s (q - s)) :
    AtRound m s n b p' q (q - s) 4 (copies ++ [(p.buf.length, q - inbuf)]) where
  le := ⟨hvis.1, hvis.le⟩
  parsed := rfl
  buf := hbuf
  offset := .inr ⟨rfl, hvis⟩
  ahead r hr := by
    have hqr : q ≤ r := hfirst r hr.1 (h.ahead r hr)
    have hne : q ≠ r := by
      rintro rfl
      exact hr.2.elim (fun hlong => by omega) hbound
    exact hvis.2.1.add_four_le hr.1.2.1 (Nat.lt_of_le_of_ne hqr hne)
  inside := (inside_append h.inside _ _).mpr <| by
    have := h.le
    rw [h.length_buf]
    omega

end AtRound

/-- A round of the loop: it is the last one, or the loop goes on behind a start code. -/
inductive Round (m : Memory) (inbuf_len fuel : Nat) (p : NalParser) (inbuf parsed_len search_offset : Nat)
    (copies : List (Nat × Nat)) (res : Parsed) : Prop
  | tail (seek : (seekForNal (inbuf + search_offset) (inbuf_len - parsed_len)).run m = some none)
      (eq : res = ⟨parsed_len + (inbuf_len - parsed_len), none,
        { p with buf := p.buf ++ m.slice inbuf (inbuf_len - parsed_len) },
        copies ++ [(p.buf.length, inbuf_len - parsed_len)]⟩)
  | full (j : Nat) (seek : (seekForNal (inbuf + search_offset) (inbuf_len - parsed_len)).run m = some (some j))
      (long : maxFrameSize < p.buf.length + (j + search_offset)) (eq : res = ⟨parsed_len, none, p, copies⟩)
  | nal (j r : Nat) (p' : NalParser)
      (seek : (seekForNal (inbuf + search_offset) (inbuf_len - parsed_len)).run m = some (some j))
      (short : p.buf.length + (j + search_offset) ≤ maxFrameSize)
      (nal : (parseNal { p with buf := p.buf ++ m.slice inbuf (j + search_offset) }
        (inbuf + (j + search_offset) + 4) (inbuf_len - (parsed_len + (j + search_offset)))).run m = some (r, p'))
      (rest : if r = 1 ∧ p'.buf.length > 0 then
          res = ⟨parsed_len + (j + search_offset), some p'.buf, { p' with buf := [], last_nal_res := 0 },
            copies ++ [(p.buf.length, j + search_offset)]⟩
        else (frameLoop inbuf_len fuel { p' with last_nal_res := r } (inbuf + (j + search_offset))
          (parsed_len + (j + search_offset)) 4 (copies ++ [(p.buf.length, j + search_offset)])).run m = some res)

theorem frameLoop_cases {m : Memory} {inbuf_len fuel : Nat} {p : NalParser}
    {inbuf parsed_len search_offset : Nat} {copies : List (Nat × Nat)} {res : Parsed}
    (h : (frameLoop inbuf_len (fuel + 1) p inbuf parsed_len search_offset copies).run m = some res) :
    Round m inbuf_len fuel p inbuf parsed_len search_offset copies res := by
  obtain ⟨o, hseek, h⟩ := Probe.bind_eq_some.mp h
  cases o with
  | none =>
    obtain ⟨rest, hrest, h⟩ := Probe.bind_eq_some.mp h
    refine .tail hseek ?_
    rw [← Option.some.inj h, Probe.bytes_eq_slice hrest]
  | some j =>
    dsimp only at h
    rw [Probe.run_ite] at h
    split at h
    · rename_i hlong
      exact .full j hseek hlong (Option.some.inj h).symm
    · rename_i hshort
      obtain ⟨front, hfront, h⟩ := Probe.bind_eq_some.mp h
      obtain ⟨⟨r, p'⟩, hnal, h⟩ := Probe.bind_eq_some.mp h
      rw [Probe.bytes_eq_slice hfront] at hnal
      refine .nal j r p' hseek (Nat.not_lt.mp hshort) hnal ?_
      dsimp only at h
      rw [Probe.run_ite] at h
      split at h
      · rename_i hstop
        rw [if_pos hstop]
        exact (Option.some.inj h).symm
      · rename_i hgo
        rw [if_neg hgo]
        exact h

theorem frameLoop_spec {m : Memory} {s n : Nat} {b : List UInt8} {fuel : Nat} {p : NalParser}
    {inbuf parsed_len search_offset : Nat} {copies : List (Nat × Nat)} {res : Parsed}
    (hround : AtRound m s n b p inbuf parsed_len search_offset copies)
    (h : (frameLoop (n - s) fuel p inbuf parsed_len search_offset copies).run m = some res) :
    Outcome m s n b res := by
  induction fuel generalizing p inbuf parsed_len search_offset copies with
  | zero => cases h
  | succ fuel ih =>
    have hle := hround.le
    have hparsed := hround.parsed
    have hlen := hround.length_buf
    have hleft : n - s - parsed_len = n - inbuf := by omega
    -- what the search has found is the first visible start code
    have hfound : ∀ {j}, (seekForNal (inbuf + search_offset) (n - s - parsed_len)).run m = some (some j) →
        ∃ q, j + search_offset = q - inbuf ∧ inbuf + search_offset ≤ q ∧ Visible m s n q ∧
          ∀ r, Visible m s n r → inbuf + search_offset ≤ r → q ≤ r := by
      intro j hseek
      rw [hleft] at hseek
      obtain ⟨hj, hcode, hbefore⟩ := seekForNal_some hseek
      exact ⟨inbuf + search_offset + j, by omega, by omega, hround.visible hj hcode hbefore⟩
    cases frameLoop_cases h with
    | tail hseek heq =>
      rw [hleft] at hseek
      rw [heq]
      exact hround.tail fun q hq => hround.not_visible (seekForNal_none hseek) hq
    | full j hseek hlong heq =>
      obtain ⟨q, hj, hle', hvis, hfirst⟩ := hfound hseek
      rw [heq]
      exact hround.full hle' hvis hfirst (by omega)
    | nal j r p' hseek hshort hnal hrest =>
      obtain ⟨q, hj, hle', hvis, hfirst⟩ := hfound hseek
      obtain ⟨hbuf, hres⟩ := parseNal_spec hnal
      have hnext : inbuf + (q - inbuf) = q := by omega
      have hpassed : parsed_len + (q - inbuf) = q - s := by omega
      rw [hj, hnext, hpassed] at hrest
      rw [hj, hround.buf_append (by omega)] at hbuf
      rw [hj, hnext, hpassed, show n - s - (q - s) = n - q by omega] at hres
      have hend : r = 1 ∧ p'.buf.length > 0 ↔ Boundary m n q ∧ 0 < b.length + (q - s) := by
        rw [hres, hbuf, List.length_append, Memory.length_slice]
        exact and_congr_left' (and_congr_left' (by omega))
      split at hrest
      · rename_i hstop
        obtain ⟨hbound, hpos⟩ := hend.mp hstop
        rw [hrest, hbuf]
        exact hround.frame hle' hvis hfirst (by omega) hbound hpos
      · rename_i hgo
        have hnext : AtRound m s n b { p' with last_nal_res := r } q (q - s) 4
            (copies ++ [(p.buf.length, q - inbuf)]) :=
          hround.next hle' hvis hfirst (by omega) (fun hb => hgo (hend.mpr hb)) hbuf
        exact ih hnext hrest

/-- **What a call does.** -/
theorem parseFrame_spec {m : Memory} {p : NalParser} {inbuf inbuf_len : Nat} {res : Parsed}
    (h : (parseFrame p inbuf inbuf_len).run m = some res) :
    Outcome m inbuf (inbuf + inbuf_len) p.buf res := by
  have hstart : AtRound m inbuf (inbuf + inbuf_len) p.buf p inbuf 0 0 [] :=
    ⟨⟨Nat.le_refl _, Nat.le_add_right _ _⟩, (Nat.sub_self _).symm, by
      rw [Nat.sub_self, Memory.slice_zero, List.append_nil], .inl ⟨rfl, rfl⟩, fun _ hq => hq.1.1,
      List.forall_mem_nil _⟩
  have hrun : (frameLoop (inbuf + inbuf_len - inbuf) (inbuf_len + 2) p inbuf 0 0 []).run m = some res := by
    rwa [Nat.add_sub_cancel_left]
  exact frameLoop_spec hstart hrun

/-! ## A call returns -/

/-- A round returns where the search does, the header is parsed and the rounds that
follow return. -/
theorem exists_frameLoop {m : Memory} {inbuf_len fuel : Nat} {p : NalParser}
    {inbuf parsed_len search_offset : Nat} {copies : List (Nat × Nat)} {o : Option Nat}
    (hseek : (seekForNal (inbuf + search_offset) (inbuf_len - parsed_len)).run m = some o)
    (htail : o = none → ∃ rest, (Probe.bytes inbuf (inbuf_len - parsed_len)).run m = some rest)
    (hnal : ∀ j, o = some j → p.buf.length + (j + search_offset) ≤ maxFrameSize →
      ∃ front, (Probe.bytes inbuf (j + search_offset)).run m = some front ∧
        ∃ r p', (parseNal { p with buf := p.buf ++ front } (inbuf + (j + search_offset) + 4)
            (inbuf_len - (parsed_len + (j + search_offset)))).run m = some (r, p') ∧
          (¬ (r = 1 ∧ p'.buf.length > 0) → ∃ res, (frameLoop inbuf_len fuel { p' with last_nal_res := r }
            (inbuf + (j + search_offset)) (parsed_len + (j + search_offset)) 4
            (copies ++ [(p.buf.length, j + search_offset)])).run m = some res)) :
    ∃ res, (frameLoop inbuf_len (fuel + 1) p inbuf parsed_len search_offset copies).run m = some res := by
  refine Probe.exists_bind hseek ?_
  cases o with
  | none =>
    obtain ⟨rest, hrest⟩ := htail rfl
    exact Probe.exists_bind hrest ⟨_, rfl⟩
  | some j =>
    dsimp only
    rw [Probe.run_ite]
    split
    · exact ⟨_, rfl⟩
    · rename_i hshort
      obtain ⟨front, hfront, r, p', hrun, hrest⟩ := hnal j rfl (Nat.not_lt.mp hshort)
      refine Probe.exists_bind hfront (Probe.exists_bind hrun ?_)
      dsimp only
      rw [Probe.run_ite]
      split
      · exact ⟨_, rfl⟩
      · rename_i hgo
        exact hrest hgo

/-- Every round behind the first passes a byte at least, so the fuel suffices. -/
theorem frameLoop_total {inbuf_len fuel : Nat} {p : NalParser} {inbuf parsed_len search_offset : Nat}
    {copies : List (Nat × Nat)} (hle : parsed_len ≤ inbuf_len)
    (hfuel : search_offset = 0 ∧ inbuf_len - parsed_len + 1 < fuel ∨
      search_offset = 4 ∧ inbuf_len - parsed_len < fuel) :
    (frameLoop inbuf_len fuel p inbuf parsed_len search_offset copies).Total := by
  intro f
  induction fuel generalizing p inbuf parsed_len search_offset copies with
  | zero => omega
  | succ fuel ih =>
    obtain ⟨o, ho⟩ := seekLoop_total (inbuf + search_offset) 0 (inbuf_len - parsed_len - 3) f
    refine exists_frameLoop ho (fun _ => Probe.Total.bytes _ _ f) fun j hj hshort => ?_
    subst hj
    obtain ⟨hj, -, -⟩ := seekForNal_some ho
    obtain ⟨front, hfront⟩ := Probe.Total.bytes inbuf (j + search_offset) f
    obtain ⟨⟨r, p'⟩, hnal⟩ := parseNal_total { p with buf := p.buf ++ front }
      (inbuf + (j + search_offset) + 4) (inbuf_len - (parsed_len + (j + search_offset))) f
    exact ⟨front, hfront, r, p', hnal, fun _ => ih (by omega) (.inr ⟨rfl, by omega⟩)⟩

theorem parseFrame_total (p : NalParser) (inbuf inbuf_len : Nat) : (parseFrame p inbuf inbuf_len).Total :=
  frameLoop_total (Nat.zero_le _) (.inl ⟨rfl, Nat.lt_succ_self _⟩)

theorem exists_parsed (p : NalParser) (f : Nat → UInt8) {s n : Nat} (hle : s ≤ n) :
    ∃ res, (parseFrame p s (n - s)).run (.total f) = some res ∧ Outcome (.total f) s n p.buf res := by
  obtain ⟨res, hres⟩ := parseFrame_total p s (n - s) f
  have hout := parseFrame_spec hres
  rw [Nat.add_sub_cancel' hle] at hout
  exact ⟨res, hres, hout⟩

/-- A bound on the calls until `k` bytes are consumed: one that consumes none leaves
the buffer empty, and the next one does not stop there again. -/
def callsLeft (k : Nat) (b : List UInt8) : Nat := 2 * k + if b = [] then 0 else 1

theorem callsLeft_le (k : Nat) (b : List UInt8) : callsLeft k b ≤ 2 * k + 1 := by
  unfold callsLeft
  split <;> omega

/-- A call that returns a frame lowers it. -/
theorem callsLeft_lt {s q n : Nat} {b : List UInt8} (hsq : s ≤ q) (hqn : q ≤ n) (h : s < q ∨ b ≠ []) :
    callsLeft (n - q) [] < callsLeft (n - s) b := by
  rw [callsLeft, callsLeft, if_pos rfl]
  rcases Nat.eq_or_lt_of_le hsq with rfl | hlt
  · rw [if_neg (h.resolve_left (Nat.lt_irrefl s))]
    exact Nat.lt_succ_self _
  · omega

end DShow.Packetizer
