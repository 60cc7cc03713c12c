import DShowServer.Packetizer.Frame
import DShowServer.Packetizer.HeaderBits

/-!
# What a call reads behind its chunk

The search for the next start code goes four bytes too far, and headers are
parsed from what lies in memory. So a call that finds a start code reads behind
its chunk, unless it stops at a start code of the chunk and every header up to
that one lies in it (`reads_only_iff`); where it does not read behind the chunk,
its result does not depend on what lies there.
-/

namespace DShow.Packetizer

/-- The call reads the bytes of its chunk and no others. -/
def ReadsOnly (p : NalParser) (l : List UInt8) : Prop :=
  ∃ res, (parseFrame p 0 l.length).run (.ofList l) = some res

/-- The first start code from a position on. -/
def First (m : Memory) (pos q : Nat) : Prop := pos ≤ q ∧ Code m q ∧ ∀ r, pos ≤ r → r < q → ¬ Code m r

/-- From a position on, with the parameter sets `s` and `b` bytes in the buffer at
the start of the chunk, a call stops at a start code of the chunk, and every
header that it parses lies in it. -/
inductive Settles (l : List UInt8) (b : Nat) : Sets → Nat → Prop
  /-- The buffer would get too long. -/
  | full {s : Sets} {pos q : Nat} (first : First (.ofList l) pos q) (long : maxFrameSize < b + q) :
    Settles l b s pos
  /-- A frame begins. -/
  | frame {s s' : Sets} {pos q : Nat} (first : First (.ofList l) pos q) (fits : header l s q = some s')
    (bound : Boundary (.ofList l) l.length q) (more : 0 < b + q) : Settles l b s pos
  /-- The call goes on behind a start code. -/
  | next {s s' : Sets} {pos q : Nat} (first : First (.ofList l) pos q) (fits : header l s q = some s')
    (rest : Settles l b s' (q + 4)) : Settles l b s pos

/-! ## The search -/

section

variable {l : List UInt8}

theorem Code.lt_length {q : Nat} (h : Code (.ofList l) q) : q + 4 ≤ l.length :=
  (List.getElem?_eq_some_iff.mp h.2.2.2).1

/-- A byte is compared where there is one. -/
theorem check_ofList {a : Nat} {v : UInt8} {k : Probe Bool} (ha : a < l.length)
    (hk : ∃ b, k.run (.ofList l) = some b) :
    ∃ b, (Probe.byte a >>= fun x => if x = v then k else pure false).run (.ofList l) = some b := by
  refine Probe.exists_bind (List.getElem?_eq_getElem ha) ?_
  rw [Probe.run_ite]
  split
  · exact hk
  · exact ⟨false, rfl⟩

theorem isStartCode_ofList {a : Nat} (ha : a + 4 ≤ l.length) :
    ∃ b, (isStartCode a).run (.ofList l) = some b :=
  check_ofList (by omega) <| check_ofList (by omega) <| check_ofList (by omega) <|
    Probe.exists_bind (List.getElem?_eq_getElem (by omega)) ⟨_, rfl⟩

/-- A search reads the chunk alone if it ends before it gets to its last bytes. -/
theorem seekLoop_ofList {buf i n : Nat} (h : ∀ k, i ≤ k → k < i + n →
      (∀ j, i ≤ j → j < k → ¬ Code (.ofList l) (buf + j)) → buf + k + 4 ≤ l.length) :
    ∃ o, (seekLoop buf i n).run (.ofList l) = some o := by
  induction n generalizing i with
  | zero => exact ⟨none, rfl⟩
  | succ n ih =>
    obtain ⟨b, hb⟩ := isStartCode_ofList (h i (Nat.le_refl i) (by omega) fun j hj hlt => by omega)
    refine Probe.exists_bind hb ?_
    rw [Probe.run_ite]
    split
    · exact ⟨some i, rfl⟩
    · rename_i hcode
      refine ih fun k hk hlt hbefore => h k (by omega) (by omega) fun j hj hjk => ?_
      rcases Nat.eq_or_lt_of_le hj with rfl | hlt'
      · exact fun hc => hcode ((isStartCode_iff hb).mpr hc)
      · exact hbefore j hlt' hjk

/-- A search that finds nothing has read a byte at every position. -/
theorem seekLoop_reads {m : Memory} {buf i n : Nat} (h : (seekLoop buf i n).run m = some none) :
    ∀ k, i ≤ k → k < i + n → ∃ x, m (buf + k) = some x := by
  induction n generalizing i with
  | zero => intro k hk hlt; omega
  | succ n ih =>
    obtain ⟨b, hb, h⟩ := Probe.bind_eq_some.mp h
    rw [Probe.run_ite] at h
    split at h
    · cases h
    · intro k hk hlt
      rcases Nat.eq_or_lt_of_le hk with rfl | hlt'
      · obtain ⟨x, hx, -⟩ := Probe.bind_eq_some.mp hb
        exact ⟨x, hx⟩
      · exact ih h k hlt' (by omega)

theorem seekForNal_ofList {buf q len : Nat} (hfirst : First (.ofList l) buf q) (hlen : q + 4 ≤ buf + len) :
    (seekForNal buf len).run (.ofList l) = some (some (q - buf)) := by
  obtain ⟨hle, hcode, hbefore⟩ := hfirst
  have hend := hcode.lt_length
  obtain ⟨o, ho⟩ : ∃ o, (seekForNal buf len).run (.ofList l) = some o := by
    refine seekLoop_ofList fun k _ _ hk => ?_
    by_contra hlong
    refine hk (q - buf) (Nat.zero_le _) (by omega) ?_
    rwa [Nat.add_sub_cancel' hle]
  rw [ho]
  cases o with
  | none =>
    have := seekForNal_none ho (q - buf) (by omega)
    rw [Nat.add_sub_cancel' hle] at this
    exact absurd hcode this
  | some j =>
    obtain ⟨-, hj, hbefore'⟩ := seekForNal_some ho
    rcases Nat.lt_trichotomy (buf + j) q with hlt | heq | hgt
    · exact absurd hj (hbefore _ (Nat.le_add_right _ _) hlt)
    · rw [← heq, Nat.add_sub_cancel_left]
    · have := hbefore' (q - buf) (by omega)
      rw [Nat.add_sub_cancel' hle] at this
      exact absurd hcode this

/-! ## The rounds -/

variable {b : Nat} {p : NalParser} {inbuf search_offset : Nat} {copies : List (Nat × Nat)}

/-- What the search finds is the first start code. -/
theorem first_of_seek {inbuf len j : Nat} (h : (seekForNal inbuf len).run (.ofList l) = some (some j)) :
    First (.ofList l) inbuf (inbuf + j) := by
  obtain ⟨-, hcode, hbefore⟩ := seekForNal_some h
  refine ⟨Nat.le_add_right _ _, hcode, fun r hr hlt => ?_⟩
  have := hbefore (r - inbuf) (by omega)
  rwa [Nat.add_sub_cancel' hr] at this

/-- The header behind a start code, with the bytes in front of it copied. -/
theorem parseNal_copied {q r : Nat} {p' : NalParser} (hbuf : p.buf.length = b + inbuf) (hle : inbuf ≤ q)
    (hend : q + 4 ≤ l.length)
    (h : (parseNal { p with buf := p.buf ++ (Memory.ofList l).slice inbuf (q - inbuf) } (q + 4)
      (l.length - q)).run (.ofList l) = some (r, p')) :
    p'.buf.length = b + q ∧ (r = 1 ↔ Boundary (.ofList l) l.length q) ∧
      header l p.sets q = some p'.sets := by
  obtain ⟨hbuf', hres⟩ := parseNal_spec h
  refine ⟨?_, hres.trans (and_congr_left' (by omega)), ?_⟩
  · rw [hbuf', List.length_append, Memory.length_slice]
    omega
  · have := parseNal_sets { p with buf := p.buf ++ (Memory.ofList l).slice inbuf (q - inbuf) } hend
    rw [h] at this
    exact this.symm

theorem settles_of_run {fuel : Nat} {res : Parsed} (hbuf : p.buf.length = b + inbuf)
    (hoffset : search_offset = 0 ∧ inbuf = 0 ∨ search_offset = 4 ∧ inbuf + 4 ≤ l.length)
    (h : (frameLoop l.length fuel p inbuf inbuf search_offset copies).run (.ofList l) = some res) :
    (search_offset = 0 ∧ ∀ q, ¬ Code (.ofList l) q) ∨ Settles l b p.sets (inbuf + search_offset) := by
  induction fuel generalizing p inbuf search_offset copies with
  | zero => cases h
  | succ fuel ih =>
    cases frameLoop_cases h with
    | tail hseek =>
      rcases hoffset with ⟨rfl, rfl⟩ | ⟨rfl, hle⟩
      · refine .inl ⟨rfl, fun q hq => ?_⟩
        have := seekForNal_none hseek q hq.lt_length
        rw [Nat.add_zero, Nat.zero_add] at this
        exact this hq
      · -- the last round looks at the byte behind the chunk
        obtain ⟨x, hx⟩ := seekLoop_reads hseek (l.length - (inbuf + 4)) (Nat.zero_le _) (by omega)
        rw [Nat.add_sub_cancel' hle, show Memory.ofList l l.length = none from
          List.getElem?_eq_none (Nat.le_refl _)] at hx
        cases hx
    | full j hseek hlong =>
      exact .inr (.full (first_of_seek hseek) (by omega))
    | nal j r p' hseek hshort hnal hrest =>
      have hfirst := first_of_seek hseek
      generalize hq : inbuf + search_offset + j = q at hfirst
      have hend := hfirst.2.1.lt_length
      rw [show inbuf + (j + search_offset) = q by omega] at hnal hrest
      rw [show j + search_offset = q - inbuf by omega] at hnal
      obtain ⟨hlen, hbound, hfits⟩ := parseNal_copied hbuf (by omega) hend hnal
      refine .inr ?_
      split at hrest
      · rename_i hstop
        exact .frame hfirst hfits (hbound.mp hstop.1) (by omega)
      · rcases ih (p := { p' with last_nal_res := r }) hlen (.inr ⟨rfl, hend⟩) hrest with h0 | hsettles
        · exact absurd h0.1 (by decide)
        · exact .next hfirst hfits hsettles

/-- What a call that settles does at the next start code. -/
theorem Settles.first {s : Sets} {pos : Nat} (h : Settles l b s pos) : ∃ q, First (.ofList l) pos q ∧
    (maxFrameSize < b + q ∨ ∃ s', header l s q = some s' ∧
      (Boundary (.ofList l) l.length q ∧ 0 < b + q ∨ Settles l b s' (q + 4))) := by
  cases h with
  | full first long => exact ⟨_, first, .inl long⟩
  | frame first fits bound more => exact ⟨_, first, .inr ⟨_, fits, .inl ⟨bound, more⟩⟩⟩
  | next first fits rest => exact ⟨_, first, .inr ⟨_, fits, .inr rest⟩⟩

theorem run_of_settles {fuel : Nat} (hbuf : p.buf.length = b + inbuf)
    (hfuel : search_offset = 0 ∧ l.length - inbuf + 1 < fuel ∨ search_offset = 4 ∧ l.length - inbuf < fuel)
    (h : Settles l b p.sets (inbuf + search_offset)) :
    ∃ res, (frameLoop l.length fuel p inbuf inbuf search_offset copies).run (.ofList l) = some res := by
  induction fuel generalizing p inbuf search_offset copies with
  | zero => omega
  | succ fuel ih =>
    obtain ⟨q, hfirst, hcase⟩ := h.first
    have hle := hfirst.1
    have hend := hfirst.2.1.lt_length
    refine exists_frameLoop (seekForNal_ofList hfirst (by omega)) (fun h => by cases h) fun j hj hshort => ?_
    obtain rfl : q - (inbuf + search_offset) = j := Option.some.inj hj
    rw [show q - (inbuf + search_offset) + search_offset = q - inbuf by omega] at hshort ⊢
    rw [Nat.add_sub_cancel' (by omega : inbuf ≤ q)]
    obtain ⟨s', hfits, hcase⟩ := hcase.resolve_left (by omega)
    obtain ⟨front, hfront⟩ := Probe.bytes_ofList l (show inbuf + (q - inbuf) ≤ l.length by omega)
    have hsets := parseNal_sets { p with buf := p.buf ++ front } hend
    rw [show NalParser.sets { p with buf := p.buf ++ front } = p.sets from rfl, hfits] at hsets
    obtain ⟨⟨r, p'⟩, hnal, rfl⟩ := Option.map_eq_some_iff.mp hsets
    refine ⟨front, hfront, r, p', hnal, fun hgo => ?_⟩
    rw [Probe.bytes_eq_slice hfront] at hnal
    obtain ⟨hlen, hbound, -⟩ := parseNal_copied hbuf (by omega) hend hnal
    rcases hcase with ⟨hstop, hmore⟩ | hrest
    · exact absurd ⟨hbound.mpr hstop, by omega⟩ hgo
    · exact ih (p := { p' with last_nal_res := r }) hlen (.inr ⟨rfl, by omega⟩) hrest

/-- Without a start code the search ends with the chunk. -/
theorem run_of_not_code (p : NalParser) (hnone : ∀ q, ¬ Code (.ofList l) q) : ReadsOnly p l := by
  obtain ⟨o, ho⟩ : ∃ o, (seekForNal (0 + 0) (l.length - 0)).run (.ofList l) = some o :=
    seekLoop_ofList fun k _ hlt _ => by omega
  refine Probe.exists_bind ho ?_
  cases o with
  | none =>
    obtain ⟨rest, hrest⟩ := Probe.bytes_ofList l (show 0 + (l.length - 0) ≤ l.length by omega)
    exact Probe.exists_bind hrest ⟨_, rfl⟩
  | some j => exact absurd (seekForNal_some ho).2.1 (hnone _)

end

/-- A call reads its chunk alone exactly if there is no start code in it, or it stops
at one and every header up to it lies in the chunk; then its result and the state
of the parser are the same whatever lies behind the chunk. -/
theorem reads_only_iff (p : NalParser) (l : List UInt8) :
    (ReadsOnly p l ↔ (∀ q, ¬ Code (.ofList l) q) ∨ Settles l p.buf.length p.sets 0) ∧
    (ReadsOnly p l → ∃ res, ∀ after, (parseFrame p 0 l.length).run (.total (Memory.chunk l after)) = some res) := by
  refine ⟨⟨?_, ?_⟩, ?_⟩
  · rintro ⟨res, hres⟩
    exact (settles_of_run rfl (.inl ⟨rfl, rfl⟩) hres).imp_left And.right
  · rintro (hnone | h)
    · exact run_of_not_code p hnone
    · exact run_of_settles rfl (.inl ⟨rfl, Nat.lt_succ_self _⟩) h
  · rintro ⟨res, hres⟩
    exact ⟨res, fun after => (parseFrame p 0 l.length).mono (Memory.ofList_le l after) hres⟩

/-- Whether the byte behind this chunk begins a frame decides what the call returns. -/
theorem reads_behind : ¬ ReadsOnly (initParser .zero) [1, 0, 0, 0, 1] ∧
    ((parseFrame (initParser .zero) 0 5).run
      (.total (Memory.chunk [1, 0, 0, 0, 1] fun _ => 9))).map Parsed.ret_buf = some (some [1]) ∧
    ((parseFrame (initParser .zero) 0 5).run
      (.total (Memory.chunk [1, 0, 0, 0, 1] fun _ => 0))).map Parsed.ret_buf = some none := by
  refine ⟨fun ⟨res, hres⟩ => ?_, by decide +kernel, by decide +kernel⟩
  have hnone : ((parseFrame (initParser .zero) 0 5).run
      (.ofList [1, 0, 0, 0, 1])).map Parsed.parsed_len = none := by decide +kernel
  rw [show (parseFrame _ 0 5).run _ = some res from hres] at hnone
  cases hnone

end DShow.Packetizer
