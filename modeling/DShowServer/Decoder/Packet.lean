import DShowServer.Decoder.Reconnect

/-!
# A decode command and its packet

Every decode command takes the sample of the allocator twice, and does not look
whether it is there the first time. `Feed` is the little of the decoder that
decides it: whether it runs, how large its sample is, and how many references
the codec has kept. It follows from the commands and what the codec answers
alone, and says exactly which packets are received as they were sent
(`answered_iff`).
-/

namespace DShow.Decoder

open Pool Alloc DShow.Protocol Run

/-! ## What there is to decode with -/

/-- What stays the same from the start: the size of the pictures, whether the codec has accepted
the format, and how large a new sample is. -/
structure Fixed where
  width : Nat
  height : Nat
  offered : Bool
  size : Int

/-- Whether the decoder runs; the size of its sample and the references that the codec has kept. -/
structure Feed where
  running : Bool
  sample : Option (Int × Nat)

namespace Feed

/-- After a reload all of whose connections are made, a decoder that ran has a new sample, if
there was memory for it; `none` where there was none for its block. -/
def restarted (k : Fixed) (blocks : List Nat) : Option Feed :=
  match blocks.head? with
  | none => some ⟨true, none⟩
  | some block => if block = 0 then none else some ⟨true, some (k.size, 0)⟩

def step (k : Fixed) (f : Feed) : Command → Option Feed
  | .decode _ src ans => f.sample.map fun (size, _) =>
      { f with sample := some (max size src.length, ans.keeps) }
  | .seek => some f
  | .reloadBih format ans =>
    if wrap32 format.header.biWidth ≠ k.width ∨ wrap32 format.header.biHeight ≠ k.height then some f
    else if format.ourType = none then none
    else if ¬ (k.offered ∧ ans.queryAccept) ∨ ¬ f.running then some f
    else if ans.connects then restarted k ans.blocks
    else some ⟨false, none⟩
  | .codecRelease =>
    match f.sample with
    | some (size, kept + 1) => some { f with sample := some (size, kept) }
    | _ => none

/-- There is a sample that the codec has given back, and the packet fits or there is memory for
it. -/
def Fed (f : Feed) : Command → Prop
  | .decode _ src ans =>
    match f.sample with
    | some (size, 0) => src.length < 2 ^ 31 ∧ (src.length ≤ size ∨ ans.block ≠ 0)
    | _ => False
  | _ => True

instance (f : Feed) (c : Command) : Decidable (f.Fed c) := by
  unfold Fed
  split
  · split <;> infer_instance
  · infer_instance

end Feed

namespace Server

/-- The command is answered: a packet is received as it was sent, or the reply is -1. -/
def Answered (s : Server) : Command → Prop
  | .decode pts src ans =>
    match s.decode pts src ans with
    | none => False
    | some (r, _) => ∀ received ∈ r,
      received.data = src ∧ received.actual_size = src.length ∧ received.time_start = pts
  | _ => True

instance (s : Server) (c : Command) : Decidable (s.Answered c) := by
  unfold Answered
  split
  · split <;> infer_instance
  · infer_instance

def fixed (s : Server) : Fixed where
  width := s.width
  height := s.height
  offered := shouldTest s.dshowdec.m_Caps s.fmt
  size := Allocator.bufferSize s.dshowdec.m_obh.header.biSizeImage

def feed (s : Server) : Feed where
  running := s.dshowdec.m_State = .start
  sample := s.dshowdec.m_pDS_Filter.m_pAll.bind Allocator.sample

/-- The allocator has this sample, or none. -/
def Supplies (all : Option Allocator) : Option (Int × Nat) → Prop
  | none => ∀ a ∈ all, At a.alloc .empty
  | some (size, kept) => ∃ a p, all = some a ∧ a.Holds p size kept

/-- A state and an allocator that come to `f`; a decoder that is stopped has no sample. -/
structure Feeds (p : DecodingState × Option Allocator) (f : Feed) : Prop where
  state_eq : p.1 = if f.running then .start else .stop
  stopped : f.running = false → f.sample = none
  supplies : Supplies p.2 f.sample

/-- `f` is what there is to decode with. -/
structure Follows (k : Fixed) (s : Server) (f : Feed) : Prop where
  alive : s.exited = false
  fixed_eq : s.fixed = k
  requested_eq : (requested s.dshowdec.m_obh (int32 s.bits) s.fmt).2 = s.dshowdec.m_obh
  feeds : Feeds s.dshowdec.supply f

variable {k : Fixed} {s s' : Server} {f : Feed}

/-! ## A packet -/

/-- A packet that is fed is received as it was sent. -/
theorem Follows.decode (h : Follows k s f) {pts : BitVec 64} {src : List UInt8} {ans : DecodeAnswer}
    (hf : f.Fed (.decode pts src ans)) : ∃ disc s' f', s.decode pts src ans =
      some (some ⟨src, src.length, pts, disc⟩, s') ∧ f.step k (.decode pts src ans) = some f' ∧
      Follows k s' f' := by
  obtain ⟨running, sample⟩ := f
  match sample with
  | none => exact hf.elim
  | some (_, _ + 1) => exact hf.elim
  | some (size, 0) =>
    obtain ⟨all, p, hall, hh⟩ := h.feeds.supplies
    change s.dshowdec.m_pDS_Filter.m_pAll = some all at hall
    obtain ⟨a₁, e₁, h₁, ht⟩ := hh.setPts pts
    obtain ⟨a₂, e₂, h₂⟩ := h₁.decodeInternal s.dshowdec.discontinuity hf.1 hf.2
    simp only [Server.decode, DsVideoDecoder.decode, hall, e₁, e₂, ht, Option.bind_eq_bind,
      Option.bind_some, Option.pure_def]
    refine ⟨_, _, _, rfl, rfl, rfl, h.fixed_eq, h.requested_eq, h.feeds.state_eq, fun hr => ?_, a₂, p, rfl, h₂⟩
    cases h.feeds.stopped hr

/-- One that is not goes through `NULL`, or is received with a length that is not its own. -/
theorem Follows.not_answered (h : Follows k s f) {pts : BitVec 64} {src : List UInt8} {ans : DecodeAnswer}
    (hf : ¬ f.Fed (.decode pts src ans)) : ¬ s.Answered (.decode pts src ans) := by
  obtain ⟨running, sample⟩ := f
  have hsup : Supplies s.dshowdec.m_pDS_Filter.m_pAll sample := h.feeds.supplies
  simp only [Answered, Server.decode, DsVideoDecoder.decode, Option.bind_eq_bind, Option.pure_def]
  match sample with
  | none =>
    cases hall : s.dshowdec.m_pDS_Filter.m_pAll with
    | none => exact id
    | some all =>
      have hat : At all.alloc .empty := hsup all hall
      simp [Allocator.setPts_none hat (by simp)]
  | some (size, kept + 1) =>
    obtain ⟨all, p, hall, hh⟩ := hsup
    simp [hall, Allocator.setPts_none (Allocator.HasSample.lists hh) (by simp)]
  | some (size, 0) =>
    obtain ⟨all, p, hall, hh⟩ := hsup
    obtain ⟨a₁, e₁, h₁, -⟩ := hh.setPts pts
    simp only [hall, Option.bind_some, e₁]
    cases e₂ : a₁.decodeInternal s.dshowdec.discontinuity src ans with
    | none => exact id
    | some r =>
      obtain ⟨r, a'⟩ := r
      obtain ⟨received, rfl, hact⟩ := h₁.actual_size_eq e₂
      intro hr
      obtain ⟨-, hlen, -⟩ := hr received rfl
      have hlen : src.length < 2 ^ 31 := by
        rw [hact, int32, Int.bmod] at hlen
        omega
      have hno : ¬ (src.length ≤ size ∨ ans.block ≠ 0) := fun hb => hf ⟨hlen, hb⟩
      push Not at hno
      cases (h₁.decodeInternal_none _ hlen hno.1 hno.2).symm.trans e₂

theorem Follows.answered_iff_fed (h : Follows k s f) (c : Command) : s.Answered c ↔ f.Fed c := by
  cases c with
  | decode pts src ans =>
    refine ⟨fun ha => not_imp_comm.mp h.not_answered (not_not_intro ha), fun hf => ?_⟩
    obtain ⟨disc, s', -, e, -⟩ := h.decode hf
    rw [Answered, e]
    rintro _ ⟨⟩
    exact ⟨rfl, rfl, rfl⟩
  | _ => exact Iff.rfl

/-! ## The other commands -/

theorem supplies_create (n : Int) : Supplies (some (.create n)) none := by
  rintro a ⟨⟩
  exact Allocator.create_at n

/-- A decoder that is stopped has no sample, whatever becomes of its connections. -/
theorem supplies_unconnected {d : DsVideoDecoder} {ans : FormatAnswer} {n : Int}
    (h : d.m_State = .start ∨ Supplies d.m_pDS_Filter.m_pAll none) :
    Supplies (d.unconnected ans n) none := by
  have hnone : Supplies none none := fun _ h => by cases h
  simp only [DsVideoDecoder.unconnected]
  split
  · split
    · exact hnone
    · rename_i hs
      exact h.resolve_left hs
  · split
    · exact hnone
    · exact supplies_create n

/-- A change of the format, by what it does to the state and to the allocator. -/
theorem Follows.setDestFmt (h : Follows k s f) {d : DsVideoDecoder} (hcaps : d.m_Caps = s.dshowdec.m_Caps)
    (hobh : d.m_obh = s.dshowdec.m_obh) {ans : FormatAnswer} {p : Option (DecodingState × Option Allocator)}
    {x : Option Feed} (hp : (d.setDestFmt (int32 s.bits) s.fmt ans).map (fun r => r.2.2.supply) = p)
    (hx : Option.Rel Feeds p x) : Option.Rel (Follows k)
      ((d.setDestFmt (int32 s.bits) s.fmt ans).map fun r => { s with dshowdec := r.2.2 }) x := by
  subst hp
  cases hr : d.setDestFmt (int32 s.bits) s.fmt ans with
  | none =>
    rw [hr] at hx
    cases hx
    exact .none
  | some r =>
    obtain ⟨ok, calls, d'⟩ := r
    rw [hr] at hx
    obtain ⟨-, hcaps', -, hobh'⟩ := DsVideoDecoder.setDestFmt_keeps hr
    rw [hobh, h.requested_eq] at hobh'
    rw [hcaps] at hcaps'
    obtain ⟨hfeeds⟩ := hx
    refine .some ⟨h.alive, ?_, ?_, hfeeds⟩
    · rw [← h.fixed_eq]
      simp only [fixed, hcaps', hobh']
    · simp only [hobh', h.requested_eq]

/-- A new allocator, once there is memory for its sample. -/
theorem Feeds.restarted {n : Int} (hsize : k.size = Allocator.bufferSize n) (blocks : List Nat) :
    Option.Rel Feeds (((Allocator.create n).commit blocks).map fun a => (.start, some a))
      (Feed.restarted k blocks) := by
  rw [Feed.restarted, hsize]
  obtain ⟨hc, hb⟩ | ⟨a, hc, hb, ha⟩ := Allocator.commit_create n blocks
  · rw [hc, hb]
    exact .none
  · rw [hc]
    cases hhead : blocks.head? with
    | none =>
      rw [hhead] at ha
      refine .some ⟨rfl, fun _ => rfl, ?_⟩
      rintro _ ⟨⟩
      exact ha
    | some block =>
      rw [hhead] at ha hb
      simp only
      rw [if_neg (by simpa using hb)]
      exact .some ⟨rfl, (fun h => by cases h), a, 1, rfl, ha⟩

/-- A reload of the old size, once the input type is set. -/
theorem Follows.reload (h : Follows k s f) {d : DsVideoDecoder} (hcaps : d.m_Caps = s.dshowdec.m_Caps)
    (hobh : d.m_obh = s.dshowdec.m_obh) (hsupply : d.supply = s.dshowdec.supply) (ans : FormatAnswer) :
    Option.Rel (Follows k)
      ((d.setDestFmt (int32 s.bits) s.fmt ans).map fun r => { s with dshowdec := r.2.2 })
      (if ¬ (k.offered ∧ ans.queryAccept) ∨ ¬ f.running then some f
        else if ans.connects then Feed.restarted k ans.blocks else some ⟨false, none⟩) := by
  refine h.setDestFmt hcaps hobh (d.setDestFmt_supply _ _ _) ?_
  have hacc : d.accepts s.fmt ans ↔ k.offered ∧ ans.queryAccept := by
    rw [← h.fixed_eq]
    simp only [DsVideoDecoder.accepts, hcaps, fixed, Bool.and_eq_true]
  have hsize : k.size = Allocator.bufferSize s.dshowdec.m_obh.header.biSizeImage := by
    rw [← h.fixed_eq]
    rfl
  have hfeeds := h.feeds
  rw [← hsupply] at hfeeds
  obtain ⟨hstate, hstopped, hsup⟩ := id hfeeds
  change d.m_State = _ at hstate
  change Supplies d.m_pDS_Filter.m_pAll _ at hsup
  simp only [hacc, hobh, h.requested_eq]
  by_cases h₁ : k.offered ∧ ans.queryAccept
  · rw [if_neg (not_not_intro h₁)]
    cases hr : f.running with
    | false =>
      rw [hr, if_neg (by simp)] at hstate
      have hno : ¬ (ans.connects ∧ d.m_State = .start) := by simp [hstate]
      rw [if_neg hno, if_pos (.inr (by simp))]
      refine .some ⟨by rw [hr]; rfl, hstopped, ?_⟩
      rw [hstopped hr] at hsup ⊢
      exact supplies_unconnected (.inr hsup)
    | true =>
      rw [hr, if_pos rfl] at hstate
      have hno : ¬ (¬ (k.offered ∧ ans.queryAccept) ∨ ¬ true = true) := by simp [h₁]
      rw [if_neg hno]
      by_cases hc : ans.connects
      · rw [if_pos ⟨hc, hstate⟩, if_pos hc]
        exact Feeds.restarted hsize ans.blocks
      · rw [if_neg fun h => hc h.1, if_neg hc]
        exact .some ⟨rfl, fun _ => rfl, supplies_unconnected (.inl hstate)⟩
  · rw [if_pos h₁, if_pos (.inl h₁)]
    exact .some hfeeds

theorem Follows.reloadBih (h : Follows k s f) (format : InputFormat) (ans : FormatAnswer) :
    Option.Rel (Follows k) ((s.reloadBih format ans).map fun r => r.2.2)
      (f.step k (.reloadBih format ans)) := by
  have hsize : s.otherSize format ↔
      wrap32 format.header.biWidth ≠ k.width ∨ wrap32 format.header.biHeight ≠ k.height := by
    rw [← h.fixed_eq]
    rfl
  simp only [Server.reloadBih, Feed.step, ← hsize]
  by_cases hs : s.otherSize format
  · rw [if_pos hs, if_pos hs]
    exact .some h
  rw [if_neg hs, if_neg hs]
  cases hour : format.ourType with
  | none => simp [DsVideoDecoder.setInputType, hour]
  | some ourType =>
    have := h.reload (d := { s.dshowdec with m_bh := format.stored, m_sOurType := ourType })
      rfl rfl rfl ans
    rw [if_neg (by simp)]
    simp only [DsVideoDecoder.setInputType, hour, Option.map_some, Option.bind_eq_bind,
      Option.bind_some, Option.map_bind]
    cases hr : DsVideoDecoder.setDestFmt
        { s.dshowdec with m_bh := format.stored, m_sOurType := ourType } (int32 s.bits) s.fmt ans with
    | none => rw [hr] at this; exact this
    | some r => rw [hr] at this; exact this

theorem Follows.codecRelease (h : Follows k s f) : Option.Rel (Follows k)
    (s.dshowdec.codecRelease.map fun d => { s with dshowdec := d }) (f.step k .codecRelease) := by
  obtain ⟨running, sample⟩ := f
  have hsup : Supplies s.dshowdec.m_pDS_Filter.m_pAll sample := h.feeds.supplies
  match sample with
  | none =>
    have hnone : s.dshowdec.codecRelease = none := by
      cases hall : s.dshowdec.m_pDS_Filter.m_pAll with
      | none => simp [DsVideoDecoder.codecRelease, hall]
      | some all =>
        have hat : At all.alloc .empty := hsup all hall
        simp [DsVideoDecoder.codecRelease, hall, hat.within_eq, Place.toList]
    rw [hnone]
    exact .none
  | some (size, 0) =>
    obtain ⟨all, p, hall, hh⟩ := hsup
    have hnone : s.dshowdec.codecRelease = none := by
      simp [DsVideoDecoder.codecRelease, hall, hh.find_held]
    rw [hnone]
    exact .none
  | some (size, kept + 1) =>
    obtain ⟨all, p, hall, hh⟩ := hsup
    obtain ⟨b, e, hh'⟩ := hh.sampleRelease
    simp only [DsVideoDecoder.codecRelease, hall, hh.find_held, e, Option.bind_eq_bind,
      Option.bind_some, Option.pure_def, Option.map_some, Nat.succ_ne_zero, if_false]
    refine .some ⟨h.alive, h.fixed_eq, h.requested_eq, h.feeds.state_eq, fun hr => ?_, _, p, rfl, hh'⟩
    cases h.feeds.stopped hr

/-- A command that is fed does to the server what it does to `f`. -/
theorem Follows.step (h : Follows k s f) {c : Command} (hf : f.Fed c) :
    Option.Rel (Follows k) (s.serve c) (f.step k c) := by
  unfold Server.serve
  rw [if_neg (by rw [h.alive]; simp)]
  cases c with
  | decode pts src ans =>
    obtain ⟨disc, s', f', e, e', h'⟩ := h.decode hf
    show Option.Rel _ ((s.decode pts src ans).map _) _
    rw [e, e']
    exact .some h'
  | seek => exact .some ⟨h.alive, h.fixed_eq, h.requested_eq, h.feeds⟩
  | reloadBih format ans => exact h.reloadBih format ans
  | codecRelease => exact h.codecRelease

/-! ## Runs -/

/-- A decoder that runs, with the sample that `Commit` made. -/
theorem Feeds.started {a : Allocator} {n : Int} {blocks : List Nat}
    (ha : match blocks.head? with
      | none => At a.alloc .empty
      | some _ => a.Holds 1 (Allocator.bufferSize n) 0) : Feeds (.start, some a) ⟨true, a.sample⟩ := by
  refine ⟨rfl, fun h => (by cases h), ?_⟩
  cases hhead : blocks.head? with
  | none =>
    rw [hhead] at ha
    show Supplies (some a) a.sample
    rw [Allocator.sample_empty ha]
    rintro _ ⟨⟩
    exact ha
  | some block =>
    rw [hhead] at ha
    have hh : a.Holds 1 (Allocator.bufferSize n) 0 := ha
    show Supplies (some a) a.sample
    rw [hh.sample_eq]
    exact ⟨a, 1, rfl, hh⟩

/-- What the server has when it is started. -/
theorem start_follows {width height bits fmt : Nat} {format : InputFormat} {opened : OpenAnswer}
    {ans : FormatAnswer} (h : Server.start width height bits fmt format opened ans = some s) :
    Follows s.fixed s s.feed := by
  simp only [Server.start, Option.bind_eq_bind, Option.bind_eq_some_iff, Option.pure_def,
    Option.some.injEq] at h
  obtain ⟨d₁, ho, ⟨ok, calls, d₂⟩, hd, ⟨run, d₃⟩, hs, rfl⟩ := h
  obtain ⟨hstop, -, n₁, hall₁⟩ := DsVideoDecoder.openDecoder_filter ho
  have hobh : d₃.m_obh = (requested d₁.m_obh (int32 bits) fmt).2 :=
    (DsVideoDecoder.startInternal_rewired hs).keeps.obh.trans (DsVideoDecoder.setDestFmt_keeps hd).2.2.2
  refine ⟨rfl, rfl, ?_, ?_⟩
  · show (requested d₃.m_obh (int32 bits) fmt).2 = d₃.m_obh
    rw [hobh, requested_requested]
  have hnew := DsVideoDecoder.setDestFmt_new hstop (by rw [hall₁]; rintro _ ⟨⟩; exact ⟨_, rfl⟩) hd
  simp only [DsVideoDecoder.startInternal, Option.bind_eq_bind, Option.bind_eq_some_iff, Option.pure_def,
    Option.some.injEq, Prod.mk.injEq] at hs
  obtain ⟨all, hall, a, hcommit, -, rfl⟩ := hs
  obtain ⟨n, rfl⟩ := hnew all hall
  obtain ⟨hc, -⟩ | ⟨a', hc, -, ha⟩ := Allocator.commit_create n ans.blocks
  · cases hc.symm.trans hcommit
  cases hc.symm.trans hcommit
  exact Feeds.started ha

end Server

end DShow.Decoder
