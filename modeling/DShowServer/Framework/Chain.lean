import DShowServer.Framework.Keyed
import DShowServer.Framework.Linked

/-!
# Lists that end at `NULL` both ways

A chain is a list of nodes of which the program keeps the newest: `prev` leads from
it to the oldest, `next` back. A node goes in at the new end (`push`), is searched
for from there (`find`) and is taken out wherever it is (`unlink`, `unlinkPrev`). `Represents` says
that the nodes hold the values of a list, and each of the three does to that list
what its name says.
-/

namespace DShow

structure ChainNode (β : Type*) where
  value : β
  prev : Nat
  next : Nat

/-- The nodes, and the address of the newest. -/
structure Chain (β : Type*) where
  nodes : Store (ChainNode β)
  newest : Nat

namespace Chain

variable {β : Type*}

def empty : Chain β := ⟨.empty, 0⟩

/-- A new node behind the newest, which it leads back to. -/
def push (s : Chain β) (v : β) : Option (Nat × Chain β) :=
  let (t, nodes) := s.nodes.alloc ⟨v, s.newest, 0⟩
  if s.newest = 0 then some (t, ⟨nodes, t⟩)
  else (nodes.modify s.newest fun c => { c with next := t }).map fun nodes => (t, ⟨nodes, t⟩)

/-- The search for a value from the node `t` on; as it ends, it meets fewer nodes than there
are addresses. -/
def findFrom (nodes : Store (ChainNode β)) (p : β → Bool) : Nat → Nat → Option Nat
  | 0, _ => none
  | room + 1, t =>
    if t = 0 then some 0
    else (nodes.read t).bind fun c => if p c.value then some t else findFrom nodes p room c.prev

/-- The address of the newest value of a kind, or 0. -/
def find (s : Chain β) (p : β → Bool) : Option Nat := findFrom s.nodes p s.nodes.top s.newest

/-- The search the other way, along `next`. -/
def findNextFrom (nodes : Store (ChainNode β)) (p : β → Bool) : Nat → Nat → Option Nat
  | 0, _ => none
  | room + 1, t =>
    if t = 0 then some 0
    else (nodes.read t).bind fun c => if p c.value then some t else findNextFrom nodes p room c.next

def findNext (s : Chain β) (p : β → Bool) : Option Nat := findNextFrom s.nodes p (s.nodes.top + 1) s.newest

/-- A node taken out: its neighbours are linked to each other. -/
def unlink (s : Chain β) (t : Nat) : Option (Chain β) := do
  let c ← s.nodes.read t
  let nodes ← (if c.next ≠ 0 then s.nodes.modify c.next fun n => { n with prev := c.prev }
    else some s.nodes)
  let c ← nodes.read t
  let nodes ← (if c.prev ≠ 0 then nodes.modify c.prev fun p => { p with next := c.next }
    else some nodes)
  let c ← nodes.read t
  let nodes ← nodes.free t
  pure ⟨nodes, if s.newest = t then c.prev else s.newest⟩

/-- The same with the older neighbour first. -/
def unlinkPrev (s : Chain β) (t : Nat) : Option (Chain β) := do
  let c ← s.nodes.read t
  let nodes ← (if c.prev ≠ 0 then s.nodes.modify c.prev fun p => { p with next := c.next }
    else some s.nodes)
  let c ← nodes.read t
  let nodes ← (if c.next ≠ 0 then nodes.modify c.next fun n => { n with prev := c.prev }
    else some nodes)
  let c ← nodes.read t
  let nodes ← nodes.free t
  pure ⟨nodes, if s.newest = t then c.prev else s.newest⟩

/-- The value of a node changed. -/
def setValue (s : Chain β) (t : Nat) (f : β → β) : Option (Chain β) :=
  (s.nodes.modify t fun c => { c with value := f c.value }).map fun nodes => ⟨nodes, s.newest⟩

/-- The value of a node. -/
def value (s : Chain β) (t : Nat) : Option β := (s.nodes.read t).map ChainNode.value

/-- The nodes from `t` on along `prev`. -/
def walkFrom (nodes : Store (ChainNode β)) : Nat → Nat → Option (List (Nat × β))
  | 0, _ => none
  | room + 1, t =>
    if t = 0 then some []
    else do
      let c ← nodes.read t
      let rest ← walkFrom nodes room c.prev
      pure ((t, c.value) :: rest)

/-- The list from the newest node through `prev`. -/
def walk (s : Chain β) : Option (List (Nat × β)) := walkFrom s.nodes s.nodes.top s.newest

/-- From where the links of a node lead, the other link leads back to it. -/
def LinkedBack (s : Chain β) (a : Nat) : Prop := ∃ c, s.nodes.read a = some c ∧
  (c.prev ≠ 0 → ∃ d, s.nodes.read c.prev = some d ∧ d.next = a) ∧
  (c.next ≠ 0 → ∃ d, s.nodes.read c.next = some d ∧ d.prev = a)

/-! ## The list they hold -/

/-- The links of a node, of which `prev` leads on. -/
def links : Links (ChainNode β) β where
  cell v prev next := ⟨v, prev, next⟩
  next c := c.prev
  setNext p c := { c with prev := p }
  setPrev n c := { c with next := n }
  next_cell _ _ _ := rfl
  setNext_cell _ _ _ _ := rfl
  setPrev_cell _ _ _ _ := rfl

/-- The nodes from the newest on are those of a list. -/
structure Holds (s : Chain β) (l : List (Nat × β)) : Prop where
  newest : s.newest = Links.first 0 l
  seg : links.Seg s.nodes 0 0 l
  nodup : (l.map Prod.fst).Nodup

/-- The values of the nodes, the newest first. -/
def Represents (s : Chain β) (l : List β) : Prop := ∃ cells, s.Holds cells ∧ cells.map Prod.snd = l

variable {s s' : Chain β} {st : Store (ChainNode β)} {a next prev : Nat} {v : β} {p : β → Bool}
  {l l₁ l₂ : List (Nat × β)}

theorem Holds.length_lt (h : s.Holds l) : l.length < s.nodes.top := h.seg.length_lt h.nodup

theorem Holds.newest_eq_zero (h : s.Holds l) : s.newest = 0 ↔ l = [] := by
  rw [h.newest]
  cases l with
  | nil => exact ⟨fun _ => rfl, fun _ => rfl⟩
  | cons x l => exact ⟨fun h0 => absurd h0 (Store.ne_zero_of_read h.seg.1), fun h0 => nomatch h0⟩

theorem Holds.push (h : s.Holds l) (v : β) :
    ∃ s', s.push v = some (s.nodes.top, s') ∧ s'.Holds ((s.nodes.top, v) :: l) := by
  have hnew : s.nodes.top ∉ l.map Prod.fst := fun hm => Nat.lt_irrefl _ (h.seg.lt_top hm)
  have htop : (s.nodes.alloc ⟨v, s.newest, 0⟩).2.read s.nodes.top = some ⟨v, Links.first 0 l, 0⟩ := by
    rw [Store.read_alloc, if_pos rfl, h.newest]
  have hold : ∀ b ∈ l.map Prod.fst, (s.nodes.alloc ⟨v, s.newest, 0⟩).2.read b = s.nodes.read b :=
    fun b hb => by rw [Store.read_alloc, if_neg fun e => hnew (by rw [← e]; exact hb)]
  unfold Chain.push
  cases l with
  | nil => exact ⟨_, if_pos h.newest, rfl, ⟨htop, trivial⟩, List.nodup_singleton _⟩
  | cons x l =>
    have hx : x.1 ≠ s.nodes.top := fun e => hnew (e ▸ List.mem_cons_self)
    have hread := (hold x.1 List.mem_cons_self).trans h.seg.1
    obtain ⟨nodes, hmod, hr⟩ := Store.exists_modify_map hread fun c => { c with next := s.nodes.top }
    have hne : s.newest ≠ 0 := h.newest ▸ Store.ne_zero_of_read h.seg.1
    refine ⟨⟨nodes, s.nodes.top⟩, ?_, rfl, ⟨?_, ?_⟩, List.nodup_cons.mpr ⟨hnew, h.nodup⟩⟩
    · dsimp only [Store.alloc_fst]
      rw [if_neg hne, show s.newest = x.1 from h.newest]
      rw [show s.newest = x.1 from h.newest] at hmod
      exact congrArg (Option.map _) hmod
    · rw [hr, if_neg (Ne.symm hx)]
      exact htop
    · refine h.seg.set_prev h.nodup s.nodes.top fun b hb => ?_
      rw [hr, hold b hb]
      rfl

theorem findFrom_eq {room : Nat} (hs : links.Seg st 0 next l) (hr : l.length < room) (p : β → Bool) :
    findFrom st p room (Links.first 0 l) = some (((l.find? fun x => p x.2).map Prod.fst).getD 0) := by
  induction l generalizing next room with
  | nil =>
    obtain ⟨r, rfl⟩ := Nat.exists_eq_succ_of_ne_zero (Nat.ne_of_gt hr)
    rfl
  | cons x l ih =>
    obtain ⟨r, rfl⟩ := Nat.exists_eq_succ_of_ne_zero (Nat.ne_of_gt (Nat.lt_of_le_of_lt (Nat.zero_le _) hr))
    rw [Links.first, findFrom, if_neg (Store.ne_zero_of_read hs.1), hs.1, Option.bind_some]
    by_cases hx : p x.2 = true
    · rw [List.find?_cons_of_pos (p := fun x : Nat × β => p x.2) hx]
      exact if_pos hx
    · rw [List.find?_cons_of_neg (p := fun x : Nat × β => p x.2) hx]
      exact (if_neg hx).trans (ih hs.2 (Nat.lt_of_succ_lt_succ hr))

theorem Holds.find (h : s.Holds l) (p : β → Bool) :
    s.find p = some (((l.find? fun x => p x.2).map Prod.fst).getD 0) := by
  rw [Chain.find, h.newest]
  exact findFrom_eq h.seg h.length_lt p

theorem links_first_append : Links.first a (l₁ ++ l₂) = Links.first (Links.first a l₂) l₁ := by
  cases l₁ <;> rfl

theorem seg_append : links.Seg st prev next (l₁ ++ l₂) ↔
    links.Seg st (Links.first prev l₂) next l₁ ∧ links.Seg st prev (Links.last next l₁) l₂ := by
  induction l₁ generalizing next with
  | nil => simp [Links.Seg, Links.last]
  | cons x l₁ ih => simp only [List.cons_append, Links.Seg, Links.last, ih, links_first_append, and_assoc]

theorem exists_modify_ne_zero {q : Nat} (hq : q = 0 ∨ ∃ c, st.read q = some c)
    (f : ChainNode β → ChainNode β) : ∃ st', (if q ≠ 0 then st.modify q f else some st) = some st' ∧
      ∀ b, st'.read b = if b = q then (st.read b).map f else st.read b := by
  by_cases hz : q = 0
  · refine ⟨st, if_neg (not_not_intro hz), fun b => ?_⟩
    split
    · rename_i hb
      rw [hb, hz, Store.read_zero]
      rfl
    · rfl
  · obtain ⟨c, hc⟩ := hq.resolve_left hz
    obtain ⟨st', hst, hr⟩ := Store.exists_modify_map hc f
    exact ⟨st', (if_pos hz).trans hst, hr⟩

theorem first_mem_or (l : List (Nat × β)) : Links.first 0 l = 0 ∨ Links.first 0 l ∈ l.map Prod.fst := by
  cases l with
  | nil => exact .inl rfl
  | cons x l => exact .inr List.mem_cons_self

theorem last_mem_or (l : List (Nat × β)) : Links.last 0 l = 0 ∨ Links.last 0 l ∈ l.map Prod.fst := by
  by_cases hl : l = []
  · subst hl; exact .inl rfl
  · exact .inr (Links.last_mem hl)

/-- An address that is not of the list is neither its first nor its last. -/
theorem ne_first (h0 : a ≠ 0) (ha : a ∉ l.map Prod.fst) : a ≠ Links.first 0 l := fun e =>
  (first_mem_or l).elim (fun hz => h0 (e.trans hz)) fun hm => ha (e ▸ hm)

theorem ne_last (h0 : a ≠ 0) (ha : a ∉ l.map Prod.fst) : a ≠ Links.last 0 l := fun e =>
  (last_mem_or l).elim (fun hz => h0 (e.trans hz)) fun hm => ha (e ▸ hm)

/-- The nodes that are left of a list, once the neighbours of one are linked to each other. -/
theorem Holds.unlinked (h : s.Holds (l₁ ++ (a, v) :: l₂)) (h₁ : ∀ b, b ≠ a → b ≠ Links.first 0 l₂ →
      st.read b = if b = Links.last 0 l₁ then (s.nodes.read b).map (links.setNext (Links.first 0 l₂))
        else s.nodes.read b)
    (h₂ : ∀ b, b ≠ a → b ≠ Links.last 0 l₁ →
      st.read b = if b = Links.first 0 l₂ then (s.nodes.read b).map (links.setPrev (Links.last 0 l₁))
        else s.nodes.read b) :
    Holds ⟨st, if s.newest = a then Links.first 0 l₂ else s.newest⟩ (l₁ ++ l₂) := by
  obtain ⟨hs₁, -, hs₂⟩ := seg_append.mp h.seg
  have hn := h.nodup
  simp only [List.map_append, List.map_cons, List.nodup_append, List.nodup_cons] at hn
  obtain ⟨hn₁, ⟨ha₂, hn₂⟩, hdisj⟩ := hn
  have ha₁ : a ∉ l₁.map Prod.fst := fun hm => hdisj a hm a List.mem_cons_self rfl
  refine ⟨?_, seg_append.mpr ⟨hs₁.set_next hn₁ _ fun b hb => ?_, hs₂.set_prev hn₂ _ fun b hb => ?_⟩, ?_⟩
  · dsimp only
    rw [h.newest, links_first_append, links_first_append]
    cases l₁ with
    | nil => exact if_pos rfl
    | cons x l₁ => exact if_neg fun e => ha₁ (by rw [← show x.1 = a from e]; exact List.mem_cons_self)
  · refine h₁ b (fun e => ha₁ (by rw [← e]; exact hb)) ?_
    exact ne_first (hs₁.ne_zero hb) fun hm => hdisj b hb b (.tail _ hm) rfl
  · refine h₂ b (fun e => ha₂ (by rw [← e]; exact hb)) ?_
    exact ne_last (hs₂.ne_zero hb) fun hm => hdisj b hm b (.tail _ hb) rfl
  · rw [List.map_append, List.nodup_append]
    exact ⟨hn₁, hn₂, fun b hb c hc => hdisj b hb c (.tail _ hc)⟩

/-- A node of a list; its neighbours are nodes other than it, where there are any. -/
theorem Holds.neighbours (h : s.Holds (l₁ ++ (a, v) :: l₂)) :
    s.nodes.read a = some ⟨v, Links.first 0 l₂, Links.last 0 l₁⟩ ∧
      (Links.first 0 l₂ = 0 ∨ ∃ c, s.nodes.read (Links.first 0 l₂) = some c) ∧
      (Links.last 0 l₁ = 0 ∨ ∃ c, s.nodes.read (Links.last 0 l₁) = some c) ∧
      a ≠ Links.first 0 l₂ ∧ a ≠ Links.last 0 l₁ := by
  obtain ⟨h₁, hread, h₂⟩ := seg_append.mp h.seg
  have hn := h.nodup
  simp only [List.map_append, List.map_cons, List.nodup_append, List.nodup_cons] at hn
  obtain ⟨-, ⟨ha₂, -⟩, hdisj⟩ := hn
  have ha0 : a ≠ 0 := Store.ne_zero_of_read hread
  exact ⟨hread, (first_mem_or l₂).imp_right h₂.exists_read, (last_mem_or l₁).imp_right h₁.exists_read,
    ne_first ha0 ha₂, ne_last ha0 fun hm => hdisj a hm a List.mem_cons_self rfl⟩

/-- A node freed after two others have changed, in one order or the other. -/
theorem exists_relink {c : ChainNode β} {q₁ q₂ : Nat} (hread : st.read a = some c)
    (h₁ : q₁ = 0 ∨ ∃ c, st.read q₁ = some c) (h₂ : q₂ = 0 ∨ ∃ c, st.read q₂ = some c) (hq₁ : a ≠ q₁) (hq₂ : a ≠ q₂)
    (f₁ f₂ : ChainNode β → ChainNode β) : ∃ st₁ st₂ st₃,
      (if q₁ ≠ 0 then st.modify q₁ f₁ else some st) = some st₁ ∧ st₁.read a = some c ∧
      (if q₂ ≠ 0 then st₁.modify q₂ f₂ else some st₁) = some st₂ ∧ st₂.read a = some c ∧
      st₂.free a = some st₃ ∧ ∀ b, b ≠ a →
        (b ≠ q₁ → st₃.read b = if b = q₂ then (st.read b).map f₂ else st.read b) ∧
        (b ≠ q₂ → st₃.read b = if b = q₁ then (st.read b).map f₁ else st.read b) := by
  obtain ⟨st₁, e₁, r₁⟩ := exists_modify_ne_zero h₁ f₁
  have read₁ : st₁.read a = some c := by rw [r₁, if_neg hq₁]; exact hread
  have h₂' : q₂ = 0 ∨ ∃ c, st₁.read q₂ = some c := by
    refine h₂.imp_right fun ⟨d, hd⟩ => ?_
    rw [r₁, hd]
    split
    · exact ⟨_, rfl⟩
    · exact ⟨_, rfl⟩
  obtain ⟨st₂, e₂, r₂⟩ := exists_modify_ne_zero h₂' f₂
  have read₂ : st₂.read a = some c := by rw [r₂, if_neg hq₂]; exact read₁
  obtain ⟨st₃, e₃, -, r₃⟩ := Store.exists_free read₂
  refine ⟨st₁, st₂, st₃, e₁, read₁, e₂, read₂, e₃, fun b hb => ⟨fun hb₁ => ?_, fun hb₂ => ?_⟩⟩
  · rw [r₃, if_neg hb, r₂, r₁, if_neg hb₁]
  · rw [r₃, if_neg hb, r₂, if_neg hb₂, r₁]

theorem Holds.unlink (h : s.Holds (l₁ ++ (a, v) :: l₂)) :
    ∃ s', s.unlink a = some s' ∧ s'.Holds (l₁ ++ l₂) := by
  obtain ⟨hread, hfirst, hlast, hp, hn⟩ := h.neighbours
  obtain ⟨st₁, st₂, st₃, e₁, read₁, e₂, read₂, e₃, hr⟩ := exists_relink hread hlast hfirst hn hp
    (fun n => { n with prev := Links.first 0 l₂ }) fun q => { q with next := Links.last 0 l₁ }
  refine ⟨⟨st₃, if s.newest = a then Links.first 0 l₂ else s.newest⟩, ?_,
    h.unlinked (fun b ha => (hr b ha).2) fun b ha => (hr b ha).1⟩
  simp only [Chain.unlink, hread, Option.bind_eq_bind, Option.bind_some, e₁, read₁, e₂, read₂, e₃,
    Option.pure_def]

/-- The order in which the neighbours are linked does not matter. -/
theorem Holds.unlinkPrev (h : s.Holds (l₁ ++ (a, v) :: l₂)) :
    ∃ s', s.unlinkPrev a = some s' ∧ s'.Holds (l₁ ++ l₂) := by
  obtain ⟨hread, hfirst, hlast, hp, hn⟩ := h.neighbours
  obtain ⟨st₁, st₂, st₃, e₁, read₁, e₂, read₂, e₃, hr⟩ := exists_relink hread hfirst hlast hp hn
    (fun q => { q with next := Links.last 0 l₁ }) fun n => { n with prev := Links.first 0 l₂ }
  refine ⟨⟨st₃, if s.newest = a then Links.first 0 l₂ else s.newest⟩, ?_,
    h.unlinked (fun b ha => (hr b ha).1) fun b ha => (hr b ha).2⟩
  simp only [Chain.unlinkPrev, hread, Option.bind_eq_bind, Option.bind_some, e₁, read₁, e₂, read₂, e₃,
    Option.pure_def]

theorem walkFrom_seg {room : Nat} (hs : links.Seg st 0 next l) (hr : l.length < room) :
    walkFrom st room (Links.first 0 l) = some l := by
  induction l generalizing next room with
  | nil =>
    obtain ⟨r, rfl⟩ := Nat.exists_eq_succ_of_ne_zero (Nat.ne_of_gt hr)
    rfl
  | cons x l ih =>
    obtain ⟨r, rfl⟩ := Nat.exists_eq_succ_of_ne_zero (Nat.ne_of_gt (Nat.lt_of_le_of_lt (Nat.zero_le _) hr))
    have hread : st.read x.1 = some ⟨x.2, Links.first 0 l, next⟩ := hs.1
    rw [Links.first, walkFrom, if_neg (Store.ne_zero_of_read hread), hread, Option.bind_eq_bind,
      Option.bind_some, ih hs.2 (Nat.lt_of_succ_lt_succ hr)]
    rfl

theorem Holds.walk (h : s.Holds l) : s.walk = some l := by
  rw [Chain.walk, h.newest]
  exact walkFrom_seg h.seg h.length_lt

theorem links_last_append (l₁ l₂ : List (Nat × β)) :
    Links.last next (l₁ ++ l₂) = Links.last (Links.last next l₁) l₂ := by
  induction l₁ generalizing next with
  | nil => rfl
  | cons x l₁ ih => exact ih

theorem Holds.linkedBack (h : s.Holds l) {x : Nat × β} (hx : x ∈ l) : s.LinkedBack x.1 := by
  obtain ⟨l₁, l₂, rfl⟩ := List.append_of_mem hx
  obtain ⟨h₁, hread, h₂⟩ := seg_append.mp h.seg
  refine ⟨_, hread, fun hprev => ?_, fun hnext => ?_⟩
  · cases l₂ with
    | nil => exact absurd rfl hprev
    | cons y l₂ => exact ⟨_, h₂.1, rfl⟩
  · rcases List.eq_nil_or_concat l₁ with rfl | ⟨l₁, y, rfl⟩
    · exact absurd rfl hnext
    · rw [List.concat_eq_append] at h₁ ⊢
      simp only [links, links_last_append]
      exact ⟨_, (seg_append.mp h₁).2.1, rfl⟩

theorem push_top {t : Nat} (h : s.push v = some (t, s')) : t = s.nodes.top ∧ s'.nodes.top = s.nodes.top + 1 := by
  unfold Chain.push at h
  dsimp only at h
  split at h
  · cases h
    exact ⟨rfl, rfl⟩
  · obtain ⟨nodes, hn, h⟩ := Option.map_eq_some_iff.mp h
    cases h
    obtain ⟨-, -, ht, -⟩ := Store.modify_eq_some.mp hn
    exact ⟨rfl, ht⟩

theorem unlink_top (h : s.unlink a = some s') : s'.nodes.top = s.nodes.top := by
  have hmod : ∀ {st st' : Store (ChainNode β)} {q : Nat} {f : ChainNode β → ChainNode β},
      (if q ≠ 0 then st.modify q f else some st) = some st' → st'.top = st.top := by
    intro st st' q f h
    split at h
    · obtain ⟨-, -, ht, -⟩ := Store.modify_eq_some.mp h
      exact ht
    · cases h
      rfl
  obtain ⟨c, -, h⟩ := Option.bind_eq_some_iff.mp h
  obtain ⟨st₁, h₁, h⟩ := Option.bind_eq_some_iff.mp h
  obtain ⟨c₁, -, h⟩ := Option.bind_eq_some_iff.mp h
  obtain ⟨st₂, h₂, h⟩ := Option.bind_eq_some_iff.mp h
  obtain ⟨c₂, -, h⟩ := Option.bind_eq_some_iff.mp h
  obtain ⟨st₃, h₃, h⟩ := Option.bind_eq_some_iff.mp h
  cases h
  exact (Store.free_eq_some.mp h₃).2.1.trans ((hmod h₂).trans (hmod h₁))

/-- Links changed leave the values. -/
theorem value_modify {t b : Nat} {f : ChainNode β → ChainNode β} {st st' : Store (ChainNode β)}
    (h : st.modify t f = some st') (hf : ∀ c, (f c).value = c.value) :
    (st'.read b).map ChainNode.value = (st.read b).map ChainNode.value := by
  obtain ⟨c, hc, -, hr⟩ := Store.modify_eq_some.mp h
  rw [hr]
  split
  · rename_i hb
    rw [hb, hc, Option.map_some, Option.map_some, hf]
  · rfl

/-- The values after a node is put in. -/
theorem push_value {t b : Nat} (h : s.push v = some (t, s')) :
    s'.value b = if b = s.nodes.top then some v else s.value b := by
  have halloc : ((s.nodes.alloc ⟨v, s.newest, 0⟩).2.read b).map ChainNode.value =
      if b = s.nodes.top then some v else s.value b := by
    rw [Store.read_alloc]
    split <;> rfl
  unfold Chain.push at h
  dsimp only at h
  split at h
  · cases h
    exact halloc
  · obtain ⟨nodes, hn, h⟩ := Option.map_eq_some_iff.mp h
    cases h
    exact (value_modify hn fun _ => rfl).trans halloc

/-- The values after a node is taken out. -/
theorem unlink_value {b : Nat} (h : s.unlink a = some s') : s'.value b = if b = a then none else s.value b := by
  have hmod : ∀ {st st' : Store (ChainNode β)} {q : Nat} {f : ChainNode β → ChainNode β},
      (if q ≠ 0 then st.modify q f else some st) = some st' → (∀ c, (f c).value = c.value) →
      (st'.read b).map ChainNode.value = (st.read b).map ChainNode.value := by
    intro st st' q f h hf
    split at h
    · exact value_modify h hf
    · cases h
      rfl
  obtain ⟨c, -, h⟩ := Option.bind_eq_some_iff.mp h
  obtain ⟨st₁, h₁, h⟩ := Option.bind_eq_some_iff.mp h
  obtain ⟨c₁, -, h⟩ := Option.bind_eq_some_iff.mp h
  obtain ⟨st₂, h₂, h⟩ := Option.bind_eq_some_iff.mp h
  obtain ⟨c₂, -, h⟩ := Option.bind_eq_some_iff.mp h
  obtain ⟨st₃, h₃, h⟩ := Option.bind_eq_some_iff.mp h
  cases h
  rw [Chain.value, (Store.free_eq_some.mp h₃).2.2 b]
  by_cases hb : b = a
  · rw [if_pos hb, if_pos hb]
    rfl
  · rw [if_neg hb, if_neg hb, hmod h₂ fun _ => rfl, hmod h₁ fun _ => rfl]
    rfl

theorem setValue_value {b : Nat} {f : β → β} (h : s.setValue a f = some s') :
    s'.value b = if b = a then (s.value b).map f else s.value b := by
  obtain ⟨nodes, hn, h⟩ := Option.map_eq_some_iff.mp h
  cases h
  obtain ⟨c, hc, -, hr⟩ := Store.modify_eq_some.mp hn
  rw [Chain.value, Chain.value, hr]
  split
  · rename_i hb
    rw [hb, hc]
    rfl
  · rfl

/-- There is no value to change where there is none. -/
theorem setValue_eq_none {f : β → β} (h : s.value a = none) : s.setValue a f = none := by
  cases hs : s.setValue a f with
  | none => rfl
  | some s' =>
    obtain ⟨nodes, hn, -⟩ := Option.map_eq_some_iff.mp hs
    obtain ⟨c, hc, -⟩ := Store.modify_eq_some.mp hn
    cases (Option.map_eq_none_iff.mp h).symm.trans hc

/-- The values of a list with one changed. -/
def setIn (l : List (Nat × β)) (a : Nat) (f : β → β) : List (Nat × β) :=
  l.map fun x => if x.1 = a then (x.1, f x.2) else x

theorem setIn_of_notMem {f : β → β} (h : a ∉ l.map Prod.fst) : setIn l a f = l := by
  refine (List.map_congr_left fun x hx => if_neg ?_).trans (List.map_id l)
  rintro rfl
  exact h (List.mem_map_of_mem hx)

theorem map_setIn (l : List (Nat × β)) (a : Nat) (f : β → β) : (setIn l a f).map Prod.fst = l.map Prod.fst := by
  unfold setIn
  rw [List.map_map]
  refine List.map_congr_left fun x _ => ?_
  rw [Function.comp_apply]
  split <;> rfl

theorem lookup_setIn (l : List (Nat × β)) (a b : Nat) (f : β → β) : Keyed.lookup Prod.fst (setIn l a f) b =
    (Keyed.lookup Prod.fst l b).map fun x => if b = a then (b, f x.2) else x := by
  unfold setIn
  rw [Keyed.lookup_map fun x => by split <;> rfl]
  refine Option.map_congr fun x hx => ?_
  obtain ⟨-, rfl⟩ := Keyed.key_of_lookup hx
  rfl

theorem lookup_setIn_of_ne {a b : Nat} (h : b ≠ a) (l : List (Nat × β)) (f : β → β) :
    Keyed.lookup Prod.fst (setIn l a f) b = Keyed.lookup Prod.fst l b := by
  rw [lookup_setIn]
  simp only [if_neg h, Option.map_id']

theorem first_setIn (l : List (Nat × β)) (b a : Nat) (f : β → β) :
    Links.first b (setIn l a f) = Links.first b l := by
  cases l with
  | nil => rfl
  | cons x l =>
    show (if x.1 = a then (x.1, f x.2) else x).1 = x.1
    split <;> rfl

theorem seg_setIn {f : β → β} {st' : Store (ChainNode β)} (h : links.Seg st 0 next l)
    (hr : ∀ b, st'.read b = if b = a then (st.read b).map fun c => { c with value := f c.value } else st.read b) :
    links.Seg st' 0 next (setIn l a f) := by
  induction l generalizing next with
  | nil => trivial
  | cons x l ih =>
    have hread : st.read x.1 = some ⟨x.2, Links.first 0 l, next⟩ := h.1
    have ih := ih h.2
    show links.Seg st' 0 next ((if x.1 = a then (x.1, f x.2) else x) :: setIn l a f)
    split
    · rename_i hx
      refine ⟨?_, ih⟩
      rw [hr, if_pos hx, hread, first_setIn]
      rfl
    · rename_i hx
      refine ⟨?_, ih⟩
      rw [hr, if_neg hx, hread, first_setIn]
      rfl

theorem Holds.setValue (h : s.Holds l) (f : β → β) (ha : ∃ v, (a, v) ∈ l) :
    ∃ s', s.setValue a f = some s' ∧ s'.Holds (setIn l a f) ∧ s'.nodes.top = s.nodes.top := by
  obtain ⟨c, hc⟩ := h.seg.exists_read (List.mem_map.mpr ⟨_, ha.choose_spec, rfl⟩)
  obtain ⟨st', hm, hr⟩ := Store.exists_modify_map hc fun c => { c with value := f c.value }
  refine ⟨⟨st', s.newest⟩, congrArg (Option.map _) hm, ⟨?_, seg_setIn h.seg hr, ?_⟩, ?_⟩
  · exact h.newest.trans (first_setIn l 0 a f).symm
  · rw [map_setIn]
    exact h.nodup
  · obtain ⟨-, -, ht, -⟩ := Store.modify_eq_some.mp hm
    exact ht

/-- The value of a node of the list. -/
theorem Holds.value (h : s.Holds (l₁ ++ (a, v) :: l₂)) : s.value a = some v := by
  rw [Chain.value, (seg_append.mp h.seg).2.1]
  rfl

/-! ## The values alone -/

namespace Represents

variable {vs : List β}

theorem nil : (empty : Chain β).Represents [] := ⟨[], ⟨rfl, trivial, List.nodup_nil⟩, rfl⟩

theorem push (h : s.Represents vs) (v : β) :
    ∃ t s', s.push v = some (t, s') ∧ s'.Represents (v :: vs) := by
  obtain ⟨l, hl, rfl⟩ := h
  obtain ⟨s', hs, hl'⟩ := hl.push v
  exact ⟨_, s', hs, _, hl', rfl⟩

/-- The search finds the newest value of the kind. -/
theorem find (h : s.Represents vs) (p : β → Bool) :
    ∃ t, s.find p = some t ∧ s.value t = vs.find? p ∧ (t = 0 ↔ vs.find? p = none) := by
  obtain ⟨l, hl, rfl⟩ := h
  refine ⟨_, hl.find p, ?_⟩
  rw [List.find?_map, Function.comp_def]
  cases hf : l.find? fun x => p x.2 with
  | none => exact ⟨congrArg (Option.map _) Store.read_zero, by simp⟩
  | some x =>
    obtain ⟨-, l₁, l₂, rfl, -⟩ := List.find?_eq_some_iff_append.mp hf
    have hx : x.1 ≠ 0 := hl.seg.ne_zero (List.mem_map_of_mem (by simp))
    exact ⟨hl.value, by simpa using hx⟩

/-- Where the search stops, and what there is without the node it found. -/
theorem found (h : s.Holds l) {t : Nat} (hf : s.find p = some t) (ht : t ≠ 0) :
    ∃ l₁ v l₂, l = l₁ ++ (t, v) :: l₂ ∧ (l₁ ++ l₂).map Prod.snd = (l.map Prod.snd).eraseP p := by
  rw [h.find p, Option.some.injEq] at hf
  cases hx : l.find? fun x => p x.2 with
  | none => rw [hx] at hf; exact absurd hf.symm ht
  | some x =>
    rw [hx] at hf
    obtain ⟨hp, l₁, l₂, rfl, hn⟩ := List.find?_eq_some_iff_append.mp hx
    obtain rfl : x.1 = t := hf
    refine ⟨l₁, x.2, l₂, rfl, ?_⟩
    rw [List.map_append, List.map_append, List.map_cons, List.eraseP_append_right, List.eraseP_cons_of_pos hp]
    intro b hb
    obtain ⟨y, hy, rfl⟩ := List.mem_map.mp hb
    simpa using hn y hy

/-- What the search found is taken out. -/
theorem unlink (h : s.Represents vs) {t : Nat} (hf : s.find p = some t) (ht : t ≠ 0) :
    ∃ s', s.unlink t = some s' ∧ s'.Represents (vs.eraseP p) := by
  obtain ⟨l, hl, rfl⟩ := h
  obtain ⟨l₁, v, l₂, rfl, herase⟩ := found hl hf ht
  obtain ⟨s', hs, hl'⟩ := hl.unlink
  exact ⟨s', hs, _, hl', herase⟩

theorem unlinkPrev (h : s.Represents vs) {t : Nat} (hf : s.find p = some t) (ht : t ≠ 0) :
    ∃ s', s.unlinkPrev t = some s' ∧ s'.Represents (vs.eraseP p) := by
  obtain ⟨l, hl, rfl⟩ := h
  obtain ⟨l₁, v, l₂, rfl, herase⟩ := found hl hf ht
  obtain ⟨s', hs, hl'⟩ := hl.unlinkPrev
  exact ⟨s', hs, _, hl', herase⟩

/-- Nothing is newer than the newest: a search that starts from there along `next` meets it alone. -/
theorem findNext (h : s.Represents vs) (p : β → Bool) : ∃ t, s.findNext p = some t ∧
    (t = 0 ↔ ¬ ∃ v ∈ vs.head?, p v = true) ∧ (t ≠ 0 → s.find p = some t ∧ s.value t = vs.head?) := by
  obtain ⟨l, hl, rfl⟩ := h
  have htop := s.nodes.top_pos
  obtain ⟨room, hroom⟩ := Nat.exists_eq_succ_of_ne_zero (Nat.ne_of_gt htop)
  rw [Chain.findNext, hl.newest, hroom]
  cases l with
  | nil => exact ⟨0, rfl, by simp, fun h => absurd rfl h⟩
  | cons x l =>
    have hread := hl.seg.1
    have hx : x.1 ≠ 0 := Store.ne_zero_of_read hread
    rw [Links.first, findNextFrom, if_neg hx, hread, Option.bind_some]
    by_cases hp : p x.2 = true
    · have hl' : s.Holds ([] ++ (x.1, x.2) :: l) := hl
      refine ⟨x.1, if_pos hp, by simp [hx, hp], fun _ => ⟨?_, hl'.value⟩⟩
      rw [hl.find p, List.find?_cons_of_pos (p := fun x : Nat × β => p x.2) hp]
      rfl
    · exact ⟨0, if_neg hp, by simp [hp], fun h => absurd rfl h⟩

end Represents

end Chain

end DShow
