import DShowServer.Alloc.List
import DShowServer.Framework.Linked
import DShowServer.Framework.Run

/-!
# What the circular lists represent

A list of the allocator is to be a ring of nodes that holds its members in order
(`Represents`). Taking the head out keeps that (`Represents.delHead`), and on such a
list the size is counted and a member is found (`Represents.counts`). Adding keeps it
for the empty list alone: the node that was last is not linked to the new one, so
that from a new head the walk does not come back (`Represents.addHead_cons`), and a new
tail is not met (`Represents.addTail_cons`).
-/

namespace DShow.Alloc

open Run

/-- The links of `struct avm_list_t`. -/
def links : Links AvmList Nat where
  cell member next prev := ⟨next, prev, member⟩
  next c := c.next
  setNext n c := { c with next := n }
  setPrev p c := { c with prev := p }
  next_cell _ _ _ := rfl
  setNext_cell _ _ _ _ := rfl
  setPrev_cell _ _ _ _ := rfl

/-- The loop of `avm_list_size` at the node `it`, with `i` nodes counted. -/
def avmListSizeFrom (st : Store AvmList) (head : Nat) : Nat → Nat → Nat → Option Nat
  | 0, _, _ => none
  | room + 1, it, i => do
    let c ← st.read it
    if c.next = head then pure (i + 1) else avmListSizeFrom st head room c.next (i + 1)

/-- `avm_list_size`; `none` where the loop has met more nodes than there are. -/
def avmListSize (st : Store AvmList) (head : Nat) : Option Nat :=
  if head = 0 then some 0 else avmListSizeFrom st head st.top head 0

/-- The list at `head` is a ring of these members. -/
def Represents (st : Store AvmList) (head : Nat) (xs : List Nat) : Prop :=
  ∃ l, links.Ring st head l ∧ l.map Prod.snd = xs

/-- The node so many steps along `next`. -/
def nth (st : Store AvmList) : Nat → Nat → Option Nat
  | a, 0 => some a
  | a, i + 1 => do
    let c ← st.read a
    nth st c.next i

/-- The size is the number of the members, and every member is found at its first node, what is no
member at none. -/
structure Counts (st : Store AvmList) (head : Nat) (xs : List Nat) : Prop where
  size : avmListSize st head = some xs.length
  find : ∀ x, ∃ r, avmListFind st head x = some r ∧
    if x ∈ xs then nth st head (xs.idxOf x) = some r ∧ ∃ c, st.read r = some c ∧ c.member = x else r = 0

variable {st st' : Store AvmList} {head member next prev : Nat} {xs : List Nat} {l l₁ l₂ : List (Nat × Nat)}

/-! ## Rings -/

theorem Represents.zero (st : Store AvmList) : Represents st 0 [] := ⟨[], ⟨rfl, trivial, List.nodup_nil⟩, rfl⟩

theorem Represents.head_eq_zero_iff (h : Represents st head xs) : head = 0 ↔ xs = [] := by
  obtain ⟨l, hr, rfl⟩ := h
  cases l with
  | nil => exact iff_of_true hr.head_eq rfl
  | cons x l =>
    refine iff_of_false ?_ (List.cons_ne_nil _ _)
    rw [hr.head_eq]
    exact hr.seg.ne_zero List.mem_cons_self

/-- One node that is its own neighbour on both sides. -/
theorem represents_single (h : st.read head = some ⟨head, head, member⟩) : Represents st head [member] :=
  ⟨[(head, member)], ⟨rfl, ⟨h, trivial⟩, List.nodup_singleton _⟩, rfl⟩

/-- The node at the head taken out, when it has other neighbours: what `avm_list_del_head` writes. -/
theorem delHead_read {c : AvmList} (hc : st.read head = some c) (hnext : c.next ≠ head) (hprev : c.prev ≠ head)
    (hn : ∃ d, st.read c.next = some d) (hp : ∃ d, st.read c.prev = some d) :
    ∃ st₁ st₂ : Store AvmList, avmListDelHead st head = some (c.next, st₂) ∧
      (∀ b, st₁.read b = if b = c.prev then (st.read b).map (links.setNext c.next) else st.read b) ∧
      ∀ b, b ≠ head →
        st₂.read b = if b = c.next then (st₁.read b).map (links.setPrev c.prev) else st₁.read b := by
  obtain ⟨dp, hdp⟩ := hp
  obtain ⟨dn, hdn⟩ := hn
  obtain ⟨st₁, e₁, r₁⟩ := Store.exists_modify_map hdp (links.setNext c.next)
  have hc₁ : st₁.read head = some c := by rw [r₁, if_neg (Ne.symm hprev), hc]
  obtain ⟨dn₁, hdn₁⟩ : ∃ d, st₁.read c.next = some d := by
    rw [r₁]
    split
    · exact ⟨_, by rw [hdn]; rfl⟩
    · exact ⟨dn, hdn⟩
  obtain ⟨st₂, e₂, r₂⟩ := Store.exists_modify_map hdn₁ (links.setPrev c.prev)
  have hc₂ : st₂.read head = some c := by rw [r₂, if_neg (Ne.symm hnext), hc₁]
  obtain ⟨st₃, e₃, -, r₃⟩ := Store.exists_free hc₂
  refine ⟨st₁, st₃, ?_, r₁, fun b hb => by rw [r₃, if_neg hb, r₂]⟩
  rw [avmListDelHead, if_neg (Store.ne_zero_of_read hc), hc]
  simp only [Option.bind_eq_bind, Option.bind_some, ne_eq, hnext, not_false_eq_true, if_true]
  change (st.modify c.prev (links.setNext c.next)).bind _ = _
  rw [e₁, Option.bind_some, hc₁, Option.bind_some]
  change (st₁.modify c.next (links.setPrev c.prev)).bind _ = _
  rw [e₂, Option.bind_some, e₃, Option.bind_some, Option.pure_def]

/-- Taking the head out leaves the other members. -/
theorem Represents.delHead (h : Represents st head xs) :
    ∃ head' st', avmListDelHead st head = some (head', st') ∧ Represents st' head' xs.tail := by
  obtain ⟨l, hr, rfl⟩ := h
  match l, hr with
  | [], hr => exact ⟨0, st, if_pos hr.head_eq, Represents.zero st⟩
  | [(a, m)], hr =>
    obtain rfl : head = a := hr.head_eq
    have hone : One st head m := ⟨head, hr.seg.1⟩
    obtain ⟨st', e, -⟩ := delHead_one hone
    exact ⟨0, st', e, Represents.zero st'⟩
  | (a, m) :: x :: l, hr =>
    obtain rfl : head = a := hr.head_eq
    have hne : x :: l ≠ [] := List.cons_ne_nil x l
    have hfirst : Links.first 0 (x :: l) ∈ (x :: l).map Prod.fst := Links.first_mem hne
    have hlast : Links.last 0 (x :: l) ∈ (x :: l).map Prod.fst := Links.last_mem hne
    have hout := (List.nodup_cons.mp hr.nodup).1
    obtain ⟨st₁, st₂, e, r₁, r₂⟩ := delHead_read hr.seg.1 (fun e => hout (e ▸ hfirst))
      (fun e => hout (e ▸ hlast)) (hr.seg.2.exists_read hfirst) (hr.seg.2.exists_read hlast)
    exact ⟨x.1, st₂, e, x :: l, hr.del_head hne r₁ r₂, rfl⟩

/-! ## Walking along a ring -/

/-- The count goes on to the end of the segment, which is where `next` leads to the head. -/
theorem sizeFrom_seg {i room : Nat} (hs : links.Seg st head prev l) (hl : l ≠ [])
    (hout : head ∉ (l.map Prod.fst).tail) (hroom : l.length ≤ room) :
    avmListSizeFrom st head room (Links.first 0 l) i = some (i + l.length) := by
  induction l generalizing prev room i with
  | nil => exact absurd rfl hl
  | cons x l ih =>
    obtain ⟨room, rfl⟩ := Nat.exists_eq_succ_of_ne_zero (Nat.ne_of_gt (Nat.lt_of_lt_of_le (Nat.succ_pos _) hroom))
    have hread : st.read x.1 = some ⟨Links.first head l, prev, x.2⟩ := hs.1
    rw [Links.first, avmListSizeFrom, hread, Option.bind_eq_bind, Option.bind_some]
    by_cases hl' : l = []
    · subst hl'
      exact if_pos rfl
    · have hfirst : Links.first head l ≠ head := fun e => hout (by rw [← e]; exact Links.first_mem hl')
      rw [if_neg hfirst, Links.first_eq hl' head 0,
        ih hs.2 hl' (fun hm => hout (List.mem_of_mem_tail hm)) (Nat.le_of_succ_le_succ hroom), List.length_cons]
      congr 1
      omega

/-- The search meets the members in order. -/
theorem findFrom_seg {room : Nat} (hs : links.Seg st head prev l) (hl : l ≠ [])
    (hout : head ∉ (l.map Prod.fst).tail) (hroom : l.length ≤ room) (x : Nat) :
    ∃ r, avmListFindFrom st head x room (Links.first 0 l) = some r ∧
      if x ∈ l.map Prod.snd then nth st (Links.first 0 l) ((l.map Prod.snd).idxOf x) = some r ∧
        ∃ c, st.read r = some c ∧ c.member = x
      else r = 0 := by
  induction l generalizing prev room with
  | nil => exact absurd rfl hl
  | cons y l ih =>
    obtain ⟨room, rfl⟩ := Nat.exists_eq_succ_of_ne_zero (Nat.ne_of_gt (Nat.lt_of_lt_of_le (Nat.succ_pos _) hroom))
    have hread : st.read y.1 = some ⟨Links.first head l, prev, y.2⟩ := hs.1
    rw [Links.first, avmListFindFrom, hread, Option.bind_eq_bind, Option.bind_some, List.map_cons]
    by_cases hx : y.2 = x
    · refine ⟨y.1, if_pos hx, ?_⟩
      rw [if_pos (by rw [hx]; exact List.mem_cons_self), hx, List.idxOf_cons_self]
      exact ⟨rfl, _, hread, hx⟩
    · rw [if_neg hx, List.idxOf_cons_ne _ hx]
      by_cases hl' : l = []
      · subst hl'
        exact ⟨0, if_pos rfl, by rw [if_neg (by simpa using Ne.symm hx)]⟩
      · have hfirst : Links.first head l ≠ head := fun e => hout (by rw [← e]; exact Links.first_mem hl')
        obtain ⟨r, hr, hspec⟩ := ih hs.2 hl' (fun hm => hout (List.mem_of_mem_tail hm))
          (Nat.le_of_succ_le_succ hroom)
        refine ⟨r, by rw [if_neg hfirst, Links.first_eq hl' head 0, hr], ?_⟩
        simp only [List.mem_cons, Ne.symm hx, false_or, nth, hread, Option.bind_eq_bind, Option.bind_some,
          Links.first_eq hl' head 0]
        exact hspec

/-- In a ring the head comes once. -/
theorem head_notMem_tail (hr : links.Ring st head l) : head ∉ (l.map Prod.fst).tail := by
  cases l with
  | nil => exact List.not_mem_nil
  | cons x l =>
    rw [hr.head_eq]
    exact (List.nodup_cons.mp hr.nodup).1

/-- On a ring both walks end and return what they should. -/
theorem Represents.counts (h : Represents st head xs) : Counts st head xs := by
  have hzero := h.head_eq_zero_iff
  obtain ⟨l, hr, rfl⟩ := h
  by_cases hl : l = []
  · subst hl
    have h0 := hzero.mpr rfl
    exact ⟨by rw [avmListSize, if_pos h0]; rfl, fun x => ⟨0, by rw [avmListFind, if_pos h0], rfl⟩⟩
  · have h0 : head ≠ 0 := fun h0 => hl (List.map_eq_nil_iff.mp (hzero.mp h0))
    have hout := head_notMem_tail hr
    have hroom := Nat.le_of_lt (hr.seg.length_lt hr.nodup)
    constructor
    · have hsize := sizeFrom_seg (i := 0) hr.seg hl hout hroom
      rw [avmListSize, if_neg h0, List.length_map]
      rwa [← hr.head_eq, Nat.zero_add] at hsize
    · intro x
      have hfind := findFrom_seg hr.seg hl hout hroom x
      rw [avmListFind, if_neg h0]
      rwa [← hr.head_eq] at hfind

/-! ## Adding -/

/-- To the empty list, at either end. -/
theorem Represents.addHead_nil (h : Represents st head []) (m : Nat) :
    ∃ head' st', avmListAddHead st head m = some (head', st') ∧ Represents st' head' [m] := by
  obtain rfl := h.head_eq_zero_iff.mpr rfl
  obtain ⟨st', e, hr⟩ := addHead_zero st m
  exact ⟨st.top, st', e, represents_single (by rw [hr, if_pos rfl])⟩

theorem Represents.addTail_nil (h : Represents st head []) (m : Nat) :
    ∃ head' st', avmListAddTail st head m = some (head', st') ∧ Represents st' head' [m] := by
  obtain ⟨head', st', e, hrep⟩ := h.addHead_nil m
  have h0 : head = 0 := h.head_eq_zero_iff.mpr rfl
  exact ⟨head', st', by simp only [avmListAddTail, e, Option.bind_eq_bind, Option.bind_some, if_pos h0,
    Option.pure_def], hrep⟩

/-- A count that has come to addresses that lead only to one another does not get out. -/
theorem sizeFrom_stays {S : List Nat} (hS : ∀ a ∈ S, ∀ c, st.read a = some c → c.next ∈ S)
    (hhead : head ∉ S) {room a i : Nat} (ha : a ∈ S) : avmListSizeFrom st head room a i = none := by
  induction room generalizing a i with
  | zero => rfl
  | succ room ih =>
    rw [avmListSizeFrom]
    cases hc : st.read a with
    | none => rfl
    | some c =>
      have hnext := hS a ha c hc
      rw [Option.bind_eq_bind, Option.bind_some, if_neg fun e => hhead (by rw [← e]; exact hnext), ih hnext]

/-- Cells that lead where they led before lead to one another as before. -/
theorem closed_of_next_eq {S : List Nat} (hS : ∀ a ∈ S, ∀ c, st.read a = some c → c.next ∈ S)
    (he : ∀ a ∈ S, (st'.read a).map AvmList.next = (st.read a).map AvmList.next) :
    ∀ a ∈ S, ∀ c, st'.read a = some c → c.next ∈ S := by
  intro a ha c hc
  have hea := he a ha
  rw [hc, Option.map_some] at hea
  obtain ⟨d, hd, hnext⟩ := Option.map_eq_some_iff.mp hea.symm
  rw [← hnext]
  exact hS a ha d hd

/-- A count sees no more of the cells than their `next`. -/
theorem sizeFrom_congr {S : List Nat} (hS : ∀ a ∈ S, ∀ c, st.read a = some c → c.next ∈ S)
    (he : ∀ a ∈ S, (st'.read a).map AvmList.next = (st.read a).map AvmList.next) {room a i : Nat} (ha : a ∈ S) :
    avmListSizeFrom st' head room a i = avmListSizeFrom st head room a i := by
  induction room generalizing a i with
  | zero => rfl
  | succ room ih =>
    have hea := he a ha
    rw [avmListSizeFrom, avmListSizeFrom]
    cases hc : st.read a with
    | none =>
      rw [hc, Option.map_none, Option.map_eq_none_iff] at hea
      rw [hea]
      rfl
    | some c =>
      rw [hc, Option.map_some, Option.map_eq_some_iff] at hea
      obtain ⟨c', hc', hnext⟩ := hea
      simp only [hc', Option.bind_eq_bind, Option.bind_some, hnext, ih (hS a ha c hc)]

/-- What adding to a list that is not empty leaves: from the new head the count does not end, and
from the old one it is what it was. -/
theorem Represents.addHead_cons (h : Represents st head xs) (hxs : xs ≠ []) (m : Nat) :
    ∃ st', avmListAddHead st head m = some (st.top, st') ∧ avmListSize st' st.top = none ∧
      avmListSize st' head = some xs.length := by
  have h0 : head ≠ 0 := fun h0 => hxs (h.head_eq_zero_iff.mp h0)
  obtain ⟨l, hr, rfl⟩ := h
  have hl : l ≠ [] := fun hl => hxs (by rw [hl]; rfl)
  have hmem : head ∈ l.map Prod.fst := by
    rw [hr.head_eq]
    exact Links.first_mem hl
  obtain ⟨c, hc⟩ := hr.seg.exists_read hmem
  obtain ⟨st', e, hread⟩ := addHead_read hc m
  have hold : ∀ a ∈ l.map Prod.fst, (st'.read a).map AvmList.next = (st.read a).map AvmList.next := by
    intro a ha
    rw [hread, if_neg (Nat.ne_of_lt (hr.seg.lt_top ha))]
    split
    · rename_i hah
      rw [hah, hc]
      rfl
    · rfl
  have hnew : st'.read st.top = some ⟨head, c.prev, m⟩ := by rw [hread, if_pos rfl]
  have hclosed := closed_of_next_eq (fun a ha c => hr.next_mem ha) hold
  refine ⟨st', e, ?_, ?_⟩
  · have hout : st.top ∉ l.map Prod.fst := fun hm => Nat.lt_irrefl _ (hr.seg.lt_top hm)
    obtain ⟨room, hroom⟩ := Nat.exists_eq_succ_of_ne_zero (Store.top_ne_zero (s := st'))
    rw [avmListSize, if_neg Store.top_ne_zero, hroom, avmListSizeFrom, hnew, Option.bind_eq_bind,
      Option.bind_some, if_neg (Store.ne_top_of_read hc), sizeFrom_stays hclosed hout hmem]
  · have htop : st.top < st'.top := Store.lt_top_of_read hnew
    have hsize := sizeFrom_seg (i := 0) hr.seg hl (head_notMem_tail hr)
      (Nat.le_of_lt (Nat.lt_trans (hr.seg.length_lt hr.nodup) htop))
    rw [← hr.head_eq, Nat.zero_add] at hsize
    rw [avmListSize, if_neg h0, sizeFrom_congr (fun a ha c => hr.next_mem ha) hold hmem, hsize,
      List.length_map]

/-- A new head represents what it should if the list was empty. -/
theorem Represents.addHead_iff (h : Represents st head xs) (m : Nat) :
    (∃ head' st', avmListAddHead st head m = some (head', st') ∧ Represents st' head' (m :: xs)) ↔ xs = [] := by
  constructor
  · rintro ⟨head', st', e, hrep⟩
    by_contra hxs
    obtain ⟨st₂, e₂, hsize, -⟩ := h.addHead_cons hxs m
    obtain ⟨rfl, rfl⟩ := Prod.mk.inj (Option.some.inj (e.symm.trans e₂))
    rw [hrep.counts.size] at hsize
    cases hsize
  · rintro rfl
    exact h.addHead_nil m

theorem Represents.addTail_cons (h : Represents st head xs) (hxs : xs ≠ []) (m : Nat) :
    ∃ st', avmListAddTail st head m = some (head, st') ∧ avmListSize st' head = some xs.length := by
  obtain ⟨st', e, -, hsize⟩ := h.addHead_cons hxs m
  have h0 : head ≠ 0 := fun h0 => hxs (h.head_eq_zero_iff.mp h0)
  exact ⟨st', by simp only [avmListAddTail, e, Option.bind_eq_bind, Option.bind_some, if_neg h0,
    Option.pure_def], hsize⟩

/-- So does a list with a new tail. -/
theorem Represents.addTail_iff (h : Represents st head xs) (m : Nat) :
    (∃ head' st', avmListAddTail st head m = some (head', st') ∧ Represents st' head' (xs ++ [m])) ↔ xs = [] := by
  constructor
  · rintro ⟨head', st', e, hrep⟩
    by_contra hxs
    obtain ⟨st₂, e₂, hsize⟩ := h.addTail_cons hxs m
    obtain ⟨rfl, rfl⟩ := Prod.mk.inj (Option.some.inj (e.symm.trans e₂))
    rw [hrep.counts.size, List.length_append, Option.some.injEq, List.length_singleton] at hsize
    omega
  · rintro rfl
    exact h.addTail_nil m

/-! ## Runs -/

/-- A call that changes the list. -/
inductive Op
  | addHead (m : Nat)
  | addTail (m : Nat)
  | delHead

/-- The nodes, the head, and the members that the list is to have. -/
structure ListState where
  nodes : Store AvmList
  head : Nat
  members : List Nat

/-- What a call does, and what it is to do to the members. -/
def listStep (s : ListState) : Op → Option ListState
  | .addHead m => (avmListAddHead s.nodes s.head m).map fun (head, nodes) => ⟨nodes, head, m :: s.members⟩
  | .addTail m => (avmListAddTail s.nodes s.head m).map fun (head, nodes) => ⟨nodes, head, s.members ++ [m]⟩
  | .delHead => (avmListDelHead s.nodes s.head).map fun (head, nodes) => ⟨nodes, head, s.members.tail⟩

/-- A member is added to an empty list. -/
def AddsToEmpty (s : ListState) : Op → Prop
  | .addHead _ | .addTail _ => s.members = []
  | .delHead => True

/-- In every state of the run, from its first, the size and the search are right. -/
def AlwaysCounts (s : ListState) (ops : List Op) : Prop :=
  ∀ done, done <+: ops → ∃ t, exec listStep s done = some t ∧ Counts t.nodes t.head t.members

/-- A call that adds to an empty list, or takes the head out, keeps a list what it is to be. -/
theorem listStep_represents {s : ListState} (h : Represents s.nodes s.head s.members) {op : Op}
    (hop : AddsToEmpty s op) : ∃ t, listStep s op = some t ∧ Represents t.nodes t.head t.members := by
  cases op with
  | addHead m =>
    obtain ⟨head', st', e, hrep⟩ := (h.addHead_iff m).mpr hop
    exact ⟨⟨st', head', m :: s.members⟩, by rw [listStep, e, Option.map_some], hrep⟩
  | addTail m =>
    obtain ⟨head', st', e, hrep⟩ := (h.addTail_iff m).mpr hop
    exact ⟨⟨st', head', s.members ++ [m]⟩, by rw [listStep, e, Option.map_some], hrep⟩
  | delHead =>
    obtain ⟨head', st', e, hrep⟩ := h.delHead
    exact ⟨⟨st', head', s.members.tail⟩, by rw [listStep, e, Option.map_some], hrep⟩

/-- One that adds to another list leaves one whose size is wrong. -/
theorem listStep_lost {s t : ListState} (h : Represents s.nodes s.head s.members) {op : Op}
    (hop : ¬ AddsToEmpty s op) (ht : listStep s op = some t) : ¬ Counts t.nodes t.head t.members := by
  intro hcounts
  have hsize := hcounts.size
  cases op with
  | addHead m =>
    obtain ⟨st', e, hnone, -⟩ := h.addHead_cons hop m
    rw [listStep, e, Option.map_some, Option.some.injEq] at ht
    subst ht
    rw [hnone] at hsize
    cases hsize
  | addTail m =>
    obtain ⟨st', e, hold⟩ := h.addTail_cons hop m
    rw [listStep, e, Option.map_some, Option.some.injEq] at ht
    subst ht
    rw [hold, Option.some.injEq, List.length_append, List.length_singleton] at hsize
    omega
  | delHead => exact hop trivial

theorem alwaysCounts_cons {s : ListState} {op : Op} {ops : List Op} :
    AlwaysCounts s (op :: ops) ↔ Counts s.nodes s.head s.members ∧
      ∃ t, listStep s op = some t ∧ AlwaysCounts t ops := by
  constructor
  · intro hall
    obtain ⟨_, e, hcounts⟩ := hall [] List.nil_prefix
    obtain rfl := Option.some.inj e
    obtain ⟨t, ht, -⟩ := hall [op] (List.cons_prefix_cons.mpr ⟨rfl, List.nil_prefix⟩)
    obtain ⟨u, hu, e⟩ := exec_cons_eq_some.mp ht
    obtain rfl := Option.some.inj e
    refine ⟨hcounts, u, hu, fun done hdone => ?_⟩
    obtain ⟨v, hv, hcounts⟩ := hall (op :: done) (List.cons_prefix_cons.mpr ⟨rfl, hdone⟩)
    rw [exec_cons, hu, Option.bind_some] at hv
    exact ⟨v, hv, hcounts⟩
  · rintro ⟨hcounts, t, ht, hall⟩ done hdone
    obtain rfl | ⟨rest, rfl, hrest⟩ := List.prefix_cons_iff.mp hdone
    · exact ⟨s, rfl, hcounts⟩
    · obtain ⟨u, hu, hcounts⟩ := hall rest hrest
      exact ⟨u, by rw [exec_cons, ht, Option.bind_some, hu], hcounts⟩

/-- A list that is what it is to be counts in every state of a run if and only if every member is
added to an empty list. -/
theorem alwaysCounts_iff {s : ListState} (h : Represents s.nodes s.head s.members) (ops : List Op) :
    AlwaysCounts s ops ↔ Meets listStep AddsToEmpty s ops := by
  induction ops generalizing s with
  | nil =>
    refine iff_of_true (fun done hdone => ?_) trivial
    rw [List.prefix_nil.mp hdone]
    exact ⟨s, rfl, h.counts⟩
  | cons op ops ih =>
    rw [alwaysCounts_cons, meets_cons]
    by_cases hop : AddsToEmpty s op
    · obtain ⟨t, ht, hrep⟩ := listStep_represents h hop
      rw [and_iff_right h.counts, and_iff_right hop]
      simp only [ht, Option.some.injEq, exists_eq_left', forall_eq']
      exact ih hrep
    · refine iff_of_false ?_ fun hmeets => hop hmeets.1
      rintro ⟨-, t, ht, hall⟩
      obtain ⟨u, hu, hcounts⟩ := hall [] List.nil_prefix
      obtain rfl := Option.some.inj hu
      exact listStep_lost h hop ht hcounts

/-- What the calls make of a list that represents its members, and of the lists they build. -/
theorem rings_iff {s : ListState} (h : Represents s.nodes s.head s.members) :
    (∀ m, (∃ head' st', avmListAddHead s.nodes s.head m = some (head', st') ∧
      Represents st' head' (m :: s.members)) ↔ s.members = []) ∧
    (∀ m, (∃ head' st', avmListAddTail s.nodes s.head m = some (head', st') ∧
      Represents st' head' (s.members ++ [m])) ↔ s.members = []) ∧
    (∃ head' st', avmListDelHead s.nodes s.head = some (head', st') ∧ Represents st' head' s.members.tail) ∧
    Counts s.nodes s.head s.members ∧
    ∀ ops, AlwaysCounts s ops ↔ Meets listStep AddsToEmpty s ops :=
  ⟨h.addHead_iff, h.addTail_iff, h.delHead, h.counts, alwaysCounts_iff h⟩

instance (s : ListState) : (op : Op) → Decidable (AddsToEmpty s op)
  | .addHead _ | .addTail _ => inferInstanceAs (Decidable (s.members = []))
  | .delHead => .isTrue trivial

/-- A list from which the head is taken before the next member comes. -/
theorem rings_one_member : AlwaysCounts ⟨.empty, 0, []⟩ [.addTail 1, .delHead, .addHead 2] := by
  obtain ⟨-, -, -, -, hruns⟩ := rings_iff (s := ⟨.empty, 0, []⟩) (Represents.zero _)
  rw [hruns]
  decide +kernel

/-- Two members added at the head, and two at the tail. -/
theorem not_rings : ¬ AlwaysCounts ⟨.empty, 0, []⟩ [.addHead 1, .addHead 2] ∧
    ¬ AlwaysCounts ⟨.empty, 0, []⟩ [.addTail 1, .addTail 2] := by
  have hzero : Represents (ListState.mk .empty 0 []).nodes 0 [] := Represents.zero _
  rw [alwaysCounts_iff hzero, alwaysCounts_iff hzero]
  decide +kernel

end DShow.Alloc
