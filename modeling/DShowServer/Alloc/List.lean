import DShowServer.Framework.Store

/-!
# The circular lists of the allocator (`avm_list_t`)

The allocator keeps its samples in two circular lists of heap nodes.
`avm_list_add_head` sets the three links of a new node and of the head, but not
the `next` link of the node that was last, so that a node added to a list that
is not empty cannot be reached along `next`. In the lists that come about, the
head is therefore its own `next` (`One`), and everything added behind it is out
of reach:

* `addTail_one`: a node added behind the head leaves the list as it was;
* `delHead_one`: taking the head out leaves nothing.
-/

namespace DShow.Alloc

/-- `struct avm_list_t`. -/
structure AvmList where
  next : Nat
  prev : Nat
  member : Nat

/-- `avm_list_add_head`: the new head and the heap. -/
def avmListAddHead (st : Store AvmList) (head member : Nat) : Option (Nat × Store AvmList) := do
  let (n, st) := st.alloc ⟨0, 0, member⟩
  let (head, st) ← if head = 0 then do
      let st ← st.modify n fun c => { c with prev := n }
      pure (n, st)
    else pure (head, st)
  let h ← st.read head
  let st ← st.modify n fun c => { c with prev := h.prev }
  let st ← st.modify head fun c => { c with prev := n }
  let st ← st.modify n fun c => { c with next := head }
  pure (n, st)

/-- `avm_list_add_tail`. -/
def avmListAddTail (st : Store AvmList) (head member : Nat) : Option (Nat × Store AvmList) := do
  let (n, st) ← avmListAddHead st head member
  pure (if head = 0 then n else head, st)

/-- `avm_list_del_head`. -/
def avmListDelHead (st : Store AvmList) (head : Nat) : Option (Nat × Store AvmList) :=
  if head = 0 then some (0, st)
  else do
    let h ← st.read head
    if h.next ≠ head then
      let st ← st.modify h.prev fun c => { c with next := h.next }
      let h' ← st.read head
      let st ← st.modify h'.next fun c => { c with prev := h'.prev }
      let st ← st.free head
      pure (h.next, st)
    else
      let st ← st.free head
      pure (0, st)

/-- The loop of `avm_list_find` from the node `it` on. -/
def avmListFindFrom (st : Store AvmList) (head member : Nat) : Nat → Nat → Option Nat
  | 0, _ => none
  | room + 1, it => do
    let c ← st.read it
    if c.member = member then pure it
    else if c.next = head then pure 0
    else avmListFindFrom st head member room c.next

/-- `avm_list_find`; `none` also where the loop does not end, as it has then met
more nodes than there are. -/
def avmListFind (st : Store AvmList) (head member : Nat) : Option Nat :=
  if head = 0 then some 0 else avmListFindFrom st head member st.top head

/-- The members of a list, in the order in which `avm_list_size` meets them. -/
def avmListMembersFrom (st : Store AvmList) (head : Nat) : Nat → Nat → Option (List Nat)
  | 0, _ => none
  | room + 1, it => do
    let c ← st.read it
    if c.next = head then pure [c.member]
    else
      let rest ← avmListMembersFrom st head room c.next
      pure (c.member :: rest)

def avmListMembers (st : Store AvmList) (head : Nat) : Option (List Nat) :=
  if head = 0 then some [] else avmListMembersFrom st head st.top head

/-! ## Lists whose head is its own `next` -/

/-- Along `next`, the list consists of its head. -/
def One (st : Store AvmList) (head member : Nat) : Prop :=
  ∃ prev, st.read head = some ⟨head, prev, member⟩

variable {st st' : Store AvmList} {head member : Nat}

theorem One.ne_zero (h : One st head member) : head ≠ 0 :=
  h.elim fun _ h => Store.ne_zero_of_read h

theorem One.ne_top (h : One st head member) : head ≠ st.top :=
  h.elim fun _ h => Store.ne_top_of_read h

theorem One.of_read (h : One st head member) (he : st'.read head = st.read head) :
    One st' head member := h.imp fun _ h => he.trans h

/-- Adding to an empty list: the new node is its own neighbour on both sides. -/
theorem addHead_zero (st : Store AvmList) (member : Nat) :
    ∃ st', avmListAddHead st 0 member = some (st.top, st') ∧
      ∀ a, st'.read a = if a = st.top then some ⟨st.top, st.top, member⟩ else st.read a := by
  have h₀ : (st.alloc ⟨0, 0, member⟩).2.read st.top = some ⟨0, 0, member⟩ := by
    rw [Store.read_alloc, if_pos rfl]
  obtain ⟨s₁, e₁, -, r₁⟩ := Store.exists_modify h₀ fun c => { c with prev := st.top }
  have h₁ : s₁.read st.top = some ⟨0, st.top, member⟩ := by rw [r₁, if_pos rfl]
  obtain ⟨s₂, e₂, -, r₂⟩ := Store.exists_modify h₁ fun c => { c with prev := st.top }
  have h₂ : s₂.read st.top = some ⟨0, st.top, member⟩ := by rw [r₂, if_pos rfl]
  obtain ⟨s₃, e₃, -, r₃⟩ := Store.exists_modify h₂ fun c => { c with prev := st.top }
  have h₃ : s₃.read st.top = some ⟨0, st.top, member⟩ := by rw [r₃, if_pos rfl]
  obtain ⟨s₄, e₄, -, r₄⟩ := Store.exists_modify h₃ fun c => { c with next := st.top }
  refine ⟨s₄, ?_, fun a => ?_⟩
  · simp only [avmListAddHead, Store.alloc_fst, if_true, e₁, Option.bind_eq_bind, Option.bind_some,
      Option.pure_def, h₁, e₂, e₃, e₄]
  · rw [r₄, r₃, r₂, r₁, Store.read_alloc]
    split <;> rfl

/-- Adding to a list that is not empty: the new node is linked to the head and to the node before
it, the head back to the new node, and no other link is set. -/
theorem addHead_read {c : AvmList} (hc : st.read head = some c) (member : Nat) :
    ∃ st', avmListAddHead st head member = some (st.top, st') ∧ ∀ a, st'.read a =
      if a = st.top then some ⟨head, c.prev, member⟩
      else if a = head then some { c with prev := st.top } else st.read a := by
  have hne := Store.ne_top_of_read hc
  have h₀ : (st.alloc ⟨0, 0, member⟩).2.read st.top = some ⟨0, 0, member⟩ := by
    rw [Store.read_alloc, if_pos rfl]
  have g₀ : (st.alloc ⟨0, 0, member⟩).2.read head = some c := by rw [Store.read_alloc, if_neg hne, hc]
  obtain ⟨s₁, e₁, -, r₁⟩ := Store.exists_modify h₀ fun n => { n with prev := c.prev }
  have g₁ : s₁.read head = some c := by rw [r₁, if_neg hne, g₀]
  obtain ⟨s₂, e₂, -, r₂⟩ := Store.exists_modify g₁ fun h => { h with prev := st.top }
  have h₂ : s₂.read st.top = some ⟨0, c.prev, member⟩ := by
    rw [r₂, if_neg (Ne.symm hne), r₁, if_pos rfl]
  obtain ⟨s₃, e₃, -, r₃⟩ := Store.exists_modify h₂ fun n => { n with next := head }
  refine ⟨s₃, ?_, fun a => ?_⟩
  · simp only [avmListAddHead, Store.alloc_fst, Store.ne_zero_of_read hc, if_false, Option.bind_eq_bind,
      Option.pure_def, Option.bind_some, g₀, e₁, e₂, e₃]
  · rw [r₃]
    split
    · rfl
    · rename_i ha
      rw [r₂, r₁, if_neg ha, Store.read_alloc, if_neg ha]

/-- Adding to an empty list. -/
theorem addHead_null (st : Store AvmList) (member : Nat) :
    ∃ st', avmListAddHead st 0 member = some (st.top, st') ∧ One st' st.top member ∧
      ∀ a, a ≠ st.top → st'.read a = st.read a := by
  obtain ⟨st', e, hr⟩ := addHead_zero st member
  exact ⟨st', e, ⟨st.top, by rw [hr, if_pos rfl]⟩, fun a ha => by rw [hr, if_neg ha]⟩

theorem addTail_null (st : Store AvmList) (member : Nat) :
    ∃ st', avmListAddTail st 0 member = some (st.top, st') ∧ One st' st.top member ∧
      ∀ a, a ≠ st.top → st'.read a = st.read a := by
  obtain ⟨st', e, h⟩ := addHead_null st member
  exact ⟨st', by simp [avmListAddTail, e], h⟩

/-- Adding behind the head: the head stays its own `next`. -/
theorem addTail_one (h : One st head member) (new : Nat) :
    ∃ st', avmListAddTail st head new = some (head, st') ∧ One st' head member ∧
      ∀ a, a ≠ head → a ≠ st.top → st'.read a = st.read a := by
  obtain ⟨p, hp⟩ := h
  obtain ⟨st', e, hr⟩ := addHead_read hp new
  refine ⟨st', ?_, ⟨st.top, ?_⟩, fun a ha ht => by rw [hr, if_neg ht, if_neg ha]⟩
  · simp [avmListAddTail, e, Store.ne_zero_of_read hp]
  · rw [hr, if_neg (Store.ne_top_of_read hp), if_pos rfl]

/-- Taking the head out leaves the empty list. -/
theorem delHead_one (h : One st head member) :
    ∃ st', avmListDelHead st head = some (0, st') ∧ ∀ a, a ≠ head → st'.read a = st.read a := by
  obtain ⟨p, hp⟩ := h
  obtain ⟨s₁, e₁, -, r₁⟩ := Store.exists_free hp
  refine ⟨s₁, ?_, fun a ha => by rw [r₁, if_neg ha]⟩
  simp only [avmListDelHead, Store.ne_zero_of_read hp, if_false, hp, Option.bind_eq_bind,
    Option.bind_some, ne_eq, not_true, e₁, Option.pure_def]

theorem find_one (h : One st head member) (x : Nat) :
    avmListFind st head x = some (if member = x then head else 0) := by
  obtain ⟨p, hp⟩ := h
  obtain ⟨n, hn⟩ := Nat.exists_eq_succ_of_ne_zero (Store.top_ne_zero (s := st))
  simp only [avmListFind, Store.ne_zero_of_read hp, if_false, hn, Nat.succ_eq_add_one, avmListFindFrom,
    hp, Option.bind_eq_bind, Option.bind_some, if_true, Option.pure_def]
  split <;> rfl

theorem members_one (h : One st head member) : avmListMembers st head = some [member] := by
  obtain ⟨p, hp⟩ := h
  obtain ⟨n, hn⟩ := Nat.exists_eq_succ_of_ne_zero (Store.top_ne_zero (s := st))
  simp only [avmListMembers, Store.ne_zero_of_read hp, if_false, hn, Nat.succ_eq_add_one,
    avmListMembersFrom, hp, Option.bind_eq_bind, Option.bind_some, if_true, Option.pure_def]

end DShow.Alloc
