import Libcat.Sphynx.Collexion

/-!
# Subsets of Collexion

While a subset is outstanding `Remove` does not free a slot: the slot goes to the inactive list and
stays in the probe table, until the last `SubsetRelease` takes the whole list out in one batch. A run
is a list of calls; the calls of `ReleaseRef` that come after the lock was dropped are steps of
their own, so other calls may come before them.

- `Parts` is the invariant: the slots in use are those of two lists, and every object is found from
  its home over the slots of both.
- `Settled` says what holds of the collection, the batch and the log after any run of calls that are
  served (`Collexion.Serves`).
-/

namespace Libcat.Sphynx

open Intrusive Probe

/-- `MAX_DEFER_RELEASE` -/
def maxDeferRelease : Nat := 64

section Model

variable {T : Type}

/-- The loop of `ReleaseInactive`: the table that is left, and the objects in the order they are
met. -/
def CollexionTable.releaseLoop (mask : Nat) : Nat → Nat → CollexionTable T →
    Option (CollexionTable T × List (Option T))
  | 0, _, _ => none
  | fuel + 1, link, t =>
    if link = 0 then some (t, [])
    else do
      let key := link - 1
      let conn := Function.update t.conn key none
      let collide ←
        if t.collide key then some t.collide else clearBack mask conn fuel key t.collide
      let (t', released) ← releaseLoop mask fuel (t.next key)
        { t with
            conn := conn
            collide := collide
            kill := Function.update t.kill key false
            next := Function.update t.next key 0 }
      return (t', t.conn key :: released)

namespace Collexion

/-- `ReleaseInactive`. -/
def releaseInactive (fuel : Nat) (c : Collexion T) : Option (Collexion T × List (Option T)) := do
  let (t, released) ← c.table.releaseLoop (c.allocated - 1) fuel c.inactiveHead
  return ({ c with inactiveHead := 0, used := c.used - released.length, table := t }, released)

/-- `SubsetRelease`, up to where the lock is dropped. -/
def subsetRelease (fuel : Nat) (c : Collexion T) : Option (Collexion T × List (Option T)) :=
  let c := { c with referenceCount := c.referenceCount - 1 }
  if c.referenceCount = 0 ∧ c.inactiveHead ≠ 0 then c.releaseInactive fuel else some (c, [])

end Collexion

/-- A collection, and the objects that are out of it and whose `ReleaseRef` is still to come. -/
structure Shared (T : Type) where
  collexion : Collexion T
  deferred : List (Option T)

/-- Before the first call. -/
def Shared.new : Shared T := ⟨.new, []⟩

inductive SubsetOp (T : Type) where
  | insert (conn : T)
  | remove (conn : T)
  | subsetAcquire (criterion : Option T → Bool)
  | subsetRelease
  /-- One of the calls of `ReleaseRef` behind the lock. -/
  | releaseRef (i : Nat)

/-- What a call does. `taken` and `releaseRef` come with `_reference_count` at that time. -/
inductive SubsetEvent (T : Type) where
  | inserted (conn : T) (result : Bool)
  | removed (conn : T) (result : Bool)
  | acquired (subset : List (Option T))
  | taken (conn : Option T) (count : Nat)
  | releaseRef (conn : Option T) (count : Nat)
deriving DecidableEq

variable [DecidableEq T]

/-- A step; a call that does not return changes nothing, and `SubsetRelease` is for the holder of a
subset. -/
def subsetStep (hashPtr : T → u32) (fuel : Nat) (s : Shared T) :
    SubsetOp T → Shared T × List (SubsetEvent T)
  | .insert conn =>
    match s.collexion.insert hashPtr fuel conn with
    | none => (s, [])
    | some (c, result) => ({ s with collexion := c }, [.inserted conn result])
  | .remove conn =>
    match s.collexion.remove hashPtr fuel conn with
    | none => (s, [])
    | some (c, result) =>
      if result ∧ s.collexion.referenceCount = 0 then
        (⟨c, s.deferred ++ [some conn]⟩, [.removed conn result, .taken (some conn) 0])
      else
        ({ s with collexion := c }, [.removed conn result])
  | .subsetAcquire criterion =>
    match s.collexion.subsetAcquire fuel criterion with
    | none => (s, [])
    | some (c, subset) => ({ s with collexion := c }, [.acquired subset])
  | .subsetRelease =>
    if s.collexion.referenceCount = 0 then (s, [])
    else
      match s.collexion.subsetRelease fuel with
      | none => (s, [])
      | some (c, released) =>
        (⟨c, s.deferred ++ released.take maxDeferRelease⟩,
          released.map (.taken · c.referenceCount) ++
            (released.drop maxDeferRelease).map (.releaseRef · c.referenceCount))
  | .releaseRef i =>
    match s.deferred[i]? with
    | none => (s, [])
    | some conn =>
      ({ s with deferred := s.deferred.eraseIdx i }, [.releaseRef conn s.collexion.referenceCount])

/-! ## What is promised -/

/-- The objects that were inserted and not removed since. -/
def members (log : List (SubsetEvent T)) : Finset T :=
  log.foldl (fun s e =>
    match e with
    | .inserted conn true => insert conn s
    | .removed conn true => s.erase conn
    | _ => s) ∅

/-- The references that were taken of an object. -/
def refsTaken (conn : T) (log : List (SubsetEvent T)) : Nat := log.count (.inserted conn true)

/-- The times an object left the table. -/
def takenOut (conn : T) (log : List (SubsetEvent T)) : Nat :=
  log.countP fun | .taken c _ => c = some conn | _ => false

/-- The times its reference was released. -/
def refsReleased (conn : T) (log : List (SubsetEvent T)) : Nat :=
  log.countP fun | .releaseRef c _ => c = some conn | _ => false

/-- The active list has each member once, and `Remove` finds it. A reference that was taken belongs
to a member or to an object on the inactive list, or its object left the table; that happens at a
`_reference_count` of zero, and the reference is released once. -/
structure Settled (hashPtr : T → u32) (fuel : Nat) (s : Shared T) (log : List (SubsetEvent T)) :
    Prop where
  active : ∃ l : List T, s.collexion.table.list fuel s.collexion.activeHead = some (l.map some) ∧
    l.Nodup ∧ l.toFinset = members log
  found : ∀ conn ∈ members log, ∃ c, s.collexion.remove hashPtr fuel conn = some (c, true)
  accounts : ∃ inactive : List T,
    s.collexion.table.list fuel s.collexion.inactiveHead = some (inactive.map some) ∧
      inactive.Nodup ∧ (∀ conn ∈ inactive, conn ∉ members log) ∧
      (s.collexion.referenceCount = 0 → inactive = []) ∧
      ∀ conn, refsTaken conn log =
        (if conn ∈ members log then 1 else 0) + inactive.count conn + takenOut conn log
  once : ∀ conn, takenOut conn log = s.deferred.count (some conn) + refsReleased conn log
  unshared : ∀ conn count, .taken conn count ∈ log → count = 0

/-- What a call needs. -/
def SubsetServes (hashPtr : T → u32) (s : Shared T) : SubsetOp T → Prop
  | .insert conn => s.collexion.Serves hashPtr (.insert conn)
  | .remove conn => s.collexion.Serves hashPtr (.remove conn)
  | _ => True

end Model

/-! ## The batch -/

section Invariant

variable {T : Type} {hashPtr : T → u32}

/-- The slots `keys` are on the active list, the slots `dead` on the inactive one. -/
structure Parts (hashPtr : T → u32) (c : Collexion T) (keys dead : List Nat) : Prop where
  allocated : c.allocated = 0 ∧ keys ++ dead = [] ∨ c.allocated = 32
  slots : Slots hashPtr c.table.conn c.table.collide (keys ++ dead)
  active : Linked (fun k => linkSlot (c.table.next k)) (fun k => linkSlot (c.table.prev k))
    (linkSlot c.activeHead) keys
  inactive : Linked (fun k => linkSlot (c.table.next k)) (fun k => linkSlot (c.table.prev k))
    (linkSlot c.inactiveHead) dead
  kill : ∀ k ∈ keys ++ dead, c.table.kill k = true ↔ k ∈ dead
  used : c.used = (keys ++ dead).length
  idle : c.referenceCount = 0 → dead = []

namespace CollexionTable

theorem releaseLoop_of_ne {mask fuel link : Nat} {t : CollexionTable T} (h : link ≠ 0) :
    t.releaseLoop mask (fuel + 1) link =
      (if t.collide (link - 1) then some t.collide
        else clearBack mask (Function.update t.conn (link - 1) none) fuel (link - 1) t.collide).bind
        fun collide =>
          (releaseLoop mask fuel (t.next (link - 1))
            { t with
                conn := Function.update t.conn (link - 1) none
                collide := collide
                kill := Function.update t.kill (link - 1) false
                next := Function.update t.next (link - 1) 0 }).map
            fun r => (r.1, t.conn (link - 1) :: r.2) := by
  rw [releaseLoop, if_neg h]
  simp only [Option.bind_eq_bind, Option.pure_def, Option.map_eq_bind]
  cases t.collide (link - 1) <;> rfl

/-- **The loop of `ReleaseInactive`** frees the slots of the list and no others. -/
theorem releaseLoop_spec : ∀ {dead keys : List Nat} {fuel link : Nat} {t : CollexionTable T},
    33 + dead.length ≤ fuel → Slots hashPtr t.conn t.collide (dead ++ keys) →
      Seg (fun k => linkSlot (t.next k)) (linkSlot link) dead none →
        ∃ t', t.releaseLoop 31 fuel link = some (t', dead.map t.conn) ∧
          Slots hashPtr t'.conn t'.collide keys ∧
          (∀ k ∈ keys, t'.conn k = t.conn k ∧ t'.next k = t.next k ∧ t'.kill k = t.kill k) ∧
          t'.prev = t.prev := by
  intro dead
  induction dead with
  | nil =>
    rintro keys (- | fuel) link t hfuel hslots hseg
    · omega
    · have hzero : link = 0 := by
        by_contra h
        rw [linkSlot_of_ne h] at hseg
        cases hseg
      exact ⟨t, by simp [releaseLoop, hzero], hslots, fun _ _ => ⟨rfl, rfl, rfl⟩, rfl⟩
  | cons k dead ih =>
    rintro keys (- | fuel) link t hfuel hslots ⟨hhead, hrest⟩
    · omega
    · have hne : link ≠ 0 := by
        rintro rfl
        cases hhead
      rw [linkSlot_of_ne hne] at hhead
      obtain rfl := Option.some.inj hhead
      rw [List.length_cons] at hfuel
      obtain ⟨hk, hnd⟩ := List.nodup_cons.mp hslots.nodup
      have hnot : ∀ k' ∈ dead ++ keys, k' ≠ link - 1 := by
        rintro k' hk' rfl
        exact hk hk'
      obtain ⟨collide, hclear, hslots'⟩ := hslots.exists_clearBack (show 33 ≤ fuel by omega)
      let t₁ : CollexionTable T :=
        { t with
            conn := Function.update t.conn (link - 1) none
            collide := collide
            kill := Function.update t.kill (link - 1) false
            next := Function.update t.next (link - 1) 0 }
      have hrest' : Seg (fun k => linkSlot (t₁.next k)) (linkSlot (t.next (link - 1))) dead none := by
        refine hrest.congr fun k' hk' => ?_
        show linkSlot (Function.update t.next (link - 1) 0 k') = linkSlot (t.next k')
        rw [Function.update_of_ne (hnot k' (List.mem_append_left _ hk'))]
      obtain ⟨t', hrun, hkeys, hsame, hprev⟩ :=
        @ih keys fuel _ t₁ (by omega) hslots' hrest'
      refine ⟨t', ?_, hkeys, fun k' hk' => ?_, hprev⟩
      · rw [releaseLoop_of_ne hne, hclear, Option.bind_some, hrun, Option.map_some, List.map_cons]
        refine congrArg (fun l => some (t', t.conn (link - 1) :: l)) (List.map_congr_left fun k' hk' => ?_)
        show Function.update t.conn (link - 1) none k' = t.conn k'
        rw [Function.update_of_ne (hnot k' (List.mem_append_left _ hk'))]
      · obtain ⟨h1, h2, h3⟩ := hsame k' hk'
        have hne' := hnot k' (List.mem_append_right _ hk')
        refine ⟨h1.trans ?_, h2.trans ?_, h3.trans ?_⟩
        · exact Function.update_of_ne hne' _ _
        · exact Function.update_of_ne hne' _ _
        · exact Function.update_of_ne hne' _ _

end CollexionTable

namespace Parts

variable {c : Collexion T} {keys dead : List Nat}

theorem new : Parts hashPtr (Collexion.new : Collexion T) [] [] where
  allocated := .inl ⟨rfl, rfl⟩
  slots := Slots.nil
  active := linked_nil _ _
  inactive := linked_nil _ _
  kill := by simp
  used := rfl
  idle := fun _ => rfl

theorem nodup (h : Parts hashPtr c keys dead) :
    keys.Nodup ∧ dead.Nodup ∧ ∀ k ∈ keys, k ∉ dead := by
  obtain ⟨h1, h2, h3⟩ := List.nodup_append.mp h.slots.nodup
  exact ⟨h1, h2, fun k hk hk' => h3 k hk k hk' rfl⟩

theorem allocated_of_conn (h : Parts hashPtr c keys dead) {k : Nat} {a : T}
    (hk : c.table.conn k = some a) : c.allocated = 32 := by
  rcases h.allocated with ⟨-, hnil⟩ | h32
  · have := h.slots.mem_of_conn hk
    rw [hnil] at this
    cases this
  · exact h32

theorem has_iff (h : Parts hashPtr c keys dead) {a : T} :
    c.Has a ↔ ∃ k, c.table.conn k = some a := by
  constructor
  · rintro ⟨k, -, hk⟩
    exact ⟨k, hk⟩
  · rintro ⟨k, hk⟩
    refine ⟨k, ?_, hk⟩
    rw [h.allocated_of_conn hk]
    exact h.slots.lt_of_conn hk

/-- `Insert` begins with the smallest table, if there is none. -/
theorem grown (h : Parts hashPtr c keys dead) (hroom : ¬(0 < c.used ∧ c.allocated / 2 ≤ c.used))
    (fuel : Nat) :
    ∃ c', c.grow fuel = some c' ∧ Parts hashPtr c' keys dead ∧ c'.allocated = 32 ∧
      (keys ++ dead).length < 32 ∧ c'.referenceCount = c.referenceCount ∧
        (c.allocated ≠ 0 → c' = c) ∧ c'.table.conn = c.table.conn := by
  rcases h.allocated with ⟨hzero, hnil⟩ | h32
  · obtain ⟨rfl, rfl⟩ := List.append_eq_nil_iff.mp hnil
    have hused : c.used = 0 := h.used
    refine ⟨{ c with
                allocated := minAllocated
                activeHead := 0
                inactiveHead := 0
                table := .clear }, ?_, ?_, rfl, by decide, rfl, fun hne => absurd hzero hne, ?_⟩
    · rw [Collexion.grow, if_pos (by rw [hzero, hused]), Collexion.doubleTable, hzero]
      rfl
    · exact ⟨.inr rfl, Slots.nil, linked_nil _ _, linked_nil _ _, by simp, hused, fun _ => rfl⟩
    · funext k
      have hnone : c.table.conn k = none := by
        have := h.slots.occupied k
        simpa using this
      exact hnone.symm
  · have hlen := h.used
    rw [h32] at hroom
    exact ⟨c, by rw [Collexion.grow, h32, if_neg (by omega)], h, h32, by omega, rfl, fun _ => rfl, rfl⟩

/-- More flags do no harm. -/
theorem flagged (h : Parts hashPtr c keys dead) {collide : Nat → Bool}
    (hmono : ∀ x, c.table.collide x = true → collide x = true) :
    Parts hashPtr { c with table := { c.table with collide := collide } } keys dead :=
  { h with slots := { h.slots with found := fun k a hk => (h.slots.found k a hk).mono hmono } }

theorem fill (h : Parts hashPtr c keys dead) (h32 : c.allocated = 32) {conn : T} {k : Nat}
    (hk : k < 32) (hfree : c.table.conn k = none) (habsent : ∀ k, c.table.conn k ≠ some conn)
    (hreach : Reaches (probe 31) c.table.collide (homeOf hashPtr conn) k) (hash : u32) :
    Parts hashPtr (c.fill hash conn k) (k :: keys) dead := by
  have hslots := h.slots.fill hk hfree habsent hreach
  obtain ⟨hk', -⟩ := List.nodup_cons.mp hslots.nodup
  rw [List.mem_append, not_or] at hk'
  obtain ⟨hkeys, hdead, hdisj⟩ := h.nodup
  refine ⟨.inr h32, hslots, ?_, ?_, fun k' hmem => ?_, ?_, h.idle⟩
  · have hpush := h.active.pushFront hkeys hk'.1
    simp only [Collexion.fill, linkSlot_update, linkSlot_write, linkSlot_zero,
      linkSlot_succ]
    exact hpush
  · simp only [Collexion.fill, linkSlot_update, linkSlot_write, linkSlot_zero,
      linkSlot_succ]
    have hne : ∀ d ∈ dead, d ≠ k := by
      rintro d hd rfl
      exact hk'.2 hd
    refine h.inactive.congr (fun d hd => Function.update_of_ne (hne d hd) _ _) fun d hd => ?_
    rw [Function.update_of_ne (hne d hd)]
    exact write_of_ne fun he => hdisj d (h.active.mem_of_head he) hd
  · show Function.update c.table.kill k false k' = true ↔ k' ∈ dead
    by_cases heq : k' = k
    · rw [heq, Function.update_self]
      simpa using hk'.2
    · rw [Function.update_of_ne heq]
      exact h.kill k' ((List.mem_cons.mp hmem).resolve_left heq)
  · rw [List.cons_append, List.length_cons, ← h.used]
    rfl

/-- `Inactivate`: the writes of the unlinking, and those of the push. -/
theorem inactivate_eq (c : Collexion T) (k : Nat) :
    c.inactivate k =
      { c with
          activeHead := if c.table.prev k ≠ 0 then c.activeHead else c.table.next k
          inactiveHead := k + 1
          table :=
            { c.table with
                kill := Function.update c.table.kill k true
                next := Function.update (if c.table.prev k ≠ 0 then
                  Function.update c.table.next (c.table.prev k - 1) (c.table.next k)
                  else c.table.next) k c.inactiveHead
                prev := Function.update (if c.inactiveHead ≠ 0 then
                  Function.update (if c.table.next k ≠ 0 then
                    Function.update c.table.prev (c.table.next k - 1) (c.table.prev k)
                    else c.table.prev) (c.inactiveHead - 1) (k + 1)
                  else if c.table.next k ≠ 0 then
                    Function.update c.table.prev (c.table.next k - 1) (c.table.prev k)
                  else c.table.prev) k 0 } } := by
  simp only [Collexion.inactivate, CollexionTable.unlink_eq]

theorem inactivate {l m : List Nat} {k : Nat} (h : Parts hashPtr c (l ++ k :: m) dead)
    (hcount : c.referenceCount ≠ 0) : Parts hashPtr (c.inactivate k) (l ++ m) (k :: dead) := by
  obtain ⟨hkeys, hdead, hdisj⟩ := h.nodup
  have hperm : (l ++ k :: m ++ dead).Perm (l ++ m ++ k :: dead) := by
    simp only [List.append_assoc, List.cons_append]
    refine List.Perm.append_left l ?_
    exact List.perm_middle.symm
  have hslots := h.slots.perm hperm
  have hnd := List.nodup_middle.mp hkeys
  obtain ⟨hk, -⟩ := List.nodup_cons.mp hnd
  have hkd : k ∉ dead := hdisj k (by simp)
  have hsub : ∀ x ∈ l ++ m, x ∈ l ++ k :: m := by
    intro x hx
    rw [List.mem_append] at hx ⊢
    exact hx.imp_right (List.mem_cons_of_mem _)
  have hmemk : k ∈ l ++ k :: m := by simp
  -- the neighbours of the slot are on the active list
  have hnext : ∀ d ∈ dead, linkSlot (c.table.next k) ≠ some d := fun d hd he =>
    hdisj d (h.active.mem_of_next hmemk he) hd
  have hprev : ∀ d ∈ dead, linkSlot (c.table.prev k) ≠ some d := fun d hd he =>
    hdisj d (h.active.mem_of_prev hmemk he) hd
  have hunlink := h.active.unlink hkeys
  have hframe : Linked
      (write (fun k => linkSlot (c.table.next k)) (linkSlot (c.table.prev k)) (linkSlot (c.table.next k)))
      (write (fun k => linkSlot (c.table.prev k)) (linkSlot (c.table.next k)) (linkSlot (c.table.prev k)))
      (linkSlot c.inactiveHead) dead :=
    h.inactive.congr (fun d hd => write_of_ne (hprev d hd)) fun d hd => write_of_ne (hnext d hd)
  have hpush := hframe.pushFront hdead hkd
  have hhead : linkSlot (if c.table.prev k ≠ 0 then c.activeHead else c.table.next k) =
      if linkSlot (c.table.prev k) = none then linkSlot (c.table.next k)
      else linkSlot c.activeHead := by
    by_cases hp : c.table.prev k = 0
    · simp [hp, linkSlot_zero]
    · simp [hp, linkSlot_of_ne]
  have h32 : c.allocated = 32 := by
    rcases h.allocated with ⟨-, hnil⟩ | h32
    · simp at hnil
    · exact h32
  rw [inactivate_eq]
  refine ⟨.inr h32, hslots, ?_, ?_, fun k' hmem => ?_, ?_, fun h0 => absurd h0 hcount⟩
  · simp only [linkSlot_update, linkSlot_write, linkSlot_succ, linkSlot_zero]
    rw [hhead]
    have hne : ∀ d ∈ l ++ m, d ≠ k := by
      rintro d hd rfl
      exact hk hd
    refine hunlink.congr (fun d hd => Function.update_of_ne (hne d hd) _ _) fun d hd => ?_
    rw [Function.update_of_ne (hne d hd)]
    exact write_of_ne fun he => hdisj d (hsub d hd) (h.inactive.mem_of_head he)
  · simp only [linkSlot_update, linkSlot_write, linkSlot_succ, linkSlot_zero]
    exact hpush
  · show Function.update c.table.kill k true k' = true ↔ k' ∈ k :: dead
    by_cases heq : k' = k
    · simp [heq]
    · rw [Function.update_of_ne heq, h.kill k' (hperm.mem_iff.mpr hmem)]
      simp [heq]
  · rw [← hperm.length_eq]
    exact h.used

theorem holds (h : Parts hashPtr c keys []) (hcount : c.referenceCount = 0) : Holds hashPtr c keys := by
  have hslots := h.slots
  have hallocated := h.allocated
  have hused := h.used
  rw [List.append_nil] at hslots hallocated hused
  exact ⟨hcount, hallocated, hslots.lt, hslots.nodup, hslots.occupied, hslots.inj, h.active,
    hslots.found, hused⟩

/-- `UnlinkActive`. -/
theorem unlinkActive {l m : List Nat} {k : Nat} (h : Parts hashPtr c (l ++ k :: m) [])
    (hcount : c.referenceCount = 0) {fuel : Nat} (hfuel : 33 ≤ fuel) :
    ∃ collide, c.unlinkActive fuel k = some (c.without k collide) ∧
      Parts hashPtr (c.without k collide) (l ++ m) [] := by
  obtain ⟨collide, hrun, hc'⟩ := (h.holds hcount).unlinkActive_mid hfuel
  refine ⟨collide, hrun, ?_⟩
  have hslots := hc'.slots
  have hallocated := hc'.allocated
  have hused := hc'.used
  rw [← List.append_nil (l ++ m)] at hslots hallocated hused
  refine ⟨hallocated, hslots, hc'.linked, ⟨h.inactive.next, rfl⟩, fun k' hk' => ?_, hused, fun _ => rfl⟩
  refine h.kill k' ?_
  rw [List.append_nil, List.mem_append] at hk' ⊢
  exact hk'.imp_right (List.mem_cons_of_mem _)

theorem list_active (h : Parts hashPtr c keys dead) {fuel : Nat} (hfuel : 33 ≤ fuel) :
    c.table.list fuel c.activeHead = some (keys.map c.table.conn) := by
  have hlen := h.slots.length_le
  rw [List.length_append] at hlen
  exact CollexionTable.list_eq (by omega) h.active.next

theorem list_inactive (h : Parts hashPtr c keys dead) {fuel : Nat} (hfuel : 33 ≤ fuel) :
    c.table.list fuel c.inactiveHead = some (dead.map c.table.conn) := by
  have hlen := h.slots.length_le
  rw [List.length_append] at hlen
  exact CollexionTable.list_eq (by omega) h.inactive.next

/-- The count of subsets may change while the inactive list is empty, or to something positive. -/
theorem recount (h : Parts hashPtr c keys dead) {count : Nat} (hcount : count = 0 → dead = []) :
    Parts hashPtr { c with referenceCount := count } keys dead :=
  { h with idle := hcount }

/-- `ReleaseInactive`, at any count. -/
theorem releaseInactive (h : Parts hashPtr c keys dead) {fuel : Nat} (hfuel : 65 ≤ fuel)
    (hdead : dead ≠ []) (count : Nat) :
    ∃ c', Collexion.releaseInactive fuel { c with referenceCount := count } =
        some (c', dead.map c.table.conn) ∧
      Parts hashPtr c' keys [] ∧ c'.referenceCount = count ∧
        ∀ k ∈ keys, c'.table.conn k = c.table.conn k := by
  have h32 : c.allocated = 32 := by
    rcases h.allocated with ⟨-, hnil⟩ | h32
    · exact absurd (List.append_eq_nil_iff.mp hnil).2 hdead
    · exact h32
  have hlen := h.slots.length_le
  rw [List.length_append] at hlen
  obtain ⟨t', hrun, hslots, hsame, hprev⟩ := CollexionTable.releaseLoop_spec
    (show 33 + dead.length ≤ fuel by omega) (h.slots.perm List.perm_append_comm) h.inactive.next
  refine ⟨{ c with
              referenceCount := count
              inactiveHead := 0
              used := c.used - (dead.map c.table.conn).length
              table := t' }, ?_, ?_, rfl, fun k hk => (hsame k hk).1⟩
  · simp [Collexion.releaseInactive, h32, hrun]
  · rw [← List.append_nil keys] at hslots
    refine ⟨.inr h32, hslots, ?_, linked_nil _ _, fun k hk => ?_, ?_, fun _ => rfl⟩
    · refine h.active.congr (fun k hk => ?_) fun k hk => ?_
      · show linkSlot (t'.next k) = linkSlot (c.table.next k)
        rw [(hsame k hk).2.1]
      · show linkSlot (t'.prev k) = linkSlot (c.table.prev k)
        rw [hprev]
    · rw [List.append_nil] at hk
      show t'.kill k = true ↔ k ∈ []
      rw [(hsame k hk).2.2, h.kill k (List.mem_append_left _ hk)]
      simpa using h.nodup.2.2 k hk
    · have hused := h.used
      rw [List.length_append] at hused
      simp only [List.length_map, List.append_nil]
      omega

/-! ### Calls -/

section Calls

variable [DecidableEq T]

/-- `Insert` of an object that is in the table, on either list. -/
theorem insert_present (h : Parts hashPtr c keys dead) {conn : T}
    (hserves : c.Serves hashPtr (.insert conn)) {k : Nat} (hk : c.table.conn k = some conn)
    {fuel : Nat} (hfuel : 65 ≤ fuel) : c.insert hashPtr fuel conn = some (c, false) := by
  obtain ⟨hroom, hbefore⟩ := hserves
  obtain ⟨c', hgrow, -, h32, -, -, hsame, -⟩ := h.grown hroom fuel
  have hc32 := h.allocated_of_conn hk
  obtain rfl := hsame (by omega)
  obtain ⟨n, hn, hwalk⟩ := exists_probe_eq (homeOf hashPtr conn) (and_mask_lt _) k
    (h.slots.lt_of_conn hk)
  have hbefore' := hbefore (h.has_iff.mpr ⟨k, hk⟩)
  rw [h32] at hbefore'
  have hloop := CollexionTable.insertLoop_present hk (show n < fuel by omega) hwalk
    (h.slots.found k conn hk) hbefore'
  rw [Collexion.insert_eq hgrow h32 hloop]
  rfl

theorem insert_absent (h : Parts hashPtr c keys dead) {conn : T}
    (hserves : c.Serves hashPtr (.insert conn)) (habsent : ∀ k, c.table.conn k ≠ some conn)
    {fuel : Nat} (hfuel : 65 ≤ fuel) :
    ∃ c' k, c.insert hashPtr fuel conn = some (c', true) ∧ Parts hashPtr c' (k :: keys) dead ∧
      c'.referenceCount = c.referenceCount ∧ c.table.conn k = none ∧
        c'.table.conn = Function.update c.table.conn k (some conn) := by
  obtain ⟨c', hgrow, hc', h32, hlen, hcount, -, hconn⟩ := h.grown hserves.1 fuel
  rw [← hconn] at habsent
  obtain ⟨e, he, hfree⟩ := hc'.slots.exists_free hlen
  obtain ⟨n, hn, hwalk⟩ := exists_probe_eq (homeOf hashPtr conn) (and_mask_lt _) e he
  have hhome : homeOf hashPtr conn < 32 := and_mask_lt _
  rw [← hwalk] at hfree
  obtain ⟨k, collide, hloop, hk, hnone, hmono, hreach⟩ :=
    CollexionTable.insertLoop_free (show 2 * n < fuel by omega) hhome habsent hfree
  have hfill := (hc'.flagged hmono).fill h32 hk hnone habsent hreach (hashPtr conn)
  refine ⟨_, k, ?_, hfill, hcount, hconn ▸ hnone, ?_⟩
  · rw [Collexion.insert_eq hgrow h32 hloop]
    rfl
  · rw [← hconn]
    rfl

/-- `Remove` finds an object that is in the table. -/
theorem remove_present (h : Parts hashPtr c keys dead) {conn : T} {k : Nat}
    (hk : c.table.conn k = some conn) {fuel : Nat} (hfuel : 65 ≤ fuel) :
    c.remove hashPtr fuel conn =
      if c.referenceCount = 0 then (c.unlinkActive fuel k).map (·, true)
      else if c.table.kill k then some (c, true) else some (c.inactivate k, true) := by
  have h32 := h.allocated_of_conn hk
  have hused : c.used ≠ 0 := by
    intro h0
    rw [h.used, List.length_eq_zero_iff] at h0
    have := h.slots.mem_of_conn hk
    rw [h0] at this
    cases this
  obtain ⟨n, hn, hwalk⟩ := exists_probe_eq (homeOf hashPtr conn) (and_mask_lt _) k
    (h.slots.lt_of_conn hk)
  have hloop := CollexionTable.findLoop_found hk (fun k' hk' => h.slots.inj k' k conn hk' hk)
    (show n < fuel by omega) hwalk (h.slots.found k conn hk)
  simp only [Collexion.remove, hused, if_false, h32]
  rw [show (hashPtr conn).toNat &&& (32 - 1) = homeOf hashPtr conn from rfl, hloop]
  simp only [Option.bind_eq_bind, Option.bind_some, Option.pure_def, Option.map_eq_bind]
  split
  · rfl
  · split <;> rfl

theorem remove_absent (h : Parts hashPtr c keys dead) {conn : T}
    (hserves : c.Serves hashPtr (.remove conn)) (habsent : ∀ k, c.table.conn k ≠ some conn)
    {fuel : Nat} (hfuel : 65 ≤ fuel) : c.remove hashPtr fuel conn = some (c, false) := by
  by_cases hused : c.used = 0
  · simp [Collexion.remove, hused]
  · obtain hhas | hzero | ⟨u, hu, hflag⟩ := hserves
    · obtain ⟨k, hk⟩ := h.has_iff.mp hhas
      exact absurd hk (habsent k)
    · exact absurd hzero hused
    · have h32 : c.allocated = 32 := by
        rcases h.allocated with ⟨h0, -⟩ | h32
        · rw [h0] at hu
          exact absurd hu (Nat.not_lt_zero _)
        · exact h32
      rw [h32] at hu
      obtain ⟨n, hn, hwalk⟩ := exists_probe_eq (homeOf hashPtr conn) (and_mask_lt _) u hu
      have hloop := CollexionTable.findLoop_absent habsent (show n < fuel by omega)
        (by rw [hwalk]; exact hflag)
      simp only [Collexion.remove, hused, if_false, h32]
      rw [show (hashPtr conn).toNat &&& (32 - 1) = homeOf hashPtr conn from rfl, hloop]
      rfl

end Calls

end Parts

/-! ## Runs -/

section Log

variable [DecidableEq T]

/-- What one event does to the members. -/
def memberStep (s : Finset T) : SubsetEvent T → Finset T
  | .inserted conn true => insert conn s
  | .removed conn true => s.erase conn
  | _ => s

theorem members_append (log evs : List (SubsetEvent T)) :
    members (log ++ evs) = evs.foldl memberStep (members log) := by
  have hstep : ∀ log : List (SubsetEvent T), members log = log.foldl memberStep ∅ := fun _ => rfl
  rw [hstep, hstep, List.foldl_append]

theorem refsTaken_append (conn : T) (log evs : List (SubsetEvent T)) :
    refsTaken conn (log ++ evs) = refsTaken conn log + refsTaken conn evs := List.count_append

theorem takenOut_append (conn : T) (log evs : List (SubsetEvent T)) :
    takenOut conn (log ++ evs) = takenOut conn log + takenOut conn evs := List.countP_append

theorem refsReleased_append (conn : T) (log evs : List (SubsetEvent T)) :
    refsReleased conn (log ++ evs) = refsReleased conn log + refsReleased conn evs :=
  List.countP_append

theorem takenOut_batch (conn : T) (l : List (Option T)) (count : Nat) :
    takenOut conn (l.map (SubsetEvent.taken · count)) = l.count (some conn) := by
  rw [takenOut, List.countP_map, List.count]
  refine List.countP_congr fun x _ => ?_
  simp

theorem refsReleased_batch (conn : T) (l : List (Option T)) (count : Nat) :
    refsReleased conn (l.map (SubsetEvent.releaseRef · count)) = l.count (some conn) := by
  rw [refsReleased, List.countP_map, List.count]
  refine List.countP_congr fun x _ => ?_
  simp

/-- The invariant of a run. -/
structure Shared.Inv (hashPtr : T → u32) (s : Shared T) (log : List (SubsetEvent T))
    (keys dead : List Nat) : Prop where
  parts : Parts hashPtr s.collexion keys dead
  members : ∀ conn, conn ∈ members log ↔ ∃ k ∈ keys, s.collexion.table.conn k = some conn
  accounts : ∀ conn, refsTaken conn log = (keys.map s.collexion.table.conn).count (some conn) +
    (dead.map s.collexion.table.conn).count (some conn) + takenOut conn log
  once : ∀ conn, takenOut conn log = s.deferred.count (some conn) + refsReleased conn log
  unshared : ∀ conn count, .taken conn count ∈ log → count = 0

omit [DecidableEq T] in
theorem map_update_of_notMem {l : List Nat} {k : Nat} (h : k ∉ l) (conn : Nat → Option T)
    (x : Option T) : l.map (Function.update conn k x) = l.map conn := by
  refine List.map_congr_left fun k' hk' => Function.update_of_ne ?_ _ _
  rintro rfl
  exact h hk'

namespace Shared.Inv

variable {s : Shared T} {log : List (SubsetEvent T)} {keys dead : List Nat} {fuel : Nat}

/-- A step that leaves the table alone. -/
theorem quiet (h : Inv hashPtr s log keys dead) {evs : List (SubsetEvent T)}
    (hmem : evs.foldl memberStep (Sphynx.members log) = Sphynx.members log)
    (hrefs : ∀ conn, refsTaken conn evs = 0) (htaken : ∀ conn, takenOut conn evs = 0)
    (hreleased : ∀ conn, refsReleased conn evs = 0)
    (hun : ∀ conn count, .taken conn count ∉ evs) : Inv hashPtr s (log ++ evs) keys dead where
  parts := h.parts
  members := by
    intro conn
    rw [members_append, hmem]
    exact h.members conn
  accounts := by
    intro conn
    rw [refsTaken_append, takenOut_append, hrefs, htaken]
    exact h.accounts conn
  once := by
    intro conn
    rw [takenOut_append, refsReleased_append, htaken, hreleased]
    exact h.once conn
  unshared := by
    intro conn count hm
    exact h.unshared conn count ((List.mem_append.mp hm).resolve_right (hun conn count))

theorem insert (h : Inv hashPtr s log keys dead) (hfuel : 65 ≤ fuel) {conn : T}
    (hserves : s.collexion.Serves hashPtr (.insert conn)) :
    ∃ keys' dead', Inv hashPtr (subsetStep hashPtr fuel s (.insert conn)).1
      (log ++ (subsetStep hashPtr fuel s (.insert conn)).2) keys' dead' := by
  by_cases hin : ∃ k, s.collexion.table.conn k = some conn
  · obtain ⟨k, hk⟩ := hin
    simp only [subsetStep, h.parts.insert_present hserves hk hfuel]
    exact ⟨keys, dead, h.quiet rfl (by simp [refsTaken]) (by simp [takenOut])
      (by simp [refsReleased]) (by simp)⟩
  have habsent : ∀ k, s.collexion.table.conn k ≠ some conn := fun k hk => hin ⟨k, hk⟩
  obtain ⟨c', k, hrun, hparts, -, hfree, hconn⟩ := h.parts.insert_absent hserves habsent hfuel
  simp only [subsetStep, hrun]
  have hnot : k ∉ keys ++ dead := by
    rw [h.parts.slots.occupied, hfree]
    simp
  rw [List.mem_append, not_or] at hnot
  refine ⟨k :: keys, dead, hparts, fun a => ?_, fun a => ?_, fun a => ?_, fun a n hm => ?_⟩
  · rw [members_append]
    show a ∈ Insert.insert conn (Sphynx.members log) ↔ ∃ k' ∈ k :: keys, c'.table.conn k' = some a
    rw [Finset.mem_insert, h.members, hconn]
    constructor
    · rintro (rfl | ⟨k', hk', hs⟩)
      · exact ⟨k, List.mem_cons_self, Function.update_self ..⟩
      · refine ⟨k', List.mem_cons_of_mem _ hk', ?_⟩
        rwa [Function.update_of_ne (ne_of_mem_of_not_mem hk' hnot.1)]
    · rintro ⟨k', hk', hs⟩
      by_cases heq : k' = k
      · rw [heq, Function.update_self] at hs
        exact .inl (Option.some.inj hs).symm
      · rw [Function.update_of_ne heq] at hs
        exact .inr ⟨k', (List.mem_cons.mp hk').resolve_left heq, hs⟩
  · have hnew : refsTaken a [.inserted conn true] = if conn = a then 1 else 0 := by
      by_cases ha : conn = a
      · simp [refsTaken, ha]
      · simp [refsTaken, ha]
    have hzero : takenOut a [.inserted conn true] = 0 := by simp [takenOut]
    rw [refsTaken_append, takenOut_append, h.accounts, hnew, hzero]
    show _ = ((k :: keys).map c'.table.conn).count (some a) +
      (dead.map c'.table.conn).count (some a) + _
    rw [hconn, List.map_cons, Function.update_self, map_update_of_notMem hnot.1,
      map_update_of_notMem hnot.2, List.count_cons]
    by_cases ha : conn = a
    · simp only [ha, if_true, beq_self_eq_true]
      omega
    · simp only [ha, if_false, beq_iff_eq, Option.some.injEq]
      omega
  · have hzero : takenOut a [.inserted conn true] = 0 := by simp [takenOut]
    have hzero' : refsReleased a [.inserted conn true] = 0 := by simp [refsReleased]
    rw [takenOut_append, refsReleased_append, hzero, hzero']
    exact h.once a
  · exact h.unshared a n (by simpa using hm)

/-- A member that is removed is on the active list no more. -/
theorem members_erase {l m : List Nat} {k : Nat} (h : Inv hashPtr s log (l ++ k :: m) dead) {conn : T}
    (hk : s.collexion.table.conn k = some conn) (a : T) :
    a ∈ (Sphynx.members log).erase conn ↔ ∃ k' ∈ l ++ m, s.collexion.table.conn k' = some a := by
  have hnd := List.nodup_cons.mp (List.nodup_middle.mp h.parts.nodup.1)
  rw [Finset.mem_erase, h.members]
  constructor
  · rintro ⟨hne, k', hk', hs⟩
    refine ⟨k', ?_, hs⟩
    rw [List.perm_middle.mem_iff, List.mem_cons] at hk'
    refine hk'.resolve_left ?_
    rintro rfl
    rw [hk] at hs
    exact hne (Option.some.inj hs).symm
  · rintro ⟨k', hk', hs⟩
    refine ⟨?_, k', List.perm_middle.mem_iff.mpr (List.mem_cons_of_mem _ hk'), hs⟩
    rintro rfl
    rw [h.parts.slots.inj k' k a hs hk] at hk'
    exact hnd.1 hk'

/-- `Remove` of a member while no subset is outstanding. -/
theorem remove_idle {l m : List Nat} {k : Nat} (h : Inv hashPtr s log (l ++ k :: m) dead)
    (hfuel : 65 ≤ fuel) {conn : T} (hk : s.collexion.table.conn k = some conn)
    (hcount : s.collexion.referenceCount = 0) :
    ∃ keys' dead', Inv hashPtr (subsetStep hashPtr fuel s (.remove conn)).1
      (log ++ (subsetStep hashPtr fuel s (.remove conn)).2) keys' dead' := by
  obtain rfl := h.parts.idle hcount
  have hnd := List.nodup_cons.mp (List.nodup_middle.mp h.parts.nodup.1)
  obtain ⟨collide, hrun, hparts⟩ := h.parts.unlinkActive hcount (show 33 ≤ fuel by omega)
  have hremove := h.parts.remove_present hk hfuel
  rw [if_pos hcount, hrun, Option.map_some] at hremove
  simp only [subsetStep, hremove, hcount, true_and, if_true]
  have hmap : (l ++ m).map (s.collexion.without k collide).table.conn =
      (l ++ m).map s.collexion.table.conn := map_update_of_notMem hnd.1 _ _
  refine ⟨l ++ m, [], hparts, fun a => ?_, fun a => ?_, fun a => ?_, fun a n hm => ?_⟩
  · rw [members_append]
    show a ∈ (Sphynx.members log).erase conn ↔ _
    rw [h.members_erase hk]
    refine exists_congr fun k' => and_congr_right fun hk' => ?_
    show _ ↔ Function.update s.collexion.table.conn k none k' = some a
    rw [Function.update_of_ne (ne_of_mem_of_not_mem hk' hnd.1)]
  · have hacc := h.accounts a
    have hperm : ((l ++ k :: m).map s.collexion.table.conn).count (some a) =
        ((l ++ m).map s.collexion.table.conn).count (some a) + if conn = a then 1 else 0 := by
      rw [(List.perm_middle.map _).count_eq, List.map_cons, hk, List.count_cons]
      simp
    have hrefs : refsTaken a [.removed conn true, .taken (some conn) 0] = 0 := by simp [refsTaken]
    have htaken : takenOut a [.removed conn true, .taken (some conn) 0] = if conn = a then 1 else 0 := by
      by_cases ha : conn = a <;> simp [takenOut, ha]
    rw [refsTaken_append, takenOut_append, hrefs, htaken]
    show _ = ((l ++ m).map (s.collexion.without k collide).table.conn).count (some a) + _ + _
    rw [hmap]
    rw [hperm] at hacc
    simp only [List.map_nil, List.count_nil] at hacc ⊢
    omega
  · have hzero : refsReleased a [.removed conn true, .taken (some conn) 0] = 0 := by
      simp [refsReleased]
    have htaken : takenOut a [.removed conn true, .taken (some conn) 0] = if conn = a then 1 else 0 := by
      by_cases ha : conn = a <;> simp [takenOut, ha]
    rw [takenOut_append, refsReleased_append, hzero, htaken, h.once]
    show _ = (s.deferred ++ [some conn]).count (some a) + _
    rw [List.count_append, List.count_singleton]
    by_cases ha : conn = a
    · simp only [ha, if_true, beq_self_eq_true]
      omega
    · simp only [ha, if_false, beq_iff_eq, Option.some.injEq]
      omega
  · rcases List.mem_append.mp hm with hm | hm
    · exact h.unshared a n hm
    · simp only [List.mem_cons, reduceCtorEq, false_or, List.not_mem_nil, or_false,
        SubsetEvent.taken.injEq] at hm
      exact hm.2

/-- `Remove` of a member while a subset is outstanding. -/
theorem remove_shared {l m : List Nat} {k : Nat} (h : Inv hashPtr s log (l ++ k :: m) dead)
    (hfuel : 65 ≤ fuel) {conn : T} (hk : s.collexion.table.conn k = some conn)
    (hcount : s.collexion.referenceCount ≠ 0) :
    ∃ keys' dead', Inv hashPtr (subsetStep hashPtr fuel s (.remove conn)).1
      (log ++ (subsetStep hashPtr fuel s (.remove conn)).2) keys' dead' := by
  have hkill : s.collexion.table.kill k = false := by
    have hmem : k ∈ l ++ k :: m := by simp
    have := mt (h.parts.kill k (List.mem_append_left _ hmem)).mp (h.parts.nodup.2.2 k hmem)
    simpa using this
  have hremove := h.parts.remove_present hk hfuel
  rw [if_neg hcount, hkill, if_neg Bool.false_ne_true] at hremove
  have hparts := h.parts.inactivate hcount
  simp only [subsetStep, hremove, hcount, and_false, if_false]
  have hconn : (s.collexion.inactivate k).table.conn = s.collexion.table.conn := by
    rw [Parts.inactivate_eq]
  refine ⟨l ++ m, k :: dead, hparts, fun a => ?_, fun a => ?_, fun a => ?_, fun a n hm => ?_⟩
  · rw [members_append]
    show a ∈ (Sphynx.members log).erase conn ↔ ∃ k' ∈ l ++ m, (s.collexion.inactivate k).table.conn k' = _
    rw [hconn]
    exact h.members_erase hk a
  · have hacc := h.accounts a
    have hperm : ((l ++ k :: m).map s.collexion.table.conn).count (some a) =
        ((k :: (l ++ m)).map s.collexion.table.conn).count (some a) :=
      (List.perm_middle.map _).count_eq _
    have hrefs : refsTaken a [.removed conn true] = 0 := by simp [refsTaken]
    have htaken : takenOut a [.removed conn true] = 0 := by simp [takenOut]
    rw [refsTaken_append, takenOut_append, hrefs, htaken]
    show _ = ((l ++ m).map (s.collexion.inactivate k).table.conn).count (some a) +
      ((k :: dead).map (s.collexion.inactivate k).table.conn).count (some a) + _
    rw [hconn]
    rw [hperm] at hacc
    simp only [List.map_cons, List.count_cons] at hacc ⊢
    omega
  · have htaken : takenOut a [.removed conn true] = 0 := by simp [takenOut]
    have hzero : refsReleased a [.removed conn true] = 0 := by simp [refsReleased]
    rw [takenOut_append, refsReleased_append, htaken, hzero]
    exact h.once a
  · exact h.unshared a n (by simpa using hm)

theorem remove (h : Inv hashPtr s log keys dead) (hfuel : 65 ≤ fuel) {conn : T}
    (hserves : s.collexion.Serves hashPtr (.remove conn)) :
    ∃ keys' dead', Inv hashPtr (subsetStep hashPtr fuel s (.remove conn)).1
      (log ++ (subsetStep hashPtr fuel s (.remove conn)).2) keys' dead' := by
  by_cases hin : ∃ k, s.collexion.table.conn k = some conn
  swap
  · have habsent : ∀ k, s.collexion.table.conn k ≠ some conn := fun k hk => hin ⟨k, hk⟩
    simp only [subsetStep, h.parts.remove_absent hserves habsent hfuel, Bool.false_eq_true, false_and,
      if_false]
    exact ⟨keys, dead, h.quiet rfl (by simp [refsTaken]) (by simp [takenOut])
      (by simp [refsReleased]) (by simp)⟩
  obtain ⟨k, hk⟩ := hin
  by_cases hdead : k ∈ dead
  · -- it was removed before, and waits for the batch
    have hcount : s.collexion.referenceCount ≠ 0 := by
      intro h0
      rw [h.parts.idle h0] at hdead
      cases hdead
    have hkill := (h.parts.kill k (List.mem_append_right _ hdead)).mpr hdead
    have hremove := h.parts.remove_present hk hfuel
    rw [if_neg hcount, if_pos hkill] at hremove
    simp only [subsetStep, hremove, hcount, and_false, if_false]
    have hnot : conn ∉ Sphynx.members log := by
      rw [h.members]
      rintro ⟨k', hk', hs⟩
      rw [h.parts.slots.inj k' k conn hs hk] at hk'
      exact h.parts.nodup.2.2 k hk' hdead
    exact ⟨keys, dead, h.quiet (Finset.erase_eq_of_notMem hnot) (by simp [refsTaken])
      (by simp [takenOut]) (by simp [refsReleased]) (by simp)⟩
  · have hmem := (List.mem_append.mp (h.parts.slots.mem_of_conn hk)).resolve_right hdead
    obtain ⟨l, m, rfl⟩ := List.append_of_mem hmem
    by_cases hcount : s.collexion.referenceCount = 0
    · exact h.remove_idle hfuel hk hcount
    · exact h.remove_shared hfuel hk hcount

theorem subsetAcquire (h : Inv hashPtr s log keys dead) (hfuel : 65 ≤ fuel)
    (criterion : Option T → Bool) :
    ∃ keys' dead', Inv hashPtr (subsetStep hashPtr fuel s (.subsetAcquire criterion)).1
      (log ++ (subsetStep hashPtr fuel s (.subsetAcquire criterion)).2) keys' dead' := by
  simp only [subsetStep, Collexion.subsetAcquire, h.parts.list_active (show 33 ≤ fuel by omega),
    Option.bind_eq_bind, Option.bind_some, Option.pure_def]
  refine ⟨keys, dead, ?_⟩
  have hq : Inv hashPtr s
      (log ++ [.acquired ((keys.map s.collexion.table.conn).filter criterion)]) keys dead :=
    h.quiet rfl (by simp [refsTaken]) (by simp [takenOut]) (by simp [refsReleased]) (by simp)
  refine ⟨?_, hq.members, hq.accounts, hq.once, hq.unshared⟩
  refine h.parts.recount fun h0 => h.parts.idle ?_
  split at h0
  · exact h0
  · omega

theorem subsetRelease (h : Inv hashPtr s log keys dead) (hfuel : 65 ≤ fuel) :
    ∃ keys' dead', Inv hashPtr (subsetStep hashPtr fuel s .subsetRelease).1
      (log ++ (subsetStep hashPtr fuel s .subsetRelease).2) keys' dead' := by
  by_cases hcount : s.collexion.referenceCount = 0
  · simp only [subsetStep, hcount, if_true, List.append_nil]
    exact ⟨keys, dead, h⟩
  simp only [subsetStep, hcount, if_false, Collexion.subsetRelease]
  have hhead : s.collexion.inactiveHead = 0 ↔ dead = [] := by
    have hseg := h.parts.inactive.next.head
    constructor
    · intro h0
      rw [h0, linkSlot_zero] at hseg
      exact List.head?_eq_none_iff.mp hseg.symm
    · rintro rfl
      by_contra hne
      rw [linkSlot_of_ne hne] at hseg
      cases hseg
  by_cases hlast : s.collexion.referenceCount - 1 = 0 ∧ s.collexion.inactiveHead ≠ 0
  swap
  · -- other subsets are outstanding, or nothing waits
    rw [if_neg hlast]
    refine ⟨keys, dead, ?_⟩
    have hidle : s.collexion.referenceCount - 1 = 0 → dead = [] := fun h0 =>
      hhead.mp (not_not.mp fun hne => hlast ⟨h0, hne⟩)
    simp only [List.take_nil, List.drop_nil, List.map_nil, List.append_nil]
    exact ⟨h.parts.recount hidle, h.members, h.accounts, h.once, h.unshared⟩
  rw [if_pos hlast]
  obtain ⟨c', hrun, hc', hcount', hsame⟩ := h.parts.releaseInactive hfuel (mt hhead.mpr hlast.2)
    (s.collexion.referenceCount - 1)
  rw [hrun]
  dsimp only
  rw [hcount', hlast.1]
  have hlen : (dead.map s.collexion.table.conn).length ≤ maxDeferRelease := by
    have := h.parts.slots.length_le
    rw [List.length_append] at this
    rw [List.length_map, maxDeferRelease]
    omega
  rw [List.take_of_length_le hlen, List.drop_eq_nil_iff.mpr hlen, List.map_nil, List.append_nil]
  have hmap : keys.map c'.table.conn = keys.map s.collexion.table.conn := List.map_congr_left hsame
  have hother : ∀ (l : List (Option T)) (s : Finset T),
      (l.map (SubsetEvent.taken · 0)).foldl memberStep s = s := by
    intro l
    induction l with
    | nil => exact fun _ => rfl
    | cons x l ih => exact ih
  refine ⟨keys, [], hc', fun a => ?_, fun a => ?_, fun a => ?_, fun a n hm => ?_⟩
  · rw [members_append, hother, h.members]
    exact exists_congr fun k => and_congr_right fun hk => by rw [hsame k hk]
  · have hrefs : refsTaken a ((dead.map s.collexion.table.conn).map (SubsetEvent.taken · 0)) = 0 :=
      List.count_eq_zero.mpr (by simp)
    have hacc := h.accounts a
    rw [refsTaken_append, takenOut_append, hrefs, takenOut_batch, hmap]
    simp only [List.map_nil, List.count_nil]
    omega
  · have hzero : refsReleased a ((dead.map s.collexion.table.conn).map (SubsetEvent.taken · 0)) = 0 :=
      List.countP_eq_zero.mpr (by simp)
    rw [takenOut_append, refsReleased_append, takenOut_batch, hzero, h.once, List.count_append]
    omega
  · rcases List.mem_append.mp hm with hm | hm
    · exact h.unshared a n hm
    · obtain ⟨x, -, hx⟩ := List.mem_map.mp hm
      injection hx with _ hn
      exact hn.symm

theorem releaseRef (h : Inv hashPtr s log keys dead) (i : Nat) :
    ∃ keys' dead', Inv hashPtr (subsetStep hashPtr fuel s (.releaseRef i)).1
      (log ++ (subsetStep hashPtr fuel s (.releaseRef i)).2) keys' dead' := by
  simp only [subsetStep]
  cases hi : s.deferred[i]? with
  | none =>
    rw [List.append_nil]
    exact ⟨keys, dead, h⟩
  | some conn =>
    obtain ⟨hlt, hget⟩ := List.getElem?_eq_some_iff.mp hi
    have hperm : (conn :: s.deferred.eraseIdx i).Perm s.deferred :=
      hget ▸ List.getElem_cons_eraseIdx_perm hlt
    refine ⟨keys, dead, h.parts, fun a => ?_, fun a => ?_, fun a => ?_, fun a n hm => ?_⟩
    · rw [members_append]
      exact h.members a
    · have htaken : takenOut a [.releaseRef conn s.collexion.referenceCount] = 0 := by simp [takenOut]
      have hrefs : refsTaken a [.releaseRef conn s.collexion.referenceCount] = 0 := by simp [refsTaken]
      rw [refsTaken_append, takenOut_append, htaken, hrefs]
      exact h.accounts a
    · have htaken : takenOut a [.releaseRef conn s.collexion.referenceCount] = 0 := by simp [takenOut]
      have hone := refsReleased_batch a [conn] s.collexion.referenceCount
      rw [List.map_singleton] at hone
      have hcount := hperm.count_eq (some a)
      rw [takenOut_append, refsReleased_append, htaken, hone, h.once, ← hcount, ← List.singleton_append,
        List.count_append]
      show _ = (s.deferred.eraseIdx i).count (some a) + _
      omega
    · exact h.unshared a n (by simpa using hm)

theorem step (h : Inv hashPtr s log keys dead) (hfuel : 65 ≤ fuel) {op : SubsetOp T}
    (hserves : SubsetServes hashPtr s op) :
    ∃ keys' dead', Inv hashPtr (subsetStep hashPtr fuel s op).1
      (log ++ (subsetStep hashPtr fuel s op).2) keys' dead' := by
  cases op with
  | insert conn => exact h.insert hfuel hserves
  | remove conn => exact h.remove hfuel hserves
  | subsetAcquire criterion => exact h.subsetAcquire hfuel criterion
  | subsetRelease => exact h.subsetRelease hfuel
  | releaseRef i => exact h.releaseRef i

theorem settled (h : Inv hashPtr s log keys dead) (hfuel : 65 ≤ fuel) :
    Settled hashPtr fuel s log := by
  obtain ⟨hkeys, hdead, hdisj⟩ := h.parts.nodup
  obtain ⟨l, hl, hlnd, -, hlmem⟩ := h.parts.slots.map_conn hkeys fun k hk => List.mem_append_left _ hk
  obtain ⟨m, hm, hmnd, -, hmmem⟩ := h.parts.slots.map_conn hdead fun k hk => List.mem_append_right _ hk
  have hmembers : ∀ a, a ∈ l ↔ a ∈ Sphynx.members log := fun a => (hlmem a).trans (h.members a).symm
  refine ⟨⟨l, ?_, hlnd, ?_⟩, fun a ha => ?_, ⟨m, ?_, hmnd, fun a ha hmem => ?_, fun h0 => ?_, fun a => ?_⟩,
    h.once, h.unshared⟩
  · rw [h.parts.list_active (show 33 ≤ fuel by omega), hl]
  · ext a
    rw [List.mem_toFinset, hmembers]
  · obtain ⟨k, hk, hs⟩ := (h.members a).mp ha
    rw [h.parts.remove_present hs hfuel]
    by_cases hcount : s.collexion.referenceCount = 0
    · obtain rfl := h.parts.idle hcount
      obtain ⟨l', m', rfl⟩ := List.append_of_mem hk
      obtain ⟨collide, hrun, -⟩ := h.parts.unlinkActive hcount (show 33 ≤ fuel by omega)
      exact ⟨_, by rw [if_pos hcount, hrun, Option.map_some]⟩
    · rw [if_neg hcount]
      split
      · exact ⟨_, rfl⟩
      · exact ⟨_, rfl⟩
  · rw [h.parts.list_inactive (show 33 ≤ fuel by omega), hm]
  · obtain ⟨k, hk, hs⟩ := (hmmem a).mp ha
    obtain ⟨k', hk', hs'⟩ := (h.members a).mp hmem
    rw [h.parts.slots.inj k' k a hs' hs] at hk'
    exact hdisj k hk' hk
  · obtain rfl := h.parts.idle h0
    exact List.map_eq_nil_iff.mp hm.symm
  · have hacc := h.accounts a
    rw [hl, hm, List.count_map_of_injective _ _ (Option.some_injective T),
      List.count_map_of_injective _ _ (Option.some_injective T), hlnd.count] at hacc
    rw [hacc]
    simp only [hmembers]

end Shared.Inv

/-- **Deferred release**, in runs of calls that are all served. -/
theorem collexion_settled (hashPtr : T → u32) {fuel : Nat} (hfuel : 65 ≤ fuel)
    (ops : List (SubsetOp T))
    (h : Run.Guarded (subsetStep hashPtr fuel) (SubsetServes hashPtr) Shared.new ops) :
    Settled hashPtr fuel (Run.exec (subsetStep hashPtr fuel) Shared.new ops).1
      (Run.exec (subsetStep hashPtr fuel) Shared.new ops).2 := by
  have hnew : Shared.Inv hashPtr (Shared.new : Shared T) [] [] [] :=
    ⟨Parts.new, by simp [members], fun _ => rfl, fun _ => rfl, by simp⟩
  obtain ⟨keys, dead, hinv⟩ := Run.exec_inv
    (fun s log => ∃ keys dead, Shared.Inv hashPtr s log keys dead)
    (fun s log op ⟨keys, dead, hi⟩ hok => hi.step hfuel hok) ops Shared.new [] ⟨[], [], hnew⟩ h
  exact hinv.settled hfuel

/-- An object is removed while a subset is outstanding, and its reference released after the last
subset is. -/
theorem collexion_settled_removed :
    Settled (fun _ : Nat => 0) 65
      (Run.exec (subsetStep (fun _ : Nat => 0) 65) Shared.new
        [.insert 5, .insert 6, .subsetAcquire fun _ => true, .remove 5, .subsetRelease, .releaseRef 0]).1
      (Run.exec (subsetStep (fun _ : Nat => 0) 65) Shared.new
        [.insert 5, .insert 6, .subsetAcquire fun _ => true, .remove 5, .subsetRelease,
          .releaseRef 0]).2 := by
  refine collexion_settled (fun _ : Nat => 0) (Nat.le_refl 65) _ ⟨?_, ?_, trivial, ?_, trivial, trivial,
    trivial⟩
  · refine ⟨by decide, ?_⟩
    rintro ⟨k, hk, -⟩
    exact absurd hk (Nat.not_lt_zero k)
  · refine ⟨by decide +kernel, fun hhas => absurd hhas ?_⟩
    unfold Collexion.Has
    decide +kernel
  · exact .inl ⟨0, by decide +kernel, by decide +kernel⟩

/-- Between the batch and the call of `ReleaseRef` another subset is acquired. -/
theorem not_released_unshared :
    ¬ ∀ (hashPtr : Nat → u32) (ops : List (SubsetOp Nat)) (conn : Option Nat) (count : Nat),
      .releaseRef conn count ∈ (Run.exec (subsetStep hashPtr 65) Shared.new ops).2 → count = 0 := by
  intro h
  have h1 := h (fun _ => 0) [.insert 5, .insert 6, .subsetAcquire fun _ => true, .remove 5,
    .subsetRelease, .subsetAcquire fun _ => true, .releaseRef 0] (some 5) 1 (by decide +kernel)
  cases h1

end Log

end Invariant

end Libcat.Sphynx
