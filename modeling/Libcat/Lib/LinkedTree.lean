import Mathlib.Data.Tree.Basic
import Mathlib.Tactic

/-!
# Binary trees through pointers

The nodes of a tree carry pointers to their parent and their two children. `Rep m parent p t` says that
`p` points to the tree `t` in `m`, and that the parent of its root is `parent`. A tree with a hole is a
list of frames from the hole up, and `Hole m root c p` says that `p` is what is in the hole.

- `rep_plug`: a tree is a context and what is in its hole.
- `Rep.congr`, `Hole.congr`: what is not written stays.
- `Hole.relink`: another pointer in the hole.
- `Rep.hang`: a tree is moved to the far end of another one.
- `Sorted`: a binary search tree has its keys in order. `between_cons` is a step down towards a key, and
  `between_of_adjacent` finds a place near a node that is next to the key, in any tree.
-/

namespace Libcat

variable {α : Type*}

/-- The two children of a node. -/
inductive Side where
  | lower
  | higher
deriving DecidableEq

def Side.other : Side → Side
  | lower => higher
  | higher => lower

theorem Side.other_ne (s : Side) : s.other ≠ s := by cases s <;> exact nofun

structure TreeLinks (α : Type*) where
  parent : α → Option α
  child : Side → α → Option α

namespace LinkedTree

open BinaryTree

/-! ## Trees and contexts -/

def inorder : BinaryTree α → List α
  | nil => []
  | node a l r => inorder l ++ a :: inorder r

/-- A node with a hole on one side. -/
structure Frame (α : Type*) where
  side : Side
  node : α
  other : BinaryTree α

/-- The node with a tree in the hole. -/
def Frame.fill (f : Frame α) (t : BinaryTree α) : BinaryTree α :=
  match f.side with
  | .lower => BinaryTree.node f.node t f.other
  | .higher => BinaryTree.node f.node f.other t

/-- Fill the hole; the innermost frame is the first one. -/
def plug (c : List (Frame α)) (t : BinaryTree α) : BinaryTree α :=
  c.foldl (fun t f => f.fill t) t

/-- The parent of what is in the hole. -/
def parentOf (c : List (Frame α)) : Option α := c.head?.map Frame.node

/-- What comes before the hole. -/
def before : List (Frame α) → List α
  | [] => []
  | ⟨.lower, _, _⟩ :: c => before c
  | ⟨.higher, a, l⟩ :: c => before c ++ inorder l ++ [a]

def after : List (Frame α) → List α
  | [] => []
  | ⟨.lower, a, r⟩ :: c => a :: inorder r ++ after c
  | ⟨.higher, _, _⟩ :: c => after c

@[simp] theorem plug_cons (f : Frame α) (c : List (Frame α)) (t : BinaryTree α) :
    plug (f :: c) t = plug c (f.fill t) := rfl

theorem inorder_plug (c : List (Frame α)) (t : BinaryTree α) :
    inorder (plug c t) = before c ++ inorder t ++ after c := by
  induction c generalizing t with
  | nil => simp [plug, before, after]
  | cons f c ih =>
    obtain ⟨side, a, other⟩ := f
    rw [plug_cons, ih]
    cases side <;> simp [Frame.fill, inorder, before, after]

/-- Each node has its context. -/
theorem exists_context {t : BinaryTree α} {a : α} (h : a ∈ inorder t) (c : List (Frame α)) :
    ∃ c' l r, plug c' (node a l r) = plug c t := by
  induction t generalizing c with
  | nil => exact absurd h List.not_mem_nil
  | node b l r ihl ihr =>
    rcases List.mem_append.mp h with h | h
    · exact ihl h (⟨.lower, b, r⟩ :: c)
    · rcases List.mem_cons.mp h with rfl | h
      · exact ⟨c, l, r, rfl⟩
      · exact ihr h (⟨.higher, b, l⟩ :: c)

theorem perm_fill (f : Frame α) (t : BinaryTree α) :
    (inorder (f.fill t)).Perm (f.node :: (inorder t ++ inorder f.other)) := by
  obtain ⟨side, a, other⟩ := f
  cases side with
  | lower => exact List.perm_middle
  | higher => exact List.perm_middle.trans (List.perm_append_comm.cons a)

/-- The parts of a tree with each node once. -/
theorem nodup_fill {f : Frame α} {t : BinaryTree α} (h : (inorder (f.fill t)).Nodup) :
    f.node ∉ inorder t ∧ f.node ∉ inorder f.other ∧ (inorder t).Nodup ∧
      ∀ a ∈ inorder f.other, a ∉ inorder t := by
  obtain ⟨hnode, hrest⟩ := List.nodup_cons.mp ((perm_fill f t).nodup_iff.mp h)
  obtain ⟨ht, -, hdisj⟩ := List.nodup_append.mp hrest
  rw [List.mem_append, not_or] at hnode
  exact ⟨hnode.1, hnode.2, ht, fun a ha hat => hdisj a hat a ha rfl⟩

/-- The context of a tree with each node once. -/
theorem nodup_context {f : Frame α} {c : List (Frame α)}
    (h : (before (f :: c) ++ after (f :: c)).Nodup) :
    f.node ∉ inorder f.other ∧ f.node ∉ before c ++ after c := by
  obtain ⟨side, a, other⟩ := f
  have hp : (before (⟨side, a, other⟩ :: c) ++ after (⟨side, a, other⟩ :: c)).Perm
      (a :: (inorder other ++ (before c ++ after c))) := by
    classical
    apply List.perm_iff_count.mpr
    intro b
    cases side <;> simp only [before, after, List.count_append, List.count_cons] <;> simp <;> omega
  have := (List.nodup_cons.mp (hp.nodup_iff.mp h)).1
  rw [List.mem_append, not_or] at this
  exact this

/-- A tree at the far end of another one. -/
def hang (s : Side) (u : BinaryTree α) : BinaryTree α → BinaryTree α
  | nil => u
  | node a l r =>
    match s with
    | .lower => node a (hang s u l) r
    | .higher => node a l (hang s u r)

theorem inorder_hang_lower (u t : BinaryTree α) : inorder (hang .lower u t) = inorder u ++ inorder t := by
  induction t with
  | nil => simp [hang, inorder]
  | node a l r ihl _ => simp [hang, inorder, ihl]

theorem inorder_hang_higher (u t : BinaryTree α) :
    inorder (hang .higher u t) = inorder t ++ inorder u := by
  induction t with
  | nil => simp [hang, inorder]
  | node a l r _ ihr => simp [hang, inorder, ihr]

/-- The parts of a tree with a hole. -/
theorem nodup_plug {c : List (Frame α)} {t : BinaryTree α} (h : (inorder (plug c t)).Nodup) :
    (before c ++ after c).Nodup ∧ (inorder t).Nodup ∧ ∀ a ∈ inorder t, a ∉ before c ++ after c := by
  have hp : (inorder (plug c t)).Perm (inorder t ++ (before c ++ after c)) := by
    rw [inorder_plug, ← List.append_assoc]
    exact List.perm_append_comm.append_right _
  obtain ⟨ht, hc, hdisj⟩ := List.nodup_append.mp (hp.nodup_iff.mp h)
  exact ⟨hc, ht, fun a ha hac => hdisj a ha a hac rfl⟩

theorem hang_nil (s : Side) (t : BinaryTree α) : hang s nil t = t := by
  induction t with
  | nil => rfl
  | node a l r ihl ihr => cases s <;> simp [hang, ihl, ihr]

/-- What is left of a node's tree without the node: `s` is the side that is moved. -/
def join (s : Side) (l r : BinaryTree α) : BinaryTree α :=
  match s with
  | .lower => hang .lower l r
  | .higher => hang .higher r l

theorem inorder_join (s : Side) (l r : BinaryTree α) : inorder (join s l r) = inorder l ++ inorder r := by
  cases s with
  | lower => exact inorder_hang_lower l r
  | higher => exact inorder_hang_higher r l

theorem join_nil_left (s : Side) (r : BinaryTree α) : join s nil r = r := by
  cases s with
  | lower => exact hang_nil _ r
  | higher => rfl

theorem join_nil_right (s : Side) (l : BinaryTree α) : join s l nil = l := by
  cases s with
  | lower => rfl
  | higher => exact hang_nil _ l

/-! ## Memory -/

def setParent [DecidableEq α] (m : TreeLinks α) (a : α) (p : Option α) : TreeLinks α :=
  { m with parent := Function.update m.parent a p }

def setChild [DecidableEq α] (m : TreeLinks α) (s : Side) (a : α) (p : Option α) : TreeLinks α :=
  { m with child := Function.update m.child s (Function.update (m.child s) a p) }

/-- The pointers of a node are the same. -/
def SameAt (m m' : TreeLinks α) (a : α) : Prop :=
  m'.parent a = m.parent a ∧ ∀ s, m'.child s a = m.child s a

theorem SameAt.refl (m : TreeLinks α) (a : α) : SameAt m m a := ⟨rfl, fun _ => rfl⟩

theorem SameAt.trans {m m' m'' : TreeLinks α} {a : α} (h : SameAt m m' a) (h' : SameAt m' m'' a) :
    SameAt m m'' a := ⟨h'.1.trans h.1, fun s => (h'.2 s).trans (h.2 s)⟩

/-- `p` points to the tree, and the parent of its root is `parent`. -/
def Rep (m : TreeLinks α) : Option α → Option α → BinaryTree α → Prop
  | _, p, nil => p = none
  | parent, p, node a l r =>
    p = some a ∧ m.parent a = parent ∧ Rep m (some a) (m.child .lower a) l ∧
      Rep m (some a) (m.child .higher a) r

/-- The hole of the tree at `root` has `p` in it. -/
def Hole (m : TreeLinks α) (root : Option α) : List (Frame α) → Option α → Prop
  | [], p => root = p
  | f :: c, p =>
    m.child f.side f.node = p ∧ m.parent f.node = parentOf c ∧
      Rep m (some f.node) (m.child f.side.other f.node) f.other ∧ Hole m root c (some f.node)

variable {m m' : TreeLinks α} {root parent p : Option α} {t : BinaryTree α} {c : List (Frame α)}

theorem rep_fill (f : Frame α) :
    Rep m parent p (f.fill t) ↔ p = some f.node ∧ m.parent f.node = parent ∧
      Rep m (some f.node) (m.child f.side f.node) t ∧
      Rep m (some f.node) (m.child f.side.other f.node) f.other := by
  obtain ⟨side, a, other⟩ := f
  cases side with
  | lower => exact Iff.rfl
  | higher =>
    simp only [Frame.fill, Rep, Side.other]
    tauto

theorem rep_plug : Rep m none root (plug c t) ↔ ∃ p, Hole m root c p ∧ Rep m (parentOf c) p t := by
  induction c generalizing t with
  | nil =>
    constructor
    · exact fun h => ⟨root, rfl, h⟩
    · rintro ⟨p, rfl, h⟩
      exact h
  | cons f c ih =>
    rw [plug_cons, ih]
    constructor
    · rintro ⟨p, hc, h⟩
      obtain ⟨rfl, hparent, ht, hother⟩ := (rep_fill f).mp h
      exact ⟨_, ⟨rfl, hparent, hother, hc⟩, ht⟩
    · rintro ⟨p, ⟨rfl, hparent, hother, hc⟩, ht⟩
      exact ⟨_, hc, (rep_fill f).mpr ⟨rfl, hparent, ht, hother⟩⟩

theorem Rep.congr (h : ∀ a ∈ inorder t, SameAt m m' a) : ∀ {parent p : Option α},
    Rep m parent p t → Rep m' parent p t := by
  induction t with
  | nil => exact id
  | node a l r ihl ihr =>
    rintro parent p ⟨rfl, hparent, hl, hr⟩
    obtain ⟨hp, hs⟩ := h a (by simp [inorder])
    refine ⟨rfl, hp.trans hparent, ?_, ?_⟩
    · rw [hs]
      exact ihl (fun b hb => h b (by simp [inorder, hb])) hl
    · rw [hs]
      exact ihr (fun b hb => h b (by simp [inorder, hb])) hr

theorem Hole.congr (h : ∀ a ∈ before c ++ after c, SameAt m m' a) :
    ∀ {p : Option α}, Hole m root c p → Hole m' root c p := by
  induction c with
  | nil => exact id
  | cons f c ih =>
    obtain ⟨side, a, other⟩ := f
    have hmem : ∀ b, b = a ∨ b ∈ inorder other ∨ b ∈ before c ++ after c →
        b ∈ before (⟨side, a, other⟩ :: c) ++ after (⟨side, a, other⟩ :: c) := by
      intro b hb
      cases side <;> simp only [before, after, List.mem_append, List.mem_cons] at hb ⊢ <;> tauto
    rintro p ⟨hchild, hparent, hother, hc⟩
    obtain ⟨hp, hs⟩ := h a (hmem a (.inl rfl))
    refine ⟨(hs side).trans hchild, hp.trans hparent, ?_, ?_⟩
    · rw [hs]
      exact hother.congr fun b hb => h b (hmem b (.inr (.inl hb)))
    · exact ih (fun b hb => h b (hmem b (.inr (.inr hb)))) hc

/-- The root of a tree is one of its nodes. -/
theorem Rep.mem {a : α} (h : Rep m parent (some a) t) : a ∈ inorder t := by
  cases t with
  | nil => cases h
  | node b l r =>
    cases h.1
    simp [inorder]

theorem parentOf_mem {c : List (Frame α)} {a : α} (h : parentOf c = some a) :
    a ∈ before c ++ after c := by
  cases c with
  | nil => cases h
  | cons f c =>
    obtain ⟨side, b, other⟩ := f
    cases h
    cases side <;> simp [before, after]

/-! ## Writes -/

section Writes

variable [DecidableEq α] {a b : α} {s : Side}

theorem sameAt_setParent (h : a ≠ b) (p : Option α) : SameAt m (setParent m b p) a :=
  ⟨Function.update_of_ne h _ _, fun _ => rfl⟩

@[simp] theorem setParent_parent_self (p : Option α) : (setParent m a p).parent a = p :=
  Function.update_self _ _ _

@[simp] theorem setParent_child (p : Option α) : (setParent m a p).child = m.child := rfl

@[simp] theorem setChild_parent (p : Option α) : (setChild m s a p).parent = m.parent := rfl

@[simp] theorem setChild_child_self (p : Option α) : (setChild m s a p).child s a = p := by
  simp [setChild]

theorem setChild_child_of_ne {s' : Side} (h : s' ≠ s) (p : Option α) (b : α) :
    (setChild m s a p).child s' b = m.child s' b := by
  simp [setChild, h]

theorem sameAt_setChild (h : a ≠ b) (p : Option α) : SameAt m (setChild m s b p) a := by
  refine ⟨rfl, fun s' => ?_⟩
  by_cases hs : s' = s
  · subst hs
    simp [setChild, h]
  · exact setChild_child_of_ne hs p a

/-- `if (p) p->parent = q`. -/
def setParentOf (m : TreeLinks α) (p q : Option α) : TreeLinks α :=
  match p with
  | none => m
  | some a => setParent m a q

theorem sameAt_setParentOf (h : p ≠ some a) (q : Option α) : SameAt m (setParentOf m p q) a := by
  cases p with
  | none => exact SameAt.refl m a
  | some b => exact sameAt_setParent (fun he => h (congrArg some he.symm)) q

/-- A tree gets another parent. -/
theorem Rep.reparent (h : Rep m parent p t) (hnd : (inorder t).Nodup) (q : Option α) :
    Rep (setParentOf m p q) q p t := by
  cases t with
  | nil => exact h
  | node a l r =>
    obtain ⟨rfl, -, hl, hr⟩ := h
    obtain ⟨hal, har, -⟩ := nodup_fill (f := ⟨.lower, a, r⟩) hnd
    refine ⟨rfl, setParent_parent_self q, ?_, ?_⟩
    · exact hl.congr fun b hb => sameAt_setParent (ne_of_mem_of_not_mem hb hal) q
    · exact hr.congr fun b hb => sameAt_setParent (ne_of_mem_of_not_mem hb har) q

/-- Another pointer in the hole. -/
theorem Hole.relink {f : Frame α} (h : Hole m root (f :: c) p)
    (hnd : (before (f :: c) ++ after (f :: c)).Nodup) (q : Option α) :
    Hole (setChild m f.side f.node q) root (f :: c) q := by
  obtain ⟨-, hparent, hother, hc⟩ := h
  obtain ⟨hnode, hnode'⟩ := nodup_context hnd
  refine ⟨setChild_child_self q, hparent, ?_, ?_⟩
  · rw [setChild_child_of_ne f.side.other_ne]
    exact hother.congr fun b hb => sameAt_setChild (ne_of_mem_of_not_mem hb hnode) q
  · exact hc.congr fun b hb => sameAt_setChild (ne_of_mem_of_not_mem hb hnode') q

/-- From a node to the far end of its tree on one side. -/
def farthest (m : TreeLinks α) (s : Side) : Nat → α → Option α
  | 0, _ => none
  | fuel + 1, a =>
    match m.child s a with
    | none => some a
    | some b => farthest m s fuel b

/-- The far end takes over the other tree. -/
theorem Rep.hang {u : BinaryTree α} {q : Option α} (s : Side) (hu : Rep m q (some b) u)
    (hund : (inorder u).Nodup) : ∀ {t : BinaryTree α} {parent : Option α} {a : α} {fuel : Nat},
    Rep m parent (some a) t → (inorder t).Nodup → (∀ x ∈ inorder t, x ∉ inorder u) →
    (inorder t).length ≤ fuel →
    ∃ x, farthest m s fuel a = some x ∧ x ∈ inorder t ∧
      Rep (setParent (setChild m s x (some b)) b (some x)) parent (some a) (LinkedTree.hang s u t) := by
  intro t
  induction t with
  | nil => exact fun h => nomatch h
  | node a l r ihl ihr =>
    intro parent a' fuel h hnd hdisj hfuel
    obtain ⟨inner, other, hfill, hhang, ih⟩ : ∃ inner other,
        node a l r = Frame.fill ⟨s, a, other⟩ inner ∧
        LinkedTree.hang s u (node a l r) = Frame.fill ⟨s, a, other⟩ (LinkedTree.hang s u inner) ∧
        ∀ {parent : Option α} {a : α} {fuel : Nat}, Rep m parent (some a) inner →
          (inorder inner).Nodup → (∀ x ∈ inorder inner, x ∉ inorder u) →
          (inorder inner).length ≤ fuel → ∃ x, farthest m s fuel a = some x ∧ x ∈ inorder inner ∧
          Rep (setParent (setChild m s x (some b)) b (some x)) parent (some a)
            (LinkedTree.hang s u inner) := by
      cases s with
      | lower => exact ⟨l, r, rfl, rfl, ihl⟩
      | higher => exact ⟨r, l, rfl, rfl, ihr⟩
    rw [hhang]
    rw [hfill] at h hnd hdisj hfuel ⊢
    obtain ⟨ha, hparent, hinner, hother⟩ := (rep_fill _).mp h
    obtain rfl := Option.some.inj ha
    obtain ⟨hain, haout, hndin, hout⟩ := nodup_fill hnd
    have hperm := perm_fill ⟨s, a', other⟩ inner
    have hmem : ∀ x, x ∈ inorder (Frame.fill ⟨s, a', other⟩ inner) ↔
        x = a' ∨ x ∈ inorder inner ∨ x ∈ inorder other := by
      intro x
      rw [hperm.mem_iff, List.mem_cons, List.mem_append]
    have hlen : (inorder inner).length + 1 ≤ fuel := by
      have := hperm.length_eq
      simp only [List.length_cons, List.length_append] at this
      omega
    have hbu : b ∈ inorder u := hu.mem
    have hau : a' ∉ inorder u := hdisj a' ((hmem a').mpr (.inl rfl))
    have hba : a' ≠ b := (ne_of_mem_of_not_mem hbu hau).symm
    -- what is written: a node of `t` that is not in the other subtree, and `b`
    have hsame : ∀ {x y}, y ≠ x → y ∉ inorder u →
        SameAt m (setParent (setChild m s x (some b)) b (some x)) y := fun hxy hyu =>
      (sameAt_setChild hxy _).trans (sameAt_setParent (ne_of_mem_of_not_mem hbu hyu).symm _)
    cases fuel with
    | zero => omega
    | succ fuel =>
      cases hchild : m.child s a' with
      | none =>
        rw [hchild] at hinner
        cases inner with
        | node _ _ _ => cases hinner.1
        | nil =>
          refine ⟨a', by rw [farthest, hchild], (hmem a').mpr (.inl rfl), ?_⟩
          rw [rep_fill]
          refine ⟨rfl, ?_, ?_, ?_⟩
          · exact (sameAt_setParent hba _).1.trans hparent
          · rw [setParent_child, setChild_child_self]
            have hu' : Rep (setChild m s a' (some b)) q (some b) u :=
              hu.congr fun y hy => sameAt_setChild (ne_of_mem_of_not_mem hy hau) _
            exact hu'.reparent hund (some a')
          · rw [setParent_child, setChild_child_of_ne s.other_ne]
            refine hother.congr fun y hy => hsame (ne_of_mem_of_not_mem hy haout) ?_
            exact hdisj y ((hmem y).mpr (.inr (.inr hy)))
      | some x' =>
        rw [hchild] at hinner
        have hdisj' : ∀ x ∈ inorder inner, x ∉ inorder u := fun x hx =>
          hdisj x ((hmem x).mpr (.inr (.inl hx)))
        obtain ⟨x, hfar, hx, hrep⟩ := ih hinner hndin hdisj' (by omega : _ ≤ fuel)
        have hxa : a' ≠ x := (ne_of_mem_of_not_mem hx hain).symm
        refine ⟨x, by rw [farthest, hchild]; exact hfar, (hmem x).mpr (.inr (.inl hx)), ?_⟩
        rw [rep_fill]
        obtain ⟨hp, hs⟩ := hsame hxa hau
        refine ⟨rfl, hp.trans hparent, ?_, ?_⟩
        · rw [hs, hchild]
          exact hrep
        · rw [hs]
          refine hother.congr fun y hy => hsame ?_ (hdisj y ((hmem y).mpr (.inr (.inr hy))))
          exact fun he => hout y hy (he ▸ hx)

/-- Write the pointer to the hole: a child of its parent, or the root. -/
def setHole (m : TreeLinks α) (root : Option α) (c : List (Frame α)) (q : Option α) :
    TreeLinks α × Option α :=
  match c with
  | [] => (m, q)
  | f :: _ => (setChild m f.side f.node q, root)

theorem sameAt_setHole (h : a ∉ before c ++ after c) (q : Option α) :
    SameAt m (setHole m root c q).1 a := by
  cases c with
  | nil => exact SameAt.refl m a
  | cons f c =>
    exact sameAt_setChild (ne_of_mem_of_not_mem (parentOf_mem rfl) h).symm q

theorem Hole.set (h : Hole m root c p) (hnd : (before c ++ after c).Nodup) (q : Option α) :
    Hole (setHole m root c q).1 (setHole m root c q).2 c q := by
  cases c with
  | nil => rfl
  | cons f c => exact h.relink hnd q

/-- A tree comes to the hole, from somewhere else. -/
theorem Hole.replace {q q' : Option α} (h : Hole m root c p) (ht : Rep m q' q t)
    (hnd : (before c ++ after c).Nodup) (htnd : (inorder t).Nodup)
    (hdisj : ∀ x ∈ inorder t, x ∉ before c ++ after c) :
    Hole (setParentOf (setHole m root c q).1 q (parentOf c)) (setHole m root c q).2 c q ∧
      Rep (setParentOf (setHole m root c q).1 q (parentOf c)) (parentOf c) q t := by
  have ht' : Rep (setHole m root c q).1 q' q t := ht.congr fun x hx => sameAt_setHole (hdisj x hx) q
  refine ⟨(h.set hnd q).congr fun x hx => sameAt_setParentOf ?_ _, ht'.reparent htnd _⟩
  rintro rfl
  exact hdisj x ht.mem hx

/-- A tree goes to the far end of the one in the hole. -/
theorem Hole.hang {u : BinaryTree α} {q : Option α} (s : Side) {fuel : Nat}
    (h : Hole m root c (some a)) (ht : Rep m parent (some a) t) (hu : Rep m q (some b) u)
    (htnd : (inorder t).Nodup) (hund : (inorder u).Nodup) (hdisj : ∀ x ∈ inorder t, x ∉ inorder u)
    (htc : ∀ x ∈ inorder t, x ∉ before c ++ after c) (huc : ∀ x ∈ inorder u, x ∉ before c ++ after c)
    (hfuel : (inorder t).length ≤ fuel) :
    ∃ x, farthest m s fuel a = some x ∧ x ∈ inorder t ∧
      Hole (setParent (setChild m s x (some b)) b (some x)) root c (some a) ∧
      Rep (setParent (setChild m s x (some b)) b (some x)) parent (some a) (LinkedTree.hang s u t) := by
  obtain ⟨x, hfar, hx, hrep⟩ := hu.hang s hund ht htnd hdisj hfuel
  refine ⟨x, hfar, hx, h.congr fun y hy => ?_, hrep⟩
  apply (sameAt_setChild _ _).trans (sameAt_setParent _ _)
  · exact ne_of_mem_of_not_mem hy (htc x hx)
  · exact ne_of_mem_of_not_mem hy (huc b hu.mem)

/-- Both: one tree comes to the hole, and another one goes to its far end. -/
theorem Hole.replace_hang {u : BinaryTree α} {q q' : Option α} (s : Side) {fuel : Nat}
    (h : Hole m root c p) (ht : Rep m q (some a) t) (hu : Rep m q' (some b) u)
    (hnd : (before c ++ after c).Nodup) (htnd : (inorder t).Nodup) (hund : (inorder u).Nodup)
    (hdisj : ∀ x ∈ inorder t, x ∉ inorder u) (htc : ∀ x ∈ inorder t, x ∉ before c ++ after c)
    (huc : ∀ x ∈ inorder u, x ∉ before c ++ after c) (hfuel : (inorder t).length ≤ fuel) :
    let m₁ := setParent (setHole m root c (some a)).1 a (parentOf c)
    ∃ x, farthest m₁ s fuel a = some x ∧ x ∈ inorder t ∧
      Hole (setParent (setChild m₁ s x (some b)) b (some x)) (setHole m root c (some a)).2 c (some a) ∧
      Rep (setParent (setChild m₁ s x (some b)) b (some x)) (parentOf c) (some a)
        (LinkedTree.hang s u t) := by
  intro m₁
  obtain ⟨hc, ht'⟩ := h.replace ht hnd htnd htc
  have hu' : Rep m₁ q' (some b) u := hu.congr fun y hy =>
    (sameAt_setHole (huc y hy) _).trans (sameAt_setParent (ne_of_mem_of_not_mem ht.mem
      (fun hyt => hdisj y hyt hy)).symm _)
  exact hc.hang s ht' hu' htnd hund hdisj htc huc hfuel

end Writes

/-! ## Order -/

section Order

variable {β : Type*} [LinearOrder β] {key : α → β} {o : β} {a : α} {l r : BinaryTree α}

/-- A binary search tree. -/
def Sorted (key : α → β) (t : BinaryTree α) : Prop := (inorder t).Pairwise fun a b => key a < key b

theorem Sorted.nodup (h : Sorted key t) : (inorder t).Nodup :=
  h.imp fun hab he => (he ▸ hab).false

theorem Sorted.inj (h : Sorted key t) {b : α} (ha : a ∈ inorder t) (hb : b ∈ inorder t)
    (hab : key a = key b) : a = b := by
  have hnd : ((inorder t).map key).Nodup := List.pairwise_map.mpr (h.imp fun hlt => hlt.ne)
  exact List.inj_on_of_nodup_map hnd ha hb hab

theorem Sorted.congr {key' : α → β} (h : Sorted key t) (hk : ∀ a ∈ inorder t, key' a = key a) :
    Sorted key' t := by
  refine List.Pairwise.imp_of_mem (fun {a b} ha hb hab => ?_) h
  rwa [hk a ha, hk b hb]

/-- The hole is where `o` belongs. -/
def Between (key : α → β) (o : β) (c : List (Frame α)) : Prop :=
  (∀ a ∈ before c, key a < o) ∧ ∀ a ∈ after c, o < key a

theorem between_nil (key : α → β) (o : β) : Between key o [] :=
  ⟨fun _ h => absurd h List.not_mem_nil, fun _ h => absurd h List.not_mem_nil⟩

theorem Between.tail {f : Frame α} (h : Between key o (f :: c)) : Between key o c := by
  obtain ⟨side, b, other⟩ := f
  cases side with
  | lower => exact ⟨h.1, fun a ha => h.2 a (by simp [after, ha])⟩
  | higher => exact ⟨fun a ha => h.1 a (by simp [before, ha]), h.2⟩

/-- What a sorted tree says about one of its nodes. -/
theorem Sorted.at_node (h : Sorted key (plug c (node a l r))) :
    (∀ x ∈ before c ++ inorder l, key x < key a) ∧ ∀ x ∈ inorder r ++ after c, key a < key x := by
  have hlist : inorder (plug c (node a l r)) =
      (before c ++ inorder l) ++ a :: (inorder r ++ after c) := by
    rw [inorder_plug]
    simp [inorder]
  rw [Sorted, hlist] at h
  obtain ⟨-, hright, hdisj⟩ := List.pairwise_append.mp h
  exact ⟨fun x hx => hdisj x hx a List.mem_cons_self, (List.pairwise_cons.mp hright).1⟩

/-- One step down to the higher side. -/
theorem Between.higher (h : Between key o c) (hs : Sorted key (plug c (node a l r)))
    (ha : key a < o) : Between key o (⟨.higher, a, l⟩ :: c) := by
  refine ⟨fun x hx => ?_, h.2⟩
  simp only [before, List.mem_append, List.mem_singleton] at hx
  rcases hx with (hx | hx) | rfl
  · exact h.1 x hx
  · exact (hs.at_node.1 x (List.mem_append_right _ hx)).trans ha
  · exact ha

theorem Between.lower (h : Between key o c) (hs : Sorted key (plug c (node a l r)))
    (ha : o < key a) : Between key o (⟨.lower, a, r⟩ :: c) := by
  refine ⟨h.1, fun x hx => ?_⟩
  simp only [after, List.mem_append, List.mem_cons] at hx
  rcases hx with (rfl | hx) | hx
  · exact ha
  · exact ha.trans (hs.at_node.2 x (List.mem_append_left _ hx))
  · exact h.2 x hx

/-- No key of the tree is between `o` and the one of `a`. -/
def Adjacent (key : α → β) (o : β) (t : BinaryTree α) (a : α) : Prop :=
  (key a < o ∧ ∀ x ∈ inorder t, key a < key x → o < key x) ∨
  (o < key a ∧ ∀ x ∈ inorder t, key x < key a → key x < o)

/-- Where the way down to `o` ends. -/
theorem adjacent_higher (hs : Sorted key (plug c (.node a l .nil)))
    (h : Between key o (⟨.higher, a, l⟩ :: c)) (ha : key a < o) :
    Adjacent key o (plug c (.node a l .nil)) a := by
  refine .inl ⟨ha, fun x hx hlt => ?_⟩
  rw [inorder_plug] at hx
  simp only [inorder, List.mem_append, List.mem_cons, List.not_mem_nil, or_false] at hx
  rcases hx with (hx | hx | rfl) | hx
  · exact absurd (hs.at_node.1 x (List.mem_append_left _ hx)) hlt.not_gt
  · exact absurd (hs.at_node.1 x (List.mem_append_right _ hx)) hlt.not_gt
  · exact absurd hlt (lt_irrefl _)
  · exact h.2 x hx

theorem adjacent_lower (hs : Sorted key (plug c (.node a .nil r)))
    (h : Between key o (⟨.lower, a, r⟩ :: c)) (ha : o < key a) :
    Adjacent key o (plug c (.node a .nil r)) a := by
  refine .inr ⟨ha, fun x hx hlt => ?_⟩
  rw [inorder_plug] at hx
  simp only [inorder, List.nil_append, List.mem_append, List.mem_cons] at hx
  rcases hx with (hx | rfl | hx) | hx
  · exact h.1 x hx
  · exact absurd hlt (lt_irrefl _)
  · exact absurd (hs.at_node.2 x (List.mem_append_left _ hx)) hlt.not_gt
  · exact absurd (hs.at_node.2 x (List.mem_append_right _ hx)) hlt.not_gt

/-- A node next to `o` has `o` below it, wherever it is. -/
theorem between_of_adjacent (hs : Sorted key (plug c (node a l r)))
    (h : Adjacent key o (plug c (node a l r)) a) : Between key o c := by
  obtain ⟨hl, hr⟩ := hs.at_node
  have hmem : ∀ x, x ∈ before c ∨ x ∈ after c → x ∈ inorder (plug c (node a l r)) := by
    intro x hx
    rw [inorder_plug, List.mem_append, List.mem_append]
    tauto
  refine ⟨fun x hx => ?_, fun x hx => ?_⟩
  · have hxa := hl x (List.mem_append_left _ hx)
    rcases h with ⟨ha, -⟩ | ⟨-, h⟩
    · exact hxa.trans ha
    · exact h x (hmem x (.inl hx)) hxa
  · have hxa := hr x (List.mem_append_right _ hx)
    rcases h with ⟨-, h⟩ | ⟨ha, -⟩
    · exact h x (hmem x (.inr hx)) hxa
    · exact ha.trans hxa

/-- A node next to `o` in a tree is next to it in a part of the tree, and has `o` below it there. -/
theorem exists_between {t' : BinaryTree α} (hs : Sorted key t')
    (hsub : ∀ x ∈ inorder t', x ∈ inorder t) (ha : a ∈ inorder t') (h : Adjacent key o t a) :
    ∃ c l r, t' = plug c (.node a l r) ∧ Between key o c := by
  obtain ⟨c, l, r, hplug⟩ := exists_context ha []
  refine ⟨c, l, r, hplug.symm, ?_⟩
  have h' : Adjacent key o t' a :=
    h.imp (fun h => ⟨h.1, fun x hx => h.2 x (hsub x hx)⟩) fun h => ⟨h.1, fun x hx => h.2 x (hsub x hx)⟩
  rw [show t' = plug c (.node a l r) from hplug.symm] at hs h'
  exact between_of_adjacent hs h'

/-- The key is not in a tree that ends where it belongs. -/
theorem Between.ne (h : Between key o c) {x : α} (hx : x ∈ inorder (plug c nil)) : key x ≠ o := by
  rw [inorder_plug] at hx
  simp only [inorder, List.append_nil, List.mem_append] at hx
  rcases hx with hx | hx
  · exact (h.1 x hx).ne
  · exact (h.2 x hx).ne'

/-- A new leaf where its key belongs. -/
theorem Sorted.insert (hs : Sorted key (plug c nil)) (h : Between key (key a) c) :
    Sorted key (plug c (node a nil nil)) := by
  rw [Sorted, inorder_plug] at hs ⊢
  simp only [inorder, List.append_nil, List.nil_append] at hs ⊢
  obtain ⟨hb, ha, hba⟩ := List.pairwise_append.mp hs
  rw [List.append_assoc, List.singleton_append]
  refine List.pairwise_append.mpr ⟨hb, List.pairwise_cons.mpr ⟨h.2, ha⟩, fun x hx y hy => ?_⟩
  rcases List.mem_cons.mp hy with rfl | hy
  · exact h.1 x hx
  · exact hba x hx y hy

/-- A node leaves the tree. -/
theorem Sorted.remove (s : Side) (hs : Sorted key (plug c (node a l r))) :
    Sorted key (plug c (join s l r)) := by
  refine List.Pairwise.sublist ?_ hs
  rw [inorder_plug, inorder_plug, inorder_join]
  exact ((List.Sublist.refl _).append ((List.Sublist.refl _).append
    (List.sublist_cons_self _ _))).append (List.Sublist.refl _)

theorem mem_remove (s : Side) (hs : Sorted key (plug c (node a l r))) {x : α} :
    x ∈ inorder (plug c (join s l r)) ↔ x ∈ inorder (plug c (node a l r)) ∧ x ≠ a := by
  obtain ⟨hl, hr⟩ := hs.at_node
  have hne : x ∈ before c ++ inorder l ∨ x ∈ inorder r ++ after c → x ≠ a := by
    rintro (hx | hx) rfl
    · exact (hl x hx).false
    · exact (hr x hx).false
  rw [inorder_plug, inorder_plug, inorder_join]
  simp only [inorder, List.mem_append, List.mem_cons] at hne ⊢
  tauto

end Order

end LinkedTree

end Libcat
