import Libcat.Math.BitMath
import Mathlib.Tactic

/-!
# Huffman

`HuffmanTreeFactory` and `HuffmanTree`: the tree is made by merging the least probable nodes, a
letter is encoded as the path to its leaf, and `Decode` walks down from the root. The decoder finds
out that it is on a leaf by reading the symbol after it, and that symbol is then gone.
-/

namespace Libcat.Codec.Huffman

section Model

def MAX_CODE_SYMBOLS : Nat := 16

/-- `HuffmanTreeNode`, with the children that are not null: they fill the first slots. -/
inductive HuffmanTreeNode (P : Type) where
  | mk (letter : u32) (probability : P) (children : List (HuffmanTreeNode P))

namespace HuffmanTreeNode

variable {P : Type}

def letter : HuffmanTreeNode P → u32
  | mk letter _ _ => letter

def probability : HuffmanTreeNode P → P
  | mk _ probability _ => probability

def children : HuffmanTreeNode P → List (HuffmanTreeNode P)
  | mk _ _ children => children

end HuffmanTreeNode

/-- `HuffmanTree`; the map has the encodings of the nodes that `AddSymbol` made. -/
structure HuffmanTree (P : Type) where
  code_symbols : Nat
  code_symbol_bits : Nat
  root : HuffmanTreeNode P
  encoding_map : List (u32 × List Bool)

variable {P : Type}

/-- `WriteSymbol`: the low `count` bits, the lowest first. -/
def writeSymbol (str : List Bool) (bits count : Nat) : List Bool :=
  (List.range count).foldl (fun str ii => str ++ [bits.testBit ii]) str

/-- `BackoutSymbol`. -/
def backoutSymbol (str : List Bool) (count : Nat) : List Bool :=
  str.take (str.length - count)

/-- `ReadBits`; `at` throws past the end of the string, that is `none`. -/
def readBits (str : List Bool) (count : Nat) : Option (Nat × List Bool) :=
  ((List.range count).foldlM
    (fun n ii => str[ii]?.map fun bit => if bit then n ||| 1 <<< ii else n) 0).map
      fun n => (n, str.drop count)

mutual

/-- `FillEncodings`: the encodings of the leaves below, and the string as the call leaves it. -/
def fillEncodings (code_symbol_bits : Nat) :
    HuffmanTreeNode P → List Bool → List (u32 × List Bool) × List Bool
  | .mk letter _ children, encoding =>
    if children.isEmpty then ([(letter, encoding)], encoding)
    else fillChildren code_symbol_bits 0 children encoding

/-- Its loop over the children, from slot `ii` on. -/
def fillChildren (code_symbol_bits ii : Nat) :
    List (HuffmanTreeNode P) → List Bool → List (u32 × List Bool) × List Bool
  | [], encoding => ([], encoding)
  | child :: children, encoding =>
    let below := fillEncodings code_symbol_bits child (writeSymbol encoding ii code_symbol_bits)
    let rest := fillChildren code_symbol_bits (ii + 1) children
      (backoutSymbol below.2 code_symbol_bits)
    (below.1 ++ rest.1, rest.2)

end

/-- `BSR32(code_symbols - 1) + 1`. -/
def symbolBits (code_symbols : Nat) : Nat := Nat.log2 (code_symbols - 1) + 1

/-- `Initialize`. -/
def initialTree (code_symbols : Nat) (root : HuffmanTreeNode P) : HuffmanTree P :=
  ⟨code_symbols, symbolBits code_symbols, root, (fillEncodings (symbolBits code_symbols) root []).1⟩

/-- `AddSymbol`: the nodes added so far, and whether this one was. -/
def addSymbol (heap : List (HuffmanTreeNode P)) (letter : u32) (probability : P) :
    List (HuffmanTreeNode P) × Bool :=
  if heap.any fun node => node.letter == letter then (heap, false)
  else (.mk letter probability [] :: heap, true)

/-- The nodes after `AddSymbol` for every letter of an alphabet. -/
def addSymbols (alphabet : List (u8 × P)) : List (HuffmanTreeNode P) :=
  alphabet.foldl (fun heap symbol => (addSymbol heap (symbol.1.setWidth 32) symbol.2).1) []

variable [Zero P] [Add P] (pop : List (HuffmanTreeNode P) →
  Option (HuffmanTreeNode P × List (HuffmanTreeNode P)))

/-- The loop that fills one branch: its children, the sum of their probabilities, the heap left. -/
def takeChildren : Nat → P → List (HuffmanTreeNode P) →
    List (HuffmanTreeNode P) × P × List (HuffmanTreeNode P)
  | 0, probability_sum, heap => ([], probability_sum, heap)
  | n + 1, probability_sum, heap =>
    match pop heap with
    | none => ([], probability_sum, heap)
    | some (leaf, heap) =>
      let rest := takeChildren n (probability_sum + leaf.probability) heap
      (leaf :: rest.1, rest.2)

/-- The loop of `BuildTree`, which goes on while the heap has two nodes. -/
def mergeLoop (code_symbols : Nat) : Nat → List (HuffmanTreeNode P) → List (HuffmanTreeNode P)
  | 0, heap => heap
  | fuel + 1, heap =>
    if 1 < heap.length then
      let branch := takeChildren pop code_symbols 0 heap
      mergeLoop code_symbols fuel (.mk 0 branch.2.1 branch.1 :: branch.2.2)
    else heap

/-- `BuildTree`. -/
def buildTree (code_symbols : Nat) (heap : List (HuffmanTreeNode P)) : Option (HuffmanTree P) :=
  (pop (mergeLoop pop code_symbols heap.length heap)).map fun top => initialTree code_symbols top.1

omit [Zero P] [Add P]

/-- `Encode`, which fails at a letter that was not added. -/
def encode (tree : HuffmanTree P) : List u8 → Option (List Bool)
  | [] => some []
  | letter :: data =>
    match tree.encoding_map.find? fun entry => entry.1 == letter.setWidth 32 with
    | none => none
    | some entry => (encode tree data).map fun bs => entry.2 ++ bs

/-- The loop of `Decode`: what is written and what is returned. `top` says that the node is the
root. -/
def decodeLoop (tree : HuffmanTree P) (max_bytes : Nat) :
    Nat → HuffmanTreeNode P → Bool → List Bool → List u8 → Option (List u8 × Nat)
  | 0, _, _, _, _ => none
  | fuel + 1, node, top, bs, data =>
    if bs.isEmpty then some (data, if top then data.length else 0)
    else
      match readBits bs tree.code_symbol_bits with
      | none => none
      | some (bits, bs) =>
        if MAX_CODE_SYMBOLS ≤ bits then none
        else
          match node.children[bits]? with
          | none =>
            if max_bytes ≤ data.length then some (data, 0)
            else decodeLoop tree max_bytes fuel tree.root true bs (data ++ [node.letter.setWidth 8])
          | some next => decodeLoop tree max_bytes fuel next false bs data

/-- `Decode`; `none` is an exception of `ReadBits` or a read past the slots of a node. -/
def decode (tree : HuffmanTree P) (bs : List Bool) (max_bytes : Nat) : Option (List u8 × Nat) :=
  decodeLoop tree max_bytes (bs.length + 1) tree.root true bs []

end Model

section Symbols

variable {str rest : List Bool} {count bits s : Nat}

/-- The bits of one symbol. -/
def symbol (count s : Nat) : List Bool := (List.range count).map s.testBit

@[simp] theorem symbol_length : (symbol count s).length = count := by simp [symbol]

theorem writeSymbol_eq : writeSymbol str bits count = str ++ symbol count bits := by
  unfold writeSymbol symbol
  induction count with
  | zero => simp
  | succ count ih =>
    rw [List.range_succ, List.foldl_append, ih, List.map_append]
    simp

theorem backoutSymbol_append : backoutSymbol (str ++ symbol count bits) count = str := by
  simp [backoutSymbol]

theorem readBits_spec (h : count ≤ str.length) :
    ∃ n, readBits str count = some (n, str.drop count) ∧ n < 2 ^ count ∧
      ∀ j < count, n.testBit j = str.getD j false := by
  suffices hloop : ∃ n, (List.range count).foldlM
      (fun n ii => str[ii]?.map fun bit => if bit then n ||| 1 <<< ii else n) 0 = some n ∧
        n < 2 ^ count ∧ ∀ j < count, n.testBit j = str.getD j false by
    obtain ⟨n, hn, hlt, hbits⟩ := hloop
    exact ⟨n, by rw [readBits, hn]; rfl, hlt, hbits⟩
  induction count with
  | zero => exact ⟨0, rfl, by simp, by simp⟩
  | succ count ih =>
    obtain ⟨n, hn, hlt, hbits⟩ := ih (by omega)
    have hget : str[count]? = some (str.getD count false) := by
      rw [List.getD_eq_getElem _ _ (by omega), List.getElem?_eq_getElem]
    rw [List.range_succ, List.foldlM_append, hn]
    have hpow : 2 ^ count < 2 ^ (count + 1) := Nat.pow_lt_pow_right (by omega) (by omega)
    refine ⟨if str.getD count false then n ||| 1 <<< count else n, ?_, ?_, fun j hj => ?_⟩
    · simp only [Option.bind_eq_bind, Option.bind_some, List.foldlM_cons, List.foldlM_nil, hget,
        Option.map_some, Option.pure_def]
    · split
      · rw [Nat.one_shiftLeft]
        exact Nat.or_lt_two_pow (by omega) hpow
      · omega
    · have hhigh : n.testBit count = false := Nat.testBit_lt_two_pow hlt
      rcases Nat.lt_succ_iff_lt_or_eq.mp hj with hlow | rfl
      · have hne : count ≠ j := by omega
        have hj' := hbits j hlow
        split <;> simp [Nat.one_shiftLeft, hne, hj']
      · cases hbit : str.getD j false with
        | true => simp [Nat.one_shiftLeft, Nat.testBit_two_pow_self]
        | false => simpa using hhigh

theorem readBits_symbol (hs : s < 2 ^ count) :
    readBits (symbol count s ++ rest) count = some (s, rest) := by
  obtain ⟨n, hn, hlt, hbits⟩ := @readBits_spec (symbol count s ++ rest) count
    (by simp)
  obtain rfl : n = s := Nat.eq_of_testBit_eq fun j => by
    by_cases hj : j < count
    · rw [hbits j hj, List.getD_append _ _ _ _ (by simpa using hj)]
      simp [symbol, hj]
    · have hpow : 2 ^ count ≤ 2 ^ j := Nat.pow_le_pow_right (by omega) (by omega)
      rw [Nat.testBit_lt_two_pow (by omega), Nat.testBit_lt_two_pow (by omega)]
  rw [hn]
  simp

end Symbols

section Paths

variable {P : Type} {node leaf root : HuffmanTreeNode P} {children : List (HuffmanTreeNode P)}
  {letter : u32} {probability : P} {p q : List Nat} {code_symbols : Nat}

mutual

/-- The letters of the leaves, with the ways to them. -/
def paths : HuffmanTreeNode P → List (u32 × List Nat)
  | .mk letter _ children => if children.isEmpty then [(letter, [])] else pathsFrom 0 children

def pathsFrom (ii : Nat) : List (HuffmanTreeNode P) → List (u32 × List Nat)
  | [] => []
  | child :: children =>
    ((paths child).map fun e => (e.1, ii :: e.2)) ++ pathsFrom (ii + 1) children

end

/-- The bits of a way down. -/
def bitsOf (count : Nat) (p : List Nat) : List Bool := p.flatMap (symbol count)

mutual

theorem fillEncodings_eq (count : Nat) : ∀ (node : HuffmanTreeNode P) (encoding : List Bool),
    fillEncodings count node encoding =
      ((paths node).map fun e => (e.1, encoding ++ bitsOf count e.2), encoding)
  | .mk letter probability children, encoding => by
    rw [fillEncodings, paths]
    split
    · simp [bitsOf]
    · exact fillChildren_eq count 0 children encoding

theorem fillChildren_eq (count ii : Nat) :
    ∀ (children : List (HuffmanTreeNode P)) (encoding : List Bool),
      fillChildren count ii children encoding =
        ((pathsFrom ii children).map fun e => (e.1, encoding ++ bitsOf count e.2), encoding)
  | [], encoding => by simp [fillChildren, pathsFrom]
  | child :: children, encoding => by
    rw [fillChildren, pathsFrom, writeSymbol_eq, fillEncodings_eq count child]
    dsimp only
    rw [backoutSymbol_append, fillChildren_eq count (ii + 1) children]
    simp [bitsOf, Function.comp_def]

end

/-- The node at the end of a way down. -/
def follow : HuffmanTreeNode P → List Nat → Option (HuffmanTreeNode P)
  | node, [] => some node
  | node, s :: p => node.children[s]?.bind fun child => follow child p

theorem follow_append (h : follow node p = some leaf) : follow node (p ++ q) = follow leaf q := by
  induction p generalizing node with
  | nil => rw [← Option.some.inj h, List.nil_append]
  | cons s p ih =>
    obtain ⟨child, hchild, hp⟩ := Option.bind_eq_some_iff.mp h
    rw [List.cons_append, follow, hchild]
    exact ih hp

theorem mem_pathsFrom {ii : Nat} {children : List (HuffmanTreeNode P)} :
    (letter, q) ∈ pathsFrom ii children ↔
      ∃ s child p, children[s]? = some child ∧ q = (ii + s) :: p ∧ (letter, p) ∈ paths child := by
  induction children generalizing ii with
  | nil => simp [pathsFrom]
  | cons child children ih =>
    rw [pathsFrom, List.mem_append, ih]
    constructor
    · rintro (hmem | ⟨s, child', p, hs, rfl, hp⟩)
      · obtain ⟨⟨_, p⟩, hp, heq⟩ := List.mem_map.mp hmem
        cases heq
        exact ⟨0, child, p, rfl, rfl, hp⟩
      · exact ⟨s + 1, child', p, hs, by rw [Nat.add_right_comm, Nat.add_assoc], hp⟩
    · rintro ⟨s, child', p, hs, rfl, hp⟩
      cases s with
      | zero =>
        cases hs
        exact .inl (List.mem_map.mpr ⟨_, hp, rfl⟩)
      | succ s => exact .inr ⟨s, child', p, hs, by rw [Nat.add_right_comm, Nat.add_assoc], hp⟩

/-- The ways that `paths` lists are those that end at a node without children. -/
theorem mem_paths :
    (letter, p) ∈ paths node ↔
      ∃ leaf, follow node p = some leaf ∧ leaf.children = [] ∧ leaf.letter = letter := by
  induction p generalizing node with
  | nil =>
    obtain ⟨letter', probability, children⟩ := node
    rw [paths]
    cases children with
    | nil =>
      rw [List.isEmpty_nil, if_pos rfl, List.mem_singleton]
      constructor
      · intro heq
        cases heq
        exact ⟨_, rfl, rfl, rfl⟩
      · rintro ⟨leaf, hleaf, -, rfl⟩
        cases hleaf
        rfl
    | cons child children =>
      constructor
      · intro hmem
        obtain ⟨s, child', p, -, heq, -⟩ := mem_pathsFrom.mp hmem
        cases heq
      · rintro ⟨leaf, hleaf, hnil, -⟩
        cases hleaf
        cases hnil
  | cons s p ih =>
    obtain ⟨letter', probability, children⟩ := node
    rw [paths]
    cases children with
    | nil => simp [follow, HuffmanTreeNode.children]
    | cons child children =>
      simp only [List.isEmpty_cons, Bool.false_eq_true, if_false, mem_pathsFrom, follow,
        Option.bind_eq_some_iff, HuffmanTreeNode.children]
      constructor
      · rintro ⟨s', child', p', hs, heq, hp⟩
        rw [Nat.zero_add] at heq
        cases heq
        obtain ⟨leaf, hleaf, hend⟩ := ih.mp hp
        exact ⟨leaf, ⟨child', hs, hleaf⟩, hend⟩
      · rintro ⟨leaf, ⟨child', hs, hleaf⟩, hend⟩
        exact ⟨s, child', p, hs, by rw [Nat.zero_add], ih.mpr ⟨leaf, hleaf, hend⟩⟩

/-- The letters below the nodes of a heap. -/
def letters (heap : List (HuffmanTreeNode P)) : List u32 :=
  heap.flatMap fun node => (paths node).map Prod.fst

theorem pathsFrom_letters {ii : Nat} : (pathsFrom ii children).map Prod.fst = letters children := by
  induction children generalizing ii with
  | nil => simp [pathsFrom, letters]
  | cons child children ih =>
    rw [pathsFrom, List.map_append, ih]
    simp [letters, Function.comp_def]

theorem paths_mk (h : children ≠ []) :
    (paths (.mk letter probability children)).map Prod.fst = letters children := by
  cases children with
  | nil => exact absurd rfl h
  | cons child children => rw [paths, List.isEmpty_cons, if_neg Bool.false_ne_true, pathsFrom_letters]

/-- Every branch below has all its children. -/
def Full (code_symbols : Nat) (node : HuffmanTreeNode P) : Prop :=
  ∀ p branch, follow node p = some branch → branch.children ≠ [] →
    branch.children.length = code_symbols

theorem Full.of_leaf : Full code_symbols (.mk letter probability [] : HuffmanTreeNode P) := by
  intro p branch hp hne
  cases p with
  | nil =>
    cases hp
    exact absurd rfl hne
  | cons s p => cases hp

theorem Full.of_branch (h : ∀ child ∈ children, Full code_symbols child)
    (hlen : children.length = code_symbols) :
    Full code_symbols (.mk letter probability children) := by
  intro p branch hp hne
  cases p with
  | nil =>
    cases hp
    exact hlen
  | cons s p =>
    obtain ⟨child, hchild, hp⟩ := Option.bind_eq_some_iff.mp hp
    exact h child (List.mem_of_getElem? hchild) p branch hp hne

end Paths

section Build

variable {P : Type} [Zero P] [Add P] [LT P] {pop : List (HuffmanTreeNode P) →
  Option (HuffmanTreeNode P × List (HuffmanTreeNode P))} {heap : List (HuffmanTreeNode P)}
  {root : HuffmanTreeNode P} {code_symbols : Nat} {all : List u32}

/-- What the priority queue promises: some node of those that no other is less probable than. -/
structure IsHeap (pop : List (HuffmanTreeNode P) →
    Option (HuffmanTreeNode P × List (HuffmanTreeNode P))) : Prop where
  empty : pop [] = none
  some : ∀ heap, heap ≠ [] → ∃ top rest, pop heap = some (top, rest) ∧ (top :: rest).Perm heap ∧
    ∀ node ∈ rest, ¬ node.probability < top.probability

omit [Zero P] in
theorem takeChildren_spec (hpop : IsHeap pop) {n : Nat} {probability_sum : P} :
    ((takeChildren pop n probability_sum heap).1 ++
        (takeChildren pop n probability_sum heap).2.2).Perm heap ∧
      (takeChildren pop n probability_sum heap).1.length = min n heap.length := by
  induction n generalizing probability_sum heap with
  | zero => simp [takeChildren]
  | succ n ih =>
    by_cases hnil : heap = []
    · subst hnil
      simp [takeChildren, hpop.empty]
    · obtain ⟨top, rest, heq, hperm, -⟩ := hpop.some heap hnil
      have hlen := hperm.length_eq
      obtain ⟨ihperm, ihlen⟩ := @ih rest (probability_sum + top.probability)
      simp only [takeChildren, heq, List.length_cons, List.cons_append] at hlen ⊢
      exact ⟨(ihperm.cons top).trans hperm, by omega⟩

/-- The heap while the tree is made. -/
structure Merged (code_symbols : Nat) (all : List u32) (heap : List (HuffmanTreeNode P)) : Prop where
  full : ∀ node ∈ heap, Full code_symbols node
  leaves : (letters heap).Perm all
  size : ∃ k, all.length = heap.length + k * (code_symbols - 1)

/-- How many children the root gets from an alphabet of `n` letters. -/
def rootArity (code_symbols n : Nat) : Nat := (n - 2) % (code_symbols - 1) + 2

/-- The node that is left in the end. -/
structure IsRoot (code_symbols : Nat) (all : List u32) (root : HuffmanTreeNode P) : Prop where
  letter : root.letter = 0
  arity : root.children.length = rootArity code_symbols all.length
  full : ∀ child ∈ root.children, Full code_symbols child
  leaves : ((paths root).map Prod.fst).Perm all

omit [Zero P] [Add P] [LT P] in
theorem letters_perm {heap' : List (HuffmanTreeNode P)} (h : heap.Perm heap') :
    (letters heap).Perm (letters heap') := h.flatMap_right _

/-- A pass of the loop makes the root or leaves the heap merged. -/
theorem merge_step (hpop : IsHeap pop) (hcs : 2 ≤ code_symbols) (h : Merged code_symbols all heap)
    (hheap : 1 < heap.length) {branch : List (HuffmanTreeNode P) × P × List (HuffmanTreeNode P)}
    (hbranch : takeChildren pop code_symbols 0 heap = branch) :
    branch.1.length = min code_symbols heap.length ∧
    branch.2.2.length = heap.length - code_symbols ∧
      if heap.length ≤ code_symbols then
        IsRoot code_symbols all (.mk 0 branch.2.1 branch.1)
      else Merged code_symbols all (.mk 0 branch.2.1 branch.1 :: branch.2.2) := by
  obtain ⟨hperm, hlen⟩ := @takeChildren_spec _ _ _ _ heap hpop code_symbols 0
  rw [hbranch] at hperm hlen
  have hsum := hperm.length_eq
  rw [List.length_append] at hsum
  obtain ⟨k, hk⟩ := h.size
  have hmem : ∀ child ∈ branch.1, Full code_symbols child := fun child hc =>
    h.full child (hperm.subset (List.mem_append_left _ hc))
  have hne : branch.1 ≠ [] := List.ne_nil_of_length_pos (by omega)
  have hleaves : (letters branch.1 ++ letters branch.2.2).Perm all := by
    rw [letters, letters, ← List.flatMap_append]
    exact (letters_perm hperm).trans h.leaves
  refine ⟨hlen, by omega, ?_⟩
  split
  · next hle =>
    have hnil : branch.2.2 = [] := List.length_eq_zero_iff.mp (by omega)
    rw [hnil, show letters ([] : List (HuffmanTreeNode P)) = [] from rfl, List.append_nil] at hleaves
    refine ⟨rfl, ?_, hmem, by rwa [paths_mk hne]⟩
    have hall : all.length - 2 = heap.length - 2 + k * (code_symbols - 1) := by omega
    show branch.1.length = _
    rw [hlen, rootArity, hall, Nat.add_mul_mod_self_right, Nat.mod_eq_of_lt (by omega)]
    omega
  · next hgt =>
    refine ⟨?_, ?_, ?_⟩
    · intro node hnode
      rcases List.mem_cons.mp hnode with rfl | hrest
      · exact Full.of_branch hmem (by omega)
      · exact h.full node (hperm.subset (List.mem_append_right _ hrest))
    · rw [letters, List.flatMap_cons, paths_mk hne]
      exact hleaves
    · refine ⟨k + 1, ?_⟩
      rw [hk, List.length_cons, Nat.add_mul]
      omega

theorem mergeLoop_spec (hpop : IsHeap pop) (hcs : 2 ≤ code_symbols) {fuel : Nat}
    (h : Merged code_symbols all heap) (hheap : 1 < heap.length) (hfuel : heap.length ≤ fuel) :
    ∃ root, mergeLoop pop code_symbols fuel heap = [root] ∧ IsRoot code_symbols all root := by
  induction fuel generalizing heap with
  | zero => omega
  | succ fuel ih =>
    obtain ⟨hlen, hrest, hstep⟩ := merge_step hpop hcs h hheap rfl
    rw [mergeLoop, if_pos hheap]
    by_cases hle : heap.length ≤ code_symbols
    · rw [if_pos hle] at hstep
      have hnil : (takeChildren pop code_symbols 0 heap).2.2 = [] :=
        List.length_eq_zero_iff.mp (by omega)
      refine ⟨_, ?_, hstep⟩
      dsimp only
      rw [hnil]
      cases fuel with
      | zero => rfl
      | succ fuel => rfl
    · rw [if_neg hle] at hstep
      refine ih hstep ?_ ?_
      · rw [List.length_cons, hrest]
        omega
      · rw [List.length_cons, hrest]
        omega

/-- The letters of an alphabet as the tree has them. -/
def lettersOf (alphabet : List (u8 × P)) : List u32 := alphabet.map fun symbol => symbol.1.setWidth 32

theorem setWidth_injective : Function.Injective fun b : u8 => b.setWidth 32 := fun a b h => by
  have h8 := congrArg (BitVec.setWidth 8) h
  simpa using h8

omit [Zero P] [Add P] [LT P] in
/-- The heap after `AddSymbol` for distinct letters. -/
theorem addSymbols_spec {alphabet : List (u8 × P)} (hd : (alphabet.map Prod.fst).Nodup) :
    addSymbols alphabet = (alphabet.map fun symbol =>
      HuffmanTreeNode.mk (symbol.1.setWidth 32) symbol.2 []).reverse := by
  suffices hfold : ∀ (alphabet added : List (u8 × P)),
      ((added ++ alphabet).map Prod.fst).Nodup →
      alphabet.foldl (fun heap symbol => (addSymbol heap (symbol.1.setWidth 32) symbol.2).1)
        (added.map fun symbol => HuffmanTreeNode.mk (symbol.1.setWidth 32) symbol.2 []).reverse =
      ((added ++ alphabet).map fun symbol =>
        HuffmanTreeNode.mk (symbol.1.setWidth 32) symbol.2 []).reverse from hfold alphabet [] hd
  intro alphabet
  induction alphabet with
  | nil => simp
  | cons symbol alphabet ih =>
    intro added hnodup
    have hnew : ¬ (added.map fun symbol => HuffmanTreeNode.mk (symbol.1.setWidth 32)
        symbol.2 []).reverse.any fun node => node.letter == symbol.1.setWidth 32 := by
      simp only [List.any_reverse, List.any_map, List.any_eq_true, Function.comp_apply, beq_iff_eq,
        not_exists, not_and]
      intro other hmem heq
      have hfst : other.1 = symbol.1 := setWidth_injective heq
      rw [List.map_append, List.nodup_append] at hnodup
      exact hnodup.2.2 _ (List.mem_map_of_mem hmem) _ List.mem_cons_self hfst
    have hih := ih (added ++ [symbol]) (by simpa using hnodup)
    rw [List.foldl_cons, addSymbol, if_neg hnew]
    simpa using hih

theorem buildTree_spec (hpop : IsHeap pop) (hcs : 2 ≤ code_symbols) {alphabet : List (u8 × P)}
    (hd : (alphabet.map Prod.fst).Nodup) (hn : 2 ≤ alphabet.length) :
    ∃ root, buildTree pop code_symbols (addSymbols alphabet) = some (initialTree code_symbols root) ∧
      IsRoot code_symbols (lettersOf alphabet) root := by
  have hheap := addSymbols_spec hd
  have hlen : (addSymbols alphabet).length = alphabet.length := by rw [hheap]; simp
  have hmerged : Merged code_symbols (lettersOf alphabet) (addSymbols alphabet) := by
    refine ⟨?_, ?_, 0, by simp [hlen, lettersOf]⟩
    · intro node hnode
      rw [hheap, List.mem_reverse] at hnode
      obtain ⟨symbol, -, rfl⟩ := List.mem_map.mp hnode
      exact Full.of_leaf
    · rw [hheap]
      refine (letters_perm (List.reverse_perm _)).trans (List.Perm.of_eq ?_)
      rw [letters, lettersOf, List.flatMap_map, List.map_eq_flatMap]
      rfl
  obtain ⟨root, hroot, hspec⟩ := mergeLoop_spec hpop hcs hmerged (by omega) (Nat.le_refl _)
  obtain ⟨top, rest, htop, hperm, -⟩ := hpop.some [root] (by simp)
  obtain ⟨rfl, rfl⟩ : top = root ∧ rest = [] := by simpa using List.perm_singleton.mp hperm
  exact ⟨top, by rw [buildTree, hroot, htop]; rfl, hspec⟩

end Build

section Decode

variable {P : Type} {root node leaf : HuffmanTreeNode P} {code_symbols max_bytes fuel s : Nat}
  {all : List u32} {S p : List Nat} {data d : List u8} {letter : u32} {top : Bool}

theorem le_two_pow_symbolBits : code_symbols ≤ 2 ^ symbolBits code_symbols := by
  have := Nat.lt_log2_self (n := code_symbols - 1)
  unfold symbolBits
  omega

theorem two_pow_symbolBits_le (hcs : 2 ≤ code_symbols) (hmax : code_symbols ≤ MAX_CODE_SYMBOLS) :
    2 ^ symbolBits code_symbols ≤ MAX_CODE_SYMBOLS := by
  have hlog : Nat.log2 (code_symbols - 1) < 4 :=
    (Nat.log2_lt (by omega)).mpr (by unfold MAX_CODE_SYMBOLS at hmax; omega)
  exact Nat.pow_le_pow_right (by omega) (show symbolBits code_symbols ≤ 4 from hlog)

/-- A bit string of whole symbols is read to its end and not past it. -/
theorem decodeLoop_total {tree : HuffmanTree P} {bs : List Bool} (hw : 0 < tree.code_symbol_bits)
    (hslots : 2 ^ tree.code_symbol_bits ≤ MAX_CODE_SYMBOLS)
    (hbs : bs.length % tree.code_symbol_bits = 0) (hfuel : bs.length < fuel) :
    ∃ r, decodeLoop tree max_bytes fuel node top bs data = some r := by
  induction fuel generalizing node top bs data with
  | zero => omega
  | succ fuel ih =>
    rw [decodeLoop]
    by_cases hnil : bs.isEmpty = true
    · exact ⟨_, by rw [if_pos hnil]⟩
    · have hpos : 0 < bs.length := List.length_pos_iff.mpr (by simpa using hnil)
      have hle : tree.code_symbol_bits ≤ bs.length :=
        Nat.le_of_dvd hpos (Nat.dvd_of_mod_eq_zero hbs)
      obtain ⟨n, hn, hlt, -⟩ := readBits_spec hle
      have hrest : (bs.drop tree.code_symbol_bits).length % tree.code_symbol_bits = 0 := by
        rw [List.length_drop, ← Nat.mod_eq_sub_mod hle, hbs]
      have hless : (bs.drop tree.code_symbol_bits).length < fuel := by
        rw [List.length_drop]
        omega
      rw [if_neg hnil, hn]
      dsimp only
      rw [if_neg (by omega)]
      split
      · split
        · exact ⟨_, rfl⟩
        · exact ih hrest hless
      · exact ih hrest hless

/-- How `Decode` splits what it reads: a letter is the way to its leaf and one symbol more, and a
symbol that the root has no child for is written as the letter of the root. -/
inductive Splits (root : HuffmanTreeNode P) : List Nat → List u8 → Prop
  | nil : Splits root [] []
  | leaf {letter : u32} {p S : List Nat} {d : List u8} (x : Nat) :
    (letter, p) ∈ paths root → Splits root S d →
      Splits root (p ++ x :: S) (letter.setWidth 8 :: d)
  | root {x : Nat} {S : List Nat} {d : List u8} :
    root.children.length ≤ x → Splits root S d → Splits root (x :: S) (0 :: d)

theorem IsRoot.two_le (h : IsRoot code_symbols all root) : 2 ≤ root.children.length := by
  rw [h.arity, rootArity]
  omega

theorem IsRoot.arity_le (h : IsRoot code_symbols all root) (hcs : 2 ≤ code_symbols) :
    root.children.length ≤ code_symbols := by
  have := Nat.mod_lt (all.length - 2) (show 0 < code_symbols - 1 by omega)
  rw [h.arity, rootArity]
  omega

/-- Only a leaf and the root lack a child. -/
theorem IsRoot.missing (h : IsRoot code_symbols all root) (hp : follow root p = some node)
    (hs : s < code_symbols) (hnone : node.children[s]? = none) :
    (node.letter, p) ∈ paths root ∨ p = [] ∧ node = root ∧ root.children.length ≤ s := by
  by_cases hnil : node.children = []
  · exact .inl (mem_paths.mpr ⟨node, hp, hnil, rfl⟩)
  · have hle := List.getElem?_eq_none_iff.mp hnone
    cases p with
    | nil =>
      cases hp
      exact .inr ⟨rfl, rfl, hle⟩
    | cons x p =>
      obtain ⟨child, hchild, hp⟩ := Option.bind_eq_some_iff.mp hp
      have := h.full child (List.mem_of_getElem? hchild) p node hp hnil
      omega

theorem IsRoot.children_le (h : IsRoot code_symbols all root) (hcs : 2 ≤ code_symbols)
    (hp : follow root p = some node) : node.children.length ≤ code_symbols := by
  cases p with
  | nil =>
    cases hp
    exact h.arity_le hcs
  | cons x p =>
    obtain ⟨child, hchild, hp⟩ := Option.bind_eq_some_iff.mp hp
    by_cases hnil : node.children = []
    · simp [hnil]
    · exact (h.full child (List.mem_of_getElem? hchild) p node hp hnil).le

theorem follow_lt {root : HuffmanTreeNode P}
    (h : ∀ q branch, follow root q = some branch → branch.children.length ≤ code_symbols)
    (hp : follow root p = some node) : ∀ s ∈ p, s < code_symbols := by
  induction p generalizing root with
  | nil => simp
  | cons x p ih =>
    obtain ⟨child, hchild, hp⟩ := Option.bind_eq_some_iff.mp hp
    have hx := (List.getElem?_eq_some_iff.mp hchild).1
    have hroot := h [] root rfl
    refine List.forall_mem_cons.mpr ⟨by omega, ih (fun q branch hq => h (x :: q) branch ?_) hp⟩
    rw [follow, hchild]
    exact hq

theorem decodeLoop_cons (hs : s < code_symbols) (hslots : code_symbols ≤ MAX_CODE_SYMBOLS) :
    decodeLoop (initialTree code_symbols root) max_bytes (fuel + 1) node top
        (bitsOf (symbolBits code_symbols) (s :: S)) data =
      match node.children[s]? with
      | none =>
        if max_bytes ≤ data.length then some (data, 0)
        else decodeLoop (initialTree code_symbols root) max_bytes fuel root true
          (bitsOf (symbolBits code_symbols) S) (data ++ [node.letter.setWidth 8])
      | some next => decodeLoop (initialTree code_symbols root) max_bytes fuel next false
          (bitsOf (symbolBits code_symbols) S) data := by
  have hpow := @le_two_pow_symbolBits code_symbols
  have hread : readBits (bitsOf (symbolBits code_symbols) (s :: S)) (symbolBits code_symbols) =
      some (s, bitsOf (symbolBits code_symbols) S) := readBits_symbol (by omega)
  have hne : ¬ (bitsOf (symbolBits code_symbols) (s :: S)).isEmpty = true := by
    rw [List.isEmpty_iff_length_eq_zero, bitsOf, List.flatMap_cons, List.length_append,
      symbol_length, symbolBits]
    omega
  rw [decodeLoop, if_neg hne, show (initialTree code_symbols root).code_symbol_bits =
    symbolBits code_symbols from rfl, hread]
  dsimp only
  rw [if_neg (by omega)]
  rfl

/-- What a run of the loop writes is a splitting of what it reads, or the call returns 0. -/
theorem decodeLoop_splits (h : IsRoot code_symbols all root)
    (hslots : code_symbols ≤ MAX_CODE_SYMBOLS) (hS : ∀ s ∈ S, s < code_symbols)
    (hfuel : S.length < fuel) (hp : follow root p = some node) :
    ∃ written count, decodeLoop (initialTree code_symbols root) max_bytes fuel node p.isEmpty
        (bitsOf (symbolBits code_symbols) S) data = some (data ++ written, count) ∧
      (count = 0 ∨ count = (data ++ written).length ∧ Splits root (p ++ S) written) := by
  induction S generalizing fuel p node data with
  | nil =>
    cases fuel with
    | zero => omega
    | succ fuel =>
      refine ⟨[], if p.isEmpty then data.length else 0, ?_, ?_⟩
      · rw [List.append_nil]
        rfl
      · cases p with
        | nil => exact .inr ⟨by simp, .nil⟩
        | cons x p => exact .inl rfl
  | cons s S ih =>
    obtain ⟨hs, hS⟩ := List.forall_mem_cons.mp hS
    rw [List.length_cons] at hfuel
    cases fuel with
    | zero => omega
    | succ fuel =>
      rw [decodeLoop_cons hs hslots]
      cases hchild : node.children[s]? with
      | none =>
        dsimp only
        by_cases hfull : max_bytes ≤ data.length
        · exact ⟨[], 0, by rw [if_pos hfull, List.append_nil], .inl rfl⟩
        · rw [if_neg hfull]
          obtain ⟨written, count, hrun, hcount⟩ := @ih root fuel []
            (data ++ [node.letter.setWidth 8]) hS (by omega) rfl
          refine ⟨node.letter.setWidth 8 :: written, count, ?_, ?_⟩
          · rw [← List.append_cons] at hrun
            exact hrun
          · refine hcount.imp_right fun ⟨hlen, hsplit⟩ => ⟨by simpa using hlen, ?_⟩
            rcases h.missing hp hs hchild with hleaf | ⟨rfl, rfl, hle⟩
            · exact .leaf s hleaf hsplit
            · rw [h.letter]
              exact .root hle hsplit
      | some next =>
        have hnext : follow root (p ++ [s]) = some next := by
          rw [follow_append hp, follow, hchild]
          rfl
        obtain ⟨written, count, hrun, hcount⟩ := @ih next fuel (p ++ [s]) data hS (by omega) hnext
        rw [show (p ++ [s]).isEmpty = false by simp] at hrun
        rw [List.append_assoc, List.singleton_append] at hcount
        exact ⟨written, count, hrun, hcount⟩

theorem decodeLoop_follow (hslots : code_symbols ≤ MAX_CODE_SYMBOLS) (hS : ∀ s ∈ p, s < code_symbols)
    (hp : follow node p = some leaf) (hne : p ≠ []) :
    decodeLoop (initialTree code_symbols root) max_bytes (fuel + p.length) node top
        (bitsOf (symbolBits code_symbols) (p ++ S)) data =
      decodeLoop (initialTree code_symbols root) max_bytes fuel leaf false
        (bitsOf (symbolBits code_symbols) S) data := by
  induction p generalizing node top with
  | nil => exact absurd rfl hne
  | cons x p ih =>
    obtain ⟨hx, hS⟩ := List.forall_mem_cons.mp hS
    obtain ⟨child, hchild, hp⟩ := Option.bind_eq_some_iff.mp hp
    rw [List.cons_append, List.length_cons, ← Nat.add_assoc, decodeLoop_cons hx hslots, hchild]
    dsimp only
    cases p with
    | nil =>
      cases hp
      rfl
    | cons y p => exact ih hS hp (List.cons_ne_nil _ _)

/-- A splitting is decoded as such. -/
theorem decodeLoop_of_splits (h : IsRoot code_symbols all root)
    (hslots : code_symbols ≤ MAX_CODE_SYMBOLS) (hsplit : Splits root S d)
    (hS : ∀ s ∈ S, s < code_symbols) (hfuel : S.length < fuel)
    (hroom : data.length + d.length ≤ max_bytes) :
    decodeLoop (initialTree code_symbols root) max_bytes fuel root true
        (bitsOf (symbolBits code_symbols) S) data = some (data ++ d, (data ++ d).length) := by
  induction hsplit generalizing fuel data with
  | nil =>
    cases fuel with
    | zero => omega
    | succ fuel =>
      rw [List.append_nil]
      rfl
  | @leaf letter p S d x hp _ ih =>
    obtain ⟨leaf, hleaf, hend, rfl⟩ := mem_paths.mp hp
    have hne : p ≠ [] := by
      rintro rfl
      cases hleaf
      have := h.two_le
      rw [hend] at this
      simp at this
    obtain ⟨hpS, hxS⟩ := List.forall_mem_append.mp hS
    obtain ⟨hx, hS⟩ := List.forall_mem_cons.mp hxS
    rw [List.length_append, List.length_cons] at hfuel
    rw [List.length_cons] at hroom
    obtain ⟨rest, rfl⟩ : ∃ rest, fuel = rest + 1 + p.length := ⟨fuel - 1 - p.length, by omega⟩
    rw [decodeLoop_follow hslots hpS hleaf hne, decodeLoop_cons hx hslots, hend]
    dsimp only [List.getElem?_nil]
    rw [if_neg (by omega), ih hS (by omega) (by simp; omega), ← List.append_cons]
  | @root x S d hx _ ih =>
    obtain ⟨hlt, hS⟩ := List.forall_mem_cons.mp hS
    rw [List.length_cons] at hfuel hroom
    cases fuel with
    | zero => omega
    | succ fuel =>
      rw [decodeLoop_cons hlt hslots, List.getElem?_eq_none hx]
      dsimp only
      rw [if_neg (by omega), ih hS (by omega) (by simp; omega), h.letter, ← List.append_cons]
      rfl

end Decode

section Least

/-- A `pop` that takes the first of the least probable nodes. -/
def popLeast : List (HuffmanTreeNode Nat) →
    Option (HuffmanTreeNode Nat × List (HuffmanTreeNode Nat))
  | [] => none
  | node :: heap =>
    match popLeast heap with
    | none => some (node, [])
    | some (top, rest) =>
      if top.probability < node.probability then some (top, node :: rest)
      else some (node, top :: rest)

theorem popLeast_isHeap : IsHeap popLeast where
  empty := rfl
  some := by
    intro heap
    induction heap with
    | nil => exact fun h => absurd rfl h
    | cons node heap ih =>
      intro _
      by_cases hnil : heap = []
      · subst hnil
        exact ⟨node, [], rfl, List.Perm.refl _, by simp⟩
      · obtain ⟨top, rest, heq, hperm, hleast⟩ := ih hnil
        rw [popLeast, heq]
        dsimp only
        split
        · next hlt =>
          refine ⟨top, node :: rest, rfl, (List.Perm.swap _ _ _).trans (hperm.cons node), ?_⟩
          exact List.forall_mem_cons.mpr ⟨Nat.not_lt.mpr (Nat.le_of_lt hlt), hleast⟩
        · next hge =>
          refine ⟨node, top :: rest, rfl, hperm.cons node, List.forall_mem_cons.mpr ⟨hge, ?_⟩⟩
          exact fun other hother hlt => hleast other hother (by omega)

end Least

section RoundTrip

variable {P : Type} {root node leaf : HuffmanTreeNode P} {code_symbols max_bytes s : Nat}
  {alphabet : List (u8 × P)} {all : List u32} {S p : List Nat} {data d : List u8} {letter : u32}

/-- The way to the leaf of a letter. -/
def codeOf (root : HuffmanTreeNode P) (letter : u32) : List Nat :=
  ((paths root).find? fun e => e.1 == letter).elim [] Prod.snd

/-- The symbols of a message. -/
def message (root : HuffmanTreeNode P) (data : List u8) : List Nat :=
  data.flatMap fun letter => codeOf root (letter.setWidth 32)

theorem codeOf_mem (h : letter ∈ (paths root).map Prod.fst) :
    (paths root).find? (fun e => e.1 == letter) = some (letter, codeOf root letter) ∧
      (letter, codeOf root letter) ∈ paths root := by
  obtain ⟨e, hmem, rfl⟩ := List.mem_map.mp h
  have hsome : ((paths root).find? fun e' => e'.1 == e.1).isSome :=
    List.find?_isSome.mpr ⟨e, hmem, beq_self_eq_true _⟩
  obtain ⟨e', he'⟩ := Option.isSome_iff_exists.mp hsome
  have hfst : e'.1 = e.1 := by simpa using List.find?_some he'
  have hcode : codeOf root e.1 = e'.2 := by rw [codeOf, he']; rfl
  rw [show e' = (e.1, codeOf root e.1) from Prod.ext hfst hcode.symm] at he'
  exact ⟨he', List.mem_of_find?_eq_some he'⟩

theorem codeOf_eq (hd : ((paths root).map Prod.fst).Nodup) (h : (letter, p) ∈ paths root) :
    codeOf root letter = p := by
  have hmem := (codeOf_mem (List.mem_map_of_mem h)).2
  exact congrArg Prod.snd (List.inj_on_of_nodup_map hd hmem h rfl)

theorem encode_eq (h : ∀ letter ∈ data, letter.setWidth 32 ∈ (paths root).map Prod.fst) :
    encode (initialTree code_symbols root) data =
      some (bitsOf (symbolBits code_symbols) (message root data)) := by
  induction data with
  | nil => rfl
  | cons letter data ih =>
    obtain ⟨hletter, hdata⟩ := List.forall_mem_cons.mp h
    have hmap : (initialTree code_symbols root).encoding_map =
        (paths root).map fun e => (e.1, bitsOf (symbolBits code_symbols) e.2) := by
      rw [initialTree, fillEncodings_eq]
      rfl
    rw [encode, hmap, List.find?_map]
    simp only [Function.comp_def, (codeOf_mem hletter).1, Option.map_some, ih hdata]
    simp [message, bitsOf]

/-- `Encode` and `Decode` give the message back. -/
def RoundTrip (tree : HuffmanTree P) (data : List u8) (max_bytes : Nat) : Prop :=
  ∃ bs, encode tree data = some bs ∧ decode tree bs max_bytes = some (data, data.length)

theorem length_bitsOf {count : Nat} : (bitsOf count S).length = S.length * count := by
  simp [bitsOf, List.length_flatMap]

theorem message_lt (h : IsRoot code_symbols all root) (hcs : 2 ≤ code_symbols)
    (hdata : ∀ letter ∈ data, letter.setWidth 32 ∈ (paths root).map Prod.fst) :
    ∀ s ∈ message root data, s < code_symbols := by
  intro s hs
  obtain ⟨letter, hletter, hs⟩ := List.mem_flatMap.mp hs
  obtain ⟨leaf, hleaf, -⟩ := mem_paths.mp (codeOf_mem (hdata letter hletter)).2
  exact follow_lt (fun q branch hq => h.children_le hcs hq) hleaf s hs

/-- The round trip goes well when the symbols of the message split as the decoder splits them. -/
theorem roundTrip_iff_splits (h : IsRoot code_symbols all root) (hcs : 2 ≤ code_symbols)
    (hslots : code_symbols ≤ MAX_CODE_SYMBOLS)
    (hdata : ∀ letter ∈ data, letter.setWidth 32 ∈ (paths root).map Prod.fst)
    (hroom : data.length ≤ max_bytes) :
    RoundTrip (initialTree code_symbols root) data max_bytes ↔
      Splits root (message root data) data := by
  have hencode := @encode_eq _ _ code_symbols _ hdata
  have hlt := message_lt h hcs hdata
  have hfuel : (message root data).length <
      (bitsOf (symbolBits code_symbols) (message root data)).length + 1 := by
    have := Nat.le_mul_of_pos_right (message root data).length
      (show 0 < symbolBits code_symbols by unfold symbolBits; omega)
    rw [length_bitsOf]
    omega
  constructor
  · rintro ⟨bs, hbs, hrun⟩
    cases hencode.symm.trans hbs
    obtain ⟨written, count, hspec, hcount⟩ := @decodeLoop_splits _ root root code_symbols
      max_bytes _ all _ [] [] h hslots hlt hfuel rfl
    have heq := hspec.symm.trans hrun
    rw [List.nil_append] at heq
    cases heq
    rcases hcount with hzero | ⟨-, hsplit⟩
    · obtain rfl := List.length_eq_zero_iff.mp hzero
      exact .nil
    · exact hsplit
  · intro hsplit
    exact ⟨_, hencode, decodeLoop_of_splits h hslots hsplit hlt hfuel (by simpa using hroom)⟩

/-- A splitting takes a symbol for each letter over those of its code word, unless the root has no
child for some symbol. -/
theorem Splits.length (h : Splits root S d) (hd : ((paths root).map Prod.fst).Nodup)
    (hbytes : ∀ l ∈ (paths root).map Prod.fst, (l.setWidth 8).setWidth 32 = l)
    (hfull : 0 ∉ d ∨ ∀ s ∈ S, s < root.children.length) :
    S.length = (message root d).length + d.length := by
  induction h with
  | nil => rfl
  | @leaf letter p S d x hp _ ih =>
    have hword : codeOf root ((letter.setWidth 8).setWidth 32) = p := by
      rw [hbytes _ (List.mem_map_of_mem hp)]
      exact codeOf_eq hd hp
    have hrest := ih (hfull.imp (fun hne hmem => hne (List.mem_cons_of_mem _ hmem))
      fun hS s hs => hS s (List.mem_append_right _ (List.mem_cons_of_mem _ hs)))
    simp only [message, List.flatMap_cons, hword, List.length_append, List.length_cons] at hrest ⊢
    omega
  | @root x S d hx _ ih =>
    rcases hfull with hne | hS
    · exact absurd List.mem_cons_self hne
    · have := hS x List.mem_cons_self
      omega

theorem rootArity_eq (hcs : 2 ≤ code_symbols) {n : Nat} (hn : 2 ≤ n)
    (hdvd : (n - 1) % (code_symbols - 1) = 0) : rootArity code_symbols n = code_symbols := by
  obtain ⟨k, hk⟩ := Nat.dvd_of_mod_eq_zero hdvd
  cases k with
  | zero => omega
  | succ k =>
    have hsub : n - 2 = code_symbols - 2 + (code_symbols - 1) * k := by
      rw [Nat.mul_succ] at hk
      omega
    rw [rootArity, hsub, Nat.add_mul_mod_self_left, Nat.mod_eq_of_lt (by omega)]
    omega

/-- Where the root has all its children or the message has no letter 0, the decoder runs out of
symbols: only the empty message comes back. -/
theorem roundTrip_iff_nil (h : IsRoot code_symbols all root) (hcs : 2 ≤ code_symbols)
    (hslots : code_symbols ≤ MAX_CODE_SYMBOLS) (hn : 2 ≤ all.length) (hd : all.Nodup)
    (hbytes : ∀ l ∈ all, (l.setWidth 8).setWidth 32 = l)
    (hdata : ∀ letter ∈ data, letter.setWidth 32 ∈ (paths root).map Prod.fst)
    (hroom : data.length ≤ max_bytes)
    (hfull : 0 ∉ data ∨ (all.length - 1) % (code_symbols - 1) = 0) :
    RoundTrip (initialTree code_symbols root) data max_bytes ↔ data = [] := by
  rw [roundTrip_iff_splits h hcs hslots hdata hroom]
  constructor
  · intro hsplit
    have hcount := hsplit.length (h.leaves.nodup_iff.mpr hd)
      (fun l hl => hbytes l (h.leaves.subset hl)) (hfull.imp_right fun hdvd s hs => by
        rw [h.arity, rootArity_eq hcs hn hdvd]
        exact message_lt h hcs hdata s hs)
    exact List.length_eq_zero_iff.mp (by omega)
  · rintro rfl
    exact .nil

/-- `Decode` of an encoded message gives the message exactly when its symbols happen to split as
the decoder splits them; with a full root, or without the letter 0, when it is empty. No bit string
of whole symbols is read past its end. -/
theorem huffman_round_trip [Zero P] [Add P] [LT P] {pop : List (HuffmanTreeNode P) →
    Option (HuffmanTreeNode P × List (HuffmanTreeNode P))} (hpop : IsHeap pop)
    (hcs : 2 ≤ code_symbols) (hslots : code_symbols ≤ MAX_CODE_SYMBOLS)
    (hd : (alphabet.map Prod.fst).Nodup) (hn : 2 ≤ alphabet.length) :
    ∃ tree, buildTree pop code_symbols (addSymbols alphabet) = some tree ∧
      (∀ bs max_bytes, bs.length % tree.code_symbol_bits = 0 →
        ∃ r, decode tree bs max_bytes = some r) ∧
      ∀ (data : List u8) (max_bytes : Nat), (∀ letter ∈ data, letter ∈ alphabet.map Prod.fst) →
        data.length ≤ max_bytes →
        (RoundTrip tree data max_bytes ↔ Splits tree.root (message tree.root data) data) ∧
        (0 ∉ data ∨ (alphabet.length - 1) % (code_symbols - 1) = 0 →
          (RoundTrip tree data max_bytes ↔ data = [])) := by
  obtain ⟨root, hbuild, hroot⟩ := buildTree_spec hpop hcs hd hn
  have hlen : (lettersOf alphabet).length = alphabet.length := List.length_map _
  have hnodup : (lettersOf alphabet).Nodup := by
    simpa [lettersOf, Function.comp_def] using hd.map setWidth_injective
  refine ⟨_, hbuild, fun bs max_bytes hbs => ?_, fun data max_bytes hmem hroom => ?_⟩
  · exact decodeLoop_total (Nat.succ_pos _) (two_pow_symbolBits_le hcs hslots) hbs
      (Nat.lt_succ_self _)
  · have hdata : ∀ letter ∈ data, letter.setWidth 32 ∈ (paths root).map Prod.fst := by
      intro letter hletter
      obtain ⟨symbol, hsymbol, rfl⟩ := List.mem_map.mp (hmem letter hletter)
      exact hroot.leaves.symm.subset (List.mem_map.mpr ⟨symbol, hsymbol, rfl⟩)
    refine ⟨roundTrip_iff_splits hroot hcs hslots hdata hroom, fun hfull => ?_⟩
    refine roundTrip_iff_nil hroot hcs hslots (by omega) hnodup (fun l hl => ?_) hdata hroom
      (by rwa [hlen])
    obtain ⟨symbol, -, rfl⟩ := List.mem_map.mp hl
    simp

theorem huffman_round_trip_two : ∃ tree,
    buildTree popLeast 2 (addSymbols [(97, 1), (98, 1)]) = some tree ∧
      (RoundTrip tree [97] 1 ↔ [97] = ([] : List u8)) := by
  obtain ⟨tree, hbuild, -, htree⟩ := @huffman_round_trip Nat 2 [(97, 1), (98, 1)] _ _ _ _
    popLeast_isHeap (by decide) (by decide) (by decide) (by decide)
  exact ⟨tree, hbuild, (htree [97] 1 (by decide) (by decide)).2 (.inl (by decide))⟩

/-- One letter of an alphabet of two is encoded in one bit, and `Decode` of it returns 0. -/
theorem one_letter_lost : IsHeap popLeast ∧ ∃ tree bs,
    buildTree popLeast 2 (addSymbols [(97, 1), (98, 1)]) = some tree ∧
      encode tree [97] = some bs ∧ bs.length = 1 ∧ decode tree bs 1 = some ([], 0) :=
  ⟨popLeast_isHeap, _, _, rfl, rfl, rfl, rfl⟩

end RoundTrip

end Libcat.Codec.Huffman
