import HafeCodec.BitArray.Bits
import HafeCodec.Tree.HuffmanTree

/-!
# The symbol table

The table gives every byte a codeword, which is empty for a symbol that does not occur. It is read
off the tree by a depth-first search with an explicit stack of nodes and of the paths to them; a
tree that is a single leaf gets a codeword of one bit.

## Main definitions

* `SymbolTable`, `SymbolTable.code`, `SymbolTable.Clean`.
* `SymbolTable.buildLoop`, `SymbolTable.buildSymbolTable`, `SymbolTable.ofTree`.
* `SymbolTable.longest`.
* `HuffmanNode.paths`: the codewords that the table of a tree holds.

## Main results

* `SymbolTable.buildLoop_leaf`, `SymbolTable.buildLoop_subtree`: one round of the search.
* `SymbolTable.buildLoop_node`: the search below one node of the stack.
* `SymbolTable.exists_buildSymbolTable`: the table holds the paths of the tree, and nothing else.
-/

namespace HafeCodec

/-- The vector of `MAX_SYMBOLS` codewords. -/
abbrev SymbolTable : Type :=
  UInt8 → HuffmanCode

namespace HuffmanNode

/-- The leaves of a tree with their codewords, a single leaf having one bit. -/
def paths : HuffmanNode → List ((UInt8 × ℕ) × List Bool)
  | leaf s f => [((s, f), [false])]
  | subtree l r f => (subtree l r f).toTree.codewords

theorem map_fst_paths : (n : HuffmanNode) → n.paths.map Prod.fst = n.toTree.leaves
  | leaf _ _ => rfl
  | subtree _ _ _ => rfl

theorem path_ne_nil {n : HuffmanNode} {e : (UInt8 × ℕ) × List Bool} (he : e ∈ n.paths) :
    e.2 ≠ [] := by
  cases n with
  | leaf s f =>
    rw [List.mem_singleton.mp he]
    exact List.cons_ne_nil _ _
  | subtree l r f => exact CodeTree.codeword_ne_nil he

theorem pairwise_paths (n : HuffmanNode) :
    n.paths.Pairwise fun e f => ¬ e.2 <+: f.2 ∧ ¬ f.2 <+: e.2 := by
  cases n with
  | leaf s f => exact List.pairwise_singleton _ _
  | subtree l r f => exact CodeTree.pairwise_codewords _

theorem length_path_le {n : HuffmanNode} {e : (UInt8 × ℕ) × List Bool} (he : e ∈ n.paths) :
    e.2.length ≤ max 1 n.toTree.height := by
  cases n with
  | leaf s f =>
    rw [List.mem_singleton.mp he]
    exact le_max_left _ _
  | subtree l r f => exact (CodeTree.length_le_height he).trans (le_max_right _ _)

end HuffmanNode

namespace SymbolTable

open BitArray

/-- The bits of the codeword of a symbol. -/
def code (st : SymbolTable) (s : UInt8) : List Bool :=
  (st s).bits

/-- All codewords are followed by zeros. -/
def Clean (st : SymbolTable) : Prop :=
  ∀ s, (st s).HoldsWithin 32 (st.code s)

/-- A vector of `MAX_SYMBOLS` new codewords. -/
def new : Outcome SymbolTable := do
  let code ← HuffmanCode.new
  return fun _ => code

/-- `for (...; !open.empty();) { ... }`. -/
def buildLoop : ℕ → List (HuffmanNode × HuffmanCode) → SymbolTable → Outcome SymbolTable
  | _, [], table => .ok table
  | 0, _ :: _, _ => .error .loopBound
  | fuel + 1, (.leaf s _, front) :: rest, table => do
    let path ← front.copy
    let code ← (table s).copyAssign path
    buildLoop fuel rest (Function.update table s code)
  | fuel + 1, (.subtree l r _, front) :: rest, table => do
    let path ← front.copy
    let right ← path.copy
    let right ← right.pushBack true
    let left ← path.copy
    let left ← left.pushBack false
    buildLoop fuel ((l, left) :: (r, right) :: rest) table

/-- `build_symbol_table(const HuffmanNode *root)`. -/
def buildSymbolTable (root : HuffmanNode) : Outcome SymbolTable := do
  let table ← new
  match root with
  | .leaf s _ => do
    let code ← (table s).pushBack false
    return Function.update table s code
  | .subtree l r f => do
    let path ← HuffmanCode.new
    buildLoop root.toTree.size [(.subtree l r f, path)] table

/-- `SymbolTable(const HuffmanTree &tree)`. -/
def ofTree (tree : HuffmanTree) : Outcome SymbolTable :=
  buildSymbolTable tree.root

/-- `std::max_element(first, last, comp)`: the first of the greatest elements. -/
def maxElement {α : Type} (comp : α → α → Bool) : List α → Option α
  | [] => none
  | a :: l => some (l.foldl (fun largest x => if comp largest x then x else largest) a)

/-- `longest()`. -/
def longest (st : SymbolTable) : HuffmanCode :=
  match maxElement (fun a b => a.bitLength < b.bitLength) (symbols.map st) with
  | some code => code
  | none => st 0

/-- A leaf on top of the stack: its path is entered into the table. -/
theorem buildLoop_leaf (s : UInt8) (f fuel : ℕ) (rest : List (HuffmanNode × HuffmanCode))
    {front : HuffmanCode} {p : List Bool} {table : SymbolTable}
    (hfront : front.HoldsWithin 32 p) (hlen : p.length + 7 < 2 ^ 64)
    (hzero : (table s).Holds []) :
    ∃ code, buildLoop (fuel + 1) ((.leaf s f, front) :: rest) table =
        buildLoop fuel rest (Function.update table s code) ∧ code.HoldsWithin 32 p := by
  obtain ⟨path, hpath, hpathHolds⟩ := hfront.copy hlen
  obtain ⟨code, hcode, hcodeHolds⟩ := hpathHolds.copyAssign hzero hlen
  refine ⟨code, ?_, hcodeHolds⟩
  rw [buildLoop, hpath, ExceptFold.ok_bind, hcode, ExceptFold.ok_bind]

/-- An inner node on top of the stack: it is replaced by its children, the left one on top. -/
theorem buildLoop_subtree (l r : HuffmanNode) (f fuel : ℕ)
    (rest : List (HuffmanNode × HuffmanCode)) {front : HuffmanCode} {p : List Bool}
    (table : SymbolTable) (hfront : front.HoldsWithin 32 p) (hlen : p.length + 8 < 2 ^ 64) :
    ∃ left right, buildLoop (fuel + 1) ((.subtree l r f, front) :: rest) table =
        buildLoop fuel ((l, left) :: (r, right) :: rest) table ∧
      left.HoldsWithin 32 (p ++ [false]) ∧ right.HoldsWithin 32 (p ++ [true]) := by
  obtain ⟨path, hpath, hpathHolds⟩ := hfront.copy (by omega)
  obtain ⟨child, hchild, hchildHolds⟩ := hpathHolds.copy (by omega)
  obtain ⟨right, hright, hrightHolds⟩ := hchildHolds.pushBack (by decide) (by omega) true
  obtain ⟨left, hleft, hleftHolds⟩ := hchildHolds.pushBack (by decide) (by omega) false
  refine ⟨left, right, ?_, hleftHolds, hrightHolds⟩
  rw [buildLoop, hpath, ExceptFold.ok_bind, hchild, ExceptFold.ok_bind, hright, ExceptFold.ok_bind,
    ExceptFold.ok_bind, hleft, ExceptFold.ok_bind]

/-- **The search below one node** puts the paths to the leaves below it into the table, and leaves
the other codewords and the rest of the stack as they are. -/
theorem buildLoop_node (n : HuffmanNode) (fuel : ℕ) (rest : List (HuffmanNode × HuffmanCode))
    {front : HuffmanCode} {p : List Bool} {table : SymbolTable}
    (hfront : front.HoldsWithin 32 p) (hlen : p.length + n.toTree.height + 8 < 2 ^ 64)
    (hnodup : (n.toTree.leaves.map Prod.fst).Nodup)
    (htable : ∀ s ∈ n.toTree.leaves.map Prod.fst, (table s).Holds []) :
    ∃ table', buildLoop (n.toTree.size + fuel) ((n, front) :: rest) table =
        buildLoop fuel rest table' ∧
      (∀ e ∈ n.toTree.codewords, (table' e.1.1).HoldsWithin 32 (p ++ e.2)) ∧
      ∀ s ∉ n.toTree.leaves.map Prod.fst, table' s = table s := by
  induction n generalizing fuel front p rest table with
  | leaf s f =>
    rw [HuffmanNode.toTree, CodeTree.height] at hlen
    obtain ⟨code, hstep, hcodeHolds⟩ := buildLoop_leaf s f fuel rest hfront (by omega)
      (htable s (List.mem_singleton_self s))
    refine ⟨Function.update table s code, ?_, ?_, ?_⟩
    · rw [HuffmanNode.toTree, CodeTree.size, Nat.add_comm, hstep]
    · intro e he
      obtain rfl := List.mem_singleton.mp he
      rw [Function.update_self, List.append_nil]
      exact hcodeHolds
    · intro t ht
      exact Function.update_of_ne (List.ne_of_not_mem_cons ht) _ _
  | subtree l r f ihl ihr =>
    rw [HuffmanNode.toTree, CodeTree.height] at hlen
    rw [HuffmanNode.toTree, CodeTree.leaves_node, List.map_append] at hnodup htable
    obtain ⟨hnl, hnr, hdisj⟩ := List.nodup_append'.mp hnodup
    obtain ⟨left, right, hstep, hleftHolds, hrightHolds⟩ := buildLoop_subtree l r f
      (l.toTree.size + (r.toTree.size + fuel)) rest table hfront (by omega)
    have hsize : (HuffmanNode.subtree l r f).toTree.size + fuel =
        l.toTree.size + (r.toTree.size + fuel) + 1 := by
      rw [HuffmanNode.toTree, CodeTree.size]
      omega
    obtain ⟨table₁, hl, hl', hl''⟩ := ihl (r.toTree.size + fuel)
      ((r, right) :: rest) hleftHolds
      (by rw [List.length_append, List.length_singleton]; omega) hnl
      (fun s hs => htable s (List.mem_append_left _ hs))
    -- The left half of the search does not touch the symbols of the right half.
    have htable₁ : ∀ s ∈ r.toTree.leaves.map Prod.fst, (table₁ s).Holds [] := by
      intro s hs
      rw [hl'' s fun hs' => hdisj hs' hs]
      exact htable s (List.mem_append_right _ hs)
    obtain ⟨table₂, hr, hr', hr''⟩ := ihr fuel rest hrightHolds
      (by rw [List.length_append, List.length_singleton]; omega) hnr htable₁
    refine ⟨table₂, by rw [hsize, hstep, hl, hr], ?_, ?_⟩
    · intro e he
      rcases List.mem_append.mp he with he | he
      · obtain ⟨e, hel, rfl⟩ := List.mem_map.mp he
        have hmem : e.1.1 ∈ l.toTree.leaves.map Prod.fst :=
          List.mem_map_of_mem (List.mem_map_of_mem hel)
        have hcode := hl' e hel
        rw [List.append_assoc, List.singleton_append] at hcode
        rw [CodeTree.extend, hr'' _ fun hmem' => hdisj hmem hmem']
        exact hcode
      · obtain ⟨e, her, rfl⟩ := List.mem_map.mp he
        have hcode := hr' e her
        rw [List.append_assoc, List.singleton_append] at hcode
        exact hcode
    · intro s hs
      rw [HuffmanNode.toTree, CodeTree.leaves_node, List.map_append, List.mem_append,
        not_or] at hs
      rw [hr'' s hs.2, hl'' s hs.1]

/-- **The table of a tree** holds the paths of the tree and nothing else. -/
theorem exists_buildSymbolTable {root : HuffmanNode} (hheight : root.toTree.height ≤ 2 ^ 32)
    (hnodup : (root.toTree.leaves.map Prod.fst).Nodup) :
    ∃ st, buildSymbolTable root = .ok st ∧
      (∀ e ∈ root.paths, (st e.1.1).HoldsWithin 32 e.2) ∧
      ∀ s ∉ root.toTree.leaves.map Prod.fst, (st s).HoldsWithin 32 [] := by
  obtain ⟨blank, hblank, hblankHolds⟩ := exists_new
  have hnew : new = .ok fun _ => blank := by
    rw [new, hblank]
    rfl
  cases root with
  | leaf s f =>
    obtain ⟨code, hcode, hcodeHolds⟩ := hblankHolds.pushBack (by decide) (by decide) false
    refine ⟨Function.update (fun _ => blank) s code, ?_, ?_, ?_⟩
    · rw [buildSymbolTable, hnew, ExceptFold.ok_bind]
      dsimp only
      rw [hcode]
      rfl
    · intro e he
      obtain rfl := List.mem_singleton.mp he
      rw [Function.update_self]
      exact hcodeHolds
    · intro t ht
      rw [Function.update_of_ne (List.ne_of_not_mem_cons ht)]
      exact hblankHolds
  | subtree l r f =>
    obtain ⟨st, hloop, hcodes, hrest⟩ := buildLoop_node (.subtree l r f) 0 []
      hblankHolds (by rw [List.length_nil]; omega) hnodup fun _ _ => hblankHolds.toHolds
    refine ⟨st, ?_, hcodes, fun s hs => (hrest s hs).symm ▸ hblankHolds⟩
    rw [buildSymbolTable, hnew, ExceptFold.ok_bind]
    dsimp only
    rw [hblank, ExceptFold.ok_bind]
    exact hloop

/-! ### An instance -/

/-- A table with the codewords `0` for the letter `a` and `1` for the letter `b`. -/
def tableAb : SymbolTable := fun s =>
  if s = 97 then ⟨[0], 1, 8⟩ else if s = 98 then ⟨[128], 1, 8⟩ else ⟨[0], 0, 8⟩

theorem wellFormed_tableAb (s : UInt8) : (tableAb s).WellFormed := by
  rw [tableAb]
  split_ifs
  all_goals exact ⟨by decide, by decide, by decide⟩

theorem zeroPadded_tableAb (s : UInt8) : (tableAb s).ZeroPadded := by
  rw [tableAb]
  split_ifs
  all_goals rfl

theorem bitLength_tableAb_le (s : UInt8) : (tableAb s).bitLength ≤ 1 := by
  rw [tableAb]
  split_ifs
  all_goals decide

theorem code_tableAb (s : UInt8) :
    tableAb.code s = if s = 97 then [false] else if s = 98 then [true] else [] := by
  rw [code, tableAb]
  split_ifs
  all_goals rfl

theorem eq_of_prefix_tableAb {s t : UInt8} (hs : tableAb.code s ≠ [])
    (h : tableAb.code s <+: tableAb.code t) : s = t := by
  have hcases : s = 97 ∨ s = 98 := by
    by_contra! hne
    rw [code_tableAb, if_neg hne.1, if_neg hne.2] at hs
    exact hs rfl
  rw [code_tableAb t] at h
  rcases hcases with rfl | rfl
  · split_ifs at h with h₁ h₂
    · exact h₁.symm
    · exact absurd h (by decide)
    · exact absurd h (by decide)
  · split_ifs at h with h₁ h₂
    · exact absurd h (by decide)
    · exact h₂.symm
    · exact absurd h (by decide)

end SymbolTable

end HafeCodec
