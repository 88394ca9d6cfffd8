import Qubitcoin.Indexer.State
import Qubitcoin.Crypto.Sha256
import Qubitcoin.Lib.PairTree
import Mathlib.Data.List.Sort

/-! `qubitcoin-indexer/smt.rs`, which `qubitcoin-indexer-core/smt.rs` repeats: the root over the
    key-value pairs of a state. -/

open qubitcoin.indexer.state

namespace qubitcoin.indexer.smt

/-- What SHA-256 returns. -/
abbrev Digest := Vector UInt8 32

/-- What a leaf hashes: the pair, each part after its length. -/
def leaf_data (pair : Bytes × Bytes) : Bytes :=
  to_le_bytes (UInt32.ofNat pair.1.length) ++ pair.1 ++ to_le_bytes (UInt32.ofNat pair.2.length) ++ pair.2

def node_data (chunk : Digest × Digest) : Bytes := chunk.1.toList ++ chunk.2.toList

/-- `sort_by` on the keys. -/
def sort_by_key (pairs : List (Bytes × Bytes)) : List (Bytes × Bytes) :=
  pairs.mergeSort fun a b => decide (a.1 ≤ b.1)

variable (sha256 : Bytes → Digest)

def hash_pair (left right : Digest) : Digest := sha256 (node_data (left, right))

def leaf_hashes (pairs : List (Bytes × Bytes)) : List Digest := (sort_by_key pairs).map fun pair => sha256 (leaf_data pair)

/-- The root over the pairs in the order of their keys; zero for no pairs. -/
def compute_state_root (pairs : List (Bytes × Bytes)) : Digest :=
  if pairs.isEmpty then Vector.replicate 32 0
  else (pairTree.climb (hash_pair sha256) pairs.length (leaf_hashes sha256 pairs)).getD (Vector.replicate 32 0)

/-- What is hashed for the leaves of a state root. -/
def leaf_inputs (pairs : List (Bytes × Bytes)) : Set Bytes := { data | ∃ pair ∈ pairs, leaf_data pair = data }

def node_inputs (pairs : List (Bytes × Bytes)) : Set Bytes :=
  node_data '' pairTree.combinedPairs (hash_pair sha256) (leaf_hashes sha256 pairs)

/-- A hash that is injective on some data, never zero there, and never gives a leaf and an
    inner node one value. -/
structure Binding (leaves nodes : Set Bytes) : Prop where
  inj : Set.InjOn sha256 (leaves ∪ nodes)
  nonzero : ∀ data ∈ leaves ∪ nodes, sha256 data ≠ Vector.replicate 32 0
  apart : ∀ leaf ∈ leaves, ∀ node ∈ nodes, sha256 leaf ≠ sha256 node

variable {sha256}

theorem node_data_injective : Function.Injective node_data := by
  rintro ⟨left, right⟩ ⟨other_left, other_right⟩ heq
  obtain ⟨hleft, hright⟩ := List.append_inj heq (by rw [Vector.length_toList, Vector.length_toList])
  exact Prod.ext (Vector.toList_inj.mp hleft) (Vector.toList_inj.mp hright)

theorem leaf_data_injOn :
    Set.InjOn leaf_data { pair | pair.1.length < 2 ^ 32 ∧ pair.2.length < 2 ^ 32 } := by
  have hlength : ∀ {n m : Nat}, n < 2 ^ 32 → m < 2 ^ 32 → UInt32.ofNat n = UInt32.ofNat m → n = m := by
    intro n m hn hm heq
    have hnat := congrArg UInt32.toNat heq
    rwa [UInt32.toNat_ofNat_of_lt' hn, UInt32.toNat_ofNat_of_lt' hm] at hnat
  rintro ⟨key, data⟩ ⟨hkey, hdata⟩ ⟨other_key, other_data⟩ ⟨hother_key, hother_data⟩ heq
  unfold leaf_data at heq
  dsimp only at hkey hdata hother_key hother_data heq
  simp only [List.append_assoc] at heq
  obtain ⟨hcount, heq⟩ := List.append_inj heq (by rw [length_to_le_bytes, length_to_le_bytes])
  obtain ⟨rfl, _⟩ := List.append_inj heq (hlength hkey hother_key (to_le_bytes_inj.mp hcount))
  obtain ⟨_, rfl⟩ := List.append_inj (List.append_cancel_left heq) (by rw [length_to_le_bytes, length_to_le_bytes])
  rfl

theorem sort_by_key_perm (pairs : List (Bytes × Bytes)) : (sort_by_key pairs).Perm pairs := List.mergeSort_perm pairs _

theorem sort_by_key_eq {left right : List (Bytes × Bytes)} (hkeys : (left.map Prod.fst).Nodup) (hperm : left.Perm right) :
    sort_by_key left = sort_by_key right := by
  have hsorted : ∀ pairs : List (Bytes × Bytes), (sort_by_key pairs).Pairwise fun a b => decide (a.1 ≤ b.1) = true := by
    intro pairs
    apply List.pairwise_mergeSort
    · intro a b c hab hbc
      exact decide_eq_true (List.le_trans (of_decide_eq_true hab) (of_decide_eq_true hbc))
    · intro a b
      simpa using List.le_total a.1 b.1
  have hsame : (sort_by_key left).Perm (sort_by_key right) :=
    (sort_by_key_perm left).trans (hperm.trans (sort_by_key_perm right).symm)
  refine hsame.eq_of_pairwise (fun a b ha hb hab hba => ?_) (hsorted left) (hsorted right)
  refine List.inj_on_of_nodup_map hkeys (List.mem_mergeSort.mp ha) (hperm.mem_iff.mpr (List.mem_mergeSort.mp hb)) ?_
  exact List.le_antisymm (of_decide_eq_true hab) (of_decide_eq_true hba)

theorem compute_state_root_eq {pairs : List (Bytes × Bytes)} (hnonempty : pairs ≠ []) {atoms : Set (Bytes × Bytes)}
    {nodes : Set (Digest × Digest)} (hatoms : ∀ pair ∈ pairs, pair ∈ atoms)
    (hnodes : pairTree.combinedPairs (hash_pair sha256) (leaf_hashes sha256 pairs) ⊆ nodes) :
    ∃ tree, compute_state_root sha256 pairs = pairTree.value (fun pair => sha256 (leaf_data pair)) (hash_pair sha256) tree ∧
      pairTree.leaves tree = sort_by_key pairs ∧
      pairTree.Within (fun pair => sha256 (leaf_data pair)) (hash_pair sha256) atoms nodes tree := by
  have hlength : (sort_by_key pairs).length = pairs.length := List.length_mergeSort pairs
  have hsorted : sort_by_key pairs ≠ [] := by
    rw [← List.length_pos_iff, hlength]
    exact List.length_pos_iff.mpr hnonempty
  obtain ⟨tree, hclimb, hleaves, hwithin⟩ := pairTree.climb_map_leaf hsorted hlength.le
    (fun pair hmem => hatoms pair (List.mem_mergeSort.mp hmem)) hnodes
  refine ⟨tree, ?_, hleaves, hwithin⟩
  rw [compute_state_root, if_neg (by rwa [List.isEmpty_iff]), leaf_hashes, hclimb]
  rfl

theorem compute_state_root_ne_zero {pairs : List (Bytes × Bytes)} (hnonempty : pairs ≠ [])
    (hnonzero : ∀ data ∈ leaf_inputs pairs ∪ node_inputs sha256 pairs, sha256 data ≠ Vector.replicate 32 0) :
    compute_state_root sha256 pairs ≠ Vector.replicate 32 0 := by
  obtain ⟨tree, hroot, _, hwithin⟩ := @compute_state_root_eq sha256 _ hnonempty _ _ (fun _ hmem => hmem) subset_rfl
  rw [hroot]
  cases tree with
  | of pair => exact hnonzero _ (.inl ⟨pair, hwithin, rfl⟩)
  | mul left right => exact hnonzero _ (.inr ⟨_, hwithin.2.2, rfl⟩)

theorem sort_by_key_eq_of_root {left right : List (Bytes × Bytes)} (hleft : left ≠ []) (hright : right ≠ [])
    (hlengths : ∀ pair ∈ left ++ right, pair.1.length < 2 ^ 32 ∧ pair.2.length < 2 ^ 32)
    (hhash : Binding sha256 (leaf_inputs left ∪ leaf_inputs right) (node_inputs sha256 left ∪ node_inputs sha256 right))
    (hroot : compute_state_root sha256 left = compute_state_root sha256 right) : sort_by_key left = sort_by_key right := by
  have hleaf : ∀ pair ∈ left ++ right, leaf_data pair ∈ leaf_inputs left ∪ leaf_inputs right := by
    intro pair hmem
    obtain hmem | hmem := List.mem_append.mp hmem
    · exact .inl ⟨pair, hmem, rfl⟩
    · exact .inr ⟨pair, hmem, rfl⟩
  have hnode : ∀ children ∈ pairTree.combinedPairs (hash_pair sha256) (leaf_hashes sha256 left) ∪
      pairTree.combinedPairs (hash_pair sha256) (leaf_hashes sha256 right),
      node_data children ∈ node_inputs sha256 left ∪ node_inputs sha256 right := by
    rintro children (hmem | hmem)
    · exact .inl ⟨children, hmem, rfl⟩
    · exact .inr ⟨children, hmem, rfl⟩
  obtain ⟨left_tree, hleft_root, hleft_leaves, hleft_within⟩ := @compute_state_root_eq sha256 _ hleft _ _
    (fun _ => List.mem_append_left right) Set.subset_union_left
  obtain ⟨right_tree, hright_root, hright_leaves, hright_within⟩ := @compute_state_root_eq sha256 _ hright _ _
    (fun _ => List.mem_append_right left) Set.subset_union_right
  rw [hleft_root, hright_root] at hroot
  have htree := pairTree.Within.eq_of_value
    (fun a ha b hb heq => leaf_data_injOn (hlengths a ha) (hlengths b hb)
      (hhash.inj (.inl (hleaf a ha)) (.inl (hleaf b hb)) heq))
    (fun a ha b hb heq => node_data_injective (hhash.inj (.inr (hnode a ha)) (.inr (hnode b hb)) heq))
    (fun a ha children hmem => hhash.apart _ (hleaf a ha) _ (hnode children hmem)) hleft_within hright_within hroot
  rw [← hleft_leaves, ← hright_leaves, htree]

/-- The root binds the pairs, in whatever order they are given. -/
theorem state_roots_equal_iff {left right : List (Bytes × Bytes)} (hleft : (left.map Prod.fst).Nodup)
    (hlengths : ∀ pair ∈ left ++ right, pair.1.length < 2 ^ 32 ∧ pair.2.length < 2 ^ 32)
    (hhash : Binding sha256 (leaf_inputs left ∪ leaf_inputs right) (node_inputs sha256 left ∪ node_inputs sha256 right)) :
    compute_state_root sha256 left = compute_state_root sha256 right ↔ left.Perm right := by
  constructor
  · intro hroot
    rcases eq_or_ne left [] with rfl | hleft_some
    · rcases eq_or_ne right [] with rfl | hright_some
      · exact List.Perm.refl _
      · have hne := compute_state_root_ne_zero hright_some fun data hmem =>
          hhash.nonzero data (hmem.imp (fun h => .inr h) fun h => .inr h)
        exact absurd hroot.symm hne
    rcases eq_or_ne right [] with rfl | hright_some
    · have hne := compute_state_root_ne_zero hleft_some fun data hmem =>
        hhash.nonzero data (hmem.imp (fun h => .inl h) fun h => .inl h)
      exact absurd hroot hne
    have hsorted := sort_by_key_eq_of_root hleft_some hright_some hlengths hhash hroot
    exact (sort_by_key_perm left).symm.trans ((List.Perm.of_eq hsorted).trans (sort_by_key_perm right))
  · intro hperm
    unfold compute_state_root leaf_hashes
    rw [sort_by_key_eq hleft hperm, hperm.length_eq, hperm.isEmpty_eq]

def sha256_array (data : Bytes) : Digest := Vector.ofFn fun i => (crypto.sha256 data).getD i 0

/-- Two pairs, in the order of their keys and the other way round. -/
theorem state_roots_equal_two :
    compute_state_root sha256_array [([1], [7]), ([0], [])] = compute_state_root sha256_array [([0], []), ([1], [7])] := by
  have hsorted : sort_by_key [(([0] : Bytes), ([] : Bytes)), ([1], [7])] = [([0], []), ([1], [7])] :=
    List.mergeSort_of_pairwise (by decide)
  have hswapped : sort_by_key [(([1] : Bytes), ([7] : Bytes)), ([0], [])] = [([0], []), ([1], [7])] :=
    (sort_by_key_eq (by decide) (List.Perm.swap _ _ _)).trans hsorted
  generalize hfirst : leaf_data ([0], []) = first
  generalize hsecond : leaf_data ([1], [7]) = second
  generalize habove : node_data (sha256_array first, sha256_array second) = above
  have hleaves : ∀ data ∈ leaf_inputs [([1], [7]), ([0], [])] ∪ leaf_inputs [([0], []), ([1], [7])],
      data = first ∨ data = second := by
    rintro data (⟨pair, hmem, rfl⟩ | ⟨pair, hmem, rfl⟩) <;>
      · obtain rfl | hmem := List.mem_cons.mp hmem
        · simp [hfirst, hsecond]
        · obtain rfl := List.mem_singleton.mp hmem
          simp [hfirst, hsecond]
  have hnodes : ∀ data ∈ node_inputs sha256_array [([1], [7]), ([0], [])] ∪ node_inputs sha256_array [([0], []), ([1], [7])],
      data = above := by
    have hpairs : ∀ children ∈ pairTree.combinedPairs (hash_pair sha256_array) [sha256_array first, sha256_array second],
        children = (sha256_array first, sha256_array second) := by
      intro children hmem
      obtain hmem | hmem := pairTree.combinedPairs_subset _ hmem
      · exact List.mem_singleton.mp hmem
      · have hnone : pairTree.combinedPairs (hash_pair sha256_array)
            (pairTree.nextLevel (hash_pair sha256_array) [sha256_array first, sha256_array second]) = ∅ :=
          pairTree.combinedPairs_of_short (Nat.le_refl 1)
        rw [hnone] at hmem
        cases hmem
    unfold node_inputs leaf_hashes
    rw [hsorted, hswapped, List.map_cons, List.map_singleton, hfirst, hsecond, Set.union_self]
    rintro data ⟨children, hmem, rfl⟩
    rw [hpairs children hmem, habove]
  have hdifferent : [sha256_array first, sha256_array second, sha256_array above, Vector.replicate 32 0].Nodup := by
    subst habove hsecond hfirst
    decide +kernel
  simp only [List.nodup_cons, List.mem_cons, List.not_mem_nil, or_false, not_or] at hdifferent
  obtain ⟨⟨hne, hne_above, hzero⟩, ⟨hne_above', hzero'⟩, hzero_above, _⟩ := hdifferent
  refine (state_roots_equal_iff (by decide) (by decide) ⟨?_, ?_, ?_⟩).mpr (List.Perm.swap _ _ _)
  · rintro left (hleft | hleft) right (hright | hright) heq
    · obtain rfl | rfl := hleaves left hleft <;> obtain rfl | rfl := hleaves right hright <;> grind
    · obtain rfl | rfl := hleaves left hleft <;> obtain rfl := hnodes right hright <;> grind
    · obtain rfl := hnodes left hleft
      obtain rfl | rfl := hleaves right hright <;> grind
    · rw [hnodes left hleft, hnodes right hright]
  · rintro data (hmem | hmem)
    · obtain rfl | rfl := hleaves data hmem
      · exact hzero
      · exact hzero'
    · obtain rfl := hnodes data hmem
      exact hzero_above
  · intro leaf hleaf node hnode
    obtain rfl := hnodes node hnode
    obtain rfl | rfl := hleaves leaf hleaf
    · exact hne_above
    · exact hne_above'

end qubitcoin.indexer.smt
