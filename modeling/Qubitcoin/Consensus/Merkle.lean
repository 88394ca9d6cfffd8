import Qubitcoin.Consensus.Transaction
import Mathlib.Algebra.Free
import Mathlib.Data.Set.Function

/-! `qubitcoin-consensus/merkle.rs`. -/

open qubitcoin primitives transaction

namespace qubitcoin.merkle

section

variable {α : Type} [DecidableEq α] (pair : α → α → α)

/-- One level of the tree: the parents, the last hash paired with itself when
    the level has odd length. -/
def next_level : List α → List α
  | [] => []
  | [a] => [pair a a]
  | a :: b :: rest => pair a b :: next_level rest

/-- Whether two adjacent hashes that are paired with each other are equal. The
    test precedes the duplication of an odd last hash. -/
def has_equal_pair : List α → Bool
  | a :: b :: rest => decide (a = b) || has_equal_pair rest
  | _ => false

/-- The level-by-level loop of `compute_merkle_root`; each pass halves the
    level, so a fuel of the number of leaves reaches the root. -/
def compute_merkle_root_loop : Nat → List α → Bool → Option α × Bool
  | 0, hashes, mutated => (hashes.head?, mutated)
  | fuel + 1, hashes, mutated =>
    if hashes.length ≤ 1 then (hashes.head?, mutated)
    else compute_merkle_root_loop fuel (next_level pair hashes) (mutated || has_equal_pair hashes)

/-- The root, or `zero` for no leaves, and whether a duplication was seen. -/
def compute_merkle_root (zero : α) (hashes : List α) : α × Bool :=
  let (root, mutated) := compute_merkle_root_loop pair hashes.length hashes false
  (root.getD zero, mutated)

end

/-- The hash of two concatenated 32-byte values. -/
def hash_pair (hash256 : List UInt8 → Uint256) (left right : Uint256) : Uint256 :=
  hash256 (Uint256.data left ++ Uint256.data right)

def block_merkle_root (hash256 : List UInt8 → Uint256) (txs : List Transaction) : Uint256 × Bool :=
  compute_merkle_root (hash_pair hash256) 0 (txs.map Transaction.txid)

/-- The witness root: the coinbase leaf is zero. -/
def block_witness_merkle_root (hash256 : List UInt8 → Uint256) (txs : List Transaction) : Uint256 × Bool :=
  compute_merkle_root (hash_pair hash256) 0
    (match txs with
      | [] => []
      | _ :: rest => 0 :: rest.map Transaction.wtxid)

end qubitcoin.merkle

/-! Different leaves under one merkle root. -/

namespace qubitcoin.merkle

section

variable {α : Type} (pair : α → α → α)

def level_pairs : List α → List (α × α)
  | [] => []
  | [a] => [(a, a)]
  | a :: b :: rest => (a, b) :: level_pairs rest

/-- The pairs that are hashed at all levels up to the root. -/
def hashed_pairs (hashes : List α) : Set (α × α) :=
  { children | ∃ n, 1 < ((next_level pair)^[n] hashes).length ∧ children ∈ level_pairs ((next_level pair)^[n] hashes) }

/-- A pair hash without collisions among the pairs of a set. -/
abbrev CollisionFree (pairs : Set (α × α)) : Prop :=
  Set.InjOn (fun children : α × α => pair children.1 children.2) pairs

theorem next_level_eq_map (hashes : List α) :
    next_level pair hashes = (level_pairs hashes).map fun children => pair children.1 children.2 := by
  fun_induction level_pairs hashes with
  | case1 => rfl
  | case2 a => rfl
  | case3 a b rest ih => rw [next_level, ih, List.map_cons]

theorem length_next_level (hashes : List α) : (next_level pair hashes).length = (hashes.length + 1) / 2 := by
  fun_induction next_level pair hashes with
  | case1 => simp
  | case2 a => simp
  | case3 a b rest ih =>
    rw [List.length_cons, List.length_cons, List.length_cons, ih]
    omega

variable {pair}

theorem hashed_pairs_next (hashes : List α) : hashed_pairs pair (next_level pair hashes) ⊆ hashed_pairs pair hashes := by
  rintro children ⟨n, hlong, hmem⟩
  exact ⟨n + 1, hlong, hmem⟩

theorem hashed_pairs_subset (hashes : List α) :
    hashed_pairs pair hashes ⊆ { children | children ∈ level_pairs hashes } ∪ hashed_pairs pair (next_level pair hashes) := by
  rintro children ⟨n, hlong, hmem⟩
  cases n with
  | zero => exact .inl hmem
  | succ n => exact .inr ⟨n, hlong, hmem⟩

theorem hashed_pairs_iterate (n : Nat) : ∀ hashes : List α,
    hashed_pairs pair ((next_level pair)^[n] hashes) ⊆ hashed_pairs pair hashes := by
  induction n with
  | zero => exact fun _ => subset_rfl
  | succ n ih => exact fun hashes => (ih (next_level pair hashes)).trans (hashed_pairs_next hashes)

theorem level_pairs_subset {hashes : List α} (hlong : 1 < hashes.length) :
    ∀ children ∈ level_pairs hashes, children ∈ hashed_pairs pair hashes :=
  fun _ hmem => ⟨0, hlong, hmem⟩

theorem fst_mem_of_mem_level_pairs {children : α × α} {hashes : List α} (hmem : children ∈ level_pairs hashes) :
    children.1 ∈ hashes := by
  fun_induction level_pairs hashes with
  | case1 => cases hmem
  | case2 a =>
    obtain rfl := List.mem_singleton.mp hmem
    exact List.mem_cons_self
  | case3 a b rest ih =>
    obtain rfl | hmem := List.mem_cons.mp hmem
    · exact List.mem_cons_self
    · exact List.mem_cons_of_mem _ (List.mem_cons_of_mem _ (ih hmem))

theorem nodup_level_pairs {hashes : List α} (hnodup : hashes.Nodup) : (level_pairs hashes).Nodup := by
  fun_induction level_pairs hashes with
  | case1 => exact List.nodup_nil
  | case2 a => exact List.nodup_singleton _
  | case3 a b rest ih =>
    obtain ⟨hfirst, hrest⟩ := List.nodup_cons.mp hnodup
    refine List.nodup_cons.mpr ⟨fun hmem => hfirst ?_, ih (List.nodup_cons.mp hrest).2⟩
    exact List.mem_cons_of_mem _ (fst_mem_of_mem_level_pairs hmem)

theorem hashed_pairs_singleton (leaf : α) : hashed_pairs pair [leaf] = ∅ := by
  have hshort : ∀ (n : Nat) (hashes : List α), hashes.length ≤ 1 → ((next_level pair)^[n] hashes).length ≤ 1 := by
    intro n
    induction n with
    | zero => exact fun _ hle => hle
    | succ n ih =>
      intro hashes hle
      apply ih
      rw [length_next_level]
      omega
  rw [Set.eq_empty_iff_forall_notMem]
  rintro children ⟨n, hlong, _⟩
  exact absurd (hshort n [leaf] (Nat.le_refl 1)) (Nat.not_le_of_lt hlong)

theorem hashed_pairs_two (left right : α) :
    ∀ children ∈ hashed_pairs pair [left, right], children = (left, right) := by
  intro children hmem
  obtain hmem | hmem := hashed_pairs_subset _ hmem
  · exact List.mem_singleton.mp hmem
  · have hnone : hashed_pairs pair (next_level pair [left, right]) = ∅ := hashed_pairs_singleton _
    rw [hnone] at hmem
    cases hmem

theorem eq_of_map_eq {β γ : Type} {f : β → γ} {left : List β} : ∀ {right : List β},
    (∀ x ∈ left, ∀ y ∈ right, f x = f y → x = y) → left.map f = right.map f → left = right := by
  induction left with
  | nil => exact fun _ hmap => (List.map_eq_nil_iff.mp hmap.symm).symm
  | cons x rest ih =>
    intro right hinj hmap
    cases right with
    | nil => cases hmap
    | cons y others =>
      rw [List.map_cons, List.map_cons, List.cons.injEq] at hmap
      rw [hinj x (by simp) y (by simp) hmap.1,
        ih (fun a ha b hb => hinj a (List.mem_cons_of_mem _ ha) b (List.mem_cons_of_mem _ hb)) hmap.2]

theorem level_pairs_inj {pairs : Set (α × α)} (hfree : CollisionFree pair pairs) {left right : List α}
    (hleft : ∀ children ∈ level_pairs left, children ∈ pairs)
    (hright : ∀ children ∈ level_pairs right, children ∈ pairs)
    (hnext : next_level pair left = next_level pair right) : level_pairs left = level_pairs right := by
  rw [next_level_eq_map, next_level_eq_map] at hnext
  exact eq_of_map_eq (fun x hx y hy => hfree (hleft x hx) (hright y hy)) hnext

theorem eq_of_level_pairs_of_length {left : List α} : ∀ {right : List α}, level_pairs left = level_pairs right →
    left.length = right.length → left = right := by
  induction left using level_pairs.induct with
  | case1 => exact fun _ hlength => (List.length_eq_zero_iff.mp hlength.symm).symm
  | case2 a =>
    intro right hpairs hlength
    obtain ⟨b, rfl⟩ := List.length_eq_one_iff.mp hlength.symm
    cases hpairs
    rfl
  | case3 a b rest ih =>
    intro right hpairs hlength
    cases right using level_pairs.fun_cases with
    | case1 => cases hlength
    | case2 c => simp at hlength
    | case3 c d others =>
      rw [level_pairs, level_pairs, List.cons.injEq, Prod.mk.injEq] at hpairs
      obtain ⟨⟨rfl, rfl⟩, htail⟩ := hpairs
      rw [ih htail (by simpa using hlength)]

end

variable {α : Type} [DecidableEq α] (pair : α → α → α)

/-- A tree over leaves: its root, whether a duplication is seen on the way up, and the number
    of levels above the leaves. -/
inductive Tree : List α → α → Bool → Nat → Prop
  | root (a : α) : Tree [a] a false 0
  | level {hashes : List α} {root : α} {mutated : Bool} {depth : Nat} (hlong : 1 < hashes.length)
      (hnext : Tree (next_level pair hashes) root mutated depth) :
      Tree hashes root (has_equal_pair hashes || mutated) (depth + 1)

theorem compute_merkle_root_loop_eq {fuel : Nat} : ∀ {hashes : List α} (seen : Bool), hashes ≠ [] → hashes.length ≤ fuel →
    ∃ root mutated depth, Tree pair hashes root mutated depth ∧
      compute_merkle_root_loop pair fuel hashes seen = (some root, seen || mutated) := by
  induction fuel with
  | zero =>
    intro hashes _ hnonempty hfuel
    exact absurd (List.length_eq_zero_iff.mp (by omega)) hnonempty
  | succ fuel ih =>
    intro hashes seen hnonempty hfuel
    unfold compute_merkle_root_loop
    split
    · next hshort =>
      obtain ⟨a, rfl⟩ : ∃ a, hashes = [a] := by
        have := List.length_pos_iff.mpr hnonempty
        exact List.length_eq_one_iff.mp (by omega)
      exact ⟨a, false, 0, .root a, by simp⟩
    · next hlong =>
      have hlength := length_next_level pair hashes
      have hnext : next_level pair hashes ≠ [] := List.length_pos_iff.mp (by omega)
      obtain ⟨root, mutated, depth, htree, hloop⟩ := ih (seen || has_equal_pair hashes) hnext (by omega)
      refine ⟨root, _, depth + 1, .level (by omega) htree, ?_⟩
      rw [hloop, Bool.or_assoc]

theorem compute_merkle_root_eq {hashes : List α} (zero : α) (hnonempty : hashes ≠ []) :
    ∃ root mutated depth, Tree pair hashes root mutated depth ∧ compute_merkle_root pair zero hashes = (root, mutated) := by
  obtain ⟨root, mutated, depth, htree, hloop⟩ := compute_merkle_root_loop_eq pair false hnonempty le_rfl
  refine ⟨root, mutated, depth, htree, ?_⟩
  unfold compute_merkle_root
  rw [hloop]
  simp

variable {pair}

theorem eq_of_level_pairs_eq {left : List α} : ∀ {right : List α}, level_pairs left = level_pairs right →
    left = right ∨ has_equal_pair left = true ∨ has_equal_pair right = true := by
  induction left using level_pairs.induct with
  | case1 =>
    intro right hpairs
    cases right using level_pairs.fun_cases with
    | case1 => exact .inl rfl
    | case2 a => cases hpairs
    | case3 a b rest => cases hpairs
  | case2 a =>
    intro right hpairs
    cases right using level_pairs.fun_cases with
    | case1 => cases hpairs
    | case2 b =>
      cases hpairs
      exact .inl rfl
    | case3 b c rest =>
      rw [level_pairs, level_pairs, List.cons.injEq, Prod.mk.injEq] at hpairs
      obtain ⟨⟨rfl, rfl⟩, _⟩ := hpairs
      exact .inr (.inr (by simp [has_equal_pair]))
  | case3 a b rest ih =>
    intro right hpairs
    cases right using level_pairs.fun_cases with
    | case1 => cases hpairs
    | case2 c =>
      rw [level_pairs, level_pairs, List.cons.injEq, Prod.mk.injEq] at hpairs
      obtain ⟨⟨rfl, rfl⟩, _⟩ := hpairs
      exact .inr (.inl (by simp [has_equal_pair]))
    | case3 c d others =>
      rw [level_pairs, level_pairs, List.cons.injEq, Prod.mk.injEq] at hpairs
      obtain ⟨⟨rfl, rfl⟩, htail⟩ := hpairs
      obtain rfl | hleft | hright := ih htail
      · exact .inl rfl
      · exact .inr (.inl (by simp [has_equal_pair, hleft]))
      · exact .inr (.inr (by simp [has_equal_pair, hright]))

theorem Tree.leaves_eq {pairs : Set (α × α)} (hfree : CollisionFree pair pairs) {left : List α} {root : α}
    {left_mutated : Bool} {depth : Nat} (hleft : Tree pair left root left_mutated depth) :
    ∀ {right : List α} {right_mutated : Bool}, Tree pair right root right_mutated depth →
      hashed_pairs pair left ⊆ pairs → hashed_pairs pair right ⊆ pairs →
      left = right ∨ left_mutated = true ∨ right_mutated = true := by
  induction hleft with
  | root a =>
    intro right right_mutated hright _ _
    cases hright with
    | root => exact .inl rfl
  | @level left root left_mutated depth hlong hnext ih =>
    intro right right_mutated hright hwithin_left hwithin_right
    cases hright with
    | @level _ _ right_mutated _ hlong_right hnext_right =>
      obtain hsame | hmutated | hmutated := ih hnext_right ((hashed_pairs_next left).trans hwithin_left)
        ((hashed_pairs_next right).trans hwithin_right)
      · have hpairs := level_pairs_inj hfree (fun _ hmem => hwithin_left (level_pairs_subset hlong _ hmem))
          (fun _ hmem => hwithin_right (level_pairs_subset hlong_right _ hmem)) hsame
        obtain heq | hequal | hequal := eq_of_level_pairs_eq hpairs
        · exact .inl heq
        · exact .inr (.inl (by simp [hequal]))
        · exact .inr (.inr (by simp [hequal]))
      · exact .inr (.inl (by simp [hmutated]))
      · exact .inr (.inr (by simp [hmutated]))

theorem Tree.above {root : α} {upper lower : Nat} : ∀ {hashes : List α} {mutated : Bool},
    Tree pair hashes root mutated (upper + lower) →
      ∃ upper_mutated, Tree pair ((next_level pair)^[lower] hashes) root upper_mutated upper ∧
        (upper_mutated = true → mutated = true) := by
  induction lower with
  | zero => exact fun htree => ⟨_, htree, id⟩
  | succ lower ih =>
    intro hashes mutated htree
    cases htree with
    | @level _ _ mutated _ _ hnext =>
      obtain ⟨upper_mutated, htree, himp⟩ := ih hnext
      exact ⟨upper_mutated, htree, fun hmutated => by simp [himp hmutated]⟩

theorem Tree.not_deeper {pairs : Set (α × α)} (hfree : CollisionFree pair pairs) {left right : List α} {root : α}
    {left_mutated right_mutated : Bool} {upper lower : Nat} (hleft : Tree pair left root left_mutated upper)
    (hright : Tree pair right root right_mutated (upper + 1 + lower)) (hwithin_left : hashed_pairs pair left ⊆ pairs)
    (hwithin_right : hashed_pairs pair right ⊆ pairs) (hnonempty : left ≠ [])
    (hleaves : ∀ leaf ∈ left, ∀ children ∈ pairs, pair children.1 children.2 ≠ leaf) :
    left_mutated = true ∨ right_mutated = true := by
  obtain ⟨upper_mutated, htree, himp⟩ := hright.above
  have hwithin := (hashed_pairs_iterate lower right).trans hwithin_right
  generalize (next_level pair)^[lower] right = level at htree hwithin
  cases htree with
  | @level _ _ next_mutated _ hlong hnext =>
    obtain rfl | hmutated | hmutated := hleft.leaves_eq hfree hnext hwithin_left ((hashed_pairs_next _).trans hwithin)
    · obtain ⟨leaf, hmem⟩ := List.exists_mem_of_ne_nil _ hnonempty
      have hhashes := hmem
      rw [next_level_eq_map] at hhashes
      obtain ⟨children, hchildren, hhash⟩ := List.mem_map.mp hhashes
      exact absurd hhash (hleaves leaf hmem children (hwithin (level_pairs_subset hlong children hchildren)))
    · exact .inl hmutated
    · exact .inr (himp (by simp [hmutated]))

theorem Tree.eq_of_length {pairs : Set (α × α)} (hfree : CollisionFree pair pairs) {left : List α} {root : α}
    {left_mutated : Bool} {left_depth : Nat} (hleft : Tree pair left root left_mutated left_depth) :
    ∀ {right : List α} {right_mutated : Bool} {right_depth : Nat}, Tree pair right root right_mutated right_depth →
      hashed_pairs pair left ⊆ pairs → hashed_pairs pair right ⊆ pairs → left.length = right.length → left = right := by
  induction hleft with
  | root a =>
    intro right right_mutated right_depth hright _ _ hlength
    cases hright with
    | root => rfl
    | level hlong => exact absurd hlong (by rw [← hlength]; simp)
  | @level left root left_mutated depth hlong hnext ih =>
    intro right right_mutated right_depth hright hwithin_left hwithin_right hlength
    cases hright with
    | root => exact absurd hlong (by rw [hlength]; simp)
    | @level _ _ _ _ hlong_right hnext_right =>
      have hnext_length : (next_level pair left).length = (next_level pair right).length := by
        rw [length_next_level, length_next_level, hlength]
      have hsame := ih hnext_right ((hashed_pairs_next left).trans hwithin_left)
        ((hashed_pairs_next right).trans hwithin_right) hnext_length
      have hpairs := level_pairs_inj hfree (fun _ hmem => hwithin_left (level_pairs_subset hlong _ hmem))
        (fun _ hmem => hwithin_right (level_pairs_subset hlong_right _ hmem)) hsame
      exact eq_of_level_pairs_of_length hpairs hlength

theorem eq_of_root_of_length {pairs : Set (α × α)} (hfree : CollisionFree pair pairs) {left right : List α} (zero : α)
    (hleft : left ≠ []) (hwithin_left : hashed_pairs pair left ⊆ pairs) (hwithin_right : hashed_pairs pair right ⊆ pairs)
    (hlength : left.length = right.length)
    (hroot : (compute_merkle_root pair zero left).1 = (compute_merkle_root pair zero right).1) : left = right := by
  have hright : right ≠ [] := by
    rintro rfl
    exact hleft (List.length_eq_zero_iff.mp hlength)
  obtain ⟨left_root, _, _, hleft_tree, hleft_eq⟩ := compute_merkle_root_eq pair zero hleft
  obtain ⟨right_root, _, _, hright_tree, hright_eq⟩ := compute_merkle_root_eq pair zero hright
  rw [hleft_eq, hright_eq] at hroot
  obtain rfl : left_root = right_root := hroot
  exact hleft_tree.eq_of_length hfree hright_tree hwithin_left hwithin_right hlength

/-- Two lists of leaves under one root are equal, or the flag is set for one of them, if the
    pairs that are hashed do not collide with each other or with a leaf. -/
theorem eq_or_mutated {pairs : Set (α × α)} (hfree : CollisionFree pair pairs) {left right : List α} (zero : α)
    (hleft : left ≠ []) (hright : right ≠ []) (hwithin_left : hashed_pairs pair left ⊆ pairs)
    (hwithin_right : hashed_pairs pair right ⊆ pairs)
    (hleaves : ∀ leaf ∈ left ++ right, ∀ children ∈ pairs, pair children.1 children.2 ≠ leaf)
    (hroot : (compute_merkle_root pair zero left).1 = (compute_merkle_root pair zero right).1) :
    left = right ∨ (compute_merkle_root pair zero left).2 = true ∨ (compute_merkle_root pair zero right).2 = true := by
  obtain ⟨left_root, left_mutated, left_depth, hleft_tree, hleft_eq⟩ := compute_merkle_root_eq pair zero hleft
  obtain ⟨right_root, right_mutated, right_depth, hright_tree, hright_eq⟩ := compute_merkle_root_eq pair zero hright
  rw [hleft_eq, hright_eq] at hroot ⊢
  obtain rfl : left_root = right_root := hroot
  dsimp only
  rcases Nat.lt_trichotomy left_depth right_depth with hless | rfl | hless
  · obtain ⟨lower, rfl⟩ := Nat.exists_eq_add_of_lt hless
    rw [Nat.add_right_comm] at hright_tree
    exact .inr (hleft_tree.not_deeper hfree hright_tree hwithin_left hwithin_right hleft fun leaf hmem =>
      hleaves leaf (List.mem_append_left _ hmem))
  · exact hleft_tree.leaves_eq hfree hright_tree hwithin_left hwithin_right
  · obtain ⟨lower, rfl⟩ := Nat.exists_eq_add_of_lt hless
    rw [Nat.add_right_comm] at hleft_tree
    exact .inr (hright_tree.not_deeper hfree hleft_tree hwithin_right hwithin_left hright fun leaf hmem =>
      hleaves leaf (List.mem_append_right _ hmem)).symm

/-- With a pair hash that is injective and gives no leaf, two different lists of leaves under
    one root do not both go unnoticed. -/
theorem mutation_detected (zero : α) (hinj : Function.Injective2 pair) {left right : List α} (hleft : left ≠ [])
    (hright : right ≠ []) (hleaves : ∀ leaf ∈ left ++ right, ∀ a b, pair a b ≠ leaf) (hne : left ≠ right)
    (hroot : (compute_merkle_root pair zero left).1 = (compute_merkle_root pair zero right).1) :
    (compute_merkle_root pair zero left).2 = true ∨ (compute_merkle_root pair zero right).2 = true := by
  have hfree : CollisionFree pair Set.univ := by
    rintro ⟨a, b⟩ _ ⟨c, d⟩ _ hhash
    obtain ⟨rfl, rfl⟩ := hinj hhash
    rfl
  obtain heq | hmutated := eq_or_mutated hfree zero hleft hright (Set.subset_univ _) (Set.subset_univ _)
    (fun leaf hmem children _ => hleaves leaf hmem children.1 children.2) hroot
  · exact absurd heq hne
  · exact hmutated

/-- Three leaves, and the same with the last one twice. -/
theorem mutation_detected_duplicate :
    (compute_merkle_root FreeMagma.mul (.of 0) [FreeMagma.of 1, .of 2, .of 3]).2 = true ∨
      (compute_merkle_root FreeMagma.mul (.of 0) [FreeMagma.of 1, .of 2, .of 3, .of 3]).2 = true := by
  have hinj : Function.Injective2 (FreeMagma.mul : FreeMagma ℕ → FreeMagma ℕ → FreeMagma ℕ) := by
    intro a b c d hmul
    cases hmul
    exact ⟨rfl, rfl⟩
  refine @mutation_detected _ _ _ (.of 0) hinj [.of 1, .of 2, .of 3] [.of 1, .of 2, .of 3, .of 3] (by simp) (by simp) ?_
    (by simp) rfl
  intro leaf hmem a b hleaf
  subst hleaf
  simp at hmem

theorem has_equal_pair_of_nodup {hashes : List α} (hnodup : hashes.Nodup) : has_equal_pair hashes = false := by
  fun_induction has_equal_pair hashes with
  | case1 a b rest ih =>
    obtain ⟨hfirst, hrest⟩ := List.nodup_cons.mp hnodup
    have hne : a ≠ b := fun heq => hfirst (heq ▸ List.mem_cons_self)
    rw [decide_eq_false hne, Bool.false_or, ih (List.nodup_cons.mp hrest).2]
  | case2 => rfl

theorem Tree.not_mutated {hashes : List α} {root : α} {mutated : Bool} {depth : Nat}
    (htree : Tree pair hashes root mutated depth) (hfree : CollisionFree pair (hashed_pairs pair hashes))
    (hnodup : hashes.Nodup) : mutated = false := by
  induction htree with
  | root a => rfl
  | @level hashes root mutated depth hlong _ ih =>
    have hnext : (next_level pair hashes).Nodup := by
      rw [next_level_eq_map]
      refine (nodup_level_pairs hnodup).map_on fun left hleft right hright hsame => ?_
      exact hfree (level_pairs_subset hlong _ hleft) (level_pairs_subset hlong _ hright) hsame
    rw [has_equal_pair_of_nodup hnodup, ih (hfree.mono (hashed_pairs_next hashes)) hnext, Bool.false_or]

theorem not_mutated_of_nodup {hashes : List α} (zero : α) (hfree : CollisionFree pair (hashed_pairs pair hashes))
    (hnodup : hashes.Nodup) : (compute_merkle_root pair zero hashes).2 = false := by
  by_cases hnonempty : hashes = []
  · rw [hnonempty]
    rfl
  · obtain ⟨root, mutated, depth, htree, hroot⟩ := compute_merkle_root_eq pair zero hnonempty
    rw [hroot]
    exact htree.not_mutated hfree hnodup

end qubitcoin.merkle
