import Qubitcoin.Indexer.Surviving

/-! Deferred rollback: the entries of discarded blocks stay in the lists, and a read tells
    them from those of the surviving blocks by the hashes of the heights. -/

open qubitcoin.indexer.state

namespace qubitcoin.indexer.storage

/-- A block that has been appended, and whether no rollback has discarded it since. -/
structure Appended where
  batch : Batch
  surviving : Bool
  deriving DecidableEq

/-- A storage with all blocks that have ever been appended to it. -/
structure Fork where
  storage : IndexerStorage
  appended : List Appended

def Fork.new : Fork := ⟨.new, []⟩

inductive ForkCall where
  | append_batch_with_hash (batch : Batch)
  | rollback_deferred (target_height : UInt32)

/-- Discard a block that lies above a height. -/
def Appended.discard (target_height : UInt32) (self : Appended) : Appended :=
  { self with surviving := self.surviving && decide (self.batch.height ≤ target_height) }

def Fork.apply (self : Fork) : ForkCall → Fork
  | .append_batch_with_hash batch =>
    ⟨self.storage.append_batch_with_hash batch.pairs batch.height batch.block_hash8,
      self.appended ++ [⟨batch, true⟩]⟩
  | .rollback_deferred target_height =>
    ⟨(rollback_deferred self.storage target_height).1, self.appended.map (Appended.discard target_height)⟩

def Fork.survivors (self : Fork) : List Batch := (self.appended.filter Appended.surviving).map Appended.batch

/-- Blocks are appended above those that survive. Each has a hash, and blocks with the same
    start of the hash are the same. -/
def Fork.Admits (keys : Bytes → Prop) (self : Fork) : ForkCall → Prop
  | .append_batch_with_hash batch =>
    Fits keys self.storage batch.pairs ∧ batch.leading_hash.isSome ∧
      (∀ a ∈ self.appended, a.batch.leading_hash = batch.leading_hash → a.batch = batch) ∧
      ∀ a ∈ self.appended, a.surviving = true → a.batch.pairs ≠ [] → a.batch.height < batch.height
  | .rollback_deferred _ => True

/-- A surviving block has written at a height. -/
def Fork.occupied (self : Fork) (height : UInt32) : Bool :=
  self.appended.any fun a => a.surviving && !a.batch.pairs.isEmpty && decide (a.batch.height = height)

theorem lawful_keys : LawfulBEq Bytes := List.instLawfulBEq

/-- The blocks after the last surviving one that wrote a key. -/
def Fork.since (self : Fork) (key : Bytes) : List Appended :=
  haveI := lawful_keys
  self.appended.rtakeWhile fun a => !(a.surviving && decide (key ∈ a.batch.names))

/-- The values that discarded blocks have written for a key since then, at heights where no
    surviving block has written anything yet. -/
def Fork.strays (self : Fork) (key : Bytes) : List Bytes :=
  written (((self.since key).filter fun a => !self.occupied a.batch.height).map Appended.batch) key

/-- What the lists look like: discarded blocks are still in them, and the hashes are those
    of the surviving blocks. -/
structure Lists.Forked (keys : Bytes → Prop) (appended : List Appended) (lists : Lists) : Prop where
  list : ∀ key, keys key → lists.list key = appended.flatMap fun a => a.batch.entries key
  hash_of_surviving : ∀ a ∈ appended, a.surviving = true → a.batch.pairs ≠ [] →
    lists.hash a.batch.height = a.batch.leading_hash
  surviving_of_hash : ∀ height hash, lists.hash height = some hash →
    ∃ a ∈ appended, a.surviving = true ∧ a.batch.pairs ≠ [] ∧ a.batch.height = height ∧ a.batch.leading_hash = some hash
  tip : ∀ a ∈ appended, a.surviving = true → a.batch.pairs ≠ [] → a.batch.height ≤ lists.tip
  reorg : ∀ a ∈ appended, a.surviving = false → a.batch.pairs ≠ [] →
    ∃ rh, lists.reorg = some rh ∧ rh ≤ a.batch.height
  hashed : ∀ a ∈ appended, a.batch.leading_hash.isSome
  same : ∀ a ∈ appended, ∀ b ∈ appended, a.batch.leading_hash = b.batch.leading_hash → a.batch = b.batch
  above : appended.Pairwise fun a b =>
    a.surviving = true → a.batch.pairs ≠ [] → b.batch.pairs ≠ [] → a.batch.height < b.batch.height

variable {keys : Bytes → Prop} {appended : List Appended} {lists : Lists}

theorem forked_new (keys : Bytes → Prop) : Lists.empty.Forked keys [] where
  list _ _ := rfl
  hash_of_surviving _ h := by cases h
  surviving_of_hash _ _ h := by cases h
  tip _ h := by cases h
  reorg _ h := by cases h
  hashed _ h := by cases h
  same _ h := by cases h
  above := .nil

theorem Lists.Forked.append (hforked : lists.Forked keys appended) {batch : Batch}
    (hhashed : batch.leading_hash.isSome)
    (hsame : ∀ a ∈ appended, a.batch.leading_hash = batch.leading_hash → a.batch = batch)
    (habove : ∀ a ∈ appended, a.surviving = true → a.batch.pairs ≠ [] → a.batch.height < batch.height) :
    (lists.append batch).Forked keys (appended ++ [⟨batch, true⟩]) := by
  have hcase {a : Appended} (hmem : a ∈ appended ++ [⟨batch, true⟩]) : a ∈ appended ∨ a = ⟨batch, true⟩ := by
    simpa using hmem
  have hhash : ∀ a ∈ appended ++ [⟨batch, true⟩], a.batch.leading_hash.isSome := by
    intro a hmem
    rcases hcase hmem with hmem | rfl
    · exact hforked.hashed a hmem
    · exact hhashed
  have hidentity : ∀ a ∈ appended ++ [⟨batch, true⟩], ∀ b ∈ appended ++ [⟨batch, true⟩],
      a.batch.leading_hash = b.batch.leading_hash → a.batch = b.batch := by
    intro a ha b hb heq
    rcases hcase ha with ha | rfl
    · rcases hcase hb with hb | rfl
      · exact hforked.same a ha b hb heq
      · exact hsame a ha heq
    · rcases hcase hb with hb | rfl
      · exact (hsame b hb heq.symm).symm
      · rfl
  have hordered : (appended ++ [(⟨batch, true⟩ : Appended)]).Pairwise fun a b =>
      a.surviving = true → a.batch.pairs ≠ [] → b.batch.pairs ≠ [] → a.batch.height < b.batch.height := by
    refine List.pairwise_append.mpr ⟨hforked.above, List.pairwise_singleton _ _, ?_⟩
    intro a ha b hb hsurviving hpairs _
    rw [List.mem_singleton.mp hb]
    exact habove a ha hsurviving hpairs
  unfold Lists.append
  by_cases hempty : batch.pairs = []
  · rw [hempty, List.isEmpty_nil, if_pos rfl]
    refine ⟨?_, ?_, ?_, ?_, ?_, hhash, hidentity, hordered⟩
    · intro key hkey
      simp [hforked.list key hkey, Batch.entries_of_empty hempty]
    · intro a ha hsurviving hpairs
      rcases hcase ha with ha | rfl
      · exact hforked.hash_of_surviving a ha hsurviving hpairs
      · exact absurd hempty hpairs
    · intro height hash hread
      obtain ⟨a, ha, hrest⟩ := hforked.surviving_of_hash height hash hread
      exact ⟨a, List.mem_append_left _ ha, hrest⟩
    · intro a ha hsurviving hpairs
      rcases hcase ha with ha | rfl
      · exact hforked.tip a ha hsurviving hpairs
      · exact absurd hempty hpairs
    · intro a ha hsurviving hpairs
      rcases hcase ha with ha | rfl
      · exact hforked.reorg a ha hsurviving hpairs
      · exact absurd hempty hpairs
  · rw [if_neg (by simpa using hempty)]
    refine ⟨?_, ?_, ?_, ?_, ?_, hhash, hidentity, hordered⟩
    · intro key hkey
      simp [hforked.list key hkey]
    · intro a ha hsurviving hpairs
      dsimp only
      rw [if_pos hhashed]
      rcases hcase ha with ha | rfl
      · have hne : a.batch.height ≠ batch.height := by
          intro heq
          exact UInt32.lt_irrefl _ (heq ▸ habove a ha hsurviving hpairs)
        rw [Function.update_of_ne hne]
        exact hforked.hash_of_surviving a ha hsurviving hpairs
      · rw [Function.update_self]
    · intro height hash hread
      dsimp only at hread
      rw [if_pos hhashed, Function.update_apply] at hread
      split at hread
      next h => exact ⟨⟨batch, true⟩, by simp, rfl, hempty, h.symm, hread⟩
      next =>
        obtain ⟨a, ha, hrest⟩ := hforked.surviving_of_hash height hash hread
        exact ⟨a, List.mem_append_left _ ha, hrest⟩
    · intro a ha hsurviving hpairs
      rcases hcase ha with ha | rfl
      · exact UInt32.le_of_lt (habove a ha hsurviving hpairs)
      · exact UInt32.le_refl _
    · intro a ha hsurviving hpairs
      rcases hcase ha with ha | rfl
      · exact hforked.reorg a ha hsurviving hpairs
      · cases hsurviving

theorem min_le_of {a b h : UInt32} (hle : a ≤ h ∨ b ≤ h) : min a b ≤ h := by
  change (if a ≤ b then a else b) ≤ h
  split
  next hab => exact hle.elim id fun hb => UInt32.le_trans hab hb
  next hab =>
    have hba := UInt32.le_of_lt (UInt32.not_le.mp hab)
    exact hle.elim (fun ha => UInt32.le_trans hba ha) id

theorem Lists.Forked.rollback_deferred (hforked : lists.Forked keys appended) (target_height : UInt32) :
    (lists.rollback_deferred target_height).Forked keys (appended.map (Appended.discard target_height)) := by
  have hkept {a : Appended} (hsurviving : (a.discard target_height).surviving = true) :
      a.surviving = true ∧ a.batch.height ≤ target_height := by
    simpa [Appended.discard] using hsurviving
  have hordered : (appended.map (Appended.discard target_height)).Pairwise fun a b =>
      a.surviving = true → a.batch.pairs ≠ [] → b.batch.pairs ≠ [] → a.batch.height < b.batch.height := by
    refine List.pairwise_map.mpr (hforked.above.imp ?_)
    exact fun h hsurviving => h (hkept hsurviving).1
  have hlist : ∀ key, (appended.map (Appended.discard target_height)).flatMap (fun a => a.batch.entries key) =
      appended.flatMap fun a => a.batch.entries key := by
    intro key
    rw [List.flatMap_map]
    rfl
  unfold Lists.rollback_deferred
  split
  next htip =>
    -- only blocks that have written nothing can lie above the tip
    refine ⟨?_, ?_, ?_, ?_, ?_, ?_, ?_, hordered⟩
    · intro key hkey
      rw [hlist]
      exact hforked.list key hkey
    · simp only [List.forall_mem_map]
      intro a ha hsurviving hpairs
      exact hforked.hash_of_surviving a ha (hkept hsurviving).1 hpairs
    · intro height hash hread
      obtain ⟨a, ha, hsurviving, hpairs, hheight, hhash⟩ := hforked.surviving_of_hash height hash hread
      refine ⟨a.discard target_height, List.mem_map_of_mem ha, ?_, hpairs, hheight, hhash⟩
      have hle := UInt32.le_trans (hforked.tip a ha hsurviving hpairs) htip
      simp [Appended.discard, hsurviving, hle]
    · simp only [List.forall_mem_map]
      intro a ha hsurviving hpairs
      exact hforked.tip a ha (hkept hsurviving).1 hpairs
    · simp only [List.forall_mem_map]
      intro a ha hdiscarded hpairs
      apply hforked.reorg a ha _ hpairs
      by_contra hsurviving
      rw [Bool.not_eq_false] at hsurviving
      have hle := UInt32.le_trans (hforked.tip a ha hsurviving hpairs) htip
      simp [Appended.discard, hsurviving, hle] at hdiscarded
    · simp only [List.forall_mem_map]
      exact hforked.hashed
    · simp only [List.forall_mem_map]
      exact hforked.same
  next htip =>
    rw [UInt32.not_le] at htip
    refine ⟨?_, ?_, ?_, ?_, ?_, ?_, ?_, hordered⟩
    · intro key hkey
      rw [hlist]
      exact hforked.list key hkey
    · simp only [List.forall_mem_map]
      intro a ha hsurviving hpairs
      have hlow := (hkept hsurviving).2
      rw [if_neg fun h => UInt32.not_lt.mpr hlow h.1]
      exact hforked.hash_of_surviving a ha (hkept hsurviving).1 hpairs
    · intro height hash hread
      dsimp only at hread
      split at hread
      next => cases hread
      next hoff =>
        obtain ⟨a, ha, hsurviving, hpairs, rfl, hhash⟩ := hforked.surviving_of_hash height hash hread
        refine ⟨a.discard target_height, List.mem_map_of_mem ha, ?_, hpairs, rfl, hhash⟩
        have hle : a.batch.height ≤ target_height :=
          UInt32.not_lt.mp fun hlt => hoff ⟨hlt, hforked.tip a ha hsurviving hpairs⟩
        simp [Appended.discard, hsurviving, hle]
    · simp only [List.forall_mem_map]
      intro a ha hsurviving hpairs
      exact (hkept hsurviving).2
    · simp only [List.forall_mem_map]
      intro a ha hdiscarded hpairs
      refine ⟨_, rfl, ?_⟩
      cases hsurviving : a.surviving with
      | false =>
        obtain ⟨rh, hreorg, hle⟩ := hforked.reorg a ha hsurviving hpairs
        rw [hreorg, Option.map_some, Option.getD_some]
        exact min_le_of (.inl hle)
      | true =>
        have hlt : target_height < a.batch.height := by
          simpa [Appended.discard, hsurviving] using hdiscarded
        have hle := (succ_le_iff htip).mpr hlt
        cases lists.reorg with
        | none => exact hle
        | some rh => exact min_le_of (.inr hle)
    · simp only [List.forall_mem_map]
      exact hforked.hashed
    · simp only [List.forall_mem_map]
      exact hforked.same

theorem Batch.leading_hash_spec {batch : Batch} {hash : Bytes} (hinitial : batch.leading_hash = some hash) :
    hash.length = 8 ∧ batch.record.length = 12 ∧ (batch.record.drop 4).take 8 = hash := by
  have hlength : hash.length = 8 := by
    unfold Batch.leading_hash at hinitial
    split at hinitial
    next full _ =>
      split at hinitial
      next hlong =>
        rw [← Option.some.inj hinitial, List.length_take]
        omega
      next => cases hinitial
    next => cases hinitial
  refine ⟨hlength, ?_, ?_⟩
  · rw [batch.record_eq, hinitial, Option.getD_some, List.length_append, length_to_le_bytes, hlength]
  · rw [batch.record_eq, hinitial, Option.getD_some, List.drop_left' (length_to_le_bytes _), ← hlength,
      List.take_length]

theorem Batch.record_of_mem_entries {batch : Batch} {key : Bytes} {entry : Entry}
    (hmem : entry ∈ batch.entries key) : entry.record = batch.record ∧ batch.pairs ≠ [] := by
  refine ⟨?_, ?_⟩
  · obtain ⟨value, -, rfl⟩ := List.mem_map.mp hmem
    rfl
  · intro hempty
    rw [Batch.entries_of_empty hempty] at hmem
    cases hmem

theorem Lists.Forked.replaced_iff (hforked : lists.Forked keys appended) {a : Appended} (ha : a ∈ appended)
    {key : Bytes} {entry : Entry} (hmem : entry ∈ a.batch.entries key) :
    lists.replaced entry = true ↔
      (∃ rh, lists.reorg = some rh ∧ rh ≤ a.batch.height) ∧
        ∃ hash, lists.hash a.batch.height = some hash ∧ a.batch.leading_hash ≠ some hash := by
  obtain ⟨hrecord, -⟩ := Batch.record_of_mem_entries hmem
  obtain ⟨own, hown⟩ := Option.isSome_iff_exists.mp (hforked.hashed a ha)
  obtain ⟨-, hlong, htail⟩ := Batch.leading_hash_spec hown
  unfold Lists.replaced
  rw [Batch.height_of_mem_entries hmem, hrecord, hlong, htail, hown]
  cases lists.reorg with
  | none => simp
  | some rh =>
    cases hread : lists.hash a.batch.height with
    | none => simp
    | some hash =>
      obtain ⟨b, -, -, -, -, hb⟩ := hforked.surviving_of_hash _ _ hread
      have hlength := (Batch.leading_hash_spec hb).1
      have hself : hash.take 8 = hash := by rw [← hlength, List.take_length]
      simp [hlength, hself, @eq_comm _ own hash]

theorem Lists.Forked.not_replaced (hforked : lists.Forked keys appended) {a : Appended} (ha : a ∈ appended)
    (hsurviving : a.surviving = true) {key : Bytes} {entry : Entry} (hmem : entry ∈ a.batch.entries key) :
    lists.replaced entry = false := by
  rw [Bool.eq_false_iff]
  intro hreplaced
  obtain ⟨-, hash, hread, hne⟩ := (hforked.replaced_iff ha hmem).mp hreplaced
  rw [hforked.hash_of_surviving a ha hsurviving (Batch.record_of_mem_entries hmem).2] at hread
  exact hne hread

theorem Batch.mem_names_of_mem_entries {batch : Batch} {key : Bytes} {entry : Entry}
    (hmem : entry ∈ batch.entries key) : key ∈ batch.names := by
  rw [← List.count_pos_iff, ← Batch.length_entries]
  exact List.length_pos_of_mem hmem

theorem Fork.not_surviving_of_mem_since {fork : Fork} {key : Bytes} {a : Appended} (ha : a ∈ fork.since key)
    (hnames : key ∈ a.batch.names) : a.surviving = false := by
  have hnot := List.mem_rtakeWhile_imp ha
  simpa [hnames] using hnot

theorem Fork.split (fork : Fork) (key : Bytes) :
    ∃ front, fork.appended = front ++ fork.since key ∧
      (front = [] ∨ ∃ before last, front = before ++ [last] ∧ last.surviving = true ∧ key ∈ last.batch.names) := by
  refine ⟨_, List.rdropWhile_append_rtakeWhile.symm, ?_⟩
  by_cases hempty : fork.appended.rdropWhile (fun a => !(a.surviving && decide (key ∈ a.batch.names))) = []
  · exact .inl hempty
  · have hlast := List.rdropWhile_last_not _ _ hempty
    exact .inr ⟨_, _, (List.dropLast_append_getLast hempty).symm, by simpa using hlast⟩

/-- Among the blocks after the last surviving one that wrote a key, those are passed over
    whose heights have been written again. -/
theorem Lists.Forked.replaced_since {fork : Fork} (hforked : lists.Forked keys fork.appended) {key : Bytes}
    {a : Appended} (ha : a ∈ fork.since key) {entry : Entry} (hmem : entry ∈ a.batch.entries key) :
    lists.replaced entry = fork.occupied a.batch.height := by
  have hin : a ∈ fork.appended := (List.rtakeWhile_suffix _ _).mem ha
  have hnames := Batch.mem_names_of_mem_entries hmem
  have hpairs := (Batch.record_of_mem_entries hmem).2
  have hreorg := hforked.reorg a hin (Fork.not_surviving_of_mem_since ha hnames) hpairs
  rw [Bool.eq_iff_iff, hforked.replaced_iff hin hmem, and_iff_right hreorg]
  simp only [Fork.occupied, List.any_eq_true, Bool.and_eq_true, Bool.not_eq_true', List.isEmpty_eq_false_iff,
    decide_eq_true_eq]
  constructor
  · rintro ⟨hash, hread, -⟩
    obtain ⟨b, hb, hsurviving, hwrites, hheight, -⟩ := hforked.surviving_of_hash _ _ hread
    exact ⟨b, hb, ⟨hsurviving, hwrites⟩, hheight⟩
  · rintro ⟨b, hb, ⟨hsurviving, hwrites⟩, hheight⟩
    obtain ⟨hash, hhash⟩ := Option.isSome_iff_exists.mp (hforked.hashed b hb)
    refine ⟨hash, ?_, ?_⟩
    · rw [← hheight, hforked.hash_of_surviving b hb hsurviving hwrites, hhash]
    · -- the same block, appended again, would be a later one that survives and writes the key
      intro hsame
      have hbatch := hforked.same a hin b hb (hsame.trans hhash.symm)
      obtain ⟨front, hsplit, -⟩ := fork.split key
      rw [hsplit] at hb
      rcases List.mem_append.mp hb with hfront | hback
      · have hordered := hforked.above
        rw [hsplit] at hordered
        have hlt := (List.pairwise_append.mp hordered).2.2 b hfront a ha hsurviving hwrites hpairs
        rw [hheight] at hlt
        exact UInt32.lt_irrefl _ hlt
      · rw [Fork.not_surviving_of_mem_since hback (hbatch ▸ hnames)] at hsurviving
        cases hsurviving

theorem written_append (front back : List Batch) (key : Bytes) :
    written (front ++ back) key = written front key ++ written back key := List.flatMap_append

theorem Lists.Forked.filter_since {fork : Fork} (hforked : lists.Forked keys fork.appended) (key : Bytes) :
    (((fork.since key).flatMap fun a => a.batch.entries key).filter fun entry => !lists.replaced entry).map Entry.value =
      fork.strays key := by
  unfold Fork.strays written
  have hreplaced := fun a ha => @Lists.Forked.replaced_since keys lists fork hforked key a ha
  generalize fork.since key = since at hreplaced
  induction since with
  | nil => rfl
  | cons a since ih =>
    rw [List.flatMap_cons, List.filter_append, List.map_append, List.filter_cons,
      ih fun b hb => hreplaced b (List.mem_cons_of_mem _ hb)]
    have hentries : ((a.batch.entries key).filter fun entry => !lists.replaced entry) =
        (a.batch.entries key).filter fun _ => !fork.occupied a.batch.height :=
      List.filter_congr fun entry hmem => by rw [hreplaced a List.mem_cons_self hmem]
    rw [hentries]
    cases fork.occupied a.batch.height with
    | true => simp
    | false => simp [Batch.entries, Function.comp_def]

theorem Lists.Forked.latest_canonical {fork : Fork} (hforked : lists.Forked keys fork.appended) {key : Bytes}
    (hkey : keys key) :
    lists.latest_canonical key = (fork.strays key).getLast?.or (written fork.survivors key).getLast? := by
  obtain ⟨front, hsplit, hfront⟩ := fork.split key
  have hsince : written (((fork.since key).filter Appended.surviving).map Appended.batch) key = [] := by
    unfold written
    rw [List.flatMap_map, List.flatMap_eq_nil_iff]
    intro a ha
    obtain ⟨ha, hsurviving⟩ := List.mem_filter.mp ha
    by_contra hne
    have hnames : key ∈ a.batch.names := by
      rw [← List.count_pos_iff, ← Batch.length_entries, Batch.entries, List.length_map]
      exact List.length_pos_iff.mpr hne
    rw [Fork.not_surviving_of_mem_since ha hnames] at hsurviving
    cases hsurviving
  unfold Lists.latest_canonical Fork.survivors
  rw [trailing.getLast?_rdropWhile, ← List.getLast?_map, hforked.list key hkey, hsplit, List.flatMap_append,
    List.filter_append, List.map_append, hforked.filter_since, List.getLast?_append, List.filter_append,
    List.map_append, written_append, hsince, List.append_nil]
  congr 1
  rcases hfront with rfl | ⟨before, last, rfl, hsurviving, hnames⟩
  · rfl
  · have hlast : last ∈ fork.appended := by simp [hsplit]
    have hkept : ((last.batch.entries key).filter fun entry => !lists.replaced entry) = last.batch.entries key := by
      rw [List.filter_eq_self]
      intro entry hmem
      rw [hforked.not_replaced hlast hsurviving hmem]
      rfl
    have hvalues : (last.batch.entries key).map Entry.value = values last.batch.pairs key := by
      simp [Batch.entries, Function.comp_def]
    have hsome : (values last.batch.pairs key).getLast?.isSome = true := by
      rw [List.getLast?_isSome, ← hvalues, ← List.length_pos_iff, List.length_map, Batch.length_entries]
      exact List.count_pos_iff.mpr hnames
    rw [List.flatMap_append, List.filter_append, List.map_append, List.flatMap_singleton, hkept, hvalues,
      List.getLast?_append, Option.or_of_isSome hsome, List.filter_append, List.map_append, written_append,
      List.getLast?_append]
    have hwritten : written (([last].filter Appended.surviving).map Appended.batch) key =
        values last.batch.pairs key := by simp [written, hsurviving]
    rw [hwritten, Option.or_of_isSome hsome]

/-- The storage holds lists with the entries of all blocks appended. -/
def Fork.Kept (keys : Bytes → Prop) (self : Fork) : Prop :=
  ∃ lists, Represents keys self.storage lists ∧ lists.Forked keys self.appended

theorem Fork.Kept.apply (hsep : Separate keys) {fork : Fork} (hkept : fork.Kept keys) {call : ForkCall}
    (hadmits : fork.Admits keys call) : (fork.apply call).Kept keys := by
  obtain ⟨lists, hrep, hforked⟩ := hkept
  cases call with
  | append_batch_with_hash batch =>
    obtain ⟨hfits, hhashed, hsame, habove⟩ := hadmits
    exact ⟨_, hrep.append hsep hfits, hforked.append hhashed hsame habove⟩
  | rollback_deferred target_height =>
    exact ⟨_, hrep.deferred hsep target_height, hforked.rollback_deferred target_height⟩

/-- In every state reached a read returns what the last surviving block has written for the
    key exactly if no stray value hides it. -/
theorem get_latest_canonical_iff (hsep : Separate keys) {calls : List ForkCall} {fork : Fork}
    (hrun : transition.Trace (fun s call t => s.Admits keys call ∧ t = s.apply call) Fork.new calls fork)
    {key : Bytes} (hkey : keys key) :
    fork.storage.get_latest_canonical key = (written fork.survivors key).getLast? ↔
      fork.strays key = [] ∨ (fork.strays key).getLast? = (written fork.survivors key).getLast? := by
  obtain ⟨lists, hrep, hforked⟩ : fork.Kept keys := by
    refine hrun.invariant (Fork.Kept keys) ?_ ⟨Lists.empty, represents_new keys, forked_new keys⟩
    rintro s call t hkept ⟨hadmits, rfl⟩
    exact hkept.apply hsep hadmits
  rw [hrep.get_latest_canonical hkey, hforked.latest_canonical hkey]
  cases hstray : (fork.strays key).getLast? with
  | none =>
    rw [Option.none_or]
    exact iff_of_true rfl (.inl (List.getLast?_eq_none_iff.mp hstray))
  | some value =>
    have hne : fork.strays key ≠ [] := by
      intro hnil
      rw [hnil] at hstray
      cases hstray
    rw [Option.some_or]
    exact ⟨.inr, fun h => h.resolve_left hne⟩

instance Fork.decidableAdmits (fork : Fork) : ∀ call, Decidable (fork.Admits letters call)
  | .append_batch_with_hash batch => inferInstanceAs (Decidable
      (Fits letters fork.storage batch.pairs ∧ batch.leading_hash.isSome ∧
        (∀ a ∈ fork.appended, a.batch.leading_hash = batch.leading_hash → a.batch = batch) ∧
        ∀ a ∈ fork.appended, a.surviving = true → a.batch.pairs ≠ [] → a.batch.height < batch.height))
  | .rollback_deferred _ => inferInstanceAs (Decidable True)

/-- A key is written at 10 and 20, and the block at 20 is discarded. -/
def pending_calls : List ForkCall := [
  .append_batch_with_hash ⟨[([0x61], [1])], 10, some [1, 0, 0, 0, 0, 0, 0, 0]⟩,
  .append_batch_with_hash ⟨[([0x61], [2])], 20, some [2, 0, 0, 0, 0, 0, 0, 0]⟩,
  .rollback_deferred 15]

/-- Another block has taken the place of the one at 20. -/
def replaced_calls : List ForkCall :=
  pending_calls ++ [.append_batch_with_hash ⟨[([0x62], [3])], 20, some [3, 0, 0, 0, 0, 0, 0, 0]⟩]

theorem get_latest_canonical_iff_replaced : Separate letters ∧
    transition.Allowed (fun s call => s.Admits letters call) Fork.apply .new replaced_calls ∧
    (replaced_calls.foldl Fork.apply .new).storage.get_latest_canonical [0x61] =
      (written (replaced_calls.foldl Fork.apply .new).survivors [0x61]).getLast? := by
  have hallowed : transition.Allowed (fun s call => s.Admits letters call) Fork.apply .new replaced_calls := by
    decide +kernel
  refine ⟨separate_letters, hallowed, ?_⟩
  apply (get_latest_canonical_iff separate_letters hallowed.trace (by simp [letters])).mpr
  decide +kernel

/-- Until then the value of the discarded block is read. -/
theorem get_latest_canonical_fails : Separate letters ∧
    transition.Trace (fun s call t => s.Admits letters call ∧ t = s.apply call) Fork.new pending_calls
      (pending_calls.foldl Fork.apply .new) ∧
    (pending_calls.foldl Fork.apply .new).storage.get_latest_canonical [0x61] = some [2] ∧
    (written (pending_calls.foldl Fork.apply .new).survivors [0x61]).getLast? = some [1] := by
  refine ⟨separate_letters, transition.Allowed.trace ?_, ?_, ?_⟩
  · decide +kernel
  · decide +kernel
  · decide +kernel

end qubitcoin.indexer.storage
