import Qubitcoin.Indexer.Dependencies

/-! When the blocks that an indexer has processed are one interval of heights that ends
    at its tip. -/

namespace qubitcoin.indexer

def IndexerInstance.heights (self : IndexerInstance) : List Nat := self.processed.map fun block => block.1.toNat

/-- The heights processed are an interval, each once and in increasing order, and end at
    the tip. -/
structure Gapless (inst : IndexerInstance) : Prop where
  interval : ∃ first, inst.heights = List.range' first inst.processed.length
  tip : ∀ height ∈ inst.heights.getLast?, height = inst.tip_height.toNat
  fresh : inst.processed = [] → inst.tip_height = 0

def AllGapless (indexers : Indexers) : Prop := ∀ (j : Nat) (inst : IndexerInstance), indexers[j]? = some inst → Gapless inst

variable (runtime : Runtime)

/-- If the move is a run and succeeds, the block is the one after the tip of the indexer,
    or its first. -/
def Contiguous (step : Indexers × Move) : Prop :=
  match step.2 with
  | .run i height input => ∀ inst, step.1[i]? = some inst → runtime inst height (payload input) = true →
    inst.processed = [] ∨ height.toNat = inst.tip_height.toNat + 1
  | _ => True

instance (step : Indexers × Move) : Decidable (Contiguous runtime step) :=
  match step with
  | (indexers, .run i height input) =>
    inferInstanceAs (Decidable (∀ inst ∈ indexers[i]?, runtime inst height (payload input) = true →
      inst.processed = [] ∨ height.toNat = inst.tip_height.toNat + 1))
  | (_, .send _ _ _) | (_, .take _) | (_, .set_paused _ _) => isTrue True.intro

variable {runtime}

theorem range'_append_last (first n : Nat) : List.range' first (n + 1) = List.range' first n ++ [first + n] := by
  rw [List.range'_concat, Nat.one_mul]

theorem getLast?_range' (first n : Nat) : (List.range' first (n + 1)).getLast? = some (first + n) := by
  rw [range'_append_last, List.getLast?_concat]

theorem Gapless.tip_eq {inst : IndexerInstance} (hgapless : Gapless inst) {first n : Nat}
    (hheights : inst.heights = List.range' first (n + 1)) : inst.tip_height.toNat = first + n := by
  have hlast : inst.heights.getLast? = some (first + n) := by rw [hheights, getLast?_range']
  exact (hgapless.tip _ hlast).symm

theorem gapless_append_iff {inst : IndexerInstance} (hgapless : Gapless inst) (height : UInt32) (block_data : Bytes) :
    Gapless { inst with tip_height := height, processed := inst.processed ++ [(height, block_data)] } ↔
      inst.processed = [] ∨ height.toNat = inst.tip_height.toNat + 1 := by
  obtain ⟨first, hfirst⟩ := hgapless.interval
  have hheights : ({ inst with tip_height := height, processed := inst.processed ++ [(height, block_data)] } :
      IndexerInstance).heights = inst.heights ++ [height.toNat] := List.map_append
  have htip : ∀ other ∈ ({ inst with tip_height := height, processed := inst.processed ++ [(height, block_data)] } :
      IndexerInstance).heights.getLast?, other = height.toNat := by
    rw [hheights, List.getLast?_concat]
    rintro _ ⟨⟩
    rfl
  cases hn : inst.processed.length with
  | zero =>
    have hnil := List.length_eq_zero_iff.mp hn
    refine iff_of_true ⟨⟨height.toNat, ?_⟩, htip, by simp⟩ (.inl hnil)
    rw [hheights, IndexerInstance.heights, hnil]
    rfl
  | succ n =>
    rw [hn] at hfirst
    have hold := hgapless.tip_eq hfirst
    have hne : inst.processed ≠ [] := by
      rintro hnil
      rw [hnil] at hn
      cases hn
    rw [or_iff_right hne]
    constructor
    · rintro ⟨⟨start, hstart⟩, _, _⟩
      rw [hheights, hfirst] at hstart
      dsimp only at hstart
      rw [List.length_append, List.length_singleton, hn, range'_append_last start (n + 1)] at hstart
      obtain ⟨hfront, hback⟩ := List.append_inj' hstart rfl
      have hsame : first = start := by
        rw [List.range'_succ, List.range'_succ] at hfront
        exact (List.cons.inj hfront).1
      have hlast := (List.cons.inj hback).1
      omega
    · intro hnext
      refine ⟨⟨first, ?_⟩, htip, by simp⟩
      rw [hheights, hfirst]
      dsimp only
      rw [List.length_append, List.length_singleton, hn, range'_append_last first (n + 1), hnext, hold,
        Nat.add_assoc]

theorem allGapless_apply_iff {before : Indexers} (hgapless : AllGapless before) (move : Move) :
    AllGapless (move.apply runtime before) ↔ Contiguous runtime (before, move) := by
  have hother : (∀ inst, before[move.target]? = some inst → Gapless (move.change runtime inst)) ↔
      AllGapless (move.apply runtime before) := by
    constructor
    · intro htarget j inst hat
      rw [Move.getElem?_apply] at hat
      split at hat
      · next hsame =>
        obtain ⟨old, hold, rfl⟩ := Option.map_eq_some_iff.mp hat
        exact htarget old (hsame ▸ hold)
      · exact hgapless j inst hat
    · intro hall inst hat
      apply hall move.target
      rw [Move.getElem?_apply, if_pos rfl, hat]
      rfl
  rw [← hother]
  cases move with
  | run i height input =>
    apply forall_congr'
    intro inst
    apply imp_congr_right
    intro hat
    rw [Move.change, run_indexer_block_eq]
    split
    · next hsuccess =>
      rw [gapless_append_iff (hgapless i inst hat)]
      exact ⟨fun h _ => h, fun h => h hsuccess⟩
    · next hfail =>
      exact iff_of_true (hgapless i inst hat) fun hsuccess => absurd hsuccess hfail
  | send i height input | take i | set_paused i paused =>
    refine iff_of_true ?_ True.intro
    intro inst hat
    obtain ⟨hinterval, htip, hfresh⟩ := hgapless i inst hat
    exact ⟨hinterval, htip, hfresh⟩

/-- Every height from the first one processed to the given one has been processed. -/
def Covered (inst : IndexerInstance) (chain_height : UInt32) : Prop :=
  ∀ first ∈ inst.heights.head?, ∀ height, first ≤ height → height ≤ chain_height.toNat → height ∈ inst.heights

theorem Gapless.covered {inst : IndexerInstance} (hgapless : Gapless inst) {chain_height : UInt32}
    (htip : inst.processed = [] ∨ chain_height.toNat ≤ inst.tip_height.toNat) : Covered inst chain_height := by
  intro first hfirst height hlow hhigh
  obtain ⟨start, hstart⟩ := hgapless.interval
  cases hn : inst.processed.length with
  | zero =>
    rw [hstart, hn] at hfirst
    cases hfirst
  | succ n =>
    rw [hn] at hstart
    have hlast := hgapless.tip_eq hstart
    have hne : inst.processed ≠ [] := by
      rintro hnil
      rw [hnil] at hn
      cases hn
    have htip := htip.resolve_left hne
    rw [hstart] at hfirst ⊢
    cases hfirst
    rw [List.mem_range'_1]
    omega

theorem getLast?_behind {inst : IndexerInstance} {chain_height : UInt32} (hbehind : inst.behind chain_height ≠ []) :
    (inst.behind chain_height).getLast? = some chain_height := by
  unfold IndexerInstance.behind at hbehind ⊢
  generalize (if inst.has_processed then inst.tip_height + 1 else inst.start_height) = effective_start at hbehind ⊢
  dsimp only at hbehind ⊢
  cases hcount : chain_height.toNat + 1 - effective_start.toNat with
  | zero =>
    rw [hcount] at hbehind
    exact absurd rfl hbehind
  | succ n =>
    rw [List.getLast?_map, getLast?_range', Option.map_some, show effective_start.toNat + n = chain_height.toNat by omega,
      UInt32.ofNat_toNat]

theorem Gapless.has_processed_iff {inst : IndexerInstance} (hgapless : Gapless inst) :
    inst.has_processed = true ↔ inst.processed ≠ [] := by
  unfold IndexerInstance.has_processed
  cases hprocessed : inst.processed with
  | nil => simp [hgapless.fresh hprocessed]
  | cons block rest => simp

theorem tip_of_behind_nil {inst : IndexerInstance} (hgapless : Gapless inst) {chain_height : UInt32}
    (hbehind : inst.behind chain_height = []) :
    (inst.processed = [] ∧ chain_height < inst.start_height) ∨
      (inst.processed ≠ [] ∧ chain_height.toNat ≤ inst.tip_height.toNat) := by
  unfold IndexerInstance.behind at hbehind
  rw [List.map_eq_nil_iff, List.range'_eq_nil_iff] at hbehind
  by_cases hprocessed : inst.processed = []
  · rw [if_neg (by rw [hgapless.has_processed_iff]; exact not_not.mpr hprocessed)] at hbehind
    refine .inl ⟨hprocessed, ?_⟩
    rw [UInt32.lt_iff_toNat_lt]
    omega
  · rw [if_pos (hgapless.has_processed_iff.mpr hprocessed), UInt32.toNat_add] at hbehind
    have hle := Nat.mod_le (inst.tip_height.toNat + (1 : UInt32).toNat) (2 ^ 32)
    have hone : (1 : UInt32).toNat = 1 := rfl
    exact .inr ⟨hprocessed, by omega⟩

theorem map_fst_replay {read_block : UInt32 → Option Bytes} {heights : List UInt32}
    (hread : ∀ h ∈ heights, (read_block h).isSome = true) : (replay read_block heights).map Prod.fst = heights := by
  induction heights with
  | nil => rfl
  | cons h rest ih =>
    obtain ⟨block_data, hblock⟩ := Option.isSome_iff_exists.mp (hread h List.mem_cons_self)
    rw [replay, hblock]
    exact congrArg (h :: ·) (ih fun other hmem => hread other (List.mem_cons_of_mem _ hmem))

theorem after_runs {i : Nat} {blocks : List (UInt32 × Bytes)} : ∀ {before : Indexers} {inst : IndexerInstance},
    before[i]? = some inst → (∀ other height data, other.label = inst.label → runtime other height data = true) →
    ∃ now, (staged.after (Move.apply runtime) (blocks.map fun block => .run i block.1 block.2) before)[i]? = some now ∧
      now.label = inst.label ∧ now.block_sender = inst.block_sender ∧ (blocks = [] → now = inst) ∧
      ∀ last ∈ blocks.getLast?, now.tip_height = last.1 ∧ now.processed ≠ [] := by
  induction blocks with
  | nil => exact fun {before inst} hat _ => ⟨inst, hat, rfl, rfl, fun _ => rfl, nofun⟩
  | cons block blocks ih =>
    intro before inst hat hsucceeds
    have hrun : run_indexer_block runtime inst block.1 block.2 =
        { inst with tip_height := block.1, processed := inst.processed ++ [(block.1, payload block.2)] } := by
      rw [run_indexer_block_eq, if_pos (hsucceeds inst _ _ rfl)]
    have hnext : ((Move.run i block.1 block.2).apply runtime before)[i]? =
        some { inst with tip_height := block.1, processed := inst.processed ++ [(block.1, payload block.2)] } := by
      rw [Move.getElem?_apply, if_pos (show (Move.run i block.1 block.2).target = i from rfl), hat, Option.map_some,
        Move.change, hrun]
    obtain ⟨now, hnow, hlabel, hsender, hnil, hlast⟩ := ih hnext hsucceeds
    refine ⟨now, hnow, hlabel, hsender, fun hnil => absurd hnil (List.cons_ne_nil _ _), ?_⟩
    intro last hmem
    cases blocks with
    | nil =>
      cases hmem
      rw [hnil rfl]
      exact ⟨rfl, by simp⟩
    | cons other blocks => exact hlast last hmem

theorem after_sends {i : Nat} {blocks : List (UInt32 × Bytes)} : ∀ {before : Indexers} {inst : IndexerInstance}
    {queue : List (UInt32 × Bytes)}, before[i]? = some inst → inst.block_sender = some queue →
    (staged.after (Move.apply runtime) (blocks.map fun block => .send i block.1 block.2) before)[i]? =
      some { inst with block_sender := some (queue ++ blocks) } := by
  induction blocks with
  | nil =>
    intro before inst queue hat hsender
    rw [List.append_nil, ← hsender]
    exact hat
  | cons block blocks ih =>
    intro before inst queue hat hsender
    have hnext : ((Move.send i block.1 block.2).apply runtime before)[i]? =
        some { inst with block_sender := some (queue ++ [block]) } := by
      rw [Move.getElem?_apply, if_pos (show (Move.send i block.1 block.2).target = i from rfl), hat, Option.map_some,
        Move.change, hsender]
      rfl
    refine (ih hnext rfl).trans ?_
    rw [List.append_assoc]
    rfl

/-- An indexer on its way to a height: it is there, or the block is at the end of its
    queue, which its worker works off; or it has no worker and has yet to start. -/
structure Arriving (chain_height : UInt32) (inst : IndexerInstance) : Prop where
  live : inst.block_sender ≠ none → inst.paused = false ∧ inst.start_height ≤ chain_height
  arriving : (inst.processed ≠ [] ∧ chain_height.toNat ≤ inst.tip_height.toNat) ∨
    (∃ queue input, inst.block_sender = some (queue ++ [(chain_height, input)])) ∨
    (inst.block_sender = none ∧ inst.processed = [])

theorem arriving_catch_up_single {before : Indexers} {i : Nat} {inst : IndexerInstance} (hat : before[i]? = some inst)
    (hgapless : Gapless inst) {chain_height : UInt32} {read_block : UInt32 → Option Bytes}
    (hread : ∀ h, h ≤ chain_height → (read_block h).isSome = true)
    (hsucceeds : ∀ other height data, other.label = inst.label → runtime other height data = true)
    (hlive : inst.block_sender ≠ none → inst.paused = false ∧ inst.start_height ≤ chain_height) :
    ∃ now, (staged.after (Move.apply runtime) (catch_up_single chain_height read_block i before) before)[i]? = some now ∧
      now.label = inst.label ∧ Arriving chain_height now := by
  have hheights := @map_fst_replay read_block (inst.behind chain_height) fun h hmem => hread h (behind_le hmem)
  have hlast : ∀ last ∈ (replay read_block (inst.behind chain_height)).getLast?, last.1 = chain_height := by
    intro last hmem
    have hne : inst.behind chain_height ≠ [] := by
      intro hnil
      rw [hnil] at hmem
      cases hmem
    have hheight := getLast?_behind hne
    rw [← hheights, List.getLast?_map, Option.mem_def.mp hmem] at hheight
    exact Option.some.inj hheight
  have hnil : replay read_block (inst.behind chain_height) = [] → inst.behind chain_height = [] := by
    intro hempty
    rw [← hheights, hempty]
    rfl
  unfold catch_up_single
  rw [hat]
  dsimp only
  cases hsender : inst.block_sender with
  | none =>
    obtain ⟨now, hnow, hlabel, hnow_sender, hsame, htip⟩ :=
      @after_runs runtime i (replay read_block (inst.behind chain_height)) before inst hat hsucceeds
    rw [hsender] at hnow_sender
    refine ⟨now, hnow, hlabel, fun hqueue => absurd hnow_sender hqueue, ?_⟩
    cases hblocks : (replay read_block (inst.behind chain_height)).getLast? with
    | none =>
      have hempty := List.getLast?_eq_none_iff.mp hblocks
      rw [hsame hempty]
      obtain ⟨hprocessed, _⟩ | harrived := tip_of_behind_nil hgapless (hnil hempty)
      · exact .inr (.inr ⟨hsender, hprocessed⟩)
      · exact .inl harrived
    | some last =>
      obtain ⟨hheight, hprocessed⟩ := htip last hblocks
      rw [hlast last hblocks] at hheight
      exact .inl ⟨hprocessed, by rw [hheight]⟩
  | some queue =>
    have hnow := @after_sends runtime i (replay read_block (inst.behind chain_height)) before inst queue hat hsender
    obtain ⟨hpaused, hstart⟩ := hlive (by rw [hsender]; exact Option.some_ne_none _)
    refine ⟨_, hnow, rfl, fun _ => ⟨hpaused, hstart⟩, ?_⟩
    cases hblocks : (replay read_block (inst.behind chain_height)).getLast? with
    | none =>
      have hempty := List.getLast?_eq_none_iff.mp hblocks
      obtain ⟨_, hearly⟩ | harrived := tip_of_behind_nil hgapless (hnil hempty)
      · exact absurd hstart (UInt32.not_le.mpr hearly)
      · exact .inl harrived
    | some last =>
      obtain ⟨front, hfront⟩ := List.getLast?_eq_some_iff.mp hblocks
      refine .inr (.inl ⟨queue ++ front, last.2, ?_⟩)
      rw [hfront, ← hlast last hblocks, List.append_assoc]

theorem arriving_worker {before : Indexers} {i : Nat} {inst : IndexerInstance} (hat : before[i]? = some inst)
    {chain_height : UInt32} (harriving : Arriving chain_height inst)
    (hsucceeds : ∀ other height data, other.label = inst.label → runtime other height data = true)
    (hcontiguous : ∀ step ∈ staged.steps (Move.apply runtime) (worker i before) before, Contiguous runtime step) :
    ∃ now, (staged.after (Move.apply runtime) (worker i before) before)[i]? = some now ∧
      now.label = inst.label ∧ Arriving chain_height now := by
  have hidle : worker i before = [] → ∃ now,
      (staged.after (Move.apply runtime) (worker i before) before)[i]? = some now ∧
        now.label = inst.label ∧ Arriving chain_height now := by
    intro hworker
    rw [hworker]
    exact ⟨inst, hat, rfl, harriving⟩
  cases hsender : inst.block_sender with
  | none => exact hidle (by unfold worker; rw [hat]; dsimp only; rw [hsender])
  | some queue =>
    cases queue with
    | nil => exact hidle (by unfold worker; rw [hat]; dsimp only; rw [hsender])
    | cons block rest =>
      obtain ⟨hpaused, hstart⟩ := harriving.live (by rw [hsender]; exact Option.some_ne_none _)
      have htake : ((Move.take i).apply runtime before)[i]? = some { inst with block_sender := some rest } := by
        rw [Move.getElem?_apply, if_pos (show (Move.take i).target = i from rfl), hat, Option.map_some, Move.change, hsender]
        rfl
      by_cases hearly : block.1 < inst.start_height
      · have hworker : worker i before = [.take i] := by
          unfold worker
          rw [hat]
          dsimp only
          rw [hsender]
          dsimp only
          rw [if_pos (by simp [hearly])]
        rw [hworker]
        refine ⟨_, htake, rfl, fun _ => ⟨hpaused, hstart⟩, ?_⟩
        obtain harrived | ⟨front, input, hqueue⟩ | ⟨hnone, _⟩ := harriving.arriving
        · exact .inl harrived
        · rw [hsender, Option.some.injEq] at hqueue
          cases front with
          | nil =>
            cases hqueue
            exact absurd hstart (UInt32.not_le.mpr hearly)
          | cons other front =>
            cases hqueue
            exact .inr (.inl ⟨front, input, rfl⟩)
        · rw [hsender] at hnone
          cases hnone
      · have hworker : worker i before = [.take i, .run i block.1 block.2] := by
          unfold worker
          rw [hat]
          dsimp only
          rw [hsender]
          dsimp only
          rw [if_neg (by simp [hearly, hpaused])]
        rw [hworker] at hcontiguous ⊢
        have hnext := hcontiguous _ (List.mem_cons_of_mem _ List.mem_cons_self) _ htake (hsucceeds _ _ _ rfl)
        refine ⟨{ inst with
          block_sender := some rest, tip_height := block.1
          processed := inst.processed ++ [(block.1, payload block.2)] }, ?_, rfl, fun _ => ⟨hpaused, hstart⟩, ?_⟩
        · show ((Move.run i block.1 block.2).apply runtime ((Move.take i).apply runtime before))[i]? = _
          rw [Move.getElem?_apply, if_pos (show (Move.run i block.1 block.2).target = i from rfl), htake, Option.map_some,
            Move.change, run_indexer_block_eq, if_pos (hsucceeds { inst with block_sender := some rest } _ _ rfl)]
        · obtain ⟨hprocessed, hreached⟩ | ⟨front, input, hqueue⟩ | ⟨hnone, _⟩ := harriving.arriving
          · have hheight := hnext.resolve_left hprocessed
            refine .inl ⟨by simp, ?_⟩
            dsimp only at hheight ⊢
            omega
          · rw [hsender, Option.some.injEq] at hqueue
            cases front with
            | nil =>
              cases hqueue
              exact .inl ⟨by simp, Nat.le_refl _⟩
            | cons other front =>
              cases hqueue
              exact .inr (.inl ⟨front, input, rfl⟩)
          · rw [hsender] at hnone
            cases hnone

theorem catch_up_covered {before : Indexers} (hgapless : AllGapless before) {i : Nat} {inst now : IndexerInstance}
    (hat : before[i]? = some inst) {chain_height : UInt32} {read_block : UInt32 → Option Bytes}
    (hread : ∀ h, h ≤ chain_height → (read_block h).isSome = true)
    (hsucceeds : ∀ other height data, other.label = inst.label → runtime other height data = true)
    (hlive : inst.block_sender ≠ none → inst.paused = false ∧ inst.start_height ≤ chain_height) {n : Nat}
    (hcontiguous : ∀ step ∈ staged.trace (Move.apply runtime)
      (catch_up_single chain_height read_block i :: List.replicate n (worker i)) before, Contiguous runtime step)
    (hnow : (staged.finish (Move.apply runtime)
      (catch_up_single chain_height read_block i :: List.replicate n (worker i)) before)[i]? = some now)
    (hdrained : now.block_sender = none ∨ now.block_sender = some []) : Covered now chain_height := by
  have hworkers : ∀ (n : Nat) {before : Indexers} {inst : IndexerInstance}, before[i]? = some inst →
      Arriving chain_height inst → (∀ other height data, other.label = inst.label → runtime other height data = true) →
      (∀ step ∈ staged.trace (Move.apply runtime) (List.replicate n (worker i)) before, Contiguous runtime step) →
      ∃ now, (staged.finish (Move.apply runtime) (List.replicate n (worker i)) before)[i]? = some now ∧
        Arriving chain_height now := by
    intro n
    induction n with
    | zero => exact fun {_ inst} hat harriving _ _ => ⟨inst, hat, harriving⟩
    | succ n ih =>
      intro before inst hat harriving hsucceeds hcontiguous
      rw [List.replicate_succ, staged.trace, List.forall_mem_append] at hcontiguous
      obtain ⟨next, hnext, hlabel, harriving⟩ := arriving_worker hat harriving hsucceeds hcontiguous.1
      exact ih hnext harriving (hlabel ▸ hsucceeds) hcontiguous.2
  have hall := ((staged.trace_invariant_iff (fun s m hs => @allGapless_apply_iff runtime s hs m)
    (catch_up_single chain_height read_block i :: List.replicate n (worker i)) hgapless).mpr hcontiguous).2
  have hfinal := hall i now hnow
  rw [staged.trace, List.forall_mem_append] at hcontiguous
  obtain ⟨next, hnext, hlabel, harriving⟩ :=
    arriving_catch_up_single hat (hgapless i inst hat) hread hsucceeds hlive
  obtain ⟨last, hlast, harriving⟩ := hworkers n hnext harriving (hlabel ▸ hsucceeds) hcontiguous.2
  rw [staged.finish, hlast] at hnow
  cases hnow
  apply hfinal.covered
  obtain ⟨_, hreached⟩ | ⟨front, input, hqueue⟩ | ⟨_, hprocessed⟩ := harriving.arriving
  · exact .inr hreached
  · obtain hnone | hempty := hdrained
    · rw [hqueue] at hnone
      cases hnone
    · rw [hqueue, Option.some.injEq] at hempty
      simp at hempty
  · exact .inl hprocessed

/-- Over a run, the blocks processed by each indexer are one interval up to its tip in
    every state, if and only if every run that succeeds is on the block after the tip of
    its indexer or on its first. After such a run, an indexer that catches up with runs
    that succeed has left out nothing, once its worker, if it has one, is done. -/
theorem gapless_iff {manager : IndexerManager} (hgapless : AllGapless manager.indexers) (events : List Event) :
    (((∀ step ∈ staged.trace (Move.apply runtime) (program manager.mode events) manager.indexers, AllGapless step.1) ∧
        AllGapless (staged.finish (Move.apply runtime) (program manager.mode events) manager.indexers)) ↔
      ∀ step ∈ staged.trace (Move.apply runtime) (program manager.mode events) manager.indexers,
        Contiguous runtime step) ∧
    ∀ (i : Nat) (inst now : IndexerInstance) (chain_height : UInt32) (read_block : UInt32 → Option Bytes) (n : Nat),
      (staged.finish (Move.apply runtime) (program manager.mode events) manager.indexers)[i]? = some inst →
      (∀ h, h ≤ chain_height → (read_block h).isSome = true) →
      (∀ other height data, other.label = inst.label → runtime other height data = true) →
      (inst.block_sender ≠ none → inst.paused = false ∧ inst.start_height ≤ chain_height) →
      (∀ step ∈ staged.trace (Move.apply runtime) (program manager.mode events ++
        catch_up_single chain_height read_block i :: List.replicate n (worker i)) manager.indexers,
        Contiguous runtime step) →
      (staged.finish (Move.apply runtime) (program manager.mode events ++
        catch_up_single chain_height read_block i :: List.replicate n (worker i)) manager.indexers)[i]? = some now →
      (now.block_sender = none ∨ now.block_sender = some []) → Covered now chain_height := by
  have hiff := staged.trace_invariant_iff (fun s m hs => @allGapless_apply_iff runtime s hs m)
    (program manager.mode events) hgapless
  refine ⟨hiff, ?_⟩
  intro i inst now chain_height read_block n hat hread hsucceeds hlive hcontiguous hnow hdrained
  rw [staged.trace_append, List.forall_mem_append] at hcontiguous
  rw [staged.finish_append] at hnow
  obtain ⟨_, hbefore⟩ := hiff.mpr hcontiguous.1
  exact catch_up_covered hbefore hat hread hsucceeds hlive hcontiguous.2 hnow hdrained

def single (mode : IndexerMode) : IndexerManager := { mode, indexers := [.new always "blocks" 0 [] mode] }

theorem single_gapless (mode : IndexerMode) : AllGapless (single mode).indexers := by
  intro j inst hat
  have hmem := List.mem_of_getElem? hat
  obtain rfl := List.mem_singleton.mp hmem
  refine ⟨⟨0, rfl⟩, ?_, nofun⟩
  rintro _ ⟨⟩
  rfl

/-- A first block, and a catch-up to the third. -/
theorem gapless_single_block :
    AllGapless (staged.finish (Move.apply always)
      (program .Synchronous [.on_block_connected 1 [0x00] [0] [], .catch_up 3 (fun _ => some [0x00]) [0] []])
      (single .Synchronous).indexers) := by
  have hcontiguous : ∀ step ∈ staged.trace (Move.apply always)
      (program .Synchronous [.on_block_connected 1 [0x00] [0] [], .catch_up 3 (fun _ => some [0x00]) [0] []])
      (single .Synchronous).indexers, Contiguous always step := by decide +kernel
  exact (((@gapless_iff always _ (single_gapless .Synchronous)
    [.on_block_connected 1 [0x00] [0] [], .catch_up 3 (fun _ => some [0x00]) [0] []]).1).mpr hcontiguous).2

/-- An indexer that fails on one block and succeeds on the next leaves a gap. -/
theorem gapless_fails :
    ∃ runtime : Runtime, ¬ AllGapless (staged.finish (Move.apply runtime)
      (program .Synchronous [.on_block_connected 1 [0x00] [0] [], .on_block_connected 2 [0x00] [0] []])
      (single .Synchronous).indexers) := by
  refine ⟨fun _ height _ => height ≠ 1, ?_⟩
  intro hall
  have hrun : (staged.finish (Move.apply fun _ height _ => height ≠ 1)
      (program .Synchronous [.on_block_connected 1 [0x00] [0] [], .on_block_connected 2 [0x00] [0] []])
      (single .Synchronous).indexers)[0]?.map IndexerInstance.heights = some [0, 2] := by decide +kernel
  obtain ⟨inst, hat, hheights⟩ := Option.map_eq_some_iff.mp hrun
  obtain ⟨first, hfirst⟩ := (hall 0 inst hat).interval
  have hlength : inst.processed.length = 2 := by
    have := congrArg List.length hheights
    rwa [IndexerInstance.heights, List.length_map] at this
  rw [hheights, hlength] at hfirst
  obtain ⟨hzero, hrest⟩ := List.cons.inj hfirst
  have htwo := (List.cons.inj hrest).1
  omega

end qubitcoin.indexer
