import Mathlib.Logic.Relation
import Mathlib.Data.List.Nodup
import Mathlib.Tactic

/-! Depth-first search with a stack, and the nodes it visits. -/

namespace reach

variable {K : Type} [DecidableEq K] (next : K → List K)

/-- Pop a node; unless it was visited, visit it and push what it leads to, the last on
    top. -/
def search : Nat → List K → List K → List K
  | 0, _, visited => visited
  | _ + 1, [], visited => visited
  | fuel + 1, cur :: queue, visited =>
    if cur ∈ visited then search fuel queue visited
    else search fuel (((next cur).filter (· ∉ visited ++ [cur])).reverse ++ queue) (visited ++ [cur])

/-- Pop a node, and push what it leads to that was not found before. -/
def discover : Nat → List K → List K → List K
  | 0, _, found => found
  | _ + 1, [], found => found
  | fuel + 1, cur :: queue, found =>
    let fresh := (next cur).foldl (fun fresh node => if node ∈ found ++ fresh then fresh else fresh ++ [node]) []
    discover fuel (fresh.reverse ++ queue) (found ++ fresh)

/-- `b` comes next after `a`. -/
def Leads (a b : K) : Prop := b ∈ next a

theorem search_nodup : ∀ (fuel : Nat) (queue visited : List K), visited.Nodup → (search next fuel queue visited).Nodup := by
  intro fuel
  induction fuel with
  | zero => exact fun _ _ hnodup => hnodup
  | succ fuel ih =>
    intro queue visited hnodup
    cases queue with
    | nil => exact hnodup
    | cons cur queue =>
      unfold search
      split
      · exact ih queue visited hnodup
      · next hfresh =>
        apply ih
        rw [List.nodup_append]
        refine ⟨hnodup, List.nodup_singleton cur, ?_⟩
        intro a ha b hb hab
        rw [hab, List.mem_singleton.mp hb] at ha
        exact hfresh ha

/-- What is visited can be reached. -/
theorem mem_search {P : K → Prop} (hstep : ∀ a b, P a → Leads next a b → P b) : ∀ (fuel : Nat) (queue visited : List K),
    (∀ a ∈ queue, P a) → (∀ a ∈ visited, P a) → ∀ a ∈ search next fuel queue visited, P a := by
  intro fuel
  induction fuel with
  | zero => exact fun _ _ _ hvisited => hvisited
  | succ fuel ih =>
    intro queue visited hqueue hvisited
    cases queue with
    | nil => exact hvisited
    | cons cur queue =>
      have hcur := hqueue cur List.mem_cons_self
      have hrest : ∀ a ∈ queue, P a := fun a ha => hqueue a (List.mem_cons_of_mem cur ha)
      unfold search
      split
      · exact ih queue visited hrest hvisited
      · apply ih
        · intro a ha
          rw [List.mem_append, List.mem_reverse, List.mem_filter] at ha
          exact ha.elim (fun hnext => hstep cur a hcur hnext.1) (hrest a)
        · intro a ha
          rw [List.mem_append, List.mem_singleton] at ha
          exact ha.elim (hvisited a) fun heq => heq ▸ hcur

theorem subset_search : ∀ (fuel : Nat) (queue visited : List K), visited ⊆ search next fuel queue visited := by
  intro fuel
  induction fuel with
  | zero => exact fun _ _ => List.Subset.refl _
  | succ fuel ih =>
    intro queue visited
    cases queue with
    | nil => exact List.Subset.refl _
    | cons cur queue =>
      unfold search
      split
      · exact ih queue visited
      · exact List.Subset.trans (List.subset_append_left visited [cur]) (ih _ _)

/-- The work left: the stack, and the edges of the nodes that were not visited. -/
def work (nodes queue visited : List K) : Nat :=
  queue.length + ((nodes.filter (· ∉ visited)).map fun node => (next node).length).sum

/-- Visiting a node takes its edges off the work. -/
theorem sum_unvisited {nodes visited : List K} (hnodup : nodes.Nodup) {cur : K} (hmem : cur ∈ nodes) (hfresh : cur ∉ visited) :
    ((nodes.filter (· ∉ visited)).map fun node => (next node).length).sum =
      (next cur).length + ((nodes.filter (· ∉ visited ++ [cur])).map fun node => (next node).length).sum := by
  induction nodes with
  | nil => cases hmem
  | cons node nodes ih =>
    obtain ⟨hnot, hnodup⟩ := List.nodup_cons.mp hnodup
    by_cases heq : node = cur
    · subst heq
      have hsame : nodes.filter (· ∉ visited ++ [node]) = nodes.filter (· ∉ visited) := by
        apply List.filter_congr
        intro other hother
        have hne : other ≠ node := fun h => hnot (h ▸ hother)
        simp [hne]
      have hkept : (node :: nodes).filter (· ∉ visited) = node :: nodes.filter (· ∉ visited) :=
        List.filter_cons_of_pos (decide_eq_true hfresh)
      have hdropped : (node :: nodes).filter (· ∉ visited ++ [node]) = nodes.filter (· ∉ visited ++ [node]) :=
        List.filter_cons_of_neg (by simp)
      rw [hkept, hdropped, hsame, List.map_cons, List.sum_cons]
    · have hmem : cur ∈ nodes := (List.mem_cons.mp hmem).resolve_left fun h => heq h.symm
      have hrest := ih hnodup hmem
      by_cases hvisited : node ∈ visited
      · simpa [hvisited] using hrest
      · have hcons : ∀ seen : List K, node ∉ seen →
            (((node :: nodes).filter (· ∉ seen)).map fun node => (next node).length).sum =
              (next node).length + ((nodes.filter (· ∉ seen)).map fun node => (next node).length).sum := by
          intro seen hseen
          simp [hseen]
        rw [hcons visited hvisited, hcons (visited ++ [cur]) (by simp [hvisited, heq]), hrest]
        omega

/-- With fuel for the work, the nodes visited in the end are closed: they contain the
    stack, and what a visited node leads to. -/
theorem search_closed {nodes : List K} (hnodes : nodes.Nodup) (hnext : ∀ a ∈ nodes, next a ⊆ nodes) :
    ∀ (fuel : Nat) (queue visited : List K), queue ⊆ nodes → work next nodes queue visited ≤ fuel →
      (∀ a ∈ visited, next a ⊆ visited ++ queue) →
      queue ⊆ search next fuel queue visited ∧
        ∀ a ∈ search next fuel queue visited, next a ⊆ search next fuel queue visited := by
  intro fuel
  induction fuel with
  | zero =>
    intro queue visited _ hwork hinv
    have hempty : queue = [] := by
      apply List.eq_nil_of_length_eq_zero
      unfold work at hwork
      omega
    subst hempty
    refine ⟨List.nil_subset _, fun a ha b hb => ?_⟩
    have := hinv a ha hb
    rwa [List.append_nil] at this
  | succ fuel ih =>
    intro queue visited hqueue hwork hinv
    cases queue with
    | nil =>
      refine ⟨List.nil_subset _, fun a ha b hb => ?_⟩
      have := hinv a ha hb
      rwa [List.append_nil] at this
    | cons cur queue =>
      have hcur : cur ∈ nodes := hqueue List.mem_cons_self
      have hrest : queue ⊆ nodes := fun a ha => hqueue (List.mem_cons_of_mem cur ha)
      unfold search
      split
      · next hseen =>
        have hwork' : work next nodes queue visited ≤ fuel := by
          unfold work at hwork ⊢
          rw [List.length_cons] at hwork
          omega
        have hinv' : ∀ a ∈ visited, next a ⊆ visited ++ queue := by
          intro a ha b hb
          obtain hvisited | hqueued := List.mem_append.mp (hinv a ha hb)
          · exact List.mem_append_left queue hvisited
          · obtain rfl | hqueued := List.mem_cons.mp hqueued
            · exact List.mem_append_left queue hseen
            · exact List.mem_append_right visited hqueued
        obtain ⟨hsub, hclosed⟩ := ih queue visited hrest hwork' hinv'
        exact ⟨List.cons_subset.mpr ⟨subset_search next fuel queue visited hseen, hsub⟩, hclosed⟩
      · next hfresh =>
        let pushed := ((next cur).filter (· ∉ visited ++ [cur])).reverse
        have hpushed : pushed.length ≤ (next cur).length := by
          rw [List.length_reverse]
          exact List.length_filter_le _ _
        have hwork' : work next nodes (pushed ++ queue) (visited ++ [cur]) ≤ fuel := by
          unfold work at hwork ⊢
          rw [List.length_cons, sum_unvisited next hnodes hcur hfresh] at hwork
          rw [List.length_append]
          omega
        have hqueue' : pushed ++ queue ⊆ nodes := by
          intro a ha
          obtain hnew | hold := List.mem_append.mp ha
          · exact hnext cur hcur (List.mem_filter.mp (List.mem_reverse.mp hnew)).1
          · exact hrest hold
        have hinv' : ∀ a ∈ visited ++ [cur], next a ⊆ visited ++ [cur] ++ (pushed ++ queue) := by
          intro a ha b hb
          by_cases hseen : b ∈ visited ++ [cur]
          · exact List.mem_append_left _ hseen
          · apply List.mem_append_right
            obtain hvisited | hlast := List.mem_append.mp ha
            · obtain hold | hqueued := List.mem_append.mp (hinv a hvisited hb)
              · exact absurd (List.mem_append_left [cur] hold) hseen
              · obtain rfl | hqueued := List.mem_cons.mp hqueued
                · exact absurd (List.mem_append_right visited (List.mem_singleton_self b)) hseen
                · exact List.mem_append_right pushed hqueued
            · rw [List.mem_singleton.mp hlast] at hb
              apply List.mem_append_left
              exact List.mem_reverse.mpr (List.mem_filter.mpr ⟨hb, decide_eq_true hseen⟩)
        obtain ⟨hsub, hclosed⟩ := ih (pushed ++ queue) (visited ++ [cur]) hqueue' hwork' hinv'
        refine ⟨List.cons_subset.mpr ⟨?_, fun a ha => hsub (List.mem_append_right pushed ha)⟩, hclosed⟩
        exact subset_search next fuel _ _ (List.mem_append_right visited (List.mem_singleton_self cur))

/-- The search visits exactly what can be reached from its start. -/
theorem mem_search_iff {nodes : List K} (hnodes : nodes.Nodup) (hnext : ∀ a ∈ nodes, next a ⊆ nodes) {fuel : Nat}
    {start : List K} (hstart : start ⊆ nodes) (hfuel : start.length + (nodes.map fun node => (next node).length).sum ≤ fuel)
    {a : K} : a ∈ search next fuel start [] ↔ ∃ b ∈ start, Relation.ReflTransGen (Leads next) b a := by
  constructor
  · intro ha
    have hstep : ∀ c d, (∃ b ∈ start, Relation.ReflTransGen (Leads next) b c) → Leads next c d →
        ∃ b ∈ start, Relation.ReflTransGen (Leads next) b d := by
      rintro c d ⟨b, hb, hreach⟩ hlead
      exact ⟨b, hb, hreach.tail hlead⟩
    exact mem_search next hstep fuel start [] (fun b hb => ⟨b, hb, .refl⟩) nofun a ha
  · rintro ⟨b, hb, hreach⟩
    have hwork : work next nodes start [] ≤ fuel := by
      unfold work
      rw [List.filter_eq_self.mpr (by simp)]
      exact hfuel
    obtain ⟨hsub, hclosed⟩ := search_closed next hnodes hnext fuel start [] hstart hwork (by simp)
    induction hreach with
    | refl => exact hsub hb
    | tail _ hlead ih => exact hclosed _ ih hlead

/-- What is pushed is what was not found, each node once. -/
theorem mem_fresh {found : List K} {nodes : List K} : ∀ {fresh : List K}, (found ++ fresh).Nodup →
    (found ++ nodes.foldl (fun fresh node => if node ∈ found ++ fresh then fresh else fresh ++ [node]) fresh).Nodup ∧
      ∀ a, a ∈ nodes.foldl (fun fresh node => if node ∈ found ++ fresh then fresh else fresh ++ [node]) fresh ↔
        a ∈ fresh ∨ a ∈ nodes ∧ a ∉ found := by
  induction nodes with
  | nil => exact fun hnodup => ⟨hnodup, fun a => ⟨.inl, fun hor => hor.resolve_right (by rintro ⟨⟨⟩, _⟩)⟩⟩
  | cons node nodes ih =>
    intro fresh hnodup
    rw [List.foldl_cons]
    by_cases hseen : node ∈ found ++ fresh
    · rw [if_pos hseen]
      obtain ⟨hrest, hmem⟩ := ih hnodup
      refine ⟨hrest, fun a => ?_⟩
      rw [hmem a, List.mem_cons]
      constructor
      · exact Or.imp_right fun h => ⟨.inr h.1, h.2⟩
      · rintro (hold | ⟨rfl | hlater, hnew⟩)
        · exact .inl hold
        · exact .inl ((List.mem_append.mp hseen).resolve_left hnew)
        · exact .inr ⟨hlater, hnew⟩
    · rw [if_neg hseen]
      have hnext : (found ++ (fresh ++ [node])).Nodup := by
        rw [← List.append_assoc, ← List.concat_eq_append]
        exact hnodup.concat hseen
      obtain ⟨hrest, hmem⟩ := ih hnext
      refine ⟨hrest, fun a => ?_⟩
      rw [hmem a, List.mem_append, List.mem_singleton, List.mem_cons]
      rw [List.mem_append, not_or] at hseen
      constructor
      · rintro ((hold | rfl) | hlater)
        · exact .inl hold
        · exact .inr ⟨.inl rfl, hseen.1⟩
        · exact .inr ⟨.inr hlater.1, hlater.2⟩
      · rintro (hold | ⟨rfl | hlater, hnew⟩)
        · exact .inl (.inl hold)
        · exact .inl (.inr rfl)
        · exact .inr ⟨hlater, hnew⟩

/-- With fuel for the nodes that are not found yet, the nodes found in the end are all
    different, begin with those found before, and lead to no others. -/
theorem discover_spec {nodes : List K} (hnext : ∀ a ∈ nodes, next a ⊆ nodes) :
    ∀ (fuel : Nat) (queue found : List K), found.Nodup → found ⊆ nodes → queue ⊆ found →
      (∀ a ∈ found, a ∈ queue ∨ next a ⊆ found) → queue.length + (nodes.length - found.length) ≤ fuel →
      (discover next fuel queue found).Nodup ∧ found <+: discover next fuel queue found ∧
        ∀ a ∈ discover next fuel queue found, next a ⊆ discover next fuel queue found := by
  intro fuel
  induction fuel with
  | zero =>
    intro queue found hnodup _ _ hclosed hfuel
    have hempty : queue = [] := List.eq_nil_of_length_eq_zero (by omega)
    subst hempty
    exact ⟨hnodup, List.prefix_refl found, fun a ha => (hclosed a ha).resolve_left List.not_mem_nil⟩
  | succ fuel ih =>
    intro queue found hnodup hfound hqueue hclosed hfuel
    cases queue with
    | nil => exact ⟨hnodup, List.prefix_refl found, fun a ha => (hclosed a ha).resolve_left List.not_mem_nil⟩
    | cons cur queue =>
      unfold discover
      dsimp only
      obtain ⟨hwhole, hfresh⟩ := @mem_fresh _ _ found (next cur) [] (by rwa [List.append_nil])
      set fresh := (next cur).foldl (fun fresh node => if node ∈ found ++ fresh then fresh else fresh ++ [node]) []
      have hfresh : ∀ a, a ∈ fresh ↔ a ∈ next cur ∧ a ∉ found := fun a =>
        (hfresh a).trans ⟨fun hor => hor.resolve_left List.not_mem_nil, .inr⟩
      have hcur : cur ∈ nodes := hfound (hqueue List.mem_cons_self)
      have hsub : found ++ fresh ⊆ nodes :=
        List.append_subset.mpr ⟨hfound, fun a ha => hnext cur hcur ((hfresh a).mp ha).1⟩
      have hroom : (found ++ fresh).length ≤ nodes.length := (hwhole.subperm hsub).length_le
      rw [List.length_append] at hroom
      rw [List.length_cons] at hfuel
      have hpushed : fresh.reverse ++ queue ⊆ found ++ fresh := by
        refine List.append_subset.mpr ⟨fun a ha => ?_, fun a ha => ?_⟩
        · exact List.mem_append_right found (List.mem_reverse.mp ha)
        · exact List.mem_append_left fresh (hqueue (List.mem_cons_of_mem cur ha))
      have hclosed' : ∀ a ∈ found ++ fresh, a ∈ fresh.reverse ++ queue ∨ next a ⊆ found ++ fresh := by
        intro a ha
        obtain hold | hnew := List.mem_append.mp ha
        · obtain hqueued | hdone := hclosed a hold
          · obtain rfl | hqueued := List.mem_cons.mp hqueued
            · refine .inr fun b hb => ?_
              by_cases hseen : b ∈ found
              · exact List.mem_append_left fresh hseen
              · exact List.mem_append_right found ((hfresh b).mpr ⟨hb, hseen⟩)
            · exact .inl (List.mem_append_right _ hqueued)
          · exact .inr fun b hb => List.mem_append_left fresh (hdone hb)
        · exact .inl (List.mem_append_left queue (List.mem_reverse.mpr hnew))
      obtain ⟨hlast, hfront, hend⟩ := ih (fresh.reverse ++ queue) (found ++ fresh) hwhole hsub hpushed hclosed' (by
        rw [List.length_append, List.length_reverse, List.length_append]
        omega)
      exact ⟨hlast, (List.prefix_append found fresh).trans hfront, hend⟩

/-- What is found can be reached. -/
theorem mem_discover {P : K → Prop} (hstep : ∀ a b, P a → Leads next a b → P b) : ∀ (fuel : Nat) (queue found : List K),
    (∀ a ∈ queue, P a) → (∀ a ∈ found, P a) → ∀ a ∈ discover next fuel queue found, P a := by
  intro fuel
  induction fuel with
  | zero => exact fun _ _ _ hfound => hfound
  | succ fuel ih =>
    intro queue found hqueue hfound
    cases queue with
    | nil => exact hfound
    | cons cur queue =>
      have hfresh : ∀ a ∈ (next cur).foldl
          (fun fresh node => if node ∈ found ++ fresh then fresh else fresh ++ [node]) [], P a := by
        have hfold : ∀ (nodes fresh : List K), nodes ⊆ next cur → (∀ a ∈ fresh, P a) →
            ∀ a ∈ nodes.foldl (fun fresh node => if node ∈ found ++ fresh then fresh else fresh ++ [node]) fresh, P a := by
          intro nodes
          induction nodes with
          | nil => exact fun _ _ hfresh => hfresh
          | cons node nodes ih =>
            intro fresh hnodes hfresh
            rw [List.foldl_cons]
            refine ih _ (fun a ha => hnodes (List.mem_cons_of_mem node ha)) ?_
            split
            · exact hfresh
            · intro a ha
              obtain hold | hlast := List.mem_append.mp ha
              · exact hfresh a hold
              · rw [List.mem_singleton.mp hlast]
                exact hstep cur node (hqueue cur List.mem_cons_self) (hnodes List.mem_cons_self)
        exact hfold (next cur) [] (List.Subset.refl _) nofun
      unfold discover
      apply ih
      · intro a ha
        rw [List.mem_append, List.mem_reverse] at ha
        exact ha.elim (hfresh a) fun hold => hqueue a (List.mem_cons_of_mem cur hold)
      · intro a ha
        exact (List.mem_append.mp ha).elim (hfound a) (hfresh a)

/-- From one node, exactly what can be reached from it is found, each node once and the
    start first. -/
theorem discover_root {nodes : List K} (hnext : ∀ a ∈ nodes, next a ⊆ nodes) {root : K} (hroot : root ∈ nodes)
    {fuel : Nat} (hfuel : nodes.length ≤ fuel) :
    (discover next fuel [root] [root]).Nodup ∧ [root] <+: discover next fuel [root] [root] ∧
      ∀ a, a ∈ discover next fuel [root] [root] ↔ Relation.ReflTransGen (Leads next) root a := by
  have hpos : 0 < nodes.length := List.length_pos_of_mem hroot
  have hstart_sub : [root] ⊆ nodes := fun a ha => List.mem_singleton.mp ha ▸ hroot
  obtain ⟨hnodup, hfront, hclosed⟩ := discover_spec next hnext fuel [root] [root] (List.nodup_singleton root)
    hstart_sub (List.Subset.refl _) (fun a ha => .inl ha) (by
      rw [List.length_singleton]
      omega)
  refine ⟨hnodup, hfront, fun a => ⟨fun ha => ?_, fun hreach => ?_⟩⟩
  · have hstart : ∀ b ∈ [root], Relation.ReflTransGen (Leads next) root b := by
      intro b hb
      rw [List.mem_singleton.mp hb]
    exact mem_discover next (fun _ _ hreach hlead => hreach.tail hlead) fuel [root] [root] hstart hstart a ha
  · induction hreach with
    | refl => exact hfront.subset (List.mem_singleton_self root)
    | tail _ hlead ih => exact hclosed _ ih hlead

section

open Relation

variable {V : Type} {up up' : V → V → Prop}

/-- The graph `up'` is `up` with a new node, which leads to the nodes `tops`. -/
structure Grown (up up' : V → V → Prop) (k : V) (tops : List V) : Prop where
  edges : ∀ a b, up' a b ↔ up a b ∨ a = k ∧ b ∈ tops
  source : ∀ a b, up a b → a ≠ k
  target : ∀ a b, up a b → b ≠ k
  tops : k ∉ tops

/-- What was reached from an old node is what is reached from it. -/
theorem Grown.reach_old {k : V} {tops : List V} (hgrown : Grown up up' k tops) {a b : V} (ha : a ≠ k) :
    ReflTransGen up' a b ↔ ReflTransGen up a b := by
  constructor
  · intro hreach
    have hboth : ReflTransGen up a b ∧ b ≠ k := by
      induction hreach with
      | refl => exact ⟨.refl, ha⟩
      | tail _ hedge ih =>
        obtain hedge | ⟨heq, _⟩ := (hgrown.edges _ _).mp hedge
        · exact ⟨ih.1.tail hedge, hgrown.target _ _ hedge⟩
        · exact absurd heq ih.2
    exact hboth.1
  · have hle : up ≤ up' := fun a b hedge => (hgrown.edges a b).mpr (.inl hedge)
    exact ReflTransGen.mono hle a b

/-- Nothing old reaches the new node. -/
theorem Grown.not_reach_old {k : V} {tops : List V} (hgrown : Grown up up' k tops) {a : V} (ha : a ≠ k) :
    ¬ ReflTransGen up a k := by
  intro hreach
  obtain rfl | ⟨b, _, hedge⟩ := ReflTransGen.cases_tail hreach
  · exact ha rfl
  · exact hgrown.target b k hedge rfl

/-- From the new node, what is above its tops is reached. -/
theorem Grown.reach_new {k : V} {tops : List V} (hgrown : Grown up up' k tops) {b : V} :
    ReflTransGen up' k b ↔ b = k ∨ ∃ top ∈ tops, ReflTransGen up top b := by
  constructor
  · intro hreach
    obtain rfl | ⟨top, hedge, hreach⟩ := ReflTransGen.cases_head hreach
    · exact .inl rfl
    · obtain hedge | ⟨_, htop⟩ := (hgrown.edges k top).mp hedge
      · exact absurd rfl (hgrown.source k top hedge)
      · have hne : top ≠ k := fun heq => hgrown.tops (heq ▸ htop)
        exact .inr ⟨top, htop, (hgrown.reach_old hne).mp hreach⟩
  · rintro (rfl | ⟨top, htop, hreach⟩)
    · exact .refl
    · have hne : top ≠ k := fun heq => hgrown.tops (heq ▸ htop)
      exact .head ((hgrown.edges k top).mpr (.inr ⟨rfl, htop⟩)) ((hgrown.reach_old hne).mpr hreach)

/-- The graph without some nodes. -/
def Without (removed : V → Prop) (up : V → V → Prop) (a b : V) : Prop := up a b ∧ ¬ removed a ∧ ¬ removed b

/-- Where no edge goes from a kept node to a removed one, nothing is lost above a kept
    node. -/
theorem reach_without {removed : V → Prop} (hclosed : ∀ a b, up a b → removed b → removed a) {a b : V}
    (ha : ¬ removed a) : ReflTransGen (Without removed up) a b ↔ ReflTransGen up a b := by
  constructor
  · have hle : Without removed up ≤ up := fun _ _ hedge => hedge.1
    exact ReflTransGen.mono hle a b
  · intro hreach
    have hboth : ReflTransGen (Without removed up) a b ∧ ¬ removed b := by
      induction hreach with
      | refl => exact ⟨.refl, ha⟩
      | tail _ hedge ih =>
        have hkept := fun hremoved => ih.2 (hclosed _ _ hedge hremoved)
        exact ⟨ih.1.tail ⟨hedge, ih.2, hkept⟩, hkept⟩
    exact hboth.1

/-- A path that goes to no removed node is a path without the removed nodes. -/
theorem reach_avoiding {removed : V → Prop} {a b : V} (ha : ¬ removed a)
    (hreach : ReflTransGen (fun a b => up a b ∧ ¬ removed b) a b) : ReflTransGen (Without removed up) a b := by
  have hboth : ReflTransGen (Without removed up) a b ∧ ¬ removed b := by
    induction hreach with
    | refl => exact ⟨.refl, ha⟩
    | tail _ hedge ih => exact ⟨ih.1.tail ⟨hedge.1, ih.2, hedge.2⟩, hedge.2⟩
  exact hboth.1

end

end reach
