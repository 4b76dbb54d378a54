import SpecFence.Proofs.MinimumCut

/-!
# The cut of one group

A walk of the layered graph from the super source to the super sink falls to a walk of the base
graph through the stages, so the cut of a group has only edges on ways from its first stage to its
last, and edges on no such way do not matter to it.  For two stages there is one copy, and the cut
of the group is a minimum cut of the graph itself.
-/

set_option autoImplicit false

namespace SpecFence

open Relation

namespace WaypointGroup

variable {g g' : Digraph} {group : WaypointGroup}

def Begins (group : WaypointGroup) (g : Digraph) (u : Node) : Prop :=
  ∃ s ∈ group.sources?.getD .empty, ReflTransGen g.Joins s u

def Ends (group : WaypointGroup) (g : Digraph) (v : Node) : Prop :=
  ∃ t ∈ group.sinks?.getD .empty, ReflTransGen g.Joins v t

/-- An edge lies on a way from the first stage of a group to its last. -/
structure Uses (group : WaypointGroup) (g : Digraph) (u v : Node) : Prop where
  joins : g.Joins u v
  begins : group.Begins g u
  ends : group.Ends g v

theorem Begins.trans {u v : Node} (h : group.Begins g u) (huv : ReflTransGen g.Joins u v) :
    group.Begins g v := by
  obtain ⟨s, hs, hsu⟩ := h
  exact ⟨s, hs, hsu.trans huv⟩

theorem Ends.trans {u v : Node} (h : group.Ends g v) (huv : ReflTransGen g.Joins u v) :
    group.Ends g u := by
  obtain ⟨t, ht, hvt⟩ := h
  exact ⟨t, ht, huv.trans hvt⟩

theorem ends_of_mem {u : Node} (hu : u ∈ group.sinks?.getD .empty) : group.Ends g u :=
  ⟨u, hu, ReflTransGen.refl⟩

structure Spared (group : WaypointGroup) (g g' : Digraph) : Prop where
  size : g'.size = g.size
  weight : ∀ u v, g'.weight u v = 0 ∨ g'.weight u v = g.weight u v
  kept : ∀ u v, group.Uses g u v → g'.weight u v = g.weight u v

theorem Spared.joins (h : group.Spared g g') {u v : Node} (huv : g'.Joins u v) : g.Joins u v := by
  unfold Digraph.Joins at huv ⊢
  rcases h.weight u v with hzero | hsame
  · omega
  · omega

theorem Spared.reach (h : group.Spared g g') {u v : Node} (hu : group.Begins g u)
    (hv : group.Ends g v) (huv : ReflTransGen g.Joins u v) : ReflTransGen g'.Joins u v := by
  induction huv using ReflTransGen.head_induction_on with
  | refl => exact ReflTransGen.refl
  | @head a b hab hbv ih =>
    have hkept := h.kept a b ⟨hab, hu, hv.trans hbv⟩
    have hjoin : g'.Joins a b := by
      unfold Digraph.Joins
      rw [hkept]
      exact hab
    exact (ih (hu.trans (ReflTransGen.single hab))).head hjoin

/-- A stage of the thinned graph against that of the whole: a part of it, with all nodes from which
a walk leads to the last stage. -/
structure KeptStage (group : WaypointGroup) (g : Digraph) (s s' : NodeSet) : Prop where
  sub : ∀ v ∈ s', v ∈ s
  kept : ∀ v ∈ s, group.Ends g v → v ∈ s'

theorem mem_nextStage (hg : g.Consistent) {frontier : NodeSet} (next : NodeSet)
    (hbound : ∀ u ∈ frontier, u < g.size) (v : Node) :
    v ∈ next.filter (g.reachableFrom frontier.toList).has ↔
      v ∈ next ∧ ∃ u ∈ frontier, ReflTransGen g.Joins u v := by
  rw [AscSet.mem_filter, Digraph.has_reachableFrom hg]
  refine and_congr_right fun _ => exists_congr fun u => ?_
  exact and_congr_right fun hu => and_iff_right (hbound u hu)

theorem narrowFrom_spared (hg : g.Consistent) (hg' : g'.Consistent) (h : group.Spared g g')
    {frontier frontier' : NodeSet} {stages narrowed : List NodeSet}
    (hbound : ∀ u ∈ frontier, u < g.size) (hbegins : ∀ u ∈ frontier, group.Begins g u)
    (hfrontier : group.KeptStage g frontier frontier')
    (hlast : ∀ s, (frontier :: stages).getLast? = some s → ∀ v ∈ s, group.Ends g v)
    (hnarrow : narrowFrom g frontier stages = some narrowed) :
    ∃ narrowed', narrowFrom g' frontier' stages = some narrowed' ∧
      List.Forall₂ (group.KeptStage g) narrowed narrowed' := by
  induction stages generalizing frontier frontier' narrowed with
  | nil =>
    rw [narrowFrom] at hnarrow ⊢
    split at hnarrow
    · cases hnarrow
    · rename_i hinhabited
      cases hnarrow
      refine ⟨[frontier'], if_neg fun hempty => hinhabited ?_, .cons hfrontier .nil⟩
      rw [AscSet.isEmpty_iff] at hempty ⊢
      intro v hv
      exact hempty v (hfrontier.kept v hv (hlast frontier rfl v hv))
  | cons next rest ih =>
    rw [narrowFrom] at hnarrow ⊢
    split at hnarrow
    · cases hnarrow
    · obtain ⟨inner, hinner, rfl⟩ := Option.map_eq_some_iff.mp hnarrow
      have hmem := mem_nextStage hg next hbound
      have hbound' : ∀ u ∈ frontier', u < g'.size := by
        intro u hu
        rw [h.size]
        exact hbound u (hfrontier.sub u hu)
      have hmem' := mem_nextStage hg' next hbound'
      have hnext : group.KeptStage g (next.filter (g.reachableFrom frontier.toList).has)
          (next.filter (g'.reachableFrom frontier'.toList).has) := by
        constructor
        · intro v hv
          obtain ⟨hv, u, hu, huv⟩ := (hmem' v).mp hv
          exact (hmem v).mpr ⟨hv, u, hfrontier.sub u hu,
            ReflTransGen.mono (fun _ _ => h.joins) _ _ huv⟩
        · intro v hv hends
          obtain ⟨hv, u, hu, huv⟩ := (hmem v).mp hv
          exact (hmem' v).mpr ⟨hv, u, hfrontier.kept u hu (hends.trans huv),
            h.reach (hbegins u hu) hends huv⟩
      obtain ⟨inner', hinner', hforall⟩ := ih
        (fun v hv => Digraph.lt_of_has_reachableFrom (AscSet.mem_filter.mp hv).2)
        (fun v hv => by
          obtain ⟨-, u, hu, huv⟩ := (hmem v).mp hv
          exact (hbegins u hu).trans huv)
        hnext
        (fun s hs v hv => by
          cases rest with
          | nil =>
            cases hs
            exact hlast next rfl v (AscSet.mem_filter.mp hv).1
          | cons t rest => exact hlast s hs v hv)
        hinner
      have hinhabited : ¬ frontier'.isEmpty = true := by
        intro hempty
        obtain ⟨v, hv, -⟩ := exists_threads_of_narrowFrom hg' hinner'
        obtain ⟨-, u, hu, -⟩ := (hmem' v).mp hv
        exact AscSet.isEmpty_iff.mp hempty u hu
      refine ⟨frontier' :: inner', ?_, .cons hfrontier hforall⟩
      rw [if_neg hinhabited]
      exact Option.map_eq_some_iff.mpr ⟨inner', hinner', rfl⟩

theorem narrow?_spared (hg : g.Consistent) (hg' : g'.Consistent) (h : group.Spared g g')
    {narrowed : List NodeSet} (hnarrow : group.narrow? g = some narrowed) :
    ∃ narrowed', group.narrow? g' = some narrowed' ∧
      List.Forall₂ (group.KeptStage g) narrowed narrowed' := by
  unfold narrow? at hnarrow ⊢
  rw [h.size]
  split at hnarrow
  · rename_i first next rest hstages
    refine narrowFrom_spared hg hg' h ?_ ?_ ⟨fun _ hv => hv, fun _ hv _ => hv⟩ ?_ hnarrow
    · intro u hu
      simpa using (AscSet.mem_filter.mp hu).2
    · intro u hu
      refine ⟨u, ?_, ReflTransGen.refl⟩
      unfold sources?
      rw [hstages]
      exact (AscSet.mem_filter.mp hu).1
    · intro s hs v hv
      refine ends_of_mem ?_
      unfold sinks?
      rw [hstages, List.getLast?_cons_cons]
      rw [List.getLast?_cons_cons] at hs
      rw [hs]
      exact hv
  · cases hnarrow

theorem narrowFrom_sub {frontier : NodeSet} {stages narrowed : List NodeSet}
    (h : narrowFrom g frontier stages = some narrowed) :
    List.Forall₂ (fun s t => ∀ v ∈ s, v ∈ t) narrowed (frontier :: stages) := by
  induction stages generalizing frontier narrowed with
  | nil =>
    rw [narrowFrom] at h
    split at h
    · cases h
    · cases h
      exact .cons (fun _ hv => hv) .nil
  | cons next rest ih =>
    rw [narrowFrom] at h
    split at h
    · cases h
    · obtain ⟨inner, hinner, rfl⟩ := Option.map_eq_some_iff.mp h
      refine .cons (fun _ hv => hv) ?_
      cases ih hinner with
      | cons hfirst hrest => exact .cons (fun v hv => (AscSet.mem_filter.mp (hfirst v hv)).1) hrest

theorem narrow?_sub {narrowed : List NodeSet} (h : group.narrow? g = some narrowed) :
    List.Forall₂ (fun s t => ∀ v ∈ s, v ∈ t) narrowed group.stages := by
  unfold narrow? at h
  split at h
  · rename_i first next rest hstages
    rw [hstages]
    cases narrowFrom_sub h with
    | cons hfirst hrest => exact .cons (fun v hv => (AscSet.mem_filter.mp (hfirst v hv)).1) hrest
  · cases h

end WaypointGroup

namespace Layered

variable {l l' : Layered}

section Falling

variable {Q R : Node → Node → Prop}

/-- Steps of a layered relation follow its edges, and those within a copy follow base steps. -/
structure Falls (l : Layered) (R Q : Node → Node → Prop) : Prop where
  joins : ∀ a b, R a b → l.digraph.Joins a b
  within : ∀ c u v, c < l.copies → u < l.base.size → v < l.base.size →
    R (l.node c u) (l.node c v) → Q u v

theorem Falls.joined (h : l.Falls R Q) {a b : Node} (hab : R a b) : ∃ w, l.Joined a b w :=
  ⟨_, joined_of_weight (h.joins a b hab)⟩

theorem threads_head {u v : Node} {stages : List NodeSet} (huv : Q u v)
    (h : Threads Q (· ∈ ·) v stages) : Threads Q (· ∈ ·) u stages := by
  cases stages with
  | nil => exact trivial
  | cons s rest =>
    obtain ⟨w, hvw, hw, hrest⟩ := h
    exact ⟨w, hvw.head huv, hw, hrest⟩

theorem drop_stages {c : Nat} (hc : c < l.copies) :
    l.stages.drop (c + 1) = l.stage (c + 1) :: l.stages.drop (c + 1 + 1) := by
  have hlt : c + 1 < l.stages.length := by
    unfold copies at hc
    omega
  rw [List.drop_eq_getElem_cons hlt]
  unfold stage
  rw [List.getElem?_eq_getElem hlt, Option.getD_some]

theorem Falls.threads (h : l.Falls R Q) {n : Node} (hreach : ReflTransGen R n l.sink) :
    ∀ c u, l.project n = some (c, u) → Threads Q (· ∈ ·) u (l.stages.drop (c + 1)) := by
  induction hreach using ReflTransGen.head_induction_on with
  | refl =>
    intro c u hn
    rw [project_sink] at hn
    cases hn
  | @head a b hab _ ih =>
    intro c u ha
    obtain ⟨w, hjoined⟩ := h.joined hab
    cases hjoined with
    | @within d x y _ hd hx hy =>
      rw [project_node hd hx] at ha
      cases ha
      exact threads_head (h.within _ _ _ hd hx hy hab) (ih _ _ (project_node hd hy))
    | @up d x hd hx hmem =>
      rw [project_node (by omega) hx] at ha
      cases ha
      rw [drop_stages (by omega)]
      exact ⟨_, ReflTransGen.refl, hmem, ih _ _ (project_node hd hx)⟩
    | enter =>
      rw [project_source] at ha
      cases ha
    | @exit d x hd hx hmem =>
      rw [project_node (by omega) hx] at ha
      cases ha
      rw [drop_stages (by omega), hd]
      refine ⟨_, ReflTransGen.refl, hmem, ?_⟩
      have hnil : l.stages.drop (l.copies + 1) = [] := by
        rw [List.drop_eq_nil_iff]
        unfold copies
        omega
      rw [hnil]
      trivial

theorem Falls.threaded (h : l.Falls R Q) (hl : l.WellFormed)
    (hreach : ReflTransGen R l.source l.sink) : Threaded Q (· ∈ ·) l.stages := by
  rcases hreach.cases_head with heq | ⟨b, hab, hrest⟩
  · exact absurd heq source_ne_sink
  · have hlong := hl.long
    have hlist : l.stages = l.stage 0 :: l.stages.drop 1 := by
      have hlt : 0 < l.stages.length := by omega
      have hdrop := List.drop_eq_getElem_cons hlt
      unfold stage
      rwa [List.getElem?_eq_getElem hlt, Option.getD_some]
    obtain ⟨w, hjoined⟩ := h.joined hab
    have hsource := l.project_source
    generalize l.source = a at hjoined hsource
    cases hjoined with
    | within hd hx =>
      rw [project_node hd hx] at hsource
      cases hsource
    | @up d x hd hx =>
      rw [project_node (by omega) hx] at hsource
      cases hsource
    | @enter v hc hv hmem => exact ⟨_, _, v, hlist, hmem, h.threads hrest 0 v (project_node hc hv)⟩
    | @exit d x hd hx =>
      rw [project_node (by omega) hx] at hsource
      cases hsource

theorem Falls.from_first (h : l.Falls R Q) {n : Node} (hreach : ReflTransGen R l.source n) :
    ∀ c u, l.project n = some (c, u) → ∃ s ∈ l.stage 0, ReflTransGen Q s u := by
  induction hreach with
  | refl =>
    intro c u hn
    rw [project_source] at hn
    cases hn
  | @tail a b _ hab ih =>
    intro c u hb
    obtain ⟨w, hjoined⟩ := h.joined hab
    cases hjoined with
    | @within d x y _ hd hx hy =>
      rw [project_node hd hy] at hb
      cases hb
      obtain ⟨s, hs, hreach⟩ := ih _ _ (project_node hd hx)
      exact ⟨s, hs, hreach.tail (h.within _ _ _ hd hx hy hab)⟩
    | @up d x hd hx =>
      rw [project_node hd hx] at hb
      cases hb
      exact ih _ _ (project_node (by omega) hx)
    | @enter v hc hv hmem =>
      rw [project_node hc hv] at hb
      cases hb
      exact ⟨_, hmem, ReflTransGen.refl⟩
    | exit =>
      rw [project_sink] at hb
      cases hb

theorem falls_joins (l : Layered) : l.Falls l.digraph.Joins l.base.Joins where
  joins _ _ h := h
  within c u v hc hu hv h := by
    change 0 < l.weight _ _ at h
    rwa [weight_within hc hu hv] at h

end Falling

section Twins

structure Twins (l l' : Layered) : Prop where
  size : l'.base.size = l.base.size
  copies : l'.copies = l.copies

theorem Twins.node (h : Twins l l') (c v : Nat) : l'.node c v = l.node c v := by
  unfold Layered.node
  rw [h.size]

theorem Twins.source (h : Twins l l') : l'.source = l.source := by
  unfold Layered.source
  rw [h.size, h.copies]

theorem Twins.sink (h : Twins l l') : l'.sink = l.sink := by
  unfold Layered.sink
  rw [h.size, h.copies]

theorem Twins.projectEdge (h : Twins l l') : l'.projectEdge = l.projectEdge := by
  funext e
  unfold Layered.projectEdge Layered.project
  rw [h.size, h.copies]

theorem Joined.twin (h : Twins l l') {a b : Node} {w : Nat} (hjoined : l.Joined a b w)
    (hwithin : ∀ c u v, a = l.node c u → b = l.node c v → c < l.copies → u < l.base.size →
      v < l.base.size → l.base.Joins u v → l'.base.weight u v = l.base.weight u v)
    (hup : ∀ c u, b = l.node (c + 1) u → c + 1 < l.copies → u < l.base.size →
      u ∈ l.stage (c + 1) → u ∈ l'.stage (c + 1))
    (henter : ∀ v, b = l.node 0 v → v < l.base.size → v ∈ l.stage 0 → v ∈ l'.stage 0)
    (hexit : ∀ u, u ∈ l.stage l.copies → u ∈ l'.stage l.copies) : l'.Joined a b w := by
  cases hjoined with
  | @within c u v w hc hu hv hw =>
    rw [← h.node, ← h.node]
    refine .within (h.copies ▸ hc) (h.size ▸ hu) (h.size ▸ hv) ⟨hw.1, ?_⟩
    rw [← hw.2]
    refine hwithin c u v rfl rfl hc hu hv ?_
    unfold Digraph.Joins
    rw [hw.2]
    exact hw.1
  | @up c u hc hu hmem =>
    rw [← h.node, ← h.node]
    exact .up (h.copies ▸ hc) (h.size ▸ hu) (hup c u rfl hc hu hmem)
  | @enter v hc hv hmem =>
    rw [← h.node, ← h.source]
    exact .enter (h.copies ▸ hc) (h.size ▸ hv) (henter v rfl hv hmem)
  | @exit c u hc hu hmem =>
    rw [← h.node, ← h.sink]
    exact .exit (h.copies ▸ hc) (h.size ▸ hu) (h.copies ▸ hexit u hmem)

theorem Twins.weight (h : Twins l l')
    (hbase : ∀ u v, l'.base.weight u v = 0 ∨ l'.base.weight u v = l.base.weight u v)
    (hstage : ∀ i, ∀ v ∈ l'.stage i, v ∈ l.stage i) (a b : Node) :
    l'.weight a b = 0 ∨ l'.weight a b = l.weight a b := by
  have hback : Twins l' l := ⟨h.size.symm, h.copies.symm⟩
  rcases Nat.eq_zero_or_pos (l'.weight a b) with hzero | hpos
  · exact Or.inl hzero
  · right
    refine ((joined_of_weight hpos).twin hback ?_ ?_ ?_ ?_).weight.symm
    · intro c u v _ _ _ _ _ huv
      exact ((hbase u v).resolve_left (Nat.ne_of_gt huv)).symm
    · exact fun c u _ _ _ hmem => hstage _ u hmem
    · exact fun v _ _ hmem => hstage _ v hmem
    · intro u hmem
      rw [h.copies] at hmem ⊢
      exact hstage _ u hmem

end Twins

end Layered

section GroupCut

variable {g g' : Digraph} {group : WaypointGroup}

theorem stage_sub {s t : List NodeSet} {P : NodeSet → NodeSet → Prop} (h : List.Forall₂ P s t)
    (hempty : P .empty .empty) (i : Nat) : P (s[i]?.getD .empty) (t[i]?.getD .empty) := by
  induction h generalizing i with
  | nil => exact hempty
  | cons hfirst _ ih =>
    cases i with
    | zero => exact hfirst
    | succ i => exact ih i

theorem first_stage_sub {stages : List NodeSet} (h : group.narrow? g = some stages) {v : Node}
    (hv : v ∈ (⟨g, stages⟩ : Layered).stage 0) : v ∈ group.sources?.getD .empty := by
  have hsub := stage_sub (WaypointGroup.narrow?_sub h) (fun _ hv => hv) 0 v hv
  rwa [← List.head?_eq_getElem?] at hsub

theorem last_stage_sub {stages : List NodeSet} (h : group.narrow? g = some stages) {v : Node}
    (hv : v ∈ (⟨g, stages⟩ : Layered).stage (⟨g, stages⟩ : Layered).copies) :
    v ∈ group.sinks?.getD .empty := by
  have hforall := WaypointGroup.narrow?_sub h
  have hsub := stage_sub hforall (fun _ hv => hv) _ v hv
  unfold WaypointGroup.sinks?
  rw [List.getLast?_eq_getElem?, ← hforall.length_eq]
  exact hsub

/-- A node of a copy from which a walk leads to the super sink is one from which a walk of the base
graph leads to the last stage. -/
theorem ends_of_reach {stages : List NodeSet} (h : group.narrow? g = some stages) {c u : Nat}
    (hc : c < (⟨g, stages⟩ : Layered).copies) (hu : u < g.size)
    (hreach : ReflTransGen (⟨g, stages⟩ : Layered).digraph.Joins
      ((⟨g, stages⟩ : Layered).node c u) (⟨g, stages⟩ : Layered).sink) : group.Ends g u := by
  have hthreads := (Layered.falls_joins ⟨g, stages⟩).threads hreach c u (Layered.project_node hc hu)
  obtain ⟨front, last, hstages⟩ : ∃ front last, stages.drop (c + 1) = front ++ [last] := by
    have hne : stages.drop (c + 1) ≠ [] := by
      rw [Ne, List.drop_eq_nil_iff]
      unfold Layered.copies at hc
      simp only at hc
      omega
    exact ⟨_, _, (List.dropLast_append_getLast hne).symm⟩
  rw [show (⟨g, stages⟩ : Layered).stages = stages from rfl, hstages] at hthreads
  obtain ⟨⟨t, ht, hut⟩, -⟩ := hthreads.within (fun _ => True) (fun _ _ _ _ => trivial) trivial
  refine ⟨t, last_stage_sub h ?_, hut⟩
  have hlast : stages.getLast? = some last := by
    have hdrop : (stages.drop (c + 1)).getLast? = some last := by rw [hstages]; simp
    rw [List.getLast?_drop] at hdrop
    split at hdrop
    · cases hdrop
    · exact hdrop
  unfold Layered.stage Layered.copies
  rw [← List.getLast?_eq_getElem?, hlast]
  exact ht

/-- A node of a copy to which a walk from the super source leads is one to which a walk of the base
graph leads from the first stage. -/
theorem begins_of_reach {stages : List NodeSet} (h : group.narrow? g = some stages) {c u : Nat}
    (hc : c < (⟨g, stages⟩ : Layered).copies) (hu : u < g.size)
    (hreach : ReflTransGen (⟨g, stages⟩ : Layered).digraph.Joins
      (⟨g, stages⟩ : Layered).source ((⟨g, stages⟩ : Layered).node c u)) : group.Begins g u := by
  obtain ⟨s, hs, hsu⟩ := (Layered.falls_joins ⟨g, stages⟩).from_first hreach c u
    (Layered.project_node hc hu)
  exact ⟨s, first_stage_sub h hs, hsu⟩

theorem WaypointGroup.Spared.twins (h : group.Spared g g') {stages stages' : List NodeSet}
    (hkept : List.Forall₂ (group.KeptStage g) stages stages') :
    Layered.Twins ⟨g, stages⟩ ⟨g', stages'⟩ := by
  refine ⟨h.size, ?_⟩
  unfold Layered.copies
  rw [hkept.length_eq]

/-- Thinning a graph by edges that a group has no use for thins its layered graph by edges on no
walk from the super source to the super sink. -/
theorem layered_thinned (hwell : group.WellPosed g.size) (h : group.Spared g g')
    {stages stages' : List NodeSet} (hg : g.Consistent) (hnarrow : group.narrow? g = some stages)
    (hkept : List.Forall₂ (group.KeptStage g) stages stages') :
    Thinned (⟨g, stages⟩ : Layered).digraph (⟨g', stages'⟩ : Layered).digraph
      (⟨g, stages⟩ : Layered).source (⟨g, stages⟩ : Layered).sink := by
  have htwins := h.twins hkept
  have hstage : ∀ i, group.KeptStage g ((⟨g, stages⟩ : Layered).stage i)
      ((⟨g', stages'⟩ : Layered).stage i) :=
    stage_sub hkept ⟨fun _ hv => hv, fun _ hv _ => hv⟩
  have hlong := (WaypointGroup.narrow?_some hg hwell hnarrow).1
  have hcopies : 0 < (⟨g, stages⟩ : Layered).copies := by
    unfold Layered.copies
    simp only
    omega
  refine ⟨?_, htwins.weight h.weight fun i => (hstage i).sub, fun a b hab hfrom hto => ?_⟩
  · change (⟨g', stages'⟩ : Layered).size = (⟨g, stages⟩ : Layered).size
    unfold Layered.size
    rw [htwins.copies, htwins.size]
  · refine ((Layered.joined_of_weight hab).twin htwins ?_ ?_ ?_ ?_).weight
    · rintro c u v rfl rfl hc hu hv huv
      exact h.kept u v ⟨huv, begins_of_reach hnarrow hc hu hfrom, ends_of_reach hnarrow hc hv hto⟩
    · rintro c u rfl hc hu hmem
      exact (hstage _).kept u hmem (ends_of_reach hnarrow hc hu hto)
    · rintro v rfl hv hmem
      exact (hstage _).kept v hmem (ends_of_reach hnarrow hcopies hv hto)
    · intro u hmem
      exact (hstage _).kept u hmem (WaypointGroup.ends_of_mem (last_stage_sub hnarrow hmem))

theorem minCutGroup_eq_ok_iff {stages : List NodeSet} (hnarrow : group.narrow? g = some stages)
    {cancelled : Bool} {cut : Cut} :
    minCutGroup g group cancelled = .ok cut ↔
      ∃ flow, minCut (⟨g, stages⟩ : Layered).digraph (⟨g, stages⟩ : Layered).source
          (⟨g, stages⟩ : Layered).sink cancelled = .ok flow ∧
        AscSet.ofList (flow.edges.filterMap (⟨g, stages⟩ : Layered).projectEdge) = cut := by
  unfold minCutGroup
  rw [hnarrow]
  simp only [Except.bind_eq_ok_iff, Except.ok.injEq]

theorem minCutGroup_of_none (hnarrow : group.narrow? g = none) (cancelled : Bool) :
    minCutGroup g group cancelled = .ok .empty := by
  unfold minCutGroup
  rw [hnarrow]

theorem source_lt_size (l : Layered) : l.source < l.digraph.size :=
  Nat.lt_add_of_pos_right (by decide)

theorem minCutGroup_spared (hg : g.Consistent) (hg' : g'.Consistent)
    (hwell : group.WellPosed g.size) (h : group.Spared g g') {cut : Cut}
    (hcut : minCutGroup g group false = .ok cut) : minCutGroup g' group false = .ok cut := by
  have hwell' : group.WellPosed g'.size := h.size.symm ▸ hwell
  cases hnarrow : group.narrow? g with
  | none =>
    rw [minCutGroup_of_none hnarrow] at hcut
    rw [minCutGroup_of_none, hcut]
    rw [WaypointGroup.narrow?_eq_none_iff hg' hwell']
    intro hsatisfiable
    exact WaypointGroup.narrow?_none hg hwell hnarrow (hsatisfiable.mono fun _ _ => h.joins)
  | some stages =>
    obtain ⟨stages', hnarrow', hkept⟩ := WaypointGroup.narrow?_spared hg hg' h hnarrow
    obtain ⟨hlong, hbound, -⟩ := WaypointGroup.narrow?_some hg hwell hnarrow
    obtain ⟨hlong', hbound', -⟩ := WaypointGroup.narrow?_some hg' hwell' hnarrow'
    have hl := layered_wellFormed hg hlong hbound
    have hl' := layered_wellFormed hg' hlong' hbound'
    have htwins := h.twins hkept
    obtain ⟨flow, hflow, rfl⟩ := (minCutGroup_eq_ok_iff hnarrow).mp hcut
    obtain ⟨flow', hflow', hsame⟩ := (layered_thinned hwell h hg hnarrow hkept).minCut
      (Layered.digraph_consistent hl) (Layered.digraph_consistent hl') Layered.source_ne_sink
      (source_lt_size _) hflow
    refine (minCutGroup_eq_ok_iff hnarrow').mpr ⟨flow', ?_, ?_⟩
    · rw [htwins.source, htwins.sink]
      exact hflow'
    · rw [htwins.projectEdge]
      ext e
      rw [AscSet.mem_ofList, AscSet.mem_ofList, List.mem_filterMap, List.mem_filterMap]
      simp only [hsame]

theorem eq_of_projectEdge {l : Layered} {e x : Edge} (h : l.projectEdge e = some x) :
    ∃ c < l.copies, x.src < l.base.size ∧ x.dst < l.base.size ∧
      e = ⟨l.node c x.src, l.node c x.dst⟩ := by
  unfold Layered.projectEdge at h
  split at h
  · rename_i c u d v hsrc hdst
    split at h
    · rename_i hcd
      cases h
      subst hcd
      obtain ⟨hc, hu, hsrc⟩ := Layered.of_project hsrc
      obtain ⟨-, hv, hdst⟩ := Layered.of_project hdst
      refine ⟨c, hc, hu, hv, ?_⟩
      rw [← hsrc, ← hdst]
    · cases h
  · cases h

theorem minCutGroup_uses (hg : g.Consistent) (hwell : group.WellPosed g.size) {cut : Cut}
    (hcut : minCutGroup g group false = .ok cut) {e : Edge} (he : e ∈ cut) :
    group.Uses g e.src e.dst := by
  have hpos := ((minCutGroup_separates hg hwell hcut).finite e he).1
  cases hnarrow : group.narrow? g with
  | none =>
    rw [minCutGroup_of_none hnarrow] at hcut
    cases hcut
    exact absurd he (AscSet.not_mem_empty e)
  | some stages =>
    obtain ⟨hlong, hbound, -⟩ := WaypointGroup.narrow?_some hg hwell hnarrow
    have hconsistent := Layered.digraph_consistent (layered_wellFormed hg hlong hbound)
    obtain ⟨flow, hflow, rfl⟩ := (minCutGroup_eq_ok_iff hnarrow).mp hcut
    obtain ⟨x, hx, hproject⟩ := List.mem_filterMap.mp (AscSet.mem_ofList.mp he)
    obtain ⟨c, hc, hsrc, hdst, rfl⟩ := eq_of_projectEdge hproject
    rcases minCut_cases hconsistent (⟨g, stages⟩ : Layered).source (⟨g, stages⟩ : Layered).sink with
      ⟨found, hfound, hmem, -⟩ | ⟨herror, -⟩
    · rw [hflow] at hfound
      cases hfound
      obtain ⟨hfrom, hto⟩ := ((hmem _).mp hx).between hconsistent Layered.source_ne_sink
        (source_lt_size _)
      exact ⟨hpos, begins_of_reach hnarrow hc hsrc hfrom, ends_of_reach hnarrow hc hdst hto⟩
    · rw [hflow] at herror
      cases herror

section Lightest

theorem threaded_of_sub {Q : Node → Node → Prop} {stages stages' : List NodeSet}
    (hsub : List.Forall₂ (fun s t => ∀ v ∈ s, v ∈ t) stages stages')
    (h : Threaded Q (· ∈ ·) stages) : Threaded Q (· ∈ ·) stages' := by
  have hthreads : ∀ {u : Node} {rest rest' : List NodeSet},
      List.Forall₂ (fun s t => ∀ v ∈ s, v ∈ t) rest rest' →
        Threads Q (· ∈ ·) u rest → Threads Q (· ∈ ·) u rest' := by
    intro u rest rest' hrest
    induction hrest generalizing u with
    | nil => exact id
    | cons hst _ ih =>
      rintro ⟨v, huv, hv, hnext⟩
      exact ⟨v, huv, hst v hv, ih hnext⟩
  obtain ⟨first, rest, u, rfl, hu, hrest⟩ := h
  cases hsub with
  | cons hfirst hothers => exact ⟨_, _, u, rfl, hfirst u hu, hthreads hothers hrest⟩

def endPairs (cut : Cut) : Finset (Node × Node) :=
  cut.toList.toFinset.image fun e => (e.src, e.dst)

theorem mem_endPairs {cut : Cut} {x : Node × Node} :
    x ∈ endPairs cut ↔ (⟨x.1, x.2⟩ : Edge) ∈ cut := by
  unfold endPairs
  rw [Finset.mem_image]
  constructor
  · rintro ⟨e, he, rfl⟩
    exact List.mem_toFinset.mp he
  · intro hx
    exact ⟨_, List.mem_toFinset.mpr hx, rfl⟩

theorem sum_weights_eq (g : Digraph) (cut : Cut) :
    Weight.sum (cut.toList.map fun e => g.weight e.src e.dst) =
      ∑ x ∈ endPairs cut, g.weight x.1 x.2 := by
  unfold endPairs
  rw [Weight.sum_eq, Finset.sum_image, ← List.sum_toFinset _ (AscSet.nodup_toList cut)]
  rintro ⟨a, b⟩ _ ⟨c, d⟩ _ heq
  obtain ⟨rfl, rfl⟩ := Prod.mk.inj heq
  rfl

theorem cutWeight_eq (g : Digraph) (cut : Cut) :
    cutWeight g cut.toList = min (∑ x ∈ endPairs cut, g.weight x.1 x.2) Weight.limit := by
  unfold cutWeight
  rw [Weight.total_eq, sum_weights_eq]

section Copies

variable {l : Layered}

def Spares (l : Layered) (other : Cut) (a b : Node) : Prop :=
  l.digraph.Joins a b ∧ ∀ e, l.projectEdge ⟨a, b⟩ = some e → e ∉ other

theorem projectEdge_node {c u v : Nat} (hc : c < l.copies) (hu : u < l.base.size)
    (hv : v < l.base.size) : l.projectEdge ⟨l.node c u, l.node c v⟩ = some ⟨u, v⟩ := by
  unfold Layered.projectEdge
  simp only [Layered.project_node hc hu, Layered.project_node hc hv, if_true]

theorem spares_falls (l : Layered) (other : Cut) :
    l.Falls (Spares l other) (l.base.Uncut (· ∈ other)) where
  joins _ _ h := h.1
  within c u v hc hu hv h := by
    have hjoin : 0 < l.weight (l.node c u) (l.node c v) := h.1
    rw [Layered.weight_within hc hu hv] at hjoin
    exact ⟨hjoin, h.2 _ (projectEdge_node hc hu hv)⟩

def copyEnds (l : Layered) (cut : Cut) : Finset (Nat × Node × Node) :=
  Finset.range l.copies ×ˢ (endPairs cut).filter fun x => x.1 < l.base.size ∧ x.2 < l.base.size

theorem mem_copyEnds {cut : Cut} {c u v : Nat} : (c, u, v) ∈ copyEnds l cut ↔
    c < l.copies ∧ (⟨u, v⟩ : Edge) ∈ cut ∧ u < l.base.size ∧ v < l.base.size := by
  unfold copyEnds
  rw [Finset.mem_product, Finset.mem_filter, Finset.mem_range, mem_endPairs]

def copiedPairs (l : Layered) (cut : Cut) : Finset (Node × Node) :=
  (copyEnds l cut).image fun y => (l.node y.1 y.2.1, l.node y.1 y.2.2)

theorem mem_copiedPairs {cut : Cut} {x : Node × Node} : x ∈ copiedPairs l cut ↔
    ∃ e ∈ cut, l.projectEdge ⟨x.1, x.2⟩ = some e := by
  unfold copiedPairs
  rw [Finset.mem_image]
  constructor
  · rintro ⟨⟨c, u, v⟩, hmem, rfl⟩
    obtain ⟨hc, hin, hu, hv⟩ := mem_copyEnds.mp hmem
    exact ⟨⟨u, v⟩, hin, projectEdge_node hc hu hv⟩
  · rintro ⟨e, he, hproject⟩
    obtain ⟨c, hc, hsrc, hdst, heq⟩ := eq_of_projectEdge hproject
    obtain ⟨hfrom, hto⟩ := Edge.mk.inj heq
    refine ⟨(c, e.src, e.dst), mem_copyEnds.mpr ⟨hc, he, hsrc, hdst⟩, ?_⟩
    rw [Prod.ext_iff]
    exact ⟨hfrom.symm, hto.symm⟩

theorem injOn_copyEnds (l : Layered) (cut : Cut) :
    Set.InjOn (fun y => (l.node y.1 y.2.1, l.node y.1 y.2.2))
      (copyEnds l cut : Set (Nat × Node × Node)) := by
  rintro ⟨c, u, v⟩ hx ⟨d, u', v'⟩ hy heq
  obtain ⟨hc, -, hu, hv⟩ := mem_copyEnds.mp hx
  obtain ⟨hd, -, hu', hv'⟩ := mem_copyEnds.mp hy
  obtain ⟨hsrc, hdst⟩ := Prod.mk.inj heq
  have hfrom := congrArg l.project hsrc
  have hto := congrArg l.project hdst
  rw [Layered.project_node hc hu, Layered.project_node hd hu'] at hfrom
  rw [Layered.project_node hc hv, Layered.project_node hd hv'] at hto
  cases hfrom
  cases hto
  rfl

/-- A cut has a copy in each copy of the graph, so together the copies weigh as many times as
much. -/
theorem sum_copiedPairs_le (l : Layered) (cut : Cut) :
    ∑ x ∈ copiedPairs l cut, l.digraph.weight x.1 x.2 ≤
      l.copies * ∑ x ∈ endPairs cut, l.base.weight x.1 x.2 :=
  calc ∑ x ∈ copiedPairs l cut, l.digraph.weight x.1 x.2
      = ∑ y ∈ copyEnds l cut, l.base.weight y.2.1 y.2.2 := by
        unfold copiedPairs
        rw [Finset.sum_image (injOn_copyEnds l cut)]
        refine Finset.sum_congr rfl fun y hy => ?_
        obtain ⟨hc, -, hu, hv⟩ := mem_copyEnds.mp hy
        exact Layered.weight_within hc hu hv
    _ = l.copies * ∑ x ∈ (endPairs cut).filter fun x => x.1 < l.base.size ∧ x.2 < l.base.size,
          l.base.weight x.1 x.2 := by
        unfold copyEnds
        simp only [Finset.sum_product, Finset.sum_const, Finset.card_range, smul_eq_mul]
    _ ≤ l.copies * ∑ x ∈ endPairs cut, l.base.weight x.1 x.2 :=
        Nat.mul_le_mul_left _ (Finset.sum_le_sum_of_subset (Finset.filter_subset _ _))

/-- Edges that leave no way through the stages weigh, once for each copy, no less than the least
minimum cut of the layered graph. -/
theorem crossing_le_of_separates (hl : l.WellFormed) {other : Cut}
    (hfinite : ∀ e ∈ other, l.base.weight e.src e.dst < Weight.infinite)
    (hsep : ¬ Threaded (l.base.Uncut (· ∈ other)) (· ∈ ·) l.stages) :
    Flow.crossing (Flow.capacity l.digraph) l.size (Flow.side l.digraph l.source l.sink) ≤
      l.copies * ∑ x ∈ endPairs other, l.base.weight x.1 x.2 := by
  classical
  have hleast := Flow.side_leastCut (Layered.digraph_consistent hl) Layered.source_ne_sink
    (source_lt_size l)
  let T := (Finset.range l.size).filter fun v => ReflTransGen (Spares l other) l.source v
  have hmem : ∀ v, v ∈ T ↔ v < l.size ∧ ReflTransGen (Spares l other) l.source v := by
    intro v
    rw [Finset.mem_filter, Finset.mem_range]
  calc Flow.crossing (Flow.capacity l.digraph) l.size (Flow.side l.digraph l.source l.sink)
      ≤ Flow.crossing (Flow.capacity l.digraph) l.size T := by
        refine hleast.le T (Finset.filter_subset _ _) ((hmem _).mpr ⟨source_lt_size l, .refl⟩) ?_
        intro hsink
        exact hsep ((spares_falls l other).threaded hl ((hmem _).mp hsink).2)
    _ ≤ ∑ x ∈ copiedPairs l other, l.digraph.weight x.1 x.2 := by
        refine Flow.crossing_le_sum (fun x hx => ?_) fun u hu v hv hvT hjoin => ?_
        · obtain ⟨e, he, hproject⟩ := mem_copiedPairs.mp hx
          exact lt_of_eq_of_lt (projectEdge_some hproject) (hfinite e he)
        · by_contra hout
          refine hvT ((hmem v).mpr ⟨hv, ((hmem u).mp hu).2.tail ⟨hjoin, fun e hproject he => ?_⟩⟩)
          exact hout (mem_copiedPairs.mpr ⟨e, he, hproject⟩)
    _ ≤ l.copies * ∑ x ∈ endPairs other, l.base.weight x.1 x.2 := sum_copiedPairs_le l other

theorem sum_projected_le (hl : l.WellFormed) {edges : List Edge} {cut : Cut}
    (hcrosses : ∀ e ∈ edges, Crosses l.digraph l.source l.sink e ∧
      l.digraph.weight e.src e.dst < Weight.infinite)
    (hprojected : ∀ x ∈ cut, ∃ e ∈ edges, l.projectEdge e = some x) :
    ∑ x ∈ endPairs cut, l.base.weight x.1 x.2 ≤
      Flow.crossing (Flow.capacity l.digraph) l.size (Flow.side l.digraph l.source l.sink) := by
  choose! copy hcopy using hprojected
  have hends : ∀ x ∈ endPairs cut, copy ⟨x.1, x.2⟩ ∈ edges ∧
      l.projectEdge (copy ⟨x.1, x.2⟩) = some ⟨x.1, x.2⟩ := fun x hx => hcopy _ (mem_endPairs.mp hx)
  have hinj : Set.InjOn (fun x : Node × Node => ((copy ⟨x.1, x.2⟩).src, (copy ⟨x.1, x.2⟩).dst))
      (endPairs cut : Set (Node × Node)) := by
    intro x hx y hy heq
    have hsame : copy ⟨x.1, x.2⟩ = copy ⟨y.1, y.2⟩ :=
      congrArg (fun p : Node × Node => (⟨p.1, p.2⟩ : Edge)) heq
    have hproject := (hends x hx).2
    rw [hsame, (hends y hy).2] at hproject
    obtain ⟨hsrc, hdst⟩ := Edge.mk.inj (Option.some_inj.mp hproject)
    exact Prod.ext hsrc.symm hdst.symm
  calc ∑ x ∈ endPairs cut, l.base.weight x.1 x.2
      = ∑ x ∈ endPairs cut,
          l.digraph.weight (copy ⟨x.1, x.2⟩).src (copy ⟨x.1, x.2⟩).dst :=
        Finset.sum_congr rfl fun x hx => (projectEdge_some (hends x hx).2).symm
    _ = ∑ y ∈ (endPairs cut).image (fun x => ((copy ⟨x.1, x.2⟩).src, (copy ⟨x.1, x.2⟩).dst)),
          l.digraph.weight y.1 y.2 := by
        rw [Finset.sum_image hinj]
    _ ≤ Flow.crossing (Flow.capacity l.digraph) l.size
          (Flow.side l.digraph l.source l.sink) := by
        refine sum_le_crossing_side (Layered.digraph_consistent hl) fun y hy => ?_
        obtain ⟨x, hx, rfl⟩ := Finset.mem_image.mp hy
        exact hcrosses _ (hends x hx).1

end Copies

/-- The cut of a group weighs no more than any set of finite edges that separates the group, counted
once for each transition between stages. -/
theorem sum_minCutGroup_le (hg : g.Consistent) (hwell : group.WellPosed g.size) {cut : Cut}
    (hcut : minCutGroup g group false = .ok cut) {other : Cut}
    (hfinite : ∀ e ∈ other, g.weight e.src e.dst < Weight.infinite)
    (hsep : ¬ group.Satisfiable (g.Uncut (· ∈ other))) :
    ∑ x ∈ endPairs cut, g.weight x.1 x.2 ≤
      (group.stages.length - 1) * ∑ x ∈ endPairs other, g.weight x.1 x.2 := by
  cases hnarrow : group.narrow? g with
  | none =>
    rw [minCutGroup_of_none hnarrow] at hcut
    cases hcut
    exact Nat.zero_le _
  | some stages =>
    obtain ⟨hlong, hbound, -⟩ := WaypointGroup.narrow?_some hg hwell hnarrow
    have hsub := WaypointGroup.narrow?_sub hnarrow
    have hl := layered_wellFormed hg hlong hbound
    have hcopies : (⟨g, stages⟩ : Layered).copies = group.stages.length - 1 :=
      congrArg (· - 1) hsub.length_eq
    have hother := crossing_le_of_separates hl hfinite fun hthreaded =>
      hsep (threaded_of_sub hsub hthreaded)
    rw [hcopies] at hother
    obtain ⟨flow, hflow, rfl⟩ := (minCutGroup_eq_ok_iff hnarrow).mp hcut
    rcases minCut_cases (Layered.digraph_consistent hl) (⟨g, stages⟩ : Layered).source
      (⟨g, stages⟩ : Layered).sink with ⟨found, hfound, hmem, hsmall⟩ | ⟨herror, -⟩
    · rw [hflow] at hfound
      cases hfound
      have hcrosses : ∀ e ∈ flow.edges, Crosses (⟨g, stages⟩ : Layered).digraph
          (⟨g, stages⟩ : Layered).source (⟨g, stages⟩ : Layered).sink e ∧
            (⟨g, stages⟩ : Layered).digraph.weight e.src e.dst < Weight.infinite :=
        fun e he => ⟨(hmem e).mp he, hsmall e ((hmem e).mp he)⟩
      exact (sum_projected_le hl hcrosses fun x hx =>
        List.mem_filterMap.mp (AscSet.mem_ofList.mp hx)).trans hother
    · rw [hflow] at herror
      cases herror

/-- The cut of a group of two stages weighs no more than any set of finite edges that separates the
group. -/
theorem minCutGroup_lightest (hg : g.Consistent) (hwell : group.WellPosed g.size)
    (htwo : group.stages.length = 2) {cut : Cut} (hcut : minCutGroup g group false = .ok cut)
    {other : Cut} (hfinite : ∀ e ∈ other, g.weight e.src e.dst < Weight.infinite)
    (hsep : ¬ group.Satisfiable (g.Uncut (· ∈ other))) :
    cutWeight g cut.toList ≤ cutWeight g other.toList := by
  have hle := sum_minCutGroup_le hg hwell hcut hfinite hsep
  rw [htwo, Nat.one_mul] at hle
  rw [cutWeight_eq, cutWeight_eq]
  exact min_le_min_right _ hle

end Lightest

end GroupCut

end SpecFence
