import SpecFence.Proofs.GroupCut
import SpecFence.Proofs.Scoped
import SpecFence.Proofs.Separation

/-!
# Narrowing finds where walks end

There are three ways to ask whether a walk visits the stages of a group in order: to narrow the
stages one after the other, to look for a way through the layered graph, and to name the walk.  They
agree, also where stages overlap or have nodes outside the graph; and the nodes that narrowing leaves
of a stage are exactly those at which a walk through the stages up to it can end.
-/

set_option autoImplicit false

namespace SpecFence

open Relation

namespace Progress

variable {R : Node → Node → Prop} {stages : List NodeSet} {k : Nat} {v : Node}

theorem exists_stand (h : Progress R stages k v) {i : Nat} (hi : i ≤ k) :
    ∃ s u, stages[i]? = some s ∧ u ∈ s ∧ Progress R stages i u ∧ ReflTransGen R u v := by
  induction h with
  | start hs hv =>
    obtain rfl : i = 0 := by omega
    exact ⟨_, _, hs, hv, .start hs hv, .refl⟩
  | step _ huv ih =>
    obtain ⟨s, u, hs, hu, hprogress, hreach⟩ := ih hi
    exact ⟨s, u, hs, hu, hprogress, hreach.tail huv⟩
  | @enter k s v hrest hs hv ih =>
    rcases Nat.lt_or_eq_of_le hi with hlt | rfl
    · exact ih (by omega)
    · exact ⟨s, v, hs, hv, .enter hrest hs hv, .refl⟩

theorem exists_walk (h : Progress R stages k v) : ∃ walk places, walk.IsChain R ∧
    walk.getLast? = some v ∧ VisitsAt (· ∈ ·) walk places (stages.take (k + 1)) := by
  induction h with
  | @start s v hs hv =>
    refine ⟨[v], [0], List.isChain_singleton v, rfl, List.pairwise_singleton _ _, ?_⟩
    rw [List.take_add_one, hs]
    exact .cons ⟨v, rfl, hv⟩ .nil
  | @step k u v _ huv ih =>
    obtain ⟨walk, places, hchain, hlast, hvisits⟩ := ih
    refine ⟨walk ++ [v], places, ?_, by simp, hvisits.append [v]⟩
    refine hchain.append (List.isChain_singleton v) ?_
    intro x hx y hy
    cases hlast.symm.trans hx
    cases hy
    exact huv
  | @enter k s v _ hs hv ih =>
    obtain ⟨walk, places, hchain, hlast, hvisits⟩ := ih
    refine ⟨walk, places ++ [walk.length - 1], hchain, hlast, ?_⟩
    rw [List.take_add_one, hs]
    exact hvisits.snoc hlast hv

theorem stretch {walk : List Node} {p q : Nat} {u : Node} (h : Progress R stages k u)
    (hchain : walk.IsChain R) (hpq : p ≤ q) (hu : walk[p]? = some u) (hv : walk[q]? = some v) :
    Progress R stages k v := by
  refine h.steps (reach_of_stretch hpq (fun i a b _ _ ha hb => ?_) hu hv)
  obtain ⟨_, rfl⟩ := List.getElem?_eq_some_iff.mp ha
  obtain ⟨hi, rfl⟩ := List.getElem?_eq_some_iff.mp hb
  exact hchain.getElem i hi

theorem of_place {walk : List Node} {places : List Nat} (hchain : walk.IsChain R)
    (hvisits : VisitsAt (· ∈ ·) walk places stages) {p : Nat} (hp : places[k]? = some p)
    (hv : walk[p]? = some v) : Progress R stages k v := by
  obtain ⟨s, u, hs, hu, hus⟩ := hvisits.exists_stage hp
  cases hv.symm.trans hu
  -- The place before is not behind this one, so the walk goes on from there to here.
  induction k generalizing p v s with
  | zero => exact .start hs hus
  | succ k ih =>
    obtain ⟨hk, rfl⟩ := List.getElem?_eq_some_iff.mp hp
    have hq : places[k]? = some _ := List.getElem?_eq_getElem (Nat.lt_of_succ_lt hk)
    obtain ⟨t, w, ht, hw, hwt⟩ := hvisits.exists_stage hq
    have hordered : places[k] ≤ places[k + 1] :=
      List.pairwise_iff_getElem.mp hvisits.1 _ _ _ _ (Nat.lt_succ_self k)
    exact ((ih hq hw t ht hw hwt).stretch hchain hordered hw hv).enter hs hus

theorem of_take {n : Nat} (h : Progress R (stages.take n) k v) : Progress R stages k v := by
  have hget : ∀ {i : Nat} {s : NodeSet}, (stages.take n)[i]? = some s → stages[i]? = some s := by
    intro i s hs
    rw [List.getElem?_take] at hs
    split at hs
    · exact hs
    · cases hs
  induction h with
  | start hs hv => exact .start (hget hs) hv
  | step _ huv ih => exact ih.step huv
  | enter _ hs hv ih => exact ih.enter (hget hs) hv

theorem of_walk {walk : List Node} {places : List Nat} (hk : k < stages.length)
    (hchain : walk.IsChain R) (hlast : walk.getLast? = some v)
    (hvisits : VisitsAt (· ∈ ·) walk places (stages.take (k + 1))) : Progress R stages k v := by
  have hlength := hvisits.2.length_eq
  have hp : places[k]? = some _ :=
    List.getElem?_eq_getElem (by rw [hlength, List.length_take]; omega)
  obtain ⟨-, u, -, hu, -⟩ := hvisits.exists_stage hp
  have hlt := hvisits.lt_length (List.mem_of_getElem? hp)
  have hprogress := Progress.of_place hchain hvisits hp hu
  rw [List.getLast?_eq_getElem?] at hlast
  exact (hprogress.stretch hchain (Nat.le_sub_one_of_lt hlt) hu hlast).of_take

end Progress

structure Digraph.WalksBy (g : Digraph) (R : Node → Node → Prop) (walk : List Node) : Prop where
  bound : ∀ v ∈ walk, v < g.size
  chain : walk.IsChain R

theorem Digraph.Consistent.lt_of_joins {g : Digraph} (hg : g.Consistent) :
    ∀ a b, g.Joins a b → a < g.size := hg.src_lt

section Walks

variable {g : Digraph} {R : Node → Node → Prop} {stages : List NodeSet} {k : Nat} {v : Node}

theorem Digraph.walksBy_of_last (hR : ∀ a b, R a b → a < g.size) {walk : List Node}
    (hchain : walk.IsChain R) (hlast : walk.getLast? = some v) (hv : v < g.size) :
    g.WalksBy R walk := by
  refine ⟨fun u hu => ?_, hchain⟩
  -- A node of the walk is the start of a step, or it is the end.
  obtain ⟨i, hi, rfl⟩ := List.mem_iff_getElem.mp hu
  rcases Nat.lt_or_ge (i + 1) walk.length with hnext | hend
  · exact hR _ _ (hchain.getElem i hnext)
  · have hi' : walk.length - 1 = i := by omega
    rw [List.getLast?_eq_getElem?, hi', List.getElem?_eq_getElem hi] at hlast
    cases hlast
    exact hv

theorem progress_iff_walk (hR : ∀ a b, R a b → a < g.size) (hk : k < stages.length) :
    v < g.size ∧ Progress R stages k v ↔
      ∃ walk, g.WalksBy R walk ∧ walk.getLast? = some v ∧
        (⟨stages.take (k + 1)⟩ : WaypointGroup).VisitedBy walk := by
  constructor
  · rintro ⟨hv, hprogress⟩
    obtain ⟨walk, places, hchain, hlast, hvisits⟩ := hprogress.exists_walk
    exact ⟨walk, g.walksBy_of_last hR hchain hlast hv, hlast, places, hvisits⟩
  · rintro ⟨walk, hwalk, hlast, places, hvisits⟩
    exact ⟨hwalk.bound v (List.mem_of_getLast? hlast), .of_walk hk hwalk.chain hlast hvisits⟩

/-- Some walk within the graph visits a group exactly when some node of the graph makes progress up
to the last stage. -/
theorem exists_visit_iff (hR : ∀ a b, R a b → a < g.size) {group : WaypointGroup}
    (hstages : group.stages ≠ []) :
    (∃ walk, g.WalksBy R walk ∧ group.VisitedBy walk) ↔
      ∃ v < g.size, Progress R group.stages (group.stages.length - 1) v := by
  have hpos := List.length_pos_iff.mpr hstages
  have hall : group.stages.take (group.stages.length - 1 + 1) = group.stages := by
    rw [Nat.sub_add_cancel hpos, List.take_length]
  have hends := fun v => progress_iff_walk (v := v) hR (Nat.sub_one_lt_of_lt hpos)
  rw [hall] at hends
  simp only [hends]
  constructor
  · rintro ⟨walk, hwalk, hvisited⟩
    obtain ⟨places, hvisits⟩ := hvisited
    have hp : places[0]? = some _ := List.getElem?_eq_getElem (by rwa [hvisits.2.length_eq])
    obtain ⟨-, u, -, hu, -⟩ := hvisits.exists_stage hp
    have hne : walk ≠ [] := by
      rintro rfl
      simp at hu
    exact ⟨_, walk, hwalk, List.getLast?_eq_getLast_of_ne_nil hne, places, hvisits⟩
  · rintro ⟨v, walk, hwalk, -, hvisited⟩
    exact ⟨walk, hwalk, hvisited⟩

end Walks

namespace WaypointGroup

variable {graph : Digraph} {stages rest narrowed : List NodeSet} {frontier : NodeSet} {k : Nat}

/-- A frontier has exactly the nodes of a numbered stage that make progress up to it. -/
structure IsFrontier (graph : Digraph) (stages : List NodeSet) (k : Nat) (frontier : NodeSet) :
    Prop where
  mem_iff : ∀ s, stages[k]? = some s → ∀ v, v ∈ frontier ↔
    v ∈ s ∧ v < graph.size ∧ Progress graph.Joins stages k v
  exists_stage : ∃ s, stages[k]? = some s

theorem IsFrontier.lt (h : IsFrontier graph stages k frontier) {v : Node} (hv : v ∈ frontier) :
    v < graph.size := by
  obtain ⟨s, hs⟩ := h.exists_stage
  exact ((h.mem_iff s hs v).mp hv).2.1

theorem IsFrontier.progress (h : IsFrontier graph stages k frontier) {v : Node}
    (hv : v ∈ frontier) : Progress graph.Joins stages k v := by
  obtain ⟨s, hs⟩ := h.exists_stage
  exact ((h.mem_iff s hs v).mp hv).2.2

theorem IsFrontier.passed (hg : graph.Consistent) (h : IsFrontier graph stages k frontier)
    {n : Nat} (hn : k ≤ n) {v : Node} (hv : v < graph.size)
    (hprogress : Progress graph.Joins stages n v) :
    ∃ u ∈ frontier, ReflTransGen graph.Joins u v := by
  obtain ⟨s, u, hs, hu, hstand, hreach⟩ := hprogress.exists_stand hn
  have hlt : u < graph.size := by
    rcases hreach.cases_head with rfl | ⟨w, huw, -⟩
    · exact hv
    · exact hg.src_lt u w huw
  exact ⟨u, (h.mem_iff s hs u).mpr ⟨hu, hlt, hstand⟩, hreach⟩

theorem IsFrontier.no_progress (hg : graph.Consistent) (h : IsFrontier graph stages k frontier)
    (hempty : frontier.isEmpty = true) {n : Nat} (hn : k ≤ n) :
    ¬ ∃ v < graph.size, Progress graph.Joins stages n v := by
  rintro ⟨v, hv, hprogress⟩
  obtain ⟨u, hu, -⟩ := h.passed hg hn hv hprogress
  exact AscSet.isEmpty_iff.mp hempty u hu

theorem isFrontier_first {first : NodeSet} :
    IsFrontier graph (first :: rest) 0 (first.filter (· < graph.size)) := by
  refine ⟨fun s hs v => ?_, first, rfl⟩
  cases hs
  rw [AscSet.mem_filter, decide_eq_true_eq]
  constructor
  · rintro ⟨hv, hlt⟩
    exact ⟨hv, hlt, .start rfl hv⟩
  · rintro ⟨hv, hlt, -⟩
    exact ⟨hv, hlt⟩

theorem IsFrontier.next (hg : graph.Consistent) (h : IsFrontier graph stages k frontier)
    {next : NodeSet} (hnext : stages[k + 1]? = some next) :
    IsFrontier graph stages (k + 1)
      (next.filter (graph.reachableFrom frontier.toList).has) := by
  refine ⟨fun s hs v => ?_, next, hnext⟩
  cases hnext.symm.trans hs
  constructor
  · intro hv
    have hlt := Digraph.lt_of_has_reachableFrom (AscSet.mem_filter.mp hv).2
    obtain ⟨hmem, u, hu, huv⟩ := (mem_nextStage hg next (fun u hu => h.lt hu) v).mp hv
    exact ⟨hmem, hlt, ((h.progress hu).steps huv).enter hnext hmem⟩
  · rintro ⟨hmem, hlt, hprogress⟩
    rw [mem_nextStage hg next fun u hu => h.lt hu]
    exact ⟨hmem, h.passed hg (Nat.le_succ k) hlt hprogress⟩

theorem isFrontier_of_narrowFrom (hg : graph.Consistent) (hrest : stages.drop (k + 1) = rest)
    (h : IsFrontier graph stages k frontier)
    (hnarrow : narrowFrom graph frontier rest = some narrowed) {i : Nat} {f : NodeSet}
    (hf : narrowed[i]? = some f) : IsFrontier graph stages (k + i) f := by
  induction rest generalizing k frontier narrowed i with
  | nil =>
    rw [narrowFrom] at hnarrow
    split at hnarrow
    · cases hnarrow
    · cases hnarrow
      obtain ⟨hi, rfl⟩ := List.getElem?_eq_some_iff.mp hf
      obtain rfl : i = 0 := Nat.lt_one_iff.mp hi
      exact h
  | cons next rest ih =>
    rw [narrowFrom] at hnarrow
    split at hnarrow
    · cases hnarrow
    · obtain ⟨inner, hinner, rfl⟩ := Option.map_eq_some_iff.mp hnarrow
      obtain ⟨hnext, hdrop⟩ := next_of_drop hrest
      cases i with
      | zero =>
        cases hf
        exact h
      | succ i =>
        have hlater := ih hdrop (h.next hg hnext) hinner hf
        rwa [Nat.add_right_comm, Nat.add_assoc] at hlater

theorem isSome_narrowFrom_iff (hg : graph.Consistent) (hrest : stages.drop (k + 1) = rest)
    (h : IsFrontier graph stages k frontier) :
    (narrowFrom graph frontier rest).isSome ↔
      ∃ v < graph.size, Progress graph.Joins stages (k + rest.length) v := by
  induction rest generalizing k frontier with
  | nil =>
    rw [narrowFrom]
    split
    · rename_i hempty
      exact iff_of_false (by simp) (h.no_progress hg hempty (Nat.le_refl k))
    · rename_i hinhabited
      obtain ⟨u, hu⟩ : ∃ u, u ∈ frontier := by
        by_contra hnone
        exact hinhabited (AscSet.isEmpty_iff.mpr fun u hu => hnone ⟨u, hu⟩)
      exact iff_of_true rfl ⟨u, h.lt hu, h.progress hu⟩
  | cons next rest ih =>
    obtain ⟨hnext, hdrop⟩ := next_of_drop hrest
    rw [narrowFrom]
    split
    · rename_i hempty
      exact iff_of_false (by simp) (h.no_progress hg hempty (Nat.le_add_right k _))
    · rw [Option.isSome_map, ih hdrop (h.next hg hnext), List.length_cons, Nat.add_comm rest.length,
        Nat.add_assoc]

variable {group : WaypointGroup}

theorem exists_narrowFrom (graph : Digraph) (hlong : 2 ≤ group.stages.length) :
    ∃ first rest, group.stages = first :: rest ∧
      group.narrow? graph = narrowFrom graph (first.filter (· < graph.size)) rest := by
  unfold narrow?
  match hstages : group.stages, hlong with
  | first :: next :: rest, _ => exact ⟨first, next :: rest, rfl, rfl⟩

theorem isFrontier_of_narrow? (hg : graph.Consistent) (hlong : 2 ≤ group.stages.length)
    (h : group.narrow? graph = some narrowed) {i : Nat} {f : NodeSet} (hf : narrowed[i]? = some f) :
    IsFrontier graph group.stages i f := by
  obtain ⟨first, rest, hstages, hnarrow⟩ := exists_narrowFrom graph hlong
  rw [hnarrow] at h
  rw [hstages, ← Nat.zero_add i]
  exact isFrontier_of_narrowFrom hg rfl isFrontier_first h hf

theorem length_of_narrow? (hg : graph.Consistent) (hlong : 2 ≤ group.stages.length)
    (h : group.narrow? graph = some narrowed) : narrowed.length = group.stages.length := by
  obtain ⟨first, rest, hstages, hnarrow⟩ := exists_narrowFrom graph hlong
  have hbound : ∀ u ∈ first.filter (· < graph.size), u < graph.size :=
    fun u hu => of_decide_eq_true (AscSet.mem_filter.mp hu).2
  rw [hnarrow] at h
  rw [(narrowFrom_some hg hbound h).length, hstages, List.length_cons]

theorem isSome_narrow?_iff (hg : graph.Consistent) (hlong : 2 ≤ group.stages.length) :
    (group.narrow? graph).isSome ↔
      ∃ v < graph.size, Progress graph.Joins group.stages (group.stages.length - 1) v := by
  obtain ⟨first, rest, hstages, hnarrow⟩ := exists_narrowFrom graph hlong
  have hrest : (first :: rest).drop (0 + 1) = rest := rfl
  rw [hnarrow, hstages, isSome_narrowFrom_iff hg hrest isFrontier_first, Nat.zero_add,
    List.length_cons, Nat.add_sub_cancel]

end WaypointGroup

namespace Layered

variable {l : Layered}

theorem lifts_joins (hl : l.WellFormed) : l.Lifts l.base.Joins l.digraph.Joins := by
  have hedge : ∀ a b, l.Joined a b Weight.infinite → l.digraph.Joins a b :=
    fun a b h => Nat.lt_of_lt_of_eq h.pos h.weight.symm
  constructor
  · exact fun u v huv => hl.base.dst_lt u v huv
  · intro c u v hc hu huv
    change 0 < l.weight _ _
    rw [weight_within hc hu (hl.base.dst_lt u v huv)]
    exact huv
  · exact fun c u hc hu hmem => hedge _ _ (.up hc hu hmem)
  · exact fun v hmem => hedge _ _ (.enter hl.copies_pos (hl.first v hmem) hmem)
  · exact fun c u hc hu hmem => hedge _ _ (.exit hc hu hmem)

/-- The super sink is reached from the super source exactly when a walk of the base graph goes
through the stages. -/
theorem reaches_sink_iff (hl : l.WellFormed) :
    (l.digraph.reachableFrom [l.source]).has l.sink = true ↔
      Threaded l.base.Joins (· ∈ ·) l.stages := by
  rw [Digraph.has_reachableFrom (digraph_consistent hl)]
  constructor
  · rintro ⟨s, hs, -, hreach⟩
    rw [List.mem_singleton.mp hs] at hreach
    exact (falls_joins l).threaded hl hreach
  · intro hthreaded
    exact ⟨l.source, List.mem_singleton_self _, source_lt_size l,
      (lifts_joins hl).source_reaches_sink hl hthreaded⟩

end Layered

theorem Overlay.size_without (graph : Digraph) (cut : List Edge) :
    (Overlay.without graph cut).digraph.size = graph.size := by
  change (Overlay.without graph cut).base.size = graph.size
  rw [base_without]

namespace ScopedGraph

variable {s : ScopedGraph} {below m : EdgeMap}

theorem Reads.exists_put_zero (h : s.Reads below m) (hsize : m.size = below.size) (e : Edge) :
    ∃ m' : EdgeMap, m'.size = below.size ∧ (s.put e 0).Reads below m' := by
  by_cases habsent : s.base.weight e.src e.dst = 0
  · rw [put_zero_of_absent habsent]
    exact ⟨_, (EdgeMap.size_overlayStep _).trans hsize, h.restore hsize e⟩
  · rw [h.base] at habsent
    obtain ⟨hsrc, hdst⟩ := EdgeMap.bounds_of_weight_pos (Nat.pos_of_ne_zero habsent)
    rw [← hsize] at hsrc hdst
    exact ⟨_, (EdgeMap.size_put e 0).trans hsize, h.put hsize hsrc hdst 0⟩

theorem Reads.exists_foldl_put_zero (h : s.Reads below m) (hsize : m.size = below.size)
    (cut : List Edge) :
    ∃ m' : EdgeMap, m'.size = below.size ∧ (cut.foldl (fun s e => s.put e 0) s).Reads below m' := by
  induction cut generalizing s m with
  | nil => exact ⟨m, hsize, h⟩
  | cons e cut ih =>
    obtain ⟨m', hsize', h'⟩ := h.exists_put_zero hsize e
    exact ih h' hsize'

theorem weight_foldl_put_zero (cut : List Edge) (u v : Node) :
    (cut.foldl (fun s e => s.put e 0) s).weight u v =
      if (⟨u, v⟩ : Edge) ∈ cut then 0 else s.weight u v := by
  induction cut generalizing s with
  | nil => simp
  | cons e cut ih =>
    rw [List.foldl_cons, ih, weight_put]
    by_cases he : (⟨u, v⟩ : Edge) = e <;> simp [he]

theorem without_digraph {g : Digraph} (hg : g.Consistent) (cut : List Edge) :
    (without g cut).digraph = (Overlay.without g cut).digraph := by
  obtain ⟨below, rfl⟩ := hg.exists_edgeMap
  obtain ⟨m, hsize, hreads⟩ := (reads_onto below).exists_foldl_put_zero rfl cut
  rw [without, hreads.digraph_eq hsize]
  have hsize' := hsize.trans (Overlay.size_without below.digraph cut).symm
  refine m.digraph_consistent.ext (Overlay.without_consistent hg cut) hsize' fun u v => ?_
  change m.weight u v = (Overlay.without below.digraph cut).weight u v
  rw [← hreads.weight, weight_foldl_put_zero, Overlay.weight_without]
  rfl

end ScopedGraph

namespace WaypointGroup

variable {graph : Digraph} {group : WaypointGroup}

theorem isSome_narrow?_iff_walk (hg : graph.Consistent) (hlong : 2 ≤ group.stages.length) :
    (group.narrow? graph).isSome ↔
      ∃ walk, graph.WalksBy graph.Joins walk ∧ group.VisitedBy walk := by
  have hstages : group.stages ≠ [] := List.length_pos_iff.mp (by omega)
  rw [isSome_narrow?_iff hg hlong, exists_visit_iff hg.lt_of_joins hstages]

theorem separatedBy_iff_walk (hg : graph.Consistent) (hlong : 2 ≤ group.stages.length)
    (cut : List Edge) :
    group.separatedBy graph cut = true ↔
      ∀ walk, graph.WalksBy (graph.Uncut (· ∈ cut)) walk → ¬ group.VisitedBy walk := by
  have hsize := Overlay.size_without graph cut
  have hjoins : (Overlay.without graph cut).digraph.Joins = graph.Uncut (· ∈ cut) := by
    funext u v
    exact propext (Overlay.joins_without_iff graph cut u v)
  have hwalks : ∀ walk, (Overlay.without graph cut).digraph.WalksBy
      (Overlay.without graph cut).digraph.Joins walk ↔
        graph.WalksBy (graph.Uncut (· ∈ cut)) walk := by
    intro walk
    rw [hjoins]
    constructor
    · rintro ⟨hbound, hchain⟩
      exact ⟨hsize ▸ hbound, hchain⟩
    · rintro ⟨hbound, hchain⟩
      exact ⟨hsize.symm ▸ hbound, hchain⟩
  have hconsistent := Overlay.without_consistent hg cut
  rw [separatedBy, Option.isNone_iff_eq_none, ← Option.not_isSome_iff_eq_none,
    isSome_narrow?_iff_walk hconsistent hlong]
  simp only [hwalks, not_exists, not_and]

theorem isSome_narrow?_iff_layers (hg : graph.Consistent) (hlong : 2 ≤ group.stages.length)
    (hbound : ∀ s ∈ group.stages, ∀ v ∈ s, v < graph.size) :
    ∃ l, Layered.along? graph group.stages = some l ∧
      ((l.digraph.reachableFrom [l.source]).has l.sink = true ↔ (group.narrow? graph).isSome) := by
  have hl := layered_wellFormed hg hlong hbound
  refine ⟨_, along?_eq_some hlong hbound, ?_⟩
  rw [Layered.reaches_sink_iff hl, isSome_narrow?_iff hg hlong]
  refine satisfiable_iff_progress.trans (exists_congr fun v => ?_)
  -- Progress ends in the last stage or after a step, so within the graph either way.
  refine (and_iff_right_of_imp fun hprogress => ?_).symm
  obtain ⟨s, u, hs, hu, -, hreach⟩ := hprogress.exists_stand (Nat.le_refl _)
  rcases hreach.cases_tail with rfl | ⟨w, -, hwv⟩
  · exact hbound s (List.mem_of_getElem? hs) _ hu
  · exact hg.dst_lt w v hwv

/-- Narrowing, the layered graph and the walks agree about a group of two stages or more.  Narrowing
succeeds exactly when a walk visits the group, and leaves of each stage the nodes at which a walk
that visits the stages up to it can end.  When all stages are within the graph, the super sink is
reached exactly then.  So edges separate the group exactly when no walk that avoids them visits it,
and it does not matter in which way they are taken away. -/
theorem narrow_agrees_with_walks (graph : Digraph) (hg : graph.Consistent) (group : WaypointGroup)
    (hlong : 2 ≤ group.stages.length) :
    ((group.narrow? graph).isSome ↔
      ∃ walk, graph.WalksBy graph.Joins walk ∧ group.VisitedBy walk) ∧
    (∀ narrowed, group.narrow? graph = some narrowed →
      narrowed.length = group.stages.length ∧
      ∀ i s f, group.stages[i]? = some s → narrowed[i]? = some f → ∀ v, v ∈ f ↔ v ∈ s ∧
        ∃ walk, graph.WalksBy graph.Joins walk ∧ walk.getLast? = some v ∧
          (⟨group.stages.take (i + 1)⟩ : WaypointGroup).VisitedBy walk) ∧
    ((∀ s ∈ group.stages, ∀ v ∈ s, v < graph.size) →
      ∃ l, Layered.along? graph group.stages = some l ∧
        ((l.digraph.reachableFrom [l.source]).has l.sink = true ↔ (group.narrow? graph).isSome)) ∧
    ∀ cut : List Edge,
      (group.separatedBy graph cut = true ↔
        ∀ walk, graph.WalksBy (graph.Uncut (· ∈ cut)) walk → ¬ group.VisitedBy walk) ∧
      group.separatedBy graph cut =
        (group.narrow? (ScopedGraph.without graph cut).digraph).isNone := by
  refine ⟨isSome_narrow?_iff_walk hg hlong, ?_, isSome_narrow?_iff_layers hg hlong,
    fun cut => ⟨separatedBy_iff_walk hg hlong cut, ?_⟩⟩
  · intro narrowed hnarrow
    refine ⟨length_of_narrow? hg hlong hnarrow, fun i s f hs hf v => ?_⟩
    have hi : i < group.stages.length := (List.getElem?_eq_some_iff.mp hs).1
    rw [(isFrontier_of_narrow? hg hlong hnarrow hf).mem_iff s hs, progress_iff_walk hg.lt_of_joins hi]
  · rw [ScopedGraph.without_digraph hg]
    rfl

end WaypointGroup

def outAndBack : WeightedGraph :=
  (WeightedGraph.withNodes 3).putAll [(⟨0, 1⟩, 2), (⟨1, 0⟩, 3), (⟨1, 2⟩, 1)]

def sharedStages : WaypointGroup := ⟨[.ofList [0, 1], .ofList [1, 7], .singleton 0]⟩

/-- Walks may start at both nodes of the first stage and go back from node 1 only.  Without the edge
back, which is named twice, and an edge that was never there, none is left. -/
theorem narrow_outAndBack :
    sharedStages.narrow? outAndBack.digraph =
        some [.ofList [0, 1], .singleton 1, .singleton 0] ∧
      (∃ walk, outAndBack.digraph.WalksBy outAndBack.digraph.Joins walk ∧
        sharedStages.VisitedBy walk) ∧
      (∀ v : Node, v = 1 ↔ v ∈ (.ofList [1, 7] : NodeSet) ∧
        ∃ walk, outAndBack.digraph.WalksBy outAndBack.digraph.Joins walk ∧
          walk.getLast? = some v ∧
          (⟨[.ofList [0, 1], .ofList [1, 7]]⟩ : WaypointGroup).VisitedBy walk) ∧
      ∀ walk, outAndBack.digraph.WalksBy
        (outAndBack.digraph.Uncut (· ∈ [⟨1, 0⟩, ⟨5, 9⟩, ⟨1, 0⟩])) walk →
          ¬ sharedStages.VisitedBy walk := by
  have hnarrow : sharedStages.narrow? outAndBack.digraph =
      some [.ofList [0, 1], .singleton 1, .singleton 0] := by
    cbv
  have hseparated : sharedStages.separatedBy outAndBack.digraph [⟨1, 0⟩, ⟨5, 9⟩, ⟨1, 0⟩] = true := by
    cbv
  obtain ⟨hwalk, hends, -, hcut⟩ := WaypointGroup.narrow_agrees_with_walks outAndBack.digraph
    outAndBack.digraph_consistent sharedStages (by decide)
  refine ⟨hnarrow, hwalk.mp (by rw [hnarrow]; rfl), fun v => ?_, (hcut _).1.mp hseparated⟩
  rw [← AscSet.mem_singleton]
  exact (hends _ hnarrow).2 1 _ _ rfl rfl v

end SpecFence
