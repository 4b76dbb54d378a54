import SpecFence.Proofs.Progress
import SpecFence.Proofs.Separation
import SpecFence.Proofs.ShortestSearch

/-!
# The walk that is found is a shortest one

A state of the search for a walk is a node with the number of the last stage that was visited in
order.  The walk of a queued state begins in the first stage and visits the stages up to that number,
and a walk through the stages of the group leads the search to a goal in no more steps than it has
edges, since entering a stage as early as possible is never behind.
-/

set_option autoImplicit false

namespace SpecFence

namespace LabelProblem

/-- A walk over uncut edges, given by the numbers of its edges and by the nodes they lead between:
each edge starts where the one before it ends. -/
structure WalksOver (p : LabelProblem) (cut : EdgeSet) (walk : List Nat) (nodes : List Node) :
    Prop where
  length : nodes.length = walk.length + 1
  edge : ∀ k i, walk[k]? = some i →
    i ∉ cut ∧ ∃ u v w, nodes[k]? = some u ∧ nodes[k + 1]? = some v ∧ p.edges[i]? = some (⟨u, v⟩, w)

/-- A walk over uncut edges visits the stages of a group in order. -/
def Visits (p : LabelProblem) (cut : EdgeSet) (c : WaypointGroup) (walk : List Nat) : Prop :=
  ∃ nodes, p.WalksOver cut walk nodes ∧ c.VisitedBy nodes

/-- A walk visits the stages of a group in order, the first one where it begins and the last one
where it ends, and no walk that visits them has fewer edges. -/
structure ShortestVisit (p : LabelProblem) (cut : EdgeSet) (c : WaypointGroup) (walk : List Nat) :
    Prop where
  nonempty : walk ≠ []
  visits : ∃ nodes places, p.WalksOver cut walk nodes ∧
    VisitsAt (· ∈ ·) nodes places c.stages ∧ places.head? = some 0 ∧
      places.getLast? = some walk.length
  shortest : ∀ other, p.Visits cut c other → walk.length ≤ other.length

variable {p : LabelProblem} {cut : EdgeSet} {c : WaypointGroup} {walk : List Nat}

section Shortest

variable {stages : Array NodeSet} {start n k : Nat} {u v : Node} {nodes : List Node}

def LedIn (p : LabelProblem) (stages : Array NodeSet) (cut : EdgeSet) (start n k : Nat) (v : Node) :
    Prop :=
  Search.Leads (p.advance stages cut) (p.size * stages.size) start n (v + p.size * k)

theorem LedIn.step (h : p.WellFormed) (hled : p.LedIn stages cut start n k u)
    (hk : k < stages.size) (huv : p.Passable cut u v) :
    p.LedIn stages cut start (n + 1) (enter stages k v) v := by
  obtain ⟨-, hv, i, hmem⟩ := mem_advance h stages k huv
  exact hled.tail hmem (state_lt hv (enter_lt hk v))

/-- Along a walk the search takes a step for each edge, and notes the next stage on the way, if not
before then where the walk stands in it. -/
theorem LedIn.stretch (h : p.WellFormed) (hwalk : p.WalksOver cut walk nodes) {q r j : Nat}
    {s t : NodeSet} (hled : p.LedIn stages cut start n k u) (hu : nodes[q]? = some u) (hus : u ∈ s)
    (hst : ∀ x ∈ s, x ∉ t) (ht : stages[j + 1]? = some t) (hjk : j ≤ k) (hk : k < stages.size)
    (hqr : q ≤ r) (hv : nodes[r]? = some v) (hvt : v ∈ t) :
    ∃ k', j + 1 ≤ k' ∧ k' < stages.size ∧ p.LedIn stages cut start (n + (r - q)) k' v := by
  have hall : ∃ k', j ≤ k' ∧ k' < stages.size ∧ p.LedIn stages cut start (n + (r - q)) k' v ∧
      (v ∈ t → j + 1 ≤ k') := by
    clear hvt
    induction r, hqr using Nat.le_induction generalizing v with
    | base =>
      cases hu.symm.trans hv
      refine ⟨k, hjk, hk, ?_, fun hut => absurd hut (hst u hus)⟩
      rwa [Nat.sub_self]
    | succ r hqr ih =>
      have hr : r < walk.length := by
        have hlt := (List.getElem?_eq_some_iff.mp hv).1
        rw [hwalk.length] at hlt
        omega
      obtain ⟨hfree, a, b, w, ha, hb, hedge⟩ := hwalk.edge r walk[r] (List.getElem?_eq_getElem hr)
      cases hv.symm.trans hb
      obtain ⟨k', hjk', hk', hleda, -⟩ := ih ha
      refine ⟨enter stages k' v, hjk'.trans (le_enter stages k' v), enter_lt hk' v, ?_, ?_⟩
      · rw [Nat.succ_sub hqr]
        exact hleda.step h hk' ⟨walk[r], w, hedge, hfree⟩
      · intro hvt
        by_cases heq : k' = j
        · rw [heq, enter_eq ht hvt]
        · have hle := le_enter stages k' v
          omega
  obtain ⟨k', -, hk', hledv, hnoted⟩ := hall
  exact ⟨k', hnoted hvt, hk', hledv⟩

/-- A walk that visits the stages that are left leads the search to a goal, in no more steps than it
has edges. -/
theorem LedIn.through (h : p.WellFormed) (hwalk : p.WalksOver cut walk nodes)
    (hdisjoint : stages.toList.IsChain fun s t => ∀ v ∈ s, v ∉ t) {places : List Nat}
    {rest : List NodeSet}
    (hvisits : List.Forall₂ (fun r t => ∃ v, nodes[r]? = some v ∧ v ∈ t) places rest)
    {q j : Nat} {s : NodeSet} (hplaces : (q :: places).Pairwise (· ≤ ·))
    (hrest : stages.toList.drop j = s :: rest) (hu : nodes[q]? = some u) (hus : u ∈ s)
    (hjk : j ≤ k) (hk : k < stages.size) (hled : p.LedIn stages cut start n k u) :
    ∃ m v, m + q ≤ n + walk.length ∧ (∃ t ∈ stages.toList, v ∈ t) ∧
      p.LedIn stages cut start m (stages.size - 1) v := by
  have hlast : ∀ {t : NodeSet} {ts : List NodeSet} {i : Nat}, stages.toList.drop i = t :: ts →
      t ∈ stages.toList := by
    intro t ts i hdrop
    exact List.mem_of_mem_drop (hdrop ▸ List.mem_cons_self)
  induction hvisits generalizing u q j k s n with
  | nil =>
    have hlength := congrArg List.length hrest
    rw [List.length_drop, Array.length_toList, List.length_singleton] at hlength
    obtain rfl : k = stages.size - 1 := by omega
    have hq := (List.getElem?_eq_some_iff.mp hu).1
    rw [hwalk.length] at hq
    exact ⟨n, u, by omega, ⟨s, hlast hrest, hus⟩, hled⟩
  | @cons r t places rest hr _ ih =>
    obtain ⟨v, hv, hvt⟩ := hr
    obtain ⟨hle, hplaces⟩ := List.pairwise_cons.mp hplaces
    have hqr : q ≤ r := hle r List.mem_cons_self
    obtain ⟨-, hdrop⟩ := next_of_drop hrest
    have ht : stages[j + 1]? = some t := by
      rw [← Array.getElem?_toList]
      exact (next_of_drop hdrop).1
    have hst : ∀ x ∈ s, x ∉ t := by
      have hchain := hdisjoint.drop j
      rw [hrest] at hchain
      exact (List.isChain_cons_cons.mp hchain).1
    obtain ⟨k', hjk', hk', hledv⟩ :=
      hled.stretch h hwalk hu hus hst ht hjk hk hqr hv hvt
    obtain ⟨m, x, hm, hx, hledx⟩ := ih hplaces hdrop hv hvt hjk' hk' hledv
    exact ⟨m, x, by omega, hx, hledx⟩

theorem length_le_of_visits (h : p.WellFormed) (hc : c ∈ p.groups)
    (hwalk : p.groupWitness? c cut = some walk) {other : List Nat} (hother : p.Visits cut c other) :
    walk.length ≤ other.length := by
  have hwell := h.groups c hc
  obtain ⟨nodes, hover, places, hplaces, hvisits⟩ := hother
  obtain ⟨first, front, last, hstages⟩ := exists_front hwell
  rw [groupWitness?_eq hwell.long] at hwalk
  rw [hstages] at hvisits
  obtain ⟨q, places, ⟨u, hu, hus⟩, hrest, rfl⟩ := List.forall₂_cons_right_iff.mp hvisits
  have hlt : u < p.size := hwell.bound first (by rw [hstages]; exact List.mem_cons_self) u hus
  have hpos : 0 < c.stages.length := Nat.lt_of_lt_of_le Nat.zero_lt_two hwell.long
  have hstate : u < p.size * c.stages.length := by
    have hbound := state_lt (k := 0) hlt hpos
    rwa [Nat.mul_zero, Nat.add_zero] at hbound
  have hstart : u ∈ p.starts c := by
    refine List.mem_filter.mpr ⟨?_, decide_eq_true hlt⟩
    rw [WaypointGroup.sources?, hstages]
    exact hus
  have hled : p.LedIn c.stages.toArray cut u 0 0 u := by
    unfold LedIn
    rw [Nat.mul_zero, Nat.add_zero]
    exact .refl
  have hdrop : c.stages.toArray.toList.drop 0 = first :: (front ++ [last]) := hstages
  obtain ⟨m, v, hm, ⟨t, ht, hvt⟩, hgoal⟩ := hled.through h hover hwell.disjoint hrest hplaces hdrop
    hu hus (Nat.le_refl 0) (by simpa using hpos)
  have hv : v < p.size := hwell.bound t ht v hvt
  unfold LedIn at hgoal
  rw [List.size_toArray] at hgoal
  have hle := Search.shortest_le _ _ (Search.levelled_start _ _ _ (p.starts c)) hwalk hstart
    (by rwa [Array.size_replicate]) (by rwa [Array.size_replicate])
    (by simp only [div_state hv, beq_self_eq_true])
  omega

end Shortest

section Trace

variable {stages : List NodeSet} {state next i k : Nat} {u v : Node} {nodes : List Node}
  {places : List Nat}

theorem WalksOver.single (v : Node) : p.WalksOver cut [] [v] :=
  ⟨rfl, fun k i hi => by simp at hi⟩

theorem WalksOver.snoc (hwalk : p.WalksOver cut walk nodes) (hlast : nodes.getLast? = some u)
    {w : Nat} (hedge : p.edges[i]? = some (⟨u, v⟩, w)) (hfree : i ∉ cut) :
    p.WalksOver cut (walk ++ [i]) (nodes ++ [v]) where
  length := by
    rw [List.length_append, List.length_append, hwalk.length]
    rfl
  edge := by
    intro k x hx
    have hlength := hwalk.length
    rcases Nat.lt_or_ge k walk.length with hlt | hge
    · rw [List.getElem?_append_left hlt] at hx
      obtain ⟨hout, a, b, y, ha, hb, hab⟩ := hwalk.edge k x hx
      refine ⟨hout, a, b, y, ?_, ?_, hab⟩
      · rwa [List.getElem?_append_left (by omega)]
      · rwa [List.getElem?_append_left (by omega)]
    · have hk : k = walk.length := by
        have hbound := (List.getElem?_eq_some_iff.mp hx).1
        rw [List.length_append, List.length_singleton] at hbound
        omega
      subst hk
      rw [List.getElem?_concat_length] at hx
      cases hx
      refine ⟨hfree, u, v, w, ?_, ?_, hedge⟩
      · rw [List.getElem?_append_left (by omega), ← hlast, List.getLast?_eq_getElem?, hlength,
          Nat.add_sub_cancel]
      · rw [← hlength, List.getElem?_concat_length]

/-- What the search keeps for the walk of a queued state, the last edge of which comes first: it
leads to the node of the state, it visits the stages up to the one of the state, the first of them
where it begins, and it is at the place of the last stage when the state is a goal. -/
structure Trace (p : LabelProblem) (stages : List NodeSet) (cut : EdgeSet) (state : Nat)
    (walk : List Nat) (nodes : List Node) (places : List Nat) : Prop where
  walks : p.WalksOver cut walk.reverse nodes
  stands : nodes.getLast? = some (state % p.size)
  visits : VisitsAt (· ∈ ·) nodes places (stages.take (state / p.size + 1))
  begins : places.head? = some 0
  entered : state / p.size ≤ walk.length
  ends : state / p.size = stages.length - 1 → places.getLast? = some walk.length

theorem Trace.start {first : NodeSet} (hfirst : stages[0]? = some first) (hlong : 2 ≤ stages.length)
    (hv : v < p.size) (hmem : v ∈ first) : p.Trace stages cut v [] [v] [0] where
  walks := .single v
  stands := by rw [Nat.mod_eq_of_lt hv]; rfl
  visits := by
    rw [Nat.div_eq_of_lt hv, List.take_add_one, hfirst]
    exact ⟨List.pairwise_singleton _ _, .cons ⟨v, rfl, hmem⟩ .nil⟩
  begins := rfl
  entered := by rw [Nat.div_eq_of_lt hv]; exact Nat.zero_le _
  ends hgoal := by
    rw [Nat.div_eq_of_lt hv] at hgoal
    omega

theorem Trace.advance (h : p.WellFormed) (hsize : 0 < p.size)
    (htrace : p.Trace stages cut state walk nodes places)
    (hgoal : state / p.size ≠ stages.length - 1)
    (hmem : (i, next) ∈ p.advance stages.toArray cut state) :
    ∃ nodes places, p.Trace stages cut next (i :: walk) nodes places := by
  obtain ⟨v, w, hedge, hfree, hv, rfl⟩ := exists_edge_of_mem_advance h hsize hmem
  have hover : p.WalksOver cut (i :: walk).reverse (nodes ++ [v]) := by
    rw [List.reverse_cons]
    exact htrace.walks.snoc htrace.stands hedge hfree
  have hvisits := htrace.visits.append [v]
  have hlength : (nodes ++ [v]).length - 1 = walk.length + 1 := by
    rw [hover.length, List.length_reverse, List.length_cons, Nat.add_sub_cancel]
  have hstage : enter stages.toArray (state / p.size) v = state / p.size ∨
      ∃ s, stages[state / p.size + 1]? = some s ∧ v ∈ s ∧
        enter stages.toArray (state / p.size) v = state / p.size + 1 := by
    unfold enter
    rw [List.getElem?_toArray]
    split
    · rename_i s hs
      split
      · exact Or.inr ⟨s, hs, by assumption, rfl⟩
      · exact Or.inl rfl
    · exact Or.inl rfl
  rcases hstage with hsame | ⟨s, hs, hvs, hnext⟩
  · refine ⟨nodes ++ [v], places, hover, ?_, ?_, htrace.begins, ?_, ?_⟩
    · rw [mod_state hv, List.getLast?_concat]
    · rwa [div_state hv, hsame]
    · rw [div_state hv, hsame]
      exact Nat.le_succ_of_le htrace.entered
    · intro hend
      rw [div_state hv, hsame] at hend
      exact absurd hend hgoal
  · refine ⟨nodes ++ [v], places ++ [walk.length + 1], hover, ?_, ?_, ?_, ?_, ?_⟩
    · rw [mod_state hv, List.getLast?_concat]
    · rw [div_state hv, hnext, List.take_add_one, hs, ← hlength]
      exact hvisits.snoc List.getLast?_concat hvs
    · rw [List.head?_append, htrace.begins]
      rfl
    · rw [div_state hv, hnext]
      exact Nat.succ_le_succ htrace.entered
    · intro _
      rw [List.getLast?_concat, List.length_cons]

theorem shortestVisit_of_groupWitness? (h : p.WellFormed) (hc : c ∈ p.groups)
    (hwalk : p.groupWitness? c cut = some walk) : p.ShortestVisit cut c walk := by
  have hwell := h.groups c hc
  have hlong := hwell.long
  have hshortest : ∀ other, p.Visits cut c other → walk.length ≤ other.length :=
    fun _ hother => length_le_of_visits h hc hwalk hother
  obtain ⟨first, front, last, hstages⟩ := exists_front hwell
  have hfirst : first ∈ c.stages := hstages ▸ List.mem_cons_self
  have hsize : 0 < p.size := by
    obtain ⟨v, hv⟩ := hwell.inhabited first hfirst
    exact Nat.zero_lt_of_lt (hwell.bound first hfirst v hv)
  rw [groupWitness?_eq hlong] at hwalk
  have hcarried : Search.Carried (p.advance c.stages.toArray cut)
      (fun state => state / p.size == c.stages.length - 1)
      fun _ state walk => ∃ nodes places, p.Trace c.stages cut state walk nodes places := by
    constructor
    · exact fun _ _ _ _ _ htrace => htrace
    · rintro _ state _ walk _ hgoal ⟨nodes, places, htrace⟩ i next hmem
      exact htrace.advance h hsize (fun heq => hgoal (beq_iff_eq.mpr heq)) hmem
  have hqueue : ∀ v found, (v, found) ∈ (p.starts c).map (fun v => (v, ([] : List Nat))) →
      ∃ nodes places, p.Trace c.stages cut v found nodes places := by
    intro v found hmem
    obtain ⟨u, hu, heq⟩ := List.mem_map.mp hmem
    cases heq
    obtain ⟨hu, hlt⟩ := List.mem_filter.mp hu
    rw [WaypointGroup.sources?, hstages] at hu
    exact ⟨[v], [0], .start (by rw [hstages]; rfl) hlong (of_decide_eq_true hlt) hu⟩
  obtain ⟨-, state, found, -, hgoal, ⟨nodes, places, htrace⟩, -, rfl⟩ :=
    Search.shortest_some hcarried _ _ hqueue walk hwalk
  have hlast : state / p.size = c.stages.length - 1 := beq_iff_eq.mp hgoal
  have hall : c.stages.take (state / p.size + 1) = c.stages :=
    List.take_of_length_le (by omega)
  refine ⟨?_, ⟨nodes, places, htrace.walks, hall ▸ htrace.visits, htrace.begins, ?_⟩, hshortest⟩
  · intro hnil
    have hentered := htrace.entered
    rw [List.reverse_eq_nil_iff.mp hnil, List.length_nil] at hentered
    omega
  · rw [List.length_reverse]
    exact htrace.ends hlast

end Trace

/-- The search for a walk through a group ends after so many turns.  The states that it noted hold no
circle of parents, and following the parents from the goal gives the result. -/
def SearchEnds (p : LabelProblem) (c : WaypointGroup) (cut : EdgeSet) (turns : Nat)
    (result : Option (List Nat)) : Prop :=
  ∃ parents found, Search.Discovery.Ends (p.advance c.stages.toArray cut)
      (fun state => state / p.size == c.stages.length - 1) turns
      (.start (p.size * c.stages.length) (p.starts c)) parents found ∧
    (∀ state, ¬ Relation.TransGen (Search.ParentOf parents) state state) ∧
    Search.Discovery.ReadOff parents found result

theorem searchEnds_groupWitness? (p : LabelProblem) (hlong : 2 ≤ c.stages.length) (cut : EdgeSet) :
    ∃ turns ≤ p.size * c.stages.length, p.SearchEnds c cut turns (p.groupWitness? c cut) := by
  obtain ⟨hnodup, hlt, hgoal⟩ := p.starts_valid hlong
  unfold groupWitness?
  simp only [List.size_toArray]
  rw [if_neg (by omega)]
  exact Search.ends_firstNoted? _ hnodup hlt hgoal

theorem WalksOver.isChain {nodes : List Node} (hwalk : p.WalksOver cut walk nodes) :
    nodes.IsChain (p.Passable cut) := by
  rw [List.isChain_iff_getElem]
  intro k hk
  have hlt : k < walk.length := by
    rw [hwalk.length] at hk
    omega
  obtain ⟨hfree, u, v, w, hu, hv, hedge⟩ := hwalk.edge k walk[k] (List.getElem?_eq_getElem hlt)
  obtain ⟨_, rfl⟩ := List.getElem?_eq_some_iff.mp hu
  obtain ⟨_, rfl⟩ := List.getElem?_eq_some_iff.mp hv
  exact ⟨walk[k], w, hedge, hfree⟩

theorem Visits.satisfiable (hstages : c.stages ≠ []) (h : p.Visits cut c walk) :
    c.Satisfiable (p.Passable cut) := by
  obtain ⟨nodes, hwalk, places, hvisits⟩ := h
  exact threaded_of_visitsAt hstages hwalk.isChain hvisits

theorem length_lt_of_groupWitness? (hlong : 2 ≤ c.stages.length)
    (hwalk : p.groupWitness? c cut = some walk) : walk.length < p.size * c.stages.length := by
  rw [groupWitness?_eq hlong] at hwalk
  exact Search.length_lt_of_shortest hwalk

/-- The search for a walk through each collapsed group ends, whatever edges are cut, and so does the
reading of the walk from its parents, which hold no circle.  A walk that is found belongs to the
first collapsed group that has one: it is a shortest walk over uncut edges that visits the stages of
that group, and has fewer edges than the search has states. -/
theorem witness?_shortest (graph : Digraph) (hg : graph.Consistent) (groups : List WaypointGroup)
    (hgroups : ∀ g ∈ groups, g.fault? graph.size = none) (cut : EdgeSet) :
    (∀ c ∈ (encode graph groups).groups,
      ∃ turns ≤ graph.size * c.stages.length,
        (encode graph groups).SearchEnds c cut turns ((encode graph groups).groupWitness? c cut)) ∧
    ∀ walk, (encode graph groups).witness? cut = some walk →
      ∃ before c after, (encode graph groups).groups = before ++ c :: after ∧
        (∀ b ∈ before, ∀ other, ¬ (encode graph groups).Visits cut b other) ∧
        (encode graph groups).ShortestVisit cut c walk ∧
        walk.length < graph.size * c.stages.length := by
  have hwell : ∀ g ∈ groups, g.WellPosed graph.size := fun g hmem =>
    WaypointGroup.wellPosed_of_fault? (hgroups g hmem)
  have hp := encode_wellFormed hg hwell
  have hends := fun c hc =>
    searchEnds_groupWitness? (encode graph groups) (hp.groups c hc).long cut
  refine ⟨hends, fun walk hwalk => ?_⟩
  obtain ⟨before, c, after, hsplit, hfound, hnone⟩ := List.findSome?_eq_some_iff.mp hwalk
  have hc : c ∈ (encode graph groups).groups := by
    rw [hsplit]
    simp
  refine ⟨before, c, after, hsplit, fun b hb other hother => ?_,
    shortestVisit_of_groupWitness? hp hc hfound,
    length_lt_of_groupWitness? (hp.groups c hc).long hfound⟩
  have hbmem : b ∈ (encode graph groups).groups := by
    rw [hsplit]
    exact List.mem_append_left _ hb
  exact groupWitness?_none hp hbmem (hnone b hb)
    (hother.satisfiable (hp.groups b hbmem).stages_ne_nil)

def twicePassed : WeightedGraph :=
  (WeightedGraph.withNodes 4).putAll [(⟨0, 1⟩, 1), (⟨1, 2⟩, 1), (⟨1, 3⟩, 1), (⟨2, 1⟩, 1)]

def thereAndBack : List WaypointGroup := [⟨[.singleton 0, .singleton 2, .singleton 3]⟩]

/-- The edges 0 → 1 → 2 → 1 → 3 are a shortest walk by way of node 2. -/
theorem witness?_twicePassed :
    (encode twicePassed.digraph thereAndBack).witness? .empty = some [0, 1, 3, 2] ∧
      ∃ c, (encode twicePassed.digraph thereAndBack).ShortestVisit .empty c [0, 1, 3, 2] := by
  have hgroups : ∀ g ∈ thereAndBack, g.fault? twicePassed.digraph.size = none := by decide +kernel
  have hwalk : (encode twicePassed.digraph thereAndBack).witness? .empty = some [0, 1, 3, 2] := by
    cbv
  obtain ⟨-, hfound⟩ := witness?_shortest twicePassed.digraph twicePassed.digraph_consistent
    thereAndBack hgroups .empty
  obtain ⟨-, c, -, -, -, hshortest, -⟩ := hfound _ hwalk
  exact ⟨hwalk, c, hshortest⟩

end LabelProblem

end SpecFence
