import FlowGauge.Flow.Loops
import FlowGauge.Proofs.Flow.Dominance
import FlowGauge.Proofs.Graph.Sweep

/-!
# Natural loops are exact

The loops of a graph are found through a depth-first search, yet they do not depend on its order. A
search from the entry to a latch passes the header, since the header dominates the latch, and the
header is still open then: so every edge into a dominating block is met as a back edge
(`mem_closing_iff`). The body is swept backwards from the latches. Dead predecessors are not
dominated by the header and stay out, and every reached predecessor of a block other than the header
is dominated by it, so that the sweep misses none (`mem_bodyOf_iff`). Nesting changes neither.

## What is not asked of the graph

The graph need not be reducible. A search may then meet back edges that close no natural loop, and
which ones it meets depends on its order; they are left out because their target does not dominate
their source. Whether a graph has such edges is a question of its own, and the loops do not answer
it.

Successors and predecessors have to mirror each other, as the search goes along the former and the
sweep along the latter. Every graph of a routine is of this kind.
-/

namespace FlowGauge

namespace Graph

/-- The edge from `u` to `header` closes a natural loop: `u` is reached and `header` dominates
it. -/
def Closes (g : Graph) (entry header u : Nat) : Prop :=
  g.Reaches entry u ∧ g.Edge u header ∧ g.Dominates entry header u

end Graph

namespace Loop

variable {g : FlowGraph} {entry : Nat} {d : Dominance}

/-- Block sets are listed in ascending order. -/
theorem toList_pairwise_lt (s : BlockSet) : s.toList.Pairwise (· < ·) :=
  Std.ExtTreeSet.ordered_toList.imp fun h ↦ Nat.compare_eq_lt.1 h

/-! ### Back edges -/

/-- **The back edges into dominating blocks are all edges into dominating blocks.** -/
theorem mem_closing_iff (hentry : g.entry = some entry) (hd : d.Exact g.toGraph entry)
    {u header : Nat} :
    (u, header) ∈ (backEdgesOf g).filter (fun (latch, header) ↦ d.dominates header latch) ↔
      g.toGraph.Closes entry header u := by
  rw [List.mem_filter, backEdgesOf, hentry]
  show (u, header) ∈ (g.toGraph.trail entry).backEdges ∧ d.dominates header u = true ↔ _
  rw [Graph.mem_backEdges_iff, hd.dominates_iff]
  constructor
  · rintro ⟨⟨hu, hedge, -⟩, hdom⟩
    exact ⟨hu, hedge, hdom⟩
  · rintro ⟨hu, hedge, hdom⟩
    exact ⟨⟨hu, hedge, hdom.rank_le⟩, hdom⟩

/-! ### Bodies -/

section Body

variable {header : Nat} {latches : BlockSet}

/-- The blocks from which the sweep for the body starts. -/
def sources (header : Nat) (latches : BlockSet) : List Nat :=
  latches.toList.filter (· ≠ header)

/-- The steps of the sweep for the body. -/
def back (g : FlowGraph) (d : Dominance) (header b : Nat) : List Nat :=
  (g.predecessors b).filter (d.dominates header)

/-- The sweep starts at the latches. A block that is its own latch is the whole body and needs no
sweep. -/
theorem mem_sources_iff {u : Nat} : u ∈ sources header latches ↔ u ∈ latches ∧ u ≠ header := by
  rw [sources, List.mem_filter, Std.ExtTreeSet.mem_toList, decide_eq_true_iff]

theorem sources_nodup (header : Nat) (latches : BlockSet) : (sources header latches).Nodup := by
  have hsorted := (toList_pairwise_lt latches).filter fun u ↦ decide (u ≠ header)
  exact hsorted.imp fun hlt ↦ Nat.ne_of_lt hlt

/-- The blocks that the sweep for the body visits. -/
def swept (g : FlowGraph) (d : Dominance) (header : Nat) (latches : BlockSet) : List Nat :=
  g.toGraph.sweep (back g d header) (· ++ ·) g.size (sources header latches)
    (header :: sources header latches)

/-- The body is the header and what the sweep has visited. -/
theorem mem_bodyOf_iff_swept {b : Nat} :
    b ∈ bodyOf g d header latches ↔ b = header ∨ b ∈ swept g d header latches := by
  rw [bodyOf, Std.ExtTreeSet.mem_ofList, List.contains_iff_mem, List.mem_cons]
  rfl

variable (hco : g.toGraph.Coherent) (hd : d.Exact g.toGraph entry)
  (hlatches : ∀ u, u ∈ latches ↔ g.toGraph.Closes entry header u)

include hco hd hlatches

/-- What the sweep visits leads to a latch without passing the header. -/
theorem exists_path_of_swept {b : Nat} (hb : b ∈ swept g d header latches) :
    g.toGraph.Reaches entry b ∧
      ∃ u ∈ latches, ∃ π, g.toGraph.Path b u π ∧ header ∉ π := by
  obtain ⟨p, hp, hchain⟩ := Graph.exists_chain_of_mem_sweep (fun _ _ ↦ .refl _) _ _ _ b hb
  clear hb
  obtain ⟨hlatch, hne⟩ := mem_sources_iff.1 hp
  have hreach : g.toGraph.Reaches entry p := ((hlatches p).1 hlatch).1
  suffices h : g.toGraph.Reaches entry b ∧ ∃ π, g.toGraph.Path b p π ∧ header ∉ π from
    ⟨h.1, p, hlatch, h.2⟩
  induction hchain with
  | refl => exact ⟨hreach, [p], .single hreach.lt_size, by simpa using hne.symm⟩
  | @tail x w _ hlink ih =>
    obtain ⟨hx, π, hπ, havoid⟩ := ih
    obtain ⟨hback, hlt, hseen⟩ := hlink
    obtain ⟨hpred, hdom⟩ := List.mem_filter.1 hback
    have hedge : g.toGraph.Edge w x := ⟨hlt, hx.lt_size, (hco w x hlt hx.lt_size).2 hpred⟩
    have hw : g.toGraph.Reaches entry w := ((hd.dominates_iff header w).1 hdom).1
    refine ⟨hw, w :: π, hπ.cons hedge, fun hmem ↦ ?_⟩
    rcases List.mem_cons.1 hmem with rfl | hrest
    · exact hseen (List.mem_cons_self ..)
    · exact havoid hrest

/-- The sweep stays among blocks that the header dominates, because it takes no other predecessors.
-/
theorem header_dominates_of_swept {b : Nat} (hb : b ∈ swept g d header latches) :
    b ≠ header ∧ g.toGraph.Dominates entry header b := by
  obtain ⟨hreach, u, hu, π, hπ, havoid⟩ := exists_path_of_swept hco hd hlatches hb
  refine ⟨?_, ((hlatches u).1 hu).2.2.of_path hreach hπ havoid⟩
  rintro rfl
  exact havoid hπ.source_mem

/-- **The latches are swept, and so are the reached predecessors of swept blocks, the header
apart.** -/
theorem swept_closed (hheader : header < g.size) :
    (∀ u ∈ latches, u ≠ header → u ∈ swept g d header latches) ∧
    ∀ b ∈ swept g d header latches, ∀ p, g.toGraph.Edge p b → g.toGraph.Reaches entry p →
      p ≠ header → p ∈ swept g d header latches := by
  have hlt : ∀ v ∈ header :: sources header latches, v < g.toGraph.size := by
    intro v hv
    rcases List.mem_cons.1 hv with rfl | hv
    · exact hheader
    · exact ((hlatches v).1 (mem_sources_iff.1 hv).1).1.lt_size
  have hnodup : (header :: sources header latches).Nodup :=
    List.nodup_cons.2 ⟨fun h ↦ (mem_sources_iff.1 h).2 rfl, sources_nodup header latches⟩
  have hbound : (sources header latches).length + g.size ≤
      g.size + (header :: sources header latches).length := by
    rw [List.length_cons]
    omega
  obtain ⟨hstart, hclosed⟩ := Graph.sweep_visits (back g d header)
    (fun fresh pending ↦ List.Perm.refl (fresh ++ pending)) g.size (sources header latches)
    (header :: sources header latches) hnodup hlt hbound
  refine ⟨fun u hu hne ↦ hstart u (mem_sources_iff.2 ⟨hu, hne⟩), ?_⟩
  intro b hb p hedge hp hne
  obtain ⟨hbne, hdom⟩ := header_dominates_of_swept hco hd hlatches hb
  have hdom' : g.toGraph.Dominates entry header p := hdom.of_edge hbne.symm hp hedge
  have hback : p ∈ back g d header b := List.mem_filter.2
    ⟨(hco p b hedge.1 hedge.2.1).1 hedge.2.2, (hd.dominates_iff header p).2 hdom'⟩
  rcases hclosed b hb p hback hedge.1 with hseen | hswept
  · exact hstart p ((List.mem_cons.1 hseen).resolve_left hne)
  · exact hswept

/-- **The body of a loop holds the header and the reached blocks that lead to a latch without
passing the header.** -/
theorem mem_bodyOf_iff (hheader : header < g.size) {b : Nat} :
    b ∈ bodyOf g d header latches ↔ b = header ∨ g.toGraph.Reaches entry b ∧
      ∃ u ∈ latches, ∃ π, g.toGraph.Path b u π ∧ header ∉ π := by
  obtain ⟨hstart, hclosed⟩ := swept_closed hco hd hlatches hheader
  rw [mem_bodyOf_iff_swept]
  refine or_congr_right ⟨exists_path_of_swept hco hd hlatches, ?_⟩
  rintro ⟨hb, u, hu, π, hπ, havoid⟩
  -- The blocks of the path are swept one after the other, from the latch back to `b`.
  suffices h : ∀ v, g.toGraph.Path b v π → v ∈ swept g d header latches →
      b ∈ swept g d header latches from
    h u hπ (hstart u hu fun heq ↦ havoid (heq ▸ hπ.target_mem))
  intro v hv hswept
  clear hπ
  induction hv with
  | single _ => exact hswept
  | @snoc v w π hv hedge ih =>
    have hne : v ≠ header := fun heq ↦ havoid (List.mem_append_left _ (heq ▸ hv.target_mem))
    exact ih (fun hmem ↦ havoid (List.mem_append_left _ hmem))
      (hclosed w hswept v hedge (hb.trans hv.reaches) hne)

end Body

/-! ### One loop -/

/-- A loop that is natural in a graph with respect to an entry. -/
structure Natural (g : Graph) (entry : Nat) (l : Loop) : Prop where
  mem_latches_iff : ∀ u, u ∈ l.latches ↔ g.Closes entry l.header u
  mem_backEdges_iff : ∀ u h, (u, h) ∈ l.backEdges ↔ u ∈ l.latches ∧ h = l.header
  nodup_backEdges : l.backEdges.Nodup
  mem_body_iff : ∀ b, b ∈ l.body ↔ b = l.header ∨
    g.Reaches entry b ∧ ∃ u ∈ l.latches, ∃ π, g.Path b u π ∧ l.header ∉ π
  header_dominates : ∀ b ∈ l.body, g.Dominates entry l.header b
  mem_body_of_edge : ∀ b ∈ l.body, b ≠ l.header → ∀ p, g.Edge p b → g.Reaches entry p →
    p ∈ l.body
  mem_exits_iff : ∀ b, b ∈ l.exits ↔ b ∉ l.body ∧ ∃ a ∈ l.body, g.Edge a b

/-- A loop without what nesting adds to it. -/
def bare (l : Loop) : Loop :=
  { l with parent := none, depth := 1, isInnermost := true }

/-- Parent, depth and children say nothing about whether a loop is natural. -/
theorem Natural.of_bare {g : Graph} {l : Loop} (h : l.bare.Natural g entry) : l.Natural g entry :=
  ⟨h.mem_latches_iff, h.mem_backEdges_iff, h.nodup_backEdges, h.mem_body_iff, h.header_dominates,
    h.mem_body_of_edge, h.mem_exits_iff⟩

/-- The exits of a loop are the blocks outside that an edge leads to from inside. -/
theorem mem_exits_ofLatches_iff {id header : Nat} {latches : BlockSet} {b : Nat} :
    b ∈ (ofLatches g d id header latches).exits ↔ b ∉ (ofLatches g d id header latches).body ∧
      ∃ a ∈ (ofLatches g d id header latches).body, g.toGraph.Edge a b := by
  show b ∈ Std.ExtTreeSet.ofList _ _ ↔ b ∉ bodyOf g d header latches ∧
    ∃ a ∈ bodyOf g d header latches, _
  generalize bodyOf g d header latches = body
  simp only [FlowGraph.edge_iff_mem_successors, Std.ExtTreeSet.mem_ofList, List.contains_iff_mem,
    List.mem_map, List.mem_flatMap, List.mem_filter, Std.ExtTreeSet.mem_toList, Bool.not_eq_true',
    ← Bool.not_eq_true, Std.ExtTreeSet.contains_iff_mem]
  constructor
  · rintro ⟨-, ⟨a, ha, s, ⟨hs, hout⟩, rfl⟩, rfl⟩
    exact ⟨hout, a, ha, hs⟩
  · rintro ⟨hout, a, ha, hs⟩
    exact ⟨(a, b), ⟨a, ha, b, ⟨hs, hout⟩, rfl⟩, rfl⟩

/-- **A loop built from the closing edges of its header is natural.** -/
theorem ofLatches_natural {id header : Nat} {latches : BlockSet} (hco : g.toGraph.Coherent)
    (hd : d.Exact g.toGraph entry)
    (hlatches : ∀ u, u ∈ latches ↔ g.toGraph.Closes entry header u)
    (hexists : ∃ u, g.toGraph.Closes entry header u) :
    (ofLatches g d id header latches).Natural g.toGraph entry := by
  obtain ⟨u, -, hedge, hdom⟩ := hexists
  have hbody : ∀ b, b ∈ bodyOf g d header latches ↔ b = header ∨ g.toGraph.Reaches entry b ∧
      ∃ u ∈ latches, ∃ π, g.toGraph.Path b u π ∧ header ∉ π :=
    fun b ↦ mem_bodyOf_iff hco hd hlatches hedge.2.1
  refine
    { mem_latches_iff := hlatches
      mem_backEdges_iff := ?backEdges
      nodup_backEdges := ?nodup
      mem_body_iff := hbody
      header_dominates := ?dominates
      mem_body_of_edge := ?closed
      mem_exits_iff := fun b ↦ mem_exits_ofLatches_iff }
  case backEdges =>
    intro v h
    show (v, h) ∈ latches.toList.map (fun latch ↦ (latch, header)) ↔ v ∈ latches ∧ h = header
    simp only [List.mem_map, Std.ExtTreeSet.mem_toList, Prod.mk.injEq]
    constructor
    · rintro ⟨_, hv, rfl, rfl⟩
      exact ⟨hv, rfl⟩
    · rintro ⟨hv, rfl⟩
      exact ⟨v, hv, rfl, rfl⟩
  case nodup =>
    show (latches.toList.map fun latch ↦ (latch, header)).Pairwise (· ≠ ·)
    rw [List.pairwise_map]
    exact (toList_pairwise_lt latches).imp fun hlt heq ↦
      Nat.ne_of_lt hlt (congrArg Prod.fst heq)
  case dominates =>
    intro b hb
    rcases (hbody b).1 hb with rfl | ⟨hreach, v, hv, π, hπ, havoid⟩
    · exact .refl hdom.reaches_left
    · exact ((hlatches v).1 hv).2.2.of_path hreach hπ havoid
  case closed =>
    -- A predecessor other than the header is one step further away from the same latch.
    intro b hb hne p hp hreach
    obtain ⟨-, v, hv, π, hπ, havoid⟩ := ((hbody b).1 hb).resolve_left hne
    rcases Nat.decEq p header with hph | rfl
    · refine (hbody p).2 (Or.inr ⟨hreach, v, hv, p :: π, hπ.cons hp, fun hmem ↦ ?_⟩)
      rcases List.mem_cons.1 hmem with heq | hrest
      · exact hph heq.symm
      · exact havoid hrest
    · exact (hbody p).2 (Or.inl rfl)

/-! ### Nesting -/

/-- A change of one loop that keeps its blocks keeps the blocks of all. -/
theorem map_bare_modify (loops : List Loop) (position : Nat) (f : Loop → Loop)
    (hf : ∀ l, (f l).bare = l.bare) : (loops.modify position f).map bare = loops.map bare := by
  refine List.ext_getElem? fun k ↦ ?_
  rw [List.getElem?_map, List.getElem?_map, List.getElem?_modify]
  rcases loops[k]? with - | l
  · rfl
  · show some _ = some _
    split
    · rw [hf]
    · rfl

/-- Nesting the loops in any order keeps their blocks. -/
theorem map_bare_foldl_nestOne (order : List Nat) :
    ∀ loops, (order.foldl nestOne loops).map bare = loops.map bare := by
  induction order with
  | nil => exact fun _ ↦ rfl
  | cons position order ih =>
    intro loops
    rw [List.foldl_cons, ih, nestOne]
    exact map_bare_modify loops position _ fun _ ↦ rfl

/-- **Nesting changes nothing else about the loops.** -/
theorem map_bare_nest (loops : List Loop) : (nest loops).map bare = loops.map bare := by
  rw [nest, List.map_map, ← map_bare_foldl_nestOne _ loops]
  generalize List.foldl nestOne loops _ = nested
  show nested.zipIdx.map (fun p ↦ p.1.bare) = _
  rw [← Function.comp_def bare Prod.fst, ← List.map_map, List.zipIdx_map_fst]

/-! ### All loops -/

/-- A list of the natural loops of a graph: one loop for every block that an edge closes a loop at,
sorted by header and numbered by position. -/
structure AllNatural (g : Graph) (entry : Nat) (loops : List Loop) : Prop where
  mem_headers_iff : ∀ h, h ∈ loops.map header ↔ ∃ u, g.Closes entry h u
  sorted : (loops.map header).Pairwise (· < ·)
  id_eq : ∀ (k : Nat) (l : Loop), loops[k]? = some l → l.id = k
  natural : ∀ l ∈ loops, l.Natural g entry

/-- The back edges that close natural loops. -/
def closing (g : FlowGraph) (d : Dominance) : List (Nat × Nat) :=
  (backEdgesOf g).filter fun (latch, header) ↦ d.dominates header latch

/-- The headers of the natural loops. -/
def headers (g : FlowGraph) (d : Dominance) : BlockSet :=
  .ofList ((closing g d).map Prod.snd)

/-- The latches of the natural loop with the given header. -/
def latchesOf (g : FlowGraph) (d : Dominance) (header : Nat) : BlockSet :=
  .ofList (((closing g d).filter (·.2 == header)).map Prod.fst)

/-- The loops that are found are those built from the back edges, one for each header, before they
are nested. -/
theorem map_bare_find (g : FlowGraph) (d : Dominance) : (find g d).map bare =
    (headers g d).toList.zipIdx.map fun (h, id) ↦ ofLatches g d id h (latchesOf g d h) := by
  rw [find, map_bare_nest, List.map_map]
  rfl

/-- There is one loop for each header, by ascending headers. -/
theorem map_header_find (g : FlowGraph) (d : Dominance) :
    (find g d).map header = (headers g d).toList := by
  calc (find g d).map header
      = ((find g d).map bare).map header := by rw [List.map_map]; rfl
    _ = (headers g d).toList.zipIdx.map Prod.fst := by rw [map_bare_find, List.map_map]; rfl
    _ = (headers g d).toList := List.zipIdx_map_fst ..

theorem bare_of_find_getElem? {k : Nat} {l : Loop} (h : (find g d)[k]? = some l) :
    l.header ∈ headers g d ∧ l.bare = ofLatches g d k l.header (latchesOf g d l.header) := by
  have hbare : ((find g d).map bare)[k]? = some l.bare := by rw [List.getElem?_map, h]; rfl
  rw [map_bare_find, List.getElem?_map, List.getElem?_zipIdx] at hbare
  rcases hh : (headers g d).toList[k]? with - | h'
  · rw [hh] at hbare
    exact absurd hbare (by simp)
  · rw [hh, Option.map_some, Option.map_some, Nat.zero_add] at hbare
    have heq : ofLatches g d k h' (latchesOf g d h') = l.bare := Option.some.inj hbare
    obtain rfl : h' = l.header := congrArg header heq
    exact ⟨Std.ExtTreeSet.mem_toList.1 (List.mem_of_getElem? hh), heq.symm⟩

/-- **The loops that are found are the natural loops, and all of them.** -/
theorem find_all_natural (hco : g.toGraph.Coherent) (hentry : g.entry = some entry)
    (hd : d.Exact g.toGraph entry) : AllNatural g.toGraph entry (find g d) := by
  have hclosing : ∀ u h, (u, h) ∈ closing g d ↔ g.toGraph.Closes entry h u :=
    fun u h ↦ mem_closing_iff hentry hd
  have hheaders : ∀ h, h ∈ headers g d ↔ ∃ u, g.toGraph.Closes entry h u := by
    intro h
    simp only [headers, Std.ExtTreeSet.mem_ofList, List.contains_iff_mem, List.mem_map,
      Prod.exists, exists_eq_right, hclosing]
  have hlatches : ∀ h u, u ∈ latchesOf g d h ↔ g.toGraph.Closes entry h u := by
    intro h u
    simp only [latchesOf, Std.ExtTreeSet.mem_ofList, List.contains_iff_mem, List.mem_map,
      List.mem_filter, beq_iff_eq, Prod.exists, exists_and_right, exists_eq_right, hclosing]
  refine ⟨fun h ↦ ?_, ?_, fun k l hl ↦ ?_, fun l hl ↦ ?_⟩
  · rw [map_header_find, Std.ExtTreeSet.mem_toList, hheaders]
  · rw [map_header_find]
    exact toList_pairwise_lt _
  · exact congrArg Loop.id (bare_of_find_getElem? hl).2
  · obtain ⟨k, hk⟩ := List.mem_iff_getElem?.1 hl
    obtain ⟨hmem, hbare⟩ := bare_of_find_getElem? hk
    refine Natural.of_bare ?_
    rw [hbare]
    exact ofLatches_natural hco hd (hlatches l.header) ((hheaders l.header).1 hmem)

/-- **Natural loops are exact and do not depend on the order of the search.** For every routine the
loops found are the natural loops of its graph, each defined by reachability, dominance and paths
alone. -/
theorem loops_exact (r : Routine) : AllNatural (FlowGraph.ofRoutine r).toGraph 0
    (find (FlowGraph.ofRoutine r) (Dominance.compute (FlowGraph.ofRoutine r))) := by
  have hco := FlowGraph.ofRoutine_coherent r
  have hentry := FlowGraph.ofRoutine_entry r
  generalize FlowGraph.ofRoutine r = g at hco hentry
  split at hentry
  · next hsize =>
    -- Without blocks there is nothing to find, and no block to be a header.
    have hnil : find g (Dominance.compute g) = [] := by
      rw [← List.map_eq_nil_iff (f := bare), map_bare_find, headers, closing, backEdgesOf, hentry]
      rfl
    rw [hnil]
    refine ⟨fun h ↦ ⟨fun hh ↦ absurd hh List.not_mem_nil, fun ⟨u, hu, _⟩ ↦ ?_⟩, .nil,
      fun k l hl ↦ absurd hl (by simp), fun l hl ↦ absurd hl List.not_mem_nil⟩
    exact absurd (hsize ▸ hu.lt_size : u < 0) (Nat.not_lt_zero u)
  · next hsize =>
    exact find_all_natural hco hentry
      (Dominance.compute_exact hco hentry (Nat.pos_of_ne_zero hsize))

end Loop

end FlowGauge
