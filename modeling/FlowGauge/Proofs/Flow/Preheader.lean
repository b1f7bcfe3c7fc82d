import FlowGauge.Proofs.Flow.Loops

/-!
# Preheaders

The preheader of a loop is where execution enters the loop from outside. Only reached blocks are
executed, and seen among these a single door is all one could wish for: it dominates the header, and
every path from the entry comes through it when it first meets the loop (`Natural.entered`).

What is reported is the single block outside the body with an edge to the header, reached or not.
When no dead block jumps to the header this is the same. Otherwise a dead block may be reported, or
may hide a live one; the sweep for the body leaves such blocks out, the search for the preheader
does not.
-/

namespace FlowGauge

/-- A path that starts outside a set of nodes stays outside, or there is a first edge into the
set. -/
theorem Graph.Path.outside_or_enters {g : Graph} {u v : Nat} {π : List Nat} (h : g.Path u v π)
    (inside : Nat → Prop) (hu : ¬inside u) : (∀ x ∈ π, ¬inside x) ∨
      ∃ ρ q x σ, π = ρ ++ q :: x :: σ ∧ (∀ y ∈ ρ ++ [q], ¬inside y) ∧ g.Reaches u q ∧
        g.Edge q x ∧ inside x := by
  induction h with
  | single _ => exact Or.inl fun x hx ↦ List.mem_singleton.1 hx ▸ hu
  | @snoc v w π hπ hedge ih =>
    rcases ih with houtside | ⟨ρ, q, x, σ, rfl, houtside, hq, hqx, hx⟩
    · by_cases hw : inside w
      · obtain ⟨ρ, rfl⟩ : ∃ ρ, π = ρ ++ [v] := by
          cases hπ with
          | single _ => exact ⟨[], rfl⟩
          | snoc _ _ => exact ⟨_, rfl⟩
        exact Or.inr ⟨ρ, v, w, [], by simp, houtside, hπ.reaches, hedge, hw⟩
      · refine Or.inl fun x hx ↦ ?_
        rcases List.mem_append.1 hx with hx | hx
        · exact houtside x hx
        · exact List.mem_singleton.1 hx ▸ hw
    · exact Or.inr ⟨ρ, q, x, σ ++ [w], by simp, houtside, hq, hqx, hx⟩

namespace Loop

/-! ### Doors -/

/-- Among the nodes that count, `p` is the only one outside the body with an edge to the header. -/
structure Door (g : Graph) (Counts : Nat → Prop) (l : Loop) (p : Nat) : Prop where
  counts : Counts p
  outside : p ∉ l.body
  edge : g.Edge p l.header
  only : ∀ q, Counts q → q ∉ l.body → g.Edge q l.header → q = p

/-- Every path from the entry to the header goes from `p` to the header when it first meets the
body. -/
def EnteredThrough (g : Graph) (entry : Nat) (l : Loop) (p : Nat) : Prop :=
  ∀ π, g.Path entry l.header π → ∃ ρ σ, π = ρ ++ p :: l.header :: σ ∧ ∀ x ∈ ρ ++ [p], x ∉ l.body

/-- What makes a block the preheader of a loop: it is reached, it dominates the header, and every
path enters the loop through it. -/
structure Entry (g : Graph) (entry : Nat) (l : Loop) (p : Nat) : Prop where
  reached : g.Reaches entry p
  dominates : g.Dominates entry p l.header
  entered : l.EnteredThrough g entry p

variable {g : Graph} {entry p : Nat} {l : Loop}

/-- A reached block with an edge to a header that dominates it lies in the body. -/
theorem Natural.mem_body_of_closes (h : l.Natural g entry) {u : Nat}
    (hu : g.Closes entry l.header u) : u ∈ l.body := by
  by_cases hne : u = l.header
  · exact (h.mem_body_iff u).2 (Or.inl hne)
  · refine (h.mem_body_iff u).2 (Or.inr ⟨hu.1, u, (h.mem_latches_iff u).2 hu, [u],
      .single hu.1.lt_size, fun hmem ↦ hne (List.mem_singleton.1 hmem).symm⟩)

/-- **The single reached door of a natural loop is its entry.** -/
theorem Natural.entered (h : l.Natural g entry) (hp : l.Door g (g.Reaches entry) p) :
    l.Entry g entry p := by
  have hheader : l.header ∈ l.body := (h.mem_body_iff l.header).2 (Or.inl rfl)
  have hentry : entry ∉ l.body := by
    intro hmem
    -- An entry in the body would be the header, which dominates the door: it would be a latch.
    have heq : l.header = entry := (h.header_dominates entry hmem).eq_entry
    have hdom : g.Dominates entry l.header p :=
      ⟨hp.counts, fun π hπ ↦ heq ▸ hπ.source_mem⟩
    exact hp.outside (h.mem_body_of_closes ⟨hp.counts, hp.edge, hdom⟩)
  have hentered : l.EnteredThrough g entry p := by
    intro π hπ
    rcases hπ.outside_or_enters (· ∈ l.body) hentry with
      houtside | ⟨ρ, q, x, σ, rfl, houtside, hq, hedge, hx⟩
    · exact absurd hheader (houtside l.header hπ.target_mem)
    · have hqout : q ∉ l.body := houtside q (by simp)
      obtain rfl : x = l.header := by
        by_contra hne
        exact hqout (h.mem_body_of_edge x hx hne q hedge hq)
      obtain rfl := hp.only q hq hqout hedge
      exact ⟨ρ, σ, rfl, houtside⟩
  refine ⟨hp.counts, ⟨hp.counts.step hp.edge, fun π hπ ↦ ?_⟩, hentered⟩
  obtain ⟨ρ, σ, rfl, -⟩ := hentered π hπ
  simp

/-! ### What is reported -/

theorem preheader_ofLatches_eq_some_iff {g : FlowGraph} {d : Dominance} {id header : Nat}
    {latches : BlockSet} : (ofLatches g d id header latches).preheader = some p ↔
      (g.predecessors header).filter (!(bodyOf g d header latches).contains ·) = [p] := by
  simp only [ofLatches]
  split
  · next q hq => rw [hq, Option.some_inj, List.cons.injEq, and_iff_left rfl]
  · next hnone => exact ⟨fun h ↦ absurd h (by simp), fun h ↦ absurd h (hnone p)⟩

/-- The candidates are the blocks outside the body with an edge to the header. -/
theorem mem_outside_iff {g : FlowGraph} (hco : g.toGraph.Coherent) {header q : Nat}
    {body : BlockSet} : q ∈ (g.predecessors header).filter (!body.contains ·) ↔
      q ∉ body ∧ g.toGraph.Edge q header := by
  have hedge : q ∈ g.predecessors header ↔ g.toGraph.Edge q header := by
    constructor
    · intro hq
      obtain ⟨hlt, b, hb, -⟩ := FlowGraph.mem_predecessors_iff.1 hq
      have hheader : header < g.size := (List.getElem?_eq_some_iff.1 hb).1
      exact ⟨hlt, hheader, (hco q header hlt hheader).2 hq⟩
    · exact fun hq ↦ (hco q header hq.1 hq.2.1).1 hq.2.2
  rw [List.mem_filter, hedge, and_comm, Bool.not_eq_true', ← Bool.not_eq_true,
    Std.ExtTreeSet.contains_iff_mem]

theorem outside_nodup (g : FlowGraph) (header : Nat) (body : BlockSet) :
    ((g.predecessors header).filter (!body.contains ·)).Nodup := by
  rw [FlowGraph.predecessors]
  rcases g.block? header with - | b
  · exact List.nodup_nil
  · exact (((toList_pairwise_lt _).filter _).filter _).imp fun hlt ↦ Nat.ne_of_lt hlt

/-- **The reported preheader is the single door among all blocks, dead ones included.** -/
theorem preheader_eq_some_iff {g : FlowGraph} {d : Dominance} (hco : g.toGraph.Coherent)
    (hl : l ∈ find g d) : l.preheader = some p ↔ l.Door g.toGraph (fun _ ↦ True) p := by
  obtain ⟨k, hk⟩ := List.mem_iff_getElem?.1 hl
  have hbare := (bare_of_find_getElem? hk).2
  have hbody : l.body = bodyOf g d l.header (latchesOf g d l.header) := congrArg Loop.body hbare
  have hpreheader := congrArg Loop.preheader hbare
  have hsingle : l.preheader = some p ↔
      (g.predecessors l.header).filter (!l.body.contains ·) = [p] := by
    rw [hbody]
    exact hpreheader ▸ preheader_ofLatches_eq_some_iff
  rw [hsingle, ← List.perm_singleton,
    List.perm_ext_iff_of_nodup (outside_nodup g l.header l.body) (List.nodup_singleton p)]
  simp only [mem_outside_iff hco, List.mem_singleton]
  constructor
  · intro hall
    obtain ⟨hout, hedge⟩ := (hall p).2 rfl
    exact ⟨trivial, hout, hedge, fun q _ hq hqedge ↦ (hall q).1 ⟨hq, hqedge⟩⟩
  · intro hdoor q
    refine ⟨fun hq ↦ hdoor.only q trivial hq.1 hq.2, ?_⟩
    rintro rfl
    exact ⟨hdoor.outside, hdoor.edge⟩

/-- **A preheader is a single door, and a live one is the entry of its loop.** For every loop found
in a routine, a block is reported as preheader exactly if it is the only block outside the body with
an edge to the header, reached or not. If it is reached, it is the only reached such block, it
dominates the header, and every path from the entry enters the loop through it. If no dead block
jumps to the header, a block is reported exactly if it is the only reached such block, and then it
is reached. -/
theorem preheader_exact (r : Routine) (l : Loop)
    (hl : l ∈ find (FlowGraph.ofRoutine r) (Dominance.compute (FlowGraph.ofRoutine r))) (p : Nat) :
    let g := (FlowGraph.ofRoutine r).toGraph
    (l.preheader = some p ↔ l.Door g (fun _ ↦ True) p) ∧
      (l.preheader = some p → g.Reaches 0 p → l.Door g (g.Reaches 0) p ∧ l.Entry g 0 p) ∧
      ((∀ q, g.Edge q l.header → g.Reaches 0 q) →
        (l.preheader = some p ↔ l.Door g (g.Reaches 0) p) ∧
          (l.preheader = some p → l.Entry g 0 p)) := by
  intro g
  have hnatural : l.Natural g 0 := (loops_exact r).natural l hl
  have hreported : l.preheader = some p ↔ l.Door g (fun _ ↦ True) p :=
    preheader_eq_some_iff (FlowGraph.ofRoutine_coherent r) hl
  have hlive : l.preheader = some p → g.Reaches 0 p → l.Door g (g.Reaches 0) p := by
    intro hp hreach
    have hdoor := hreported.1 hp
    exact ⟨hreach, hdoor.outside, hdoor.edge, fun q _ ↦ hdoor.only q trivial⟩
  refine ⟨hreported, fun hp hreach ↦ ⟨hlive hp hreach, hnatural.entered (hlive hp hreach)⟩, ?_⟩
  intro hall
  have hiff : l.preheader = some p ↔ l.Door g (g.Reaches 0) p := by
    refine ⟨fun hp ↦ hlive hp (hall p (hreported.1 hp).edge), fun hdoor ↦ hreported.2 ?_⟩
    exact ⟨trivial, hdoor.outside, hdoor.edge, fun q _ hq hedge ↦
      hdoor.only q (hall q hedge) hq hedge⟩
  exact ⟨hiff, fun hp ↦ hnatural.entered (hiff.1 hp)⟩

/-- A loop behind a first instruction. -/
def guarded : Routine where
  name := "guarded"
  instructions := [⟨0, .nop, [], none, none, none⟩, ⟨1, .label, [.label "top"], none, none, none⟩,
    ⟨2, .branchIfTrue, [.temp 0, .label "top"], none, none, none⟩,
    ⟨3, .ret, [], none, none, none⟩]

theorem preheader_exact_guarded :
    ∃ l ∈ find (FlowGraph.ofRoutine guarded) (Dominance.compute (FlowGraph.ofRoutine guarded)),
      l.preheader = some 0 ∧ (FlowGraph.ofRoutine guarded).toGraph.Reaches 0 0 ∧
        l.Entry (FlowGraph.ofRoutine guarded).toGraph 0 0 := by
  have hsize : 0 < (FlowGraph.ofRoutine guarded).size := by decide +kernel
  obtain ⟨l, hl, hp⟩ : ∃ l ∈ find (FlowGraph.ofRoutine guarded)
      (Dominance.compute (FlowGraph.ofRoutine guarded)), l.preheader = some 0 := by
    decide +kernel
  have hreach : (FlowGraph.ofRoutine guarded).toGraph.Reaches 0 0 := .refl hsize
  exact ⟨l, hl, hp, hreach, ((preheader_exact guarded l hl 0).2.1 hp hreach).2⟩

/-- A loop at the entry, a return, and dead code that jumps to the loop. -/
def deadDoor : Routine where
  name := "door"
  instructions := [⟨0, .label, [.label "top"], none, none, none⟩,
    ⟨1, .branchIfTrue, [.temp 0, .label "top"], none, none, none⟩,
    ⟨2, .ret, [], none, none, none⟩, ⟨3, .branch, [.label "top"], none, none, none⟩]

/-- **A dead block that jumps to a header is reported as preheader.** No reached block outside the
body has an edge to the header. -/
theorem preheader_may_be_dead :
    ∃ l ∈ find (FlowGraph.ofRoutine deadDoor) (Dominance.compute (FlowGraph.ofRoutine deadDoor)),
      l.preheader = some 2 ∧ ¬(FlowGraph.ofRoutine deadDoor).toGraph.Reaches 0 2 ∧
        ¬(FlowGraph.ofRoutine deadDoor).toGraph.Dominates 0 2 l.header ∧
          ∀ p, ¬l.Door (FlowGraph.ofRoutine deadDoor).toGraph
            ((FlowGraph.ofRoutine deadDoor).toGraph.Reaches 0) p := by
  obtain ⟨l, hl, hp⟩ : ∃ l ∈ find (FlowGraph.ofRoutine deadDoor)
      (Dominance.compute (FlowGraph.ofRoutine deadDoor)), l.preheader = some 2 := by
    decide +kernel
  have hdead : ¬(FlowGraph.ofRoutine deadDoor).toGraph.Reaches 0 2 := fun h ↦
    absurd (Graph.mem_reversePostorder_iff.2 h) (by decide +kernel)
  have hdoor : l.Door (FlowGraph.ofRoutine deadDoor).toGraph (fun _ ↦ True) 2 :=
    (preheader_eq_some_iff (FlowGraph.ofRoutine_coherent deadDoor) hl).1 hp
  refine ⟨l, hl, hp, hdead, fun hdom ↦ hdead hdom.reaches_left, fun p h ↦ ?_⟩
  exact hdead (hdoor.only p trivial h.outside h.edge ▸ h.counts)

end Loop

end FlowGauge
