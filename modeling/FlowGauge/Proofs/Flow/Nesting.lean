import FlowGauge.Proofs.Flow.Laminar

/-!
# Loops form a forest

Nesting treats the loops once, from the largest body to the smallest, and reads the depths of the
loops around a header before it sets one. Since the loops around a header are larger, they have been
set before, and what is set at a position is not changed by what comes later (`foldl_nestOne_sets`).
The depth, one more than the greatest depth around, then is one more than the number of loops around
(`Nested.depth_eq_length_around`), and the parent is the smallest of them.

## Depths as counts

Nesting is asked to produce what can be counted without it: the depth of a loop is the number of
loops that contain its header, the depth at a block the number of loops that contain the block
(`Forest`). Neither mentions the order in which the loops were treated.

Two loops of one size are never around each other, so it does not matter which of them is treated
first. A loop is innermost when the body of no other one lies in its own; the definition looks for
headers, and the two agree because a loop whose header lies inside lies inside as a whole.
-/

namespace FlowGauge

namespace Loop

/-! ### What nesting sets -/

section Nest

variable {loops nested : List Loop} {p o : Nat} {l : Loop}

/-- What is read of the other loops is their headers and bodies. -/
theorem reads_map (f : Loop → Loop) (hheader : ∀ l, (f l).header = l.header)
    (hbody : ∀ l, (f l).body = l.body) (loops : List Loop) :
    around (loops.map f) = around loops ∧ sizeAt (loops.map f) = sizeAt loops ∧
      smallest? (loops.map f) = smallest? loops := by
  have hsize : sizeAt (loops.map f) = sizeAt loops := by
    funext k
    rw [sizeAt, sizeAt, List.getElem?_map, Option.map_map]
    simp only [Function.comp_def, hbody]
  have hsmaller : smaller (loops.map f) = smaller loops := by
    funext a b
    show (if sizeAt (loops.map f) b < sizeAt (loops.map f) a ∨
      sizeAt (loops.map f) b = sizeAt (loops.map f) a ∧ b < a then b else a) = _
    rw [hsize]
    rfl
  refine ⟨funext fun p ↦ ?_, hsize, funext fun positions ↦ ?_⟩
  · rw [around, around, List.getElem?_map, List.length_map]
    rcases loops[p]? with - | l
    · rfl
    · simp only [List.getElem?_map, Option.any_map, Option.map_some, hheader, hbody]
  · cases positions with
    | nil => rfl
    | cons first rest => rw [smallest?, hsmaller, smallest?]

/-- What is read of the other loops does not depend on what is set. -/
theorem reads_congr (h : nested.map bare = loops.map bare) : around nested = around loops ∧
    sizeAt nested = sizeAt loops ∧ smallest? nested = smallest? loops := by
  obtain ⟨haround, hsize, hsmallest⟩ := reads_map bare (fun _ ↦ rfl) (fun _ ↦ rfl) nested
  rw [← haround, ← hsize, ← hsmallest, h]
  exact reads_map bare (fun _ ↦ rfl) (fun _ ↦ rfl) loops

/-- The loop at a position is set from the loops around it. -/
structure SetAt (nested : List Loop) (p : Nat) (l : Loop) : Prop where
  parent_eq : l.parent = smallest? nested (around nested p)
  depth_eq : l.depth =
    1 + ((around nested p).filterMap fun o ↦ nested[o]?.map Loop.depth).foldl max 0

/-- Nesting one loop changes that loop and no other. -/
theorem nestOne_getElem? (loops : List Loop) (p k : Nat) : (nestOne loops p)[k]? =
    if p = k then loops[p]?.map fun l ↦ { l with
      depth := 1 + ((around loops p).filterMap fun o ↦ loops[o]?.map Loop.depth).foldl max 0
      parent := smallest? loops (around loops p) }
    else loops[k]? := by
  rw [nestOne, List.getElem?_modify]
  split
  · next hpk =>
    subst hpk
    simp only [smallest?]
    rfl
  · simp

/-- Only the listed positions are set. -/
theorem foldl_nestOne_getElem? {order : List Nat} (h : p ∉ order) :
    ∀ loops, (order.foldl nestOne loops)[p]? = loops[p]? := by
  induction order with
  | nil => exact fun _ ↦ rfl
  | cons q order ih =>
    intro loops
    obtain ⟨hne, hrest⟩ := not_or.1 (mt List.mem_cons.2 h)
    rw [List.foldl_cons, ih hrest, nestOne_getElem?, if_neg (Ne.symm hne)]

/-- **Every listed position is set from the final loops around it**, when no loop is listed behind
one that it lies around. -/
theorem foldl_nestOne_sets {order : List Nat} :
    ∀ loops, order.Pairwise (fun a b ↦ a ≠ b ∧ b ∉ around loops a) → ∀ p ∈ order, ∀ l,
      (order.foldl nestOne loops)[p]? = some l → SetAt (order.foldl nestOne loops) p l := by
  induction order with
  | nil => exact fun _ _ p hp ↦ absurd hp List.not_mem_nil
  | cons q order ih =>
    intro loops horder p hp l hl
    obtain ⟨hq, hrest⟩ := List.pairwise_cons.1 horder
    have hstep : around (nestOne loops q) = around loops :=
      (reads_congr (map_bare_foldl_nestOne [q] loops)).1
    rw [List.foldl_cons] at hl ⊢
    rcases List.mem_cons.1 hp with rfl | hp
    · -- From here on neither this position nor one around it is set.
      obtain ⟨haround, -, hsmallest⟩ := reads_congr (map_bare_foldl_nestOne (p :: order) loops)
      rw [List.foldl_cons] at haround hsmallest
      have hkept : ∀ o ∈ around loops p, (order.foldl nestOne (nestOne loops p))[o]? =
          loops[o]? := by
        intro o ho
        obtain ⟨-, -, -, -, hne, -⟩ := exists_of_mem_around ho
        rw [foldl_nestOne_getElem? fun hmem ↦ (hq o hmem).2 ho, nestOne_getElem?,
          if_neg (Ne.symm hne)]
      rw [foldl_nestOne_getElem? (fun hmem ↦ (hq p hmem).1 rfl), nestOne_getElem?, if_pos rfl] at hl
      obtain ⟨l₀, -, rfl⟩ := Option.map_eq_some_iff.1 hl
      refine ⟨?_, congrArg (fun depths ↦ 1 + List.foldl max 0 depths) ?_⟩
      · rw [haround, hsmallest]
      · rw [haround]
        exact List.filterMap_congr fun o ho ↦ by rw [hkept o ho]
    · exact ih (nestOne loops q) (hstep ▸ hrest) p hp l hl

/-- The order in which loops are treated. -/
def nestOrder (loops : List Loop) : List Nat :=
  (List.range loops.length).mergeSort fun a b ↦
    sizeAt loops b < sizeAt loops a || (sizeAt loops a == sizeAt loops b && a ≤ b)

/-- Every loop is nested, once. -/
theorem mem_nestOrder_iff : p ∈ nestOrder loops ↔ p < loops.length := by
  rw [nestOrder, (List.mergeSort_perm _ _).mem_iff, List.mem_range]

/-- No loop is treated before one that lies around it. -/
theorem nestOrder_pairwise (h : ∀ p, ∀ o ∈ around loops p, sizeAt loops p < sizeAt loops o) :
    (nestOrder loops).Pairwise fun a b ↦ a ≠ b ∧ b ∉ around loops a := by
  have hsorted : (nestOrder loops).Pairwise fun a b ↦ (decide (sizeAt loops b < sizeAt loops a) ||
      (sizeAt loops a == sizeAt loops b && decide (a ≤ b))) = true := by
    refine List.pairwise_mergeSort ?_ ?_ _
    · simp only [Bool.or_eq_true, Bool.and_eq_true, decide_eq_true_eq, beq_iff_eq]
      omega
    · simp only [Bool.or_eq_true, Bool.and_eq_true, decide_eq_true_eq, beq_iff_eq]
      omega
  have hnodup : (nestOrder loops).Nodup :=
    (List.mergeSort_perm _ _).nodup_iff.2 List.nodup_range
  refine hnodup.imp₂ (fun a b hne hle ↦ ⟨hne, fun hmem ↦ ?_⟩) hsorted
  have hlt := h a b hmem
  simp only [Bool.or_eq_true, Bool.and_eq_true, decide_eq_true_eq, beq_iff_eq] at hle
  omega

/-- The loops with depths and parents set. -/
def settled (loops : List Loop) : List Loop :=
  (nestOrder loops).foldl nestOne loops

/-- Whether no other header lies in the body of a loop at a position. -/
def innermostAt (loops : List Loop) (p : Nat) (l : Loop) : Bool :=
  !loops.zipIdx.any fun (other, k) ↦ k ≠ p && l.body.contains other.header

theorem nest_getElem? (loops : List Loop) (p : Nat) : (nest loops)[p]? =
    (settled loops)[p]?.map fun l ↦ { l with isInnermost := innermostAt (settled loops) p l } := by
  show ((settled loops).zipIdx.map fun (l, p) ↦
    { l with isInnermost := innermostAt (settled loops) p l })[p]? = _
  rw [List.getElem?_map, List.getElem?_zipIdx, Option.map_map]
  simp only [Function.comp_def, Nat.zero_add]

theorem map_bare_settled (loops : List Loop) : (nest loops).map bare = (settled loops).map bare :=
  (map_bare_nest loops).trans (map_bare_foldl_nestOne _ loops).symm

/-- **Nesting sets every loop from the loops around it.** -/
theorem nest_sets (h : Laminar (nest loops)) (hl : (nest loops)[p]? = some l) :
    SetAt (nest loops) p l := by
  have horder : (nestOrder loops).Pairwise fun a b ↦ a ≠ b ∧ b ∉ around loops a := by
    obtain ⟨haround, hsize, -⟩ := reads_congr (map_bare_nest loops)
    refine nestOrder_pairwise fun p o ho ↦ ?_
    rw [← haround] at ho
    exact hsize ▸ h.sizeAt_lt ho
  obtain ⟨haround, -, hsmallest⟩ := reads_congr (map_bare_settled loops)
  have hdepths : ∀ o : Nat, (nest loops)[o]?.map depth = (settled loops)[o]?.map depth := by
    intro o
    rw [nest_getElem?, Option.map_map]
    rfl
  rw [nest_getElem?] at hl
  obtain ⟨l', hl', rfl⟩ := Option.map_eq_some_iff.1 hl
  have hp : p ∈ nestOrder loops := by
    have hlength := congrArg List.length (map_bare_foldl_nestOne (nestOrder loops) loops)
    rw [List.length_map, List.length_map] at hlength
    exact mem_nestOrder_iff.2 (hlength ▸ (List.getElem?_eq_some_iff.1 hl').1)
  obtain ⟨hparent, hdepth⟩ := foldl_nestOne_sets loops horder p hp l' hl'
  exact ⟨by rw [haround, hsmallest]; exact hparent, by simp only [haround, hdepths]; exact hdepth⟩

/-- A loop is innermost when no other header lies in its body. -/
theorem innermostAt_iff : innermostAt loops p l = true ↔
    ∀ (o : Nat) (m : Loop), loops[o]? = some m → o ≠ p → m.header ∉ l.body := by
  rw [innermostAt, Bool.not_eq_true', List.any_eq_false]
  simp only [Prod.forall, List.mem_zipIdx_iff_getElem?, Bool.and_eq_true, decide_eq_true_eq,
    Std.ExtTreeSet.contains_iff_mem, not_and]
  exact forall_comm

/-- A loop is marked when no other header lies in its body. -/
theorem nest_isInnermost_iff (hl : (nest loops)[p]? = some l) : l.isInnermost = true ↔
    ∀ (o : Nat) (m : Loop), (nest loops)[o]? = some m → o ≠ p → m.header ∉ l.body := by
  rw [nest_getElem?] at hl
  obtain ⟨l', -, rfl⟩ := Option.map_eq_some_iff.1 hl
  show innermostAt (settled loops) p l' = true ↔ _
  rw [innermostAt_iff]
  constructor
  · intro h o m hm hne
    rw [nest_getElem?] at hm
    obtain ⟨m', hm', rfl⟩ := Option.map_eq_some_iff.1 hm
    exact h o m' hm' hne
  · intro h o m hm hne
    have hat : (nest loops)[o]? =
        some { m with isInnermost := innermostAt (settled loops) o m } := by
      rw [nest_getElem?, hm]
      rfl
    have hout := h o _ hat hne
    exact hout

end Nest

/-! ### The forest -/

/-- Loops as nesting leaves them. -/
structure Nested (loops : List Loop) : Prop where
  laminar : Laminar loops
  id_eq : ∀ (k : Nat) (l : Loop), loops[k]? = some l → l.id = k
  sets : ∀ (p : Nat) (l : Loop), loops[p]? = some l → SetAt loops p l
  isInnermost_iff : ∀ (p : Nat) (l : Loop), loops[p]? = some l → (l.isInnermost = true ↔
    ∀ (o : Nat) (m : Loop), loops[o]? = some m → o ≠ p → m.header ∉ l.body)

/-- Loops that are nested like a forest, with their depths as counts. -/
structure Forest (loops : List Loop) : Prop where
  id_eq : ∀ (k : Nat) (l : Loop), loops[k]? = some l → l.id = k
  disjoint_or_within : loops.Pairwise fun l m ↦
    (∀ b ∈ l.body, b ∉ m.body) ∨ l.Within m ∨ m.Within l
  depth_eq : ∀ l ∈ loops, l.depth = loops.countP (·.body.contains l.header)
  parent_eq_none_iff : ∀ l ∈ loops, l.parent = none ↔ l.depth = 1
  /-- The parent is the one smallest other loop around the header. -/
  parent_eq_some : ∀ l ∈ loops, ∀ id, l.parent = some id → ∃ m ∈ loops, m.id = id ∧ m ≠ l ∧
    l.header ∈ m.body ∧ l.Within m ∧ m.depth + 1 = l.depth ∧
      ∀ k ∈ loops, k ≠ l → k ≠ m → l.header ∈ k.body → m.body.size < k.body.size
  isInnermost_iff : ∀ l ∈ loops, l.isInnermost = true ↔
    ∀ m ∈ loops, m ≠ l → ¬∀ b ∈ m.body, b ∈ l.body
  depthAt_eq : ∀ b, depthAt loops b = loops.countP (·.body.contains b)

namespace Nested

variable {loops : List Loop} {p o : Nat} {l m : Loop} (h : Nested loops)

include h

/-- Loops are told apart by their positions. -/
theorem ne_iff (hl : loops[p]? = some l) (hm : loops[o]? = some m) : m ≠ l ↔ o ≠ p := by
  refine not_congr ⟨fun heq ↦ ?_, fun heq ↦ ?_⟩
  · rw [← h.id_eq p l hl, ← h.id_eq o m hm, heq]
  · exact Option.some.inj (hm.symm.trans (heq ▸ hl))

/-- Two loops are disjoint, or one lies strictly within the other. -/
theorem within_or_disjoint (hl : loops[p]? = some l) (hm : loops[o]? = some m) (hne : o ≠ p) :
    (∀ b ∈ l.body, b ∉ m.body) ∨ l.Within m ∨ m.Within l := by
  by_cases hshare : ∃ b ∈ l.body, b ∈ m.body
  · obtain ⟨b, hbl, hbm⟩ := hshare
    have hp := mem_inside_iff.2 ⟨l, hl, hbl⟩
    have ho := mem_inside_iff.2 ⟨m, hm, hbm⟩
    rcases h.laminar.mem_around_or ho hp hne with hmem | hmem
    · exact Or.inr (Or.inl (h.laminar.within_of_mem_around hmem hl hm))
    · exact Or.inr (Or.inr (h.laminar.within_of_mem_around hmem hm hl))
  · exact Or.inl fun b hbl hbm ↦ hshare ⟨b, hbl, hbm⟩

/-- **The depth of a loop is one more than the number of loops around it.** -/
theorem depth_eq_length_around (hl : loops[p]? = some l) :
    l.depth = (around loops p).length + 1 := by
  -- By induction on the number of loops around, which is smaller for each of them.
  induction hn : (around loops p).length using Nat.strong_induction_on generalizing p l with
  | h n ih =>
    have hchain := h.laminar.chain_around p
    have hdepths : ∀ d, d ∈ ((around loops p).filterMap fun o ↦ loops[o]?.map depth) ↔
        ∃ o ∈ around loops p, d = (around loops o).length + 1 := by
      intro d
      rw [List.mem_filterMap]
      refine exists_congr fun o ↦ and_congr_right fun ho ↦ ?_
      obtain ⟨-, m, -, hm, -, -⟩ := exists_of_mem_around ho
      rw [hm, Option.map_some, ih _ (hn ▸ hchain.length_around_lt ho) hm rfl, Option.some.injEq,
        eq_comm]
    rw [(h.sets p l hl).depth_eq, hchain.max_depth h.laminar hdepths, hn, Nat.add_comm]

/-- The loops that contain a header are those around its loop, and the loop itself. -/
theorem length_inside_header (hl : loops[p]? = some l) :
    (inside loops l.header).length = (around loops p).length + 1 := by
  have hself : p ∈ inside loops l.header :=
    mem_inside_iff.2 ⟨l, hl, h.laminar.header_mem l (List.mem_of_getElem? hl)⟩
  have hperm : (inside loops l.header).Perm (p :: around loops p) := by
    refine (List.perm_ext_iff_of_nodup (nodup_inside _ _) (List.nodup_cons.2
      ⟨fun hmem ↦ ((mem_around_iff hl).1 hmem).1 rfl, nodup_around loops p⟩)).2 fun x ↦ ?_
    rw [List.mem_cons, mem_around_iff hl]
    by_cases hx : x = p
    · simp [hx, hself]
    · simp [hx]
  exact hperm.length_eq

/-- **The depth at a block is the number of loops that contain it.** -/
theorem depthAt_eq_length_inside (b : Nat) : depthAt loops b = (inside loops b).length := by
  refine (h.laminar.chain_inside b).max_depth h.laminar fun d ↦ ?_
  simp only [List.mem_map, List.mem_filter, Std.ExtTreeSet.contains_iff_mem, mem_inside_iff]
  constructor
  · rintro ⟨l, ⟨hl, hb⟩, rfl⟩
    obtain ⟨p, hp⟩ := List.mem_iff_getElem?.1 hl
    exact ⟨p, ⟨l, hp, hb⟩, h.depth_eq_length_around hp⟩
  · rintro ⟨p, ⟨l, hp, hb⟩, rfl⟩
    exact ⟨l, ⟨List.mem_of_getElem? hp, hb⟩, h.depth_eq_length_around hp⟩

/-- **The parent is the next larger loop around**, one level up. -/
theorem parent_spec {q : Nat} (hl : loops[p]? = some l) (hparent : l.parent = some q) :
    ∃ m, loops[q]? = some m ∧ q ∈ around loops p ∧ m.depth + 1 = l.depth ∧
      ∀ x ∈ around loops p, x = q ∨ x ∈ around loops q := by
  have hsmallest : smallest? loops (around loops p) = some q :=
    (h.sets p l hl).parent_eq.symm.trans hparent
  have hq := (smallest?_spec hsmallest).1
  have hchain := h.laminar.chain_around p
  obtain ⟨-, m, -, hm, -, -⟩ := exists_of_mem_around hq
  refine ⟨m, hm, hq, ?_, fun x hx ↦ (hchain.mem_iff_of_smallest h.laminar hsmallest).1 hx⟩
  rw [h.depth_eq_length_around hm, h.depth_eq_length_around hl,
    hchain.length_eq_of_smallest h.laminar hsmallest]

/-- **Nested loops are a forest.** -/
theorem forest : Forest loops where
  id_eq := h.id_eq
  disjoint_or_within := by
    rw [List.pairwise_iff_getElem]
    intro p o hp ho hlt
    exact h.within_or_disjoint (List.getElem?_eq_getElem hp) (List.getElem?_eq_getElem ho)
      (Nat.ne_of_gt hlt)
  depth_eq l hl := by
    obtain ⟨p, hp⟩ := List.mem_iff_getElem?.1 hl
    rw [h.depth_eq_length_around hp, ← h.length_inside_header hp, length_inside]
  parent_eq_none_iff l hl := by
    obtain ⟨p, hp⟩ := List.mem_iff_getElem?.1 hl
    rw [(h.sets p l hp).parent_eq, smallest?_eq_none_iff, h.depth_eq_length_around hp,
      ← List.length_eq_zero_iff]
    omega
  parent_eq_some l hl q hparent := by
    obtain ⟨p, hp⟩ := List.mem_iff_getElem?.1 hl
    obtain ⟨m, hm, hq, hdepth, hothers⟩ := h.parent_spec hp hparent
    obtain ⟨hne, hinside⟩ := (mem_around_iff hp).1 hq
    have hwithin := h.laminar.within_of_mem_around hq hp hm
    refine ⟨m, List.mem_of_getElem? hm, h.id_eq q m hm, (h.ne_iff hp hm).2 hne,
      hwithin.1 _ (h.laminar.header_mem l hl), hwithin, hdepth, fun k hk hkl hkm hheader ↦ ?_⟩
    obtain ⟨x, hx⟩ := List.mem_iff_getElem?.1 hk
    have haround : x ∈ around loops p :=
      (mem_around_iff hp).2 ⟨(h.ne_iff hp hx).1 hkl, mem_inside_iff.2 ⟨k, hx, hheader⟩⟩
    have houter := (hothers x haround).resolve_left ((h.ne_iff hm hx).1 hkm)
    exact size_lt_of_within (h.laminar.within_of_mem_around houter hm hx)
  isInnermost_iff l hl := by
    obtain ⟨p, hp⟩ := List.mem_iff_getElem?.1 hl
    rw [h.isInnermost_iff p l hp]
    constructor
    · intro hnone m hm hne hsub
      obtain ⟨o, ho⟩ := List.mem_iff_getElem?.1 hm
      exact hnone o m ho ((h.ne_iff hp ho).1 hne) (hsub _ (h.laminar.header_mem m hm))
    · intro hnone o m ho hne hheader
      have hmem : p ∈ around loops o :=
        (mem_around_iff ho).2 ⟨Ne.symm hne, mem_inside_iff.2 ⟨l, hp, hheader⟩⟩
      exact hnone m (List.mem_of_getElem? ho) ((h.ne_iff hp ho).2 hne)
        (h.laminar.within_of_mem_around hmem ho hp).1
  depthAt_eq b := by rw [h.depthAt_eq_length_inside, length_inside]

end Nested

/-- **The loops of a routine are a forest.** -/
theorem find_forest (r : Routine) : Forest
    (find (FlowGraph.ofRoutine r) (Dominance.compute (FlowGraph.ofRoutine r))) := by
  have hco := FlowGraph.ofRoutine_coherent r
  have hentry := FlowGraph.ofRoutine_entry r
  generalize FlowGraph.ofRoutine r = g at hco hentry
  split at hentry
  · have hnil : find g (Dominance.compute g) = [] := by
      rw [← List.map_eq_nil_iff (f := bare), map_bare_find, headers, closing, backEdgesOf, hentry]
      rfl
    rw [hnil]
    exact ⟨by simp, .nil, by simp, by simp, by simp, by simp, fun _ ↦ rfl⟩
  · next hsize =>
    have hnatural := find_all_natural hco hentry
      (Dominance.compute_exact hco hentry (Nat.pos_of_ne_zero hsize))
    have hnested : Nested (find g (Dominance.compute g)) :=
      { laminar := hnatural.laminar
        id_eq := hnatural.id_eq
        sets := fun p l hl ↦ nest_sets hnatural.laminar hl
        isInnermost_iff := fun p l hl ↦ nest_isInnermost_iff hl }
    exact hnested.forest

end Loop

end FlowGauge
