import FlowGauge.Proofs.Flow.Loops

/-!
# Natural loops are nested or disjoint

A loop whose header lies in the body of another lies in it as a whole, strictly, because the outer
header dominates the inner one (`Natural.body_subset`). Of two loops that share a block one has its
header in the other, because the dominators of the shared block are linearly ordered
(`Natural.header_mem_of_dominates`). Neither needs the graph to be reducible. The two facts are
collected in `Laminar`.

From there on only positions matter. The loops around a position, and those that contain a block,
are a chain (`Chain`): each lies in the next larger one. The smallest of a chain has all the others
around it, so that the greatest number of loops around a member tells the length of the chain
(`Chain.max_depth`).

Everything about positions is stated for lists of loops, with headers that are told apart and bodies
that are laminar, and without a graph. So it can be used before and after nesting, which changes
depths and parents but no body.
-/

namespace FlowGauge

namespace Loop

/-! ### Bodies of natural loops -/

/-- The body of a loop lies strictly within the body of another. -/
def Within (l m : Loop) : Prop :=
  (∀ b ∈ l.body, b ∈ m.body) ∧ ∃ b ∈ m.body, b ∉ l.body

section Bodies

variable {g : Graph} {entry : Nat} {l m : Loop} {b : Nat}

/-- A header belongs to its loop. -/
theorem Natural.header_mem (h : l.Natural g entry) : l.header ∈ l.body :=
  (h.mem_body_iff l.header).2 (Or.inl rfl)

/-- The header of a loop around another does not lie in the inner one. -/
theorem Natural.header_notMem (hl : l.Natural g entry) (hm : m.Natural g entry)
    (hne : l.header ≠ m.header) (hmem : l.header ∈ m.body) : m.header ∉ l.body := fun h ↦
  hne ((hl.header_dominates _ h).antisymm (hm.header_dominates _ hmem))

/-- **A loop whose header lies in the body of another lies in it as a whole.** From a block of the
inner loop control goes to its header and from there to a latch of the outer loop; the outer header
is not on the way, for it is not dominated by the inner one. -/
theorem Natural.body_subset (hl : l.Natural g entry) (hm : m.Natural g entry)
    (hne : l.header ≠ m.header) (hmem : l.header ∈ m.body) : ∀ b ∈ l.body, b ∈ m.body := by
  intro b hb
  have houter := hm.header_dominates _ hmem
  rcases (hl.mem_body_iff b).1 hb with rfl | ⟨hreach, u, hu, π, hπ, havoid⟩
  · exact hmem
  · obtain ⟨-, hedge, hdom⟩ := (hl.mem_latches_iff u).1 hu
    obtain ⟨-, v, hv, ρ, hρ, havoid'⟩ := ((hm.mem_body_iff _).1 hmem).resolve_left hne
    have hfree : m.header ∉ π := by
      intro h
      obtain ⟨π₁, π₂, rfl, -, hπ₂⟩ := hπ.exists_split h
      have hinner := hdom.of_path houter.reaches_left hπ₂ fun h ↦
        havoid (List.mem_append_right π₁ h)
      exact hne (hinner.antisymm houter)
    obtain ⟨σ, hσ, hsub⟩ := (hπ.snoc hedge).exists_append hρ
    refine (hm.mem_body_iff b).2 (Or.inr ⟨hreach, v, hv, σ, hσ, fun h ↦ ?_⟩)
    rcases hsub _ h with h | h
    · rcases List.mem_append.1 h with h | h
      · exact hfree h
      · exact hne (List.mem_singleton.1 h).symm
    · exact havoid' h

/-- **The lower of two headers lies in the upper loop when the loops share a block.** From the lower
header the shared block is reached without going back to the upper one, and from there a latch. -/
theorem Natural.header_mem_of_dominates (hl : l.Natural g entry) (hm : m.Natural g entry)
    (hdom : g.Dominates entry l.header m.header) (hbl : b ∈ l.body) (hbm : b ∈ m.body) :
    m.header ∈ l.body := by
  by_cases hne : l.header = m.header
  · exact hne ▸ hl.header_mem
  · obtain ⟨π, hπ, havoid⟩ := hdom.exists_path_avoiding hne (hm.header_dominates b hbm)
    have hb : b ≠ l.header := fun heq ↦ havoid (heq ▸ hπ.target_mem)
    obtain ⟨-, u, hu, ρ, hρ, havoid'⟩ := ((hl.mem_body_iff b).1 hbl).resolve_left hb
    obtain ⟨σ, hσ, hsub⟩ := hπ.exists_append hρ
    exact (hl.mem_body_iff _).2 (Or.inr ⟨hdom.1, u, hu, σ, hσ, fun h ↦
      (hsub _ h).elim havoid havoid'⟩)

end Bodies

/-- What nesting relies on: headers that are told apart, and bodies of which no two overlap without
one holding the other. -/
structure Laminar (loops : List Loop) : Prop where
  nodup_headers : (loops.map header).Nodup
  header_mem : ∀ l ∈ loops, l.header ∈ l.body
  /-- A loop around a header holds the loop of the header. -/
  around_header : ∀ l ∈ loops, ∀ m ∈ loops, l.header ≠ m.header → l.header ∈ m.body →
    (∀ b ∈ l.body, b ∈ m.body) ∧ m.header ∉ l.body
  /-- Of two loops that share a block one has its header in the other. -/
  comparable : ∀ l ∈ loops, ∀ m ∈ loops, ∀ b ∈ l.body, b ∈ m.body →
    l.header ∈ m.body ∨ m.header ∈ l.body

/-- **Natural loops are laminar**, on every graph. -/
theorem AllNatural.laminar {g : Graph} {entry : Nat} {loops : List Loop}
    (h : AllNatural g entry loops) : Laminar loops where
  nodup_headers := h.sorted.imp fun hlt ↦ Nat.ne_of_lt hlt
  header_mem l hl := (h.natural l hl).header_mem
  around_header l hl m hm hne hmem :=
    ⟨(h.natural l hl).body_subset (h.natural m hm) hne hmem,
      (h.natural l hl).header_notMem (h.natural m hm) hne hmem⟩
  comparable l hl m hm b hbl hbm := by
    have hl := h.natural l hl
    have hm := h.natural m hm
    rcases (hl.header_dominates b hbl).total (hm.header_dominates b hbm) with hdom | hdom
    · exact Or.inr (hl.header_mem_of_dominates hm hdom hbl hbm)
    · exact Or.inl (hm.header_mem_of_dominates hl hdom hbm hbl)

/-! ### Positions -/

section Positions

variable {loops : List Loop} {b p o x : Nat} {l m : Loop}

/-- The positions of the loops that contain a block. -/
def inside (loops : List Loop) (b : Nat) : List Nat :=
  (List.range loops.length).filter fun k ↦ loops[k]?.any (·.body.contains b)

/-- The size of the body at a position. -/
def sizeAt (loops : List Loop) (position : Nat) : Nat :=
  (loops[position]?.map (·.body.size)).getD 0

/-- A position is inside when its loop contains the block. -/
theorem mem_inside_iff : o ∈ inside loops b ↔ ∃ m, loops[o]? = some m ∧ b ∈ m.body := by
  rw [inside, List.mem_filter, List.mem_range, Option.any_eq_true]
  simp only [Std.ExtTreeSet.contains_iff_mem]
  exact ⟨And.right, fun h ↦ ⟨h.elim fun m hm ↦ (List.getElem?_eq_some_iff.1 hm.1).1, h⟩⟩

theorem nodup_inside (loops : List Loop) (b : Nat) : (inside loops b).Nodup :=
  List.nodup_range.filter _

/-- Counting positions is counting loops. -/
theorem length_inside (loops : List Loop) (b : Nat) :
    (inside loops b).length = loops.countP (·.body.contains b) := by
  have hmap : (List.range loops.length).map (loops[·]?) = loops.map some := by
    refine List.ext_getElem (by simp) fun k hk hk' ↦ ?_
    simp only [List.getElem_map, List.getElem_range]
    exact List.getElem?_eq_getElem (by simpa using hk')
  calc (inside loops b).length
      = ((List.range loops.length).map (loops[·]?)).countP (·.any (·.body.contains b)) := by
        rw [inside, ← List.countP_eq_length_filter, List.countP_map]
        rfl
    _ = loops.countP (·.body.contains b) := by
        rw [hmap, List.countP_map]
        rfl

/-- The other loops around a header. -/
theorem mem_around_iff (hp : loops[p]? = some l) :
    o ∈ around loops p ↔ o ≠ p ∧ o ∈ inside loops l.header := by
  rw [around, hp, inside]
  simp only [List.mem_filter, Bool.and_eq_true, decide_eq_true_eq]
  exact and_left_comm

theorem exists_of_mem_around (h : o ∈ around loops p) :
    ∃ l m, loops[p]? = some l ∧ loops[o]? = some m ∧ o ≠ p ∧ l.header ∈ m.body := by
  rcases hp : loops[p]? with - | l
  · rw [around, hp] at h
    exact absurd h List.not_mem_nil
  · obtain ⟨hne, hinside⟩ := (mem_around_iff hp).1 h
    obtain ⟨m, hm, hmem⟩ := mem_inside_iff.1 hinside
    exact ⟨l, m, rfl, hm, hne, hmem⟩

theorem nodup_around (loops : List Loop) (p : Nat) : (around loops p).Nodup := by
  unfold around
  split
  · exact List.nodup_nil
  · exact List.nodup_range.filter _

/-- A loop within another has fewer blocks. This is why the smallest loop around a block is the
innermost one. -/
theorem size_lt_of_within (h : l.Within m) : l.body.size < m.body.size := by
  obtain ⟨hsub, b, hbm, hbl⟩ := h
  have hnodup : (b :: l.body.toList).Nodup :=
    List.nodup_cons.2 ⟨fun h ↦ hbl (Std.ExtTreeSet.mem_toList.1 h),
      (toList_pairwise_lt l.body).imp fun hlt ↦ Nat.ne_of_lt hlt⟩
  have hsubset : b :: l.body.toList ⊆ m.body.toList := by
    intro x hx
    rw [Std.ExtTreeSet.mem_toList]
    rcases List.mem_cons.1 hx with rfl | hx
    · exact hbm
    · exact hsub x (Std.ExtTreeSet.mem_toList.1 hx)
  have hle := (List.subperm_of_subset hnodup hsubset).length_le
  rwa [List.length_cons, Std.ExtTreeSet.length_toList, Std.ExtTreeSet.length_toList] at hle

namespace Laminar

variable (h : Laminar loops)

include h

/-- Different positions are different headers. -/
theorem header_ne (hl : loops[p]? = some l) (hm : loops[o]? = some m) (hne : o ≠ p) :
    l.header ≠ m.header := by
  intro heq
  have hat : ∀ {k : Nat} {l : Loop}, loops[k]? = some l →
      (loops.map header)[k]? = some l.header := fun hk ↦ by rw [List.getElem?_map, hk]; rfl
  have hlt : o < (loops.map header).length := (List.getElem?_eq_some_iff.1 (hat hm)).1
  exact hne ((List.getElem?_inj hlt h.nodup_headers).1 (by rw [hat hl, hat hm, heq]))

/-- **A loop at a position around another holds it strictly.** -/
theorem within_of_mem_around (ho : o ∈ around loops p) (hl : loops[p]? = some l)
    (hm : loops[o]? = some m) : l.Within m := by
  obtain ⟨hne, hinside⟩ := (mem_around_iff hl).1 ho
  obtain ⟨m', hm', hmem⟩ := mem_inside_iff.1 hinside
  obtain rfl : m' = m := Option.some.inj (hm'.symm.trans hm)
  obtain ⟨hsub, hout⟩ := h.around_header l (List.mem_of_getElem? hl) m' (List.mem_of_getElem? hm)
    (h.header_ne hl hm hne) hmem
  exact ⟨hsub, m'.header, h.header_mem m' (List.mem_of_getElem? hm), hout⟩

/-- Whatever lies around a loop is greater. -/
theorem sizeAt_lt (ho : o ∈ around loops p) : sizeAt loops p < sizeAt loops o := by
  obtain ⟨l, m, hl, hm, -, -⟩ := exists_of_mem_around ho
  rw [sizeAt, sizeAt, hl, hm]
  exact size_lt_of_within (h.within_of_mem_around ho hl hm)

/-- What lies around a loop that contains a block contains the block. -/
theorem mem_inside_of_around (ho : o ∈ inside loops b) (hx : x ∈ around loops o) :
    x ∈ inside loops b := by
  obtain ⟨m, hm, hb⟩ := mem_inside_iff.1 ho
  obtain ⟨-, k, -, hk, -, -⟩ := exists_of_mem_around hx
  exact mem_inside_iff.2 ⟨k, hk, (h.within_of_mem_around hx hm hk).1 b hb⟩

/-- Of two loops that contain a block one lies around the other. -/
theorem mem_around_or (ho : o ∈ inside loops b) (hx : x ∈ inside loops b) (hne : o ≠ x) :
    o ∈ around loops x ∨ x ∈ around loops o := by
  obtain ⟨l, hl, hbl⟩ := mem_inside_iff.1 ho
  obtain ⟨m, hm, hbm⟩ := mem_inside_iff.1 hx
  rcases h.comparable l (List.mem_of_getElem? hl) m (List.mem_of_getElem? hm) b hbl hbm with
    hmem | hmem
  · exact Or.inr ((mem_around_iff hl).2 ⟨Ne.symm hne, mem_inside_iff.2 ⟨m, hm, hmem⟩⟩)
  · exact Or.inl ((mem_around_iff hm).2 ⟨hne, mem_inside_iff.2 ⟨l, hl, hmem⟩⟩)

end Laminar

/-! ### Chains of loops -/

/-- Positions of loops that lie one in the other, with everything around them. -/
structure Chain (loops : List Loop) (chain : List Nat) : Prop where
  nodup : chain.Nodup
  closed : ∀ o ∈ chain, ∀ x ∈ around loops o, x ∈ chain
  comparable : ∀ o ∈ chain, ∀ x ∈ chain, o ≠ x → o ∈ around loops x ∨ x ∈ around loops o

/-- The loops that contain a block are a chain. -/
theorem Laminar.chain_inside (h : Laminar loops) (b : Nat) : Chain loops (inside loops b) where
  nodup := nodup_inside loops b
  closed _ ho _ hx := h.mem_inside_of_around ho hx
  comparable _ ho _ hx hne := h.mem_around_or ho hx hne

/-- The loops around a loop are a chain. -/
theorem Laminar.chain_around (h : Laminar loops) (p : Nat) : Chain loops (around loops p) where
  nodup := nodup_around loops p
  closed o ho x hx := by
    obtain ⟨l, -, hl, -, -, -⟩ := exists_of_mem_around ho
    have hinside := h.mem_inside_of_around ((mem_around_iff hl).1 ho).2 hx
    refine (mem_around_iff hl).2 ⟨fun heq ↦ ?_, hinside⟩
    exact Nat.lt_asymm (h.sizeAt_lt ho) (heq ▸ h.sizeAt_lt hx)
  comparable o ho x hx hne := by
    obtain ⟨l, -, hl, -, -, -⟩ := exists_of_mem_around ho
    exact h.mem_around_or ((mem_around_iff hl).1 ho).2 ((mem_around_iff hl).1 hx).2 hne

/-- The position of the smallest loop of a list, the first one of the same size. -/
def smallest? (loops : List Loop) : List Nat → Option Nat
  | [] => none
  | first :: rest => some (rest.foldl (smaller loops) first)

theorem foldl_smaller_spec (rest : List Nat) : ∀ first,
    rest.foldl (smaller loops) first ∈ first :: rest ∧ ∀ x ∈ first :: rest,
      sizeAt loops (rest.foldl (smaller loops) first) ≤ sizeAt loops x := by
  induction rest with
  | nil => exact fun first ↦ ⟨List.mem_cons_self, fun x hx ↦ by rw [List.mem_singleton.1 hx]; rfl⟩
  | cons next rest ih =>
    intro first
    have hsmaller : (smaller loops first next = first ∨ smaller loops first next = next) ∧
        sizeAt loops (smaller loops first next) ≤ sizeAt loops first ∧
          sizeAt loops (smaller loops first next) ≤ sizeAt loops next := by
      rw [show smaller loops first next = if sizeAt loops next < sizeAt loops first ∨
        sizeAt loops next = sizeAt loops first ∧ next < first then next else first from rfl]
      split
      · next hlt =>
        exact ⟨Or.inr rfl, hlt.elim Nat.le_of_lt fun heq ↦ Nat.le_of_eq heq.1, Nat.le_refl _⟩
      · next hlt =>
        exact ⟨Or.inl rfl, Nat.le_refl _, Nat.not_lt.1 fun h ↦ hlt (Or.inl h)⟩
    obtain ⟨hchoice, hfirst, hnext⟩ := hsmaller
    obtain ⟨hmem, hle⟩ := ih (smaller loops first next)
    have hleast := hle _ List.mem_cons_self
    rw [List.foldl_cons]
    constructor
    · rcases List.mem_cons.1 hmem with heq | hmem
      · rw [heq]
        rcases hchoice with hchoice | hchoice <;> simp [hchoice]
      · exact List.mem_cons_of_mem _ (List.mem_cons_of_mem _ hmem)
    · intro x hx
      rcases List.mem_cons.1 hx with rfl | hx
      · exact hleast.trans hfirst
      · rcases List.mem_cons.1 hx with rfl | hx
        · exact hleast.trans hnext
        · exact hle x (List.mem_cons_of_mem _ hx)

/-- What is found as smallest is a position of the list, and no other of them is smaller. -/
theorem smallest?_spec {positions : List Nat} {q : Nat} (h : smallest? loops positions = some q) :
    q ∈ positions ∧ ∀ x ∈ positions, sizeAt loops q ≤ sizeAt loops x := by
  cases positions with
  | nil => exact absurd h (by simp [smallest?])
  | cons first rest =>
    obtain rfl := Option.some.inj h
    exact foldl_smaller_spec rest first

/-- Only an empty list has no smallest position. -/
theorem smallest?_eq_none_iff {positions : List Nat} :
    smallest? loops positions = none ↔ positions = [] := by
  cases positions <;> simp [smallest?]

namespace Chain

variable {chain : List Nat} (hchain : Chain loops chain)

include hchain

/-- A member of a chain has fewer loops around it than the chain is long. -/
theorem length_around_lt (ho : o ∈ chain) : (around loops o).length < chain.length := by
  have hself : o ∉ around loops o := fun hmem ↦
    (exists_of_mem_around hmem).elim fun _ ⟨_, _, _, hne, _⟩ ↦ hne rfl
  have hnodup : (o :: around loops o).Nodup := List.nodup_cons.2 ⟨hself, nodup_around loops o⟩
  have hsub : o :: around loops o ⊆ chain :=
    List.cons_subset.2 ⟨ho, fun x hx ↦ hchain.closed o ho x hx⟩
  exact (List.subperm_of_subset hnodup hsub).length_le

/-- **The smallest member of a chain lies in all other members.** -/
theorem mem_iff_of_smallest (h : Laminar loops) {q : Nat} (hq : smallest? loops chain = some q) :
    x ∈ chain ↔ x = q ∨ x ∈ around loops q := by
  obtain ⟨hmem, hle⟩ := smallest?_spec hq
  constructor
  · intro hx
    by_cases heq : x = q
    · exact Or.inl heq
    · rcases hchain.comparable x hx q hmem heq with hin | hin
      · exact Or.inr hin
      · exact absurd (h.sizeAt_lt hin) (Nat.not_lt.2 (hle x hx))
  · rintro (rfl | hx)
    · exact hmem
    · exact hchain.closed q hmem x hx

/-- **A chain is one longer than what lies around its smallest member.** -/
theorem length_eq_of_smallest (h : Laminar loops) {q : Nat} (hq : smallest? loops chain = some q) :
    chain.length = (around loops q).length + 1 := by
  have hsub : chain ⊆ q :: around loops q := fun x hx ↦
    List.mem_cons.2 ((hchain.mem_iff_of_smallest h hq).1 hx)
  have hle := (List.subperm_of_subset hchain.nodup hsub).length_le
  have hlt := hchain.length_around_lt (smallest?_spec hq).1
  rw [List.length_cons] at hle
  omega

/-- **The greatest depth in a chain is its length**, where a depth counts the loop itself and what
lies around it. -/
theorem max_depth (h : Laminar loops) {depths : List Nat}
    (hdepths : ∀ n, n ∈ depths ↔ ∃ o ∈ chain, n = (around loops o).length + 1) :
    depths.foldl max 0 = chain.length := by
  rcases hq : smallest? loops chain with - | q
  · have hchain := smallest?_eq_none_iff.1 hq
    have hnil : depths = [] := List.eq_nil_iff_forall_not_mem.2 fun n hn ↦ by
      obtain ⟨o, ho, -⟩ := (hdepths n).1 hn
      exact List.not_mem_nil (hchain ▸ ho)
    rw [hnil, hchain]
    rfl
  · have hmax : depths.max? = some chain.length := by
      refine List.max?_eq_some_iff.2 ⟨?_, fun n hn ↦ ?_⟩
      · exact (hdepths _).2 ⟨q, (smallest?_spec hq).1, hchain.length_eq_of_smallest h hq⟩
      · obtain ⟨o, ho, rfl⟩ := (hdepths n).1 hn
        exact hchain.length_around_lt ho
    rw [List.foldl_max, hmax, Option.getD_some, Nat.zero_max]

end Chain

end Positions

end Loop

end FlowGauge
