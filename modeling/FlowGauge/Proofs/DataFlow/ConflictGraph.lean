import FlowGauge.Proofs.DataFlow.Liveness
import Mathlib.Algebra.BigOperators.Group.Finset.Basic
import Mathlib.Data.String.Basic

/-!
# Conflict graphs are simple

A conflict is stored once, under its two names in order, while interference, neighbours and degrees
read it from either end. What every addition keeps is this form of storage (`Stored`), and the form
alone makes the graph simple (`Stored.simple`). The counting rests on one fact: in a stored conflict
a name has at most one partner, and the two names give the conflict back
(`Conflict.partner?_eq_some_iff`). So the ends at a variable, its neighbours and its conflicts are
all counted by the same list, and every conflict is counted at two variables.

A graph is made by adding variables and conflicts. What one addition brings is said once
(`Addition.mem_nodes_apply_iff`, `Addition.mem_edges_apply_iff`), and a run brings what one of its
additions brings (`foldl_apply_iff`). So a graph is known by what its additions name, and neither
their order nor their repetition shows in it.

## What a graph forgets

Two runs of additions that name the same variables and make the same conflicts give the same graph,
as a value and not only up to what can be asked of it. An addition that connects a variable with
itself changes nothing; it does not even make the name a variable. Adding a conflict also adds its
two ends, so that degrees are defined at both.
-/

namespace FlowGauge

/-! ### Stored conflicts -/

namespace Conflict

variable {c : Conflict} {a b v w : String}

/-- A conflict has no direction. -/
theorem of_comm (a b : String) : of a b = of b a := by
  obtain hlt | rfl | hlt := lt_trichotomy a b
  · rw [of, of, if_pos hlt, if_neg (lt_asymm hlt)]
  · rfl
  · rw [of, of, if_neg (lt_asymm hlt), if_pos hlt]

/-- A conflict has two names and no order. -/
theorem of_eq_of_iff {x y : String} : of a b = of x y ↔ a = x ∧ b = y ∨ a = y ∧ b = x := by
  refine ⟨fun h ↦ ?_, fun h ↦ ?_⟩
  · rw [of, of] at h
    split at h <;> split at h <;> simp_all
  · obtain ⟨rfl, rfl⟩ | ⟨rfl, rfl⟩ := h
    · rfl
    · exact of_comm a b

theorem names_of (a b : String) :
    (of a b).low = a ∧ (of a b).high = b ∨ (of a b).low = b ∧ (of a b).high = a := by
  rw [of]
  split
  · exact Or.inl ⟨rfl, rfl⟩
  · exact Or.inr ⟨rfl, rfl⟩

/-- The names of a conflict between two variables are in order. -/
theorem low_lt_high_of (h : a ≠ b) : (of a b).low < (of a b).high := by
  rw [of]
  split
  · next hlt => exact hlt
  · next hge => exact lt_of_le_of_ne (not_lt.1 hge) (Ne.symm h)

/-- A conflict whose names are in order is given back by them. -/
theorem of_low_high (h : c.low < c.high) : of c.low c.high = c :=
  if_pos h

theorem eq_of_iff (h : c.low < c.high) :
    c = of v w ↔ c.low = v ∧ c.high = w ∨ c.low = w ∧ c.high = v := by
  rw [← of_eq_of_iff, of_low_high h]

/-- **A name and its partner give the conflict back.** -/
theorem partner?_eq_some_iff (h : c.low < c.high) : c.partner? v = some w ↔ c = of v w := by
  have hne : c.low ≠ c.high := ne_of_lt h
  rw [eq_of_iff h, partner?]
  split
  · next hlow => simp [hlow, hlow ▸ Ne.symm hne]
  · next hlow =>
    split
    · next hhigh => simp [hlow, hhigh]
    · next hhigh => simp [hlow, hhigh]

/-- A stored conflict ends once at each of its names. -/
theorem count_names (h : c.low < c.high) (v : String) :
    [c.low, c.high].count v = (c.partner? v).toList.length := by
  have hne : c.low ≠ c.high := ne_of_lt h
  rw [partner?]
  split
  · next hlow => simp [hlow, hlow ▸ Ne.symm hne]
  · next hlow =>
    split
    · next hhigh => simp [hlow, hhigh]
    · next hhigh => simp [hlow, hhigh]

end Conflict

namespace InterferenceGraph

variable {g : InterferenceGraph} {c : Conflict} {a b v w : String}

/-- Every conflict is stored with its names in order, and both are variables of the graph. -/
structure Stored (g : InterferenceGraph) : Prop where
  low_lt_high : ∀ c ∈ g.edges, c.low < c.high
  low_mem : ∀ c ∈ g.edges, c.low ∈ g.nodes
  high_mem : ∀ c ∈ g.edges, c.high ∈ g.nodes

/-- Asking for a conflict is looking for the stored one. -/
theorem interferes_iff_mem : g.interferes a b = true ↔ Conflict.of a b ∈ g.edges :=
  Std.ExtTreeSet.contains_iff_mem

/-- **Interference is symmetric.** -/
theorem interferes_comm (g : InterferenceGraph) (a b : String) :
    g.interferes a b = g.interferes b a := by
  rw [interferes, Conflict.of_comm]
  rfl

/-! ### What a stored graph says -/

namespace Stored

/-- **No variable is in conflict with itself.** -/
theorem not_interferes_self (h : g.Stored) (a : String) : g.interferes a a = false := by
  rw [Bool.eq_false_iff]
  intro hself
  have hlt := h.low_lt_high _ (interferes_iff_mem.1 hself)
  rw [Conflict.of, if_neg (lt_irrefl a)] at hlt
  exact lt_irrefl a hlt

/-- Both ends of a conflict are variables of the graph. -/
theorem mem_nodes_of_interferes (h : g.Stored) (hab : g.interferes a b = true) : b ∈ g.nodes := by
  have hmem := interferes_iff_mem.1 hab
  obtain ⟨-, hhigh⟩ | ⟨hlow, -⟩ := Conflict.names_of a b
  · exact hhigh ▸ h.high_mem _ hmem
  · exact hlow ▸ h.low_mem _ hmem

/-- The neighbours of a variable are those who interfere with it. -/
theorem mem_neighbours_iff (h : g.Stored) : w ∈ g.neighbours v ↔ g.interferes v w = true := by
  rw [neighbours, Std.ExtTreeSet.mem_ofList, List.contains_iff_mem, List.mem_filterMap,
    interferes_iff_mem]
  refine ⟨fun ⟨c, hc, hpartner⟩ ↦ ?_, fun hmem ↦ ?_⟩
  · have hedge := Std.ExtTreeSet.mem_toList.1 hc
    rwa [← (Conflict.partner?_eq_some_iff (h.low_lt_high c hedge)).1 hpartner]
  · exact ⟨_, Std.ExtTreeSet.mem_toList.2 hmem,
      (Conflict.partner?_eq_some_iff (h.low_lt_high _ hmem)).2 rfl⟩

/-! ### Degrees -/

/-- A variable has a neighbour for each of its conflicts: no two have the same partner. -/
theorem size_neighbours (h : g.Stored) (v : String) :
    (g.neighbours v).size = (g.edges.toList.filterMap (·.partner? v)).length := by
  refine Std.ExtTreeSet.size_ofList (List.pairwise_filterMap.2 ?_)
  refine Std.ExtTreeSet.distinct_toList.imp_of_mem fun {c c'} hc hc' hne w hw w' hw' heq ↦ hne ?_
  have hlt := h.low_lt_high c (Std.ExtTreeSet.mem_toList.1 hc)
  have hlt' := h.low_lt_high c' (Std.ExtTreeSet.mem_toList.1 hc')
  obtain rfl : w = w' := Std.LawfulEqOrd.compare_eq_iff_eq.1 heq
  rw [Std.LawfulEqOrd.compare_eq_iff_eq, (Conflict.partner?_eq_some_iff hlt).1 hw,
    (Conflict.partner?_eq_some_iff hlt').1 hw']

end Stored

/-- The names of all conflicts, once for each conflict they are in. -/
def ends (g : InterferenceGraph) : List String :=
  g.edges.toList.flatMap fun c ↦ [c.low, c.high]

theorem degrees_eq (g : InterferenceGraph) :
    g.degrees = tabulate (g.nodes.toList ++ g.ends) fun v ↦ g.ends.count v :=
  rfl

/-- Every conflict has two ends. -/
theorem length_ends (g : InterferenceGraph) : g.ends.length = 2 * g.edgeCount := by
  rw [ends, List.length_flatMap, edgeCount, ← Std.ExtTreeSet.length_toList]
  simp [Nat.mul_comm]

namespace Stored

/-- **A variable is at as many ends as it has neighbours.** -/
theorem count_ends (h : g.Stored) (v : String) : g.ends.count v = (g.neighbours v).size := by
  have hlt : ∀ c ∈ g.edges.toList, c.low < c.high := fun c hc ↦
    h.low_lt_high c (Std.ExtTreeSet.mem_toList.1 hc)
  rw [h.size_neighbours, ends]
  generalize g.edges.toList = conflicts at hlt
  induction conflicts with
  | nil => rfl
  | cons c conflicts ih =>
    obtain ⟨hc, hconflicts⟩ := List.forall_mem_cons.1 hlt
    rw [List.flatMap_cons, List.count_append, ih hconflicts, Conflict.count_names hc,
      List.filterMap_cons]
    cases c.partner? v with
    | none => exact Nat.zero_add _
    | some w => exact Nat.add_comm _ _

/-- Ends of conflicts are variables of the graph. -/
theorem mem_nodes_of_mem_ends (h : g.Stored) (hv : v ∈ g.ends) : v ∈ g.nodes := by
  obtain ⟨c, hc, hv⟩ := List.mem_flatMap.1 hv
  have hedge := Std.ExtTreeSet.mem_toList.1 hc
  obtain rfl | rfl : v = c.low ∨ v = c.high := by simpa using hv
  · exact h.low_mem c hedge
  · exact h.high_mem c hedge

/-- Every variable has a degree, also one without conflicts. -/
theorem mem_degrees_iff (h : g.Stored) : v ∈ g.degrees ↔ v ∈ g.nodes := by
  rw [degrees_eq, mem_tabulate, List.mem_append, Std.ExtTreeSet.mem_toList]
  exact or_iff_left_of_imp h.mem_nodes_of_mem_ends

/-- **The degree of a variable is the number of its neighbours.** -/
theorem degrees_getElem? (h : g.Stored) (hv : v ∈ g.nodes) :
    g.degrees[v]? = some (g.neighbours v).size := by
  rw [degrees_eq, getElem?_tabulate, h.count_ends]
  exact if_pos (List.mem_append_left _ (Std.ExtTreeSet.mem_toList.2 hv))

/-- **Every conflict is counted at two variables.** -/
theorem total_degrees (h : g.Stored) : total g.degrees.values = 2 * g.edgeCount := by
  have hall : ∀ v ∈ (g.ends : Multiset String), v ∈ g.degrees.keys.toFinset := fun v hv ↦
    List.mem_toFinset.2 (Std.ExtTreeMap.mem_keys.2
      (h.mem_degrees_iff.2 (h.mem_nodes_of_mem_ends (Multiset.mem_coe.1 hv))))
  calc total g.degrees.values
      = (g.degrees.keys.map fun v ↦ g.ends.count v).sum := congrArg total values_tabulate
    _ = ∑ v ∈ g.degrees.keys.toFinset, g.ends.count v :=
        (List.sum_toFinset _ Std.ExtTreeMap.nodup_keys).symm
    _ = g.ends.length := by simpa using Multiset.sum_count_eq_card hall
    _ = 2 * g.edgeCount := g.length_ends

end Stored

/-- The greatest degree is that of some variable, if there are variables at all. -/
theorem maxDegree_isGreatest (hv : v ∈ g.degrees) :
    IsGreatest {d | ∃ v : String, g.degrees[v]? = some d} g.maxDegree := by
  obtain ⟨hmem, hle⟩ := Liveness.isGreatest_foldl_max g.degrees.values
  have hbound : ∀ {d} {w : String}, g.degrees[w]? = some d → d ≤ g.maxDegree := fun hd ↦
    hle (Or.inr (mem_values_iff.2 ⟨_, hd⟩))
  refine ⟨?_, fun d ⟨w, hd⟩ ↦ hbound hd⟩
  obtain hzero | hvalue := hmem
  · -- When the maximum is zero, so is every degree, and there is one.
    obtain ⟨d, hd⟩ := Option.isSome_iff_exists.1 (Std.ExtTreeMap.isSome_getElem?_iff_mem.2 hv)
    have hzero : g.maxDegree = 0 := hzero
    have hd0 : d = 0 := Nat.le_zero.1 (hzero ▸ hbound hd)
    exact ⟨v, by rw [hd, hd0, hzero]⟩
  · exact mem_values_iff.1 hvalue

/-- A simple undirected graph: interference has no direction and no variable interferes with itself;
neighbours and degrees speak of it; and the degrees belong to the variables. -/
structure Simple (g : InterferenceGraph) : Prop where
  interferes_comm : ∀ a b, g.interferes a b = g.interferes b a
  not_interferes_self : ∀ a, g.interferes a a = false
  /-- The neighbours of a variable are the variables that interfere with it. -/
  mem_neighbours_iff : ∀ v ∈ g.nodes, ∀ w,
    w ∈ g.neighbours v ↔ w ∈ g.nodes ∧ g.interferes w v = true
  /-- Variables have a degree, and nothing else has. -/
  mem_degrees_iff : ∀ v, v ∈ g.degrees ↔ v ∈ g.nodes
  degrees_getElem? : ∀ v ∈ g.nodes, g.degrees[v]? = some (g.neighbours v).size
  total_degrees : total g.degrees.values = 2 * g.edgeCount
  maxDegree_isGreatest : g.nodes ≠ ∅ →
    IsGreatest {d | ∃ v : String, g.degrees[v]? = some d} g.maxDegree
  maxDegree_eq_zero : g.nodes = ∅ → g.maxDegree = 0

/-- **Stored graphs are simple.** -/
theorem Stored.simple (h : g.Stored) : g.Simple where
  interferes_comm := g.interferes_comm
  not_interferes_self := h.not_interferes_self
  mem_neighbours_iff v _ w := by
    rw [h.mem_neighbours_iff, g.interferes_comm w v]
    exact (and_iff_right_of_imp h.mem_nodes_of_interferes).symm
  mem_degrees_iff _ := h.mem_degrees_iff
  degrees_getElem? _ := h.degrees_getElem?
  total_degrees := h.total_degrees
  maxDegree_isGreatest hne := by
    obtain ⟨v, hv⟩ : ∃ v, v ∈ g.nodes := by
      simpa [Std.ExtTreeSet.eq_empty_iff_forall_not_mem] using hne
    exact maxDegree_isGreatest (h.mem_degrees_iff.2 hv)
  maxDegree_eq_zero hnone := by
    have hdegrees : g.degrees = ∅ := Std.ExtTreeMap.eq_empty_iff_forall_not_mem.2 fun v hv ↦
      Std.ExtTreeSet.eq_empty_iff_forall_not_mem.1 hnone v (h.mem_degrees_iff.1 hv)
    rw [maxDegree, hdegrees]
    rfl

/-! ### Additions -/

/-- Something that is added to a graph. -/
inductive Addition where
  | node (name : String)
  | edge (a b : String)
deriving DecidableEq

namespace Addition

/-- Add a variable or a conflict. -/
def apply (g : InterferenceGraph) : Addition → InterferenceGraph
  | node name => g.addNode name
  | edge a b => g.addEdge a b

/-- The addition makes the name a variable. -/
def Names (v : String) : Addition → Prop
  | node name => v = name
  | edge a b => a ≠ b ∧ (v = a ∨ v = b)

/-- The addition makes the conflict. A variable in conflict with itself makes none. -/
def Makes (c : Conflict) : Addition → Prop
  | node _ => False
  | edge a b => a ≠ b ∧ c = .of a b

/-- An addition brings the variables it names. -/
theorem mem_nodes_apply_iff (x : Addition) :
    v ∈ (x.apply g).nodes ↔ v ∈ g.nodes ∨ x.Names v := by
  cases x with
  | node name =>
    show v ∈ g.nodes.insert name ↔ v ∈ g.nodes ∨ v = name
    rw [Std.ExtTreeSet.mem_insert, Std.LawfulEqOrd.compare_eq_iff_eq, or_comm, eq_comm]
  | edge a b =>
    show v ∈ (g.addEdge a b).nodes ↔ v ∈ g.nodes ∨ a ≠ b ∧ (v = a ∨ v = b)
    rw [addEdge]
    split
    · next heq => simp [heq]
    · next hne =>
      rw [and_iff_right hne, Std.ExtTreeSet.mem_insert, Std.ExtTreeSet.mem_insert,
        Std.LawfulEqOrd.compare_eq_iff_eq, Std.LawfulEqOrd.compare_eq_iff_eq, eq_comm, @eq_comm _ a]
      tauto

/-- An addition brings the conflict it makes, if it makes one. -/
theorem mem_edges_apply_iff (x : Addition) :
    c ∈ (x.apply g).edges ↔ c ∈ g.edges ∨ x.Makes c := by
  cases x with
  | node name => exact (or_iff_left not_false).symm
  | edge a b =>
    show c ∈ (g.addEdge a b).edges ↔ c ∈ g.edges ∨ a ≠ b ∧ c = .of a b
    rw [addEdge]
    split
    · next heq => simp [heq]
    · next hne =>
      rw [and_iff_right hne, Std.ExtTreeSet.mem_insert, Std.LawfulEqOrd.compare_eq_iff_eq, or_comm,
        eq_comm]

/-- A conflict is made in order and between variables. -/
theorem Makes.stored {x : Addition} (h : x.Makes c) :
    c.low < c.high ∧ x.Names c.low ∧ x.Names c.high := by
  cases x with
  | node name => exact h.elim
  | edge a b =>
    obtain ⟨hne, rfl⟩ := h
    obtain ⟨hlow, hhigh⟩ | ⟨hlow, hhigh⟩ := Conflict.names_of a b
    · exact ⟨Conflict.low_lt_high_of hne, ⟨hne, Or.inl hlow⟩, hne, Or.inr hhigh⟩
    · exact ⟨Conflict.low_lt_high_of hne, ⟨hne, Or.inr hlow⟩, hne, Or.inl hhigh⟩

/-- **An addition keeps the form of storage.** -/
theorem apply_stored (h : g.Stored) (x : Addition) : (x.apply g).Stored where
  low_lt_high c hc := (x.mem_edges_apply_iff.1 hc).elim (h.low_lt_high c) fun hmade ↦ hmade.stored.1
  low_mem c hc := x.mem_nodes_apply_iff.2
    ((x.mem_edges_apply_iff.1 hc).imp (h.low_mem c) fun hmade ↦ hmade.stored.2.1)
  high_mem c hc := x.mem_nodes_apply_iff.2
    ((x.mem_edges_apply_iff.1 hc).imp (h.high_mem c) fun hmade ↦ hmade.stored.2.2)

/-- A conflict is made from either side, and never by a variable with itself. -/
theorem makes_of_iff {x : Addition} :
    x.Makes (.of a b) ↔ a ≠ b ∧ (x = edge a b ∨ x = edge b a) := by
  cases x with
  | node name => simp [Makes]
  | edge x y =>
    show x ≠ y ∧ Conflict.of a b = .of x y ↔ _
    rw [Conflict.of_eq_of_iff, edge.injEq, edge.injEq]
    grind

end Addition

/-! ### Runs of additions -/

/-- The graph after additions to the empty one. -/
def build (additions : List Addition) : InterferenceGraph :=
  additions.foldl Addition.apply {}

/-- What a run of additions brings to a graph is brought by one of them. -/
theorem foldl_apply_iff {P : InterferenceGraph → Prop} {Brings : Addition → Prop}
    (hstep : ∀ g x, P (x.apply g) ↔ P g ∨ Brings x) (g : InterferenceGraph)
    (additions : List Addition) :
    P (additions.foldl Addition.apply g) ↔ P g ∨ ∃ x ∈ additions, Brings x := by
  induction additions generalizing g with
  | nil => simp
  | cons x additions ih => rw [List.foldl_cons, ih, hstep, or_assoc, List.exists_mem_cons_iff]

theorem empty_stored : Stored {} where
  low_lt_high _ hc := absurd hc Std.ExtTreeSet.not_mem_empty
  low_mem _ hc := absurd hc Std.ExtTreeSet.not_mem_empty
  high_mem _ hc := absurd hc Std.ExtTreeSet.not_mem_empty

/-- **Every graph that is built is stored in order.** -/
theorem build_stored (additions : List Addition) : (build additions).Stored :=
  additions.foldlRecOn Addition.apply empty_stored fun _ h x _ ↦ x.apply_stored h

/-- The variables of a graph are those that its additions name. -/
theorem mem_nodes_build_iff {additions : List Addition} :
    v ∈ (build additions).nodes ↔ ∃ x ∈ additions, x.Names v := by
  rw [build, foldl_apply_iff (P := fun g ↦ v ∈ g.nodes) fun _ x ↦ x.mem_nodes_apply_iff]
  exact or_iff_right Std.ExtTreeSet.not_mem_empty

/-- The conflicts of a graph are those that its additions make. -/
theorem mem_edges_build_iff {additions : List Addition} :
    c ∈ (build additions).edges ↔ ∃ x ∈ additions, x.Makes c := by
  rw [build, foldl_apply_iff (P := fun g ↦ c ∈ g.edges) fun _ x ↦ x.mem_edges_apply_iff]
  exact or_iff_right Std.ExtTreeSet.not_mem_empty

/-- **Two variables interfere when some addition sets them against each other.** -/
theorem interferes_build_iff {additions : List Addition} : (build additions).interferes a b = true ↔
    a ≠ b ∧ (.edge a b ∈ additions ∨ .edge b a ∈ additions) := by
  simp only [interferes_iff_mem, mem_edges_build_iff, Addition.makes_of_iff]
  refine ⟨fun ⟨x, hx, hne, hnames⟩ ↦ ⟨hne, ?_⟩, fun ⟨hne, hmem⟩ ↦ ?_⟩
  · obtain rfl | rfl := hnames
    · exact Or.inl hx
    · exact Or.inr hx
  · exact hmem.elim (fun h ↦ ⟨_, h, hne, Or.inl rfl⟩) fun h ↦ ⟨_, h, hne, Or.inr rfl⟩

/-- **The graph shows neither the order nor the repetition of additions.** -/
theorem build_congr {additions others : List Addition} (h : ∀ x, x ∈ others ↔ x ∈ additions) :
    build others = build additions := by
  have hnodes : (build others).nodes = (build additions).nodes := Std.ExtTreeSet.ext_mem fun v ↦ by
    simp only [mem_nodes_build_iff, h]
  have hedges : (build others).edges = (build additions).edges := Std.ExtTreeSet.ext_mem fun c ↦ by
    simp only [mem_edges_build_iff, h]
  show build others = ⟨(build additions).nodes, (build additions).edges⟩
  rw [← hnodes, ← hedges]

/-- **Every run of additions makes a simple undirected graph.** Conflicts are stored in order, with
both names among the variables; the graph is simple; its variables are those that some addition
names, two of them interfere exactly if some addition sets them against each other; and the order of
the additions does not matter. -/
theorem build_exact (additions : List Addition) :
    (build additions).Stored ∧ (build additions).Simple ∧
    (∀ v, v ∈ (build additions).nodes ↔ ∃ x ∈ additions, x.Names v) ∧
    (∀ a b, (build additions).interferes a b = true ↔
      a ≠ b ∧ (.edge a b ∈ additions ∨ .edge b a ∈ additions)) ∧
    ∀ others : List Addition, others.Perm additions → build others = build additions :=
  ⟨build_stored additions, (build_stored additions).simple, fun _ ↦ mem_nodes_build_iff,
    fun _ _ ↦ interferes_build_iff, fun _ hperm ↦ build_congr fun _ ↦ hperm.mem_iff⟩

/-- One conflict from both sides, a variable against itself, and a variable without conflicts. -/
def bothSides : List Addition :=
  [.edge "b" "a", .edge "a" "b", .edge "a" "a", .node "c"]

theorem build_exact_bothSides : bothSides.reverse.Perm bothSides ∧
    build bothSides.reverse = build bothSides ∧
    (build bothSides).interferes "a" "b" = true ∧ (build bothSides).interferes "b" "a" = true ∧
    (build bothSides).interferes "a" "c" = false ∧ "c" ∈ (build bothSides).degrees := by
  obtain ⟨-, hsimple, hnodes, hinterferes, horder⟩ := build_exact bothSides
  have hab : (build bothSides).interferes "a" "b" = true := (hinterferes "a" "b").2 (by decide)
  have hc : "c" ∈ (build bothSides).nodes := (hnodes "c").2 ⟨.node "c", by decide, rfl⟩
  refine ⟨List.reverse_perm _, horder _ (List.reverse_perm _), hab,
    hsimple.interferes_comm "a" "b" ▸ hab, ?_, (hsimple.mem_degrees_iff "c").2 hc⟩
  rw [Bool.eq_false_iff]
  exact fun hac ↦ absurd ((hinterferes "a" "c").1 hac) (by decide)

end InterferenceGraph

end FlowGauge
