import FlowGauge.Graph.Traversal
import FlowGauge.Proofs.Graph.Path
import Mathlib.Data.List.Induction
import Mathlib.Logic.Relation

/-!
# Sweeps visit what is connected

A sweep visits its pending nodes and everything that hangs on them by a chain of neighbours not yet
seen. Visits are counted against a bound. Since a node is marked as seen when it becomes pending,
the quantity `pending + size - seen` falls with every visit, and a bound that covers it at the start
is never exhausted (`Suffices.visit`, `sweep_visits`). For the same reason no node is visited twice
(`sweep_nodup`). Which pending node is visited next does not matter for any of this, so `join` may
merge the fresh nodes into the pending ones in any order.

## What stays open

The neighbours are any lists, not only the successors of the graph: the body of a loop is swept
along predecessors that a filter lets pass. Entries that are no nodes of the graph are ignored, and
so are those that have been seen. What has been seen need not have been visited before the sweep
began; a node that is marked from the start is a wall.
-/

namespace FlowGauge

namespace Graph

variable {g : Graph} {neighbours : Nat → List Nat} {join : List Nat → List Nat → List Nat}

/-! ### Fresh nodes -/

/-- A node that is met twice among the neighbours of one node is taken once. -/
theorem mem_unseen_and_nodup (g : Graph) (seen candidates : List Nat) :
    (g.unseen seen candidates).Nodup ∧
      ∀ v, v ∈ g.unseen seen candidates ↔ v ∈ candidates ∧ v < g.size ∧ v ∉ seen := by
  unfold unseen
  -- The fold is read from the right: its last candidate is looked at last.
  induction candidates using List.reverseRecOn with
  | nil => simp
  | append_singleton candidates c ih =>
    rw [List.foldl_append, List.foldl_cons, List.foldl_nil]
    generalize candidates.foldl _ [] = fresh at ih ⊢
    obtain ⟨hnodup, hmem⟩ := ih
    split
    · next hc =>
      refine ⟨List.nodup_append.2 ⟨hnodup, List.nodup_singleton c, ?_⟩, fun v ↦ ?_⟩
      · rintro v hv w hw rfl
        exact hc.2.2 (List.mem_singleton.1 hw ▸ hv)
      · grind
    · grind

theorem unseen_nodup (g : Graph) (seen candidates : List Nat) :
    (g.unseen seen candidates).Nodup :=
  (mem_unseen_and_nodup g seen candidates).1

theorem mem_unseen_iff {seen candidates : List Nat} {v : Nat} :
    v ∈ g.unseen seen candidates ↔ v ∈ candidates ∧ v < g.size ∧ v ∉ seen :=
  (mem_unseen_and_nodup g seen candidates).2 v

/-! ### Visits -/

/-- One link of the chains that a sweep follows. -/
def Fresh (g : Graph) (neighbours : Nat → List Nat) (seen : List Nat) (v w : Nat) : Prop :=
  w ∈ neighbours v ∧ w < g.size ∧ w ∉ seen

/-- What is connected by nodes not yet seen stays so when fewer nodes have been seen. -/
theorem Fresh.of_append {seen more : List Nat} {v w : Nat}
    (h : g.Fresh neighbours (seen ++ more) v w) : g.Fresh neighbours seen v w :=
  ⟨h.1, h.2.1, fun hw ↦ h.2.2 (List.mem_append_left more hw)⟩

/-- **A sweep visits only what hangs on its pending nodes.** -/
theorem exists_chain_of_mem_sweep (hjoin : ∀ fresh pending, (join fresh pending).Perm
      (fresh ++ pending)) (bound : Nat) :
    ∀ pending seen x, x ∈ g.sweep neighbours join bound pending seen →
      ∃ p ∈ pending, Relation.ReflTransGen (g.Fresh neighbours seen) p x := by
  induction bound with
  | zero => exact fun _ _ _ hx ↦ absurd hx List.not_mem_nil
  | succ bound ih =>
    intro pending seen x hx
    rcases pending with - | ⟨v, pending⟩
    · exact absurd hx List.not_mem_nil
    · rw [sweep] at hx
      rcases List.mem_cons.1 hx with rfl | hx
      · exact ⟨x, List.mem_cons_self .., .refl⟩
      · obtain ⟨p, hp, hchain⟩ := ih _ _ x hx
        have hchain := Relation.ReflTransGen.mono (fun _ _ ↦ Fresh.of_append) _ _ hchain
        rcases List.mem_append.1 ((hjoin _ _).mem_iff.1 hp) with hfresh | hpending
        · obtain hlink : g.Fresh neighbours seen v p := mem_unseen_iff.1 hfresh
          exact ⟨v, List.mem_cons_self .., .head hlink hchain⟩
        · exact ⟨p, List.mem_cons_of_mem v hpending, hchain⟩

/-! ### The bound -/

/-- The bound covers the pending nodes and those that have never been pending. -/
structure Suffices (g : Graph) (bound : Nat) (pending seen : List Nat) : Prop where
  seen_nodup : seen.Nodup
  seen_lt : ∀ v ∈ seen, v < g.size
  enough : pending.length + g.size ≤ bound + seen.length

/-- The bound that a sweep starts with, the size of the graph, suffices. -/
theorem suffices_start {start : Nat} (hstart : start < g.size) :
    g.Suffices g.size [start] [start] where
  seen_nodup := List.nodup_singleton start
  seen_lt _ hv := List.mem_singleton.1 hv ▸ hstart
  enough := Nat.le_of_eq (Nat.add_comm ..)

/-- Without visits left there are no pending nodes. -/
theorem Suffices.pending_eq_nil {pending seen : List Nat} (h : g.Suffices 0 pending seen) :
    pending = [] := by
  have hlen := length_le_of_nodup h.seen_nodup h.seen_lt
  have henough := h.enough
  exact List.length_eq_zero_iff.1 (by omega)

/-- **A visit keeps the bound sufficient**: one node leaves the pending ones, and those that join
them are seen from now on. -/
theorem Suffices.visit {bound v : Nat} {pending seen : List Nat}
    (h : g.Suffices (bound + 1) (v :: pending) seen) (neighbours : Nat → List Nat)
    (hjoin : ∀ fresh pending, (join fresh pending).Perm (fresh ++ pending)) :
    g.Suffices bound (join (g.unseen seen (neighbours v)) pending)
      (seen ++ g.unseen seen (neighbours v)) where
  seen_nodup := by
    refine List.nodup_append.2 ⟨h.seen_nodup, unseen_nodup g seen (neighbours v), ?_⟩
    rintro w hw _ hw' rfl
    exact (mem_unseen_iff.1 hw').2.2 hw
  seen_lt w hw := (List.mem_append.1 hw).elim (h.seen_lt w) fun hw ↦ (mem_unseen_iff.1 hw).2.1
  enough := by
    have henough := h.enough
    have hlen := (hjoin (g.unseen seen (neighbours v)) pending).length_eq
    simp only [List.length_cons, List.length_append] at henough hlen ⊢
    omega

/-- **A sweep with a sufficient bound visits all pending nodes, and every neighbour of a visited
node has been seen before or is visited too.** -/
theorem sweep_visits (neighbours : Nat → List Nat)
    (hjoin : ∀ fresh pending, (join fresh pending).Perm (fresh ++ pending)) (bound : Nat) :
    ∀ pending seen : List Nat, seen.Nodup → (∀ v ∈ seen, v < g.size) →
      pending.length + g.size ≤ bound + seen.length →
      (∀ v ∈ pending, v ∈ g.sweep neighbours join bound pending seen) ∧
        ∀ v ∈ g.sweep neighbours join bound pending seen, ∀ w ∈ neighbours v, w < g.size →
          w ∈ seen ∨ w ∈ g.sweep neighbours join bound pending seen := by
  induction bound with
  | zero =>
    intro pending seen hnodup hlt hbound
    obtain rfl := Suffices.pending_eq_nil ⟨hnodup, hlt, hbound⟩
    exact ⟨fun _ hv ↦ hv, fun _ hv ↦ absurd hv List.not_mem_nil⟩
  | succ bound ih =>
    intro pending seen hnodup hlt hbound
    rcases pending with - | ⟨v, pending⟩
    · exact ⟨fun _ hv ↦ hv, fun _ hv ↦ absurd hv List.not_mem_nil⟩
    · obtain ⟨hnodup', hlt', hbound'⟩ :=
        Suffices.visit ⟨hnodup, hlt, hbound⟩ neighbours hjoin
      rw [sweep]
      generalize hfresh : g.unseen seen (neighbours v) = fresh at hnodup' hlt' hbound'
      have hmem : ∀ w, w ∈ fresh ↔ w ∈ neighbours v ∧ w < g.size ∧ w ∉ seen := by
        intro w
        rw [← hfresh]
        exact mem_unseen_iff
      have hperm := hjoin fresh pending
      obtain ⟨hvisited, hclosed⟩ := ih (join fresh pending) (seen ++ fresh) hnodup' hlt' hbound'
      have hfreshVisited : ∀ w ∈ fresh, w ∈ g.sweep neighbours join bound (join fresh pending)
          (seen ++ fresh) := fun w hw ↦
        hvisited w (hperm.mem_iff.2 (List.mem_append_left pending hw))
      constructor
      · intro w hw
        rcases List.mem_cons.1 hw with rfl | hw
        · exact List.mem_cons_self ..
        · exact List.mem_cons_of_mem v (hvisited w (hperm.mem_iff.2 (List.mem_append_right _ hw)))
      · intro u hu w hw hsize
        rcases List.mem_cons.1 hu with rfl | hu
        · by_cases hseen : w ∈ seen
          · exact Or.inl hseen
          · exact Or.inr (List.mem_cons_of_mem u (hfreshVisited w ((hmem w).2 ⟨hw, hsize, hseen⟩)))
        · rcases hclosed u hu w hw hsize with hw' | hw'
          · exact (List.mem_append.1 hw').imp_right fun hf ↦
              List.mem_cons_of_mem v (hfreshVisited w hf)
          · exact Or.inr (List.mem_cons_of_mem v hw')

/-- **No node is visited twice.** A node that has been seen does not become pending again. -/
theorem sweep_nodup (neighbours : Nat → List Nat)
    (hjoin : ∀ fresh pending, (join fresh pending).Perm (fresh ++ pending)) (bound : Nat) :
    ∀ pending seen : List Nat, pending.Nodup → pending ⊆ seen →
      (g.sweep neighbours join bound pending seen).Nodup := by
  induction bound with
  | zero => exact fun _ _ _ _ ↦ List.nodup_nil
  | succ bound ih =>
    intro pending seen hnodup hsub
    rcases pending with - | ⟨v, pending⟩
    · exact List.nodup_nil
    · obtain ⟨hv, hnodup⟩ := List.nodup_cons.1 hnodup
      obtain ⟨hseen, hsub⟩ := List.cons_subset.1 hsub
      rw [sweep]
      generalize hfresh : g.unseen seen (neighbours v) = fresh
      have hnew : ∀ w ∈ fresh, w ∉ seen := fun w hw ↦
        (mem_unseen_iff.1 (hfresh ▸ hw)).2.2
      have hperm := hjoin fresh pending
      refine List.nodup_cons.2 ⟨fun hmem ↦ ?_, ih _ _ (hperm.nodup_iff.2 ?_) fun w hw ↦ ?_⟩
      · -- What is visited later is pending by then or has not been seen.
        obtain ⟨p, hp, hchain⟩ := exists_chain_of_mem_sweep hjoin bound _ _ v hmem
        rcases hchain.cases_tail with rfl | ⟨_, -, hlink⟩
        · rcases List.mem_append.1 (hperm.mem_iff.1 hp) with hp | hp
          · exact hnew _ hp hseen
          · exact hv hp
        · exact hlink.2.2 (List.mem_append_left fresh hseen)
      · refine List.nodup_append.2 ⟨hfresh ▸ unseen_nodup g seen (neighbours v), hnodup, ?_⟩
        rintro w hw _ hw' rfl
        exact hnew w hw (hsub hw')
      · rcases List.mem_append.1 (hperm.mem_iff.1 hw) with hw | hw
        · exact List.mem_append_right seen hw
        · exact List.mem_append_left fresh (hsub hw)

/-! ### Sweeps along the successors -/

/-- The list holds the nodes that the start reaches, each once. -/
structure Lists (g : Graph) (start : Nat) (order : List Nat) : Prop where
  nodup : order.Nodup
  mem_iff : ∀ v, v ∈ order ↔ g.Reaches start v

/-- **A sweep along the successors visits exactly what the start reaches**, in whichever order the
successors are listed and the pending nodes are taken. -/
theorem sweep_lists {start : Nat} (hstart : start < g.size)
    (hneighbours : ∀ v w, w ∈ neighbours v ↔ w ∈ g.successors v)
    (hjoin : ∀ fresh pending, (join fresh pending).Perm (fresh ++ pending)) :
    g.Lists start (g.sweep neighbours join g.size [start] [start]) where
  nodup := sweep_nodup neighbours hjoin g.size _ _ (List.nodup_singleton start)
    (List.Subset.refl _)
  mem_iff v := by
    obtain ⟨hnodup, hlt, hbound⟩ := suffices_start hstart
    obtain ⟨hvisited, hclosed⟩ := sweep_visits neighbours hjoin g.size [start] [start] hnodup hlt
      hbound
    constructor
    · intro hv
      obtain ⟨p, hp, hchain⟩ := exists_chain_of_mem_sweep hjoin g.size [start] [start] v hv
      rw [List.mem_singleton.1 hp] at hchain
      clear hv
      induction hchain with
      | refl => exact .refl hstart
      | tail _ hlink ih =>
        exact ih.step ⟨ih.lt_size, hlink.2.1, (hneighbours _ _).1 hlink.1⟩
    · intro hv
      induction hv with
      | refl _ => exact hvisited _ (List.mem_singleton_self _)
      | @step v w _ hedge ih =>
        rcases hclosed v ih w ((hneighbours v w).2 hedge.2.2) hedge.2.1 with hw | hw
        · exact hvisited w hw
        · exact hw

/-- A start that does not exist reaches nothing. -/
theorem lists_nil {start : Nat} (hstart : ¬start < g.size) : g.Lists start [] :=
  ⟨List.nodup_nil, fun _ ↦
    ⟨fun hv ↦ absurd hv List.not_mem_nil, fun hv ↦ absurd hv.start_lt_size hstart⟩⟩

/-- **A depth-first sweep lists what is reached**, each node once. -/
theorem depthSweep_lists (g : Graph) (start : Nat) : g.Lists start (g.depthSweep start) := by
  unfold depthSweep
  split
  · next hstart =>
    exact sweep_lists hstart (fun _ _ ↦ List.mem_reverse) fun fresh pending ↦
      (List.reverse_perm fresh).append_right pending
  · next hstart => exact lists_nil hstart

/-- **So does a breadth-first sweep.** The two differ in their order alone. -/
theorem breadthSweep_lists (g : Graph) (start : Nat) : g.Lists start (g.breadthSweep start) := by
  unfold breadthSweep
  split
  · next hstart => exact sweep_lists hstart (fun _ _ ↦ Iff.rfl) fun _ _ ↦ List.perm_append_comm
  · next hstart => exact lists_nil hstart

theorem mem_depthSweep_iff {start v : Nat} : v ∈ g.depthSweep start ↔ g.Reaches start v :=
  (g.depthSweep_lists start).mem_iff v

end Graph

end FlowGauge
