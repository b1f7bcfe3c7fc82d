import FlowGauge.Proofs.Graph.DepthFirst
import Mathlib.Data.Finset.Basic

/-!
# Searches with a stack

Two machines search a graph depth first with a stack of their own instead of recursion. The one
stacks *tasks*, to enter a node or to leave it, and marks a node when its task to enter is taken;
successors may therefore be stacked several times, and all but the first of these tasks are dropped.
It lists the nodes that it leaves. The other stacks *frames*, a node with its pending successors,
marks a node when its frame is put on the stack and knows which nodes have a frame. It lists the
edges into these.

Both walk the tree of `Graph.explore`. What the recursive search does below a node is told once as a
relation between trails (`Follows`), and each machine runs along it by one induction: the tasks give
the postorder, the frames give the back edges of one and the same trail (`tasks_compute`,
`frames_compute`).

## Machines without a bound

A machine is a partial function from a state to the next one, and it ends where there is none
(`EndsIn`). No bound is given to it. That it ends at all is part of what is proved: `Computes` says
that it does, and what is read off its last state.
-/

namespace FlowGauge

/-! ### Machines -/

section Machine

variable {σ α : Type} {step : σ → Option σ} {s t u : σ}

/-- Some steps lead from one state to another. -/
def Runs (step : σ → Option σ) : σ → σ → Prop :=
  Relation.ReflTransGen fun s t ↦ step s = some t

/-- Some steps lead from one state to another, in which no step is left. -/
def EndsIn (step : σ → Option σ) (s t : σ) : Prop :=
  Runs step s t ∧ step t = none

/-- A machine that ends, ends in one state. -/
theorem EndsIn.unique (ht : EndsIn step s t) (hu : EndsIn step s u) : t = u := by
  obtain ⟨hrun, hend⟩ := ht
  induction hrun using Relation.ReflTransGen.head_induction_on with
  | refl =>
    rcases hu.1.cases_head with rfl | ⟨_, hstep, -⟩
    · rfl
    · exact absurd (hend.symm.trans hstep) (by simp)
  | head hstep _ ih =>
    rcases hu.1.cases_head with rfl | ⟨_, hstep', hrest⟩
    · exact absurd (hu.2.symm.trans hstep) (by simp)
    · obtain rfl := Option.some.inj (hstep.symm.trans hstep')
      exact ih ⟨hrest, hu.2⟩

/-- The machine ends, and when it does the answer can be read off. -/
def Computes (step : σ → Option σ) (s : σ) (read : σ → α) (answer : α) : Prop :=
  (∃ t, EndsIn step s t) ∧ ∀ t, EndsIn step s t → read t = answer

/-- What is read off the last state is what the machine computes. -/
theorem EndsIn.computes (h : EndsIn step s t) (read : σ → α) : Computes step s read (read t) :=
  ⟨⟨t, h⟩, fun _ h' ↦ congrArg read (h'.unique h)⟩

end Machine

/-! ### The recursive search as a relation -/

namespace Trail

/-- The trail after a node has been entered. -/
def enter (t : Trail) (v : Nat) : Trail :=
  { t with entered := t.entered ++ [v] }

theorem toFinset_enter (t : Trail) (v : Nat) :
    (t.enter v).entered.toFinset = insert v t.entered.toFinset := by
  ext w
  simp only [enter, List.mem_toFinset, List.mem_append, List.mem_singleton, Finset.mem_insert]
  exact or_comm

/-- The trail after a node has been finished. -/
def finish (t : Trail) (v : Nat) : Trail :=
  { t with finished := t.finished ++ [v] }

/-- The trail after a back edge has been met. -/
def record (t : Trail) (u v : Nat) : Trail :=
  { t with backEdges := t.backEdges ++ [(u, v)] }

/-- Following some successors of `u` one after the other leads from one trail to another. -/
inductive Follows (g : Graph) : Nat → List Nat → Trail → Trail → Prop
  | nil {u : Nat} {t : Trail} : Follows g u [] t t
  | absent {u v : Nat} {rest : List Nat} {t t' : Trail} : g.size ≤ v → Follows g u rest t t' →
      Follows g u (v :: rest) t t'
  | done {u v : Nat} {rest : List Nat} {t t' : Trail} : v < g.size → v ∈ t.entered →
      v ∈ t.finished → Follows g u rest t t' → Follows g u (v :: rest) t t'
  | back {u v : Nat} {rest : List Nat} {t t' : Trail} : v < g.size → v ∈ t.entered →
      v ∉ t.finished → Follows g u rest (t.record u v) t' → Follows g u (v :: rest) t t'
  | fresh {u v : Nat} {rest : List Nat} {t below t' : Trail} : v < g.size → v ∉ t.entered →
      Follows g v (g.successors v) (t.enter v) below → Follows g u rest (below.finish v) t' →
      Follows g u (v :: rest) t t'

/-- The entered nodes exist and are entered once, and only entered nodes are finished. -/
structure Tidy (g : Graph) (t : Trail) : Prop where
  entered_nodup : t.entered.Nodup
  entered_lt : ∀ v ∈ t.entered, v < g.size
  finished_subset : t.finished ⊆ t.entered

variable {g : Graph} {u v : Nat} {rest : List Nat} {t t' : Trail}

/-- A search that has not begun is in order. -/
theorem tidy_blank (g : Graph) : Tidy g {} :=
  ⟨List.nodup_nil, fun _ hv ↦ absurd hv List.not_mem_nil, List.nil_subset _⟩

/-- Entering a fresh node keeps a trail in order. -/
theorem Tidy.enter (h : t.Tidy g) (hv : v < g.size) (hfresh : v ∉ t.entered) :
    (t.enter v).Tidy g where
  entered_nodup := List.nodup_append.2 ⟨h.entered_nodup, List.nodup_singleton v, by
    rintro w hw x hx rfl
    exact hfresh (List.mem_singleton.1 hx ▸ hw)⟩
  entered_lt w hw := (List.mem_append.1 hw).elim (h.entered_lt w) fun hwv ↦
    List.mem_singleton.1 hwv ▸ hv
  finished_subset _ hw := List.mem_append_left [v] (h.finished_subset hw)

/-- Recording an edge does not change which nodes were entered or left. -/
theorem Tidy.record (h : t.Tidy g) (u v : Nat) : (t.record u v).Tidy g :=
  ⟨h.entered_nodup, h.entered_lt, h.finished_subset⟩

/-- A node can be finished after the search below it. -/
theorem Tidy.finish {below : Trail} (h : below.Tidy g)
    (hgrows : (t.enter v).entered <+: below.entered) :
    (below.finish v).Tidy g ∧ t.entered <+: (below.finish v).entered := by
  refine ⟨⟨h.entered_nodup, h.entered_lt, fun w hw ↦ ?_⟩, (List.prefix_append ..).trans hgrows⟩
  rcases List.mem_append.1 hw with hw | hw
  · exact h.finished_subset hw
  · exact hgrows.subset (List.mem_append_right _ hw)

/-- Following successors only adds entered nodes and keeps a trail tidy. -/
theorem Follows.grows (h : Follows g u rest t t') (ht : t.Tidy g) :
    t'.Tidy g ∧ t.entered <+: t'.entered := by
  induction h with
  | nil => exact ⟨ht, List.prefix_refl _⟩
  | absent _ _ ih => exact ih ht
  | done _ _ _ _ ih => exact ih ht
  | back _ _ _ _ ih => exact ih (ht.record _ _)
  | fresh hv hfresh _ _ ihbelow ihrest =>
    obtain ⟨hbelow, hgrows⟩ := ihbelow (ht.enter hv hfresh)
    obtain ⟨hfinish, hgrows⟩ := hbelow.finish hgrows
    exact (ihrest hfinish).imp_right hgrows.trans

end Trail

namespace Graph

open Trail

variable {g : Graph} {start : Nat}

/-- The recursive search from a fresh node follows its successors and finishes it. -/
def Descends (g : Graph) (depth : Nat) : Prop :=
  ∀ {u : Nat} {t : Trail}, t.Tidy g → u < g.size → u ∉ t.entered →
    g.size ≤ depth + t.entered.length → ∃ below,
      Follows g u (g.successors u) (t.enter u) below ∧ g.explore depth u t = below.finish u

/-- Folding over a list of nodes follows them one by one. -/
theorem Descends.follows_foldl {depth : Nat} (h : g.Descends depth) (u : Nat) (rest : List Nat) :
    ∀ {t : Trail}, t.Tidy g → g.size ≤ depth + t.entered.length →
      Follows g u rest t (rest.foldl (g.follow depth u) t) := by
  induction rest with
  | nil => exact fun _ _ ↦ .nil
  | cons v rest ih =>
    intro t ht hdepth
    rw [List.foldl_cons]
    by_cases hv : g.size ≤ v
    · rw [follow, if_pos hv]
      exact .absent hv (ih ht hdepth)
    by_cases hent : v ∈ t.entered
    · rw [follow, if_neg hv, if_pos hent]
      split
      · next hfin => exact .done (Nat.not_le.1 hv) hent hfin (ih ht hdepth)
      · next hfin => exact .back (Nat.not_le.1 hv) hent hfin (ih (ht.record u v) hdepth)
    · rw [follow, if_neg hv, if_neg hent]
      obtain ⟨below, hbelow, heq⟩ := h ht (Nat.not_le.1 hv) hent hdepth
      obtain ⟨htidy, hgrows⟩ := hbelow.grows (ht.enter (Nat.not_le.1 hv) hent)
      obtain ⟨htidy, hgrows⟩ := htidy.finish hgrows
      have hlength := hgrows.length_le
      rw [heq]
      exact .fresh (Nat.not_le.1 hv) hent hbelow (ih htidy (by omega))

/-- **The recursive search follows the successors of the node it enters**, by induction on the depth
that is left. It cannot run out while a node is fresh. -/
theorem explore_descends (g : Graph) (depth : Nat) : g.Descends depth := by
  induction depth with
  | zero =>
    intro u t ht hu hfresh hdepth
    have htidy := ht.enter hu hfresh
    have hlength := length_le_of_nodup htidy.entered_nodup htidy.entered_lt
    rw [Trail.enter, List.length_append, List.length_singleton] at hlength
    omega
  | succ depth ih =>
    intro u t ht hu hfresh hdepth
    have hdepth' : g.size ≤ depth + (t.enter u).entered.length := by
      rw [Trail.enter, List.length_append, List.length_singleton]
      omega
    exact ⟨_, ih.follows_foldl u (g.successors u) (ht.enter hu hfresh) hdepth', rfl⟩

/-- The recursive search is the run below its start, and then it leaves the start. -/
theorem trail_follows (hstart : start < g.size) : ∃ below,
    Follows g start (g.successors start) (enter {} start) below ∧
      g.trail start = below.finish start := by
  rw [trail, if_pos hstart]
  exact explore_descends g g.size (tidy_blank g) hstart List.not_mem_nil (Nat.le_add_right _ _)

/-! ### Tasks -/

/-- What is left to do with a node. -/
inductive Task where
  | enter (v : Nat)
  | leave (v : Nat)
deriving DecidableEq

/-- The state of a search with tasks. -/
structure TaskState where
  /-- The nodes that have been entered. -/
  visited : Finset Nat := ∅
  /-- The nodes in the order of leaving them. -/
  finished : List Nat := []
  /-- The tasks, the next one first. -/
  stack : List Task
deriving DecidableEq

/-- A search with tasks starts with the task to enter the start. -/
def TaskState.initial (start : Nat) : TaskState :=
  { stack := [.enter start] }

/-- The successors for which tasks are stacked. -/
def unvisited (g : Graph) (visited : Finset Nat) (nodes : List Nat) : List Task :=
  (nodes.filter fun w ↦ w < g.size ∧ w ∉ visited).map .enter

/-- Take the next task. A node that has been entered is not entered again. -/
def takeTask (g : Graph) (s : TaskState) : Option TaskState :=
  match s.stack with
  | [] => none
  | .enter v :: rest =>
    if v ∈ s.visited then some { s with stack := rest }
    else
      let visited := insert v s.visited
      some { s with
        visited
        stack := g.unvisited visited (g.successors v) ++ .leave v :: rest }
  | .leave v :: rest => some { s with finished := s.finished ++ [v], stack := rest }

/-- A trail as it shows in a search with tasks. -/
def TaskState.ofTrail (t : Trail) (stack : List Task) : TaskState :=
  ⟨t.entered.toFinset, t.finished, stack⟩

variable {t t' : Trail} {u v : Nat} {nodes : List Nat}

/-- No task is stacked for a node that does not exist or has been entered. -/
theorem unvisited_cons_of_mem {seen : Finset Nat} (hv : g.size ≤ v ∨ v ∈ seen) :
    g.unvisited seen (v :: nodes) = g.unvisited seen nodes := by
  have hfalse : ¬(v < g.size ∧ v ∉ seen) := fun h ↦
    hv.elim (fun hle ↦ Nat.not_le.2 h.1 hle) fun hmem ↦ h.2 hmem
  rw [unvisited, List.filter_cons_of_neg (by simpa using hfalse), ← unvisited]

/-- A task is stacked for every other successor, in front of the tasks of the later ones. -/
theorem unvisited_cons_of_not_mem {seen : Finset Nat} (hv : v < g.size) (hseen : v ∉ seen) :
    g.unvisited seen (v :: nodes) = .enter v :: g.unvisited seen nodes := by
  rw [unvisited, List.filter_cons_of_pos (by simp [hv, hseen]), List.map_cons, ← unvisited]

/-- A task to enter a node that has been entered is dropped. -/
theorem takeTask_of_mem (hv : v ∈ t.entered) (stack : List Task) :
    g.takeTask (.ofTrail t (.enter v :: stack)) = some (.ofTrail t stack) :=
  if_pos (List.mem_toFinset.2 hv)

/-- A task to enter a fresh node stacks the tasks of its successors over the one to leave it. -/
theorem takeTask_of_not_mem (hv : v ∉ t.entered) (stack : List Task) :
    g.takeTask (.ofTrail t (.enter v :: stack)) = some (.ofTrail (t.enter v)
      (g.unvisited (t.enter v).entered.toFinset (g.successors v) ++ .leave v :: stack)) := by
  rw [TaskState.ofTrail, TaskState.ofTrail, toFinset_enter]
  exact if_neg fun h ↦ hv (List.mem_toFinset.1 h)

/-- **The tasks for some successors are worked off as the recursive search follows them**, whatever
had been seen when they were stacked. -/
theorem runs_tasks (h : Follows g u nodes t t') (ht : t.Tidy g) :
    ∀ (seen : Finset Nat) (stack : List Task), seen ⊆ t.entered.toFinset →
      Runs g.takeTask (.ofTrail t (g.unvisited seen nodes ++ stack)) (.ofTrail t' stack) := by
  have hskip : ∀ {v : Nat} {nodes : List Nat} {t t' : Trail} {seen : Finset Nat}
      {stack : List Task}, v < g.size → v ∈ t.entered →
      Runs g.takeTask (.ofTrail t (g.unvisited seen nodes ++ stack)) (.ofTrail t' stack) →
      Runs g.takeTask (.ofTrail t (g.unvisited seen (v :: nodes) ++ stack))
        (.ofTrail t' stack) := by
    intro v nodes t t' seen stack hv hent hrest
    by_cases hseen : v ∈ seen
    · rwa [unvisited_cons_of_mem (Or.inr hseen)]
    · rw [unvisited_cons_of_not_mem hv hseen]
      exact .head (takeTask_of_mem hent _) hrest
  induction h with
  | nil => exact fun _ _ _ ↦ .refl
  | absent hv _ ih =>
    intro seen stack hseen
    rw [unvisited_cons_of_mem (Or.inl hv)]
    exact ih ht seen stack hseen
  | done hv hent _ _ ih =>
    exact fun seen stack hseen ↦ hskip hv hent (ih ht seen stack hseen)
  | back hv hent _ _ ih =>
    exact fun seen stack hseen ↦ hskip hv hent (ih (ht.record _ _) seen stack hseen)
  | fresh hv hfresh hbelow _ ihbelow ihrest =>
    intro seen stack hseen
    obtain ⟨htidy, hgrows⟩ := hbelow.grows (ht.enter hv hfresh)
    obtain ⟨htidy, hgrows⟩ := htidy.finish hgrows
    rw [unvisited_cons_of_not_mem hv fun h ↦ hfresh (List.mem_toFinset.1 (hseen h))]
    -- Enter the node, search below it, leave it, and go on with the other successors.
    refine .head (takeTask_of_not_mem hfresh _) ?_
    refine (ihbelow (ht.enter hv hfresh) _ _ (Finset.Subset.refl _)).trans ?_
    exact .head rfl (ihrest htidy seen stack fun w hw ↦
      List.mem_toFinset.2 (hgrows.subset (List.mem_toFinset.1 (hseen hw))))

/-- **The search with tasks gives the postorder.** -/
theorem tasks_compute (hstart : start < g.size) :
    Computes g.takeTask (.initial start) TaskState.finished (g.postorder start) := by
  obtain ⟨below, hbelow, heq⟩ := trail_follows hstart
  have htidy := (tidy_blank g).enter hstart List.not_mem_nil
  have hrun : Runs g.takeTask (.initial start) (.ofTrail (below.finish start) []) :=
    .head (takeTask_of_not_mem (t := {}) List.not_mem_nil []) <|
      (runs_tasks hbelow htidy _ _ (Finset.Subset.refl _)).trans <|
        .single rfl
  rw [postorder, heq]
  exact EndsIn.computes ⟨hrun, rfl⟩ TaskState.finished

/-! ### Frames -/

/-- The state of a search with frames. -/
structure FrameState where
  /-- The nodes that have had a frame. -/
  visited : Finset Nat
  /-- The nodes that have a frame. -/
  onStack : Finset Nat
  /-- The edges into nodes that had a frame when they were met. -/
  backEdges : List (Nat × Nat) := []
  /-- Nodes with their pending successors, the newest first. -/
  stack : List (Nat × List Nat)
deriving DecidableEq

/-- The successors that exist. -/
def existing (g : Graph) (nodes : List Nat) : List Nat :=
  nodes.filter (· < g.size)

/-- A search with frames starts with a frame of the start. -/
def FrameState.initial (g : Graph) (start : Nat) : FrameState where
  visited := {start}
  onStack := {start}
  stack := [(start, g.existing (g.successors start))]

/-- Take the next successor from the newest frame, or take the frame off when none is pending. -/
def takeEdge (g : Graph) (s : FrameState) : Option FrameState :=
  match s.stack with
  | [] => none
  | (u, []) :: rest => some { s with onStack := s.onStack.erase u, stack := rest }
  | (u, v :: pending) :: rest =>
    if v ∈ s.onStack then
      some { s with backEdges := s.backEdges ++ [(u, v)], stack := (u, pending) :: rest }
    else if v ∈ s.visited then some { s with stack := (u, pending) :: rest }
    else some { s with
      visited := insert v s.visited
      onStack := insert v s.onStack
      stack := (v, g.existing (g.successors v)) :: (u, pending) :: rest }

/-- A trail as it shows in a search with frames: the nodes on the stack are those entered and not
finished. -/
def FrameState.ofTrail (t : Trail) (stack : List (Nat × List Nat)) : FrameState :=
  ⟨t.entered.toFinset, t.entered.toFinset \ t.finished.toFinset, t.backEdges, stack⟩

/-- An edge to a node that has been left is passed over. -/
theorem takeEdge_of_finished (hent : v ∈ t.entered) (hfin : v ∈ t.finished) (pending : List Nat)
    (stack : List (Nat × List Nat)) : g.takeEdge (.ofTrail t ((u, v :: pending) :: stack)) =
      some (.ofTrail t ((u, pending) :: stack)) := by
  show ite (v ∈ t.entered.toFinset \ t.finished.toFinset) _ _ = _
  rw [if_neg (by simp [hfin])]
  exact if_pos (List.mem_toFinset.2 hent)

/-- An edge to a node that is still open is a back edge and is recorded. -/
theorem takeEdge_of_open (hent : v ∈ t.entered) (hfin : v ∉ t.finished) (pending : List Nat)
    (stack : List (Nat × List Nat)) : g.takeEdge (.ofTrail t ((u, v :: pending) :: stack)) =
      some (.ofTrail (t.record u v) ((u, pending) :: stack)) :=
  if_pos (Finset.mem_sdiff.2 ⟨List.mem_toFinset.2 hent, fun h ↦ hfin (List.mem_toFinset.1 h)⟩)

/-- An edge to a fresh node puts a frame on the stack. -/
theorem takeEdge_of_fresh (ht : t.Tidy g) (hfresh : v ∉ t.entered) (pending : List Nat)
    (stack : List (Nat × List Nat)) : g.takeEdge (.ofTrail t ((u, v :: pending) :: stack)) =
      some (.ofTrail (t.enter v)
        ((v, g.existing (g.successors v)) :: (u, pending) :: stack)) := by
  have hfin : v ∉ (t.enter v).finished.toFinset := fun h ↦
    hfresh (ht.finished_subset (List.mem_toFinset.1 h))
  show ite (v ∈ t.entered.toFinset \ t.finished.toFinset) _ _ = _
  rw [if_neg (by simp [hfresh]), FrameState.ofTrail, FrameState.ofTrail, toFinset_enter,
    Finset.insert_sdiff_of_notMem _ hfin]
  exact if_neg fun h ↦ hfresh (List.mem_toFinset.1 h)

/-- A frame without pending successors is taken off, and its node is left. -/
theorem takeEdge_nil (t : Trail) (stack : List (Nat × List Nat)) :
    g.takeEdge (.ofTrail t ((v, []) :: stack)) = some (.ofTrail (t.finish v) stack) := by
  have hopen : t.entered.toFinset \ (t.finished ++ [v]).toFinset =
      (t.entered.toFinset \ t.finished.toFinset).erase v := by
    ext w
    simp only [Finset.mem_sdiff, Finset.mem_erase, List.mem_toFinset, List.mem_append,
      List.mem_singleton]
    tauto
  rw [FrameState.ofTrail, FrameState.ofTrail, Trail.finish, hopen]
  rfl

/-- **The successors pending in a frame are worked off as the recursive search follows them.** -/
theorem runs_frames (h : Follows g u nodes t t') (ht : t.Tidy g) :
    ∀ stack : List (Nat × List Nat), Runs g.takeEdge (.ofTrail t ((u, g.existing nodes) :: stack))
      (.ofTrail t' ((u, []) :: stack)) := by
  have hcons : ∀ {v : Nat} {nodes : List Nat}, v < g.size →
      g.existing (v :: nodes) = v :: g.existing nodes := fun hv ↦
    List.filter_cons_of_pos (decide_eq_true hv)
  induction h with
  | nil => exact fun _ ↦ .refl
  | @absent u v rest t t' hv _ ih =>
    intro stack
    have habsent : g.existing (v :: rest) = g.existing rest :=
      List.filter_cons_of_neg (by simpa using hv)
    rw [habsent]
    exact ih ht stack
  | done hv hent hfin _ ih =>
    intro stack
    rw [hcons hv]
    exact .head (takeEdge_of_finished hent hfin _ stack) (ih ht stack)
  | back hv hent hfin _ ih =>
    intro stack
    rw [hcons hv]
    exact .head (takeEdge_of_open hent hfin _ stack) (ih (ht.record _ _) stack)
  | fresh hv hfresh hbelow _ ihbelow ihrest =>
    intro stack
    obtain ⟨htidy, hgrows⟩ := hbelow.grows (ht.enter hv hfresh)
    rw [hcons hv]
    refine .head (takeEdge_of_fresh ht hfresh _ stack) ?_
    refine (ihbelow (ht.enter hv hfresh) _).trans ?_
    exact .head (takeEdge_nil _ _) (ihrest (htidy.finish hgrows).1 stack)

/-- **The search with frames gives the back edges.** -/
theorem frames_compute (hstart : start < g.size) :
    Computes g.takeEdge (.initial g start) FrameState.backEdges (g.trail start).backEdges := by
  obtain ⟨below, hbelow, heq⟩ := trail_follows hstart
  have htidy := (tidy_blank g).enter hstart List.not_mem_nil
  have hrun : Runs g.takeEdge (.initial g start) (.ofTrail (below.finish start) []) :=
    (runs_frames hbelow htidy []).trans (.single (takeEdge_nil below []))
  rw [heq]
  exact EndsIn.computes ⟨hrun, rfl⟩ FrameState.backEdges

end Graph

end FlowGauge
