import FlowGauge.Proofs.Graph.Traversals
import Mathlib.Tactic.IntervalCases

/-!
# When the depth-first sweep is the preorder

The recursive search marks a node when it enters it, the depth-first sweep when it becomes pending.
A node that is pending on account of one node and is met again below an earlier successor of that
node shows the difference: the recursive search enters it there, the sweep leaves it for later, and
the two orders part (`preorder_differs`).

They do not part when a successor leads to a later one only back through the node itself
(`Separated`). The node has been entered by then, so the recursive search stops at it and never
enters a pending node too early. Cycles and joins are allowed: of a reached node, only what its own
successors have in common matters. The proof runs the sweep along the recursive search, one
induction over `Trail.Follows` as for the other machines (`runs_sweep`); what it carries is that
the pending nodes are cut off from the current one by the nodes that have been entered.
-/

namespace FlowGauge

namespace Graph

open Trail

variable {g : Graph} {start : Nat}

/-- A successor of a reached node leads to a later one only back through the node. -/
def Separated (g : Graph) (start : Nat) : Prop :=
  ∀ u, g.Reaches start u → (g.successors u).Pairwise fun v w ↦ ∀ π, g.Path v w π → u ∈ π

/-- Every way from `u` to `w` comes to an entered node behind `u`. -/
def CutOff (g : Graph) (entered : List Nat) (u w : Nat) : Prop :=
  ∀ v π, g.Edge u v → g.Path v w π → ∃ x ∈ π, x ∈ entered

section CutOff

variable {entered : List Nat} {u v w : Nat} {π : List Nat}

/-- The more nodes are entered, the more is cut off. -/
theorem CutOff.mono {more : List Nat} (h : g.CutOff entered u w) (hsub : entered ⊆ more) :
    g.CutOff more u w := by
  intro v π hedge hπ
  obtain ⟨x, hx, hent⟩ := h v π hedge hπ
  exact ⟨x, hx, hsub hent⟩

/-- What is cut off from a node is cut off from the fresh nodes behind it. -/
theorem CutOff.step (h : g.CutOff entered u w) (hedge : g.Edge u v) (hfresh : v ∉ entered) :
    g.CutOff entered v w := by
  intro x π hx hπ
  obtain ⟨y, hy, hent⟩ := h v (v :: π) hedge (hπ.cons hx)
  rcases List.mem_cons.1 hy with rfl | hy
  · exact absurd hent hfresh
  · exact ⟨y, hy, hent⟩

/-- An edge leads to a node that is cut off only if the node has been entered. -/
theorem CutOff.mem_of_edge (h : g.CutOff entered u w) (hedge : g.Edge u w) : w ∈ entered := by
  obtain ⟨x, hx, hent⟩ := h w [w] hedge (.single hedge.2.1)
  exact List.mem_singleton.1 hx ▸ hent

/-- Under an entered node, its later successors are cut off from a fresh earlier one. -/
theorem Separated.cutOff {rest : List Nat} (hsep : g.Separated start) (hu : g.Reaches start u)
    (hent : u ∈ entered) (hnodes : v :: rest <:+ g.successors u) (hfresh : v ∉ entered)
    (hw : w ∈ rest) : g.CutOff entered v w ∧ (v < g.size → w ≠ v) := by
  have hne : u ≠ v := fun heq ↦ hfresh (heq ▸ hent)
  have hpass : ∀ π, g.Path v w π → u ∈ π :=
    (List.pairwise_cons.1 ((hsep u hu).sublist hnodes.sublist)).1 w hw
  constructor
  · intro x π hx hπ
    rcases List.mem_cons.1 (hpass _ (hπ.cons hx)) with heq | hmem
    · exact absurd heq hne
    · exact ⟨u, hmem, hent⟩
  · rintro hv rfl
    exact hne (List.mem_singleton.1 (hpass [w] (.single hv)))

end CutOff

/-! ### Pending nodes -/

/-- The nodes that are still to be entered. -/
def awaited (g : Graph) (entered nodes : List Nat) : List Nat :=
  nodes.filter fun w ↦ w < g.size ∧ w ∉ entered

section Awaited

variable {entered nodes : List Nat} {v w : Nat}

theorem mem_awaited_iff : w ∈ g.awaited entered nodes ↔ w ∈ nodes ∧ w < g.size ∧ w ∉ entered := by
  rw [awaited, List.mem_filter, decide_eq_true_eq]

/-- Nodes that do not exist or have been entered are not awaited. -/
theorem awaited_cons_of_mem (hv : g.size ≤ v ∨ v ∈ entered) :
    g.awaited entered (v :: nodes) = g.awaited entered nodes := by
  refine List.filter_cons_of_neg ?_
  rw [decide_eq_true_eq]
  exact fun h ↦ hv.elim (Nat.not_le.2 h.1) h.2

theorem awaited_cons_of_not_mem (hv : v < g.size) (hfresh : v ∉ entered) :
    g.awaited entered (v :: nodes) = v :: g.awaited entered nodes :=
  List.filter_cons_of_pos (decide_eq_true ⟨hv, hfresh⟩)

/-- Only what has been entered among the listed nodes matters. -/
theorem awaited_congr {entered' : List Nat}
    (h : ∀ w ∈ nodes, w < g.size → (w ∈ entered ↔ w ∈ entered')) :
    g.awaited entered nodes = g.awaited entered' nodes := by
  refine List.filter_congr fun w hw ↦ decide_eq_decide.2 ?_
  exact and_congr_right fun hlt ↦ not_congr (h w hw hlt)

/-- Candidates that are listed once are taken as they are. -/
theorem unseen_eq_awaited {seen candidates : List Nat}
    (h : (g.awaited seen candidates).Nodup) :
    g.unseen seen candidates = g.awaited seen candidates := by
  unfold unseen
  induction candidates using List.reverseRecOn with
  | nil => rfl
  | append_singleton candidates c ih =>
    have hsplit : g.awaited seen (candidates ++ [c]) =
        g.awaited seen candidates ++ g.awaited seen [c] := List.filter_append ..
    rw [hsplit] at h ⊢
    obtain ⟨hnodup, -, hdisjoint⟩ := List.nodup_append.1 h
    rw [List.foldl_append, ih hnodup, List.foldl_cons, List.foldl_nil]
    by_cases hc : c < g.size ∧ c ∉ seen
    · have hlast : g.awaited seen [c] = [c] := awaited_cons_of_not_mem hc.1 hc.2
      have hfresh : c ∉ g.awaited seen candidates := fun hmem ↦
        hdisjoint c hmem c (by rw [hlast]; exact List.mem_singleton_self c) rfl
      rw [if_pos ⟨hc.1, hc.2, hfresh⟩, hlast]
    · have hlast : g.awaited seen [c] = [] :=
        List.filter_cons_of_neg (by simpa using hc)
      rw [if_neg fun h ↦ hc ⟨h.1, h.2.1⟩, hlast, List.append_nil]

/-- In a separated graph no fresh successor is listed twice. -/
theorem Separated.awaited_nodup (hsep : g.Separated start) (hv : g.Reaches start v)
    (hent : v ∈ entered) : (g.awaited entered (g.successors v)).Nodup := by
  refine ((hsep v hv).filter _).imp_of_mem fun {x y} hx _ hpass heq ↦ ?_
  obtain ⟨-, hlt, hfresh⟩ := mem_awaited_iff.1 hx
  have hmem := hpass [x] (heq ▸ .single hlt)
  exact hfresh (List.mem_singleton.1 hmem ▸ hent)

end Awaited

/-! ### The sweep along the recursive search -/

/-- The sweep has seen what has been entered and what is pending. -/
def Synced (t : Trail) (pending seen : List Nat) : Prop :=
  ∀ w, w ∈ seen ↔ w ∈ t.entered ∨ w ∈ pending

variable {t t' : Trail} {u v : Nat} {nodes pending seen : List Nat}

/-- **Visiting a node of which no successor is pending is entering it.** -/
theorem takeNewest_visit (hsep : g.Separated start) (hv : g.Reaches start v)
    (hsync : Synced t (v :: pending) seen) (hfree : ∀ w, g.Edge v w → w ∉ pending) :
    ∃ seen', Synced (t.enter v) (g.awaited (t.enter v).entered (g.successors v) ++ pending) seen' ∧
      g.takeNewest ⟨t.entered, v :: pending, seen⟩ =
        some ⟨(t.enter v).entered, g.awaited (t.enter v).entered (g.successors v) ++ pending,
          seen'⟩ := by
  have hmem : ∀ {w}, w ∈ (t.enter v).entered ↔ w ∈ t.entered ∨ w = v := by
    simp [Trail.enter]
  have hsame : g.awaited seen (g.successors v) =
      g.awaited (t.enter v).entered (g.successors v) := by
    refine awaited_congr fun w hw hlt ↦ ?_
    have hnot := hfree w ⟨hv.lt_size, hlt, hw⟩
    rw [hsync w, hmem, List.mem_cons]
    simp [hnot]
  have hnodup : (g.awaited seen (g.successors v).reverse).Nodup := by
    rw [awaited, List.filter_reverse, List.nodup_reverse, ← awaited, hsame]
    exact hsep.awaited_nodup hv (hmem.2 (Or.inr rfl))
  have hfresh : (g.unseen seen (g.successors v).reverse).reverse =
      g.awaited (t.enter v).entered (g.successors v) := by
    rw [unseen_eq_awaited hnodup, awaited, List.filter_reverse, List.reverse_reverse, ← awaited,
      hsame]
  have hpushed : ∀ w, w ∈ g.unseen seen (g.successors v).reverse ↔
      w ∈ g.awaited (t.enter v).entered (g.successors v) := by
    intro w
    rw [← hfresh, List.mem_reverse]
  refine ⟨seen ++ g.unseen seen (g.successors v).reverse, fun w ↦ ?_, ?_⟩
  · rw [List.mem_append, hpushed, hsync w, hmem, List.mem_append, List.mem_cons]
    tauto
  · rw [← hfresh]
    rfl

/-- **The sweep works off the awaited successors of a node as the recursive search follows them**,
and the nodes that were pending before are not entered meanwhile. -/
theorem runs_sweep (hsep : g.Separated start) (h : Follows g u nodes t t') (ht : t.Tidy g)
    (hu : g.Reaches start u) (hent : u ∈ t.entered) (hnodes : nodes <:+ g.successors u) :
    ∀ stack seen : List Nat, Synced t (g.awaited t.entered nodes ++ stack) seen →
      (∀ w ∈ stack, w ∉ t.entered ∧ g.CutOff t.entered u w) →
      ∃ seen', Synced t' stack seen' ∧ (∀ w ∈ stack, w ∉ t'.entered) ∧
        Runs g.takeNewest ⟨t.entered, g.awaited t.entered nodes ++ stack, seen⟩
          ⟨t'.entered, stack, seen'⟩ := by
  induction h with
  | nil => exact fun stack seen hsync hstack ↦ ⟨seen, hsync, fun w hw ↦ (hstack w hw).1, .refl⟩
  | absent hv _ ih =>
    rw [awaited_cons_of_mem (Or.inl hv)]
    exact ih ht hu hent ((List.suffix_cons ..).trans hnodes)
  | done _ hmem _ _ ih =>
    rw [awaited_cons_of_mem (Or.inr hmem)]
    exact ih ht hu hent ((List.suffix_cons ..).trans hnodes)
  | back _ hmem _ _ ih =>
    rw [awaited_cons_of_mem (Or.inr hmem)]
    exact ih (ht.record _ _) hu hent ((List.suffix_cons ..).trans hnodes)
  | @fresh u v rest t below t' hv hfresh hbelow _ ihbelow ihrest =>
    intro stack seen hsync hstack
    rw [awaited_cons_of_not_mem hv hfresh, List.cons_append] at hsync ⊢
    have hedge : g.Edge u v := ⟨hu.lt_size, hv, hnodes.subset List.mem_cons_self⟩
    have hreach := hu.step hedge
    have hsub : t.entered ⊆ (t.enter v).entered := List.subset_append_left ..
    -- The pending nodes are fresh and cut off from `v`, be they later successors of `u` or older.
    have hcut : ∀ w ∈ g.awaited t.entered rest ++ stack,
        w ∉ (t.enter v).entered ∧ g.CutOff t.entered v w := by
      intro w hw
      have hboth : w ∉ t.entered ∧ g.CutOff t.entered v w ∧ w ≠ v := by
        rcases List.mem_append.1 hw with hw | hw
        · obtain ⟨hmem, -, hnot⟩ := mem_awaited_iff.1 hw
          obtain ⟨hcut, hne⟩ := hsep.cutOff hu hent hnodes hfresh hmem
          exact ⟨hnot, hcut, hne hv⟩
        · obtain ⟨hnot, hcut⟩ := hstack w hw
          refine ⟨hnot, hcut.step hedge hfresh, ?_⟩
          rintro rfl
          exact hfresh (hcut.mem_of_edge hedge)
      refine ⟨fun hmem ↦ ?_, hboth.2.1⟩
      rcases List.mem_append.1 hmem with hmem | hmem
      · exact hboth.1 hmem
      · exact hboth.2.2 (List.mem_singleton.1 hmem)
    have hfree : ∀ w, g.Edge v w → w ∉ g.awaited t.entered rest ++ stack := by
      intro w hw hpending
      obtain ⟨hnot, hcut⟩ := hcut w hpending
      exact hnot (hsub (hcut.mem_of_edge hw))
    obtain ⟨seen₁, hsync₁, hstep⟩ := takeNewest_visit hsep hreach hsync hfree
    obtain ⟨hbelowTidy, hgrows⟩ := hbelow.grows (ht.enter hv hfresh)
    obtain ⟨seen₂, hsync₂, hlater, hrun⟩ := ihbelow (ht.enter hv hfresh) hreach
      (List.mem_append_right _ (List.mem_singleton_self v)) (List.suffix_refl _) _ seen₁ hsync₁
      fun w hw ↦ ⟨(hcut w hw).1, (hcut w hw).2.mono hsub⟩
    obtain ⟨hfinished, hgrows⟩ := hbelowTidy.finish hgrows
    -- Nothing that was awaited has been entered below `v`.
    have hsame : g.awaited t.entered rest = g.awaited (below.finish v).entered rest := by
      refine awaited_congr fun w hw hlt ↦ ⟨fun hmem ↦ hgrows.subset hmem, fun hmem ↦ ?_⟩
      by_contra hnot
      exact hlater w (List.mem_append_left _ (mem_awaited_iff.2 ⟨hw, hlt, hnot⟩)) hmem
    rw [hsame] at hsync₂
    obtain ⟨seen₃, hsync₃, hlast, hrest⟩ := ihrest hfinished hu (hgrows.subset hent)
      ((List.suffix_cons ..).trans hnodes) stack seen₂ hsync₂ fun w hw ↦
        ⟨hlater w (List.mem_append_right _ hw), (hstack w hw).2.mono hgrows.subset⟩
    rw [← hsame] at hrest
    exact ⟨seen₃, hsync₃, hlast, .head hstep (hrun.trans hrest)⟩

/-- **In a separated graph the depth-first sweep is the preorder of the recursive search.** -/
theorem depthSweep_eq_entered (g : Graph) (start : Nat) (hsep : g.Separated start) :
    g.depthSweep start = (g.trail start).entered := by
  by_cases hstart : start < g.size
  · obtain ⟨below, hbelow, heq⟩ := trail_follows hstart
    have hreach : g.Reaches start start := .refl hstart
    have hsync : Synced {} [start] [start] := fun w ↦ by simp
    obtain ⟨seen₁, hsync₁, hstep⟩ := takeNewest_visit hsep hreach hsync fun _ _ ↦
      List.not_mem_nil
    obtain ⟨seen₂, -, -, hrun⟩ := runs_sweep hsep hbelow
      ((tidy_blank g).enter hstart List.not_mem_nil) hreach (List.mem_singleton_self start)
      (List.suffix_refl _) [] seen₁ hsync₁ fun _ hw ↦ absurd hw List.not_mem_nil
    have hend : EndsIn g.takeNewest (.initial start) ⟨below.entered, [], seen₂⟩ :=
      ⟨.head hstep hrun, rfl⟩
    rw [heq, ← (depthSweep_computes hstart).2 _ hend]
    rfl
  · rw [depthSweep, if_neg hstart, trail_eq_of_size_le (Nat.le_of_not_lt hstart)]

/-- A path to a node passes the only source of edges into it. -/
theorem Path.mem_of_only_source {w : Nat} {π : List Nat} (h : g.Path v w π) (hne : v ≠ w)
    (honly : ∀ x, g.Edge x w → x = u) : u ∈ π := by
  cases h with
  | single _ => exact absurd rfl hne
  | snoc hpath hedge => exact honly _ hedge ▸ List.mem_append_left _ hpath.target_mem

/-- A loop around two branches that join. -/
def joinedLoop : Graph :=
  .ofEdges 4 [(0, 1), (0, 2), (1, 3), (2, 3), (3, 0)]

theorem depthSweep_eq_entered_joinedLoop : joinedLoop.Separated 0 ∧
    joinedLoop.depthSweep 0 = (joinedLoop.trail 0).entered := by
  have honly : ∀ x < joinedLoop.size, 2 ∈ joinedLoop.successors x → x = 0 := by decide
  have hsep : joinedLoop.Separated 0 := by
    intro u hu
    have hlt : u < 4 := hu.lt_size
    interval_cases u
    · show [1, 2].Pairwise _
      refine List.pairwise_pair.2 fun π hπ ↦ ?_
      exact hπ.mem_of_only_source (by decide) fun x hedge ↦ honly x hedge.1 hedge.2.2
    all_goals exact List.pairwise_singleton _ _
  exact ⟨hsep, depthSweep_eq_entered joinedLoop 0 hsep⟩

/-- Two branches of which the first leads to the second. -/
def sideways : Graph :=
  .ofEdges 4 [(0, 1), (0, 2), (1, 2), (1, 3)]

/-- **The depth-first sweep is not always a preorder.** Node 2 is pending when node 1 is visited,
and stays so until everything else below node 1 has been visited. -/
theorem preorder_differs :
    (∀ u < sideways.size, ∀ v ∈ sideways.successors u, v < sideways.size) ∧ 0 < sideways.size ∧
      sideways.depthSweep 0 = [0, 1, 3, 2] ∧ (sideways.trail 0).entered = [0, 1, 2, 3] ∧
        sideways.depthSweep 0 ≠ (sideways.trail 0).entered := by
  decide

end Graph

end FlowGauge
