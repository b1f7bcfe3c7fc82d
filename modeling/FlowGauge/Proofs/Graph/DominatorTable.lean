import FlowGauge.Graph.Dominators
import FlowGauge.Proofs.Graph.DepthFirst
import Mathlib.Data.List.Induction
import Mathlib.Tactic.Linarith

/-!
# Chains of a dominator table and where they meet

An entry `v ↦ u` of a table is one step up, and `DominatorTable.Climbs` follows such steps. Chains
end when some height falls along them (`DominatorTable.Rooted`). Their positions need not fall: with
predecessor lists that do not mirror the successor lists, the node above another one may come later
in the numbering. Climbing from two nodes still meets, because each step lowers a height
(`Rooted.walks_meet`), but what it finds is the lowest common node only among the *records* of the
two chains, the nodes that come before everything passed on the way to them (`Walks.records`). The
same holds of `meetAll` and all predecessors of a node that have an entry (`Rooted.meets_meetAll`).

## Positions and heights

* *Positions* are what the loop compares. They decide which of two nodes moves, and nothing else is
  known of them but that they tell nodes apart and that the entry comes first.
* *Heights* are what makes the loop end. They are not computed anywhere: a table that a run has
  produced has one, because every entry was made from entries that were there before.

Where positions fall along the chains the two coincide, every node of a chain is a record, and the
meeting point is the lowest common node of the chains as usual. That is the case for graphs whose
successors and predecessors mirror each other.

The chain of a node as a list is what following immediate dominators visits, without any bound
(`Dominators.chain_shape`).
-/

namespace FlowGauge

namespace DominatorTable

variable {table : DominatorTable} {numbering : Array (Option Nat)}

/-! ### Entries and chains -/

/-- A node has an entry. -/
def Filled (table : DominatorTable) (v : Nat) : Prop :=
  (table.at? v).isSome

theorem filled_of_at? {v u : Nat} (h : table.at? v = some u) : table.Filled v := by
  rw [Filled, h]
  rfl

theorem Filled.exists_at? {v : Nat} (h : table.Filled v) : ∃ u, table.at? v = some u :=
  Option.isSome_iff_exists.1 h

theorem Filled.not_isNone {v : Nat} (h : table.Filled v) : ¬(table.at? v).isNone := by
  rw [Option.isNone_iff_eq_none]
  exact Option.isSome_iff_ne_none.1 h

/-- Writing an entry changes that entry and no other. -/
theorem at?_setIfInBounds (table : DominatorTable) {v : Nat} (hv : v < table.size) (u w : Nat) :
    (DominatorTable.at? (table.setIfInBounds v (some u)) w) =
      if w = v then some u else table.at? w := by
  unfold at?
  rw [Array.getElem?_setIfInBounds]
  by_cases h : w = v
  · rw [if_pos h.symm, if_pos h, if_pos (h ▸ hv)]
    rfl
  · rw [if_neg (Ne.symm h), if_neg h]

/-- The chain of `v` passes `x`. -/
inductive Climbs (table : DominatorTable) : Nat → Nat → Prop
  | refl {v : Nat} : table.Filled v → table.Climbs v v
  | up {v u x : Nat} : table.at? v = some u → u ≠ v → table.Climbs u x → table.Climbs v x

/-- A climb starts at a node with an entry. -/
theorem Climbs.filled_left {v x : Nat} (h : table.Climbs v x) : table.Filled v := by
  cases h with
  | refl hv => exact hv
  | up hat _ _ => exact filled_of_at? hat

/-- It ends at one, too. -/
theorem Climbs.filled_right {v x : Nat} (h : table.Climbs v x) : table.Filled x := by
  induction h with
  | refl hv => exact hv
  | up _ _ _ ih => exact ih

/-! ### Records of a chain -/

/-- The number by which `meet` compares two nodes. -/
def position (numbering : Array (Option Nat)) (v : Nat) : Nat :=
  (numbering[v]?.join).getD numbering.size

/-- `x` is a record of the chain of `v`: the chain passes it, and all nodes passed on the way come
later in the numbering. -/
inductive Records (table : DominatorTable) (numbering : Array (Option Nat)) : Nat → Nat → Prop
  | refl {v : Nat} : table.Filled v → table.Records numbering v v
  | up {v u x : Nat} : table.at? v = some u → u ≠ v → position numbering x < position numbering v →
      table.Records numbering u x → table.Records numbering v x

namespace Records

variable {v w x : Nat}

/-- A record of a chain lies on the chain. -/
theorem climbs (h : table.Records numbering v x) : table.Climbs v x := by
  induction h with
  | refl hv => exact .refl hv
  | up hat hne _ _ ih => exact .up hat hne ih

/-- A record comes no later than the node it is a record of. -/
theorem position_le (h : table.Records numbering v x) :
    position numbering x ≤ position numbering v := by
  cases h with
  | refl _ => exact Nat.le_refl _
  | up _ _ hlt _ => exact Nat.le_of_lt hlt

/-- Records of records are records: what comes before everything passed on both ways does so on the
whole way. -/
theorem trans (h : table.Records numbering v w) (h' : table.Records numbering w x) :
    table.Records numbering v x := by
  induction h with
  | refl _ => exact h'
  | up hat hne hlt _ ih => exact .up hat hne (Nat.lt_of_le_of_lt h'.position_le hlt) (ih h')

/-- All records of a chain but the first are records of the rest of the chain. -/
theorem of_at? {u : Nat} (h : table.Records numbering v x) (hne : x ≠ v)
    (hat : table.at? v = some u) : table.Records numbering u x := by
  cases h with
  | refl _ => exact absurd rfl hne
  | up hat' _ _ hx => exact Option.some.inj (hat'.symm.trans hat) ▸ hx

end Records

/-! ### Walks -/

/-- Two chains are climbed from `a` and `b` until they meet in `m`. The node at the greater position
always has a node above it and goes there. -/
inductive Walks (table : DominatorTable) (numbering : Array (Option Nat)) : Nat → Nat → Nat → Prop
  | met {a : Nat} : table.Filled a → table.Walks numbering a a a
  | left {a b up m : Nat} : position numbering b < position numbering a →
      table.at? a = some up → up ≠ a → table.Walks numbering up b m → table.Walks numbering a b m
  | right {a b up m : Nat} : position numbering a < position numbering b →
      table.at? b = some up → up ≠ b → table.Walks numbering a up m → table.Walks numbering a b m

/-- **A walk ends at the lowest common record of both chains.** The node that goes up is at the
greater position, so it is no record of the other chain. -/
theorem Walks.records {a b m : Nat} (h : table.Walks numbering a b m) :
    table.Records numbering a m ∧ table.Records numbering b m ∧ ∀ x,
      table.Records numbering a x → table.Records numbering b x → table.Records numbering m x := by
  induction h with
  | met ha => exact ⟨.refl ha, .refl ha, fun x hx _ ↦ hx⟩
  | left hlt hat hne _ ih =>
    obtain ⟨ham, hbm, hlow⟩ := ih
    refine ⟨.up hat hne (Nat.lt_of_le_of_lt hbm.position_le hlt) ham, hbm, fun x hax hbx ↦ ?_⟩
    refine hlow x (hax.of_at? ?_ hat) hbx
    rintro rfl
    exact absurd hbx.position_le (Nat.not_le_of_lt hlt)
  | right hlt hat hne _ ih =>
    obtain ⟨ham, hbm, hlow⟩ := ih
    refine ⟨ham, .up hat hne (Nat.lt_of_le_of_lt ham.position_le hlt) hbm, fun x hax hbx ↦ ?_⟩
    refine hlow x hax (hbx.of_at? ?_ hat)
    rintro rfl
    exact absurd hax.position_le (Nat.not_le_of_lt hlt)

/-- **Two nodes that meet have their common records above the meeting point.** -/
theorem Walks.records_iff {a b m x : Nat} (h : table.Walks numbering a b m) :
    table.Records numbering m x ↔
      table.Records numbering a x ∧ table.Records numbering b x := by
  obtain ⟨ham, hbm, hlow⟩ := h.records
  exact ⟨fun hx ↦ ⟨ham.trans hx, hbm.trans hx⟩, fun hx ↦ hlow x hx.1 hx.2⟩

/-- One step of the climb, written out. The node at the greater position moves; without an entry
above it the other one is returned. -/
theorem meet_succ (table : DominatorTable) (numbering : Array (Option Nat)) (bound a b : Nat) :
    table.meet numbering (bound + 1) a b =
      if a = b then a
      else if position numbering b < position numbering a then
        match table.at? a with
        | some up => if up = a then b else table.meet numbering bound up b
        | none => b
      else if position numbering a < position numbering b then
        match table.at? b with
        | some up => if up = b then a else table.meet numbering bound a up
        | none => a
      else a :=
  rfl

/-! ### Tables whose chains end -/

/-- Positions tell filled nodes apart, the entry is at position zero, and a height falls along every
chain to the entry. -/
structure Rooted (table : DominatorTable) (numbering : Array (Option Nat)) (entry : Nat)
    (height : Nat → Nat) : Prop where
  root : table.at? entry = some entry
  position_root : position numbering entry = 0
  position_inj : ∀ v w, table.Filled v → table.Filled w →
    position numbering v = position numbering w → v = w
  falls : ∀ v u, table.at? v = some u → v ≠ entry → table.Filled u ∧ height u < height v
  height_lt : ∀ v, table.Filled v → height v < table.size

namespace Rooted

variable {entry : Nat} {height : Nat → Nat}

/-- A node other than the entry has a node above it. -/
theorem exists_up (h : table.Rooted numbering entry height) {v : Nat} (hv : table.Filled v)
    (hne : v ≠ entry) :
    ∃ u, table.at? v = some u ∧ u ≠ v ∧ table.Filled u ∧ height u < height v := by
  obtain ⟨u, hat⟩ := hv.exists_at?
  obtain ⟨hu, hlt⟩ := h.falls v u hat hne
  refine ⟨u, hat, ?_, hu, hlt⟩
  rintro rfl
  exact Nat.lt_irrefl _ hlt

/-- Only the entry is its own immediate dominator. -/
theorem ne_entry_of_at? (h : table.Rooted numbering entry height) {v u : Nat}
    (hat : table.at? v = some u) (hne : u ≠ v) : v ≠ entry := by
  rintro rfl
  exact hne (Option.some.inj (hat.symm.trans h.root))

/-- Heights fall along a chain. -/
theorem height_le_of_climbs (h : table.Rooted numbering entry height) {v x : Nat}
    (hx : table.Climbs v x) : height x ≤ height v := by
  induction hx with
  | refl _ => exact Nat.le_refl _
  | @up v u x hat hne _ ih =>
    exact Nat.le_trans ih (Nat.le_of_lt (h.falls v u hat (h.ne_entry_of_at? hat hne)).2)

/-- **Climbing from two filled nodes meets**, by induction on the steps that are left: the node that
goes up is not the entry, and its height falls. -/
theorem walks_meet (h : table.Rooted numbering entry height) (bound : Nat) :
    ∀ a b, table.Filled a → table.Filled b → height a + height b < bound →
      table.Walks numbering a b (table.meet numbering bound a b) := by
  have hne : ∀ {v w : Nat}, position numbering w < position numbering v → v ≠ entry := by
    rintro v w hlt rfl
    exact absurd hlt (by rw [h.position_root]; exact Nat.not_lt_zero _)
  induction bound with
  | zero => exact fun a b _ _ hlt ↦ absurd hlt (Nat.not_lt_zero _)
  | succ bound ih =>
    intro a b ha hb hlt
    rw [meet_succ]
    by_cases hab : a = b
    · subst hab
      rw [if_pos rfl]
      exact .met ha
    rw [if_neg hab]
    rcases Nat.lt_trichotomy (position numbering b) (position numbering a) with hba | heq | hba
    · obtain ⟨up, hat, hup, hfilled, hfall⟩ := h.exists_up ha (hne hba)
      rw [if_pos hba, hat]
      simp only [if_neg hup]
      exact .left hba hat hup (ih up b hfilled hb (by omega))
    · exact absurd (h.position_inj b a hb ha heq) (Ne.symm hab)
    · obtain ⟨up, hat, hup, hfilled, hfall⟩ := h.exists_up hb (hne hba)
      rw [if_neg (by omega), if_pos hba, hat]
      simp only [if_neg hup]
      exact .right hba hat hup (ih a up ha hfilled (by omega))

/-- The bound that `meetAll` gives to a walk is never exhausted. -/
theorem walks_meet_size (h : table.Rooted numbering entry height) {a b : Nat}
    (ha : table.Filled a) (hb : table.Filled b) : table.Walks numbering a b
      (table.meet numbering (table.size * table.size + 1) a b) := by
  refine h.walks_meet _ a b ha hb ?_
  have hla := h.height_lt a ha
  have hlb := h.height_lt b hb
  nlinarith

end Rooted

/-! ### Meeting points -/

/-- Some of the nodes are filled, and `m` is the lowest common record of their chains. -/
structure IsMeet (table : DominatorTable) (numbering : Array (Option Nat)) (nodes : List Nat)
    (m : Nat) : Prop where
  exists_filled : ∃ v ∈ nodes, table.Filled v
  filled : table.Filled m
  records_iff : ∀ x, table.Records numbering m x ↔
    ∀ v ∈ nodes, table.Filled v → table.Records numbering v x

/-- The meeting point is a record of every chain that takes part. -/
theorem IsMeet.common {nodes : List Nat} {m v : Nat} (h : table.IsMeet numbering nodes m)
    (hv : v ∈ nodes) (hfilled : table.Filled v) : table.Records numbering v m :=
  (h.records_iff m).1 (.refl h.filled) v hv hfilled

/-- What has been found when the chains of some nodes have been climbed: their meeting point, or
nothing when none of them is filled. -/
def Meets (table : DominatorTable) (numbering : Array (Option Nat)) (nodes : List Nat) :
    Option Nat → Prop
  | none => ∀ v ∈ nodes, ¬table.Filled v
  | some m => table.IsMeet numbering nodes m

/-- How `meetAll` takes one more predecessor into account. -/
def meetStep (table : DominatorTable) (numbering : Array (Option Nat)) (found : Option Nat)
    (p : Nat) : Option Nat :=
  if (table.at? p).isNone then found
  else match found with
    | none => some p
    | some current => some (table.meet numbering (table.size * table.size + 1) p current)

/-- A predecessor with an entry takes part. -/
theorem meetStep_of_filled {p : Nat} (hp : table.Filled p) (found : Option Nat) :
    table.meetStep numbering found p = match found with
      | none => some p
      | some current => some (table.meet numbering (table.size * table.size + 1) p current) :=
  if_neg hp.not_isNone

/-- A predecessor without an entry is passed over. -/
theorem meetStep_of_not_filled {p : Nat} (hp : ¬table.Filled p) (found : Option Nat) :
    table.meetStep numbering found p = found :=
  if_pos (Option.not_isSome_iff_eq_none.1 hp ▸ rfl)

/-- One more predecessor is one more step. -/
theorem meetAll_append_singleton (table : DominatorTable) (numbering : Array (Option Nat))
    (nodes : List Nat) (p : Nat) : table.meetAll numbering (nodes ++ [p]) =
      table.meetStep numbering (table.meetAll numbering nodes) p := by
  rw [meetAll, List.foldl_append]
  rfl

namespace Rooted

variable {entry : Nat} {height : Nat → Nat}

/-- One more node moves the meeting point up its chain, or nothing changes. -/
theorem meets_meetStep (h : table.Rooted numbering entry height) {nodes : List Nat}
    {found : Option Nat} (hfound : table.Meets numbering nodes found) (p : Nat) :
    table.Meets numbering (nodes ++ [p]) (table.meetStep numbering found p) := by
  have hsplit : ∀ {P : Nat → Prop}, (∀ v ∈ nodes ++ [p], P v) ↔ (∀ v ∈ nodes, P v) ∧ P p := by
    simp [or_imp, forall_and]
  by_cases hp : table.Filled p
  · rw [meetStep_of_filled hp]
    have hex : ∃ v ∈ nodes ++ [p], table.Filled v := ⟨p, by simp, hp⟩
    rcases found with - | c
    · refine ⟨hex, hp, fun x ↦ ?_⟩
      rw [hsplit]
      exact ⟨fun hx ↦ ⟨fun v hv hv' ↦ absurd hv' (hfound v hv), fun _ ↦ hx⟩, fun hx ↦ hx.2 hp⟩
    · have hwalk := h.walks_meet_size hp hfound.filled
      refine ⟨hex, hwalk.records.1.climbs.filled_right, fun x ↦ ?_⟩
      rw [hwalk.records_iff, hfound.records_iff, hsplit, and_comm, imp_iff_right hp]
  · rw [meetStep_of_not_filled hp]
    rcases found with - | c
    · exact hsplit.2 ⟨hfound, hp⟩
    · obtain ⟨v, hv, hv'⟩ := hfound.exists_filled
      refine ⟨⟨v, List.mem_append_left _ hv, hv'⟩, hfound.filled, fun x ↦ ?_⟩
      rw [hfound.records_iff, hsplit, and_iff_left (absurd · hp)]

/-- **`meetAll` finds the meeting point of the filled predecessors.** -/
theorem meets_meetAll (h : table.Rooted numbering entry height) (nodes : List Nat) :
    table.Meets numbering nodes (table.meetAll numbering nodes) := by
  induction nodes using List.reverseRecOn with
  | nil => exact fun v hv ↦ absurd hv List.not_mem_nil
  | append_singleton nodes p ih =>
    rw [meetAll_append_singleton]
    exact h.meets_meetStep ih p

/-- The node found so far and the next filled predecessor meet. -/
theorem walks_of_meetAll (h : table.Rooted numbering entry height) {nodes : List Nat}
    {p found : Nat} (hfound : table.meetAll numbering nodes = some found) (hp : table.Filled p) :
    table.Walks numbering p found
      (table.meet numbering (table.size * table.size + 1) p found) := by
  have hmeets := h.meets_meetAll nodes
  rw [hfound] at hmeets
  exact h.walks_meet_size hp hmeets.filled

end Rooted

/-! ### Positions in reverse postorder -/

/-- The numbering gives every reached node its rank. -/
theorem position_numbering {g : Graph} {entry v : Nat} (hv : g.Reaches entry v) :
    position (g.numbering entry).toArray v = g.rank entry v := by
  have hget : (g.numbering entry)[v]? = some ((g.reversePostorder entry).idxOf? v) := by
    rw [Graph.numbering, List.getElem?_map, List.getElem?_range hv.lt_size]
    rfl
  rw [position, List.getElem?_toArray, hget, Graph.idxOf?_reversePostorder hv]
  rfl

end DominatorTable

/-! ### Chains as lists -/

namespace Dominators

open DominatorTable

variable {d : Dominators} {numbering : Array (Option Nat)} {height : Nat → Nat} {v u x : Nat}

/-- Following immediate dominators from a node on visits the listed nodes and then ends. -/
inductive Ascends (d : Dominators) : Nat → List Nat → Prop
  | last {v : Nat} : d.idom? v = none → d.Ascends v [v]
  | up {v u : Nat} {visited : List Nat} : d.idom? v = some u → d.Ascends u visited →
      d.Ascends v (v :: visited)

/-- The entry has no immediate dominator, although its entry in the table names it. -/
theorem idom?_entry (d : Dominators) : d.idom? d.entry = none :=
  if_pos rfl

theorem idom?_of_ne (hne : v ≠ d.entry) : d.idom? v = d.table.at? v :=
  if_neg hne

theorem chain_of_filled (hv : d.table.Filled v) : d.chain v = d.climb d.table.size v :=
  if_pos hv

/-- A node that was never reached has no chain. -/
theorem chain_of_not_filled (hv : ¬d.table.Filled v) : d.chain v = [] :=
  if_neg hv

section Chain

variable (h : d.table.Rooted numbering d.entry height)
include h

/-- How far a climb may go does not matter as soon as it exceeds the height. -/
theorem climb_eq (m : Nat) : ∀ (n v : Nat), d.table.Filled v → height v < m → height v < n →
    d.climb m v = d.climb n v := by
  induction m with
  | zero => exact fun n v _ hm _ ↦ absurd hm (Nat.not_lt_zero _)
  | succ m ih =>
    intro n v hv hm hn
    obtain ⟨n, rfl⟩ : ∃ n', n = n' + 1 := ⟨n - 1, by omega⟩
    rw [climb, climb]
    by_cases hne : v = d.entry
    · rw [hne, idom?_entry]
    · obtain ⟨u, hat, -, hu, hlt⟩ := h.exists_up hv hne
      rw [idom?_of_ne hne, hat]
      simp only [ih n u hu (by omega) (by omega)]

/-- The chain of the entry ends at once. -/
theorem chain_entry : d.chain d.entry = [d.entry] := by
  have hfilled : d.table.Filled d.entry := filled_of_at? h.root
  obtain ⟨n, hn⟩ : ∃ n, d.table.size = n + 1 :=
    ⟨d.table.size - 1, by have := h.height_lt _ hfilled; omega⟩
  rw [chain_of_filled hfilled, hn, climb, idom?_entry]

/-- **The chain of a node goes on with the chain of its immediate dominator.** -/
theorem chain_cons (hat : d.table.at? v = some u) (hne : v ≠ d.entry) :
    d.chain v = v :: d.chain u := by
  have hv : d.table.Filled v := filled_of_at? hat
  obtain ⟨hu, hlt⟩ := h.falls v u hat hne
  have hsize := h.height_lt v hv
  obtain ⟨n, hn⟩ : ∃ n, d.table.size = n + 1 := ⟨d.table.size - 1, by omega⟩
  rw [chain_of_filled hv, chain_of_filled hu, hn, climb, idom?_of_ne hne, hat]
  simp only [climb_eq h n (n + 1) u hu (by omega) (by omega)]

/-- Facts about chains are proved from the entry downwards. -/
theorem chain_induction {motive : Nat → Prop} (root : motive d.entry)
    (up : ∀ v u, d.table.at? v = some u → v ≠ d.entry → motive u → motive v)
    (hv : d.table.Filled v) : motive v := by
  induction hn : height v using Nat.strongRecOn generalizing v with
  | ind n ih =>
    by_cases hne : v = d.entry
    · rw [hne]
      exact root
    · obtain ⟨u, hat, -, hu, hlt⟩ := h.exists_up hv hne
      exact up v u hat hne (ih _ (hn ▸ hlt) hu rfl)

/-- The chain of a node lists what climbing passes. -/
theorem mem_chain_iff_climbs : x ∈ d.chain v ↔ d.table.Climbs v x := by
  by_cases hv : d.table.Filled v
  · refine chain_induction h (motive := fun v ↦ x ∈ d.chain v ↔ d.table.Climbs v x) ?_ ?_ hv
    · rw [chain_entry h, List.mem_singleton]
      constructor
      · rintro rfl
        exact .refl (filled_of_at? h.root)
      · rintro (_ | ⟨hat, hne, -⟩)
        · rfl
        · exact absurd rfl (h.ne_entry_of_at? hat hne)
    · intro v u hat hne ih
      obtain ⟨u', hat', huv, -⟩ := h.exists_up (filled_of_at? hat) hne
      obtain rfl : u' = u := Option.some.inj (hat'.symm.trans hat)
      rw [chain_cons h hat hne, List.mem_cons, ih]
      constructor
      · rintro (rfl | hx)
        · exact .refl (filled_of_at? hat)
        · exact .up hat huv hx
      · rintro (_ | ⟨hat', -, hx⟩)
        · exact Or.inl rfl
        · exact Or.inr (Option.some.inj (hat'.symm.trans hat) ▸ hx)
  · rw [chain_of_not_filled hv]
    exact ⟨fun hx ↦ absurd hx List.not_mem_nil, fun hx ↦ absurd hx.filled_left hv⟩

/-- **A chain starts at its node, ends at the entry and repeats no node**, and following immediate
dominators visits it. -/
theorem chain_shape (hv : d.table.Filled v) : d.Ascends v (d.chain v) ∧
    (d.chain v).head? = some v ∧ (d.chain v).getLast? = some d.entry ∧ (d.chain v).Nodup := by
  refine chain_induction h (motive := fun v ↦ d.Ascends v (d.chain v) ∧
    (d.chain v).head? = some v ∧ (d.chain v).getLast? = some d.entry ∧ (d.chain v).Nodup) ?_ ?_ hv
  · rw [chain_entry h]
    exact ⟨.last d.idom?_entry, rfl, rfl, List.nodup_singleton _⟩
  · intro v u hat hne ih
    obtain ⟨hascends, -, hlast, hnodup⟩ := ih
    rw [chain_cons h hat hne]
    refine ⟨.up ((idom?_of_ne hne).trans hat) hascends, rfl, ?_,
      List.nodup_cons.2 ⟨fun hmem ↦ ?_, hnodup⟩⟩
    · rw [List.getLast?_cons, hlast]
      rfl
    · -- Nothing above `v` is as high as `v`.
      have hle := h.height_le_of_climbs ((mem_chain_iff_climbs h).1 hmem)
      exact absurd (h.falls v u hat hne).2 (Nat.not_lt.2 hle)

/-- No node is visited twice on the way up. -/
theorem chain_nodup (v : Nat) : (d.chain v).Nodup := by
  by_cases hv : d.table.Filled v
  · exact (chain_shape h hv).2.2.2
  · rw [chain_of_not_filled hv]
    exact List.nodup_nil

end Chain

end Dominators

end FlowGauge
