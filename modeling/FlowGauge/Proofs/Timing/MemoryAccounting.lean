import FlowGauge.Proofs.Checked
import FlowGauge.Proofs.Code.Sizes
import FlowGauge.Proofs.Timing.Bounds
import FlowGauge.Proofs.Timing.CycleSums
import Mathlib.Algebra.BigOperators.Group.Finset.Basic

/-!
# The bytes that a routine asks for

What a routine needs of a region is a sum that knows no order (`demand`): its locals of one storage
class, its parameters, and every variable that is mentioned but not declared, once, where its hint
says. The layout is computed in order, with one running word per region, and the second and later
occurrences of a name are passed over.

`charge_eq_ok_iff` says what one charge does, and `foldlM_charge_eq_ok_iff` what all of them do: the
run is refused exactly when a size is refused or a region outgrows its word, and otherwise the words
hold the mathematical sums. When all occurrences of a name agree, these sums are the demand
(`chargedTo_charges`), so they do not depend on any order.

## What is assumed, and what happens otherwise

`Accountable` lists three conditions. Occurrences of one name agree, because only the first one is
charged and the order would show otherwise. No size that is measured is refused, and measured are
also those of register locals, which ask for nothing. Every region fits its word.

When a region outgrows its word there is no layout and hence no error for the region: the run is
refused before any region is compared with its capacity (`analyze_refused`). A region that fits its
word but not the hardware is the case that is reported, as an error that names it.

Sums over undeclared variables are sums over a finite set, the distinct variables that are
mentioned. In a list of them the same variable would count as often as it is mentioned.
-/

namespace FlowGauge

namespace MemoryLayout

variable {r r' : Routine} {region : MemoryRegion} {c : Option MemoryRegion × DataType}
  {cs : List (Option MemoryRegion × DataType)} {t t' : Totals}

/-! ### Running totals -/

/-- The bytes charged to a region so far. -/
def Totals.bytes (t : Totals) : MemoryRegion → Nat
  | .zeroPage => t.zeroPage
  | .stack => t.stack
  | .ram => t.ram

/-- Every region keeps within its word. -/
def Totals.Fits (t : Totals) : Prop :=
  ∀ region, t.bytes region < Word.bound 32

/-- Charge one data type, whatever the sum. -/
def Totals.plus (t : Totals) (c : Option MemoryRegion × DataType) : Totals :=
  match c.1 with
  | none => t
  | some .zeroPage => { t with zeroPage := t.zeroPage + c.2.bytes }
  | some .stack => { t with stack := t.stack + c.2.bytes }
  | some .ram => { t with ram := t.ram + c.2.bytes }

/-- The bytes that charges put on a region. -/
def chargedTo (region : MemoryRegion) (cs : List (Option MemoryRegion × DataType)) : Nat :=
  total ((cs.filter (·.1 = some region)).map (·.2.bytes))

/-- What some charges ask of a region adds up. -/
theorem chargedTo_append (region : MemoryRegion) (cs cs' : List (Option MemoryRegion × DataType)) :
    chargedTo region (cs ++ cs') = chargedTo region cs + chargedTo region cs' := by
  rw [chargedTo, List.filter_append, List.map_append, total_append]
  rfl

theorem Totals.bytes_plus (t : Totals) (c : Option MemoryRegion × DataType)
    (region : MemoryRegion) : (t.plus c).bytes region = t.bytes region + chargedTo region [c] := by
  obtain ⟨_ | _ | _ | _, type⟩ := c <;> cases region <;> rfl

theorem Totals.bytes_foldl_plus (t : Totals) (cs : List (Option MemoryRegion × DataType))
    (region : MemoryRegion) :
    (cs.foldl plus t).bytes region = t.bytes region + chargedTo region cs := by
  induction cs generalizing t with
  | nil => rfl
  | cons c cs ih =>
    rw [List.foldl_cons, ih, bytes_plus, Nat.add_assoc, ← chargedTo_append, List.singleton_append]

/-- A variable without a region asks for nothing, but its size has to exist. -/
theorem charge_none {type : DataType} (h : type.Sized) (t : Totals) :
    charge t (none, type) = .ok t := by
  rw [charge, h.size_eq]
  rfl

/-- A charge is refused when the region outgrows its word. -/
theorem charge_some {type : DataType} (h : type.Sized) (t : Totals) (region : MemoryRegion) :
    charge t (some region, type) = if t.bytes region + type.bytes < Word.bound 32
      then .ok (t.plus (some region, type)) else .error .add := by
  rw [charge, h.size_eq]
  cases region <;>
    · show (Checked.add32 _ type.bytes >>= _) = _
      rw [Checked.add32, Totals.bytes]
      split <;> rfl

/-- Only the region that is charged can outgrow its word. -/
theorem Totals.fits_plus_some_iff {type : DataType} (ht : t.Fits) :
    (t.plus (some region, type)).Fits ↔ t.bytes region + type.bytes < Word.bound 32 := by
  have hbytes : ∀ region', (t.plus (some region, type)).bytes region' =
      t.bytes region' + if region = region' then type.bytes else 0 := by
    intro region'
    rw [bytes_plus, chargedTo, List.filter_singleton]
    by_cases heq : region = region' <;> simp [heq]
  constructor
  · intro h
    simpa [hbytes] using h region
  · intro h region'
    rw [hbytes]
    split
    · next heq => exact heq ▸ h
    · exact ht region'

/-- A computation that has come to its end. -/
theorem ok_eq_ok_iff {p : Prop} (hp : p) (ht : t.Fits) :
    (.ok t : Checked Totals) = .ok t' ↔ p ∧ t' = t ∧ t'.Fits := by
  rw [Except.ok.injEq]
  exact ⟨fun h ↦ ⟨hp, h.symm, h ▸ ht⟩, fun h ↦ h.2.1.symm⟩

/-- **One charge** is refused when the size is, or when the sum leaves its word. -/
theorem charge_eq_ok_iff (ht : t.Fits) :
    charge t c = .ok t' ↔ c.2.Sized ∧ t' = t.plus c ∧ t'.Fits := by
  by_cases hsized : c.2.Sized
  · obtain ⟨_ | region, type⟩ := c
    · rw [charge_none hsized]
      exact ok_eq_ok_iff hsized ht
    · rw [charge_some hsized]
      split
      · next hfits => exact ok_eq_ok_iff hsized ((Totals.fits_plus_some_iff ht).2 hfits)
      · next hwide =>
        refine iff_of_false (by simp) ?_
        rintro ⟨-, rfl, hfits⟩
        exact hwide ((Totals.fits_plus_some_iff ht).1 hfits)
  · refine iff_of_false (fun h ↦ hsized ?_) fun h ↦ hsized h.1
    obtain ⟨n, hn, -⟩ := Checked.bind_eq_ok_iff.1 h
    exact ⟨n, hn⟩

/-- **A run of charges** is refused when a size is, or when a region outgrows its word. -/
theorem foldlM_charge_eq_ok_iff (ht : t.Fits) : cs.foldlM charge t = .ok t' ↔
    (∀ c ∈ cs, c.2.Sized) ∧ t' = cs.foldl Totals.plus t ∧ t'.Fits := by
  induction cs generalizing t with
  | nil =>
    show Except.ok t = Except.ok t' ↔ _
    exact ok_eq_ok_iff (fun _ hc ↦ absurd hc List.not_mem_nil) ht
  | cons c cs ih =>
    rw [List.foldlM_cons, Checked.bind_eq_ok_iff, List.forall_mem_cons, List.foldl_cons]
    constructor
    · rintro ⟨next, hnext, hrest⟩
      obtain ⟨hc, rfl, hfits⟩ := (charge_eq_ok_iff ht).1 hnext
      obtain ⟨hcs, hsum, hfits'⟩ := (ih hfits).1 hrest
      exact ⟨⟨hc, hcs⟩, hsum, hfits'⟩
    · rintro ⟨⟨hc, hcs⟩, rfl, hfits'⟩
      -- sums only grow, so the first one fits as the last one does
      have hfits : (t.plus c).Fits := by
        intro region
        have hlast := hfits' region
        rw [Totals.bytes_foldl_plus] at hlast
        omega
      exact ⟨t.plus c, (charge_eq_ok_iff ht).2 ⟨hc, rfl, hfits⟩, (ih hfits).2 ⟨hcs, rfl, hfits'⟩⟩

/-- When no size is refused, only a sum can be. -/
theorem eq_add_of_foldlM_charge {e : Fault} (hsized : ∀ c ∈ cs, c.2.Sized)
    (h : cs.foldlM charge t = .error e) : e = .add := by
  induction cs generalizing t with
  | nil => cases h
  | cons c cs ih =>
    obtain ⟨hc, hcs⟩ := List.forall_mem_cons.1 hsized
    rw [List.foldlM_cons] at h
    obtain ⟨_ | region, type⟩ := c
    · rw [charge_none hc] at h
      exact ih hcs h
    · rw [charge_some hc] at h
      split at h
      · exact ih hcs h
      · exact (Except.error.inj h).symm

/-- **The run ends with the sums exactly when all sizes exist and all sums fit.** -/
theorem totals_eq_ok_iff : totals r = .ok t ↔ (∀ c ∈ charges r, c.2.Sized) ∧
    t = (charges r).foldl Totals.plus {} ∧ t.Fits :=
  foldlM_charge_eq_ok_iff fun region ↦ by cases region <;> decide

theorem bytes_charges (r : Routine) (region : MemoryRegion) :
    ((charges r).foldl Totals.plus {}).bytes region = chargedTo region (charges r) := by
  rw [Totals.bytes_foldl_plus]
  cases region <;> exact Nat.zero_add _

/-! ### First occurrences -/

/-- A name that is known already has no first occurrence. -/
theorem name_notMem_of_mem_firstOccurrences {known : List String} {vs : List Variable}
    {v : Variable} (h : v ∈ firstOccurrences known vs) : v.name ∉ known := by
  induction vs generalizing known with
  | nil => exact absurd h List.not_mem_nil
  | cons w vs ih =>
    rw [firstOccurrences] at h
    split at h
    · exact ih h
    · next hnew =>
      obtain rfl | hrest := List.mem_cons.1 h
      · exact fun hknown ↦ hnew (by simp [hknown])
      · exact fun hknown ↦ ih hrest (List.mem_cons_of_mem _ hknown)

/-- A name has one first occurrence at most. -/
theorem nodup_firstOccurrences (known : List String) (vs : List Variable) :
    (firstOccurrences known vs).Nodup := by
  induction vs generalizing known with
  | nil => exact List.nodup_nil
  | cons w vs ih =>
    rw [firstOccurrences]
    split
    · exact ih known
    · exact List.nodup_cons.2
        ⟨fun hw ↦ name_notMem_of_mem_firstOccurrences hw List.mem_cons_self, ih _⟩

/-- **When all occurrences of a name agree, the first one stands for them all.** -/
theorem mem_firstOccurrences_iff {known : List String} {vs : List Variable} {v : Variable}
    (h : ∀ v ∈ vs, ∀ w ∈ vs, v.name = w.name → v = w) :
    v ∈ firstOccurrences known vs ↔ v ∈ vs ∧ v.scope ≠ .global ∧ v.name ∉ known := by
  induction vs generalizing known with
  | nil => simp [firstOccurrences]
  | cons w vs ih =>
    have hvs : ∀ v ∈ vs, ∀ w ∈ vs, v.name = w.name → v = w := fun v hv w hw ↦
      h v (List.mem_cons_of_mem _ hv) w (List.mem_cons_of_mem _ hw)
    rw [firstOccurrences]
    split
    · next hskip =>
      rw [ih hvs, List.mem_cons]
      constructor
      · exact fun hv ↦ ⟨.inr hv.1, hv.2⟩
      · rintro ⟨rfl | hv, hscope, hname⟩
        · simp [hscope, hname] at hskip
        · exact ⟨hv, hscope, hname⟩
    · next hnew =>
      rw [List.mem_cons, ih hvs, List.mem_cons, List.mem_cons, not_or]
      constructor
      · rintro (rfl | ⟨hv, hscope, -, hname⟩)
        · exact ⟨.inl rfl, by simpa using hnew⟩
        · exact ⟨.inr hv, hscope, hname⟩
      · rintro ⟨hv, hscope, hname⟩
        by_cases heq : v.name = w.name
        · exact .inl (h v (List.mem_cons.2 hv) w List.mem_cons_self heq)
        · exact .inr ⟨hv.resolve_left fun hvw ↦ heq (congrArg _ hvw), hscope, heq, hname⟩

/-! ### What a routine asks for -/

/-- A variable occurs as an operand or as a result. -/
def Mentions (r : Routine) (v : Variable) : Prop :=
  ∃ i ∈ r.instructions, .var v ∈ i.operands ∨ i.result = some (.var v)

theorem mem_mentionedVariables_iff {v : Variable} :
    v ∈ mentionedVariables r ↔ Mentions r v := by
  rw [mentionedVariables, List.mem_flatMap]
  constructor
  · rintro ⟨i, hi, hv⟩
    obtain ⟨o, ho, hov⟩ := List.mem_filterMap.1 hv
    cases o with
    | var w =>
      cases hov
      exact ⟨i, hi, by simpa [Instruction.mentions] using ho⟩
    | _ => cases hov
  · rintro ⟨i, hi, hv⟩
    exact ⟨i, hi, List.mem_filterMap.2 ⟨.var v, by simpa [Instruction.mentions] using hv, rfl⟩⟩

/-- The variables that are mentioned but neither global nor declared. -/
def placed (r : Routine) : Finset Variable :=
  (mentionedVariables r).toFinset.filter fun v ↦
    v.scope ≠ .global ∧ (∀ l ∈ r.locals, l.name ≠ v.name) ∧ ∀ p ∈ r.parameters, p.name ≠ v.name

/-- The bytes of the locals of a storage class. -/
def localBytes (r : Routine) (storage : StorageClass) : Nat :=
  total ((r.locals.filter (·.allocation == storage)).map (·.type.bytes))

/-- The bytes of the parameters. -/
def parameterBytes (r : Routine) : Nat :=
  total (r.parameters.map (·.type.bytes))

/-- The bytes of the variables that are placed by a hint. -/
def hintedBytes (r : Routine) (hint : StorageHint) : Nat :=
  ∑ v ∈ placed r with v.storage = hint, v.type.bytes

/-- The bytes that a routine needs of a region. -/
def demand (r : Routine) : MemoryRegion → Nat
  | .zeroPage => localBytes r .zeroPage + hintedBytes r .zeroPage
  | .stack => localBytes r .stack + parameterBytes r
  | .ram => localBytes r .ram + hintedBytes r .ram

/-- All occurrences of a name agree. -/
def Agrees (r : Routine) : Prop :=
  ∀ v w, Mentions r v → Mentions r w → v.name = w.name →
    v.type = w.type ∧ v.scope = w.scope ∧ v.storage = w.storage

instance : Decidable (Agrees r) :=
  decidable_of_iff (∀ v ∈ mentionedVariables r, ∀ w ∈ mentionedVariables r, v.name = w.name →
      v.type = w.type ∧ v.scope = w.scope ∧ v.storage = w.storage) <| by
    simp only [mem_mentionedVariables_iff, Agrees]
    exact ⟨fun h v w hv hw ↦ h v hv w hw, fun h v hv w hw ↦ h v w hv hw⟩

/-- Where all occurrences agree, a variable is known by its name. -/
theorem Agrees.eq_of_name_eq (h : Agrees r) : ∀ v ∈ mentionedVariables r,
    ∀ w ∈ mentionedVariables r, v.name = w.name → v = w := by
  intro v hv w hw hname
  obtain ⟨htype, hscope, hstorage⟩ :=
    h v w (mem_mentionedVariables_iff.1 hv) (mem_mentionedVariables_iff.1 hw) hname
  cases v
  cases w
  simp_all

/-- The undeclared variables are those that are placed, once each. -/
theorem Agrees.toFinset_undeclared (h : Agrees r) : (undeclared r).toFinset = placed r := by
  ext v
  rw [List.mem_toFinset, undeclared, mem_firstOccurrences_iff h.eq_of_name_eq, placed,
    Finset.mem_filter, List.mem_toFinset]
  simp

/-- The locals of a storage class are charged to its region. -/
theorem chargedTo_locals (storage : StorageClass)
    (hclass : ∀ s, regionOfClass s = some region ↔ s = storage) :
    chargedTo region (r.locals.map fun l ↦ (regionOfClass l.allocation, l.type)) =
      localBytes r storage := by
  rw [chargedTo, List.filter_map, List.map_map, localBytes]
  congr 2
  exact List.filter_congr fun l _ ↦ Bool.eq_iff_iff.2 (by simp [hclass])

/-- Parameters are charged to the stack and to nothing else. -/
theorem chargedTo_parameters (region : MemoryRegion) :
    chargedTo region (r.parameters.map fun p ↦ (some .stack, p.type)) =
      if region = .stack then parameterBytes r else 0 := by
  rw [chargedTo, List.filter_map, List.map_map]
  cases region <;> simp [parameterBytes, Function.comp_def]

/-- The charges of variables that are placed by their hints. -/
theorem chargedTo_hinted (region : MemoryRegion) (vs : List Variable) :
    chargedTo region (vs.filterMap fun v ↦ (regionOfHint v.storage).map fun region ↦
      (some region, v.type)) =
        total ((vs.filter (regionOfHint ·.storage = some region)).map (·.type.bytes)) := by
  induction vs with
  | nil => rfl
  | cons v vs ih =>
    cases hregion : regionOfHint v.storage with
    | none => simpa [hregion] using ih
    | some region' =>
      rw [List.filterMap_cons_some (by rw [hregion]; rfl), ← List.singleton_append,
        chargedTo_append, ih]
      by_cases heq : region' = region <;> simp [chargedTo, hregion, heq]

/-- Every variable that is mentioned but not declared is charged once, where its hint says. -/
theorem Agrees.chargedTo_undeclared (h : Agrees r) (hint : StorageHint)
    (hhint : ∀ s, regionOfHint s = some region ↔ s = hint) :
    chargedTo region ((undeclared r).filterMap fun v ↦ (regionOfHint v.storage).map fun region ↦
      (some region, v.type)) = hintedBytes r hint := by
  have hnodup := (nodup_firstOccurrences (r.locals.map Declaration.name ++
    r.parameters.map Parameter.name) (mentionedVariables r)).filter (·.storage = hint)
  rw [chargedTo_hinted, hintedBytes, ← h.toFinset_undeclared]
  simp only [hhint]
  calc total (((undeclared r).filter (·.storage = hint)).map (·.type.bytes))
      = ∑ v ∈ ((undeclared r).filter (·.storage = hint)).toFinset, v.type.bytes :=
        (List.sum_toFinset _ hnodup).symm
    _ = ∑ v ∈ (undeclared r).toFinset with v.storage = hint, v.type.bytes := by
      rw [List.toFinset_filter]
      simp only [decide_eq_true_eq]

/-- **The charges add up to the demand.** -/
theorem Agrees.chargedTo_charges (h : Agrees r) (region : MemoryRegion) :
    chargedTo region (charges r) = demand r region := by
  rw [charges, chargedTo_append, chargedTo_append, chargedTo_parameters]
  cases region with
  | zeroPage =>
    rw [chargedTo_locals .zeroPage (by intro s; cases s <;> decide),
      h.chargedTo_undeclared .zeroPage (by intro s; cases s <;> decide)]
    rfl
  | stack =>
    -- no hint asks for the stack
    have hnone : ∀ vs : List Variable,
        vs.filter (regionOfHint ·.storage = some .stack) = [] := by
      intro vs
      rw [List.filter_eq_nil_iff]
      intro v _
      cases v.storage <;> decide
    rw [chargedTo_locals .stack (by intro s; cases s <;> decide),
      chargedTo_hinted, hnone]
    rfl
  | ram =>
    rw [chargedTo_locals .ram (by intro s; cases s <;> decide),
      h.chargedTo_undeclared .ram (by intro s; cases s <;> decide)]
    rfl

/-! ### Other orders -/

/-- Instructions, locals and parameters may stand in another order. -/
structure Permuted (r r' : Routine) : Prop where
  instructions : r'.instructions.Perm r.instructions
  locals : r'.locals.Perm r.locals
  parameters : r'.parameters.Perm r.parameters

namespace Permuted

/-- Which variables are mentioned does not depend on the order of the instructions. -/
theorem mentions_iff (h : Permuted r r') {v : Variable} : Mentions r' v ↔ Mentions r v := by
  simp only [Mentions, h.instructions.mem_iff]

/-- Neither does which of them have a place. -/
theorem placed_eq (h : Permuted r r') : placed r' = placed r := by
  ext v
  simp only [placed, Finset.mem_filter, List.mem_toFinset, mem_mentionedVariables_iff,
    h.mentions_iff, h.locals.mem_iff, h.parameters.mem_iff]

/-- **What a routine asks of a region does not depend on any order.** -/
theorem demand_eq (h : Permuted r r') (region : MemoryRegion) :
    demand r' region = demand r region := by
  have hlocals : ∀ storage, localBytes r' storage = localBytes r storage := fun storage ↦
    ((h.locals.filter _).map _).sum_eq
  have hparameters : parameterBytes r' = parameterBytes r := (h.parameters.map _).sum_eq
  have hhinted : ∀ hint, hintedBytes r' hint = hintedBytes r hint := fun hint ↦ by
    rw [hintedBytes, h.placed_eq, hintedBytes]
  cases region <;> simp only [demand, hlocals, hparameters, hhinted]

end Permuted

/-- The occurrences of every name agree, no size that is measured is refused, and every region fits
its word. -/
structure Accountable (r : Routine) : Prop where
  agrees : Agrees r
  locals : ∀ l ∈ r.locals, l.type.Sized
  parameters : ∀ p ∈ r.parameters, p.type.Sized
  placed : ∀ v ∈ placed r, v.storage = .zeroPage ∨ v.storage = .ram → v.type.Sized
  fits : ∀ region, demand r region < Word.bound 32

namespace Accountable

/-- Nor does whether its bytes can be accounted for. -/
theorem permuted (h : Accountable r) (hpermuted : Permuted r r') : Accountable r' where
  agrees v w hv hw := h.agrees v w (hpermuted.mentions_iff.1 hv) (hpermuted.mentions_iff.1 hw)
  locals l hl := h.locals l (hpermuted.locals.mem_iff.1 hl)
  parameters p hp := h.parameters p (hpermuted.parameters.mem_iff.1 hp)
  placed v hv := h.placed v (hpermuted.placed_eq ▸ hv)
  fits region := hpermuted.demand_eq region ▸ h.fits region

theorem sized (h : Accountable r) : ∀ c ∈ charges r, c.2.Sized := by
  intro c hc
  rw [charges, List.mem_append, List.mem_append] at hc
  obtain (hc | hc) | hc := hc
  · obtain ⟨l, hl, rfl⟩ := List.mem_map.1 hc
    exact h.locals l hl
  · obtain ⟨p, hp, rfl⟩ := List.mem_map.1 hc
    exact h.parameters p hp
  · obtain ⟨v, hv, hc⟩ := List.mem_filterMap.1 hc
    obtain ⟨region, hregion, rfl⟩ := Option.map_eq_some_iff.1 hc
    refine h.placed v ?_ ?_
    · rwa [← h.agrees.toFinset_undeclared, List.mem_toFinset]
    · cases hstorage : v.storage <;> simp [hstorage, regionOfHint] at hregion ⊢

/-- **The regions hold the demand.** -/
theorem exists_totals (h : Accountable r) :
    ∃ t, totals r = .ok t ∧ ∀ region, t.bytes region = demand r region := by
  have hbytes : ∀ region, ((charges r).foldl Totals.plus {}).bytes region = demand r region := by
    intro region
    rw [bytes_charges, h.agrees.chargedTo_charges]
  exact ⟨_, totals_eq_ok_iff.2 ⟨h.sized, rfl, fun region ↦ hbytes region ▸ h.fits region⟩, hbytes⟩

end Accountable

/-! ### Regions that are too small -/

/-- The error for a region that is too small. -/
def overflowIssue (routine : String) (u : RegionUsage) : Issue :=
  .error .memoryOverflow (routine ++ " needs " ++ toString u.used ++ " bytes of " ++
    Vocabulary.word u.region ++ ", " ++ toString u.capacity ++ " available")

/-- An error is reported for the regions that are marked as too small. -/
theorem regionIssue?_overflow_iff {routine : String} {u : RegionUsage} {i : Issue} :
    regionIssue? routine u = some i ∧ i.kind = .memoryOverflow ↔
      u.isValid = false ∧ i = overflowIssue routine u := by
  have hvalid : (!u.isValid) = true ↔ u.isValid = false := by rw [Bool.not_eq_true']
  rw [regionIssue?]
  split
  · next hsmall =>
    rw [Option.some_inj]
    constructor
    · rintro ⟨rfl, -⟩
      exact ⟨hvalid.1 hsmall, rfl⟩
    · rintro ⟨-, rfl⟩
      exact ⟨rfl, rfl⟩
  · next hlarge =>
    refine iff_of_false ?_ fun h ↦ hlarge (hvalid.2 h.1)
    rintro ⟨h, hkind⟩
    split at h
    · cases h
      cases hkind
    · cases h

/-- Unsupported addressing modes are reported as such, and not as overflows. -/
theorem kind_of_mem_modeIssues {v : Variant} {i : Issue} (h : i ∈ modeIssues r v) :
    i.kind = .unsupportedAddressingMode := by
  obtain ⟨⟨code, index⟩, -, h⟩ := List.mem_filterMap.1 h
  obtain ⟨mode, -, h⟩ := Option.bind_eq_some_iff.1 h
  split at h
  · cases h
  · cases h
    rfl

/-- The errors of a layout are those of the regions that are too small. -/
theorem mem_issues_overflow_iff {usages : List RegionUsage} {v : Variant} {i : Issue} :
    i ∈ usages.filterMap (regionIssue? r.name) ++ modeIssues r v ∧ i.kind = .memoryOverflow ↔
      ∃ u ∈ usages, u.isValid = false ∧ i = overflowIssue r.name u := by
  constructor
  · rintro ⟨hi, hkind⟩
    obtain hi | hi := List.mem_append.1 hi
    · obtain ⟨u, hu, hissue⟩ := List.mem_filterMap.1 hi
      exact ⟨u, hu, regionIssue?_overflow_iff.1 ⟨hissue, hkind⟩⟩
    · exact absurd (hkind.symm.trans (kind_of_mem_modeIssues hi)) (by decide)
  · rintro ⟨u, hu, hoverflow⟩
    obtain ⟨hissue, hkind⟩ := regionIssue?_overflow_iff.2 hoverflow
    exact ⟨List.mem_append_left _ (List.mem_filterMap.2 ⟨u, hu, hissue⟩), hkind⟩

/-- What stands before the first separator can be read off a text. -/
theorem append_separator_inj {xs xs' ys ys' : List Char} {separator : Char} (h : separator ∉ xs)
    (h' : separator ∉ xs') (heq : xs ++ separator :: ys = xs' ++ separator :: ys') :
    xs = xs' ∧ ys = ys' := by
  have hfront : ∀ {zs ws : List Char}, separator ∉ zs →
      (zs ++ separator :: ws).takeWhile (· ≠ separator) = zs := by
    intro zs ws hzs
    rw [List.takeWhile_append_of_pos, List.takeWhile_cons_of_neg (by simp), List.append_nil]
    exact fun c hc ↦ decide_eq_true fun hcs ↦ hzs (hcs ▸ hc)
  have hxs : xs = xs' := by rw [← hfront h, heq, hfront h']
  subst hxs
  exact ⟨rfl, (List.cons_eq_cons.1 (List.append_cancel_left heq)).2⟩

/-- A literal is written out before its characters are looked at. -/
theorem notMem_toList_ofList {c : Char} {text : List Char} (h : c ∉ text) :
    c ∉ (String.ofList text).toList := by
  rwa [String.toList_ofList]

/-- **Every error names its region.** -/
theorem region_eq_of_overflowIssue_eq {routine : String} {u u' : RegionUsage}
    (h : overflowIssue routine u = overflowIssue routine u') : u.region = u'.region := by
  have hdigits : ∀ n : Nat, ' ' ∉ (toString n).toList := by
    intro n hmem
    rw [Nat.toString_eq_repr, Nat.toList_repr] at hmem
    exact absurd (Nat.isDigit_of_mem_toDigits (by decide) (by decide) hmem) (by decide)
  have hwords : ∀ region : MemoryRegion, ',' ∉ (Vocabulary.word region).toList := by
    intro region
    cases region <;> exact notMem_toList_ofList (by decide)
  have hword : ∀ region region' : MemoryRegion,
      Vocabulary.word region = Vocabulary.word region' → region = region' := by
    intro region region' heq
    cases region <;> cases region' <;> simp_all [Vocabulary.word]
  have hmessage := congrArg (·.message.toList) h
  simp only [overflowIssue, Issue.error, String.toList_append, List.append_assoc,
    List.append_cancel_left_eq] at hmessage
  -- the number ends at the first space, and the name of the region at the first comma
  obtain ⟨-, hrest⟩ := append_separator_inj (hdigits u.used) (hdigits u'.used) hmessage
  have hnamed := List.append_cancel_left hrest
  exact hword _ _ (String.toList_inj.1 (append_separator_inj (hwords _) (hwords _) hnamed).1)

/-- The bytes that the hardware has of a region. -/
def capacity (map : MemoryMap) : MemoryRegion → Nat
  | .zeroPage => map.zeroPage
  | .stack => map.stack
  | .ram => map.ram

/-- The use of a region by a routine. -/
def usage (r : Routine) (map : MemoryMap) (region : MemoryRegion) : RegionUsage :=
  .of region (demand r region) (capacity map region)

/-- A computed use marks the region exactly if it is too small. -/
theorem isValid_usage (map : MemoryMap) (region : MemoryRegion) :
    (usage r map region).isValid = false ↔ capacity map region < demand r region := by
  rw [usage, RegionUsage.of, decide_eq_false_iff_not, Nat.not_le]

/-- A layout with its issues that reports the demand of a routine. -/
structure Accounts (r : Routine) (map : MemoryMap) (found : MemoryLayout × List Issue) : Prop where
  zeroPage_eq : found.1.zeroPage = usage r map .zeroPage
  stack_eq : found.1.stack = usage r map .stack
  ram_eq : found.1.ram = usage r map .ram
  /-- There is an error for a region exactly if the region is too small. -/
  overflow_iff : ∀ region,
    overflowIssue r.name (usage r map region) ∈ found.2 ↔ capacity map region < demand r region
  /-- There are no other errors of that kind. -/
  overflow_of_kind : ∀ i ∈ found.2, i.kind = .memoryOverflow →
    ∃ region, i = overflowIssue r.name (usage r map region)

/-- With the sums known, the layout is what is made of them. -/
theorem analyze_of_totals {c : TimingContext} (h : totals c.routine = .ok t) :
    ∃ found : MemoryLayout × List Issue, analyze c = .ok found ∧
      found.1.regions = [.of .zeroPage t.zeroPage c.hardware.memory.zeroPage,
        .of .stack t.stack c.hardware.memory.stack, .of .ram t.ram c.hardware.memory.ram] ∧
      found.2 = found.1.regions.filterMap (regionIssue? c.routine.name) ++
        modeIssues c.routine c.variant := by
  rw [analyze, h]
  exact ⟨_, rfl, rfl, rfl⟩

/-- **There is a layout, and it accounts for the bytes.** -/
theorem Accountable.exists_accounts {c : TimingContext} (h : Accountable c.routine) :
    ∃ found, analyze c = .ok found ∧ Accounts c.routine c.hardware.memory found := by
  obtain ⟨t, ht, hbytes⟩ := h.exists_totals
  obtain ⟨found, hfound, hregions, hissues⟩ := analyze_of_totals ht
  have husages : found.1.regions = [.zeroPage, .stack, .ram].map
      (usage c.routine c.hardware.memory) := by
    rw [hregions]
    simp only [List.map_cons, List.map_nil, usage, ← hbytes]
    rfl
  have hall : ∀ region : MemoryRegion, region ∈ [.zeroPage, .stack, .ram] := by
    intro region
    cases region <;> decide
  obtain ⟨hzeroPage, hstack, hram⟩ :
      found.1.zeroPage = _ ∧ found.1.stack = _ ∧ found.1.ram = _ := by
    simpa [regions] using husages
  refine ⟨found, hfound, hzeroPage, hstack, hram, fun region ↦ ⟨fun hi ↦ ?_, fun hsmall ↦ ?_⟩,
    fun i hi hkind ↦ ?_⟩
  · rw [hissues] at hi
    obtain ⟨u, hu, hsmall, heq⟩ := mem_issues_overflow_iff.1 ⟨hi, rfl⟩
    obtain ⟨region', -, rfl⟩ := List.mem_map.1 (husages ▸ hu)
    obtain rfl : region = region' := region_eq_of_overflowIssue_eq heq
    exact (isValid_usage ..).1 hsmall
  · rw [hissues]
    exact (mem_issues_overflow_iff.2
      ⟨_, husages ▸ List.mem_map_of_mem (hall region), (isValid_usage ..).2 hsmall, rfl⟩).1
  · rw [hissues] at hi
    obtain ⟨u, hu, -, rfl⟩ := mem_issues_overflow_iff.1 ⟨hi, hkind⟩
    obtain ⟨region, -, rfl⟩ := List.mem_map.1 (husages ▸ hu)
    exact ⟨region, rfl⟩

end MemoryLayout

/-! ### The locals on the stack -/

namespace Constraints

variable {r : Routine}

/-- The locals on the stack are summed once more for the constraints, in a word of their own. -/
theorem stackLocalBytes_eq (h : ∀ l ∈ r.locals, l.allocation = .stack → l.type.Sized) :
    stackLocalBytes r = if MemoryLayout.localBytes r .stack < Word.bound 32
      then .ok (MemoryLayout.localBytes r .stack) else .error .add := by
  rw [stackLocalBytes, MemoryLayout.localBytes, ← Checked.sum32_map_ok, List.map_map]
  congr 1
  refine List.map_congr_left fun l hl ↦ ?_
  obtain ⟨hl, hstack⟩ := List.mem_filter.1 hl
  exact (h l hl (by simpa using hstack)).size_eq

/-- A sum that does not fit its word is refused, whatever the sizes of its parts are. -/
theorem stackLocalBytes_refused (h : Word.bound 32 ≤ MemoryLayout.localBytes r .stack) :
    ∃ e, stackLocalBytes r = .error e := by
  cases hsum : stackLocalBytes r with
  | error e => exact ⟨e, rfl⟩
  | ok n =>
    have hsized : ∀ l ∈ r.locals, l.allocation = .stack → l.type.Sized := by
      intro l hl hstack
      refine Checked.exists_eq_ok_of_sum32 hsum _ (List.mem_map_of_mem (List.mem_filter.2 ⟨hl, ?_⟩))
      simpa using hstack
    rw [stackLocalBytes_eq hsized, if_neg (Nat.not_lt.2 h)] at hsum
    cases hsum

theorem analyze_of_stackLocalBytes {c : TimingContext} {n : Nat}
    (h : stackLocalBytes c.routine = .ok n) (interruptBudget : Nat) (frameBudget : Option Nat) :
    ∃ held, analyze c interruptBudget frameBudget = .ok held ∧ held.1.stackLocals = n := by
  unfold analyze
  dsimp only
  rw [h]
  exact ⟨_, rfl, rfl⟩

/-- Constraints cannot be checked when the locals on the stack do not fit a word. -/
theorem analyze_refused {c : TimingContext}
    (h : Word.bound 32 ≤ MemoryLayout.localBytes c.routine .stack) (interruptBudget : Nat)
    (frameBudget : Option Nat) : ∃ e, analyze c interruptBudget frameBudget = .error e := by
  obtain ⟨e, he⟩ := stackLocalBytes_refused h
  unfold analyze
  dsimp only
  rw [he]
  exact ⟨e, rfl⟩

end Constraints

/-! ### Accounts -/

namespace MemoryLayout

/-- **A region that outgrows its word is never reported.** -/
theorem analyze_refused {c : TimingContext} {region : MemoryRegion}
    {cs : List (Option MemoryRegion × DataType)} (hcs : cs <+: charges c.routine)
    (h : Word.bound 32 ≤ chargedTo region cs) : ∃ e, analyze c = .error e ∧
      ((∀ x ∈ charges c.routine, x.2.Sized) → e = .add) := by
  cases htotals : totals c.routine with
  | error e =>
    refine ⟨e, ?_, fun hsized ↦ eq_add_of_foldlM_charge hsized htotals⟩
    rw [analyze, htotals]
    rfl
  | ok t =>
    obtain ⟨rest, hrest⟩ := hcs
    obtain ⟨-, rfl, hfits⟩ := totals_eq_ok_iff.1 htotals
    have hregion := hfits region
    rw [bytes_charges, ← hrest, chargedTo_append] at hregion
    omega

/-- **The accounts of memory are exact and know no order.** When the occurrences of every name
agree, no size is refused and every region fits its word, the layout reports the demand of the
routine, in every order of its instructions, locals and parameters; it has an error for a region
exactly if the demand exceeds the capacity; and the constraints use the same sum of the locals on
the stack. When a running sum of a region leaves its word, no layout is reported, and when the
locals on the stack do, no constraints are. -/
theorem analyze_accounts :
    (∀ c : TimingContext, Accountable c.routine →
      (∃ found, analyze c = .ok found ∧ Accounts c.routine c.hardware.memory found ∧
        ∀ c' : TimingContext, Permuted c.routine c'.routine → ∃ found', analyze c' = .ok found' ∧
          found'.1.regions.map RegionUsage.used = found.1.regions.map RegionUsage.used) ∧
      ∀ interruptBudget frameBudget, ∃ held,
        Constraints.analyze c interruptBudget frameBudget = .ok held ∧
          held.1.stackLocals = localBytes c.routine .stack) ∧
    (∀ (c : TimingContext) (region : MemoryRegion) (cs : List (Option MemoryRegion × DataType)),
      cs <+: charges c.routine → Word.bound 32 ≤ chargedTo region cs →
        ∃ e, analyze c = .error e ∧ ((∀ x ∈ charges c.routine, x.2.Sized) → e = .add)) ∧
    ∀ (c : TimingContext) (interruptBudget : Nat) (frameBudget : Option Nat),
      Word.bound 32 ≤ localBytes c.routine .stack →
        ∃ e, Constraints.analyze c interruptBudget frameBudget = .error e := by
  refine ⟨fun c h ↦ ⟨?_, fun interruptBudget frameBudget ↦ ?_⟩,
    fun c region cs hcs h ↦ analyze_refused hcs h,
    fun c interruptBudget frameBudget h ↦ Constraints.analyze_refused h _ _⟩
  · obtain ⟨found, hfound, haccounts⟩ := h.exists_accounts
    refine ⟨found, hfound, haccounts, fun c' hpermuted ↦ ?_⟩
    obtain ⟨found', hfound', haccounts'⟩ := (h.permuted hpermuted).exists_accounts
    refine ⟨found', hfound', ?_⟩
    simp only [regions, haccounts.zeroPage_eq, haccounts.stack_eq, haccounts.ram_eq,
      haccounts'.zeroPage_eq, haccounts'.stack_eq, haccounts'.ram_eq, List.map_cons, List.map_nil,
      usage, RegionUsage.of, hpermuted.demand_eq]
  · have hfits : localBytes c.routine .stack < Word.bound 32 :=
      Nat.lt_of_le_of_lt (Nat.le_add_right _ _) (h.fits .stack)
    refine Constraints.analyze_of_stackLocalBytes ?_ _ _
    rw [Constraints.stackLocalBytes_eq fun l hl _ ↦ h.locals l hl, if_pos hfits]

/-- A routine with memory of every kind. The variable `x` occurs twice and `p` is a parameter; the
locals on the stack of the hardware take more than it has. -/
def mixed : Routine where
  name := "mixed"
  parameters := [⟨"p", .word⟩]
  instructions :=
    [⟨0, .add, [.var ⟨"x", .word, .zeroPage, .local⟩, .var ⟨"p", .word, .zeroPage, .local⟩,
      .var ⟨"g", .byte, .zeroPage, .global⟩], none, none, none⟩,
    ⟨1, .call, [.label "f", .var ⟨"x", .word, .zeroPage, .local⟩],
      some (.var ⟨"y", .array .byte 300, .ram, .local⟩), none, none⟩]
  locals := [⟨"a", .byte, .zeroPage⟩, ⟨"s", .array .word 150, .stack⟩, ⟨"q", .byte, .register⟩]

/-- Two arrays that each fit a word. -/
def huge : Routine where
  name := "huge"
  locals := [⟨"a", .array (.array .byte 65535) 65535, .ram⟩,
    ⟨"b", .array (.array .byte 65535) 65535, .ram⟩]

theorem analyze_accounts_mixed : Accountable mixed ∧
    (∃ found, analyze (.fitting mixed (.run {} mixed) (.ofVariant .mos6502)) = .ok found ∧
      found.1.regions.map RegionUsage.used = [3, 302, 300] ∧
      ∃ i ∈ found.2, i.kind = .memoryOverflow) ∧
    analyze (.fitting huge (.run {} huge) (.ofVariant .mos6502)) = .error .add := by
  obtain ⟨hexact, hrefused, -⟩ := analyze_accounts
  have hmixed : Accountable mixed :=
    { agrees := by decide
      locals := by decide
      parameters := by decide
      placed := by decide
      fits := by intro region; cases region <;> decide }
  obtain ⟨⟨found, hfound, haccounts, -⟩, -⟩ :=
    hexact (.fitting mixed (.run {} mixed) (.ofVariant .mos6502)) hmixed
  obtain ⟨e, he, hadd⟩ := hrefused (.fitting huge (.run {} huge) (.ofVariant .mos6502)) .ram
    (charges huge) ⟨[], List.append_nil _⟩ (by decide)
  refine ⟨hmixed, ⟨found, hfound, ?_, _, (haccounts.overflow_iff .stack).2 (by decide), rfl⟩, ?_⟩
  · simp only [regions, haccounts.zeroPage_eq, haccounts.stack_eq, haccounts.ram_eq]
    decide
  · rw [he, hadd (by decide)]

end MemoryLayout

end FlowGauge
