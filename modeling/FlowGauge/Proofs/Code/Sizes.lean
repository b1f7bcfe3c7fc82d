import FlowGauge.Code.DataType

/-!
# The sizes of data types

`bytes` is the number of bytes of a data type as a product without bounds; `size` forms the same
product in 32-bit words, from the inside out. A size is refused on account of the first part that
no word can count, whatever surrounds it, so it is refused exactly when there is such a part
(`size_eq`).

The bytes of a part divide those of the whole. A part is therefore larger than the whole only where
the whole has no bytes at all, and this takes an array of length zero around the part: the whole
fits its word, and its size is refused nevertheless (`conceals_iff`).
-/

namespace FlowGauge

namespace DataType

variable {t p : DataType}

/-- The number of bytes of a value, whatever its size. -/
def bytes : DataType → Nat
  | void => 0
  | byte | boolean => 1
  | word | pointer => 2
  | array element length => element.bytes * length.toNat

/-! ### Parts -/

/-- The data types that a data type is made of, itself first. -/
def parts : DataType → List DataType
  | array element length => array element length :: element.parts
  | scalar => [scalar]

theorem self_mem_parts (t : DataType) : t ∈ t.parts := by
  cases t <;> exact List.mem_cons_self

/-- A part of a part is a part. -/
theorem parts_subset (h : p ∈ t.parts) : p.parts ⊆ t.parts := by
  induction t with
  | array element length ih =>
    obtain rfl | hinside := List.mem_cons.1 h
    · exact fun _ hq ↦ hq
    · exact fun q hq ↦ List.mem_cons_of_mem _ (ih hinside hq)
  | _ => exact List.mem_singleton.1 h ▸ fun _ hq ↦ hq

/-- **The bytes of a part divide those of the whole.** -/
theorem bytes_dvd (h : p ∈ t.parts) : p.bytes ∣ t.bytes := by
  induction t with
  | array element length ih =>
    obtain rfl | hinside := List.mem_cons.1 h
    · exact Nat.dvd_refl _
    · exact Nat.dvd_trans (ih hinside) (Nat.dvd_mul_right _ _)
  | _ => exact List.mem_singleton.1 h ▸ Nat.dvd_refl _

/-! ### Sizes -/

/-- Some part has more bytes than a word can count. -/
def Oversized (t : DataType) : Prop :=
  ∃ p ∈ t.parts, Word.bound 32 ≤ p.bytes

instance : Decidable t.Oversized :=
  inferInstanceAs (Decidable (∃ p ∈ t.parts, Word.bound 32 ≤ p.bytes))

/-- An array is oversized on its own account or on account of its element. -/
theorem oversized_array_iff {element : DataType} {length : UInt16} :
    (array element length).Oversized ↔
      Word.bound 32 ≤ (array element length).bytes ∨ element.Oversized := by
  simp only [Oversized, parts, List.mem_cons, exists_eq_or_imp]

/-- **A size is refused exactly when some part has more bytes than a word can count**, and it is the
number of bytes otherwise. -/
theorem size_eq (t : DataType) :
    t.size = if t.Oversized then .error .multiply else .ok t.bytes := by
  induction t with
  | array element length ih =>
    rw [size, ih]
    split
    · next hinside =>
      rw [if_pos (oversized_array_iff.2 (Or.inr hinside))]
      rfl
    · next hinside =>
      show Checked.mul32 element.bytes length.toNat = _
      rw [Checked.mul32]
      split
      · next hfits =>
        refine (if_neg fun hover ↦ ?_).symm
        exact (oversized_array_iff.1 hover).elim (Nat.not_le.2 hfits) hinside
      · next hwide =>
        exact (if_pos (oversized_array_iff.2 (Or.inl (Nat.not_lt.1 hwide)))).symm
  | _ => rfl

/-- The size is not refused. -/
def Sized (t : DataType) : Prop :=
  ∃ n, t.size = .ok n

/-- A size exists when no part is oversized. -/
theorem sized_iff : t.Sized ↔ ¬t.Oversized := by
  rw [Sized, size_eq]
  split
  · next hover => exact iff_of_false (fun ⟨_, h⟩ ↦ nomatch h) (not_not_intro hover)
  · next hover => exact iff_of_true ⟨_, rfl⟩ hover

/-- A size that exists is the number of bytes. -/
theorem Sized.size_eq (h : t.Sized) : t.size = .ok t.bytes := by
  rw [DataType.size_eq, if_neg (sized_iff.1 h)]

instance : Decidable t.Sized :=
  decidable_of_iff _ sized_iff.symm

/-! ### Sizes that are refused without need -/

/-- An array of length zero has elements with a part that no word can count. -/
def Conceals (t : DataType) : Prop :=
  ∃ element, array element 0 ∈ t.parts ∧ element.Oversized

/-- What is concealed is still there, so the size is refused. -/
theorem Conceals.oversized (h : t.Conceals) : t.Oversized := by
  obtain ⟨element, hempty, p, hp, hwide⟩ := h
  exact ⟨p, parts_subset hempty (List.mem_cons_of_mem _ hp), hwide⟩

/-- Only a type without bytes conceals a part. -/
theorem Conceals.bytes_eq_zero (h : t.Conceals) : t.bytes = 0 := by
  obtain ⟨element, hempty, -⟩ := h
  have hzero : 0 ∣ t.bytes := bytes_dvd hempty
  exact Nat.eq_zero_of_zero_dvd hzero

/-- **A part that is larger than the whole is concealed by an array of length zero.** -/
theorem Oversized.conceals (h : t.Oversized) (hfits : t.bytes < Word.bound 32) : t.Conceals := by
  induction t with
  | array element length ih =>
    have hinside : element.Oversized :=
      (oversized_array_iff.1 h).resolve_left (Nat.not_le.2 hfits)
    by_cases hlength : length = 0
    · exact ⟨element, hlength ▸ self_mem_parts _, hinside⟩
    · -- The element is no larger than the array, so it fits its word as well.
      have hpos : 0 < length.toNat := Nat.pos_of_ne_zero fun hzero ↦
        hlength (UInt16.toNat_inj.1 hzero)
      have hle : element.bytes ≤ (array element length).bytes := Nat.le_mul_of_pos_right _ hpos
      obtain ⟨e, hempty, he⟩ := ih hinside (Nat.lt_of_le_of_lt hle hfits)
      exact ⟨e, List.mem_cons_of_mem _ hempty, he⟩
  | _ => exact absurd h (by decide)

/-- **The size is refused without need exactly when the type has no bytes at all.** Otherwise a part
that no word can count makes the whole one that no word can count. -/
theorem conceals_iff : t.Conceals ↔ t.Oversized ∧ t.bytes = 0 := by
  refine ⟨fun h ↦ ⟨h.oversized, h.bytes_eq_zero⟩, fun ⟨hover, hzero⟩ ↦ hover.conceals ?_⟩
  rw [hzero]
  decide

/-- **Sizes are exact, and refused only where a part needs it.** The size of a data type is its
number of bytes, or it is refused as a product that leaves its word; it is refused exactly when some
part has more bytes than a word can count. The whole itself may have none: the number of bytes of
the whole alone decides, unless an array of length zero conceals a part that is too large. -/
theorem size_exact (t : DataType) :
    (t.size = if t.Oversized then .error .multiply else .ok t.bytes) ∧
    ((t.size = if t.bytes < Word.bound 32 then .ok t.bytes else .error .multiply) ↔ ¬t.Conceals) ∧
    (t.Conceals ↔ t.Oversized ∧ t.bytes = 0) := by
  refine ⟨size_eq t, ?_, conceals_iff⟩
  rw [size_eq]
  by_cases hfits : t.bytes < Word.bound 32
  · rw [if_pos hfits]
    split
    · next hover => exact iff_of_false (fun h ↦ nomatch h) (not_not_intro (hover.conceals hfits))
    · next hover => exact iff_of_true rfl (mt Conceals.oversized hover)
  · have hover : t.Oversized := ⟨t, t.self_mem_parts, Nat.not_lt.1 hfits⟩
    rw [if_neg hfits, if_pos hover]
    refine iff_of_true rfl fun h ↦ hfits ?_
    rw [h.bytes_eq_zero]
    decide

/-- An array of length zero takes no bytes, but its size is refused on account of its elements. -/
theorem size_refused_without_need :
    (array (array (array word 65535) 65535) 0).bytes = 0 ∧
      (array (array (array word 65535) 65535) 0).size = .error .multiply :=
  ⟨rfl, rfl⟩

end DataType

end FlowGauge
