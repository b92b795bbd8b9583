import Mathlib

/-!
# Ordered maps, ordered sets and maps of sets

Extensional ordered trees over linearly ordered keys, and the finite relations they carry when the
values are themselves sets. A relation is kept `Normal`: a key whose last value goes is removed with
it, so that a key is present exactly when something is related to it.
-/

namespace Melissi.Common

open Std (ExtTreeMap ExtTreeSet)

/-- Bytes compare as the numbers they are. -/
instance linearOrderUInt8 : LinearOrder UInt8 where
  le_refl _ := Nat.le_refl _
  le_trans _ _ _ := Nat.le_trans
  le_antisymm _ _ h h' := UInt8.toNat_inj.mp (Nat.le_antisymm h h')
  le_total a b := Nat.le_total a.toNat b.toNat
  lt_iff_le_not_ge a b := Nat.lt_iff_le_and_not_ge (m := a.toNat) (n := b.toNat)
  toDecidableLE := inferInstance
  toDecidableEq := inferInstance
  toDecidableLT := inferInstance

/-- The order of the keys, as the trees compare them. -/
instance transCmpCompare {K : Type} [LinearOrder K] :
    Std.TransCmp (fun a b : K => compare a b) := inferInstance

/-- Keys that compare equal are equal. -/
instance lawfulEqCmpCompare {K : Type} [LinearOrder K] :
    Std.LawfulEqCmp (fun a b : K => compare a b) where
  eq_of_compare h := compare_eq_iff_eq.mp h

/-- An ordered map: iteration is in key order. -/
abbrev BTreeMap (K V : Type) [LinearOrder K] : Type := ExtTreeMap K V (fun a b => compare a b)

/-- An ordered set: iteration is in element order. -/
abbrev BTreeSet (K : Type) [LinearOrder K] : Type := ExtTreeSet K (fun a b => compare a b)

variable {K V : Type} [LinearOrder K] [LinearOrder V]

/-! ## Keys and elements in order -/

/-- The keys of a map are listed without repetition. -/
theorem nodup_keys {W : Type} (m : BTreeMap K W) : m.keys.Nodup := by
  have h := ExtTreeMap.distinct_keys (t := m)
  simpa [List.Nodup, ne_eq] using h

/-- The elements of a set are listed without repetition. -/
theorem nodup_toList (s : BTreeSet K) : s.toList.Nodup := by
  have h := ExtTreeSet.distinct_toList (t := s)
  simpa [List.Nodup, ne_eq] using h

/-- The entries of a map are listed by increasing key. -/
theorem sorted_entries {W : Type} (m : BTreeMap K W) :
    m.toList.Pairwise (fun e e' => e.1 < e'.1) := by
  have h := ExtTreeMap.ordered_keys_toList (t := m)
  simpa [compare_lt_iff_lt] using h

/-- The elements of a set are listed by increasing order. -/
theorem sorted_toList (s : BTreeSet K) : s.toList.Pairwise (· < ·) := by
  have h := ExtTreeSet.ordered_toList (t := s)
  simpa [compare_lt_iff_lt] using h

/-- Sets that agree where `P` holds list the same elements satisfying it. -/
theorem filter_toList_congr {s s' : BTreeSet K} {P : K → Bool}
    (h : ∀ a, P a → (a ∈ s ↔ a ∈ s')) : s.toList.filter P = s'.toList.filter P := by
  refine List.Perm.eq_of_pairwise (fun a b _ _ hab hba => absurd hba (lt_asymm hab))
    ((sorted_toList s).filter P) ((sorted_toList s').filter P) ?_
  refine (List.perm_ext_iff_of_nodup ((nodup_toList s).filter _) ((nodup_toList s').filter _)).mpr
    fun a => ?_
  simp only [List.mem_filter, ExtTreeSet.mem_toList]
  exact and_congr_left fun ha => h a ha

/-- A lookup finds exactly the listed entries. -/
theorem mem_entries {W : Type} (m : BTreeMap K W) (k : K) (v : W) :
    (k, v) ∈ m.toList ↔ m[k]? = some v :=
  ExtTreeMap.mem_toList_iff_getElem?_eq_some

@[simp] theorem set_contains_eq_false (s : BTreeSet K) (a : K) : s.contains a = false ↔ a ∉ s := by
  rw [← ExtTreeSet.contains_iff_mem, Bool.not_eq_true]

@[simp] theorem map_contains_eq_false {W : Type} (m : BTreeMap K W) (a : K) :
    m.contains a = false ↔ a ∉ m := by
  rw [← ExtTreeMap.contains_iff_mem, Bool.not_eq_true]

/-- A filtered map looks up what the filter keeps. -/
theorem getElem?_filter {W : Type} (m : BTreeMap K W) (f : K → W → Bool) (k : K) :
    (m.filter f)[k]? = m[k]?.filter (f k) := by
  simp [ExtTreeMap.getElem?_filter]

/-- A set is empty when nothing is in it. -/
theorem isEmpty_iff_forall_not_mem (s : BTreeSet K) : s.isEmpty ↔ ∀ a, a ∉ s := by
  rw [ExtTreeSet.isEmpty_iff]
  constructor
  · rintro rfl a
    simp
  · intro h
    exact ExtTreeSet.ext_mem (by simpa using h)

/-- A set is as large as the finite set of its elements. -/
theorem size_eq_card {s : BTreeSet K} {F : Finset K} (h : ∀ a, a ∈ s ↔ a ∈ F) :
    s.size = F.card := by
  have hF : F = s.toList.toFinset := by
    ext a
    rw [List.mem_toFinset, ExtTreeSet.mem_toList, h]
  rw [hF, List.toFinset_card_of_nodup (nodup_toList s), ExtTreeSet.length_toList]

/-- A set with at most one value has at most one element. -/
theorem size_le_one {s : BTreeSet K} (h : ∀ a ∈ s, ∀ b ∈ s, a = b) : s.size ≤ 1 := by
  have hnd := nodup_toList s
  rw [← ExtTreeSet.length_toList]
  cases hs : s.toList with
  | nil => simp
  | cons a l =>
    cases l with
    | nil => simp
    | cons b l' =>
      rw [hs] at hnd
      have ha : a ∈ s := ExtTreeSet.mem_toList.mp (by simp [hs])
      have hb : b ∈ s := ExtTreeSet.mem_toList.mp (by simp [hs])
      simp [h a ha b hb] at hnd

/-! ## Maps of sets -/

/-- A finite relation between keys and values, as a map from each key to the set of its values. -/
abbrev SetMap (K V : Type) [LinearOrder K] [LinearOrder V] : Type := BTreeMap K (BTreeSet V)

/-- Relate `k` to `v`; the flag says whether the pair is new. -/
def setInsert (m : SetMap K V) (k : K) (v : V) : SetMap K V × Bool :=
  let s := m[k]?.getD ∅
  (m.insert k (s.insert v), !s.contains v)

/-- Unrelate `k` and `v`, dropping a key left without values; the flag says whether the pair was
there. -/
def setRemove (m : SetMap K V) (k : K) (v : V) : SetMap K V × Bool :=
  match m[k]? with
  | some s =>
    let s' := s.erase v
    (if s'.isEmpty then m.erase k else m.insert k s', s.contains v)
  | none => (m, false)

/-- Is `k` related to `v`? -/
def setContains (m : SetMap K V) (k : K) (v : V) : Bool :=
  m[k]?.any (·.contains v)

/-- No key is kept without a value. -/
def Normal (m : SetMap K V) : Prop :=
  ∀ (k : K) (s : BTreeSet V), m[k]? = some s → ∃ v, v ∈ s

theorem setContains_iff (m : SetMap K V) (k : K) (v : V) :
    setContains m k v ↔ ∃ s, m[k]? = some s ∧ v ∈ s := by
  simp [setContains, Option.any_eq_true]

@[simp] theorem setContains_empty (k : K) (v : V) : setContains (∅ : SetMap K V) k v = false := by
  simp [setContains]

@[simp] theorem setContains_setInsert (m : SetMap K V) (k : K) (v : V) (k' : K) (v' : V) :
    setContains (setInsert m k v).1 k' v' ↔ (k = k' ∧ v = v') ∨ setContains m k' v' := by
  simp only [setContains_iff, setInsert, ExtTreeMap.getElem?_insert, compare_eq_iff_eq]
  by_cases hk : k = k'
  · subst hk
    cases m[k]? <;> simp
  · simp [hk]

@[simp] theorem setContains_setRemove (m : SetMap K V) (k : K) (v : V) (k' : K) (v' : V) :
    setContains (setRemove m k v).1 k' v' ↔ ¬ (k = k' ∧ v = v') ∧ setContains m k' v' := by
  simp only [setContains_iff, setRemove]
  split
  · split
    · next s hs he =>
      have hno : ∀ a, a ∈ s → a = v := by
        intro a ha
        by_contra hne
        exact (isEmpty_iff_forall_not_mem _).mp he a (by grind)
      grind
    · grind
  · grind

@[simp] theorem setContains_erase (m : SetMap K V) (k k' : K) (v' : V) :
    setContains (m.erase k) k' v' ↔ k ≠ k' ∧ setContains m k' v' := by
  simp only [setContains_iff]
  grind

theorem getElem?_setInsert (m : SetMap K V) (k : K) (v : V) (k' : K) :
    (setInsert m k v).1[k']? = if k = k' then some ((m[k']?.getD ∅).insert v) else m[k']? := by
  simp only [setInsert, ExtTreeMap.getElem?_insert, compare_eq_iff_eq]
  split
  · next h => rw [h]
  · rfl

theorem getElem?_setRemove (m : SetMap K V) (k : K) (v : V) (k' : K) :
    (setRemove m k v).1[k']? =
      if k = k' then m[k']?.bind fun s => if (s.erase v).isEmpty then none else some (s.erase v)
      else m[k']? := by
  unfold setRemove
  by_cases hk : k = k'
  · subst hk
    rw [if_pos rfl]
    cases hs : m[k]? with
    | none => simpa using hs
    | some s =>
      simp only [Option.bind_some]
      split <;> simp
  · rw [if_neg hk]
    cases hs : m[k]? with
    | none => rfl
    | some s =>
      dsimp only
      split
      · rw [ExtTreeMap.getElem?_erase, if_neg (by simpa using hk)]
      · rw [ExtTreeMap.getElem?_insert, if_neg (by simpa using hk)]

/-- The removal reports whether the pair was there. -/
theorem setRemove_snd (m : SetMap K V) (k : K) (v : V) :
    (setRemove m k v).2 = setContains m k v := by
  simp only [setRemove, setContains]
  split <;> simp_all

/-- The insertion reports whether the pair is new. -/
theorem setInsert_snd (m : SetMap K V) (k : K) (v : V) :
    (setInsert m k v).2 = !setContains m k v := by
  simp only [setInsert, setContains]
  cases m[k]? <;> simp

theorem Normal.empty : Normal (∅ : SetMap K V) := by
  intro k s h
  simp at h

theorem Normal.setInsert {m : SetMap K V} (h : Normal m) (k : K) (v : V) :
    Normal (setInsert m k v).1 := by
  intro k' s hs
  simp only [Common.setInsert, ExtTreeMap.getElem?_insert, compare_eq_iff_eq] at hs
  split at hs
  · exact ⟨v, by grind⟩
  · exact h k' s hs

theorem Normal.setRemove {m : SetMap K V} (h : Normal m) (k : K) (v : V) :
    Normal (setRemove m k v).1 := by
  intro k' s hs
  simp only [Common.setRemove] at hs
  split at hs
  · split at hs
    · grind [Normal]
    · next s₀ _ hne =>
      simp only [ExtTreeMap.getElem?_insert, compare_eq_iff_eq] at hs
      split at hs
      · obtain rfl := Option.some.inj hs
        by_contra hno
        exact hne ((isEmpty_iff_forall_not_mem _).mpr (by simpa using hno))
      · exact h k' s hs
  · exact h k' s hs

theorem Normal.erase {m : SetMap K V} (h : Normal m) (k : K) : Normal (m.erase k) := by
  intro k' s hs
  simp only [ExtTreeMap.getElem?_erase, compare_eq_iff_eq] at hs
  split at hs
  · cases hs
  · exact h k' s hs

/-- Normal maps of sets with the same pairs are equal. -/
theorem Normal.ext {m m' : SetMap K V} (h : Normal m) (h' : Normal m')
    (hc : ∀ k v, setContains m k v ↔ setContains m' k v) : m = m' := by
  refine ExtTreeMap.ext_getElem? fun k => ?_
  cases hs : m[k]? with
  | none =>
    cases hs' : m'[k]? with
    | none => rfl
    | some s' =>
      obtain ⟨v, hv⟩ := h' k s' hs'
      have := (hc k v).mpr ((setContains_iff m' k v).mpr ⟨s', hs', hv⟩)
      simp [setContains, hs] at this
  | some s =>
    cases hs' : m'[k]? with
    | none =>
      obtain ⟨v, hv⟩ := h k s hs
      have := (hc k v).mp ((setContains_iff m k v).mpr ⟨s, hs, hv⟩)
      simp [setContains, hs'] at this
    | some s' =>
      have hv : ∀ v, v ∈ s ↔ v ∈ s' := fun v => by
        simpa [setContains, hs, hs'] using hc k v
      exact congrArg some (ExtTreeSet.ext_mem fun {v} => hv v)

/-- In a normal map a key is present exactly when it is related to something. -/
theorem Normal.mem_iff {m : SetMap K V} (h : Normal m) (k : K) :
    k ∈ m ↔ ∃ v, setContains m k v := by
  constructor
  · intro hk
    obtain ⟨s, hs⟩ := Option.isSome_iff_exists.mp (ExtTreeMap.isSome_getElem?_iff_mem.mpr hk)
    obtain ⟨v, hv⟩ := h k s hs
    exact ⟨v, (setContains_iff m k v).mpr ⟨s, hs, hv⟩⟩
  · rintro ⟨v, hv⟩
    obtain ⟨s, hs, -⟩ := (setContains_iff m k v).mp hv
    exact ExtTreeMap.isSome_getElem?_iff_mem.mp (by simp [hs])

/-- A key of a map of sets and its values, read off the list of entries. -/
theorem setContains_iff_mem_toList (m : SetMap K V) (k : K) (v : V) :
    setContains m k v ↔ ∃ s, (k, s) ∈ m.toList ∧ v ∈ s := by
  simp only [setContains_iff, mem_entries]

end Melissi.Common
