import Melissi.Common.Best
import Melissi.Crypto
import Melissi.Overlay.Proximity

/-!
# Grinding an overlay

Reference: `grind_overlay_nonce` of `crates/net/src/runtime.rs`. A node's ethereum address is fixed
by its key, but its nonce is free: nonces are tried in turn until the overlay lands in the
neighbourhood of a target, and the best one found is returned where none does.
-/

namespace Melissi.Net

open Melissi.Common

/-- A nonce of zeros. -/
def zeroNonce : Bytes32 := ⟨List.replicate 32 0, List.length_replicate⟩

theorem length_candidate (i : ℕ) : (Primitives.toLeBytes i ++ List.replicate 24 0).length = 32 := by
  rw [List.length_append, Primitives.length_toLeBytes, List.length_replicate]

/-- The nonce that is tried in the `i`-th place: `i` in its first eight bytes, then zeros. -/
def candidate (i : ℕ) : Bytes32 :=
  ⟨Primitives.toLeBytes i ++ List.replicate 24 0, length_candidate i⟩

section

variable (P : Primitives) (eth : ByteArr 20) (networkId : ℕ) (target : Address) (bits : UInt8)

/-- The loop from candidate `i` on, with so many left to try. -/
def grindFrom : ℕ → ℕ → Bytes32 × UInt8 → Bytes32 × UInt8
  | 0, _, best => best
  | left + 1, i, best =>
    let nonce := candidate i
    let overlay := P.overlayAddress eth networkId nonce
    let po := Overlay.proximity overlay.1 target.1
    if po > best.2 then
      if po ≥ bits then (nonce, po) else grindFrom left (i + 1) (nonce, po)
    else grindFrom left (i + 1) best

/-- The best nonce found for the target, and the proximity it achieves. -/
def grindOverlayNonce (maxTries : ℕ) : Bytes32 × UInt8 :=
  grindFrom P eth networkId target bits maxTries 0 (zeroNonce, 0)

/-! ## What is found -/

/-- The proximity that a nonce achieves. -/
def achieved (nonce : Bytes32) : UInt8 :=
  Overlay.proximity (P.overlayAddress eth networkId nonce).1 target.1

/-- What grinding claims of the nonce and the proximity it returns. -/
structure Ground (maxTries : ℕ) (found : Bytes32 × UInt8) : Prop where
  tried : ∃ i < maxTries, found.1 = candidate i
  proximity : achieved P eth networkId target found.1 = found.2
  best : found.2 < bits → ∀ i < maxTries, achieved P eth networkId target (candidate i) ≤ found.2
  first : 1 ≤ bits → (∃ i < maxTries, bits ≤ achieved P eth networkId target (candidate i)) →
    ∃ i < maxTries, found.1 = candidate i ∧ bits ≤ achieved P eth networkId target (candidate i)
      ∧ ∀ j < i, achieved P eth networkId target (candidate j) < bits

end

section

variable {P : Primitives} {eth : ByteArr 20} {networkId : ℕ} {target : Address} {bits : UInt8}

/-- The loop keeps the best of the candidates it has left. -/
theorem grindFrom_eq (left i : ℕ) (best : Bytes32 × UInt8) :
    grindFrom P eth networkId target bits left i best
      = keepBest (achieved P eth networkId target) bits ((List.range' i left).map candidate)
        best := by
  induction left generalizing i best with
  | zero => rfl
  | succ left ih =>
    rw [grindFrom, List.range'_succ, List.map_cons, keepBest, ih, ih]
    rfl

theorem grindOverlayNonce_eq (maxTries : ℕ) :
    grindOverlayNonce P eth networkId target bits maxTries
      = keepBest (achieved P eth networkId target) bits ((List.range maxTries).map candidate)
        (zeroNonce, 0) := by
  rw [grindOverlayNonce, grindFrom_eq, List.range_eq_range']

/-- A candidate is returned, with the proximity it achieves. -/
theorem grindOverlayNonce_tried {maxTries : ℕ} (h : 1 ≤ maxTries) :
    ∃ i < maxTries, grindOverlayNonce P eth networkId target bits maxTries
      = (candidate i, achieved P eth networkId target (candidate i)) := by
  obtain ⟨tries, rfl⟩ := Nat.exists_eq_add_of_le' h
  -- the nonce the loop starts from is the first it tries
  have hzero : zeroNonce = candidate 0 := rfl
  have hlist : (List.range (tries + 1)).map candidate
      = candidate 0 :: (List.range' 1 tries).map candidate := by
    rw [List.range_eq_range', List.range'_succ, List.map_cons]
  obtain ⟨nonce, hmem, hfound⟩ := @keepBest_start _ _ _ (achieved P eth networkId target) bits
    ((List.range' 1 tries).map candidate) (candidate 0) 0 (UInt8.zero_le)
  rw [← hlist] at hmem hfound
  obtain ⟨i, hi, rfl⟩ := List.mem_map.mp hmem
  exact ⟨i, List.mem_range.mp hi, by rw [grindOverlayNonce_eq, hzero, hfound]⟩

/-- Where the proximity falls short, no candidate achieves more. -/
theorem le_grindOverlayNonce {maxTries : ℕ}
    (h : (grindOverlayNonce P eth networkId target bits maxTries).2 < bits) {i : ℕ}
    (hi : i < maxTries) : achieved P eth networkId target (candidate i)
      ≤ (grindOverlayNonce P eth networkId target bits maxTries).2 := by
  rw [grindOverlayNonce_eq] at h ⊢
  exact (le_keepBest h).2 _ (List.mem_map_of_mem (List.mem_range.mpr hi))

/-- Of the candidates that reach the target there is a first. -/
theorem exists_first {maxTries : ℕ}
    (h : ∃ i < maxTries, bits ≤ achieved P eth networkId target (candidate i)) :
    ∃ i < maxTries, bits ≤ achieved P eth networkId target (candidate i)
      ∧ ∀ j < i, achieved P eth networkId target (candidate j) < bits := by
  obtain ⟨hlt, hreach⟩ := Nat.find_spec h
  exact ⟨Nat.find h, hlt, hreach,
    fun j hj => not_le.mp fun hle => Nat.find_min h hj ⟨hj.trans hlt, hle⟩⟩

/-- The first candidate that reaches the target is returned. -/
theorem grindOverlayNonce_first {maxTries : ℕ} (hbits : 1 ≤ bits) {i : ℕ} (hi : i < maxTries)
    (hreach : bits ≤ achieved P eth networkId target (candidate i))
    (hfirst : ∀ j < i, achieved P eth networkId target (candidate j) < bits) :
    (grindOverlayNonce P eth networkId target bits maxTries).1 = candidate i := by
  obtain ⟨rest, hsplit⟩ : ∃ rest, List.range maxTries = List.range i ++ i :: rest := by
    obtain ⟨k, rfl⟩ := Nat.exists_eq_add_of_lt hi
    rw [Nat.add_assoc, List.range_add, List.range_succ_eq_map, List.map_cons]
    exact ⟨_, rfl⟩
  have hpos : (0 : UInt8) < bits := lt_of_lt_of_le (by decide) hbits
  rw [grindOverlayNonce_eq, hsplit, List.map_append, List.map_cons,
    keepBest_first hpos (fun nonce hn => ?_) hreach]
  obtain ⟨j, hj, rfl⟩ := List.mem_map.mp hn
  exact hfirst j (List.mem_range.mp hj)

/-- Grinding lands in the neighbourhood of the target exactly if some candidate does. -/
theorem isNeighbour_grindOverlayNonce {maxTries : ℕ} (h : 1 ≤ maxTries) (hbits : 1 ≤ bits) :
    (⟨target, bits⟩ : Overlay.Neighbourhood).isNeighbour (P.overlayAddress eth networkId
        (grindOverlayNonce P eth networkId target bits maxTries).1) = true
      ↔ ∃ i < maxTries, (⟨target, bits⟩ : Overlay.Neighbourhood).isNeighbour
        (P.overlayAddress eth networkId (candidate i)) = true := by
  have hnear : ∀ nonce, (⟨target, bits⟩ : Overlay.Neighbourhood).isNeighbour
      (P.overlayAddress eth networkId nonce) = true
        ↔ bits ≤ achieved P eth networkId target nonce := fun _ => decide_eq_true_iff
  obtain ⟨i, hi, hfound⟩ := @grindOverlayNonce_tried P eth networkId target bits maxTries h
  simp only [hnear]
  constructor
  · intro hreach
    rw [hfound] at hreach
    exact ⟨i, hi, hreach⟩
  · intro hreach
    obtain ⟨j, hj, hreach, hfirst⟩ := exists_first hreach
    rwa [grindOverlayNonce_first hbits hj hreach hfirst]

/-- The nonce and the proximity that grinding returns belong together. If the proximity falls short
no candidate achieves more; and where a bit at least is asked for and some candidate reaches the
target, the nonce is the first that does. -/
theorem grindOverlayNonce_ground (P : Primitives) (eth : ByteArr 20) (networkId : ℕ)
    (target : Address) (bits : UInt8) {maxTries : ℕ} (h : 1 ≤ maxTries) :
    Ground P eth networkId target bits maxTries
      (grindOverlayNonce P eth networkId target bits maxTries) := by
  obtain ⟨i, hi, hfound⟩ := @grindOverlayNonce_tried P eth networkId target bits maxTries h
  refine ⟨⟨i, hi, by rw [hfound]⟩, by rw [hfound], fun hshort j hj => ?_, fun hbits hreach => ?_⟩
  · exact le_grindOverlayNonce hshort hj
  · obtain ⟨j, hj, hreach, hfirst⟩ := exists_first hreach
    exact ⟨j, hj, grindOverlayNonce_first hbits hj hreach hfirst, hreach, hfirst⟩

end

/-- An ethereum address of zeros. -/
def zeroEth : ByteArr 20 := ⟨List.replicate 20 0, List.length_replicate⟩

/-- The overlay of the third candidate as the target: the two before it come close. -/
theorem grindOverlayNonce_ground_plain :
    Ground .plain zeroEth 1 (Primitives.plain.overlayAddress zeroEth 1 (candidate 2)) 231 4
      (grindOverlayNonce .plain zeroEth 1 (Primitives.plain.overlayAddress zeroEth 1 (candidate 2))
        231 4) :=
  grindOverlayNonce_ground .plain zeroEth 1 _ 231 (by decide)

example : grindOverlayNonce .plain zeroEth 1
    (Primitives.plain.overlayAddress zeroEth 1 (candidate 2)) 231 4 = (candidate 2, 255) := by
  decide +kernel

end Melissi.Net
