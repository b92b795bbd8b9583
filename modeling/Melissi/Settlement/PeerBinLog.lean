import Melissi.Types

/-!
# Interval settlement

Reference: `crates/settlement/src/lib.rs`. The resume state of one peer and bin is a high-water and
the offered window above it. Advancing the high-water is forgetting, so it only moves over entries
the caller calls settled. That the window lies above the high-water and within what the offers
covered is part of the type: no value breaks it.
-/

namespace Melissi.Settlement

open Melissi.Common
open Std (ExtTreeMap ExtTreeSet)

variable {C : Type}

/-- The resume state for one `(peer, bin)`. -/
@[ext]
structure PeerBinLog (C : Type) where
  /-- Everything at or below this BinID is settled and forgotten. -/
  interval : ℕ
  /-- The highest BinID the peer's offers have covered so far. -/
  topmost : ℕ
  /-- Offered entries above the interval, in the peer's BinID order. -/
  entries : BTreeMap ℕ C
  interval_le : interval ≤ topmost
  window : ∀ b ∈ entries, interval < b ∧ b ≤ topmost

namespace PeerBinLog

/-- Resume from a persisted high-water. -/
def resume (interval : ℕ) : PeerBinLog C where
  interval := interval
  topmost := interval
  entries := ∅
  interval_le := le_refl _
  window := by simp

def new : PeerBinLog C := resume 0

/-- Where the next `Offer` starts. -/
def next (l : PeerBinLog C) : ℕ := l.interval + 1

/-- Ingest one offered entry. A stale offer may still name what is settled and forgotten: ignored.
-/
def observe (l : PeerBinLog C) (b : ℕ) (c : C) : PeerBinLog C where
  interval := l.interval
  topmost := if b > l.topmost then b else l.topmost
  entries := if b > l.interval then l.entries.insert b c else l.entries
  interval_le := by
    have := l.interval_le
    split <;> omega
  window := by
    intro b' hb'
    have hold : b' ∈ l.entries → l.interval < b' ∧ b' ≤ l.topmost := l.window b'
    have hb' : (l.interval < b ∧ b = b') ∨ b' ∈ l.entries := by grind
    have hle := l.interval_le
    rcases hb' with ⟨hlt, rfl⟩ | hb'
    · split <;> omega
    · have := hold hb'
      split <;> omega

/-- The offer for `[start, topmost]` covered this range. -/
def cover (l : PeerBinLog C) (topmost : ℕ) : PeerBinLog C where
  interval := l.interval
  topmost := if topmost > l.topmost then topmost else l.topmost
  entries := l.entries
  interval_le := by
    have := l.interval_le
    split <;> omega
  window := by
    intro b hb
    have := l.window b hb
    split <;> omega

/-- The peer no longer offers this BinID: the entry leaves the window. -/
def forgetEntry (l : PeerBinLog C) (b : ℕ) : PeerBinLog C × Option C :=
  ({ l with
      entries := l.entries.erase b
      window := fun b' hb' => l.window b' (ExtTreeMap.mem_of_mem_erase hb') }, l.entries[b]?)

/-- Entries still in the window, in BinID order. -/
def unsettled (l : PeerBinLog C) : List (ℕ × C) := l.entries.toList

/-! ## The advance -/

/-- The loop of the advance, over the entries in order: settled ones are removed, and the first
unsettled one caps the advance just below it. -/
def drain (settled : C → Bool) (topmost : ℕ) :
    List (ℕ × C) → BTreeMap ℕ C → ℕ → BTreeMap ℕ C × ℕ
  | [], entries, hw => (entries, hw)
  | (b, c) :: rest, entries, hw =>
    if settled c then drain settled topmost rest (entries.erase b) b
    else (entries, min (max hw (b - 1)) topmost)

/-- What the loop leaves: exactly the entries above the high-water it reaches, everything it passed
was settled, and it stops only below an unsettled entry or with nothing left. -/
theorem drain_spec (settled : C → Bool) (topmost : ℕ) (l : List (ℕ × C))
    (entries : BTreeMap ℕ C) (hw : ℕ) (hsorted : l.Pairwise (fun e e' => e.1 < e'.1))
    (hmem : ∀ b c, entries[b]? = some c ↔ (b, c) ∈ l) (habove : ∀ e ∈ l, hw < e.1)
    (hbelow : ∀ e ∈ l, e.1 ≤ topmost) (hhw : hw ≤ topmost) :
    let r := drain settled topmost l entries hw
    hw ≤ r.2 ∧ r.2 ≤ topmost ∧ (∀ b c, r.1[b]? = some c ↔ (b, c) ∈ l ∧ r.2 < b)
      ∧ (∀ e ∈ l, e.1 ≤ r.2 → settled e.2)
      ∧ (r.1.isEmpty ∨ ∃ c, (r.2 + 1, c) ∈ l ∧ ¬ settled c) := by
  induction l generalizing entries hw with
  | nil =>
    simp only [drain]
    refine ⟨le_refl _, hhw, by simpa using hmem, by simp, Or.inl ?_⟩
    rw [ExtTreeMap.isEmpty_iff]
    exact ExtTreeMap.ext_getElem? fun b => by
      rw [ExtTreeMap.getElem?_empty]
      exact Option.eq_none_iff_forall_ne_some.mpr fun c hc => by simpa using (hmem b c).mp hc
  | cons e rest ih =>
    obtain ⟨b, c⟩ := e
    rw [List.pairwise_cons] at hsorted
    have hb : hw < b := habove (b, c) (by simp)
    have hbt : b ≤ topmost := hbelow (b, c) (by simp)
    simp only [drain]
    split
    · next hs =>
      have hrest : ∀ b' c', (entries.erase b)[b']? = some c' ↔ (b', c') ∈ rest := by
        intro b' c'
        rw [ExtTreeMap.getElem?_erase]
        split
        · next heq =>
          have heq : b = b' := by simpa [compare_eq_iff_eq] using heq
          subst heq
          refine ⟨fun h => by simp at h, fun h => absurd (hsorted.1 _ h) (lt_irrefl _)⟩
        · next hne =>
          have hne : b ≠ b' := by simpa [compare_eq_iff_eq] using hne
          rw [hmem, List.mem_cons]
          refine ⟨fun h => h.resolve_left fun he => hne (Prod.ext_iff.mp he).1.symm, Or.inr⟩
      obtain ⟨h₁, h₂, h₃, h₄, h₅⟩ := ih (entries.erase b) b hsorted.2 hrest hsorted.1
        (fun e he => hbelow e (List.mem_cons_of_mem _ he)) hbt
      refine ⟨by omega, h₂, fun b' c' => ?_, ?_, h₅.imp id ?_⟩
      · rw [h₃, List.mem_cons]
        constructor
        · exact fun h => ⟨Or.inr h.1, h.2⟩
        · rintro ⟨he | hmem', hlt⟩
          · obtain ⟨rfl, rfl⟩ := Prod.ext_iff.mp he
            omega
          · exact ⟨hmem', hlt⟩
      · intro e he hle
        rcases List.mem_cons.mp he with rfl | he
        · exact hs
        · exact h₄ e he hle
      · rintro ⟨c', hc', hns⟩
        exact ⟨c', List.mem_cons_of_mem _ hc', hns⟩
    · next hs =>
      have hhw' : min (max hw (b - 1)) topmost = b - 1 := by omega
      have hgt : ∀ e ∈ (b, c) :: rest, b - 1 < e.1 := by
        intro e he
        rcases List.mem_cons.mp he with rfl | he
        · exact Nat.sub_one_lt_of_lt hb
        · have := hsorted.1 e he
          omega
      simp only [hhw']
      refine ⟨by omega, by omega, fun b' c' => ?_, ?_, Or.inr ⟨c, ?_, by simpa using hs⟩⟩
      · rw [hmem]
        exact ⟨fun h => ⟨h, hgt _ h⟩, And.left⟩
      · intro e he hle
        have := hgt e he
        omega
      · rw [show b - 1 + 1 = b by omega]
        exact List.mem_cons_self

variable (l : PeerBinLog C) (settled : C → Bool)

/-- What the loop leaves of the window, and how far it got. -/
def drained : BTreeMap ℕ C × ℕ :=
  drain settled l.topmost l.entries.toList l.entries l.interval

theorem drained_spec :
    l.interval ≤ (l.drained settled).2 ∧ (l.drained settled).2 ≤ l.topmost
      ∧ (∀ b c, (l.drained settled).1[b]? = some c ↔
          l.entries[b]? = some c ∧ (l.drained settled).2 < b)
      ∧ (∀ b c, l.entries[b]? = some c → b ≤ (l.drained settled).2 → settled c)
      ∧ ((l.drained settled).1.isEmpty ∨
          ∃ c, l.entries[(l.drained settled).2 + 1]? = some c ∧ ¬ settled c) := by
  have hwin : ∀ e ∈ l.entries.toList, l.interval < e.1 ∧ e.1 ≤ l.topmost := by
    intro e he
    exact l.window e.1 (ExtTreeMap.isSome_getElem?_iff_mem.mp
      (by rw [(mem_entries l.entries e.1 e.2).mp he]; rfl))
  obtain ⟨h₁, h₂, h₃, h₄, h₅⟩ := drain_spec settled l.topmost l.entries.toList l.entries l.interval
    (sorted_entries l.entries) (fun b c => (mem_entries l.entries b c).symm)
    (fun e he => (hwin e he).1) (fun e he => (hwin e he).2) l.interval_le
  refine ⟨h₁, h₂, fun b c => ?_, fun b c hc => h₄ (b, c) ((mem_entries _ _ _).mpr hc), h₅.imp id ?_⟩
  · rw [← mem_entries l.entries]
    exact h₃ b c
  · rintro ⟨c, hc, hns⟩
    exact ⟨c, (mem_entries _ _ _).mp hc, hns⟩

/-- Where the interval stands after the loop: the end of the covered range when nothing unsettled is
left. -/
def reached : ℕ :=
  if (l.drained settled).1.isEmpty then l.topmost else (l.drained settled).2

theorem reached_spec :
    l.interval ≤ l.reached settled ∧ l.reached settled ≤ l.topmost
      ∧ (∀ b c, (l.drained settled).1[b]? = some c ↔
          l.entries[b]? = some c ∧ l.reached settled < b)
      ∧ (∀ b c, l.entries[b]? = some c → b ≤ l.reached settled → settled c)
      ∧ (l.reached settled = l.topmost ∨
          ∃ c, l.entries[l.reached settled + 1]? = some c ∧ ¬ settled c) := by
  obtain ⟨h₁, h₂, h₃, h₄, h₅⟩ := l.drained_spec settled
  rw [reached]
  split
  · next he =>
    -- nothing is left, so every entry was passed
    have hnone : ∀ b c, l.entries[b]? = some c → b ≤ (l.drained settled).2 := by
      intro b c hc
      by_contra hlt
      have := (h₃ b c).mpr ⟨hc, by omega⟩
      rw [ExtTreeMap.isEmpty_iff.mp he] at this
      simp at this
    refine ⟨l.interval_le, le_refl _, fun b c => ?_, fun b c hc _ => h₄ b c hc (hnone b c hc),
      Or.inl rfl⟩
    rw [h₃]
    constructor
    · rintro ⟨hc, hlt⟩
      have := hnone b c hc
      omega
    · rintro ⟨hc, hlt⟩
      have := (l.window b (ExtTreeMap.isSome_getElem?_iff_mem.mp (by rw [hc]; rfl))).2
      omega
  · next he => exact ⟨h₁, h₂, h₃, h₄, Or.inr (h₅.resolve_left he)⟩

/-- Settle before you forget: move the interval over the settled prefix, never past an unsettled
entry; the new high-water is returned if it moved. What is reached is never below the interval, so
assigning it is the source's guarded assignment. -/
def advance : PeerBinLog C × Option ℕ :=
  let log : PeerBinLog C :=
    { l with
      interval := l.reached settled
      entries := (l.drained settled).1
      interval_le := (l.reached_spec settled).2.1
      window := by
        intro b hb
        obtain ⟨c, hc⟩ := Option.isSome_iff_exists.mp (ExtTreeMap.isSome_getElem?_iff_mem.mpr hb)
        obtain ⟨hc, hlt⟩ := ((l.reached_spec settled).2.2.1 b c).mp hc
        exact ⟨hlt, (l.window b (ExtTreeMap.isSome_getElem?_iff_mem.mp (by rw [hc]; rfl))).2⟩ }
  (log, if l.reached settled > l.interval then some (l.reached settled) else none)

/-! ## What the operations do -/

@[simp] theorem interval_new : (new : PeerBinLog C).interval = 0 := rfl

@[simp] theorem topmost_new : (new : PeerBinLog C).topmost = 0 := rfl

@[simp] theorem entries_new : (new : PeerBinLog C).entries = ∅ := rfl

@[simp] theorem interval_observe (b : ℕ) (c : C) : (l.observe b c).interval = l.interval := rfl

@[simp] theorem topmost_observe (b : ℕ) (c : C) : (l.observe b c).topmost = max l.topmost b := by
  simp only [observe]
  split <;> omega

/-- An observed entry enters above the interval and replaces what stood at its position. -/
theorem entries_observe (b b' : ℕ) (c c' : C) :
    (l.observe b c).entries[b']? = some c' ↔
      (b = b' ∧ l.interval < b ∧ c = c') ∨ ¬ (b = b' ∧ l.interval < b) ∧ l.entries[b']? = some c' := by
  simp only [observe]
  split
  · grind
  · grind

@[simp] theorem interval_cover (t : ℕ) : (l.cover t).interval = l.interval := rfl

@[simp] theorem topmost_cover (t : ℕ) : (l.cover t).topmost = max l.topmost t := by
  simp only [cover]
  split <;> omega

@[simp] theorem entries_cover (t : ℕ) : (l.cover t).entries = l.entries := rfl

@[simp] theorem interval_forgetEntry (b : ℕ) : (l.forgetEntry b).1.interval = l.interval := rfl

@[simp] theorem topmost_forgetEntry (b : ℕ) : (l.forgetEntry b).1.topmost = l.topmost := rfl

theorem entries_forgetEntry (b b' : ℕ) (c : C) :
    (l.forgetEntry b).1.entries[b']? = some c ↔ b ≠ b' ∧ l.entries[b']? = some c := by
  simp only [forgetEntry]
  grind

theorem mem_unsettled (b : ℕ) (c : C) : (b, c) ∈ l.unsettled ↔ l.entries[b]? = some c :=
  mem_entries l.entries b c

/-- Entries stand above the interval, within what the offers covered. -/
theorem bounds_of_entry {l : PeerBinLog C} {b : ℕ} {c : C} (h : l.entries[b]? = some c) :
    l.interval < b ∧ b ≤ l.topmost :=
  l.window b (ExtTreeMap.isSome_getElem?_iff_mem.mp (by rw [h]; rfl))

@[simp] theorem interval_advance : (l.advance settled).1.interval = l.reached settled := rfl

@[simp] theorem topmost_advance : (l.advance settled).1.topmost = l.topmost := rfl

/-- The interval never regresses. -/
theorem interval_le_reached : l.interval ≤ l.reached settled := (l.reached_spec settled).1

theorem reached_le_topmost : l.reached settled ≤ l.topmost := (l.reached_spec settled).2.1

/-- The window keeps exactly the entries above the new interval. -/
theorem entries_advance (b : ℕ) (c : C) :
    (l.advance settled).1.entries[b]? = some c ↔
      l.entries[b]? = some c ∧ l.reached settled < b :=
  (l.reached_spec settled).2.2.1 b c

/-- Everything the interval passes was settled. -/
theorem settled_of_le_reached {b : ℕ} {c : C} (hc : l.entries[b]? = some c)
    (hb : b ≤ l.reached settled) : settled c :=
  (l.reached_spec settled).2.2.2.1 b c hc hb

/-- The interval stops only at the end of the covered range or below an unsettled entry. -/
theorem reached_maximal : l.reached settled = l.topmost ∨
    ∃ c, l.entries[l.reached settled + 1]? = some c ∧ ¬ settled c :=
  (l.reached_spec settled).2.2.2.2

theorem advance_snd (upto : ℕ) :
    (l.advance settled).2 = some upto ↔ l.interval < upto ∧ upto = l.reached settled := by
  simp only [advance]
  split
  · next h => grind
  · next h => grind

/-! ## The settled prefix -/

/-- The high-waters an advance may take: covered, and past nothing unsettled. -/
def SettledTo (x : ℕ) : Prop :=
  l.interval ≤ x ∧ x ≤ l.topmost ∧ ∀ b c, l.entries[b]? = some c → b ≤ x → settled c

/-- The interval is moved to the largest of them. -/
theorem isGreatest_reached : IsGreatest {x | l.SettledTo settled x} (l.reached settled) := by
  refine ⟨⟨l.interval_le_reached settled, l.reached_le_topmost settled, fun b c hc hb =>
    l.settled_of_le_reached settled hc hb⟩, fun x hx => ?_⟩
  obtain ⟨-, htop, hall⟩ := hx
  rcases l.reached_maximal settled with h | ⟨c, hc, hns⟩
  · exact h ▸ htop
  · -- an unsettled entry stands just above
    by_contra hlt
    exact hns (hall _ c hc (by omega))

/-- The advance computes exactly the settled prefix: the interval becomes the largest covered
high-water with nothing unsettled at or below it, exactly the entries up to it leave the window, and
it is returned if it moved. No position is zero, so that none has a predecessor below zero. -/
theorem advance_settled_prefix (l : PeerBinLog C) (settled : C → Bool) :
    let r := l.advance settled
    IsGreatest {x | l.SettledTo settled x} r.1.interval
      ∧ (∀ b c, r.1.entries[b]? = some c ↔ l.entries[b]? = some c ∧ r.1.interval < b)
      ∧ r.1.topmost = l.topmost
      ∧ (∀ x, r.2 = some x ↔ l.interval < x ∧ x = r.1.interval)
      ∧ r.1.interval ≤ r.1.topmost
      ∧ (∀ b ∈ r.1.entries, r.1.interval < b ∧ b ≤ r.1.topmost)
      ∧ ∀ b ∈ l.entries, 1 ≤ b := by
  intro r
  refine ⟨l.isGreatest_reached settled, l.entries_advance settled, rfl, l.advance_snd settled,
    r.1.interval_le, r.1.window, fun b hb => ?_⟩
  have hlt := (l.window b hb).1
  omega

end PeerBinLog

end Melissi.Settlement
