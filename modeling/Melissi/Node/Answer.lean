import Melissi.Node.State

/-!
# The log after an answered offer

What one answer does to the log it answers: the interval stays, what was asked is covered, what the
answer names above the interval stands in the window and what it no longer names in its range is
gone.
-/

namespace Melissi.Node

open Melissi.Common Melissi.Settlement
open Std (ExtTreeMap ExtTreeSet)

variable {C : Type}

/-- The log after an answer: what was asked is covered, what the answer no longer names is dropped
and what it names is observed. -/
def answeredLog (l : PeerBinLog C) (start : ℕ) (refs : List (ℕ × C)) (topmost : ℕ) :
    PeerBinLog C :=
  let l := l.cover (max topmost start)
  let l := (lost l start refs topmost).foldl (fun l e => (l.forgetEntry e.1).1) l
  refs.foldl (fun l e => l.observe e.1 e.2) l

/-- What the refs name at position `b`: the last of them counts. -/
def named (refs : List (ℕ × C)) (b : ℕ) : Option C :=
  ((refs.filter fun e => e.1 == b).map (·.2)).getLast?

theorem named_cons (e : ℕ × C) (refs : List (ℕ × C)) (b : ℕ) :
    named (e :: refs) b = (named refs b).or (if e.1 = b then some e.2 else none) := by
  by_cases he : e.1 = b
  · have hfilter : (e :: refs).filter (fun e => e.1 == b) = e :: refs.filter (fun e => e.1 == b) := by
      simp [he]
    rw [named, hfilter, List.map_cons, List.getLast?_cons, named, if_pos he]
    cases ((refs.filter fun e => e.1 == b).map (·.2)).getLast? <;> rfl
  · simp [named, he]

theorem mem_of_named {refs : List (ℕ × C)} {b : ℕ} {c : C} (h : named refs b = some c) :
    (b, c) ∈ refs := by
  have h := List.mem_of_getLast? h
  simp only [List.mem_map, List.mem_filter, beq_iff_eq] at h
  obtain ⟨e, ⟨he, rfl⟩, rfl⟩ := h
  exact he

theorem named_eq_none {refs : List (ℕ × C)} {b : ℕ} : named refs b = none ↔ b ∉ refs.map (·.1) := by
  simp only [named, List.getLast?_eq_none_iff, List.map_eq_nil_iff, List.filter_eq_nil_iff,
    beq_iff_eq, List.mem_map, not_exists, not_and]

/-- A list of observed entries. -/
theorem foldl_observe (refs : List (ℕ × C)) (l : PeerBinLog C) :
    (refs.foldl (fun l e => l.observe e.1 e.2) l).interval = l.interval
      ∧ (∀ x, x ≤ (refs.foldl (fun l e => l.observe e.1 e.2) l).topmost ↔
          x ≤ l.topmost ∨ ∃ e ∈ refs, x ≤ e.1)
      ∧ ∀ b, l.interval < b → (refs.foldl (fun l e => l.observe e.1 e.2) l).entries[b]?
          = (named refs b).or l.entries[b]? := by
  induction refs generalizing l with
  | nil => simp [named]
  | cons e refs ih =>
    obtain ⟨h₁, h₂, h₃⟩ := ih (l.observe e.1 e.2)
    refine ⟨h₁, fun x => ?_, fun b hb => ?_⟩
    · rw [List.foldl_cons, h₂, PeerBinLog.topmost_observe, le_max_iff, or_assoc]
      simp
    · rw [List.foldl_cons, h₃ b hb, named_cons, Option.or_assoc]
      congr 1
      have hobs := l.entries_observe e.1 b e.2
      by_cases he : e.1 = b
      · subst he
        rw [if_pos rfl, Option.some_or]
        exact (hobs e.2).mpr (Or.inl ⟨rfl, hb, rfl⟩)
      · rw [if_neg he, Option.none_or]
        ext c
        have := hobs c
        simp only [he, false_and, false_or, not_false_iff, true_and] at this
        simpa using this

/-- A list of dropped entries. -/
theorem foldl_forgetEntry (es : List (ℕ × C)) (l : PeerBinLog C) :
    (es.foldl (fun l e => (l.forgetEntry e.1).1) l).interval = l.interval
      ∧ (es.foldl (fun l e => (l.forgetEntry e.1).1) l).topmost = l.topmost
      ∧ ∀ b, (es.foldl (fun l e => (l.forgetEntry e.1).1) l).entries[b]?
          = if b ∈ es.map (·.1) then none else l.entries[b]? := by
  induction es generalizing l with
  | nil => simp
  | cons e es ih =>
    obtain ⟨h₁, h₂, h₃⟩ := ih (l.forgetEntry e.1).1
    refine ⟨h₁, h₂, fun b => ?_⟩
    rw [List.foldl_cons, h₃, List.map_cons]
    simp only [PeerBinLog.forgetEntry, ExtTreeMap.getElem?_erase, compare_eq_iff_eq, List.mem_cons,
      @eq_comm _ e.1]
    by_cases hb : b = e.1 <;> by_cases hes : b ∈ es.map (·.1) <;> simp [hb, hes]

theorem mem_lost {l : PeerBinLog C} {start : ℕ} {refs : List (ℕ × C)} {topmost b : ℕ} {c : C} :
    (b, c) ∈ lost l start refs topmost ↔
      l.entries[b]? = some c ∧ start ≤ b ∧ b ≤ topmost ∧ b ∉ refs.map (·.1) := by
  simp [lost, PeerBinLog.mem_unsettled, and_assoc]

variable (start : ℕ) (refs : List (ℕ × C)) (topmost : ℕ)

theorem interval_answeredLog (l : PeerBinLog C) :
    (answeredLog l start refs topmost).interval = l.interval := by
  rw [answeredLog, (foldl_observe refs _).1, (foldl_forgetEntry _ _).1, PeerBinLog.interval_cover]

/-- An answer covers what it states, what it was asked for and what it names. -/
theorem le_topmost_answeredLog (l : PeerBinLog C) (x : ℕ) :
    x ≤ (answeredLog l start refs topmost).topmost ↔
      x ≤ l.topmost ∨ x ≤ topmost ∨ x ≤ start ∨ ∃ e ∈ refs, x ≤ e.1 := by
  rw [answeredLog, (foldl_observe refs _).2.1, (foldl_forgetEntry _ _).2.1,
    PeerBinLog.topmost_cover, le_max_iff, le_max_iff, or_assoc, or_assoc]

/-- The window after an answer: what it names above the interval, and of the rest what lies outside
the answered range. -/
theorem entries_answeredLog (l : PeerBinLog C) {b : ℕ} (hb : l.interval < b) :
    (answeredLog l start refs topmost).entries[b]? = (named refs b).or
      (if start ≤ b ∧ b ≤ topmost then none else l.entries[b]?) := by
  have hlost : b ∈ (lost (l.cover (max topmost start)) start refs topmost).map (·.1) ↔
      (∃ c, l.entries[b]? = some c) ∧ start ≤ b ∧ b ≤ topmost ∧ b ∉ refs.map (·.1) := by
    constructor
    · intro h
      obtain ⟨⟨b', c⟩, he, rfl⟩ := List.mem_map.mp h
      obtain ⟨hc, h⟩ := mem_lost.mp he
      exact ⟨⟨c, hc⟩, h⟩
    · rintro ⟨⟨c, hc⟩, h⟩
      exact List.mem_map.mpr ⟨(b, c), mem_lost.mpr ⟨hc, h⟩, rfl⟩
  rw [answeredLog, (foldl_observe refs _).2.2 b (by
    rw [(foldl_forgetEntry _ _).1, PeerBinLog.interval_cover]; exact hb),
    (foldl_forgetEntry _ _).2.2 b]
  rw [PeerBinLog.entries_cover]
  cases hn : named refs b with
  | some c => rfl
  | none =>
    rw [Option.none_or, Option.none_or]
    have hn := named_eq_none.mp hn
    cases he : l.entries[b]? with
    | none => simp
    | some c =>
      have hiff := hlost.trans (and_iff_right ⟨c, he⟩)
      simp only [hiff, hn, not_false_iff, and_true]

end Melissi.Node
