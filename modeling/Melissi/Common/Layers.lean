import Mathlib

/-!
# Searching a graph to a depth

A breadth-first search that marks a state when it takes it off its queue, and goes no deeper than a
cap. States are taken in the order of their depths, so that each is marked at its least depth, and
the search finds whatever a chain shorter than the cap leads to. It ends also where no set of states
is known to be finite: what is queued can only unfold so far.
-/

namespace Melissi.Common

variable {σ : Type*} {next : σ → List σ} {cap : ℕ} {s₀ : σ}

/-- A chain of so many steps. -/
def Chain (next : σ → List σ) : ℕ → σ → σ → Prop
  | 0, s, t => s = t
  | n + 1, s, t => ∃ u, Chain next n s u ∧ t ∈ next u

/-- What holds of a search: the queue goes by depth and spans at most two, and what is marked has a
level, that of a chain, at which what it leads to is marked or queued next. -/
structure Layered (next : σ → List σ) (cap : ℕ) (s₀ : σ) (marked : Finset σ) (queue : List (σ × ℕ))
    (level : σ → ℕ) : Prop where
  sorted : queue.Pairwise fun a b => a.2 ≤ b.2 ∧ b.2 ≤ a.2 + 1
  behind : ∀ v ∈ marked, ∀ q ∈ queue, level v ≤ q.2
  start : (s₀ ∈ marked ∧ level s₀ = 0) ∨ (s₀, 0) ∈ queue
  queued : ∀ q ∈ queue, Chain next q.2 s₀ q.1
  reached : ∀ v ∈ marked, level v < cap ∧ Chain next (level v) s₀ v
  closed : ∀ v ∈ marked, ∀ w ∈ next v, level v + 1 < cap →
    (w ∈ marked ∧ level w ≤ level v + 1) ∨ ∃ d ≤ level v + 1, (w, d) ∈ queue

namespace Layered

variable {marked : Finset σ} {queue : List (σ × ℕ)} {level : σ → ℕ} {cur : σ} {depth : ℕ}

theorem init (next : σ → List σ) (cap : ℕ) (s₀ : σ) (level : σ → ℕ) :
    Layered next cap s₀ ∅ [(s₀, 0)] level where
  sorted := List.pairwise_singleton _ _
  behind := by simp
  start := .inr List.mem_cons_self
  queued q hq := by
    obtain rfl := List.mem_singleton.mp hq
    rfl
  reached := by simp
  closed := by simp

/-- What is too deep, or marked already, is passed over. -/
theorem skip (h : Layered next cap s₀ marked ((cur, depth) :: queue) level) (hcap : 0 < cap)
    (hskip : cap ≤ depth ∨ cur ∈ marked) : Layered next cap s₀ marked queue level := by
  have hcur : ∀ v ∈ marked, level v ≤ depth := fun v hv => h.behind v hv _ List.mem_cons_self
  refine ⟨(List.pairwise_cons.mp h.sorted).2,
    fun v hv q hq => h.behind v hv q (List.mem_cons_of_mem _ hq), ?_,
    fun q hq => h.queued q (List.mem_cons_of_mem _ hq), h.reached, fun v hv w hw hlt => ?_⟩
  · obtain hs | hs := h.start
    · exact .inl hs
    · obtain heq | hs := List.mem_cons.mp hs
      · obtain ⟨rfl, rfl⟩ := Prod.mk.inj heq
        obtain hdeep | hmark := hskip
        · omega
        · exact .inl ⟨hmark, Nat.le_zero.mp (hcur _ hmark)⟩
      · exact .inr hs
  · obtain hmark | ⟨d, hd, hmem⟩ := h.closed v hv w hw hlt
    · exact .inl hmark
    · obtain heq | hmem := List.mem_cons.mp hmem
      · obtain ⟨rfl, rfl⟩ := Prod.mk.inj heq
        obtain hdeep | hmark := hskip
        · omega
        · exact .inl ⟨hmark, (hcur _ hmark).trans hd⟩
      · exact .inr ⟨d, hd, hmem⟩

/-- The next state is marked, and what it leads to is queued one deeper. -/
theorem visit [DecidableEq σ] (h : Layered next cap s₀ marked ((cur, depth) :: queue) level)
    (hdepth : depth < cap) (hnew : cur ∉ marked) : Layered next cap s₀ (insert cur marked)
      (queue ++ (next cur).map fun w => (w, depth + 1)) (Function.update level cur depth) := by
  have hold : ∀ v ∈ marked, Function.update level cur depth v = level v := by
    intro v hv
    rw [Function.update_of_ne]
    rintro rfl
    exact hnew hv
  have hself : Function.update level cur depth cur = depth := Function.update_self _ _ _
  have hlevel : ∀ v ∈ insert cur marked, Function.update level cur depth v ≤ depth := by
    intro v hv
    obtain rfl | hv := Finset.mem_insert.mp hv
    · exact hself.le
    · rw [hold v hv]
      exact h.behind v hv _ List.mem_cons_self
  obtain ⟨hfirst, hsorted⟩ := List.pairwise_cons.mp h.sorted
  have hmap : ∀ {q : σ × ℕ}, q ∈ (next cur).map (fun w => (w, depth + 1)) →
      q.2 = depth + 1 ∧ q.1 ∈ next cur := by
    intro q hq
    obtain ⟨w, hw, rfl⟩ := List.mem_map.mp hq
    exact ⟨rfl, hw⟩
  refine ⟨?_, fun v hv q hq => ?_, ?_, fun q hq => ?_, fun v hv => ?_, fun v hv w hw hlt => ?_⟩
  · refine List.pairwise_append.mpr ⟨hsorted, ?_, fun a ha b hb => ?_⟩
    · refine List.pairwise_map.mpr (List.pairwise_of_forall fun _ _ => ⟨le_rfl, Nat.le_succ _⟩)
    · have := hfirst a ha
      have := (hmap hb).1
      omega
  · have hv' := hlevel v hv
    obtain hq | hq := List.mem_append.mp hq
    · exact hv'.trans (hfirst q hq).1
    · rw [(hmap hq).1]
      omega
  · obtain ⟨hs, hzero⟩ | hs := h.start
    · exact .inl ⟨Finset.mem_insert_of_mem hs, by rw [hold _ hs, hzero]⟩
    · obtain heq | hs := List.mem_cons.mp hs
      · obtain ⟨rfl, rfl⟩ := Prod.mk.inj heq
        exact .inl ⟨Finset.mem_insert_self _ _, hself⟩
      · exact .inr (List.mem_append_left _ hs)
  · obtain hq | hq := List.mem_append.mp hq
    · exact h.queued q (List.mem_cons_of_mem _ hq)
    · rw [(hmap hq).1]
      exact ⟨cur, h.queued _ List.mem_cons_self, (hmap hq).2⟩
  · obtain rfl | hv := Finset.mem_insert.mp hv
    · rw [hself]
      exact ⟨hdepth, h.queued _ List.mem_cons_self⟩
    · rw [hold v hv]
      exact h.reached v hv
  · -- what the new state leads to was queued just now
    obtain rfl | hv := Finset.mem_insert.mp hv
    · refine .inr ⟨depth + 1, by rw [hself], List.mem_append_right _ (List.mem_map_of_mem hw)⟩
    · -- what an older one leads to was marked or queued; the head of the queue is marked now
      rw [hold v hv] at hlt ⊢
      obtain ⟨hmark, hle⟩ | ⟨d, hd, hmem⟩ := h.closed v hv w hw hlt
      · exact .inl ⟨Finset.mem_insert_of_mem hmark, by rwa [hold w hmark]⟩
      · obtain heq | hmem := List.mem_cons.mp hmem
        · obtain ⟨rfl, rfl⟩ := Prod.mk.inj heq
          exact .inl ⟨Finset.mem_insert_self _ _, by rwa [hself]⟩
        · exact .inr ⟨d, hd, List.mem_append_left _ hmem⟩

/-- With nothing queued, what is marked is what chains shorter than the cap lead to. -/
theorem mem_iff (h : Layered next cap s₀ marked [] level) {v : σ} :
    v ∈ marked ↔ ∃ n < cap, Chain next n s₀ v := by
  constructor
  · exact fun hv => ⟨level v, h.reached v hv⟩
  · -- by the steps of the chain, with the level at most their number
    suffices hall : ∀ n < cap, ∀ v, Chain next n s₀ v → v ∈ marked ∧ level v ≤ n by
      rintro ⟨n, hn, hv⟩
      exact (hall n hn v hv).1
    intro n
    induction n with
    | zero =>
      rintro - v rfl
      obtain ⟨hs, hzero⟩ | hs := h.start
      · exact ⟨hs, hzero.le⟩
      · cases hs
    | succ n ih =>
      rintro hn v ⟨u, hu, hv⟩
      obtain ⟨hmark, hle⟩ := ih (by omega) u hu
      obtain ⟨hmark', hle'⟩ | ⟨d, -, hmem⟩ := h.closed u hmark v hv (by omega)
      · exact ⟨hmark', by omega⟩
      · cases hmem

end Layered

/-! ## How far the queue unfolds -/

/-- How many states a state unfolds to in so many steps, itself among them. -/
def unfolds (next : σ → List σ) : ℕ → σ → ℕ
  | 0, _ => 1
  | n + 1, s => 1 + ((next s).map fun t => unfolds next n t).sum

theorem unfolds_pos (n : ℕ) (s : σ) : 0 < unfolds next n s := by
  cases n with
  | zero => exact Nat.one_pos
  | succ n =>
    rw [unfolds]
    omega

/-- How many a queue unfolds to, down to the cap. -/
def queueLoad (next : σ → List σ) (cap : ℕ) (queue : List (σ × ℕ)) : ℕ :=
  (queue.map fun q => unfolds next (cap - q.2) q.1).sum

theorem queueLoad_skip (q : σ × ℕ) (queue : List (σ × ℕ)) :
    queueLoad next cap queue < queueLoad next cap (q :: queue) := by
  have := @unfolds_pos σ next (cap - q.2) q.1
  rw [queueLoad, queueLoad, List.map_cons, List.sum_cons]
  omega

theorem queueLoad_visit {cur : σ} {depth : ℕ} (hdepth : depth < cap) (queue : List (σ × ℕ)) :
    queueLoad next cap (queue ++ (next cur).map fun w => (w, depth + 1))
      < queueLoad next cap ((cur, depth) :: queue) := by
  have hcap : cap - depth = cap - (depth + 1) + 1 := by omega
  rw [queueLoad, queueLoad, List.map_append, List.sum_append, List.map_cons, List.sum_cons,
    List.map_map, hcap, unfolds]
  simp only [Function.comp_def]
  omega

end Melissi.Common
