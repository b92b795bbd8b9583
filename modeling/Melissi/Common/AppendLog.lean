import Mathlib

/-!
# Append-only logs

A log numbers its entries by increasing positions above zero and only ever grows at its end. Pages
are read from a start: the first entries at or past it. A page that reaches position `t` has
everything between its start and `t`.
-/

namespace Melissi.Common

variable {α : Type}

/-- Entries under increasing positions, all above zero. -/
structure AppendLog (α : Type) where
  entries : List (ℕ × α)
  increasing : (0 :: entries.map (·.1)).Pairwise (· < ·)

namespace AppendLog

def empty : AppendLog α := ⟨[], by simp⟩

/-- The last position, zero in an empty log. -/
def head (l : AppendLog α) : ℕ := ((l.entries.getLast?).map (·.1)).getD 0

theorem entries_increasing (l : AppendLog α) : l.entries.Pairwise (fun e e' => e.1 < e'.1) :=
  List.pairwise_map.mp (List.pairwise_cons.mp l.increasing).2

theorem pos_of_mem (l : AppendLog α) {e : ℕ × α} (h : e ∈ l.entries) : 0 < e.1 :=
  (List.pairwise_cons.mp l.increasing).1 e.1 (List.mem_map.mpr ⟨e, h, rfl⟩)

/-- A position has one entry. -/
theorem unique (l : AppendLog α) {b : ℕ} {c c' : α} (h : (b, c) ∈ l.entries)
    (h' : (b, c') ∈ l.entries) : c = c' := by
  have hpair := List.Pairwise.forall_of_forall_of_flip (R := fun e e' : ℕ × α => e.1 = e'.1 → e = e')
    (fun _ _ _ => rfl) (l.entries_increasing.imp fun h he => absurd he h.ne)
    (l.entries_increasing.imp fun h he => absurd he h.ne')
  exact (Prod.ext_iff.mp (hpair h h' rfl)).2

/-- In a list of increasing positions nothing is past its last entry. -/
theorem le_getLast {l : List (ℕ × α)} (h : l.Pairwise (fun e e' => e.1 < e'.1)) {e : ℕ × α}
    (he : e ∈ l) : e.1 ≤ ((l.getLast?).map (·.1)).getD 0 := by
  rcases List.eq_nil_or_concat l with rfl | ⟨l, d, rfl⟩
  · cases he
  · rw [List.concat_eq_append] at h he ⊢
    simp only [List.getLast?_append, List.getLast?_singleton, Option.some_or, Option.map_some,
      Option.getD_some]
    rcases List.mem_append.mp he with he | he
    · exact ((List.pairwise_append.mp h).2.2 e he d (by simp)).le
    · rw [List.mem_singleton.mp he]

theorem le_head (l : AppendLog α) {e : ℕ × α} (h : e ∈ l.entries) : e.1 ≤ l.head :=
  le_getLast l.entries_increasing h

/-- The head of a log that has one is the position of an entry. -/
theorem head_mem (l : AppendLog α) (h : l.head ≠ 0) : ∃ c, (l.head, c) ∈ l.entries := by
  rw [head] at h ⊢
  cases hl : l.entries.getLast? with
  | none => simp [hl] at h
  | some e => exact ⟨e.2, List.mem_of_getLast? hl⟩

/-! ## Growing -/

/-- One more entry past the head. -/
def append (l : AppendLog α) (b : ℕ) (c : α) (h : l.head < b) : AppendLog α where
  entries := l.entries ++ [(b, c)]
  increasing := by
    rw [List.map_append, ← List.cons_append, List.pairwise_append]
    refine ⟨l.increasing, by simp, ?_⟩
    intro x hx y hy
    obtain rfl : y = b := by simpa using hy
    rcases List.mem_cons.mp hx with rfl | hx
    · omega
    · obtain ⟨e, he, rfl⟩ := List.mem_map.mp hx
      have := l.le_head he
      omega

theorem mem_append (l : AppendLog α) {b : ℕ} {c : α} (h : l.head < b) (e : ℕ × α) :
    e ∈ (l.append b c h).entries ↔ e ∈ l.entries ∨ e = (b, c) := by
  simp [append]

@[simp] theorem head_append (l : AppendLog α) {b : ℕ} {c : α} (h : l.head < b) :
    (l.append b c h).head = b := by
  simp [head, append]

/-! ## Pages -/

/-- The first `limit` entries at or past `start`. -/
def page (l : AppendLog α) (start limit : ℕ) : List (ℕ × α) :=
  (l.entries.filter fun e => decide (start ≤ e.1)).take limit

/-- The last position of a page. -/
def topmost (page : List (ℕ × α)) : ℕ := ((page.getLast?).map (·.1)).getD 0

theorem mem_of_mem_page {l : AppendLog α} {start limit : ℕ} {e : ℕ × α}
    (h : e ∈ l.page start limit) : e ∈ l.entries ∧ start ≤ e.1 := by
  simpa using List.mem_filter.mp (List.mem_of_mem_take h)

theorem page_increasing (l : AppendLog α) (start limit : ℕ) :
    (l.page start limit).Pairwise (fun e e' => e.1 < e'.1) :=
  (l.entries_increasing.filter _).take

/-- A page that is not empty ends at one of its entries. -/
theorem topmost_mem {page : List (ℕ × α)} (h : page ≠ []) : ∃ c, (topmost page, c) ∈ page := by
  cases hp : page.getLast? with
  | none => exact absurd (List.getLast?_eq_none_iff.mp hp) h
  | some e =>
    refine ⟨e.2, ?_⟩
    rw [topmost, hp]
    exact List.mem_of_getLast? hp

theorem le_topmost {l : AppendLog α} {start limit : ℕ} {e : ℕ × α} (h : e ∈ l.page start limit) :
    e.1 ≤ topmost (l.page start limit) :=
  le_getLast (l.page_increasing start limit) h

/-- A page that is not empty ends at or past its start. -/
theorem start_le_topmost {l : AppendLog α} {start limit : ℕ} (hne : l.page start limit ≠ []) :
    start ≤ topmost (l.page start limit) := by
  obtain ⟨c, hc⟩ := topmost_mem hne
  exact (mem_of_mem_page hc).2

/-- No page ends past the head. -/
theorem topmost_le_head (l : AppendLog α) (start limit : ℕ) :
    topmost (l.page start limit) ≤ l.head := by
  by_cases hne : l.page start limit = []
  · rw [hne]
    exact Nat.zero_le _
  · obtain ⟨c, hc⟩ := topmost_mem hne
    exact l.le_head (mem_of_mem_page hc).1

/-- Entry `i` of a page stands at or past `start + i`. -/
theorem add_le_of_getElem? {l : AppendLog α} {start limit i : ℕ} {e : ℕ × α}
    (h : (l.page start limit)[i]? = some e) : start + i ≤ e.1 := by
  induction i generalizing e with
  | zero => exact (mem_of_mem_page (List.mem_of_getElem? h)).2
  | succ i ih =>
    obtain ⟨hlt, rfl⟩ := List.getElem?_eq_some_iff.mp h
    have hprev := ih (List.getElem?_eq_getElem (Nat.lt_of_succ_lt hlt))
    have hstep := List.pairwise_iff_getElem.mp (l.page_increasing start limit) i (i + 1)
      (Nat.lt_of_succ_lt hlt) hlt (Nat.lt_succ_self i)
    omega

/-- A page has every entry from its start to its end. -/
theorem mem_page {l : AppendLog α} {start limit : ℕ} {e : ℕ × α} (he : e ∈ l.entries)
    (hs : start ≤ e.1) (ht : e.1 ≤ topmost (l.page start limit)) (hne : l.page start limit ≠ []) :
    e ∈ l.page start limit := by
  have hmem : e ∈ l.entries.filter fun e => decide (start ≤ e.1) :=
    List.mem_filter.mpr ⟨he, by simpa using hs⟩
  have hsplit := List.take_append_drop limit (l.entries.filter fun e => decide (start ≤ e.1))
  have hsorted : ((l.entries.filter fun e => decide (start ≤ e.1)).take limit ++
      (l.entries.filter fun e => decide (start ≤ e.1)).drop limit).Pairwise
        (fun e e' => e.1 < e'.1) := by
    rw [hsplit]
    exact l.entries_increasing.filter _
  rw [← hsplit, List.mem_append] at hmem
  refine hmem.resolve_right fun hd => ?_
  -- past the page every position is beyond its end
  obtain ⟨c, hc⟩ := topmost_mem hne
  have := (List.pairwise_append.mp hsorted).2.2 _ hc e hd
  dsimp only at this
  omega

/-- How many entries stand from `start` on below `b`. -/
def between (l : AppendLog α) (start b : ℕ) : ℕ :=
  l.entries.countP fun e => decide (e.1 < b) && decide (start ≤ e.1)

/-- In a list of increasing positions as many are below an entry as stand before it. -/
theorem countP_lt_of_getElem? {l : List (ℕ × α)} (h : l.Pairwise (fun e e' => e.1 < e'.1)) {i : ℕ}
    {e : ℕ × α} (hi : l[i]? = some e) : l.countP (fun e' => decide (e'.1 < e.1)) = i := by
  induction l generalizing i with
  | nil => cases hi
  | cons d l ih =>
    obtain ⟨hd, hl⟩ := List.pairwise_cons.mp h
    cases i with
    | zero =>
      obtain rfl : d = e := by simpa using hi
      rw [List.countP_eq_zero]
      intro e' he'
      rcases List.mem_cons.mp he' with rfl | he'
      · simp
      · simpa using (hd e' he').le
    | succ i =>
      rw [List.getElem?_cons_succ] at hi
      have hlt := hd e (List.mem_of_getElem? hi)
      rw [List.countP_cons_of_pos (by simpa using hlt), ih hl hi]

/-- A page has the entries from its start on with fewer than its limit before them. -/
theorem mem_page_iff (l : AppendLog α) (start limit : ℕ) (e : ℕ × α) :
    e ∈ l.page start limit ↔ e ∈ l.entries ∧ start ≤ e.1 ∧ l.between start e.1 < limit := by
  have hcount : ∀ i, (l.entries.filter fun e => decide (start ≤ e.1))[i]? = some e →
      l.between start e.1 = i := by
    intro i hi
    rw [← countP_lt_of_getElem? (l.entries_increasing.filter _) hi, List.countP_filter, between]
  constructor
  · intro h
    obtain ⟨hmem, hs⟩ := mem_of_mem_page h
    obtain ⟨i, hi⟩ := List.mem_iff_getElem?.mp h
    rw [page, List.getElem?_take] at hi
    split at hi
    · next hlt => exact ⟨hmem, hs, (hcount i hi).trans_lt hlt⟩
    · cases hi
  · rintro ⟨hmem, hs, hlt⟩
    have hin : e ∈ l.entries.filter fun e => decide (start ≤ e.1) :=
      List.mem_filter.mpr ⟨hmem, by simpa using hs⟩
    obtain ⟨i, hi⟩ := List.mem_iff_getElem?.mp hin
    rw [hcount i hi] at hlt
    refine List.mem_of_getElem? (i := i) ?_
    rw [page, List.getElem?_take, if_pos hlt, hi]

/-- Where the head reaches the start, a page with room is not empty. -/
theorem page_ne_nil {l : AppendLog α} {start limit : ℕ} (hs : 0 < start) (hh : start ≤ l.head)
    (hl : 0 < limit) : l.page start limit ≠ [] := by
  obtain ⟨c, hc⟩ := l.head_mem (by omega)
  have hmem : (l.head, c) ∈ l.entries.filter fun e => decide (start ≤ e.1) :=
    List.mem_filter.mpr ⟨hc, by simpa using hh⟩
  rw [page, ne_eq, List.take_eq_nil_iff, not_or]
  exact ⟨by omega, List.ne_nil_of_mem hmem⟩

/-- A page that was read stays a page while the log grows. -/
theorem page_append {l : AppendLog α} {b : ℕ} {c : α} (h : l.head < b) (start limit : ℕ) :
    (l.append b c h).page start (l.page start limit).length = l.page start limit := by
  rw [page, page, append, List.filter_append, List.take_append_of_le_length]
  · rw [List.length_take, ← List.take_eq_take_min]
  · rw [List.length_take]
    exact Nat.min_le_right _ _

/-! ## Logs without gaps -/

/-- The positions are all those from 1 on: nothing was ever taken out. -/
def Dense (l : AppendLog α) : Prop := ∀ i e, l.entries[i]? = some e → e.1 = i + 1

/-- What is stored one after the other, each under the position after the head. -/
def numbered (cs : List α) : AppendLog α where
  entries := cs.zipIdx.map fun e => (e.2 + 1, e.1)
  increasing := by
    have hpos : (cs.zipIdx.map fun e => (e.2 + 1, e.1)).map (·.1) = List.range' 1 cs.length := by
      rw [List.map_map, List.range'_succ_left, ← List.zipIdx_map_snd 0 cs, List.map_map]
      rfl
    rw [hpos]
    exact List.pairwise_lt_range' (s := 0) (n := cs.length + 1)

theorem dense_numbered (cs : List α) : (numbered cs).Dense := by
  intro i e h
  rw [numbered, List.getElem?_map, List.getElem?_zipIdx, Option.map_map] at h
  obtain ⟨c, -, rfl⟩ := Option.map_eq_some_iff.mp h
  exact congrArg (· + 1) (Nat.zero_add i)

/-- Of entries that stand without gaps, those from a position on are all but the first. -/
theorem filter_eq_drop {l : List (ℕ × α)} {n : ℕ} (h : ∀ i e, l[i]? = some e → e.1 = n + i)
    (start : ℕ) : (l.filter fun e => decide (start ≤ e.1)) = l.drop (start - n) := by
  induction l generalizing n with
  | nil => simp
  | cons e l ih =>
    have he : e.1 = n := h 0 e rfl
    have hrest := @ih (n + 1) fun i d hi => by
      have := h (i + 1) d hi
      omega
    rw [List.filter_cons]
    by_cases hs : start ≤ n
    · rw [if_pos (by simpa [he] using hs), hrest, Nat.sub_eq_zero_of_le hs,
        Nat.sub_eq_zero_of_le (Nat.le_succ_of_le hs), List.drop_zero, List.drop_zero]
    · obtain ⟨m, rfl⟩ : ∃ m, start = n + (m + 1) := ⟨start - n - 1, by omega⟩
      rw [if_neg (by simp [he]), hrest, Nat.add_sub_cancel_left, List.drop_succ_cons,
        show n + (m + 1) - (n + 1) = m by omega]

section Dense

variable {l : AppendLog α} (h : l.Dense) {start limit : ℕ}
include h

/-- A page skips the entries below its start. -/
theorem Dense.page_eq (start limit : ℕ) :
    l.page start limit = (l.entries.drop (start - 1)).take limit := by
  rw [page, filter_eq_drop (n := 1) (fun i e hi => (h i e hi).trans (Nat.add_comm i 1))]

/-- Entry `i` of a page stands at its start and `i`. -/
theorem Dense.pos_page (hs : 1 ≤ start) {i : ℕ} {e : ℕ × α}
    (hi : (l.page start limit)[i]? = some e) : e.1 = start + i := by
  rw [h.page_eq, List.getElem?_take] at hi
  split at hi
  · rw [List.getElem?_drop] at hi
    have := h _ _ hi
    omega
  · cases hi

/-- A page ends before its start and its length. -/
theorem Dense.topmost_lt (hs : 1 ≤ start) (hne : l.page start limit ≠ []) :
    topmost (l.page start limit) < start + limit := by
  obtain ⟨c, hc⟩ := topmost_mem hne
  obtain ⟨i, hi⟩ := List.mem_iff_getElem?.mp hc
  have hpos := h.pos_page hs hi
  have hlen : i < (l.page start limit).length := (List.getElem?_eq_some_iff.mp hi).1
  have hle : (l.page start limit).length ≤ limit := List.length_take_le _ _
  dsimp only at hpos
  omega

/-- A page has every entry from its start on up to its length. -/
theorem Dense.mem_page {e : ℕ × α} (he : e ∈ l.entries) (hs : start ≤ e.1)
    (hl : e.1 < max start 1 + limit) : e ∈ l.page start limit := by
  obtain ⟨i, hi⟩ := List.mem_iff_getElem?.mp he
  have hpos := h i e hi
  rw [h.page_eq]
  refine List.mem_iff_getElem?.mpr ⟨i - (start - 1), ?_⟩
  rw [List.getElem?_take, if_pos (by omega), List.getElem?_drop,
    show start - 1 + (i - (start - 1)) = i by omega, hi]

end Dense

end AppendLog

end Melissi.Common
