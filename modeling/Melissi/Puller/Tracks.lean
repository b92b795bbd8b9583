import Melissi.Common.AppendLog
import Melissi.Node.HighWater

/-!
# A settlement log that tracks an append log

The abstract statement of what the window is for: everything the answered pages covered is settled
or stands in the window, and nothing else does. Answering with a page of the log, advancing and
appending keep it; answering drops nothing.
-/

namespace Melissi.Puller

open Melissi.Common Melissi.Machine Melissi.Settlement Melissi.Node
open Std (ExtTreeMap ExtTreeSet)

variable {C : Type}

/-- `l` tracks `log`: its window is a part of the log, what it covers is settled or in the window,
and it covers nothing past the head. -/
structure Tracks (log : AppendLog C) (l : PeerBinLog C) (settled : C → Prop) : Prop where
  sub : ∀ b c, l.entries[b]? = some c → (b, c) ∈ log.entries
  cover : ∀ b c, (b, c) ∈ log.entries → b ≤ l.topmost → settled c ∨ l.entries[b]? = some c
  le_head : l.topmost ≤ log.head

namespace Tracks

variable {log : AppendLog C} {l : PeerBinLog C} {settled : C → Prop}

theorem new (log : AppendLog C) (settled : C → Prop) : Tracks log .new settled where
  sub := by simp
  cover b c h hb := by
    have := log.pos_of_mem h
    rw [PeerBinLog.topmost_new] at hb
    omega
  le_head := Nat.zero_le _

theorem mono (h : Tracks log l settled) {settled' : C → Prop} (hs : ∀ c, settled c → settled' c) :
    Tracks log l settled' where
  sub := h.sub
  cover b c hc hb := (h.cover b c hc hb).imp_left (hs c)
  le_head := h.le_head

/-- Everything at or below the interval is settled. -/
theorem settled_of_le (h : Tracks log l settled) {b : ℕ} {c : C} (hc : (b, c) ∈ log.entries)
    (hb : b ≤ l.interval) : settled c := by
  refine (h.cover b c hc (hb.trans l.interval_le)).resolve_right fun he => ?_
  have := (PeerBinLog.bounds_of_entry he).1
  omega

theorem append (h : Tracks log l settled) {b : ℕ} {c : C} (hb : log.head < b) :
    Tracks (log.append b c hb) l settled where
  sub b' c' he := (log.mem_append hb _).mpr (.inl (h.sub b' c' he))
  cover b' c' hc hb' := by
    rcases (log.mem_append hb _).mp hc with hc | hc
    · exact h.cover b' c' hc hb'
    · have hle := h.le_head
      obtain ⟨rfl, rfl⟩ := Prod.ext_iff.mp hc
      omega
  le_head := by
    have hle := h.le_head
    rw [AppendLog.head_append]
    omega

/-- Advancing settles what it takes out of the window. -/
theorem advance {p : C → Bool} (h : Tracks log l settled) (hp : ∀ c, p c → settled c) :
    Tracks log (l.advance p).1 settled where
  sub b c he := h.sub b c ((l.entries_advance p b c).mp he).1
  cover b c hc hb := by
    rcases h.cover b c hc hb with hs | he
    · exact .inl hs
    · by_cases hr : b ≤ l.reached p
      · exact .inl (hp c (l.settled_of_le_reached p he hr))
      · exact .inr ((l.entries_advance p b c).mpr ⟨he, by omega⟩)
  le_head := h.le_head

section Answer

variable {start limit : ℕ}

/-- A page names the entries of the log in its range. -/
theorem named_page (hne : log.page start limit ≠ []) {b : ℕ} {c : C}
    (hc : (b, c) ∈ log.entries) (hs : start ≤ b)
    (ht : b ≤ AppendLog.topmost (log.page start limit)) :
    named (log.page start limit) b = some c := by
  have hmem := AppendLog.mem_page hc hs ht hne
  cases hn : named (log.page start limit) b with
  | none => exact absurd (List.mem_map.mpr ⟨_, hmem, rfl⟩) (named_eq_none.mp hn)
  | some c' =>
    rw [log.unique hc (AppendLog.mem_of_mem_page (mem_of_named hn)).1]

/-- An answered page drops nothing from the window. -/
theorem lost_page (h : Tracks log l settled) (hne : log.page start limit ≠ []) :
    lost l start (log.page start limit) (AppendLog.topmost (log.page start limit)) = [] := by
  refine List.eq_nil_iff_forall_not_mem.mpr fun e he => ?_
  obtain ⟨hc, hs, ht, hn⟩ := mem_lost.mp he
  have hnamed := named_page hne (h.sub _ _ hc) hs ht
  exact hn (List.mem_map.mpr ⟨_, mem_of_named hnamed, rfl⟩)

/-- The covered range after an answered page. -/
theorem topmost_page (hne : log.page start limit ≠ []) :
    (answeredLog l start (log.page start limit)
      (AppendLog.topmost (log.page start limit))).topmost
      = max l.topmost (AppendLog.topmost (log.page start limit)) := by
  have hst := AppendLog.start_le_topmost hne
  refine eq_of_forall_le_iff fun x => ?_
  rw [le_topmost_answeredLog, le_max_iff]
  refine or_congr_right ⟨?_, .inl⟩
  rintro (hx | hx | ⟨e, he, hx⟩)
  · exact hx
  · omega
  · exact hx.trans (AppendLog.le_topmost he)

/-- Answering an offer, made at or below the next start, with a page keeps track. -/
theorem answered (h : Tracks log l settled) (hne : log.page start limit ≠ [])
    (hstart : start ≤ l.next) :
    Tracks log (answeredLog l start (log.page start limit)
      (AppendLog.topmost (log.page start limit))) settled where
  sub b c he := by
    have hb := (PeerBinLog.bounds_of_entry he).1
    rw [interval_answeredLog] at hb
    rw [entries_answeredLog _ _ _ _ hb, Option.or_eq_some_iff] at he
    rcases he with he | ⟨-, he⟩
    · exact (AppendLog.mem_of_mem_page (mem_of_named he)).1
    · split at he
      · cases he
      · exact h.sub b c he
  cover b c hc hb := by
    rw [topmost_page hne, le_max_iff] at hb
    by_cases hi : b ≤ l.interval
    · exact .inl (h.settled_of_le hc hi)
    rw [entries_answeredLog _ _ _ _ (by omega)]
    by_cases hr : start ≤ b ∧ b ≤ AppendLog.topmost (log.page start limit)
    · rw [named_page hne hc hr.1 hr.2]
      exact .inr rfl
    · rw [if_neg hr]
      -- outside the page, so covered before
      have hle : b ≤ l.topmost := by
        have hn := l.interval_le
        rw [PeerBinLog.next] at hstart
        omega
      rcases h.cover b c hc hle with hs | he
      · exact .inl hs
      · right
        cases hn : named (log.page start limit) b with
        | none => rw [Option.none_or]; exact he
        | some c' => rw [log.unique hc (AppendLog.mem_of_mem_page (mem_of_named hn)).1]; rfl
  le_head := by
    rw [topmost_page hne]
    exact max_le h.le_head (log.topmost_le_head _ _)

end Answer

end Tracks

end Melissi.Puller
