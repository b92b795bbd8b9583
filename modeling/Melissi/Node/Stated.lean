import Melissi.Node.HighWater

/-!
# How far an interval can go

An interval moves within what its log covers, and a log covers what the answers to its offers bring:
the positions they name, the topmost they state and, since an answer covers at least what was asked,
the position the offer started at.
-/

namespace Melissi.Node

open Melissi.Common Melissi.Machine Melissi.Machine.PullState Melissi.Settlement

variable {C : Type}

/-- The positions an answer for `k` states: its topmost and those it names. -/
def positions (k : PeerBin) : Event C → List ℕ
  | .offerResult peer bin _ refs topmost =>
    if ⟨peer, bin⟩ = k then topmost :: refs.map (·.1) else []
  | _ => []

/-- The position the offer started at that `k` is answered. -/
def asked (k : PeerBin) : Event C → List ℕ
  | .offerResult peer bin start _ _ => if ⟨peer, bin⟩ = k then [start] else []
  | _ => []

/-- What `f` lists of the events since the peer of `k` last left, and with it the log of `k`. -/
def since (k : PeerBin) (f : Event C → List ℕ) (evs : List (Event C)) : List ℕ :=
  evs.foldl (fun xs ev => match ev with
    | .peerGone p => if k.peer = p then [] else xs
    | _ => f ev ++ xs) []

/-- A log covers no more than its answers brought. -/
def Bounded (l : PeerBinLog C) (xs : List ℕ) : Prop := l.topmost = 0 ∨ ∃ x ∈ xs, l.topmost ≤ x

theorem bounded_new (xs : List ℕ) : Bounded (.new : PeerBinLog C) xs := .inl rfl

theorem Bounded.answeredLog {l : PeerBinLog C} {xs : List ℕ} (h : Bounded l xs) (start : ℕ)
    (refs : List (ℕ × C)) (topmost : ℕ) :
    Bounded (answeredLog l start refs topmost) (start :: topmost :: refs.map (·.1) ++ xs) := by
  rcases (le_topmost_answeredLog start refs topmost l _).mp le_rfl with hl | ht | hs | ⟨e, he, hle⟩
  · rcases h with h | ⟨x, hx, hle⟩
    · exact .inl (by omega)
    · exact .inr ⟨x, by simp [hx], hl.trans hle⟩
  · exact .inr ⟨topmost, by simp, ht⟩
  · exact .inr ⟨start, by simp, hs⟩
  · exact .inr ⟨e.1, by simpa using .inr (.inr (.inl ⟨e.2, he⟩)), hle⟩

variable [LinearOrder C]

/-- One event. -/
theorem Bounded.handle {k : PeerBin} {n : Node C} {xs : List ℕ} (h : Bounded (n.log k) xs)
    (ev : Event C) : Bounded ((n.handle ev).1.log k) (match ev with
      | .peerGone p => if k.peer = p then [] else xs
      | _ => (asked k ev ++ positions k ev) ++ xs) := by
  have hing : Bounded (ingestedLog k (n.log k) ev) (match ev with
      | .peerGone p => if k.peer = p then [] else xs
      | _ => (asked k ev ++ positions k ev) ++ xs) := by
    cases ev with
    | peerGone p =>
      dsimp only [ingestedLog]
      split
      · exact bounded_new _
      · exact h
    | offerResult peer bin start refs topmost =>
      dsimp only [ingestedLog, asked, positions]
      split
      · exact h.answeredLog start refs topmost
      · exact h
    | _ => exact h
  rw [log_handle]
  split
  · exact hing
  · next hr =>
    cases ev <;> first | exact hing | exact absurd rfl hr

/-- Along a run the answers since the last departure bound every log. -/
theorem bounded_run (cfg : Config) (radius : Bin) (policy : Policy) (held : List C) (k : PeerBin)
    (evs : List (Event C)) : Bounded (((start cfg radius policy held).run evs).1.log k)
      (since k (fun ev => asked k ev ++ positions k ev) evs) := by
  refine feed_history Node.handle (I := fun evs n => Bounded (n.log k)
    (since k (fun ev => asked k ev ++ positions k ev) evs)) ?_ (fun evs n ev h => ?_) evs
  · rw [log, (start_frame cfg radius policy held).2.2.2.2.1]
    exact bounded_new _
  · rw [since, List.foldl_append]
    exact h.handle ev

/-- An interval never passes what the answers since its log was created state, name and answer:
every high-water settled is at most some topmost, some named position or some start of these
answers. -/
theorem settled_within_answers (cfg : Config) (radius : Bin) (policy : Policy) (held : List C)
    (evs : List (Event C)) (ev : Event C) (k : PeerBin) (upto : ℕ)
    (h : .settled k.peer k.bin upto ∈ (((start cfg radius policy held).run evs).1.handle ev).2) :
    ∃ x ∈ since k (fun ev => asked k ev ++ positions k ev) (evs ++ [ev]), upto ≤ x := by
  have hb := bounded_run cfg radius policy held k (evs ++ [ev])
  have hu := mem_uptos.mpr h
  rw [uptos_handle] at hu
  split at hu
  · next hlt =>
    obtain rfl := List.mem_singleton.mp hu
    rw [run_snoc_fst] at hb
    have hle := ((((start cfg radius policy held).run evs).1.handle ev).1.log k).interval_le
    rcases hb with h₀ | ⟨x, hx, hxle⟩
    · omega
    · exact ⟨x, hx, hle.trans hxle⟩
  · cases hu

/-- An offer from 1 answered with 7 at position 3, once that is stored. -/
theorem settled_within_answers_stored :
    ∃ x ∈ since ⟨1, 1⟩ (fun ev => asked ⟨1, 1⟩ ev ++ positions ⟨1, 1⟩ ev) ([.peerSeen 1,
      .cursorsResult 1 [(1, 5)], .offerResult 1 1 1 [(3, 7)] 3] ++ [.fetchResult 1 1 [(7, .delivered)]]),
      3 ≤ x :=
  settled_within_answers Config.production 0 Policy.shipped [] _ (.fetchResult 1 1 [(7, .delivered)])
    ⟨1, 1⟩ 3 (by decide +kernel)

/-- An answer that names nothing and states less than was asked settles the position asked for. -/
theorem settled_past_stated :
    let evs : List (Event ℕ) := [.peerSeen 1, .cursorsResult 1 [(1, 0)]]
    let ev : Event ℕ := .offerResult 1 1 1 [] 0
    .settled 1 1 1 ∈ (((start Config.production 0 Policy.shipped []).run evs).1.handle ev).2
      ∧ ∀ x ∈ since ⟨1, 1⟩ (positions ⟨1, 1⟩) (evs ++ [ev]), x < 1 := by
  decide +kernel

end Melissi.Node
