import Melissi.Common.Polled
import Melissi.Protobuf.Varint

/-!
# Reading in pieces

What is sent over a stream arrives in pieces of any lengths. A driver that waits for one message is
polled with each of them, and its polls need more until the frame is whole.
-/

namespace Melissi.Protobuf

open Melissi.Common

/-- The pieces a list arrives in, cut to these lengths; the last piece is what is left. -/
def pieces {α : Type} : List ℕ → List α → List (List α)
  | [], [] => []
  | [], l => [l]
  | n :: ns, l => if l.length ≤ n then [l] else l.take n :: pieces ns (l.drop n)

/-- Of nothing there is at most one piece, and it is empty. -/
theorem pieces_nil {α : Type} (cuts : List ℕ) :
    pieces cuts ([] : List α) = [] ∨ pieces cuts ([] : List α) = [[]] := by
  cases cuts <;> simp [pieces]

/-- A rule for drivers polled with pieces. `I rest s` holds of the driver while `rest` has not
arrived; every piece but the last keeps it and is answered by `need`, and the last is answered by an
output of `Q`. -/
theorem pollAll_pieces {α σ ρ ε : Type} {poll : σ → List α → Except ε (σ × ρ)} {need : ρ}
    {I : List α → σ → Prop} {Q : σ → ρ → Prop}
    (hwait : ∀ s piece rest, I (piece ++ rest) s → rest ≠ [] →
      ∃ s', poll s piece = .ok (s', need) ∧ I rest s')
    (hlast : ∀ s piece, I piece s → ∃ s' out, poll s piece = .ok (s', out) ∧ Q s' out)
    (cuts : List ℕ) {l : List α} (hl : l ≠ []) {s : σ} (hs : I l s) :
    ∃ s' k out, pollAll poll s (pieces cuts l) = .ok (s', List.replicate k need ++ [out])
      ∧ Q s' out := by
  induction cuts generalizing l s with
  | nil =>
    obtain ⟨s', out, hp, hq⟩ := hlast s l hs
    have hone : pieces [] l = [l] := by
      cases l with
      | nil => exact absurd rfl hl
      | cons a l => rfl
    exact ⟨s', 0, out, by simp [hone, pollAll, hp, Except.bind, Except.map], hq⟩
  | cons n cuts ih =>
    rw [pieces]
    split
    · obtain ⟨s', out, hp, hq⟩ := hlast s l hs
      exact ⟨s', 0, out, by simp [pollAll, hp, Except.bind, Except.map], hq⟩
    · next hn =>
      have hrest : l.drop n ≠ [] := by
        rw [ne_eq, List.drop_eq_nil_iff]
        exact hn
      rw [← List.take_append_drop n l] at hs
      obtain ⟨s₁, hp, hI⟩ := hwait s _ _ hs hrest
      obtain ⟨s', k, out, hrun, hq⟩ := ih hrest hI
      refine ⟨s', k + 1, out, ?_, hq⟩
      rw [pollAll, hp]
      simp only [Except.bind, hrun, Except.map, List.replicate_succ, List.cons_append]

/-- A driver that needs more is no further for having been sent nothing. -/
theorem pollAll_nothing {α σ ρ ε : Type} {poll : σ → List α → Except ε (σ × ρ)} {need : ρ} {s : σ}
    (h : poll s [] = .ok (s, need)) (cuts : List ℕ) :
    ∃ k, pollAll poll s (pieces cuts []) = .ok (s, List.replicate k need) := by
  obtain hnone | hone := @pieces_nil α cuts
  · exact ⟨0, by rw [hnone]; rfl⟩
  · refine ⟨1, ?_⟩
    rw [hone]
    simp only [pollAll, h, Except.bind, Except.map, List.replicate_one]

/-- Of polls that need more, nothing is read. -/
theorem flatMap_needs {ρ β : Type} {f : ρ → List β} {need : ρ} (h : f need = []) (k : ℕ) :
    (List.replicate k need).flatMap f = [] := by
  simp [h]

/-- What is read of a driver that needs more until its last poll is what that poll brings. -/
theorem flatMap_last {ρ β : Type} {f : ρ → List β} {need : ρ} (h : f need = []) (k : ℕ) (out : ρ) :
    (List.replicate k need ++ [out]).flatMap f = f out := by
  rw [List.flatMap_append, flatMap_needs h, List.flatMap_singleton, List.nil_append]

/-- A driver that buffers what arrives until its frame is whole answers the frame, and until then
needs more. -/
theorem pollAll_frame {σ ρ ε : Type} {poll : σ → List UInt8 → Except ε (σ × ρ)} {need out : ρ}
    {msg : List UInt8} (hmsg : msg.length ≤ maxFrame) (st : List UInt8 → σ) {s' : σ}
    (hwait : ∀ buf piece, deframe (buf ++ piece) = .ok none →
      poll (st buf) piece = .ok (st (buf ++ piece), need))
    (hwhole : ∀ buf piece, buf ++ piece = frame msg → poll (st buf) piece = .ok (s', out))
    (cuts : List ℕ) : ∃ k, pollAll poll (st []) (pieces cuts (frame msg))
      = .ok (s', List.replicate k need ++ [out]) := by
  have h := @pollAll_pieces UInt8 σ ρ ε poll need
    (fun rest s => ∃ buf, s = st buf ∧ buf ++ rest = frame msg) (fun s o => s = s' ∧ o = out)
    (fun s piece rest hI hrest => by
      obtain ⟨buf, rfl, hbuf⟩ := hI
      rw [← List.append_assoc] at hbuf
      exact ⟨_, hwait buf piece (deframe_part hmsg hbuf hrest), _, rfl, hbuf⟩)
    (fun s piece hI => by
      obtain ⟨buf, rfl, hbuf⟩ := hI
      exact ⟨_, _, hwhole buf piece hbuf, rfl, rfl⟩)
    cuts (frame msg) (frame_ne_nil msg) (st []) ⟨[], rfl, rfl⟩
  obtain ⟨_, k, _, hrun, rfl, rfl⟩ := h
  exact ⟨k, hrun⟩

end Melissi.Protobuf
