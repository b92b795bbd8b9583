import Melissi.Settlement.PeerBinLog

/-!
# The history of a log

What a log is after any sequence of its operations. An entry leaves the window only where it is
settled, forgotten or observed anew as another; and when the settle pass runs, and how often, never
shows in the result.
-/

namespace Melissi.Settlement

open Melissi.Common
open Std (ExtTreeMap)

variable {C : Type}

/-- A call of one of the mutators of a log. -/
inductive Op (C : Type) where
  | observe (b : ℕ) (c : C)
  | cover (topmost : ℕ)
  | forgetEntry (b : ℕ)
  | advance (settled : C → Bool)

/-- A call of a settle pass that finds no more settled than `settled`, or one that neither observes
nor settles. -/
def Op.Within (settled : C → Bool) : Op C → Prop
  | .observe _ _ => False
  | .cover _ => True
  | .forgetEntry _ => True
  | .advance early => ∀ c, early c → settled c

/-- The call is not a settle pass. -/
def Op.quiet : Op C → Bool
  | .advance _ => false
  | _ => true

/-- The call neither forgets what is at `b`, nor settles `c`, nor observes another at `b`. -/
def Op.Spares (b : ℕ) (c : C) : Op C → Prop
  | .observe b' c' => b' = b → c' = c
  | .cover _ => True
  | .forgetEntry b' => b' ≠ b
  | .advance settled => ¬ settled c

namespace PeerBinLog

/-- The log after a call. -/
def apply (l : PeerBinLog C) : Op C → PeerBinLog C
  | .observe b c => l.observe b c
  | .cover topmost => l.cover topmost
  | .forgetEntry b => (l.forgetEntry b).1
  | .advance settled => (l.advance settled).1

/-- The log after a list of calls. -/
def run (l : PeerBinLog C) (ops : List (Op C)) : PeerBinLog C := ops.foldl apply l

/-- Logs with the same interval, topmost and window are one. -/
theorem ext_window {l l' : PeerBinLog C} (hi : l.interval = l'.interval)
    (ht : l.topmost = l'.topmost)
    (he : ∀ (b : ℕ) (c : C), l.entries[b]? = some c ↔ l'.entries[b]? = some c) : l = l' :=
  PeerBinLog.ext hi ht (ExtTreeMap.ext_getElem? fun b => Option.ext fun c => he b c)

/-! ## What stays in the window -/

/-- An entry stays through every call that spares it. -/
theorem entries_apply {l : PeerBinLog C} {b : ℕ} {c : C} (h : l.entries[b]? = some c) {op : Op C}
    (hop : op.Spares b c) : (l.apply op).entries[b]? = some c := by
  cases op with
  | observe b' c' =>
    rw [apply, entries_observe]
    by_cases hb : b' = b
    · exact .inl ⟨hb, hb ▸ (bounds_of_entry h).1, hop hb⟩
    · exact .inr ⟨fun hn => hb hn.1, h⟩
  | cover t => exact h
  | forgetEntry b' => exact (l.entries_forgetEntry b' b c).mpr ⟨hop, h⟩
  | advance settled =>
    refine (l.entries_advance settled b c).mpr ⟨h, ?_⟩
    by_contra hge
    exact hop (l.settled_of_le_reached settled h (by omega))

/-- An entry observed above the interval stays listed, with the interval below it, for as long as it
is neither forgotten nor settled nor observed anew as another. -/
theorem unsettled_run (l : PeerBinLog C) {b : ℕ} (c : C) (hb : l.interval < b) (ops : List (Op C))
    (hops : ∀ op ∈ ops, op.Spares b c) :
    (b, c) ∈ ((l.observe b c).run ops).unsettled ∧ ((l.observe b c).run ops).interval < b := by
  have hstart : (l.observe b c).entries[b]? = some c :=
    (l.entries_observe b b c c).mpr (.inl ⟨rfl, hb, rfl⟩)
  have hrun : ((l.observe b c).run ops).entries[b]? = some c :=
    List.foldlRecOn (motive := fun l' => l'.entries[b]? = some c) ops apply hstart
      fun _ h op hop => entries_apply h (hops op hop)
  exact ⟨(mem_unsettled _ b c).mpr hrun, (bounds_of_entry hrun).1⟩

theorem unsettled_run_spared :
    let l := (PeerBinLog.new.observe 1 7).run [.observe 2 8, .advance (· == 8), .cover 4]
    (1, 7) ∈ l.unsettled ∧ l.interval < 1 :=
  unsettled_run PeerBinLog.new 7 (by decide) [.observe 2 8, .advance (· == 8), .cover 4]
    (by simp [Op.Spares])

/-- Another entry observed at the same position replaces it, though it was neither forgotten nor
settled; and once the other settles, the interval passes it. -/
theorem unsettled_replaced :
    let l := (PeerBinLog.new.observe 1 7).run [.observe 1 8]
    (∀ b, (b, 7) ∉ l.unsettled) ∧ l.interval < 1 ∧ (l.advance (· == 8)).1.interval = 1 := by
  intro l
  have hlist : l.unsettled = [(1, 8)] := by decide +kernel
  refine ⟨fun b => ?_, by decide +kernel, by decide +kernel⟩
  rw [hlist]
  simp

/-! ## Settling early -/

/-- `l'` is `l` after a prefix of it was settled early. -/
structure Ahead (settled : C → Bool) (l l' : PeerBinLog C) : Prop where
  topmost : l'.topmost = l.topmost
  settledTo : l.SettledTo settled l'.interval
  entries : ∀ b c, l'.entries[b]? = some c ↔ l.entries[b]? = some c ∧ l'.interval < b

theorem Ahead.refl (settled : C → Bool) (l : PeerBinLog C) : Ahead settled l l := by
  refine ⟨rfl, ⟨le_refl _, l.interval_le, fun b c hc hb => ?_⟩, fun b c => ?_⟩
  · have := (bounds_of_entry hc).1
    omega
  · exact ⟨fun hc => ⟨hc, (bounds_of_entry hc).1⟩, And.left⟩

variable {settled : C → Bool} {l l' : PeerBinLog C}

/-- What is covered or forgotten is so in both. -/
theorem Ahead.quiet (h : Ahead settled l l') {op : Op C} (hw : op.Within settled)
    (hq : op.quiet) : Ahead settled (l.apply op) (l'.apply op) := by
  obtain ⟨htop, ⟨hlo, hhi, hset⟩, he⟩ := h
  cases op with
  | observe b c => exact hw.elim
  | advance early => cases hq
  | cover t =>
    refine ⟨?_, ⟨hlo, ?_, hset⟩, he⟩
    · rw [apply, apply, topmost_cover, topmost_cover, htop]
    · rw [apply, apply, topmost_cover, interval_cover]
      omega
  | forgetEntry b =>
    refine ⟨htop, ⟨hlo, hhi, fun b' c hc hb => ?_⟩, fun b' c => ?_⟩
    · exact hset b' c ((l.entries_forgetEntry b b' c).mp hc).2 hb
    · rw [apply, apply, entries_forgetEntry, entries_forgetEntry, he, interval_forgetEntry]
      exact and_assoc.symm

/-- One more early pass settles a longer prefix. -/
theorem Ahead.early (h : Ahead settled l l') {early : C → Bool} (hw : ∀ c, early c → settled c) :
    Ahead settled l (l'.advance early).1 := by
  obtain ⟨htop, ⟨hlo, hhi, hset⟩, he⟩ := h
  have hle := l'.interval_le_reached early
  have htop' := l'.reached_le_topmost early
  refine ⟨htop, ⟨?_, ?_, fun b c hc hb => ?_⟩, fun b c => ?_⟩
  · rw [interval_advance]
    omega
  · rw [interval_advance]
    omega
  · rw [interval_advance] at hb
    rcases Nat.lt_or_ge l'.interval b with hlt | hge
    · exact hw c (l'.settled_of_le_reached early ((he b c).mpr ⟨hc, hlt⟩) hb)
    · exact hset b c hc hge
  · rw [entries_advance, interval_advance, he]
    constructor
    · rintro ⟨⟨hc, -⟩, hb⟩
      exact ⟨hc, hb⟩
    · rintro ⟨hc, hb⟩
      exact ⟨⟨hc, by omega⟩, hb⟩

/-- Once everything is settled that was settled early, the logs are one. -/
theorem Ahead.advance_eq (h : Ahead settled l l') :
    (l'.advance settled).1 = (l.advance settled).1 := by
  obtain ⟨htop, ⟨hlo, hhi, hset⟩, he⟩ := h
  have hsame : ∀ x, l'.interval ≤ x → (l'.SettledTo settled x ↔ l.SettledTo settled x) := by
    intro x hx
    rw [SettledTo, SettledTo, htop]
    constructor
    · rintro ⟨-, hxt, hall⟩
      refine ⟨hlo.trans hx, hxt, fun b c hc hb => ?_⟩
      rcases Nat.lt_or_ge l'.interval b with hlt | hge
      · exact hall b c ((he b c).mpr ⟨hc, hlt⟩) hb
      · exact hset b c hc hge
    · rintro ⟨-, hxt, hall⟩
      exact ⟨hx, hxt, fun b c hc hb => hall b c ((he b c).mp hc).1 hb⟩
  -- the largest high-water of the log ahead is the largest of the other
  have hreached : l'.reached settled = l.reached settled := by
    have hmax := l.isGreatest_reached settled
    have hmax' := l'.isGreatest_reached settled
    have hup : l'.interval ≤ l.reached settled := hmax.2 ⟨hlo, hhi, hset⟩
    refine le_antisymm (hmax.2 ?_) (hmax'.2 ?_)
    · exact (hsame _ hmax'.1.1).mp hmax'.1
    · exact (hsame _ hup).mpr hmax.1
  refine ext_window hreached htop fun b c => ?_
  rw [entries_advance, entries_advance, he, hreached]
  constructor
  · rintro ⟨⟨hc, -⟩, hb⟩
    exact ⟨hc, hb⟩
  · rintro ⟨hc, hb⟩
    have hle := l'.interval_le_reached settled
    exact ⟨⟨hc, by omega⟩, hb⟩

/-- Settling early keeps the log ahead, whatever is covered and forgotten meanwhile. -/
theorem Ahead.run {ops : List (Op C)} (hops : ∀ op ∈ ops, op.Within settled)
    (h : Ahead settled l l') : Ahead settled (l.run (ops.filter Op.quiet)) (l'.run ops) := by
  induction ops generalizing l l' with
  | nil => exact h
  | cons op ops ih =>
    have hrest := fun op' hop' => hops op' (List.mem_cons_of_mem op hop')
    have hop := hops op List.mem_cons_self
    rw [List.filter_cons]
    split
    · next hq => exact ih hrest (h.quiet hop hq)
    · next hq =>
      cases op with
      | advance early => exact ih hrest (h.early hop)
      | observe b c => exact absurd rfl hq
      | cover t => exact absurd rfl hq
      | forgetEntry b => exact absurd rfl hq

/-- Incremental settlement is one-shot settlement: however the settle passes fall among the covered
and forgotten ranges, if each finds no more settled than the last, the last leaves what it would
have left alone. -/
theorem advance_run (l : PeerBinLog C) (settled : C → Bool) (ops : List (Op C))
    (hops : ∀ op ∈ ops, op.Within settled) :
    ((l.run ops).advance settled).1 = ((l.run (ops.filter Op.quiet)).advance settled).1 :=
  (Ahead.run hops (.refl settled l)).advance_eq

theorem advance_run_two :
    let l := ((PeerBinLog.new.observe 1 7).observe 3 8 : PeerBinLog ℕ)
    let ops := [.advance fun c => c == 7, .cover 5, .forgetEntry 1, .advance fun c => c == 7]
    ((l.run ops).advance fun _ => true).1
      = ((l.run (ops.filter Op.quiet)).advance fun _ => true).1 :=
  advance_run _ (fun _ => true) [.advance fun c => c == 7, .cover 5, .forgetEntry 1,
    .advance fun c => c == 7] (by simp [Op.Within])

end PeerBinLog

end Melissi.Settlement
