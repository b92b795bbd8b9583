import Melissi.Wire.Session

/-!
# Driving a session

Reference: `crates/wire/src/session.rs`, `drive`. The loop takes one operation at a time, runs it
over some carrier and feeds back what it brings; a failed operation feeds its failure event, but a
failed offer feeds nothing. Here the loop is broken into beats, so that every state between two
operations is a state of a run, and the carrier's answers are part of the run.
-/

namespace Melissi.Wire

open Melissi.Common Melissi.Machine Melissi.Node

open Std (ExtTreeSet)

variable {C : Type} [LinearOrder C]

/-- Turns of the loop before it stops by itself. -/
def guardLimit : ℕ := 1000000

/-- What is fed back for an operation: what it brought, its failure event, or for a failed offer
nothing. -/
def fedBack (op : Op C) : Option (Event C) → Option (Event C)
  | some ev => some ev
  | none =>
    match op with
    | .offer _ _ _ => none
    | op => some (failureEvent op)

/-- Feed back what an operation brought. -/
def Session.carry (s : Session C) (op : Op C) (answer : Option (Event C)) : Session C :=
  (fedBack op answer).elim s s.feed

section Loop

variable {ρ : Type} (run : ρ → Op C → Option (Event C) × ρ)

/-- The loop with `left` turns before the guard: an operation popped when none is left is not run.
-/
def driveLoop : ℕ → Session C → ρ → Session C × ρ
  | 0, s, r => (s.nextOp.1, r)
  | left + 1, s, r =>
    match s.nextOp with
    | (s, none) => (s, r)
    | (s, some op) => driveLoop left (s.carry op (run r op).1) (run r op).2

/-- Drive a session to quiescence over a runner. -/
def drive (s : Session C) (r : ρ) : Session C × ρ := driveLoop run guardLimit s r

end Loop

/-! ## The loop beat by beat -/

/-- Where a driver stands: outside the loop, at its head after some turns, or awaiting the runner.
-/
inductive Stand (C : Type) where
  | idle
  | looping (guard : ℕ)
  | running (guard : ℕ) (op : Op C)
deriving DecidableEq

/-- A session and where its driver stands. -/
structure Driver (C : Type) [LinearOrder C] where
  session : Session C
  stand : Stand C

inductive Beat (C : Type) where
  /-- The shell feeds an event, between two calls of the loop. -/
  | feed (ev : Event C)
  /-- The loop is entered. -/
  | call
  /-- The loop takes the next operation. -/
  | take
  /-- The runner returns. -/
  | answer (ev : Option (Event C))

namespace Driver

def new (n : Node C) : Driver C := ⟨.new n, .idle⟩

/-- One beat, and the events it feeds to the node. A beat that does not fit does nothing. -/
def step (d : Driver C) : Beat C → Driver C × List (Event C)
  | .feed ev =>
    match d.stand with
    | .idle => (⟨d.session.feed ev, .idle⟩, [ev])
    | _ => (d, [])
  | .call =>
    match d.stand with
    | .idle => (⟨d.session, .looping 0⟩, [])
    | _ => (d, [])
  | .take =>
    match d.stand with
    | .looping guard =>
      match d.session.nextOp with
      | (s, none) => (⟨s, .idle⟩, [])
      | (s, some op) =>
        if guard + 1 > guardLimit then (⟨s, .idle⟩, []) else (⟨s, .running (guard + 1) op⟩, [])
    | _ => (d, [])
  | .answer ev =>
    match d.stand with
    | .running guard op => (⟨d.session.carry op ev, .looping guard⟩, (fedBack op ev).toList)
    | _ => (d, [])

/-- The state after the beats, and the events fed to the node. -/
def run (d : Driver C) (bs : List (Beat C)) : Driver C × List (Event C) := Common.feed step d bs

/-- Every call of the loop is a run, whatever the runner. -/
theorem run_driveLoop {ρ : Type} (run : ρ → Op C → Option (Event C) × ρ) (left guard : ℕ)
    (hg : guard + left = guardLimit) (s : Session C) (r : ρ) :
    ∃ bs, ((⟨s, .looping guard⟩ : Driver C).run bs).1 = ⟨(driveLoop run left s r).1, .idle⟩ := by
  induction left generalizing guard s r with
  | zero =>
    refine ⟨[.take], ?_⟩
    rw [Driver.run, feed_cons, feed_nil]
    simp only [step, driveLoop]
    split
    · next heq => rw [heq]
    · next heq => rw [heq, if_pos (by omega)]
  | succ left ih =>
    rw [driveLoop]
    split
    · next s' heq =>
      refine ⟨[.take], ?_⟩
      rw [Driver.run, feed_cons, feed_nil]
      simp only [step, heq]
    · next s' op heq =>
      obtain ⟨bs, h⟩ := ih (guard + 1) (by omega) (s'.carry op (run r op).1) (run r op).2
      refine ⟨.take :: .answer (run r op).1 :: bs, ?_⟩
      rw [Driver.run, feed_cons, feed_cons]
      simp only [step, heq, if_neg (show ¬ guard + 1 > guardLimit by omega)]
      exact h

/-- Every call of `drive` is a run from one state outside the loop to another. -/
theorem run_drive {ρ : Type} (run : ρ → Op C → Option (Event C) × ρ) (s : Session C) (r : ρ) :
    ∃ bs, ((⟨s, .idle⟩ : Driver C).run bs).1 = ⟨(drive run s r).1, .idle⟩ := by
  obtain ⟨bs, h⟩ := run_driveLoop run guardLimit 0 (Nat.zero_add _) s r
  exact ⟨.call :: bs, h⟩

/-! ## Open keys without an operation -/

/-- The offers of `k` that an operation makes. -/
def offersOf (k : PeerBin) : Op C → Bool
  | .offer p b _ => decide (p = k.peer ∧ b = k.bin)
  | _ => false

/-- An offer of `k` is queued, or is the operation being run. -/
def Outstanding (k : PeerBin) (d : Driver C) : Prop :=
  0 < offersTo k d.session.queue ∨ ∃ guard op, d.stand = .running guard op ∧ offersOf k op

/-- The key is marked open with no operation to close it. -/
def Stranded (k : PeerBin) (d : Driver C) : Prop :=
  k ∈ d.session.node.disc.offerOpen ∧ ¬ d.Outstanding k

/-- No event closes the key. -/
def Spared (k : PeerBin) (evs : List (Event C)) : Prop := ∀ ev ∈ evs, ¬ Closes k ev

/-- The beat gives up an offer of `k`: the guard stops the loop with it popped, or what the runner
returned for it is no answer to it. -/
def Drops (k : PeerBin) (d : Driver C) : Beat C → Prop
  | .take => ∃ guard op, d.stand = .looping guard ∧ d.session.nextOp.2 = some op ∧ offersOf k op
      ∧ guard + 1 > guardLimit
  | .answer ev => ∃ guard op, d.stand = .running guard op ∧ offersOf k op ∧ Spared k ev.toList
  | _ => False

/-- An effect is counted as an offer of `k` just when its operation is one. -/
theorem offersTo_opOf {n : Node C} {fx : Effect C} {op : Op C} (h : Session.opOf n fx = some op)
    (k : PeerBin) : offersTo k [fx] = (offersOf k op).toNat := by
  cases fx with
  | offer p b start =>
    obtain rfl : Op.offer p b start = op := by simpa [Session.opOf] using h
    by_cases hk : p = k.peer ∧ b = k.bin <;> simp [offersTo, offersOf, hk]
  | settled p b upto => cases h
  | getCursors p =>
    obtain rfl : Op.cursors p = op := by simpa [Session.opOf] using h
    rfl
  | fetch p b want =>
    obtain rfl : Op.fetch p b _ want = op := by simpa [Session.opOf] using h
    rfl

/-- The offers still queued after one operation is popped. -/
theorem offersTo_nextOp (s : Session C) (k : PeerBin) :
    offersTo k s.queue
      = offersTo k s.nextOp.1.queue + (s.nextOp.2.elim false (offersOf k)).toNat := by
  obtain ⟨skipped, hs, -, h⟩ := s.nextOp_spec
  have hzero : offersTo k skipped = 0 := offersTo_eq_zero fun start hm => by
    cases hs _ hm
  rcases h with ⟨hnone, hq, hq'⟩ | ⟨fx, op, hop, hfx, hq⟩
  · rw [hnone, hq, hq', hzero]
    rfl
  · rw [hop, hq, offersTo_append, hzero, ← List.singleton_append, offersTo_append,
      offersTo_opOf hfx, Option.elim_some]
    omega

/-- An event strands no key, and leaves those stranded that it does not close. -/
theorem stranded_feed (s : Session C) (ev : Event C) (k : PeerBin) (stand : Stand C)
    (hstand : ∀ guard op, stand = .running guard op → ¬ offersOf k op) :
    Stranded k ⟨s.feed ev, stand⟩ ↔ Stranded k ⟨s, stand⟩ ∧ ¬ Closes k ev := by
  have hout : ∀ s : Session C, Outstanding k ⟨s, stand⟩ ↔ 0 < offersTo k s.queue := fun s =>
    or_iff_left fun h => by
      obtain ⟨guard, op, hr, ho⟩ := h
      exact hstand guard op hr ho
  have hopen := s.node.open_handle ev k
  have hcount := s.node.opens_handle ev k
  rw [Stranded, Stranded, hout, hout, Session.queue_feed, Session.node_feed, offersTo_append, hopen]
  by_cases hkept : k ∈ s.node.disc.offerOpen ∧ ¬ Closes k ev
  · -- what stays open is not offered again
    have hzero : offersTo k (s.node.handle ev).2 = 0 := by
      have hle := Bool.toNat_le ((s.node.handle ev).1.disc.offerOpen.contains k)
      have hone : (s.node.disc.offerOpen.contains k && !decide (Closes k ev)).toNat = 1 := by
        simp [hkept.1, hkept.2]
      omega
    simp [hkept.1, hkept.2, hzero]
  · constructor
    · rintro ⟨h | h, hn⟩
      · exact absurd h hkept
      · omega
    · rintro ⟨⟨ho, -⟩, hc⟩
      exact absurd ⟨ho, hc⟩ hkept

/-- A beat strands a key only by giving up an offer of it, and leaves those stranded that it does
not close. -/
theorem stranded_step (d : Driver C) (b : Beat C) (k : PeerBin) (hb : ¬ d.Drops k b) :
    Stranded k (d.step b).1 ↔ Stranded k d ∧ Spared k (d.step b).2 := by
  obtain ⟨s, stand⟩ := d
  have hspared : Spared k ([] : List (Event C)) := by simp [Spared]
  cases b with
  | feed ev =>
    cases stand with
    | idle => simpa [step, Spared] using stranded_feed s ev k .idle (by simp)
    | looping guard => simp [step, hspared]
    | running guard op => simp [step, hspared]
  | call =>
    cases stand with
    | idle => simp [step, hspared, Stranded, Outstanding]
    | looping guard => simp [step, hspared]
    | running guard op => simp [step, hspared]
  | take =>
    cases stand with
    | idle => simp [step, hspared]
    | running guard op => simp [step, hspared]
    | looping guard =>
      have hq := offersTo_nextOp s k
      have hn := s.node_nextOp
      simp only [step]
      split
      · next s' heq =>
        rw [heq] at hq hn
        simp_all [Stranded, Outstanding]
      · next s' op heq =>
        rw [heq] at hq hn
        simp only [Option.elim_some] at hq
        by_cases hg : guard + 1 > guardLimit
        · -- the guard pops no offer of the key
          have hno : offersOf k op = false := by
            by_contra ho
            exact hb ⟨guard, op, rfl, by rw [heq], by simpa using ho, hg⟩
          rw [if_pos hg]
          rw [hno] at hq
          simp_all [Stranded, Outstanding]
        · rw [if_neg hg]
          cases ho : offersOf k op <;> rw [ho] at hq <;> simp_all [Stranded, Outstanding]
  | answer ev =>
    cases stand with
    | idle => simp [step, hspared]
    | looping guard => simp [step, hspared]
    | running guard op =>
      cases ho : offersOf k op with
      | false =>
        have hsame : Stranded k ⟨s, .running guard op⟩ ↔ Stranded k ⟨s, .looping guard⟩ := by
          simp [Stranded, Outstanding, ho]
        rw [hsame]
        simp only [step, Session.carry]
        cases hf : fedBack op ev with
        | none => simp [hspared]
        | some ev' => simpa [Spared] using stranded_feed s ev' k (.looping guard) (by simp)
      | true =>
        -- the answer closes the key, and what is then open is offered again
        have hclosed : ∃ ev', ev = some ev' ∧ Closes k ev' := by
          by_contra hno
          exact hb ⟨guard, op, rfl, ho, fun ev' hev hc => hno ⟨ev', by simpa using hev, hc⟩⟩
        obtain ⟨ev', rfl, hc⟩ := hclosed
        have h := stranded_feed s ev' k (.looping guard) (by simp)
        refine iff_of_false (fun hs => (h.mp hs).2 hc) fun hs => hs.1.2 (.inr ⟨guard, op, rfl, ho⟩)

/-- An offer that is given up was outstanding. -/
theorem Drops.outstanding {k : PeerBin} {d : Driver C} {b : Beat C} (h : d.Drops k b) :
    d.Outstanding k := by
  cases b with
  | feed ev => exact h.elim
  | call => exact h.elim
  | take =>
    obtain ⟨guard, op, -, hop, ho, -⟩ := h
    have hq := offersTo_nextOp d.session k
    rw [hop, Option.elim_some, ho, Bool.toNat_true] at hq
    exact .inl (by omega)
  | answer ev =>
    obtain ⟨guard, op, hs, ho, -⟩ := h
    exact .inr ⟨guard, op, hs, ho⟩

/-- The keys that are stranded after a run: those that were from the start, and those the run gave
up an offer of, in both cases with no event to close them since. -/
theorem stranded_run (d : Driver C) (bs : List (Beat C)) (k : PeerBin) :
    Stranded k (d.run bs).1 ↔ (Stranded k d ∧ Spared k (d.run bs).2)
      ∨ ∃ pre b post, bs = pre ++ b :: post ∧ Drops k (d.run pre).1 b
        ∧ Stranded k (d.run (pre ++ [b])).1 ∧ Spared k ((d.run (pre ++ [b])).1.run post).2 :=
  feed_mark step (P := Stranded k) (R := Drops k) (K := fun ev => ¬ Closes k ev)
    (fun d b => d.stranded_step b k) (fun _ _ hd hs => hs.2 hd.outstanding) d bs

/-- A tick offers the keys that have a log, a present peer and no open offer. -/
theorem offersTo_tick (n : Node C) (k : PeerBin) : 0 < offersTo k (n.handle .tick).2
    ↔ k ∈ n.logs ∧ k.peer ∈ n.peers ∧ k ∉ n.disc.offerOpen := by
  have hopen := n.offered_tick.opened k
  have hhandle : k ∈ (n.handle .tick).1.disc.offerOpen
      ↔ k ∈ n.disc.offerOpen ∨ 0 < offersTo k (n.handle .tick).2 := by
    rw [n.open_handle .tick k]
    simp [Closes]
  have hcount : offersTo k (n.handle .tick).2 + (n.disc.offerOpen.contains k).toNat ≤ 1 := by
    rw [n.offered_tick.counted k]
    exact Bool.toNat_le _
  have hfresh : 0 < offersTo k (n.handle .tick).2 → k ∉ n.disc.offerOpen := fun hpos hk => by
    rw [ExtTreeSet.contains_iff_mem.mpr hk, Bool.toNat_true] at hcount
    omega
  constructor
  · intro hpos
    have hk := (hopen.mp (hhandle.mpr (.inr hpos))).resolve_left (hfresh hpos)
    exact ⟨hk.1, hk.2, hfresh hpos⟩
  · rintro ⟨hl, hp, hk⟩
    exact (hhandle.mp (hopen.mpr (.inr ⟨hl, hp⟩))).resolve_left hk

/-- In every state of every run of the loop, with whatever runner and with whatever is fed between
its calls, a key that is marked open has an offer queued or being run, unless it was open without
one from the start or the run gave up its last offer, and no answer to it and no departure of its
peer was fed since. A tick offers just the keys of present peers that have a log and are not marked
open. -/
theorem open_outstanding_unless_dropped (d : Driver C) (bs : List (Beat C)) (k : PeerBin) :
    (k ∈ (d.run bs).1.session.node.disc.offerOpen ∧ ¬ (d.run bs).1.Outstanding k
      ↔ (Stranded k d ∧ Spared k (d.run bs).2)
        ∨ ∃ pre b post, bs = pre ++ b :: post ∧ Drops k (d.run pre).1 b
          ∧ Stranded k (d.run (pre ++ [b])).1 ∧ Spared k ((d.run (pre ++ [b])).1.run post).2)
      ∧ (0 < offersTo k ((d.run bs).1.session.node.handle .tick).2
        ↔ k ∈ (d.run bs).1.session.node.logs ∧ k.peer ∈ (d.run bs).1.session.node.peers
          ∧ k ∉ (d.run bs).1.session.node.disc.offerOpen) :=
  ⟨d.stranded_run bs k, offersTo_tick _ k⟩

/-- A peer announces one bin, and the offer it is then asked for cannot be carried: the loop ends,
and a tick queues nothing, though the peer is present and its bin is marked open. -/
theorem failed_offer_strands :
    let d := ((new (Node.new Config.production 0) : Driver Triple).run
      [.feed (.peerSeen 1), .call, .take, .answer (some (.cursorsResult 1 [(0, 5)])), .take,
        .answer none, .take, .feed .tick]).1
    d.stand = .idle ∧ 1 ∈ d.session.node.peers ∧ ⟨1, 0⟩ ∈ d.session.node.logs
      ∧ ⟨1, 0⟩ ∈ d.session.node.disc.offerOpen ∧ d.session.queue = [] := by
  decide +kernel

end Driver

end Melissi.Wire
