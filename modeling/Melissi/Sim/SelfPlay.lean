import Melissi.Sim.Quiesce

/-!
# The seeded simulator

Deterministic self-play: a splitmix64 generator draws the next message and the misses. Under
concurrent discovery the handshake, cursors and offers, is answered before anything else. Whatever is
drawn is a delivery of the neighbourhood, so the loop ends for every seed, unless it takes so many
steps that the simulator gives it up first.
-/

namespace Melissi.Sim

open Melissi.Common Melissi.Machine Melissi.Settlement Melissi.Node Melissi.Puller
open Std (ExtTreeMap ExtTreeSet)

/-- The handshake of cursors and offers: discovery, as opposed to delivery. -/
def isDiscovery : Msg → Bool
  | .req _ (.getCursors _) => true
  | .req _ (.offer _ _ _) => true
  | .resp _ (.cursorsResult _ _) => true
  | .resp _ (.offerResult _ _ _ _ _) => true
  | _ => false

/-- The generator: its next state, and what it draws. -/
def splitmix (s : UInt64) : UInt64 × UInt64 :=
  let s := s + 0x9E3779B97F4A7C15
  let z := s
  let z := (z ^^^ (z >>> 30)) * 0xBF58476D1CE4E5B9
  let z := (z ^^^ (z >>> 27)) * 0x94D049BB133111EB
  (s, z ^^^ (z >>> 31))

/-- The neighbourhood, the state of the generator, whether discovery is concurrent, and the steps taken
so far. -/
structure SelfPlay where
  sim : Sim
  rng : UInt64
  concurrentDiscovery : Bool
  steps : ℕ

/-- The number of steps that a simulation stays below. -/
def stepLimit : ℕ := 2000000

/-- Serve the wants one by one. While the budget lasts, one draw in four is a miss. -/
def serveDrawn (n : SimNode) : List Triple → ℕ → UInt64 → Served × UInt64
  | [], budget, rng => (⟨[], 0, budget⟩, rng)
  | c :: want, budget, rng =>
    if n.byzantine then
      let r := serveDrawn n want budget rng
      ({ r.1 with outcomes := (c, .missed) :: r.1.outcomes }, r.2)
    else if budget > 0 ∧ (splitmix rng).2 % 4 = 0 then
      let r := serveDrawn n want (budget - 1) (splitmix rng).1
      ({ r.1 with outcomes := (c, .missed) :: r.1.outcomes }, r.2)
    else
      -- nothing is drawn once the budget is spent
      let r := serveDrawn n want budget (if budget > 0 then (splitmix rng).1 else rng)
      if !n.index.contains c then ({ r.1 with outcomes := (c, .missed) :: r.1.outcomes }, r.2)
      else ({ r.1 with outcomes := (c, .delivered) :: r.1.outcomes, count := r.1.count + 1 }, r.2)

namespace SelfPlay

/-- The places of the queue to draw from: those of the handshake while there are any, if discovery is
concurrent, and all of them otherwise. -/
def pool (p : SelfPlay) : List ℕ :=
  let all := List.range p.sim.queue.length
  if p.concurrentDiscovery then
    let disc := all.filter fun i => p.sim.queue[i]?.any isDiscovery
    if disc.isEmpty then all else disc
  else all

/-- Deliver one message that is drawn, or nothing when none is in flight. -/
def deliverDrawn (p : SelfPlay) : Option SelfPlay :=
  if p.sim.queue.isEmpty then none
  else
    let drawn := splitmix p.rng
    let idx := (p.pool[drawn.2.toNat % p.pool.length]?).getD 0
    match p.sim.queue[idx]? with
    | none => none
    | some msg =>
      let s : Sim := { p.sim with queue := swapRemove p.sim.queue idx }
      match msg with
      | .req sender (.fetch peer bin want) =>
        let j := peer.toNat
        let r := serveDrawn (s.nodes j) want s.spuriousBudget drawn.1
        some { p with
          sim := { s with
            queue := s.queue ++ [.resp sender (.fetchResult peer bin r.1.outcomes)]
            served := Function.update s.served j (s.served j + r.1.count)
            spuriousBudget := r.1.budget }
          rng := r.2
          steps := p.steps + 1 }
      | msg => some { p with sim := s.deliver [] msg, rng := drawn.1, steps := p.steps + 1 }

/-- One step, which asserts that the limit is not reached; `none` when no message is in flight. -/
def step (p : SelfPlay) : Except String (Option SelfPlay) :=
  if p.sim.queue.isEmpty then .ok none
  else if p.steps + 1 < stepLimit then .ok p.deliverDrawn
  else .error "simulation did not quiesce"

/-- So many rounds of the loop that steps while there is a message. -/
def runFor : ℕ → SelfPlay → Except String SelfPlay
  | 0, p => .ok p
  | n + 1, p =>
    match p.step with
    | .error e => .error e
    | .ok none => .ok p
    | .ok (some p') => p'.runFor n

/-- So many deliveries, were there no limit. -/
def playFor : ℕ → SelfPlay → SelfPlay
  | 0, p => p
  | n + 1, p =>
    match p.deliverDrawn with
    | none => p
    | some p' => p'.playFor n

end SelfPlay

/-! ## What is drawn is a delivery -/

/-- What is served as drawn is served as some draws have it. -/
theorem serveDrawn_eq (n : SimNode) (want : List Triple) (budget : ℕ) (rng : UInt64) :
    ∃ draws, (serveDrawn n want budget rng).1 = serve n want draws budget := by
  induction want generalizing budget rng with
  | nil => exact ⟨[], rfl⟩
  | cons c want ih =>
    by_cases hbyz : n.byzantine
    · obtain ⟨draws, hd⟩ := ih budget rng
      exact ⟨draws, by simp only [serveDrawn, serve, hbyz, if_true, hd]⟩
    · by_cases hmiss : budget > 0 ∧ (splitmix rng).2 % 4 = 0
      · obtain ⟨draws, hd⟩ := ih (budget - 1) (splitmix rng).1
        exact ⟨true :: draws, by simp [serveDrawn, serve, hbyz, hmiss, hd]⟩
      · obtain ⟨draws, hd⟩ := ih budget (if budget > 0 then (splitmix rng).1 else rng)
        refine ⟨false :: draws, ?_⟩
        simp only [serveDrawn, serve, hbyz, hmiss, List.headD_cons, List.tail_cons,
          Bool.false_eq_true, and_false, if_false, ← hd]
        split <;> rfl

/-- The places to draw from are places of the queue, and there are some while there is a message. -/
theorem SelfPlay.pool_spec (p : SelfPlay) (h : p.sim.queue ≠ []) :
    p.pool ≠ [] ∧ ∀ i ∈ p.pool, i < p.sim.queue.length := by
  have hall : List.range p.sim.queue.length ≠ [] := by
    simpa using h
  have hlt : ∀ i ∈ List.range p.sim.queue.length, i < p.sim.queue.length := fun _ =>
    List.mem_range.mp
  rw [pool]
  dsimp only
  split
  · split
    · exact ⟨hall, hlt⟩
    · next hdisc =>
      exact ⟨by simpa using hdisc, fun i hi => hlt i (List.mem_filter.mp hi).1⟩
  · exact ⟨hall, hlt⟩

/-- Nothing is delivered exactly when no message is in flight. -/
theorem SelfPlay.deliverDrawn_eq_none_iff (p : SelfPlay) :
    p.deliverDrawn = none ↔ p.sim.queue = [] := by
  rw [deliverDrawn]
  split
  · next h => simpa using h
  · next h =>
    have hne : p.sim.queue ≠ [] := by simpa using h
    obtain ⟨hpool, hlt⟩ := p.pool_spec hne
    refine iff_of_false ?_ hne
    have hidx : (splitmix p.rng).2.toNat % p.pool.length < p.pool.length :=
      Nat.mod_lt _ (List.length_pos_iff.mpr hpool)
    have hplace := hlt _ (List.getElem_mem hidx)
    simp only [List.getElem?_eq_getElem hidx, Option.getD_some, List.getElem?_eq_getElem hplace]
    split <;> simp

/-- What is drawn is a delivery of the neighbourhood, and is counted as one step. -/
theorem SelfPlay.delivers_deliverDrawn {p p' : SelfPlay} (h : p.deliverDrawn = some p') :
    Delivers p.sim p'.sim ∧ p'.steps = p.steps + 1 := by
  rw [deliverDrawn] at h
  split at h
  · cases h
  · dsimp only at h
    split at h
    · cases h
    · next msg hm =>
      obtain ⟨hidx, -⟩ := List.getElem?_eq_some_iff.mp hm
      split at h
      · next sender peer bin want =>
        obtain rfl := Option.some.inj h
        obtain ⟨draws, hd⟩ := serveDrawn_eq (p.sim.nodes peer.toNat) want p.sim.spuriousBudget
          (splitmix p.rng).1
        refine ⟨⟨_, draws, hidx, ?_⟩, rfl⟩
        rw [Sim.step, hm]
        dsimp only
        rw [deliver]
        dsimp only
        rw [← hd]
      · obtain rfl := Option.some.inj h
        refine ⟨⟨_, [], hidx, ?_⟩, rfl⟩
        rw [Sim.step, hm]

/-! ## The loop ends -/

/-- Deliveries that are drawn are deliveries of the neighbourhood. -/
theorem SelfPlay.delivers_playFor (p : SelfPlay) (n : ℕ) :
    Relation.ReflTransGen Delivers p.sim (p.playFor n).sim := by
  induction n generalizing p with
  | zero => exact .refl
  | succ n ih =>
    rw [playFor]
    split
    · exact .refl
    · next p' hp => exact .head (delivers_deliverDrawn hp).1 (ih p')

/-- If no deliveries go on for ever, the last message is delivered after so many. -/
theorem SelfPlay.exists_end {s : Sim} (h : Acc (Function.swap Delivers) s) :
    ∀ p : SelfPlay, p.sim = s → ∃ n, (p.playFor n).sim.queue = []
      ∧ ∀ j < n, (p.playFor j).sim.queue ≠ [] := by
  induction h with
  | intro s _ ih =>
    rintro p rfl
    by_cases hempty : p.sim.queue = []
    · exact ⟨0, hempty, fun j hj => absurd hj (Nat.not_lt_zero j)⟩
    · obtain ⟨p', hp⟩ := Option.ne_none_iff_exists'.mp (mt p.deliverDrawn_eq_none_iff.mp hempty)
      obtain ⟨n, hend, hopen⟩ := ih p'.sim (delivers_deliverDrawn hp).1 p' rfl
      refine ⟨n + 1, by simpa [playFor, hp] using hend, fun j hj => ?_⟩
      cases j with
      | zero => exact hempty
      | succ j => simpa [playFor, hp] using hopen j (by omega)

/-- A loop with `n` messages to deliver delivers them all if that keeps it below the limit, and gives
up otherwise. The induction is on the deliveries. -/
theorem SelfPlay.runFor_eq {n : ℕ} {p : SelfPlay} (hsteps : p.steps < stepLimit)
    (hend : (p.playFor n).sim.queue = []) (hopen : ∀ j < n, (p.playFor j).sim.queue ≠ []) {m : ℕ}
    (hm : n ≤ m) : p.runFor m = if p.steps + n < stepLimit then .ok (p.playFor n)
      else .error "simulation did not quiesce" := by
  induction n generalizing p m with
  | zero =>
    have hstep : p.step = .ok none := if_pos (by simpa [playFor] using hend)
    rw [Nat.add_zero, if_pos hsteps]
    cases m with
    | zero => rfl
    | succ m => rw [runFor, hstep, playFor]
  | succ n ih =>
    obtain ⟨m, rfl⟩ : ∃ m', m = m' + 1 := ⟨m - 1, by omega⟩
    have hqueue : p.sim.queue ≠ [] := hopen 0 (Nat.succ_pos n)
    obtain ⟨p', hp⟩ := Option.ne_none_iff_exists'.mp (mt p.deliverDrawn_eq_none_iff.mp hqueue)
    obtain ⟨-, hcount⟩ := delivers_deliverDrawn hp
    have hplay : ∀ j, p.playFor (j + 1) = p'.playFor j := fun j => by rw [playFor, hp]
    rw [runFor, step, if_neg (by simpa using hqueue), hp, hplay]
    by_cases hlim : p.steps + 1 < stepLimit
    · have hrest := @ih p' (hcount ▸ hlim) (hplay n ▸ hend)
        (fun j hj => hplay j ▸ hopen (j + 1) (by omega)) m (by omega)
      rw [if_pos hlim]
      dsimp only
      rw [hrest, hcount, Nat.add_assoc, Nat.add_comm 1 n]
    · rw [if_neg hlim, if_neg (by omega)]

/-- For every seed, with discovery concurrent or staggered, the loop of an honest neighbourhood has
some number of messages to deliver. Once they are delivered none is in flight, and each node indexes
exactly what was given to the nodes that its sights lead to, each triple delivered once. The loop ends
so if the steps taken stay below the limit, and else it gives up there. -/
theorem self_play_ends (k : ℕ) (hk : k ≤ 256) (policy : Policy) (hwin : 1 ≤ policy.window)
    (spuriousBudget : ℕ) (seeds : List (ℕ × Triple)) (es : List (ℕ × ℕ))
    (hes : ∀ e ∈ es, e.1 < k ∧ e.2 < k ∧ e.1 ≠ e.2) (acts : List Act)
    (hfresh : ((seeded k [] policy spuriousBudget seeds).startWith es).Fresh acts)
    (rng : UInt64) (concurrentDiscovery : Bool) {steps : ℕ} (hsteps : steps < stepLimit) :
    let p : SelfPlay := ⟨((seeded k [] policy spuriousBudget seeds).startWith es).run acts, rng,
      concurrentDiscovery, steps⟩
    let held := fun i => seedsOf seeds i ++ arrivalsOf acts i
    ∃ n, (∀ m, n ≤ m → p.runFor m = if steps + n < stepLimit then .ok (p.playFor n)
        else .error "simulation did not quiesce")
      ∧ (p.playFor n).sim.queue = []
      ∧ ∀ i < k, (∀ c, (p.playFor n).sim.nodeHas i c ↔ c ∈ ledTo es k held i)
        ∧ (p.playFor n).sim.deficit i = 0
        ∧ (p.playFor n).sim.deliveries i = (ledTo es k held i \ (held i).toFinset).card := by
  intro p held
  obtain ⟨hacc, hend⟩ := (seeded_spec k [] policy spuriousBudget seeds).quiesces hwin
    (fun i => by rw [byzantine_seeded]; exact Bool.false_ne_true) hk
    (fun e he => mem_sights.mpr (hes e he)) acts hfresh
  obtain ⟨n, hempty, hopen⟩ := SelfPlay.exists_end hacc p rfl
  exact ⟨n, fun m hm => SelfPlay.runFor_eq hsteps hempty hopen hm, hempty,
    hend _ (p.delivers_playFor n) hempty⟩

theorem self_play_ends_pair :
    let seeds := [(0, Triple.mock 1), (1, Triple.mock 2)]
    let es := [(0, 1), (1, 0)]
    let acts := [.arrive 1 (Triple.mock 3)]
    let p : SelfPlay := ⟨((seeded 2 [] Policy.shipped 2 seeds).startWith es).run acts, 7, true, 0⟩
    let held := fun i => seedsOf seeds i ++ arrivalsOf acts i
    ∃ n, (∀ m, n ≤ m → p.runFor m = if 0 + n < stepLimit then .ok (p.playFor n)
        else .error "simulation did not quiesce")
      ∧ (p.playFor n).sim.queue = []
      ∧ ∀ i < 2, (∀ c, (p.playFor n).sim.nodeHas i c ↔ c ∈ ledTo es 2 held i)
        ∧ (p.playFor n).sim.deficit i = 0
        ∧ (p.playFor n).sim.deliveries i = (ledTo es 2 held i \ (held i).toFinset).card := by
  intro seeds es acts
  have hfresh : ((seeded 2 [] Policy.shipped 2 seeds).startWith es).Fresh acts := by decide +kernel
  exact self_play_ends 2 (by decide) Policy.shipped (by decide) 2 seeds es (by decide) acts hfresh 7
    true (by decide)

end Melissi.Sim
