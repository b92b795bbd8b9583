import Melissi.Common.Rank
import Melissi.Common.Search

/-!
# Assembling the supply

Reference: `crates/neighbourhood/src/lib.rs` and its `explore.rs`. A node that knows only its
bootstrap peer discovers the peers of its tile through those it is connected to, and connects the
willing ones. The counts only grow, up to the populations of the tile: the source's `u32` counts are
naturals here.
-/

namespace Melissi

open Melissi.Common

/-- The two design choices. -/
structure Neighbourhood.Policy where
  /-- A connected node learns more neighbours. -/
  gossip : Bool
  /-- Connect every honest neighbour, not merely enough to bootstrap. -/
  connectAll : Bool
deriving DecidableEq

def Neighbourhood.Policy.shipped : Neighbourhood.Policy where
  gossip := true
  connectAll := true

/-- The discovery and connection state of one tile. -/
@[ext]
structure Neighbourhood where
  knownW : ℕ
  knownU : ℕ
  conn : ℕ
  willing : ℕ
  declining : ℕ
  policy : Neighbourhood.Policy
deriving DecidableEq

namespace Neighbourhood

/-- A node knowing only its bootstrap peer, one of the willing. -/
def new (willing declining : ℕ) (policy : Policy) : Neighbourhood where
  knownW := 1
  knownU := 0
  conn := 0
  willing := willing
  declining := declining
  policy := policy

/-- The explorer's state key. -/
def state (n : Neighbourhood) : ℕ × ℕ × ℕ := (n.knownW, n.knownU, n.conn)

/-- Restore a state: populations and policy are unchanged. -/
def setState (n : Neighbourhood) (k : ℕ × ℕ × ℕ) : Neighbourhood :=
  { n with knownW := k.1, knownU := k.2.1, conn := k.2.2 }

/-- Connected to at least one neighbour. -/
def bootstrapped (n : Neighbourhood) : Bool := decide (n.conn > 0)

/-- `DiscoverW`: a connected node learns one more willing neighbour. -/
def discoverW (n : Neighbourhood) : Neighbourhood × Bool :=
  if n.policy.gossip && n.bootstrapped && decide (n.knownW < n.willing) then
    ({ n with knownW := n.knownW + 1 }, true)
  else (n, false)

/-- `DiscoverU`: a connected node learns one more declining neighbour. -/
def discoverU (n : Neighbourhood) : Neighbourhood × Bool :=
  if n.policy.gossip && n.bootstrapped && decide (n.knownU < n.declining) then
    ({ n with knownU := n.knownU + 1 }, true)
  else (n, false)

/-- `Connect`: connect one more known willing neighbour. -/
def connect (n : Neighbourhood) : Neighbourhood × Bool :=
  if decide (n.conn < n.knownW) && (n.policy.connectAll || !n.bootstrapped) then
    ({ n with conn := n.conn + 1 }, true)
  else (n, false)

/-- No action is enabled. -/
def terminal (n : Neighbourhood) : Bool := !n.discoverW.2 && !n.discoverU.2 && !n.connect.2

/-- Only discovered and willing neighbours are connected. -/
def connLeKnown (n : Neighbourhood) : Bool :=
  decide (n.conn ≤ n.knownW) && decide (n.knownW ≤ n.willing)

/-- Discovery has found the whole neighbourhood. -/
def discoveryFinds (n : Neighbourhood) : Bool :=
  n.knownW == n.willing && n.knownU == n.declining

/-- Every honest neighbour is connected. -/
def supplyComplete (n : Neighbourhood) : Bool := n.conn == n.willing

/-! ## The explorer -/

structure Report where
  /-- Distinct reachable states. -/
  distinct : ℕ
  /-- `connLeKnown` held at every reachable state. -/
  safe : Bool
  /-- States with no action enabled. -/
  terminals : ℕ
  /-- Terminals that violate the liveness predicate. -/
  badTerminals : ℕ
deriving DecidableEq

/-- What the search keeps. -/
structure Search where
  seen : Finset (ℕ × ℕ × ℕ)
  queue : List (ℕ × ℕ × ℕ)
  report : Report

/-- The three actions. -/
inductive Act where
  | discoverW
  | discoverU
  | connect
deriving DecidableEq

def Act.apply : Act → Neighbourhood → Neighbourhood × Bool
  | .discoverW => Neighbourhood.discoverW
  | .discoverU => Neighbourhood.discoverU
  | .connect => Neighbourhood.connect

def actions : List Act := [.discoverW, .discoverU, .connect]

/-- Insert a key, and queue it if it is new. -/
def Search.push (s : Search) (key : ℕ × ℕ × ℕ) : Search :=
  if key ∈ s.seen then s else { s with seen := insert key s.seen, queue := s.queue ++ [key] }

/-- Take every action that applies here; the flag tells whether any does. -/
def Search.expand (here : Neighbourhood) (s : Search) : Search × Bool :=
  actions.foldl (fun r act =>
    let next := act.apply here
    if next.2 then (r.1.push next.1.state, true) else r) (s, false)

/-- One round of the search. -/
def Search.round (start : Neighbourhood) (liveness : Neighbourhood → Bool) (s : Search) :
    Search ⊕ Report :=
  match s.queue with
  | [] => .inr s.report
  | key :: queue =>
    let here := start.setState key
    let r := expand here { s with
      queue := queue
      report := { s.report with
        distinct := s.report.distinct + 1
        safe := s.report.safe && here.connLeKnown } }
    if r.2 then .inl r.1
    else .inl { r.1 with report := { r.1.report with
      terminals := r.1.report.terminals + 1
      badTerminals := r.1.report.badTerminals + if liveness here then 0 else 1 } }

/-- Explore from the bootstrap, for as many rounds as there is fuel. -/
def explore (willing declining : ℕ) (policy : Policy) (liveness : Neighbourhood → Bool)
    (fuel : ℕ) : Option Report :=
  let start := new willing declining policy
  iterate (Search.round start liveness) fuel
    { seen := {start.state}, queue := [start.state], report := ⟨0, true, 0, 0⟩ }

/-! ## Runs -/

/-- Take the actions one after the other: none where one does not apply. -/
def run (n : Neighbourhood) : List Act → Option Neighbourhood
  | [] => some n
  | a :: as => let r := a.apply n; if r.2 then r.1.run as else none

theorem run_append (n : Neighbourhood) (as as' : List Act) :
    n.run (as ++ as') = (n.run as).bind fun n' => n'.run as' := by
  induction as generalizing n with
  | nil => rfl
  | cons a as ih =>
    simp only [List.cons_append, run]
    split
    · exact ih _
    · rfl

/-- The node of a tile at a state, under the shipped policy. -/
def tile (willing declining : ℕ) (k : ℕ × ℕ × ℕ) : Neighbourhood :=
  (new willing declining Policy.shipped).setState k

/-- The start, and the states with someone connected. -/
def InTile (willing declining : ℕ) (k : ℕ × ℕ × ℕ) : Prop :=
  k = (1, 0, 0) ∨ 1 ≤ k.2.2 ∧ k.2.2 ≤ k.1 ∧ k.1 ≤ willing ∧ k.2.1 ≤ declining

/-- All that was discovered and connected. -/
def progress (k : ℕ × ℕ × ℕ) : ℕ := k.1 + k.2.1 + k.2.2

theorem discoverW_eq (n : Neighbourhood) : n.discoverW =
    if n.policy.gossip ∧ 0 < n.conn ∧ n.knownW < n.willing then
      ({ n with knownW := n.knownW + 1 }, true)
    else (n, false) := by
  simp [discoverW, bootstrapped, and_assoc]

theorem discoverU_eq (n : Neighbourhood) : n.discoverU =
    if n.policy.gossip ∧ 0 < n.conn ∧ n.knownU < n.declining then
      ({ n with knownU := n.knownU + 1 }, true)
    else (n, false) := by
  simp [discoverU, bootstrapped, and_assoc]

theorem connect_eq (n : Neighbourhood) : n.connect =
    if n.conn < n.knownW ∧ (n.policy.connectAll ∨ n.conn = 0) then
      ({ n with conn := n.conn + 1 }, true)
    else (n, false) := by
  simp [connect, bootstrapped]

section

variable {willing declining : ℕ}

/-- What each action of the shipped policy does, and where it applies. -/
theorem apply_tile (a : Act) (kw ku c : ℕ) :
    a.apply (tile willing declining (kw, ku, c)) =
      match a with
      | .discoverW => if 0 < c ∧ kw < willing then (tile willing declining (kw + 1, ku, c), true)
          else (tile willing declining (kw, ku, c), false)
      | .discoverU => if 0 < c ∧ ku < declining then (tile willing declining (kw, ku + 1, c), true)
          else (tile willing declining (kw, ku, c), false)
      | .connect => if c < kw then (tile willing declining (kw, ku, c + 1), true)
          else (tile willing declining (kw, ku, c), false) := by
  cases a with
  | discoverW => exact (discoverW_eq _).trans (if_congr (and_iff_right rfl) rfl rfl)
  | discoverU => exact (discoverU_eq _).trans (if_congr (and_iff_right rfl) rfl rfl)
  | connect => exact (connect_eq _).trans (if_congr (and_iff_left (.inl rfl)) rfl rfl)

/-- An action that applies stays in the tile and makes one step of progress. -/
theorem apply_inTile (hw : 1 ≤ willing) {a : Act} {k : ℕ × ℕ × ℕ} (hk : InTile willing declining k)
    (ha : (a.apply (tile willing declining k)).2) :
    ∃ k', (a.apply (tile willing declining k)).1 = tile willing declining k'
      ∧ InTile willing declining k' ∧ progress k' = progress k + 1 := by
  obtain ⟨kw, ku, c⟩ := k
  simp only [InTile, progress, Prod.mk.injEq] at hk ⊢
  rw [apply_tile] at ha ⊢
  cases a with
  | discoverW =>
    by_cases h : 0 < c ∧ kw < willing
    · simp only [h, and_self, if_true]
      exact ⟨_, rfl, by simp only; omega, by simp only; omega⟩
    · simp [h] at ha
  | discoverU =>
    by_cases h : 0 < c ∧ ku < declining
    · simp only [h, and_self, if_true]
      exact ⟨_, rfl, by simp only; omega, by simp only; omega⟩
    · simp [h] at ha
  | connect =>
    by_cases h : c < kw
    · simp only [h, if_true]
      exact ⟨_, rfl, by simp only; omega, by simp only; omega⟩
    · simp [h] at ha

/-- A run stays in the tile, and each of its steps is one of progress. -/
theorem run_inTile (hw : 1 ≤ willing) {as : List Act} {k : ℕ × ℕ × ℕ} {n : Neighbourhood}
    (hk : InTile willing declining k) (hr : (tile willing declining k).run as = some n) :
    ∃ k', n = tile willing declining k' ∧ InTile willing declining k'
      ∧ progress k' = progress k + as.length := by
  induction as generalizing k with
  | nil => exact ⟨k, (Option.some.inj hr).symm, hk, rfl⟩
  | cons a as ih =>
    simp only [run] at hr
    split at hr
    · next ha =>
      obtain ⟨k', happ, hk', hp⟩ := apply_inTile hw hk ha
      rw [happ] at hr
      obtain ⟨k'', hn, hk'', hp'⟩ := ih hk' hr
      exact ⟨k'', hn, hk'', by rw [hp', hp, List.length_cons]; omega⟩
    · cases hr

/-- Nothing applies exactly where everything is discovered and connected. -/
theorem terminal_tile (hw : 1 ≤ willing) {k : ℕ × ℕ × ℕ} (hk : InTile willing declining k) :
    (tile willing declining k).terminal ↔ k = (willing, declining, willing) := by
  obtain ⟨kw, ku, c⟩ := k
  have hW := @apply_tile willing declining .discoverW kw ku c
  have hU := @apply_tile willing declining .discoverU kw ku c
  have hC := @apply_tile willing declining .connect kw ku c
  simp only [Act.apply] at hW hU hC
  simp only [InTile, Prod.mk.injEq] at hk ⊢
  rw [terminal, hW, hU, hC]
  split <;> split <;> split <;> simp <;> omega

/-- Only discovered and willing peers are connected. -/
theorem connLeKnown_tile (hw : 1 ≤ willing) {k : ℕ × ℕ × ℕ} (hk : InTile willing declining k) :
    (tile willing declining k).connLeKnown := by
  obtain ⟨kw, ku, c⟩ := k
  simp only [InTile, Prod.mk.injEq] at hk
  rw [connLeKnown, Bool.and_eq_true, decide_eq_true_eq, decide_eq_true_eq]
  change c ≤ kw ∧ kw ≤ willing
  omega

/-- No state of the tile has more progress than the terminal one, and no other has as much. -/
theorem progress_le (hw : 1 ≤ willing) {k : ℕ × ℕ × ℕ} (hk : InTile willing declining k) :
    progress k ≤ 2 * willing + declining
      ∧ (progress k = 2 * willing + declining ↔ k = (willing, declining, willing)) := by
  obtain ⟨kw, ku, c⟩ := k
  simp only [InTile, progress, Prod.mk.injEq] at hk ⊢
  omega

/-- Repeating an action that keeps applying. -/
theorem run_replicate {a : Act} (f : ℕ → ℕ × ℕ × ℕ) (m : ℕ)
    (hf : ∀ j < m, a.apply (tile willing declining (f j)) = (tile willing declining (f (j + 1)), true)) :
    (tile willing declining (f 0)).run (List.replicate m a) = some (tile willing declining (f m)) := by
  induction m with
  | zero => rfl
  | succ m ih =>
    rw [List.replicate_succ', run_append, ih fun j hj => hf j (by omega)]
    simp [run, hf m (by omega)]

/-- Every state of the tile is reached: connect the first, discover all that is known, then connect
the rest. -/
theorem exists_run {k : ℕ × ℕ × ℕ} (hk : InTile willing declining k) :
    ∃ as, (tile willing declining (1, 0, 0)).run as = some (tile willing declining k) := by
  obtain ⟨kw, ku, c⟩ := k
  simp only [InTile, Prod.mk.injEq] at hk
  rcases hk with ⟨rfl, rfl, rfl⟩ | ⟨hc, hck, hkw, hku⟩
  · exact ⟨[], rfl⟩
  · have h₁ := @run_replicate willing declining .discoverW
      (fun j => (1 + j, 0, 1)) (kw - 1) fun j hj => by
        rw [apply_tile]
        simp only
        rw [if_pos (by omega)]
        rfl
    have h₂ := @run_replicate willing declining .discoverU
      (fun j => (kw, j, 1)) ku fun j hj => by
        rw [apply_tile]
        simp only
        rw [if_pos (by omega)]
    have h₃ := @run_replicate willing declining .connect
      (fun j => (kw, ku, 1 + j)) (c - 1) fun j hj => by
        rw [apply_tile]
        simp only
        rw [if_pos (by omega)]
        rfl
    have h₀ : (tile willing declining (1, 0, 0)).run [.connect]
        = some (tile willing declining (1, 0, 1)) := by
      rw [run, apply_tile]
      rfl
    refine ⟨[Act.connect] ++ (List.replicate (kw - 1) Act.discoverW
      ++ (List.replicate ku Act.discoverU ++ List.replicate (c - 1) Act.connect)), ?_⟩
    simp only [show 1 + (kw - 1) = kw by omega, show 1 + (c - 1) = c by omega] at h₁ h₃
    rw [run_append, h₀, Option.bind_some, run_append, h₁, Option.bind_some, run_append, h₂,
      Option.bind_some]
    exact h₃

end

/-! ## What the explorer sees -/

/-- The states one action away. -/
def succs (n : Neighbourhood) : List (ℕ × ℕ × ℕ) :=
  actions.filterMap fun a => if (a.apply n).2 then some (a.apply n).1.state else none

/-- Expanding a node pushes the states one action away, and tells whether there are any. -/
theorem expand_eq (here : Neighbourhood) (s : Search) :
    s.expand here = ((succs here).foldl Search.push s, !here.terminal) := by
  have hfold : ∀ (as : List Act) (s : Search) (any : Bool),
      as.foldl (fun r a => let next := a.apply here
        if next.2 then (r.1.push next.1.state, true) else r) (s, any)
      = ((as.filterMap fun a => if (a.apply here).2 then some (a.apply here).1.state else none).foldl
        Search.push s, any || as.any fun a => (a.apply here).2) := by
    intro as
    induction as with
    | nil => simp
    | cons a as ih =>
      intro s any
      rw [List.foldl_cons, List.filterMap_cons, List.any_cons]
      by_cases ha : (a.apply here).2
      · simp only [ha, if_true, List.foldl_cons, ih]
        simp
      · simp only [ha, Bool.false_eq_true, if_false, ih]
        simp
  rw [Search.expand, hfold]
  simp [succs, actions, terminal, Act.apply, Bool.or_assoc]

/-- The tables of the search, with the keys seen so far, the first `n` of them visited. -/
structure Lists (keys : List (ℕ × ℕ × ℕ)) (n : ℕ) (s : Search) : Prop where
  seen : s.seen = keys.toFinset
  queue : s.queue = keys.drop n
  le : n ≤ keys.length

theorem Lists.push {seen : List (ℕ × ℕ × ℕ)} {n : ℕ} {s : Search} (h : Lists seen n s)
    (key : ℕ × ℕ × ℕ) : Lists (see seen key) n (s.push key) ∧ (s.push key).report = s.report := by
  rw [Search.push, see, h.seen]
  simp only [List.mem_toFinset]
  split
  · exact ⟨h, rfl⟩
  · refine ⟨⟨?_, ?_, ?_⟩, rfl⟩
    · ext a
      simp
    · rw [List.drop_append_of_le_length h.le, h.queue]
    · rw [List.length_append]
      exact h.le.trans (Nat.le_add_right _ _)

theorem Lists.pushAll {seen : List (ℕ × ℕ × ℕ)} {n : ℕ} {s : Search} (h : Lists seen n s)
    (keys : List (ℕ × ℕ × ℕ)) :
    Lists (seeAll seen keys) n (keys.foldl Search.push s)
      ∧ (keys.foldl Search.push s).report = s.report := by
  induction keys generalizing seen s with
  | nil => exact ⟨h, rfl⟩
  | cons key keys ih =>
    obtain ⟨hpush, hrep⟩ := h.push key
    obtain ⟨hrest, hrep'⟩ := ih hpush
    exact ⟨hrest, hrep'.trans hrep⟩

/-- The report on a list of states. -/
def reportOn (start : Neighbourhood) (liveness : Neighbourhood → Bool)
    (keys : List (ℕ × ℕ × ℕ)) : Report where
  distinct := keys.length
  safe := keys.all fun k => (start.setState k).connLeKnown
  terminals := keys.countP fun k => (start.setState k).terminal
  badTerminals := keys.countP fun k =>
    (start.setState k).terminal && !liveness (start.setState k)

/-- A search under way: what was visited is reported on. -/
def Underway (start : Neighbourhood) (liveness : Neighbourhood → Bool) (s : Search) : Prop :=
  ∃ seen n, Searched (fun k => succs (start.setState k)) start.state seen n ∧ Lists seen n s
    ∧ s.report = reportOn start liveness (seen.take n)

/-- A round visits one more state; it returns when all are visited. -/
theorem round_spec {start : Neighbourhood} {liveness : Neighbourhood → Bool} {s : Search}
    {seen : List (ℕ × ℕ × ℕ)} {n : ℕ}
    (hs : Searched (fun k => succs (start.setState k)) start.state seen n) (hl : Lists seen n s)
    (hr : s.report = reportOn start liveness (seen.take n)) :
    (s.round start liveness = .inr (reportOn start liveness seen) ∧ n = seen.length)
      ∨ ∃ s' seen', s.round start liveness = .inl s' ∧ n < seen.length
        ∧ Searched (fun k => succs (start.setState k)) start.state seen' (n + 1)
        ∧ Lists seen' (n + 1) s' ∧ s'.report = reportOn start liveness (seen'.take (n + 1)) := by
  rw [Search.round]
  rcases Nat.lt_or_ge n seen.length with hlt | hge
  · have hdrop : s.queue = seen[n] :: seen.drop (n + 1) := by
      rw [hl.queue, List.drop_eq_getElem_cons hlt]
    have hget : seen[n]? = some seen[n] := List.getElem?_eq_getElem hlt
    have hlists : Lists seen (n + 1) { s with
        queue := seen.drop (n + 1)
        report := { s.report with
          distinct := s.report.distinct + 1
          safe := s.report.safe && (start.setState seen[n]).connLeKnown } } :=
      ⟨hl.seen, rfl, hlt⟩
    obtain ⟨hpush, hrep⟩ := hlists.pushAll (succs (start.setState seen[n]))
    have htake : (seeAll seen (succs (start.setState seen[n]))).take (n + 1)
        = seen.take n ++ [seen[n]] := by
      obtain ⟨t, ht⟩ := prefix_seeAll seen (succs (start.setState seen[n]))
      rw [← ht, List.take_append_of_le_length hlt, List.take_succ_eq_append_getElem hlt]
    have hreport : ∀ terminals badTerminals,
        terminals = s.report.terminals + [seen[n]].countP (fun k => (start.setState k).terminal) →
        badTerminals = s.report.badTerminals + [seen[n]].countP (fun k =>
          (start.setState k).terminal && !liveness (start.setState k)) →
        (⟨s.report.distinct + 1, s.report.safe && (start.setState seen[n]).connLeKnown, terminals,
          badTerminals⟩ : Report) = reportOn start liveness (seen.take n ++ [seen[n]]) := by
      rintro _ _ rfl rfl
      rw [hr]
      simp only [reportOn, List.length_append, List.all_append, List.countP_append,
        List.length_singleton, List.all_cons, List.all_nil, Bool.and_true]
    refine .inr ?_
    rw [hdrop]
    simp only [expand_eq]
    by_cases hterm : (start.setState seen[n]).terminal
    · simp only [hterm, Bool.not_true, Bool.false_eq_true, if_false]
      refine ⟨_, _, rfl, hlt, hs.visit hget, ⟨hpush.seen, hpush.queue, hpush.le⟩, ?_⟩
      rw [htake, hrep]
      refine hreport _ _ (by simp [hterm]) ?_
      cases hlive : liveness (start.setState seen[n]) <;> simp [hterm, hlive]
    · simp only [hterm, Bool.not_false, if_true]
      refine ⟨_, _, rfl, hlt, hs.visit hget, hpush, ?_⟩
      rw [htake, hrep]
      exact hreport _ _ (by simp [hterm]) (by simp [hterm])
  · left
    have hnil : s.queue = [] := by rw [hl.queue, List.drop_eq_nil_of_le hge]
    rw [hnil, hr, List.take_of_length_le hge]
    exact ⟨rfl, le_antisymm hl.le hge⟩

/-! ## The shipped policy -/

section

variable {willing declining : ℕ}

/-- The states that can be reached are those of the tile. -/
theorem reaches_iff (hw : 1 ≤ willing) {k : ℕ × ℕ × ℕ} :
    Relation.ReflTransGen (Next fun k => succs (tile willing declining k)) (1, 0, 0) k
      ↔ InTile willing declining k := by
  have hsucc : ∀ {k k'}, InTile willing declining k → (k' ∈ succs (tile willing declining k) ↔
      ∃ a : Act, a.apply (tile willing declining k) = (tile willing declining k', true)) := by
    intro k k' hk
    simp only [succs, List.mem_filterMap]
    constructor
    · rintro ⟨a, -, ha⟩
      split at ha
      · next happ =>
        obtain ⟨k'', heq, -⟩ := apply_inTile hw hk happ
        rw [heq] at ha
        obtain rfl : k'' = k' := Option.some.inj ha
        exact ⟨a, Prod.ext heq happ⟩
      · cases ha
    · rintro ⟨a, ha⟩
      refine ⟨a, by cases a <;> simp [actions], ?_⟩
      rw [ha]
      rfl
  have hstart : InTile willing declining (1, 0, 0) := .inl rfl
  constructor
  · intro h
    refine invariant_of_reachable (fun k k' hk hstep => ?_) hstart h
    obtain ⟨a, ha⟩ := (hsucc hk).mp hstep
    obtain ⟨k'', heq, hk'', -⟩ := apply_inTile hw hk (by rw [ha])
    rw [ha] at heq
    obtain rfl : k' = k'' := congrArg state heq
    exact hk''
  · intro hk
    obtain ⟨as, has⟩ := exists_run hk
    have hrun : ∀ (as : List Act) {k k'}, InTile willing declining k →
        (tile willing declining k).run as = some (tile willing declining k') →
        Relation.ReflTransGen (Next fun k => succs (tile willing declining k)) k k' := by
      intro as
      induction as with
      | nil =>
        intro k k' _ h
        obtain rfl : k = k' := congrArg state (Option.some.inj h)
        exact .refl
      | cons a as ih =>
        intro k k' hk h
        simp only [run] at h
        split at h
        · next ha =>
          obtain ⟨k'', heq, hk'', -⟩ := apply_inTile hw hk ha
          rw [heq] at h
          exact .head ((hsucc hk).mpr ⟨a, Prod.ext heq ha⟩) (ih hk'' h)
        · cases h
    exact hrun as hstart has

/-- The states of the tile. -/
def tileStates (willing declining : ℕ) : Finset (ℕ × ℕ × ℕ) :=
  insert (1, 0, 0) (((Finset.Icc 1 willing).sigma fun kw =>
    Finset.range (declining + 1) ×ˢ Finset.Icc 1 kw).image fun x => (x.1, x.2.1, x.2.2))

theorem mem_tileStates {k : ℕ × ℕ × ℕ} :
    k ∈ tileStates willing declining ↔ InTile willing declining k := by
  obtain ⟨kw, ku, c⟩ := k
  simp only [tileStates, InTile, Finset.mem_insert, Finset.mem_image, Finset.mem_sigma,
    Finset.mem_product, Finset.mem_Icc, Finset.mem_range, Prod.mk.injEq, Sigma.exists, Prod.exists]
  constructor
  · rintro (h | ⟨kw', ku', c', h, rfl, rfl, rfl⟩)
    · exact .inl h
    · exact .inr (by omega)
  · rintro (h | h)
    · exact .inl h
    · exact .inr ⟨kw, ku, c, by omega, rfl, rfl, rfl⟩

theorem card_tileStates (willing declining : ℕ) : (tileStates willing declining).card
    = 1 + (declining + 1) * willing * (willing + 1) / 2 := by
  have hsum : ∀ w, (∑ kw ∈ Finset.Icc 1 w, kw) * 2 = w * (w + 1) := by
    intro w
    induction w with
    | zero => rfl
    | succ w ih =>
      rw [Finset.sum_Icc_succ_top (by omega), Nat.add_mul, ih]
      ring
  have hcard : ∑ kw ∈ Finset.Icc 1 willing,
      (Finset.range (declining + 1) ×ˢ Finset.Icc 1 kw).card
      = (declining + 1) * ∑ kw ∈ Finset.Icc 1 willing, kw := by
    rw [Finset.mul_sum]
    exact Finset.sum_congr rfl fun kw _ => by simp
  have hhalf : (declining + 1) * willing * (willing + 1) / 2
      = (declining + 1) * ∑ kw ∈ Finset.Icc 1 willing, kw := by
    rw [Nat.mul_assoc, ← hsum, ← Nat.mul_assoc, Nat.mul_div_cancel _ (by decide)]
  rw [tileStates, Finset.card_insert_of_notMem (by simp), Finset.card_image_of_injective,
    Finset.card_sigma, hcard, hhalf, Nat.add_comm]
  rintro ⟨kw, ku, c⟩ ⟨kw', ku', c'⟩ h
  simp only [Prod.mk.injEq] at h
  obtain ⟨rfl, rfl, rfl⟩ := h
  rfl

/-- The explorer of the shipped policy ends with a report on the tile. -/
theorem explore_shipped (hw : 1 ≤ willing) (liveness : Neighbourhood → Bool) (fuel : ℕ)
    (hf : 1 + (declining + 1) * willing * (willing + 1) / 2 < fuel) :
    explore willing declining Policy.shipped liveness fuel
      = some ⟨1 + (declining + 1) * willing * (willing + 1) / 2, true, 1,
          if liveness (tile willing declining (willing, declining, willing)) then 0 else 1⟩ := by
  set start := new willing declining Policy.shipped with hstart
  have hfin : ∀ k, Relation.ReflTransGen (Next fun k => succs (start.setState k)) start.state k →
      k ∈ tileStates willing declining := fun k hk => mem_tileStates.mpr ((reaches_iff hw).mp hk)
  obtain ⟨r, hr, s, ⟨seen, n, hs, hl, hrep⟩, hround⟩ := @iterate_returns _ _
    (Search.round start liveness) (Underway start liveness)
    (fun s => (tileStates willing declining).card - s.report.distinct) (by
      rintro s s' ⟨seen, n, hs, hl, hrep⟩ hround
      rcases round_spec hs hl hrep with ⟨hret, -⟩ | ⟨s'', seen', hgo, hlt, hs', hl', hrep'⟩
      · rw [hret] at hround
        cases hround
      · obtain rfl : s'' = s' := by simpa [hgo] using hround
        refine ⟨⟨seen', n + 1, hs', hl', hrep'⟩, ?_⟩
        have hle := hs.length_le hfin
        rw [hrep, hrep']
        simp only [reportOn, List.length_take]
        have := hl'.le
        omega)
    { seen := {start.state}, queue := [start.state], report := ⟨0, true, 0, 0⟩ }
    ⟨[start.state], 0, .init _ _, ⟨by simp, rfl, Nat.zero_le _⟩, rfl⟩
  have hret : r = reportOn start liveness seen ∧ n = seen.length := by
    rcases round_spec hs hl hrep with ⟨hret, hn⟩ | ⟨s', seen', hgo, -⟩
    · rw [hret] at hround
      exact ⟨(Sum.inr.inj hround).symm, hn⟩
    · rw [hgo] at hround
      cases hround
  obtain ⟨rfl, rfl⟩ := hret
  have hmem : ∀ k, k ∈ seen ↔ InTile willing declining k := fun k =>
    hs.mem_iff.trans (reaches_iff hw)
  have hlen : seen.length = 1 + (declining + 1) * willing * (willing + 1) / 2 := by
    rw [← card_tileStates, ← List.toFinset_card_of_nodup hs.nodup]
    congr 1
    ext k
    rw [List.mem_toFinset, hmem, mem_tileStates]
  have hfinal : (willing, declining, willing) ∈ seen :=
    (hmem _).mpr (.inr ⟨hw, le_refl _, le_refl _, le_refl _⟩)
  have hcount : ∀ p : ℕ × ℕ × ℕ → Bool, (∀ k ∈ seen, p k → k = (willing, declining, willing)) →
      seen.countP p = if p (willing, declining, willing) then 1 else 0 := by
    intro p hp
    by_cases hpf : p (willing, declining, willing)
    · rw [if_pos hpf, ← List.count_eq_one_of_mem hs.nodup hfinal, List.count]
      refine List.countP_congr fun k hk => ?_
      rw [beq_iff_eq]
      exact ⟨hp k hk, fun h => h ▸ hpf⟩
    · rw [if_neg hpf, List.countP_eq_zero]
      exact fun k hk hpk => hpf (hp k hk hpk ▸ hpk)
  have hterm : ∀ k ∈ seen, (start.setState k).terminal → k = (willing, declining, willing) :=
    fun k hk => (terminal_tile hw ((hmem k).mp hk)).mp
  have hlast : (start.setState (willing, declining, willing)).terminal :=
    (terminal_tile hw ((hmem _).mp hfinal)).mpr rfl
  have hsafe : (seen.all fun k => (start.setState k).connLeKnown) = true := by
    exact List.all_eq_true.mpr fun k hk => connLeKnown_tile hw ((hmem k).mp hk)
  rw [explore, hr fuel (by rw [card_tileStates]; exact (Nat.sub_le _ _).trans_lt hf), ← hlen]
  simp only [reportOn, hsafe, hcount _ hterm, hlast, if_true]
  rw [hcount _ fun k hk h => hterm k hk (Bool.and_eq_true _ _ ▸ h).1, hlast]
  have hfin : start.setState (willing, declining, willing)
      = tile willing declining (willing, declining, willing) := rfl
  rw [hfin]
  cases liveness (tile willing declining (willing, declining, willing)) <;> rfl

/-- The supply is assembled in every tile: the states that can be reached are the start and those
with `1 ≤ conn ≤ known_w ≤ willing` and `known_u ≤ declining`, the explorer counts them, and every
run ends after the same number of steps with everything discovered and every willing peer connected.
-/
theorem assembles (willing declining : ℕ) (hw : 1 ≤ willing) :
    let start := new willing declining Policy.shipped
    let final := start.setState (willing, declining, willing)
    (∀ n, (∃ as, start.run as = some n) ↔
        ∃ k, n = start.setState k ∧ (k = (1, 0, 0) ∨
          1 ≤ k.2.2 ∧ k.2.2 ≤ k.1 ∧ k.1 ≤ willing ∧ k.2.1 ≤ declining))
      ∧ (∀ as n, start.run as = some n → n.connLeKnown)
      ∧ (∀ as n, start.run as = some n →
          as.length ≤ 2 * willing - 1 + declining
            ∧ (n.terminal ↔ n = final) ∧ (n.terminal ↔ as.length = 2 * willing - 1 + declining))
      ∧ ∀ liveness, ∃ rounds, ∀ fuel, rounds < fuel →
          explore willing declining Policy.shipped liveness fuel
            = some ⟨1 + (declining + 1) * willing * (willing + 1) / 2, true, 1,
                if liveness final then 0 else 1⟩ := by
  intro start final
  have hstart : InTile willing declining (1, 0, 0) := .inl rfl
  have hrun : ∀ as n, start.run as = some n → ∃ k, n = tile willing declining k
      ∧ InTile willing declining k ∧ progress k = 1 + as.length := fun as n hr =>
    run_inTile hw hstart hr
  refine ⟨fun n => ⟨?_, ?_⟩, fun as n hr => ?_, fun as n hr => ?_, fun liveness =>
    ⟨_, fun fuel hf => explore_shipped hw liveness fuel hf⟩⟩
  · rintro ⟨as, hr⟩
    obtain ⟨k, hn, hk, -⟩ := hrun as n hr
    exact ⟨k, hn, hk⟩
  · rintro ⟨k, rfl, hk⟩
    exact exists_run hk
  · obtain ⟨k, rfl, hk, -⟩ := hrun as n hr
    exact connLeKnown_tile hw hk
  · obtain ⟨k, rfl, hk, hp⟩ := hrun as n hr
    obtain ⟨hle, heq⟩ := progress_le hw hk
    have hterm := terminal_tile hw hk
    refine ⟨by omega, hterm.trans ⟨fun h => congrArg start.setState h, fun h => congrArg state h⟩, ?_⟩
    rw [hterm, ← heq]
    omega

theorem assembles_parity :
    let start := new 3 1 Policy.shipped
    let final := start.setState (3, 1, 3)
    (∀ n, (∃ as, start.run as = some n) ↔
        ∃ k, n = start.setState k ∧ (k = (1, 0, 0) ∨
          1 ≤ k.2.2 ∧ k.2.2 ≤ k.1 ∧ k.1 ≤ 3 ∧ k.2.1 ≤ 1))
      ∧ (∀ as n, start.run as = some n → n.connLeKnown)
      ∧ (∀ as n, start.run as = some n →
          as.length ≤ 6 ∧ (n.terminal ↔ n = final) ∧ (n.terminal ↔ as.length = 6))
      ∧ ∀ liveness, ∃ rounds, ∀ fuel, rounds < fuel →
          explore 3 1 Policy.shipped liveness fuel
            = some ⟨13, true, 1, if liveness final then 0 else 1⟩ :=
  assembles 3 1 (by decide)

end

end Neighbourhood

end Melissi
