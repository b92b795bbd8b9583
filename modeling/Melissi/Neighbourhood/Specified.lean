import Melissi.Common.Fair
import Melissi.Neighbourhood.Supply

/-!
# The specification of the supply, and what the explorer says of it

Reference: `formal-models/tla/Neighbourhood.tla`. Whatever the two choices, the actions only add to
counts that are bounded, and every fair behaviour comes to rest in one state. The explorer of
`crates/neighbourhood/src/explore.rs` looks at finitely many states; its verdicts are those on the
behaviours of the specification.
-/

namespace Melissi

open Melissi.Common

namespace NeighbourhoodSpec

/-- The constants: the populations of the tile, and the two choices. -/
structure Constants where
  Willing : ℕ
  Declining : ℕ
  Gossip : Bool
  ConnectAll : Bool

/-- The variables. -/
@[ext]
structure Vars where
  knownW : ℕ
  knownU : ℕ
  conn : ℕ

def Init : Vars where
  knownW := 1
  knownU := 0
  conn := 0

def Bootstrapped (s : Vars) : Prop := s.conn > 0

variable (K : Constants)

def DiscoverW (s s' : Vars) : Prop :=
  K.Gossip ∧ Bootstrapped s ∧ s.knownW < K.Willing ∧ s' = { s with knownW := s.knownW + 1 }

def DiscoverU (s s' : Vars) : Prop :=
  K.Gossip ∧ Bootstrapped s ∧ s.knownU < K.Declining ∧ s' = { s with knownU := s.knownU + 1 }

def Connect (s s' : Vars) : Prop :=
  s.conn < s.knownW ∧ (K.ConnectAll ∨ ¬ Bootstrapped s) ∧ s' = { s with conn := s.conn + 1 }

/-- The actions, under the names of the explorer's. -/
def Action : Neighbourhood.Act → Vars → Vars → Prop
  | .discoverW => DiscoverW K
  | .discoverU => DiscoverU K
  | .connect => Connect K

def Next : Vars → Vars → Prop := AnyOf (Action K)

/-- A behaviour from the start that is weakly fair to all three. -/
def Spec : (ℕ → Vars) → Prop := FairRun (Action K) (fun _ => True) Init

def Reaches : Vars → Prop := Relation.ReflTransGen (Next K) Init

/-- Never connect a neighbour that was not discovered and willing. -/
def ConnLeKnown (s : Vars) : Prop := s.conn ≤ s.knownW ∧ s.knownW ≤ K.Willing

/-- From some time on the whole neighbourhood is discovered. -/
def DiscoveryFinds (run : ℕ → Vars) : Prop :=
  ∃ n, ∀ m, n ≤ m → (run m).knownW = K.Willing ∧ (run m).knownU = K.Declining

/-- From some time on every willing neighbour is connected. -/
def SupplyComplete (run : ℕ → Vars) : Prop := ∃ n, ∀ m, n ≤ m → (run m).conn = K.Willing

/-! ## Where behaviours end -/

/-- The state in which nothing is left to do. -/
def rest : Vars where
  knownW := if K.Gossip then K.Willing else 1
  knownU := if K.Gossip then K.Declining else 0
  conn := if K.Gossip && K.ConnectAll then K.Willing else 1

/-- What every step keeps: nothing is learnt before the first connection, nor without gossip; and
one peer alone is connected where not all are to be. -/
structure Inv (s : Vars) : Prop where
  knownW : 1 ≤ s.knownW ∧ s.knownW ≤ K.Willing
  knownU : s.knownU ≤ K.Declining
  conn : s.conn ≤ s.knownW
  seed : s.conn = 0 → s.knownW = 1 ∧ s.knownU = 0
  gossip : ¬ K.Gossip → s.knownW = 1 ∧ s.knownU = 0
  single : ¬ K.ConnectAll → s.conn ≤ 1

/-- What is left to discover and to connect. -/
def ahead (s : Vars) : ℕ := (K.Willing - s.knownW) + (K.Declining - s.knownU) + (K.Willing - s.conn)

variable {K} {s s' : Vars}

theorem inv_init (hw : 1 ≤ K.Willing) : Inv K Init where
  knownW := ⟨le_rfl, hw⟩
  knownU := Nat.zero_le _
  conn := Nat.zero_le _
  seed _ := ⟨rfl, rfl⟩
  gossip _ := ⟨rfl, rfl⟩
  single _ := Nat.zero_le _

theorem Inv.next (h : Inv K s) (hs : Next K s s') : Inv K s' := by
  obtain ⟨a, ha⟩ := hs
  cases a with
  | discoverW =>
    obtain ⟨hg, hb, hlt, rfl⟩ := ha
    exact ⟨⟨Nat.le_succ_of_le h.knownW.1, hlt⟩, h.knownU, Nat.le_succ_of_le h.conn,
      fun hz => absurd hb (Nat.not_lt.mpr hz.le), fun hng => absurd hg hng, h.single⟩
  | discoverU =>
    obtain ⟨hg, hb, hlt, rfl⟩ := ha
    exact ⟨h.knownW, hlt, h.conn, fun hz => absurd hb (Nat.not_lt.mpr hz.le),
      fun hng => absurd hg hng, h.single⟩
  | connect =>
    obtain ⟨hlt, hall, rfl⟩ := ha
    refine ⟨h.knownW, h.knownU, hlt, fun hz => absurd hz (Nat.succ_ne_zero _), h.gossip,
      fun hna => ?_⟩
    have hnone := hall.resolve_left hna
    unfold Bootstrapped at hnone
    dsimp only
    omega

theorem ahead_next (h : Inv K s) (hs : Next K s s') : ahead K s' < ahead K s := by
  have hW := h.knownW
  have hC := h.conn
  obtain ⟨a, ha⟩ := hs
  unfold ahead
  cases a with
  | discoverW =>
    obtain ⟨-, -, hlt, rfl⟩ := ha
    dsimp only
    omega
  | discoverU =>
    obtain ⟨-, -, hlt, rfl⟩ := ha
    dsimp only
    omega
  | connect =>
    obtain ⟨hlt, -, rfl⟩ := ha
    dsimp only
    omega

/-- Where no step is left all is done that the choices allow. -/
theorem Inv.eq_rest (h : Inv K s) (hend : ∀ s', ¬ Next K s s') : s = rest K := by
  have hW := h.knownW
  have hU := h.knownU
  have hC := h.conn
  have hdw : ¬ (K.Gossip ∧ Bootstrapped s ∧ s.knownW < K.Willing) := fun hdo =>
    hend _ ⟨.discoverW, hdo.1, hdo.2.1, hdo.2.2, rfl⟩
  have hdu : ¬ (K.Gossip ∧ Bootstrapped s ∧ s.knownU < K.Declining) := fun hdo =>
    hend _ ⟨.discoverU, hdo.1, hdo.2.1, hdo.2.2, rfl⟩
  have hcn : ¬ (s.conn < s.knownW ∧ (K.ConnectAll ∨ ¬ Bootstrapped s)) := fun hdo =>
    hend _ ⟨.connect, hdo.1, hdo.2, rfl⟩
  unfold Bootstrapped at hdw hdu hcn
  have hpos : 0 < s.conn := by
    by_contra hz
    exact hcn ⟨by omega, .inr hz⟩
  have hallW : K.Gossip → s.knownW = K.Willing := fun hg => by
    by_contra hne
    exact hdw ⟨hg, hpos, by omega⟩
  have hallU : K.Gossip → s.knownU = K.Declining := fun hg => by
    by_contra hne
    exact hdu ⟨hg, hpos, by omega⟩
  have hallC : K.ConnectAll → s.conn = s.knownW := fun hca => by
    by_contra hne
    exact hcn ⟨by omega, .inl hca⟩
  ext <;> dsimp only [rest]
  · split
    · next hg => exact hallW hg
    · next hg => exact (h.gossip hg).1
  · split
    · next hg => exact hallU hg
    · next hg => exact (h.gossip hg).2
  · split
    · next hboth =>
      obtain ⟨hg, hca⟩ := Bool.and_eq_true _ _ ▸ hboth
      rw [hallC hca, hallW hg]
    · next hboth =>
      by_cases hca : K.ConnectAll
      · have hng : ¬ K.Gossip := fun hg => hboth (by rw [hg, hca]; rfl)
        rw [hallC hca, (h.gossip hng).1]
      · have hone := h.single hca
        omega

/-- There no step is left. -/
theorem ended_rest (h : Inv K (rest K)) (s' : Vars) : ¬ Next K (rest K) s' := by
  rintro ⟨a, ha⟩
  cases a with
  | discoverW =>
    obtain ⟨hg, -, hlt, -⟩ := ha
    simp [rest, hg] at hlt
  | discoverU =>
    obtain ⟨hg, -, hlt, -⟩ := ha
    simp [rest, hg] at hlt
  | connect =>
    obtain ⟨hlt, hall, -⟩ := ha
    have hconn := h.conn
    unfold Bootstrapped at hall
    simp only [rest] at hlt hall hconn
    cases hg : K.Gossip <;> cases hca : K.ConnectAll <;>
      simp [hg, hca] at hlt hall hconn

/-- No step is left in one state only. -/
theorem Inv.ended_iff (h : Inv K s) : (∀ s', ¬ Next K s s') ↔ s = rest K := by
  constructor
  · exact h.eq_rest
  · rintro rfl
    exact ended_rest h

theorem Reaches.inv (hw : 1 ≤ K.Willing) (h : Reaches K s) : Inv K s :=
  invariant_of_reachable (fun _ _ hi hs => hi.next hs) (inv_init hw) h

/-- Every fair behaviour comes to rest in the one state. -/
theorem Spec.rests {run : ℕ → Vars} (h : Spec K run) (hw : 1 ≤ K.Willing) :
    ∃ n, ∀ m, n ≤ m → run m = rest K := by
  obtain ⟨n, hstill, hend⟩ := FairRun.rests h (acc_of_rank (ahead K)
    (fun _ _ hi hs => Inv.next hi hs) (fun _ _ hi hs => ahead_next hi hs) (inv_init hw))
  have hinv : Inv K (run n) := Reaches.inv hw (FairRun.reaches h n)
  refine ⟨n, fun m hm => (hstill m hm).trans (hinv.ended_iff.mp ?_)⟩
  rintro s' ⟨a, ha⟩
  exact hend a trivial s' ha

theorem exists_spec (hw : 1 ≤ K.Willing) : ∃ run, Spec K run :=
  exists_fairRun_of_rank (ahead K) (fun _ _ hi hs => Inv.next hi hs)
    (fun _ _ hi hs => ahead_next hi hs) (inv_init hw)

/-- What holds of every fair behaviour in the end is what holds where they rest. -/
theorem eventually_iff (hw : 1 ≤ K.Willing) (Q : Vars → Prop) :
    (∀ run, Spec K run → ∃ n, ∀ m, n ≤ m → Q (run m)) ↔ Q (rest K) := by
  constructor
  · intro h
    obtain ⟨run, hrun⟩ := exists_spec (K := K) hw
    obtain ⟨n, hn⟩ := h run hrun
    obtain ⟨l, hl⟩ := hrun.rests hw
    exact hl (max n l) (le_max_right n l) ▸ hn (max n l) (le_max_left n l)
  · intro hq run hrun
    obtain ⟨n, hn⟩ := hrun.rests hw
    exact ⟨n, fun m hm => hn m hm ▸ hq⟩

/-- The rest is reached. -/
theorem reaches_rest (hw : 1 ≤ K.Willing) : Reaches K (rest K) := by
  obtain ⟨run, hrun⟩ := exists_spec (K := K) hw
  obtain ⟨n, hn⟩ := hrun.rests hw
  exact hn n le_rfl ▸ FairRun.reaches hrun n

/-- Discovery finds the neighbourhood exactly with gossip, or where the seed is all of it. -/
theorem discoveryFinds_iff (hw : 1 ≤ K.Willing) : (∀ run, Spec K run → DiscoveryFinds K run)
    ↔ K.Gossip ∨ K.Willing = 1 ∧ K.Declining = 0 := by
  refine (eventually_iff hw fun s => s.knownW = K.Willing ∧ s.knownU = K.Declining).trans ?_
  by_cases hg : K.Gossip
  · simp [rest, hg]
  · rw [or_iff_right hg]
    simp only [rest, if_neg hg]
    exact and_congr eq_comm eq_comm

/-- The supply is complete exactly with both choices made, or where the seed is all of it. -/
theorem supplyComplete_iff (hw : 1 ≤ K.Willing) : (∀ run, Spec K run → SupplyComplete K run)
    ↔ K.Gossip ∧ K.ConnectAll ∨ K.Willing = 1 := by
  refine (eventually_iff hw fun s => s.conn = K.Willing).trans ?_
  by_cases hboth : K.Gossip ∧ K.ConnectAll
  · simp [rest, hboth]
  · have hnot : ¬ (K.Gossip && K.ConnectAll) = true := fun h => hboth (Bool.and_eq_true _ _ ▸ h)
    rw [or_iff_right hboth]
    simp only [rest, if_neg hnot]
    exact eq_comm

theorem Inv.connLeKnown (h : Inv K s) : ConnLeKnown K s := ⟨h.conn, h.knownW.2⟩

end NeighbourhoodSpec

/-! ## The explorer -/

namespace Neighbourhood

open NeighbourhoodSpec (Vars Reaches Inv rest)

/-- The constants of a tile under a policy. -/
def constants (willing declining : ℕ) (policy : Policy) : NeighbourhoodSpec.Constants where
  Willing := willing
  Declining := declining
  Gossip := policy.gossip
  ConnectAll := policy.connectAll

/-- The variables at a state of the explorer. -/
def vars (k : ℕ × ℕ × ℕ) : Vars := ⟨k.1, k.2.1, k.2.2⟩

/-- The explorer's state at given variables. -/
def key (s : Vars) : ℕ × ℕ × ℕ := (s.knownW, s.knownU, s.conn)

theorem vars_injective : Function.Injective vars :=
  Function.LeftInverse.injective (g := key) fun _ => rfl

section

variable {willing declining : ℕ} {policy : Policy}

/-- An action of the explorer applies, and leads somewhere, where that of the specification does. -/
theorem applies_iff (a : Act) (k k' : ℕ × ℕ × ℕ) :
    ((a.apply ((new willing declining policy).setState k)).2
        ∧ (a.apply ((new willing declining policy).setState k)).1.state = k')
      ↔ NeighbourhoodSpec.Action (constants willing declining policy) a (vars k) (vars k') := by
  cases a with
  | discoverW =>
    simp only [Act.apply, discoverW_eq]
    split
    · next h => exact ⟨fun hk => ⟨h.1, h.2.1, h.2.2, hk.2 ▸ rfl⟩,
        fun hk => ⟨rfl, vars_injective hk.2.2.2.symm⟩⟩
    · next h => exact ⟨fun hk => absurd hk.1 Bool.false_ne_true,
        fun hk => absurd ⟨hk.1, hk.2.1, hk.2.2.1⟩ h⟩
  | discoverU =>
    simp only [Act.apply, discoverU_eq]
    split
    · next h => exact ⟨fun hk => ⟨h.1, h.2.1, h.2.2, hk.2 ▸ rfl⟩,
        fun hk => ⟨rfl, vars_injective hk.2.2.2.symm⟩⟩
    · next h => exact ⟨fun hk => absurd hk.1 Bool.false_ne_true,
        fun hk => absurd ⟨hk.1, hk.2.1, hk.2.2.1⟩ h⟩
  | connect =>
    -- connected to nobody is not connected to at least one
    have hnone : ∀ c : ℕ, c = 0 ↔ ¬ c > 0 := fun c => by omega
    simp only [Act.apply, connect_eq, hnone]
    split
    · next h => exact ⟨fun hk => ⟨h.1, h.2, hk.2 ▸ rfl⟩,
        fun hk => ⟨rfl, vars_injective hk.2.2.symm⟩⟩
    · next h => exact ⟨fun hk => absurd hk.1 Bool.false_ne_true,
        fun hk => absurd ⟨hk.1, hk.2.1⟩ h⟩

/-- The explorer's successors are the next states of the specification. -/
theorem mem_succs {k k' : ℕ × ℕ × ℕ} : k' ∈ succs ((new willing declining policy).setState k)
    ↔ NeighbourhoodSpec.Next (constants willing declining policy) (vars k) (vars k') := by
  simp only [succs, List.mem_filterMap, Option.ite_none_right_eq_some, Option.some.injEq,
    applies_iff]
  constructor
  · rintro ⟨a, -, ha⟩
    exact ⟨a, ha⟩
  · rintro ⟨a, ha⟩
    exact ⟨a, by cases a <;> simp [actions], ha⟩

/-- Nothing applies where the specification has no next state. -/
theorem terminal_iff {k : ℕ × ℕ × ℕ} : ((new willing declining policy).setState k).terminal
    ↔ ∀ s', ¬ NeighbourhoodSpec.Next (constants willing declining policy) (vars k) s' := by
  have hall : ∀ n : Neighbourhood, n.terminal ↔ ∀ a : Act, ¬ (a.apply n).2 := fun n => by
    simp only [terminal, Bool.and_eq_true, Bool.not_eq_true', Bool.not_eq_true]
    exact ⟨fun h a => by cases a <;> simp [Act.apply, h],
      fun h => ⟨⟨h .discoverW, h .discoverU⟩, h .connect⟩⟩
  rw [hall]
  constructor
  · rintro h s' ⟨a, ha⟩
    exact h a ((applies_iff a k (key s')).mpr ha).1
  · intro h a ha
    exact h _ ⟨a, (applies_iff a k _).mp ⟨ha, rfl⟩⟩

/-- What the explorer can reach is what the specification can. -/
theorem reaches_key {k : ℕ × ℕ × ℕ} :
    Relation.ReflTransGen (Common.Next fun k => succs ((new willing declining policy).setState k))
        (1, 0, 0) k ↔ Reaches (constants willing declining policy) (vars k) := by
  constructor
  · exact fun h => h.lift vars fun _ _ hs => mem_succs.mp hs
  · intro h
    have hstep : ∀ s s', NeighbourhoodSpec.Next (constants willing declining policy) s s' →
        Common.Next (fun k => succs ((new willing declining policy).setState k)) (key s) (key s') :=
      fun _ _ hs => mem_succs.mpr hs
    exact Relation.ReflTransGen.lift key hstep _ _ h

/-- The explorer ends with a report on what can be reached. -/
theorem explore_returns (willing declining : ℕ) (policy : Policy) (hw : 1 ≤ willing)
    (liveness : Neighbourhood → Bool) :
    ∃ seen : List (ℕ × ℕ × ℕ), seen.Nodup
      ∧ (∀ k, k ∈ seen ↔ Reaches (constants willing declining policy) (vars k))
      ∧ ∃ rounds, ∀ fuel, rounds < fuel → explore willing declining policy liveness fuel
          = some (reportOn (new willing declining policy) liveness seen) := by
  set start := new willing declining policy with hstart
  set box := Finset.range (willing + 1) ×ˢ Finset.range (declining + 1) ×ˢ Finset.range (willing + 1)
    with hbox
  have hfin : ∀ k, Relation.ReflTransGen (Common.Next fun k => succs (start.setState k))
      start.state k → k ∈ box := by
    intro k hk
    have hinv := (reaches_key.mp hk).inv hw
    have hW : k.1 ≤ willing := hinv.knownW.2
    have hU : k.2.1 ≤ declining := hinv.knownU
    have hC : k.2.2 ≤ k.1 := hinv.conn
    simp only [hbox, Finset.mem_product, Finset.mem_range]
    omega
  obtain ⟨r, hr, s, ⟨seen, n, hs, hl, hrep⟩, hround⟩ := @iterate_returns _ _
    (Search.round start liveness) (Underway start liveness)
    (fun s => box.card - s.report.distinct) (by
      rintro s s' ⟨seen, n, hs, hl, hrep⟩ hround
      rcases round_spec hs hl hrep with ⟨hret, -⟩ | ⟨s'', seen', hgo, hlt, hs', hl', hrep'⟩
      · rw [hret] at hround
        cases hround
      · obtain rfl : s'' = s' := by simpa [hgo] using hround
        refine ⟨⟨seen', n + 1, hs', hl', hrep'⟩, ?_⟩
        have hle := hs.length_le hfin
        have hlen := hl'.le
        rw [hrep, hrep']
        simp only [reportOn, List.length_take]
        omega)
    { seen := {start.state}, queue := [start.state], report := ⟨0, true, 0, 0⟩ }
    ⟨[start.state], 0, .init _ _, ⟨by simp, rfl, Nat.zero_le _⟩, rfl⟩
  rcases round_spec hs hl hrep with ⟨hret, rfl⟩ | ⟨s', seen', hgo, -⟩
  · rw [hret] at hround
    obtain rfl := Sum.inr.inj hround
    exact ⟨seen, hs.nodup, fun k => hs.mem_iff.trans reaches_key, _, hr⟩
  · rw [hgo] at hround
    cases hround

/-- The explorer decides the specification. Whatever the policy, its count is that of the states
that can be reached, all of them safe, and one is terminal; and no terminal violates a predicate
exactly where every fair behaviour satisfies it from some time on. So it says for which policies
discovery finds the neighbourhood and the supply is complete. -/
theorem explore_decides (willing declining : ℕ) (hw : 1 ≤ willing) (policy : Policy) :
    let K := constants willing declining policy
    let node := fun s : Vars => (new willing declining policy).setState (key s)
    (∀ run, NeighbourhoodSpec.Spec K run → ∃ n, ∀ m, n ≤ m → run m = rest K)
      ∧ ((∀ run, NeighbourhoodSpec.Spec K run → NeighbourhoodSpec.DiscoveryFinds K run)
        ↔ policy.gossip ∨ willing = 1 ∧ declining = 0)
      ∧ ((∀ run, NeighbourhoodSpec.Spec K run → NeighbourhoodSpec.SupplyComplete K run)
        ↔ policy.gossip ∧ policy.connectAll ∨ willing = 1)
      ∧ (∀ s, Reaches K s → NeighbourhoodSpec.ConnLeKnown K s)
      ∧ ∀ liveness, ∃ report rounds, (∀ fuel, rounds < fuel →
            explore willing declining policy liveness fuel = some report)
          ∧ report.distinct = {s | Reaches K s}.ncard ∧ report.safe ∧ report.terminals = 1
          ∧ (report.badTerminals = 0 ↔ ∀ run, NeighbourhoodSpec.Spec K run →
              ∃ n, ∀ m, n ≤ m → liveness (node (run m))) := by
  intro K node
  have hK : 1 ≤ K.Willing := hw
  refine ⟨fun run h => NeighbourhoodSpec.Spec.rests h hK, NeighbourhoodSpec.discoveryFinds_iff hK,
    NeighbourhoodSpec.supplyComplete_iff hK, fun s hs => (hs.inv hK).connLeKnown,
    fun liveness => ?_⟩
  obtain ⟨seen, hnodup, hmem, rounds, hret⟩ := explore_returns willing declining policy hw liveness
  have hlast : key (rest K) ∈ seen := (hmem _).mpr (NeighbourhoodSpec.reaches_rest hK)
  have hterm : ∀ k ∈ seen, ((new willing declining policy).setState k).terminal
      ↔ k = key (rest K) := fun k hk =>
    (terminal_iff.trans (((hmem k).mp hk).inv hK).ended_iff).trans
      ⟨fun h => congrArg key h, fun h => congrArg vars h⟩
  have hstates : {s | Reaches K s} = vars '' (seen.toFinset : Set (ℕ × ℕ × ℕ)) := by
    ext s
    simp only [Set.mem_image, Finset.mem_coe, List.mem_toFinset, hmem]
    constructor
    · exact fun hs => ⟨key s, hs, rfl⟩
    · rintro ⟨k, hk, rfl⟩
      exact hk
  refine ⟨_, rounds, hret, ?_, ?_, ?_, ?_⟩
  · rw [hstates, Set.ncard_image_of_injective _ vars_injective, Set.ncard_coe_finset,
      List.toFinset_card_of_nodup hnodup]
    rfl
  · refine List.all_eq_true.mpr fun k hk => ?_
    obtain ⟨hC, hW⟩ := (((hmem k).mp hk).inv hK).connLeKnown
    exact Bool.and_eq_true _ _ ▸ ⟨decide_eq_true hC, decide_eq_true hW⟩
  · simp only [reportOn]
    rw [← List.count_eq_one_of_mem hnodup hlast, List.count]
    refine List.countP_congr fun k hk => ?_
    rw [beq_iff_eq]
    exact hterm k hk
  · refine Iff.trans ?_ (NeighbourhoodSpec.eventually_iff hK fun s => liveness (node s)).symm
    simp only [reportOn, List.countP_eq_zero, Bool.and_eq_true, Bool.not_eq_true', not_and,
      Bool.not_eq_false]
    exact ⟨fun h => h _ hlast ((hterm _ hlast).mpr rfl),
      fun h k hk hk' => (hterm k hk).mp hk' ▸ h⟩

/-- The rows of the parity tests: the seed alone is no supply of three. -/
theorem explore_decides_parity :
    (∀ run, NeighbourhoodSpec.Spec (constants 3 1 Policy.shipped) run →
        NeighbourhoodSpec.SupplyComplete (constants 3 1 Policy.shipped) run)
      ∧ ¬ (∀ run, NeighbourhoodSpec.Spec (constants 3 1 ⟨false, true⟩) run →
        NeighbourhoodSpec.DiscoveryFinds (constants 3 1 ⟨false, true⟩) run)
      ∧ ¬ (∀ run, NeighbourhoodSpec.Spec (constants 3 1 ⟨true, false⟩) run →
        NeighbourhoodSpec.SupplyComplete (constants 3 1 ⟨true, false⟩) run) := by
  refine ⟨(explore_decides 3 1 (by decide) _).2.2.1.mpr (.inl ⟨rfl, rfl⟩), fun h => ?_, fun h => ?_⟩
  · exact absurd ((explore_decides 3 1 (by decide) _).2.1.mp h) (by decide)
  · exact absurd ((explore_decides 3 1 (by decide) _).2.2.1.mp h) (by decide)

end

end Neighbourhood

end Melissi
