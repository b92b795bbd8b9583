import Melissi.Puller.Sound
import Melissi.Sim.State

/-!
# Each node of the neighbourhood is a puller among its peers

What a node has asked and not been told is spread over the neighbourhood: its requests in flight,
its offers parked at other nodes, and the responses on their way back. Counted together they are
what the shell of one puller has pending, so that the neighbourhood, as one node sees it, is a
puller and the append logs of its peers.
-/

namespace Melissi.Sim

open Melissi.Common Melissi.Machine Melissi.Settlement Melissi.Node Melissi.Puller
open Std (ExtTreeMap ExtTreeSet)

/-! ## Lists -/

/-- Swapping out takes out one element. -/
theorem swapRemove_perm {α : Type} {l : List α} {i : ℕ} {a : α} (h : l[i]? = some a) :
    (a :: swapRemove l i).Perm l := by
  rcases List.eq_nil_or_concat l with rfl | ⟨l, z, rfl⟩
  · simp at h
  · rw [List.concat_eq_append] at h ⊢
    have hlast : (l ++ [z]).getLast? = some z := by simp
    simp only [swapRemove, hlast]
    rcases Nat.lt_or_ge i l.length with hi | hi
    · rw [List.getElem?_append_left hi, List.getElem?_eq_getElem hi, Option.some.injEq] at h
      subst h
      rw [List.set_append_left _ _ hi, List.dropLast_concat]
      have hset := (List.set_perm_cons_eraseIdx hi z).cons l[i]
      have hold := List.getElem_cons_eraseIdx_perm hi
      exact (hset.trans (.swap _ _ _)).trans
        ((hold.cons z).trans (List.perm_append_singleton z l).symm)
    · rw [List.getElem?_append_right hi] at h
      obtain ⟨hlen, rfl⟩ : i - l.length = 0 ∧ z = a := by
        cases hd : i - l.length with
        | zero => simpa [hd] using h
        | succ d => simp [hd] at h
      rw [List.set_append_right _ _ hi, hlen, List.set_cons_zero, List.dropLast_concat]
      exact (List.perm_append_singleton z l).symm

/-! ## What a node has outstanding -/

/-- The effect a response answers. -/
def answers : Event Triple → Option (Effect Triple)
  | .cursorsResult p _ => some (.getCursors p)
  | .offerResult p b start _ _ => some (.offer p b start)
  | .fetchResult p b outcomes => some (.fetch p b (outcomes.map (·.1)))
  | _ => none

/-- The message carries the effect of a node, or its answer. -/
def Msg.carries (i : ℕ) (fx : Effect Triple) : Msg → Bool
  | .req sender eff => decide (sender = i ∧ eff = fx)
  | .resp receiver ev => decide (receiver = i ∧ answers ev = some fx)

/-- How often an effect of a node is parked at its peer. -/
def parkedFor (s : Sim) (i : ℕ) : Effect Triple → ℕ
  | .offer p b start => (s.nodes p.toNat).parked.count (i, b, start)
  | _ => 0

/-- How often an effect of a node is neither answered nor lost. -/
def outstanding (s : Sim) (i : ℕ) (fx : Effect Triple) : ℕ :=
  s.queue.countP (Msg.carries i fx) + s.parkedFor i fx

theorem outstanding_post (s : Sim) (msgs : List Msg) (i : ℕ) (fx : Effect Triple) :
    (s.post msgs).outstanding i fx = s.outstanding i fx + msgs.countP (Msg.carries i fx) := by
  have hparked : (s.post msgs).parkedFor i fx = s.parkedFor i fx := by
    cases fx <;> rfl
  rw [outstanding, outstanding, hparked, post, List.countP_append]
  omega

/-- Nodes that park the same leave the same outstanding. -/
theorem outstanding_congr {s s' : Sim} (hq : s'.queue = s.queue)
    (hp : ∀ j, (s'.nodes j).parked = (s.nodes j).parked) (i : ℕ) (fx : Effect Triple) :
    s'.outstanding i fx = s.outstanding i fx := by
  have hparked : s'.parkedFor i fx = s.parkedFor i fx := by
    cases fx <;> simp [parkedFor, hp]
  rw [outstanding, outstanding, hparked, hq]

/-! ## Feeding and storing -/

theorem nodes_setNode (s : Sim) (i j : ℕ) (n : SimNode) :
    (s.setNode i n).nodes j = if j = i then n else s.nodes j := by
  exact Function.update_apply s.nodes i n j

@[simp] theorem nodes_post (s : Sim) (msgs : List Msg) : (s.post msgs).nodes = s.nodes := rfl

/-- A node that parks the same leaves the same outstanding. -/
theorem outstanding_setNode {s : Sim} {i : ℕ} {n : SimNode} (hp : n.parked = (s.nodes i).parked)
    (j : ℕ) (fx : Effect Triple) : (s.setNode i n).outstanding j fx = s.outstanding j fx := by
  have hparked : ∀ j, ((s.setNode i n).nodes j).parked = (s.nodes j).parked := fun j => by
    rw [nodes_setNode]
    split
    · next h => rw [hp, h]
    · rfl
  exact @outstanding_congr s (s.setNode i n) rfl hparked j fx

theorem outstanding_feed (s : Sim) (i j : ℕ) (ev : Event Triple) (fx : Effect Triple) :
    (s.feed i ev).outstanding j fx = s.outstanding j fx
      + if i = j then ((s.nodes i).puller.handle ev).2.count fx else 0 := by
  rw [feed, outstanding_post, outstanding_setNode (n := { s.nodes i with
    puller := ((s.nodes i).puller.handle ev).1 }) rfl, List.countP_map]
  congr 1
  split
  · next h =>
    rw [List.count]
    refine List.countP_congr fun e _ => ?_
    simp [Msg.carries, h]
  · next h =>
    rw [List.countP_eq_zero]
    simp [Msg.carries, h]

/-- Feeding an event changes the puller of its node, and sends what it emits. -/
theorem nodes_feed (s : Sim) (i j : ℕ) (ev : Event Triple) : (s.feed i ev).nodes j
    = if j = i then { s.nodes i with puller := ((s.nodes i).puller.handle ev).1 } else s.nodes j := by
  rw [feed, nodes_post, nodes_setNode]

theorem puller_feed (s : Sim) (i j : ℕ) (ev : Event Triple) : ((s.feed i ev).nodes j).puller
    = if j = i then ((s.nodes i).puller.handle ev).1 else (s.nodes j).puller := by
  rw [nodes_feed]
  split <;> rfl

/-- Only the pullers are fed. -/
theorem feed_frame {τ : Type} (f : SimNode → τ) (hf : ∀ n puller, f { n with puller := puller } = f n)
    (s : Sim) (i j : ℕ) (ev : Event Triple) : f ((s.feed i ev).nodes j) = f (s.nodes j) := by
  rw [nodes_feed]
  split
  · next h => rw [hf, h]
  · rfl

/-- The node once `c` stands at the end of its bin. -/
def SimNode.grow (n : SimNode) (c : Triple) : SimNode :=
  { n with
    index := n.index.insert c
    reserve := n.reserve.insert (binOf c)
      ((n.log (binOf c)).append (n.head (binOf c) + 1) c (Nat.lt_succ_self _))
    parked := n.parked.filter fun e =>
      !(e.2.1 == binOf c && decide (n.head (binOf c) + 1 ≥ e.2.2)) }

/-- The parked offers that `c` answers. -/
def SimNode.ready (n : SimNode) (c : Triple) : List (ℕ × Bin × ℕ) :=
  n.parked.filter fun e => e.2.1 == binOf c && decide (n.head (binOf c) + 1 ≥ e.2.2)

theorem SimNode.log_grow_self (n : SimNode) (c : Triple) : (n.grow c).log (binOf c)
    = (n.log (binOf c)).append (n.head (binOf c) + 1) c (Nat.lt_succ_self _) := by
  simp [grow, log]

theorem SimNode.log_grow_ne (n : SimNode) {c : Triple} {bin : Bin} (h : bin ≠ binOf c) :
    (n.grow c).log bin = n.log bin := by
  simp [grow, log, ExtTreeMap.getElem?_insert, Ne.symm h]

theorem SimNode.head_grow (n : SimNode) (c : Triple) :
    (n.grow c).head (binOf c) = n.head (binOf c) + 1 := by
  rw [head, log_grow_self, AppendLog.head_append]

theorem SimNode.mem_index_grow (n : SimNode) (c d : Triple) :
    d ∈ (n.grow c).index ↔ c = d ∨ d ∈ n.index := by
  rw [grow, ExtTreeSet.mem_insert, compare_eq_iff_eq]

theorem SimNode.mem_log_grow (n : SimNode) (c : Triple) (bin : Bin) (e : ℕ × Triple) :
    e ∈ ((n.grow c).log bin).entries ↔ e ∈ (n.log bin).entries
      ∨ bin = binOf c ∧ e = (n.head (binOf c) + 1, c) := by
  by_cases hb : bin = binOf c
  · subst hb
    rw [log_grow_self, AppendLog.mem_append]
    simp
  · rw [log_grow_ne _ hb]
    simp [hb]

/-- A node that indexes what its logs hold does so with one more triple. -/
theorem SimNode.filed_grow {n : SimNode}
    (h : ∀ d, d ∈ n.index ↔ ∃ b, (b, d) ∈ (n.log (binOf d)).entries) (c d : Triple) :
    d ∈ (n.grow c).index ↔ ∃ b, (b, d) ∈ ((n.grow c).log (binOf d)).entries := by
  simp only [mem_log_grow]
  rw [mem_index_grow, h d]
  constructor
  · rintro (rfl | ⟨b, hb⟩)
    · exact ⟨_, .inr ⟨rfl, rfl⟩⟩
    · exact ⟨b, .inl hb⟩
  · rintro ⟨b, hb | ⟨-, hb⟩⟩
    · exact .inr ⟨b, hb⟩
    · exact .inl (Prod.ext_iff.mp hb).2.symm

theorem SimNode.binned_grow {n : SimNode}
    (h : ∀ bin b d, (b, d) ∈ (n.log bin).entries → binOf d = bin) (c : Triple) (bin : Bin) (b : ℕ)
    (d : Triple) (hd : (b, d) ∈ ((n.grow c).log bin).entries) : binOf d = bin := by
  rcases (n.mem_log_grow c bin _).mp hd with hold | ⟨hbin, hnew⟩
  · exact h bin b d hold
  · rw [hbin, show d = c from (Prod.ext_iff.mp hnew).2]

theorem store_known {s : Sim} {i : ℕ} {c : Triple} (h : c ∈ (s.nodes i).index) :
    s.store i c = s := by
  rw [store]
  simp [h]

theorem store_new {s : Sim} {i : ℕ} {c : Triple} (h : c ∉ (s.nodes i).index) :
    s.store i c = (s.setNode i ((s.nodes i).grow c)).post (((s.nodes i).ready c).map fun e =>
      .resp e.1 ((s.setNode i ((s.nodes i).grow c)).offerResponse i e.2.1 e.2.2)) := by
  have hno : (s.nodes i).index.contains c = false := (set_contains_eq_false _ _).mpr h
  rw [store]
  simp only [hno, Bool.false_eq_true, if_false]
  have htwice : ∀ n n' : SimNode, (s.setNode i n).setNode i n' = s.setNode i n' := fun n n' => by
    simp [setNode]
  simp only [nodes_setNode, if_true, htwice]
  have hhead : ∀ index parked, (SimNode.mk (s.nodes i).puller (s.nodes i).byzantine
      ((s.nodes i).reserve.insert (binOf c) (((s.nodes i).log (binOf c)).append
        ((s.nodes i).head (binOf c) + 1) c (Nat.lt_succ_self _))) index parked).head (binOf c)
      = (s.nodes i).head (binOf c) + 1 := fun index parked => by
    simp [SimNode.head, SimNode.log]
  rw [hhead]
  rfl

theorem nodes_store {s : Sim} {i : ℕ} {c : Triple} (hnew : c ∉ (s.nodes i).index) (j : ℕ) :
    (s.store i c).nodes j = if j = i then (s.nodes i).grow c else s.nodes j := by
  rw [store_new hnew, nodes_post, nodes_setNode]

/-- Preloading changes the puller of its node only. -/
theorem preload_frame {τ : Type} (f : SimNode → τ)
    (hf : ∀ n puller, f { n with puller := puller } = f n) (s : Sim) (i : ℕ) (c : Triple) (j : ℕ) :
    f ((s.preload i c).nodes j) = f (s.nodes j) := by
  rw [preload, nodes_setNode]
  split
  · next h => rw [hf, h]
  · rfl

theorem outstanding_preload (s : Sim) (i : ℕ) (c : Triple) (j : ℕ) (fx : Effect Triple) :
    (s.preload i c).outstanding j fx = s.outstanding j fx :=
  outstanding_setNode (n := { s.nodes i with puller := ((s.nodes i).puller.preload c).1 }) rfl j fx

theorem toNat_peerId {i : ℕ} (hi : i < 256) : (peerId i).toNat = i :=
  UInt8.toNat_ofNat_of_lt' hi

theorem peerId_toNat (p : PeerId) : peerId p.toNat = p := by
  simp [peerId]

/-- The offers that growing answers are those it takes off the parked ones. -/
theorem count_ready_add_grow (n : SimNode) (c : Triple) (e : ℕ × Bin × ℕ) :
    (n.ready c).count e + (n.grow c).parked.count e = n.parked.count e := by
  rw [← (List.filter_append_perm (fun e : ℕ × Bin × ℕ =>
    e.2.1 == binOf c && decide (n.head (binOf c) + 1 ≥ e.2.2)) n.parked).count_eq e, List.count_append]
  rfl

/-- Storing answers what it takes off the parked offers. -/
theorem outstanding_store (s : Sim) {i : ℕ} (hi : i < 256) (c : Triple) (j : ℕ)
    (fx : Effect Triple) : (s.store i c).outstanding j fx = s.outstanding j fx := by
  by_cases hc : c ∈ (s.nodes i).index
  · rw [store_known hc]
  rw [store_new hc, outstanding_post, outstanding, outstanding, List.countP_map]
  change s.queue.countP _ + _ + _ = _
  rw [Nat.add_assoc]
  congr 1
  cases fx with
  | offer p b start =>
    have hcarries : ∀ e : ℕ × Bin × ℕ, (Msg.carries j (.offer p b start) ∘ fun e : ℕ × Bin × ℕ =>
        .resp e.1 ((s.setNode i ((s.nodes i).grow c)).offerResponse i e.2.1 e.2.2)) e
        = decide (peerId i = p ∧ e = (j, b, start)) := fun e => by
      simp [Msg.carries, offerResponse, answers, Prod.ext_iff]
      grind
    simp only [parkedFor, nodes_setNode, funext hcarries]
    by_cases hp : p.toNat = i
    · have hpi : peerId i = p := by rw [← hp, peerId_toNat]
      have hcount : ((s.nodes i).ready c).countP (fun e => decide (peerId i = p ∧ e = (j, b, start)))
          = ((s.nodes i).ready c).count (j, b, start) := by
        rw [List.count]
        refine List.countP_congr fun e _ => ?_
        simp [hpi]
      rw [hcount, if_pos hp, hp, Nat.add_comm, count_ready_add_grow]
    · have hpi : peerId i ≠ p := fun h => hp (by rw [← h, toNat_peerId hi])
      rw [if_neg hp, Nat.add_eq_left, List.countP_eq_zero]
      simp [hpi]
  | _ =>
    simp only [parkedFor]
    rw [Nat.zero_add, List.countP_eq_zero]
    simp [Msg.carries, offerResponse, answers]

/-! ## The neighbourhood as one node sees it -/

/-- The peers of a node: all the others. -/
def peersOf (k i : ℕ) : List PeerId := ((List.range k).filter fun j => j ≠ i).map peerId

/-- What one node pulls from. Nobody's entries are faulty. -/
def setting (k : ℕ) (policy : Policy) (hwin : 1 ≤ policy.window) (i : ℕ) (held : List Triple) :
    Setting Triple where
  policy := policy
  radius := radius
  held := held
  peers := peersOf k i
  bins _ := bins
  bad _ := false
  window := hwin
  held_good := by simp

/-- The world of a puller is the neighbourhood as its node sees it: the same puller, the logs of the
peers, and pending whatever is outstanding. -/
structure Mirrors (s : Sim) (i : ℕ) (w : World Triple) : Prop where
  node : w.node = (s.nodes i).puller
  logs : ∀ k : PeerBin, w.logs k = (s.nodes k.peer.toNat).log k.bin
  pending : ∀ fx, (∀ p b upto, fx ≠ .settled p b upto) → w.pending.count fx = s.outstanding i fx

namespace Mirrors

variable {s : Sim} {i j : ℕ} {w : World Triple}

theorem mem_pending (h : Mirrors s i w) {fx : Effect Triple} (hfx : ∀ p b upto, fx ≠ .settled p b upto) :
    fx ∈ w.pending ↔ 0 < s.outstanding i fx := by
  rw [← h.pending fx hfx, List.count_pos_iff]

/-- A message that carries an effect of a node shows that it is pending. -/
theorem pending_of_carries (h : Mirrors s i w) {m : Msg} (hm : m ∈ s.queue) {fx : Effect Triple}
    (hfx : ∀ p b upto, fx ≠ .settled p b upto) (hc : m.carries i fx) : fx ∈ w.pending := by
  rw [h.mem_pending hfx]
  exact Nat.lt_of_lt_of_le (List.countP_pos_iff.mpr ⟨m, hm, hc⟩) (Nat.le_add_right _ _)

theorem congr {s' : Sim} (h : Mirrors s i w) (hp : (s'.nodes i).puller = (s.nodes i).puller)
    (hl : ∀ j, (s'.nodes j).log = (s.nodes j).log)
    (ho : ∀ fx, (∀ p b upto, fx ≠ .settled p b upto) → s'.outstanding i fx = s.outstanding i fx) :
    Mirrors s' i w where
  node := h.node.trans hp.symm
  logs k := by rw [hl]; exact h.logs k
  pending fx hfx := (h.pending fx hfx).trans (ho fx hfx).symm

/-- Told what it has asked for, a node moves as a puller does. -/
theorem feed {mv : Move Triple} (h : Mirrors (s.post [.resp i mv.event]) i w)
    (ha : answers mv.event = mv.answered) :
    Mirrors (s.feed i mv.event) i { w with shell := w.shell.next mv } := by
  have hnode : w.shell.node = (s.nodes i).puller := h.node
  refine ⟨?_, fun k => ?_, fun fx hfx => ?_⟩
  · rw [puller_feed, if_pos rfl, ← hnode]
    rfl
  · rw [feed_frame SimNode.log (fun _ _ => rfl)]
    exact h.logs k
  · have hold := h.pending fx hfx
    rw [outstanding_post] at hold
    have hnew := s.outstanding_feed i i mv.event fx
    rw [if_pos rfl, ← hnode] at hnew
    have hrest : (w.shell.rest mv).count fx = s.outstanding i fx := by
      have hpend : w.shell.pending = w.pending := rfl
      rw [Shell.rest, ← ha, hpend]
      cases hans : answers mv.event with
      | none => simpa [Msg.carries, hans] using hold
      | some g =>
        rw [Option.elim_some, List.count_erase, hold]
        by_cases hg : g = fx <;> simp [Msg.carries, hans, hg]
    rw [hnew, ← hrest]
    exact List.count_append

/-- What another node is told does not concern a node. -/
theorem feed_ne (h : Mirrors s j w) (hij : i ≠ j) (ev : Event Triple) : Mirrors (s.feed i ev) j w := by
  refine h.congr ?_ (fun j => feed_frame SimNode.log (fun _ _ => rfl) s i j ev) fun fx _ => ?_
  · rw [puller_feed, if_neg (Ne.symm hij)]
  · rw [outstanding_feed, if_neg hij, Nat.add_zero]

/-- What a node stores is appended to its log, as all the others see it. -/
theorem store (h : Mirrors s j w) (hi : i < 256) {c : Triple} (hc : c ∉ (s.nodes i).index)
    (hb : (w.logs ⟨peerId i, binOf c⟩).head < (s.nodes i).head (binOf c) + 1) :
    Mirrors (s.store i c) j { w with
      logs := Function.update w.logs ⟨peerId i, binOf c⟩
        ((w.logs ⟨peerId i, binOf c⟩).append ((s.nodes i).head (binOf c) + 1) c hb) } := by
  have hlog : w.logs ⟨peerId i, binOf c⟩ = (s.nodes i).log (binOf c) := by
    rw [h.logs]
    dsimp only
    rw [toNat_peerId hi]
  refine ⟨?_, fun k => ?_, fun fx hfx => ?_⟩
  · rw [nodes_store hc]
    split
    · next hj => exact h.node.trans (by rw [hj]; rfl)
    · exact h.node
  · dsimp only
    rw [nodes_store hc]
    by_cases hk : k = ⟨peerId i, binOf c⟩
    · subst hk
      rw [Function.update_self, if_pos (toNat_peerId hi), SimNode.log_grow_self]
      congr 1
    · rw [Function.update_of_ne hk, h.logs]
      split
      · next hki =>
        have hbin : k.bin ≠ binOf c := fun hb => hk (PeerBin.ext (by
          rw [← hki, peerId_toNat]) hb)
        rw [SimNode.log_grow_ne _ hbin, hki]
      · rfl
  · rw [outstanding_store s hi]
    exact h.pending fx hfx

/-- What another node is told it holds does not concern a node. -/
theorem preload_ne (h : Mirrors s j w) (hij : j ≠ i) (c : Triple) :
    Mirrors (s.preload i c) j w := by
  refine h.congr ?_ (fun j => preload_frame SimNode.log (fun _ _ => rfl) s i c j)
    fun fx _ => outstanding_preload s i c j fx
  rw [preload, nodes_setNode, if_neg hij]

/-- A node that is told what it holds moves as its world does. -/
theorem upload (h : Mirrors s i w) (c : Triple) : Mirrors (s.preload i c) i (w.upload c) := by
  refine ⟨?_, fun k => (h.logs k).trans ?_,
    fun fx hfx => (h.pending fx hfx).trans (outstanding_preload s i c i fx).symm⟩
  · rw [preload, nodes_setNode, if_pos rfl, ← h.node]
    rfl
  · rw [preload_frame SimNode.log fun _ _ => rfl]

end Mirrors

end Melissi.Sim
